/-
  InputSolver — heaps of nodes.

  A `Heap` gives the node of every identity below its next one.  It `Holds` an
  expression if all nodes of the expression are its own, so that expressions
  held by one heap share nodes wherever they share identities (`eq_of_id`).
  Making nodes only extends a heap.

  * `Build.Meets` specifies a computation that makes nodes: from a heap, it
    ends in a larger one with a result as asked for, and it faults only where
    a condition fails;
  * `Build.Meets.bind` puts two such computations together.
-/
import InputSolver.Expr.Basic

namespace InputSolver

open InputSolver.Expr

/-- The nodes of the identities given so far, and the next identity to give. -/
structure Heap where
  next : Nat
  node : Nat → Expr

namespace Heap

/-- All nodes of an expression are in the heap, each at its identity. -/
def Holds (h : Heap) (e : Expr) : Prop := ∀ n ∈ e.nodes, n.id < h.next ∧ h.node n.id = n

/-- The larger heap has the same nodes at the identities of the smaller one. -/
instance : LE Heap where
  le h k := h.next ≤ k.next ∧ ∀ i < h.next, k.node i = h.node i

/-- No nodes. -/
def empty : Heap := ⟨0, fun i => .literal i 0⟩

/-- One more node, at the next identity. -/
def push (h : Heap) (n : Expr) : Heap := ⟨h.next + 1, fun i => if i = h.next then n else h.node i⟩

variable {h k m : Heap} {e e' l r : Expr}

theorem le_refl (h : Heap) : h ≤ h := ⟨Nat.le_refl _, fun _ _ => rfl⟩

theorem le_trans (h₁ : h ≤ k) (h₂ : k ≤ m) : h ≤ m :=
  ⟨Nat.le_trans h₁.1 h₂.1, fun i hi => (h₂.2 i (Nat.lt_of_lt_of_le hi h₁.1)).trans (h₁.2 i hi)⟩

theorem le_push (h : Heap) (n : Expr) : h ≤ h.push n :=
  ⟨Nat.le_succ _, fun _ hi => if_neg (Nat.ne_of_lt hi)⟩

theorem push_node (h : Heap) (n : Expr) : (h.push n).node h.next = n := if_pos rfl

/-! ## Expressions held by a heap -/

theorem Holds.mono (he : h.Holds e) (hle : h ≤ k) : k.Holds e := fun n hn =>
  ⟨Nat.lt_of_lt_of_le (he n hn).1 hle.1, (hle.2 _ (he n hn).1).trans (he n hn).2⟩

theorem Holds.self (he : h.Holds e) : e.id < h.next ∧ h.node e.id = e :=
  he e (by cases e <;> exact List.mem_cons_self)

theorem Holds.of_mem (he : h.Holds e) {n : Expr} (hn : ∀ m ∈ n.nodes, m ∈ e.nodes) : h.Holds n :=
  fun m hm => he m (hn m hm)

theorem holds_binary {id : Nat} {settled : Bool} {op : Operator} :
    h.Holds (binary id settled op l r) ↔
      (id < h.next ∧ h.node id = binary id settled op l r) ∧ h.Holds l ∧ h.Holds r := by
  constructor
  · intro h
    exact ⟨h.self, h.of_mem fun _ hn => List.mem_cons_of_mem _ (List.mem_append_left _ hn),
      h.of_mem fun _ hn => List.mem_cons_of_mem _ (List.mem_append_right _ hn)⟩
  · rintro ⟨hself, hl, hr⟩ n hn
    rcases List.mem_cons.1 hn with rfl | hn
    · exact hself
    · exact (List.mem_append.1 hn).elim (hl n) (hr n)

theorem Holds.left {id : Nat} {settled : Bool} {op : Operator}
    (he : h.Holds (binary id settled op l r)) : h.Holds l := (holds_binary.1 he).2.1

theorem Holds.right {id : Nat} {settled : Bool} {op : Operator}
    (he : h.Holds (binary id settled op l r)) : h.Holds r := (holds_binary.1 he).2.2

/-- Nodes of one identity are equal. -/
theorem eq_of_id (he : h.Holds e) (he' : h.Holds e') (hid : e.id = e'.id) : e = e' := by
  rw [← he.self.2, hid, he'.self.2]

/-- All expressions of an expression graph are held by one heap. -/
theorem exists_holds {roots : List Expr} (hroots : Coherent roots) :
    ∃ h : Heap, ∀ e ∈ roots, h.Holds e := by
  let all := roots.flatMap nodes
  have hbound : ∃ next, ∀ n ∈ all, n.id < next := by
    induction all with
    | nil => exact ⟨0, nofun⟩
    | cons m ms ih =>
      obtain ⟨next, hnext⟩ := ih
      refine ⟨max next (m.id + 1), fun n hn => ?_⟩
      rcases List.mem_cons.1 hn with rfl | hn
      · exact Nat.le_max_right ..
      · exact Nat.lt_of_lt_of_le (hnext n hn) (Nat.le_max_left ..)
  obtain ⟨next, hnext⟩ := hbound
  refine ⟨⟨next, fun i => (all.find? (·.id == i)).getD (.literal i 0)⟩, fun e he n hn => ?_⟩
  have hn : n ∈ all := List.mem_flatMap.2 ⟨e, he, hn⟩
  refine ⟨hnext n hn, ?_⟩
  change (all.find? (·.id == n.id)).getD (.literal n.id 0) = n
  cases hfind : all.find? (·.id == n.id) with
  | none => exact absurd (beq_self_eq_true n.id) (List.find?_eq_none.1 hfind n hn)
  | some m =>
    have hid := List.find?_some hfind
    exact hroots m (List.mem_of_find?_eq_some hfind) n hn (eq_of_beq hid)

/-- An expression graph with one root is held by a heap. -/
theorem exists_holds_root (he : Coherent [e]) : ∃ h : Heap, h.Holds e :=
  let ⟨h, hholds⟩ := exists_holds he
  ⟨h, hholds e List.mem_cons_self⟩

theorem holds_push_literal (h : Heap) (value : Word) :
    (h.push (.literal h.next value)).Holds (.literal h.next value) := by
  intro n hn
  obtain rfl := List.mem_singleton.1 hn
  exact ⟨Nat.lt_succ_self _, h.push_node _⟩

theorem holds_push_input (h : Heap) (index : Nat) :
    (h.push (.input h.next index)).Holds (.input h.next index) := by
  intro n hn
  obtain rfl := List.mem_singleton.1 hn
  exact ⟨Nat.lt_succ_self _, h.push_node _⟩

theorem holds_push_binary (hl : h.Holds l) (hr : h.Holds r) (settled : Bool) (op : Operator) :
    (h.push (.binary h.next settled op l r)).Holds (.binary h.next settled op l r) :=
  holds_binary.2 ⟨⟨Nat.lt_succ_self _, h.push_node _⟩, hl.mono (h.le_push _), hr.mono (h.le_push _)⟩

end Heap

/-! ## Computations that make nodes -/

namespace Build

variable {α β : Type}

/-- From the heap `h` the computation ends in a larger heap with a result as
    `Q` asks for; it faults only if `P` fails. -/
structure Meets (x : Build α) (h : Heap) (P : Prop) (Q : Heap → α → Prop) : Prop where
  post {a : α} {next : Nat} : x h.next = .ok (a, next) → ∃ k, h ≤ k ∧ k.next = next ∧ Q k a
  ok : P → ∃ a next, x h.next = .ok (a, next)

variable {x : Build α} {f : α → Build β} {h : Heap} {P P' : Prop} {Q Q' : Heap → α → Prop}
  {R : Heap → β → Prop}

theorem Meets.imp (hx : x.Meets h P' Q') (hP : P → P') (hQ : ∀ k a, h ≤ k → Q' k a → Q k a) :
    x.Meets h P Q where
  post hok :=
    let ⟨k, hle, hnext, hq⟩ := hx.post hok
    ⟨k, hle, hnext, hQ k _ hle hq⟩
  ok hp := hx.ok (hP hp)

theorem Meets.bind (hx : x.Meets h P Q)
    (hf : ∀ k a, h ≤ k → Q k a → (f a).Meets k P R) : (x >>= f).Meets h P R where
  post hok := by
    obtain ⟨a, mid, hxa, hfb⟩ := bind_eq_ok hok
    obtain ⟨k, hle, rfl, hq⟩ := hx.post hxa
    obtain ⟨m, hle', hnext, hr⟩ := (hf k a hle hq).post hfb
    exact ⟨m, Heap.le_trans hle hle', hnext, hr⟩
  ok hp := by
    obtain ⟨a, mid, hxa⟩ := hx.ok hp
    obtain ⟨k, hle, rfl, hq⟩ := hx.post hxa
    obtain ⟨b, next, hfb⟩ := (hf k a hle hq).ok hp
    refine ⟨b, next, ?_⟩
    change (x h.next >>= fun p => f p.1 p.2) = _
    rw [hxa]
    exact hfb

theorem meets_pure {a : α} (hq : Q h a) : (pure a : Build α).Meets h P Q where
  post hok := by
    obtain ⟨rfl, rfl⟩ := pure_eq_ok hok
    exact ⟨h, h.le_refl, rfl, hq⟩
  ok _ := ⟨a, h.next, rfl⟩

/-- A computation that makes no nodes. -/
theorem meets_lift {x : Except Fault α} (hP : P → ∃ a, x = .ok a) (hQ : ∀ a, x = .ok a → Q h a) :
    (liftM x : Build α).Meets h P Q where
  post hok := by
    obtain ⟨hx, rfl⟩ := lift_eq_ok hok
    exact ⟨h, h.le_refl, rfl, hQ _ hx⟩
  ok hp := by
    obtain ⟨a, rfl⟩ := hP hp
    exact ⟨a, h.next, rfl⟩

/-- A computation that makes no nodes, where faults do not matter. -/
theorem Meets.lift_bind {x : Except Fault α} {f : α → Build β}
    (hf : ∀ a, x = .ok a → (f a).Meets h False R) : (liftM x >>= f : Build β).Meets h False R :=
  (meets_lift (Q := fun k a => k = h ∧ x = .ok a) False.elim fun _ ha => ⟨rfl, ha⟩).bind
    fun _ a _ ha => ha.1 ▸ hf a ha.2

theorem Meets.attach {p : α → Prop} (hx : x.Meets h P Q)
    (hp : ∀ next a next', x next = .ok (a, next') → p a) :
    (x.attach hp).Meets h P fun k a => Q k a.1 where
  post hok := by
    unfold Build.attach at hok
    split at hok
    · rename_i heq
      cases hok
      exact hx.post heq
    · cases hok
  ok hP := by
    obtain ⟨a, next, ha⟩ := hx.ok hP
    refine ⟨⟨a, hp _ _ _ ha⟩, next, ?_⟩
    unfold Build.attach
    split
    · rename_i heq
      cases ha.symm.trans heq
      rfl
    · rename_i heq
      cases ha.symm.trans heq

theorem meets_identity {Q : Heap → Nat → Prop} {n : Expr} (hq : Q (h.push n) h.next) :
    identity.Meets h P Q where
  post hok := by
    cases hok
    exact ⟨h.push n, h.le_push n, rfl, hq⟩
  ok _ := ⟨h.next, h.next + 1, rfl⟩

/-- An identity that is given to a literal. -/
theorem Meets.identity_bind {f : Nat → Build β} (value : Word)
    (hf : ∀ k id, h ≤ k → k.Holds (.literal id value) → (f id).Meets k P R) :
    (identity >>= f).Meets h P R :=
  (meets_identity (Q := fun k id => k.Holds (.literal id value))
    (h.holds_push_literal value)).bind hf

theorem meets_literal {Q : Heap → Expr → Prop} {value : Word}
    (hq : ∀ k id, h ≤ k → k.Holds (.literal id value) → Q k (.literal id value)) :
    (literal value).Meets h P Q :=
  Meets.identity_bind value fun k id hle hk => meets_pure (hq k id hle hk)

/-- A literal that is made for use in the rest of a computation. -/
theorem Meets.literal_bind {f : Expr → Build β} {value : Word}
    (hf : ∀ k id, h ≤ k → k.Holds (.literal id value) → (f (.literal id value)).Meets k P R) :
    (literal value >>= f).Meets h P R := by
  rw [literal, bind_assoc]
  exact Meets.identity_bind value fun k id hle hk => by
    rw [pure_bind]
    exact hf k id hle hk

theorem meets_settled {Q : Heap → Expr → Prop} {op : Operator} {l r : Expr} (hl : h.Holds l)
    (hr : h.Holds r) (hq : ∀ k id, h ≤ k → k.Holds (.binary id true op l r) →
      Q k (.binary id true op l r)) : (settled op l r).Meets h P Q :=
  (meets_identity (Q := fun k id => h ≤ k ∧ k.Holds (.binary id true op l r))
    ⟨h.le_push _, h.holds_push_binary hl hr true op⟩).bind
      fun k id _ ⟨hle, hk⟩ => meets_pure (hq k id hle hk)

end Build

end InputSolver
