/-
  InputSolver — what a graph remembers.

  `Tree.simplified` is simplification without a memory: by recursion along
  every path, on trees.  A graph is `Canonical` for a heap if every normal form
  it remembers is the one without a memory, and is itself a fixed point of
  normalization.  So it cannot be told from its answers what a graph remembers,
  nor which nodes are settled.

  * `simplify_gives`: on a canonical graph an expression whose settled nodes
    are normal is simplified as its tree is, fault or not.
-/
import InputSolver.Proofs.Normal.Canonical
import InputSolver.Proofs.Normal.Graph

namespace InputSolver

open InputSolver.Expr InputSolver.Normal

/-! ## Without a memory -/

namespace Tree

/-- Bound inputs are replaced by their values, and every operation by its
    normal form, the operands first. -/
def simplified (p : Assignment) : Tree → Except Fault Tree
  | literal value => .ok (literal value)
  | input index =>
    match p.get? index with
    | some value => .ok (literal value)
    | none => .ok (input index)
  | binary op s t => do operation op (← s.simplified p) (← t.simplified p)

/-- What is normal stays as it is where no input is bound. -/
theorem Normal.simplified_empty {t : Tree} (ht : t.Normal) : t.simplified .empty = .ok t := by
  induction t with
  | literal => rfl
  | input => rfl
  | binary op s t ihs iht =>
    obtain ⟨hop, hs, ht⟩ := ht
    rw [simplified, ihs hs, iht ht]
    exact hop

end Tree

namespace Expr

/-- Only the inputs that occur matter. -/
theorem simplified_congr {p p' : Assignment} {e : Expr}
    (hp : ∀ i, e.Mentions i → p.get? i = p'.get? i) :
    e.tree.simplified p = e.tree.simplified p' := by
  induction e with
  | literal => rfl
  | input id index => rw [tree_input, Tree.simplified, Tree.simplified, hp index (mentions_input.2 rfl)]
  | binary id settled op l r ihl ihr =>
    rw [tree_binary, Tree.simplified, Tree.simplified,
      ihl fun i hi => hp i (mentions_binary.2 (.inl hi)),
      ihr fun i hi => hp i (mentions_binary.2 (.inr hi))]

/-- The settled nodes are in normal form. -/
def Marked : Expr → Prop
  | binary id settled op l r =>
    (settled = true → (binary id settled op l r).tree.Normal) ∧ l.Marked ∧ r.Marked
  | _ => True

theorem marked_of_normal {e : Expr} (he : e.tree.Normal) : e.Marked := by
  induction e with
  | binary id settled op l r ihl ihr => exact ⟨fun _ => he, ihl he.2.1, ihr he.2.2⟩
  | _ => trivial

theorem Marked.of_mem {e n : Expr} (he : e.Marked) (hn : n ∈ e.nodes) : n.Marked := by
  induction e with
  | binary id settled op l r ihl ihr =>
    rcases mem_nodes_binary.1 hn with rfl | hn | hn
    · exact he
    · exact ihl he.2.1 hn
    · exact ihr he.2.2 hn
  | _ =>
    obtain rfl := List.mem_singleton.1 hn
    exact he

end Expr

/-! ## Canonical graphs -/

/-- Every remembered normal form is normal, and that of its node. -/
structure Graph.Canonical (h : Heap) (g : Graph) : Prop where
  next : g.next = h.next
  normal {id : Nat} {n : Expr} : g.normal[id]? = some n →
    id < h.next ∧ NormalIn h n ∧ (h.node id).tree.simplified .empty = .ok n.tree

theorem Graph.canonical_empty : Graph.empty.Canonical Heap.empty where
  next := rfl
  normal hn := by
    change (∅ : Std.HashMap Nat Expr)[_]? = _ at hn
    rw [Std.HashMap.getElem?_empty] at hn
    cases hn

theorem Graph.Canonical.extend {h k : Heap} {g : Graph} (hg : g.Canonical h) (hle : h ≤ k) :
    Graph.Canonical k { g with next := k.next } where
  next := rfl
  normal hn := by
    obtain ⟨hid, hnormal, htree⟩ := hg.normal hn
    exact ⟨Nat.lt_of_lt_of_le hid hle.1, hnormal.mono hle, by rw [hle.2 _ hid, htree]⟩

namespace GraphM

variable {α β γ δ : Type}

/-- On a graph that is canonical for the heap `h`, the computation has the
    given outcome, up to `R`, and leaves a graph that is canonical for a larger
    heap. -/
def Gives (x : GraphM α) (h : Heap) (o : Except Fault β) (R : Heap → α → β → Prop) : Prop :=
  ∀ g, g.Canonical h → ∃ k, h ≤ k ∧ (x.run.run g).2.Canonical k ∧
    match o with
    | .error fault => (x.run.run g).1 = .error fault
    | .ok b => ∃ a, (x.run.run g).1 = .ok a ∧ R k a b

variable {x : GraphM α} {f : α → GraphM γ} {h : Heap} {o : Except Fault β}
  {o' : β → Except Fault δ} {R : Heap → α → β → Prop} {T : Heap → γ → δ → Prop}

theorem Gives.bind (hx : x.Gives h o R)
    (hf : ∀ k a b, h ≤ k → o = .ok b → R k a b → (f a).Gives k (o' b) T) :
    (x >>= f).Gives h (o >>= o') T := by
  intro g hg
  obtain ⟨k, hle, hk, houtcome⟩ := hx g hg
  rw [run_bind]
  cases o with
  | error fault =>
    rw [houtcome]
    exact ⟨k, hle, hk, rfl⟩
  | ok b =>
    obtain ⟨a, ha, hab⟩ := houtcome
    obtain ⟨m, hle', hm, houtcome'⟩ := hf k a b hle rfl hab _ hk
    rw [ha]
    exact ⟨m, Heap.le_trans hle hle', hm, houtcome'⟩

/-- A computation after one that has an answer. -/
theorem Gives.then {b : β} {u : Except Fault δ} (hx : x.Gives h (.ok b) R)
    (hf : ∀ k a, h ≤ k → R k a b → (f a).Gives k u T) : (x >>= f).Gives h u T := by
  have hbind : (x >>= f).Gives h (Except.ok b >>= fun _ => u) T :=
    hx.bind fun k a b' hle hb hab => hf k a hle (Except.ok.inj hb ▸ hab)
  exact hbind

theorem gives_pure {a : α} {b : β} (hab : R h a b) : (pure a : GraphM α).Gives h (.ok b) R :=
  fun _ hg => ⟨h, h.le_refl, hg, a, rfl, hab⟩

/-- What is known of an answer, and of the graph afterwards. -/
theorem Gives.post (hx : x.Gives h o R) {g : Graph} (hg : g.Canonical h) :
    ∃ k, h ≤ k ∧ (x.run.run g).2.Canonical k ∧
      ∀ a, (x.run.run g).1 = .ok a → ∃ b, R k a b := by
  obtain ⟨k, hle, hk, houtcome⟩ := hx g hg
  refine ⟨k, hle, hk, fun a ha => ?_⟩
  cases o with
  | error fault => cases houtcome.symm.trans ha
  | ok b =>
    obtain ⟨a', ha', hab⟩ := houtcome
    cases ha'.symm.trans ha
    exact ⟨b, hab⟩

/-- An expression in normal form of the given tree. -/
def Is (h : Heap) (e : Expr) (t : Tree) : Prop := NormalIn h e ∧ e.tree = t

theorem Is.mono {k : Heap} {e : Expr} {t : Tree} (he : Is h e t) (hle : h ≤ k) : Is k e t :=
  ⟨he.1.mono hle, he.2⟩

theorem reusable_node {id : Nat} {settled : Bool} {op : Operator} {l r : Expr}
    (he : h.Holds (.binary id settled op l r)) :
    Reusable h op (some (.binary id settled op l r)) := by
  rintro _ ⟨⟩
  exact ⟨he, rfl⟩

/-- Making an expression in normal form. -/
theorem gives_build {x : Build Expr} {o : Except Fault Tree} (hgrows : x.Grows h o)
    (hnormal : x.Meets h False NormalIn) : (build x).Gives h o Is := by
  intro g hg
  rw [run_build, hg.next]
  cases o with
  | error fault =>
    rw [show x h.next = _ from hgrows]
    exact ⟨h, h.le_refl, hg, rfl⟩
  | ok t =>
    obtain ⟨e, _, hrun, -, -, htree⟩ := hgrows
    obtain ⟨k, hle, hnext, he⟩ := hnormal.post hrun
    rw [hrun, ← hnext]
    exact ⟨k, hle, hg.extend hle, e, rfl, he, htree⟩

theorem gives_literal (value : Word) :
    (build (Build.literal value)).Gives h (.ok (.literal value)) Is :=
  gives_build (Build.meets_literal fun _ _ _ hid => ⟨hid, rfl⟩).grows (literal_normal value)

/-- An operation on normal forms. -/
theorem gives_operation {op : Operator} {reuse? : Option Expr} {l r : Expr} {s t : Tree}
    (hreuse : Reusable h op reuse?) (hl : Is h l s) (hr : Is h r t) :
    (build (Normal.operation reuse? op l r)).Gives h (Tree.operation op s t) Is := by
  obtain ⟨hl, rfl⟩ := hl
  obtain ⟨hr, rfl⟩ := hr
  exact gives_build (operation_grows hreuse hl.holds hr.holds) (operation_normal hreuse hl hr)

/-! ## Normal forms -/

theorem gives_record {e n : Expr} (he : h.Holds e) (hn : NormalIn h n)
    (htree : e.tree.simplified .empty = .ok n.tree) :
    (record e.id n).Gives h (.ok ()) fun k _ _ => k = h := by
  intro g hg
  refine ⟨h, h.le_refl, ⟨hg.next, ?_⟩, (), rfl, rfl⟩
  intro id m hm
  change (g.normal.insert e.id n)[id]? = some m at hm
  rw [Std.HashMap.getElem?_insert] at hm
  split at hm
  · rename_i heq
    cases hm
    rw [← eq_of_beq heq, he.self.2]
    exact ⟨he.self.1, hn, htree⟩
  · exact hg.normal hm

theorem normalForm?_gives {e : Expr} (he : h.Holds e) (hmarked : e.Marked) :
    (normalForm? e).Gives h (.ok ()) fun k n? _ =>
      k = h ∧ ∀ n, n? = some n → NormalIn h n ∧ e.tree.simplified .empty = .ok n.tree := by
  have self (hnormal : e.tree.Normal) (n : Expr) (hn : some e = some n) :
      NormalIn h n ∧ e.tree.simplified .empty = .ok n.tree := by
    cases hn
    exact ⟨⟨he, hnormal⟩, hnormal.simplified_empty⟩
  intro g hg
  cases e with
  | binary id settled op l r =>
    cases settled with
    | true => exact ⟨h, h.le_refl, hg, _, rfl, rfl, self (hmarked.1 rfl)⟩
    | false =>
      refine ⟨h, h.le_refl, hg, g.normal[id]?, rfl, rfl, fun n hn => ?_⟩
      obtain ⟨-, hnormal, htree⟩ := hg.normal hn
      rw [(Heap.holds_binary.1 he).1.2] at htree
      exact ⟨hnormal, htree⟩
  | _ => exact ⟨h, h.le_refl, hg, _, rfl, rfl, self trivial⟩

/-- The normal form is that of the tree, without a memory. -/
theorem normalize_gives {e : Expr} (he : h.Holds e) (hmarked : e.Marked) :
    (normalize e).Gives h (e.tree.simplified .empty) Is := by
  induction e generalizing h with
  | literal => exact gives_pure ⟨⟨he, trivial⟩, rfl⟩
  | input => exact gives_pure ⟨⟨he, trivial⟩, rfl⟩
  | binary id settled op l r ihl ihr =>
    rw [normalize]
    refine (normalForm?_gives he hmarked).then fun k n? _ hn? => ?_
    obtain ⟨rfl, hn?⟩ := hn?
    split
    · rename_i n
      obtain ⟨hn, htree⟩ := hn? n rfl
      rw [htree]
      exact gives_pure ⟨hn, rfl⟩
    · refine (ihl he.left hmarked.2.1).bind fun k₁ l' s hle₁ hs hl => ?_
      refine (ihr (he.right.mono hle₁) hmarked.2.2).bind fun k₂ r' t hle₂ ht hr => ?_
      have he₂ := (he.mono hle₁).mono hle₂
      rw [← bind_pure (Tree.operation op s t)]
      refine (gives_operation (reusable_node he₂) (hl.mono hle₂) hr).bind
        fun k₃ n u hle₃ hu hn => ?_
      have htree : (binary id settled op l r).tree.simplified .empty = .ok n.tree := by
        rw [tree_binary, Tree.simplified, hs, ht, hn.2]
        exact hu
      refine (gives_record (he₂.mono hle₃) hn.1 htree).then fun k₄ _ _ hk => ?_
      subst hk
      exact gives_pure hn

/-! ## Simplification -/

/-- The results recorded during a simplification are normal, and those of the
    nodes of their identities. -/
def Memo.Canonical (h : Heap) (p : Assignment) (memo : Memo) : Prop :=
  ∀ (id : Nat) (s : Expr), memo[id]? = some s →
    id < h.next ∧ NormalIn h s ∧ (h.node id).tree.simplified p = .ok s.tree

theorem Memo.Canonical.mono {k : Heap} {p : Assignment} {memo : Memo} (hm : memo.Canonical h p)
    (hle : h ≤ k) : memo.Canonical k p := by
  intro id s hs
  obtain ⟨hid, hnormal, htree⟩ := hm id s hs
  exact ⟨Nat.lt_of_lt_of_le hid hle.1, hnormal.mono hle, by rw [hle.2 id hid, htree]⟩

theorem Memo.Canonical.insert {p : Assignment} {memo : Memo} (hm : memo.Canonical h p) {e s : Expr}
    (he : h.Holds e) (hs : NormalIn h s) (htree : e.tree.simplified p = .ok s.tree) :
    Memo.Canonical h p (Std.HashMap.insert memo e.id s) := by
  intro id t ht
  rw [Std.HashMap.getElem?_insert] at ht
  split at ht
  · rename_i heq
    cases ht
    rw [← eq_of_beq heq, he.self.2]
    exact ⟨he.self.1, hs, htree⟩
  · exact hm id t ht

/-- An expression over none of the bound inputs is simplified as if none were
    bound. -/
theorem simplified_of_not_touches {p : Assignment} {e : Expr} (htouch : ¬ touches p e = true) :
    e.tree.simplified p = e.tree.simplified .empty :=
  simplified_congr fun i hi => unbound_of_not_touches htouch i hi

theorem simplifyWith_gives {p : Assignment} {e : Expr} (he : h.Holds e) (hmarked : e.Marked)
    {memo : Memo} (hm : memo.Canonical h p) :
    ((simplifyWith p e).run memo).Gives h (e.tree.simplified p) fun k r t =>
      Memo.Canonical k p r.2 ∧ Is k r.1 t := by
  induction e generalizing h memo with
  | literal => exact gives_pure ⟨hm, ⟨he, trivial⟩, rfl⟩
  | input id index =>
    rw [simplifyWith_input_run, tree_input, Tree.simplified]
    cases p.get? index with
    | none => exact gives_pure ⟨hm, ⟨he, trivial⟩, rfl⟩
    | some value =>
      exact (gives_literal value).then fun k e hle he => gives_pure ⟨hm.mono hle, he⟩
  | binary id settled op l r ihl ihr =>
    rw [simplifyWith_binary_run]
    split
    · cases hmemo : memo[id]? with
      | some n =>
        obtain ⟨-, hnormal, htree⟩ := hm id n hmemo
        rw [(Heap.holds_binary.1 he).1.2] at htree
        rw [htree]
        exact gives_pure ⟨hm, hnormal, rfl⟩
      | none =>
        refine (ihl he.left hmarked.2.1 hm).bind ?_
        rintro k₁ ⟨l', memo₁⟩ s hle₁ hs ⟨hm₁, hl⟩
        refine (ihr (he.right.mono hle₁) hmarked.2.2 hm₁).bind ?_
        rintro k₂ ⟨r', memo₂⟩ t hle₂ ht ⟨hm₂, hr⟩
        have he₂ := (he.mono hle₁).mono hle₂
        rw [← bind_pure (Tree.operation op s t)]
        refine (gives_operation (reusable_node he₂) (hl.mono hle₂) hr).bind
          fun k₃ n u hle₃ hu hn => ?_
        have htree : (binary id settled op l r).tree.simplified p = .ok n.tree := by
          rw [tree_binary, Tree.simplified, hs, ht, hn.2]
          exact hu
        exact gives_pure ⟨(hm₂.mono hle₃).insert (he₂.mono hle₃) hn.1 htree, hn⟩
    · rename_i htouch
      rw [simplified_of_not_touches htouch, ← bind_pure (Tree.simplified _ _)]
      exact (normalize_gives he hmarked).bind fun k n t hle _ hn => gives_pure ⟨hm.mono hle, hn⟩

/-- What is left under an assignment is what is left of the tree, without a
    memory. -/
theorem simplify_gives {p : Assignment} {e : Expr} (he : h.Holds e) (hmarked : e.Marked) :
    (simplify p e).Gives h (e.tree.simplified p) Is := by
  unfold simplify
  split
  · rename_i hempty
    have hnone (i : Nat) : p.get? i = Assignment.empty.get? i := by
      rw [Assignment.get?, List.isEmpty_iff.1 hempty]
      rfl
    rw [simplified_congr fun i _ => hnone i]
    exact normalize_gives he hmarked
  · have hcanonical : Memo.Canonical h p ∅ := fun id s hs => by
      rw [Std.HashMap.getElem?_empty] at hs
      cases hs
    rw [← bind_pure (Tree.simplified _ _)]
    exact (simplifyWith_gives he hmarked hcanonical).bind fun k r t _ _ hr => gives_pure hr.2

end GraphM

end InputSolver
