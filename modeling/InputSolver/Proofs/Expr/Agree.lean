/-
  InputSolver — two runs that agree.

  Computations that make nodes may run from different heaps, on expressions
  that share nodes in different ways.  Two of them `Agree` if both end in the
  same fault, or both in larger heaps with related results.

  * `Agree.bind` puts pairs of computations together;
  * `Grows` says how one computation ends, up to identities: a run that agrees
    with another one grows what that one does (`Agree.grows`).
-/
import InputSolver.Proofs.Expr.Tree

namespace InputSolver.Build

open InputSolver.Expr

variable {α β γ δ : Type}

/-- From the heaps `h` and `k` the computations end in the same fault, or in
    larger heaps with results as `R` asks for. -/
inductive Agree (x : Build α) (h : Heap) (y : Build β) (k : Heap)
    (R : Heap → α → Heap → β → Prop) : Prop
  | fault {f : Fault} (left : x h.next = .error f) (right : y k.next = .error f)
  | result {a : α} {b : β} {h' k' : Heap} (left : x h.next = .ok (a, h'.next))
      (right : y k.next = .ok (b, k'.next)) (le : h ≤ h') (le' : k ≤ k') (related : R h' a k' b)

variable {x : Build α} {y : Build β} {f : α → Build γ} {g : β → Build δ} {h k : Heap}
  {R : Heap → α → Heap → β → Prop} {T : Heap → γ → Heap → δ → Prop}

theorem Agree.bind (hxy : x.Agree h y k R) (hfg : ∀ h' a k' b, h ≤ h' → k ≤ k' → R h' a k' b →
    (f a).Agree h' (g b) k' T) : (x >>= f).Agree h (y >>= g) k T := by
  have run {α β : Type} {x : Build α} {f : α → Build β} {next : Nat} {r : Except Fault (α × Nat)}
      (hx : x next = r) : (x >>= f) next = r >>= fun p => f p.1 p.2 := hx ▸ rfl
  cases hxy with
  | fault left right => exact .fault (run left) (run right)
  | result left right le le' hab =>
    cases hfg _ _ _ _ le le' hab with
    | fault left' right' => exact .fault ((run left).trans left') ((run right).trans right')
    | result left' right' le₁ le₁' hcd =>
      exact .result ((run left).trans left') ((run right).trans right') (Heap.le_trans le le₁)
        (Heap.le_trans le' le₁') hcd

theorem agree_pure {a : α} {b : β} (hab : R h a k b) :
    (pure a : Build α).Agree h (pure b) k R :=
  .result rfl rfl h.le_refl k.le_refl hab

theorem lift_bind (x : Except Fault α) (f : α → Except Fault γ) :
    (liftM (x >>= f) : Build γ) = liftM x >>= fun a => liftM (f a) := by
  cases x <;> rfl

/-- Computations that make no nodes and have one outcome. -/
theorem Agree.lift_bind {x y : Except Fault α} {f : α → Build γ} {g : α → Build δ} (hxy : x = y)
    (hfg : ∀ a, x = .ok a → (f a).Agree h (g a) k T) :
    (liftM x >>= f : Build γ).Agree h (liftM y >>= g) k T := by
  subst hxy
  cases x with
  | error fault => exact .fault rfl rfl
  | ok a =>
    cases hfg a rfl with
    | fault left right => exact .fault left right
    | result left right le le' hab => exact .result left right le le' hab

/-- Computations that meet specifications and do not fault. -/
theorem agree_of_meets {P : Heap → α → Prop} {Q : Heap → β → Prop} (hx : x.Meets h True P)
    (hy : y.Meets k True Q) (hR : ∀ h' a k' b, P h' a → Q k' b → R h' a k' b) :
    x.Agree h y k R := by
  obtain ⟨a, next, ha⟩ := hx.ok trivial
  obtain ⟨b, next', hb⟩ := hy.ok trivial
  obtain ⟨h', hle, rfl, hP⟩ := hx.post ha
  obtain ⟨k', hle', rfl, hQ⟩ := hy.post hb
  exact .result ha hb hle hle' (hR _ _ _ _ hP hQ)

theorem Agree.attach {p : α → Prop} {q : β → Prop} (hxy : x.Agree h y k R)
    (hp : ∀ next a next', x next = .ok (a, next') → p a)
    (hq : ∀ next b next', y next = .ok (b, next') → q b) :
    (x.attach hp).Agree h (y.attach hq) k fun h' a k' b => R h' a.1 k' b.1 := by
  have attached {α : Type} {x : Build α} {p : α → Prop}
      (hp : ∀ next a next', x next = .ok (a, next') → p a) {next : Nat} :
      (∀ f, x next = .error f → x.attach hp next = .error f) ∧
        ∀ a next', (hx : x next = .ok (a, next')) →
          x.attach hp next = .ok (⟨a, hp next a next' hx⟩, next') := by
    unfold Build.attach
    constructor
    · intro f hf
      split
      · rename_i hok
        cases hok.symm.trans hf
      · rename_i hf'
        cases hf'.symm.trans hf
        rfl
    · intro a next' ha
      split
      · rename_i hok
        obtain ⟨rfl, rfl⟩ := Prod.mk.inj (Except.ok.inj (hok.symm.trans ha))
        rfl
      · rename_i hf
        cases hf.symm.trans ha
  cases hxy with
  | fault left right =>
    exact .fault ((attached hp).1 _ left) ((attached hq).1 _ right)
  | result left right le le' hab =>
    exact .result ((attached hp).2 _ _ left) ((attached hq).2 _ _ right) le le' hab

/-! ## Copies of new nodes -/

theorem agree_literal (value : Word) : (literal value).Agree h (literal value) k Copies :=
  agree_of_meets (meets_literal fun _ id _ hid => ⟨hid, id, rfl⟩)
    (meets_literal fun _ id _ hid => ⟨hid, id, rfl⟩)
    (P := fun h e => h.Holds e ∧ ∃ id, e = .literal id value)
    (Q := fun h e => h.Holds e ∧ ∃ id, e = .literal id value)
    fun _ _ _ _ hP hQ => by
      obtain ⟨hP, _, rfl⟩ := hP
      obtain ⟨hQ, _, rfl⟩ := hQ
      exact ⟨hP, hQ, rfl⟩

/-- Identities that are given to literals of one value. -/
theorem Agree.identity_bind {f : Nat → Build γ} {g : Nat → Build δ} (value : Word)
    (hfg : ∀ h' id k' id', h ≤ h' → k ≤ k' →
      Copies h' (.literal id value) k' (.literal id' value) → (f id).Agree h' (g id') k' T) :
    (identity >>= f).Agree h (identity >>= g) k T := by
  have new (h : Heap) : identity.Meets h True fun k id => k.Holds (.literal id value) :=
    meets_identity (h.holds_push_literal value)
  have hxy : identity.Agree h identity k fun h' id k' id' =>
      Copies h' (.literal id value) k' (.literal id' value) :=
    agree_of_meets (new h) (new k) fun _ _ _ _ hP hQ => ⟨hP, hQ, rfl⟩
  exact hxy.bind fun h' id k' id' => hfg h' id k' id'

/-! ## One run up to identities -/

/-- From the heap `h` the computation ends in the given fault, or in a larger
    heap with an expression of the given tree. -/
def Grows (x : Build Expr) (h : Heap) : Except Fault Tree → Prop
  | .error f => x h.next = .error f
  | .ok t => ∃ e k, x h.next = .ok (e, Heap.next k) ∧ h ≤ k ∧ k.Holds e ∧ e.tree = t

variable {x y : Build Expr}

/-- A run ends as one that agrees with it. -/
theorem Agree.grows (hxy : x.Agree h y k Copies) :
    x.Grows h ((y k.next).map fun r => r.1.tree) := by
  cases hxy with
  | fault left right =>
    rw [right]
    exact left
  | result left right le le' hcopies =>
    rw [right]
    exact ⟨_, _, left, le, hcopies.left, hcopies.tree⟩

theorem Meets.grows {t : Tree} (hx : x.Meets h True fun k e => k.Holds e ∧ e.tree = t) :
    x.Grows h (.ok t) := by
  obtain ⟨e, next, hrun⟩ := hx.ok trivial
  obtain ⟨k, hle, rfl, he, ht⟩ := hx.post hrun
  exact ⟨e, k, hrun, hle, he, ht⟩

end InputSolver.Build
