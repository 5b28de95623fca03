/-
  InputSolver — normal forms in an expression graph.

  A graph is `Sound` for a heap if every normal form it remembers stands for
  the node of that identity.  Computations on a graph are specified as those
  that make nodes are (`GraphM.Meets`); a fault leaves the graph sound.

  * `normalize_meets`: a normal form has every value of the expression over
    digits, and no larger magnitude;
  * `simplify_meets`: so does the simplified expression under every extension
    of the assignment, and it has none of the bound inputs.
-/
import InputSolver.Normal.Graph
import InputSolver.Proofs.Normal.Operation

namespace InputSolver

open InputSolver.Expr

namespace Normal

/-- What a normal form of `e` is: an expression over inputs of `e` that, if
    `e` is bounded, is no larger and has every value of `e` over digits. -/
def NormalFor (h : Heap) (e n : Expr) : Prop :=
  Yields h e.Mentions e.Bounded e.magnitude (fun a v => e.valueOn a = .ok v) n

/-- What is left of `e` under the assignment `p`: an expression over unbound
    inputs of `e` that, if `e` is bounded and `p` binds digits, is no larger
    than `e` and has every value of `e` over digits that extend `p`. -/
def SimplifiedFor (h : Heap) (p : Assignment) (e s : Expr) : Prop :=
  Yields h (fun i => e.Mentions i ∧ p.get? i = none) (e.Bounded ∧ p.Digits) e.magnitude
    (fun a v => p.ExtendedBy a ∧ e.valueOn a = .ok v) s

end Normal

open InputSolver.Normal

/-- Every remembered normal form stands for the node of its identity. -/
structure Graph.Sound (h : Heap) (g : Graph) : Prop where
  next : g.next = h.next
  normal {id : Nat} {n : Expr} : g.normal[id]? = some n → id < h.next ∧ NormalFor h (h.node id) n

theorem Graph.sound_empty : Graph.empty.Sound Heap.empty where
  next := rfl
  normal hn := by
    simp [Graph.empty] at hn

theorem Graph.Sound.extend {h k : Heap} {g : Graph} (hg : g.Sound h) (hle : h ≤ k) :
    Graph.Sound k { g with next := k.next } where
  next := rfl
  normal hn := by
    obtain ⟨hid, hfor⟩ := hg.normal hn
    rw [hle.2 _ hid]
    exact ⟨Nat.lt_of_lt_of_le hid hle.1, Yields.mono hfor hle⟩

namespace GraphM

variable {α β : Type}

/-- On a graph that is sound for the heap `h`, the computation leaves a graph
    that is sound for a larger heap, with a result as `Q` asks for; it faults
    only if `P` fails. -/
def Meets (x : GraphM α) (h : Heap) (P : Prop) (Q : Heap → α → Prop) : Prop :=
  ∀ g, g.Sound h → ∃ k, h ≤ k ∧ (x.run.run g).2.Sound k ∧
    (∀ a, (x.run.run g).1 = .ok a → Q k a) ∧ (P → ∃ a, (x.run.run g).1 = .ok a)

variable {x : GraphM α} {f : α → GraphM β} {h : Heap} {P P' : Prop} {Q Q' : Heap → α → Prop}
  {R : Heap → β → Prop}

theorem run_bind (x : GraphM α) (f : α → GraphM β) (g : Graph) :
    (x >>= f).run.run g =
      match (x.run.run g).1 with
      | .ok a => (f a).run.run (x.run.run g).2
      | .error fault => (.error fault, (x.run.run g).2) := by
  change (ExceptT.bindCont f (x.run.run g).1).run (x.run.run g).2 = _
  cases (x.run.run g).1 <;> rfl

theorem Meets.imp (hx : x.Meets h P' Q') (hP : P → P') (hQ : ∀ k a, h ≤ k → Q' k a → Q k a) :
    x.Meets h P Q := fun g hg =>
  let ⟨k, hle, hk, hq, hok⟩ := hx g hg
  ⟨k, hle, hk, fun a ha => hQ k a hle (hq a ha), fun hp => hok (hP hp)⟩

theorem Meets.bind (hx : x.Meets h P Q) (hf : ∀ k a, h ≤ k → Q k a → (f a).Meets k P R) :
    (x >>= f).Meets h P R := by
  intro g hg
  obtain ⟨k, hle, hk, hq, hok⟩ := hx g hg
  rw [run_bind]
  cases hr : (x.run.run g).1 with
  | error fault =>
    refine ⟨k, hle, hk, nofun, fun hp => ?_⟩
    obtain ⟨a, ha⟩ := hok hp
    cases hr.symm.trans ha
  | ok a =>
    obtain ⟨m, hle', hm, hr, hok'⟩ := hf k a hle (hq a hr) _ hk
    exact ⟨m, Heap.le_trans hle hle', hm, hr, hok'⟩

theorem meets_pure {a : α} (hq : Q h a) : (pure a : GraphM α).Meets h P Q := fun g hg =>
  ⟨h, h.le_refl, hg, fun _ ha => by cases ha; exact hq, fun _ => ⟨a, rfl⟩⟩

theorem run_build (x : Build α) (g : Graph) :
    (build x).run.run g =
      match x g.next with
      | .ok (a, next) => (.ok a, { g with next })
      | .error fault => (.error fault, g) := rfl

theorem run_build_of_ok {x : Build α} {g : Graph} {a : α} {next : Nat}
    (h : x g.next = .ok (a, next)) : (build x).run.run g = (.ok a, { g with next }) := by
  rw [run_build, h]

theorem run_build_of_error {x : Build α} {g : Graph} {fault : Fault}
    (h : x g.next = .error fault) : (build x).run.run g = (.error fault, g) := by
  rw [run_build, h]

theorem meets_build {x : Build α} (hx : x.Meets h P Q) : (build x).Meets h P Q := by
  intro g hg
  rw [run_build, hg.next]
  cases hres : x h.next with
  | error fault =>
    refine ⟨h, h.le_refl, hg, fun a ha => (by cases ha), fun hp => ?_⟩
    obtain ⟨a, next, ha⟩ := hx.ok hp
    cases hres.symm.trans ha
  | ok p =>
    obtain ⟨a, next⟩ := p
    obtain ⟨k, hle, rfl, hq⟩ := hx.post hres
    exact ⟨k, hle, hg.extend hle, fun b hb => by cases hb; exact hq, fun _ => ⟨a, rfl⟩⟩

/-! ## Normal forms -/

theorem meets_record {e n : Expr} (he : h.Holds e) (hn : NormalFor h e n) :
    (record e.id n).Meets h P fun k _ => k = h := by
  intro g hg
  refine ⟨h, h.le_refl, ⟨hg.next, ?_⟩, fun _ _ => rfl, fun _ => ⟨(), rfl⟩⟩
  intro id m hm
  change (g.normal.insert e.id n)[id]? = some m at hm
  rw [Std.HashMap.getElem?_insert] at hm
  split at hm
  · rename_i heq
    cases hm
    rw [← eq_of_beq heq, he.self.2]
    exact ⟨he.self.1, hn⟩
  · exact hg.normal hm

/-- An expression is its own normal form. -/
theorem normalFor_self {e : Expr} (he : h.Holds e) : NormalFor h e e :=
  ⟨⟨he, e.over_mentions, fun hb => hb⟩, fun _ => e.extent_le_magnitude, fun _ _ _ _ hv => hv⟩

theorem normalForm?_meets {e : Expr} (he : h.Holds e) :
    (normalForm? e).Meets h P fun k n? => k = h ∧ ∀ n, n? = some n → NormalFor h e n := by
  intro g hg
  refine ⟨h, h.le_refl, ?_⟩
  cases e with
  | binary id settled op l r =>
    cases settled with
    | true =>
      refine ⟨hg, fun n? hn? => ⟨rfl, fun n hn => ?_⟩, fun _ => ⟨_, rfl⟩⟩
      cases hn?
      cases hn
      exact normalFor_self he
    | false =>
      refine ⟨hg, fun n? hn? => ⟨rfl, fun n hn => ?_⟩, fun _ => ⟨_, rfl⟩⟩
      cases hn?
      obtain ⟨-, hfor⟩ := hg.normal hn
      rwa [(Heap.holds_binary.1 he).1.2] at hfor
  | _ =>
    refine ⟨hg, fun n? hn? => ⟨rfl, fun n hn => ?_⟩, fun _ => ⟨_, rfl⟩⟩
    cases hn?
    cases hn
    exact normalFor_self he

/-- A normal form has every value of the expression, and no larger magnitude. -/
theorem normalize_meets {e : Expr} (he : h.Holds e) :
    (normalize e).Meets h e.Bounded fun k n => NormalFor k e n := by
  induction e generalizing h with
  | literal id value => exact meets_pure (normalFor_self he)
  | input id index => exact meets_pure (normalFor_self he)
  | binary id settled op l r ihl ihr =>
    rw [normalize]
    refine (normalForm?_meets he).bind fun k n? _ hn? => ?_
    obtain ⟨rfl, hn?⟩ := hn?
    split
    · exact meets_pure (hn? _ rfl)
    · refine ((ihl he.left).imp Bounded.left fun _ _ _ hl => hl).bind fun k₁ l' hle₁ hl => ?_
      refine ((ihr (he.right.mono hle₁)).imp Bounded.right fun _ _ _ hr => hr).bind
        fun k₂ r' hle₂ hr => ?_
      have he₂ := (he.mono hle₁).mono hle₂
      have hop := operation_meets_node rfl he₂ (fun hb => hb)
        ((hl.mono hle₂).weaken (fun i hi => mentions_binary.2 (.inl hi)) Bounded.left)
        (hr.weaken (fun i hi => mentions_binary.2 (.inr hi)) Bounded.right)
        (S := (binary id settled op l r).Mentions)
        (V := fun a v => valueOn a (binary id settled op l r) = .ok v)
        fun _ a v _ hv => valueOn_binary.1 hv
      refine (meets_build hop).bind fun k₃ n hle₃ hn => ?_
      refine (meets_record (he₂.mono hle₃) hn).bind fun k₄ _ _ hk => ?_
      subst hk
      exact meets_pure hn

/-! ## Simplification -/

/-- A normal form is what is left where no input is bound. -/
theorem simplifiedFor_of_normalFor {p : Assignment} {e n : Expr} (hn : NormalFor h e n)
    (hunbound : ∀ i, e.Mentions i → p.get? i = none) : SimplifiedFor h p e n :=
  ⟨⟨hn.holds, hn.inputs.imp fun i hi => ⟨hi, hunbound i hi⟩, fun hp => hn.bounded hp.1⟩,
    fun hp => hn.extent_le hp.1, fun hp a v ha hv => hn.value hp.1 a v ha hv.2⟩

/-- An expression over none of the bound inputs is not touched. -/
theorem unbound_of_not_touches {p : Assignment} {e : Expr} (htouch : ¬ touches p e = true) (i : Nat)
    (hi : e.Mentions i) : p.get? i = none := by
  obtain ⟨lo, hi', hspan, h₁, h₂⟩ := mem_inputSpan hi
  by_contra hbound
  obtain ⟨v, hv⟩ := Option.ne_none_iff_exists'.1 hbound
  refine htouch ?_
  rw [touches, hspan]
  simp only [Assignment.bindsWithin, List.any_eq_true, Bool.and_eq_true, decide_eq_true_eq]
  exact ⟨(i, v), Assignment.mem_entries_iff.2 hv, h₁, h₂⟩

/-- The results recorded during a simplification are what is left of the nodes
    of their identities. -/
def Memo.Sound (h : Heap) (p : Assignment) (memo : Memo) : Prop :=
  ∀ (id : Nat) (s : Expr), memo[id]? = some s → id < h.next ∧ SimplifiedFor h p (h.node id) s

theorem Memo.Sound.mono {k : Heap} {p : Assignment} {memo : Memo} (hm : memo.Sound h p)
    (hle : h ≤ k) : memo.Sound k p := by
  intro id s hs
  obtain ⟨hid, hfor⟩ := hm id s hs
  rw [hle.2 id hid]
  exact ⟨Nat.lt_of_lt_of_le hid hle.1, Yields.mono hfor hle⟩

theorem Memo.Sound.insert {p : Assignment} {memo : Memo} (hm : memo.Sound h p) {e s : Expr}
    (he : h.Holds e) (hs : SimplifiedFor h p e s) :
    Memo.Sound h p (Std.HashMap.insert memo e.id s) := by
  intro id t ht
  rw [Std.HashMap.getElem?_insert] at ht
  split at ht
  · rename_i heq
    cases ht
    rw [← eq_of_beq heq, he.self.2]
    exact ⟨he.self.1, hs⟩
  · exact hm id t ht

theorem simplifyWith_input_run (p : Assignment) (id index : Nat) (memo : Memo) :
    (simplifyWith p (.input id index)).run memo =
      match p.get? index with
      | some value => do
        let e ← build (Build.literal value)
        return (e, memo)
      | none => return (.input id index, memo) := by
  rw [simplifyWith]
  cases p.get? index <;> rfl

theorem simplifyWith_binary_run (p : Assignment) (id : Nat) (settled : Bool) (op : Operator)
    (l r : Expr) (memo : Memo) :
    (simplifyWith p (.binary id settled op l r)).run memo =
      if touches p (.binary id settled op l r) then
        match memo[id]? with
        | some n => return (n, memo)
        | none => do
          let (l', memo) ← (simplifyWith p l).run memo
          let (r', memo) ← (simplifyWith p r).run memo
          let n ← build (Normal.operation (some (.binary id settled op l r)) op l' r')
          return (n, memo.insert id n)
      else do
        let n ← normalize (.binary id settled op l r)
        return (n, memo) := by
  rw [simplifyWith]
  split
  · change (match memo[id]? with
      | some n => return n
      | none => _ : StateT Memo GraphM Expr).run memo = _
    cases memo[id]? with
    | some n => rfl
    | none =>
      simp only [StateT.run_bind, StateT.run_monadLift, monadLift_self, bind_assoc, pure_bind,
        StateT.run_pure]
      rfl
  · rfl

theorem simplifyWith_meets {p : Assignment} {e : Expr} (he : h.Holds e) {memo : Memo}
    (hm : memo.Sound h p) :
    ((simplifyWith p e).run memo).Meets h (e.Bounded ∧ p.Digits) fun k r =>
      Memo.Sound k p r.2 ∧ SimplifiedFor k p e r.1 := by
  induction e generalizing h memo with
  | literal id value =>
    exact meets_pure ⟨hm, simplifiedFor_of_normalFor (normalFor_self he) fun i hi =>
      (not_mentions_literal hi).elim⟩
  | input id index =>
    rw [simplifyWith_input_run]
    cases hp : p.get? index with
    | none =>
      refine meets_pure ⟨hm, simplifiedFor_of_normalFor (normalFor_self he) fun i hi => ?_⟩
      rwa [← mentions_input.1 hi]
    | some value =>
      have hdigit (hd : p.Digits) : value.toInt.natAbs ≤ 9 := Digit.natAbs_le (hd index value hp)
      refine (meets_build (literal_meets (K := 9) (fun _ => by decide) (fun h => hdigit h.2)
        fun _ a v _ hv => ?_)).bind fun k s hle hs => meets_pure ⟨hm.mono hle, hs⟩
      exact Option.some.inj ((hv.1 _ _ hp).symm.trans (valueOn_input.1 hv.2))
  | binary id settled op l r ihl ihr =>
    rw [simplifyWith_binary_run]
    split
    · cases hmemo : memo[id]? with
      | some n =>
        obtain ⟨-, hfor⟩ := hm id n hmemo
        rw [(Heap.holds_binary.1 he).1.2] at hfor
        exact meets_pure ⟨hm, hfor⟩
      | none =>
        refine ((ihl he.left hm).imp (fun hp => ⟨hp.1.left, hp.2⟩) fun _ _ _ hl => hl).bind ?_
        rintro k₁ ⟨l', memo₁⟩ hle₁ ⟨hm₁, hl⟩
        refine ((ihr (he.right.mono hle₁) hm₁).imp (fun hp => ⟨hp.1.right, hp.2⟩)
          fun _ _ _ hr => hr).bind ?_
        rintro k₂ ⟨r', memo₂⟩ hle₂ ⟨hm₂, hr⟩
        have he₂ := (he.mono hle₁).mono hle₂
        have hop := operation_meets_node rfl he₂ And.left
          ((hl.mono hle₂).weaken (fun i hi => hi.imp_left fun hi => mentions_binary.2 (.inl hi))
            fun hp => ⟨hp.1.left, hp.2⟩)
          (hr.weaken (fun i hi => hi.imp_left fun hi => mentions_binary.2 (.inr hi))
            fun hp => ⟨hp.1.right, hp.2⟩)
          (S := fun i => (binary id settled op l r).Mentions i ∧ p.get? i = none)
          (P := (binary id settled op l r).Bounded ∧ p.Digits)
          (V := fun a v => p.ExtendedBy a ∧ valueOn a (binary id settled op l r) = .ok v)
          fun _ a v _ hv => by
            obtain ⟨x, y, hx, hy, hxy⟩ := valueOn_binary.1 hv.2
            exact ⟨x, y, ⟨hv.1, hx⟩, ⟨hv.1, hy⟩, hxy⟩
        refine (meets_build hop).bind fun k₃ n hle₃ hn => ?_
        exact meets_pure ⟨(hm₂.mono hle₃).insert (he₂.mono hle₃) hn, hn⟩
    · rename_i htouch
      refine ((normalize_meets he).imp And.left fun _ _ _ hn => hn).bind fun k n hle hn => ?_
      exact meets_pure ⟨hm.mono hle, simplifiedFor_of_normalFor hn (unbound_of_not_touches htouch)⟩

/-- What is left under an assignment has every value of the expression under
    extensions of the assignment, and none of the bound inputs. -/
theorem simplify_meets {p : Assignment} {e : Expr} (he : h.Holds e) :
    (simplify p e).Meets h (e.Bounded ∧ p.Digits) fun k s => SimplifiedFor k p e s := by
  unfold simplify
  split
  · rename_i hempty
    have hnone (i : Nat) : p.get? i = none := by
      rw [Assignment.get?, List.isEmpty_iff.1 hempty]
      rfl
    exact (normalize_meets he).imp And.left fun _ _ _ hn =>
      simplifiedFor_of_normalFor hn fun i _ => hnone i
  · have hsound : Memo.Sound h p ∅ := fun id s hs => by
      rw [Std.HashMap.getElem?_empty] at hs
      cases hs
    exact (simplifyWith_meets he hsound).bind fun k r _ hr => meets_pure hr.2

end GraphM

end InputSolver
