/-
  InputSolver — normal forms do not depend on sharing.

  The operations on normal forms look at identities in two places: to compare
  expressions, and to use a node again.  Neither can be seen in the tree of a
  result.

  * `operation_agree`: on copies of the operands in another heap, an operation
    gives a copy of the result, or ends in the same fault.
-/
import Mathlib.Data.List.Forall2
import InputSolver.Proofs.Expr.Agree
import InputSolver.Proofs.Normal.Operation

namespace InputSolver.Normal

open InputSolver.Expr InputSolver.Build

variable {h k : Heap} {reuse? reuse'? : Option Expr} {l r l' r' : Expr}

/-! ## Making a node -/

theorem node_agree {op : Operator} (hreuse : Reusable h op reuse?)
    (hreuse' : Reusable k op reuse'?) (hl : Copies h l k l') (hr : Copies h r k r') :
    (node reuse? op l r).Agree h (node reuse'? op l' r') k Copies := by
  refine agree_of_meets (node_eq hreuse hl.left hr.left) (node_eq hreuse' hl.right hr.right) ?_
  rintro h' e k' e' ⟨he, _, _, rfl⟩ ⟨he', _, _, rfl⟩
  exact ⟨he, he', by rw [tree_binary, tree_binary, hl.tree, hr.tree]⟩

theorem finish_agree {op : Operator} (hreuse : Reusable h op reuse?)
    (hreuse' : Reusable k op reuse'?) (hl : Copies h l k l') (hr : Copies h r k r') :
    (finish reuse? op l r).Agree h (finish reuse'? op l' r') k Copies := by
  refine (node_agree hreuse hreuse' hl hr).bind fun h' e k' e' _ _ he => ?_
  refine Agree.lift_bind he.range_eq fun range _ => ?_
  split
  · exact agree_literal _
  · exact agree_pure he

/-! ## Sums -/

theorem addLiteral_agree (hreuse : Reusable h .add reuse?) (hreuse' : Reusable k .add reuse'?)
    {id id' : Nat} {c : Word} (hid : Copies h (.literal id c) k (.literal id' c))
    (hl : Copies h l k l') :
    (addLiteral reuse? id c l).Agree h (addLiteral reuse'? id' c l') k Copies := by
  induction l generalizing h k reuse? reuse'? id id' c l' with
  | literal i a =>
    obtain ⟨j, rfl⟩ := hl.of_literal
    exact agree_literal (a + c)
  | input i index =>
    obtain ⟨j, rfl⟩ := hl.of_input
    simp only [addLiteral]
    split
    · exact agree_pure hl
    · exact finish_agree hreuse hreuse' hl hid
  | binary i settled op x r ihx =>
    have other : (if c = 0 then return .binary i settled op x r
          else finish reuse? .add (.binary i settled op x r) (.literal id c) : Build Expr).Agree h
        (if c = 0 then return l' else finish reuse'? .add l' (.literal id' c)) k Copies := by
      split
      · exact agree_pure hl
      · exact finish_agree hreuse hreuse' hl hid
    obtain ⟨i', settled', x', r', rfl, hx, hr⟩ := hl.of_binary
    cases op with
    | add =>
      cases hr using Copies.shapes with
      | @literal _ _ b =>
        simp only [addLiteral]
        split
        · exact agree_pure hl
        · refine Agree.identity_bind (b + c) fun h' n k' n' hle hle' hn => ?_
          exact ihx (reusable_none h' .add) (reusable_none k' .add) hn (hx.mono hle hle')
      | input => exact other
      | binary => exact other
    | _ => exact other

/-- Operands of which none is a literal on the right or a sum with one. -/
theorem addOther_agree (hreuse : Reusable h .add reuse?) (hreuse' : Reusable k .add reuse'?) :
    Copies h l k l' → Copies h r k r' → (match l with
      | .literal lid a => addLiteral none lid a r
      | _ => finish reuse? .add l r : Build Expr).Agree h
    (match l' with
      | .literal lid a => addLiteral none lid a r'
      | _ => finish reuse'? .add l' r') k Copies := by
  intro hl hr
  cases hl using Copies.shapes with
  | literal hl => exact addLiteral_agree (reusable_none h .add) (reusable_none k .add) hl hr
  | input hl => exact finish_agree hreuse hreuse' hl hr
  | binary hl _ _ => exact finish_agree hreuse hreuse' hl hr

theorem add_agree (hreuse : Reusable h .add reuse?) (hreuse' : Reusable k .add reuse'?)
    (hl : Copies h l k l') (hr : Copies h r k r') :
    (add reuse? l r).Agree h (add reuse'? l' r') k Copies := by
  induction r generalizing h k reuse? reuse'? l l' r' with
  | literal id c =>
    obtain ⟨id', rfl⟩ := hr.of_literal
    exact addLiteral_agree hreuse hreuse' hr hl
  | input i index =>
    obtain ⟨i', rfl⟩ := hr.of_input
    exact addOther_agree hreuse hreuse' hl hr
  | binary i settled op y z ihy =>
    have other := addOther_agree hreuse hreuse' hl hr
    obtain ⟨i', settled', y', z', rfl, hy, hz⟩ := hr.of_binary
    cases op with
    | add =>
      cases hz using Copies.shapes with
      | @literal id id' c hz =>
        have inner : (do addLiteral none id c (← add none l y) : Build Expr).Agree h
            (do addLiteral none id' c (← add none l' y')) k Copies :=
          (ihy (reusable_none h .add) (reusable_none k .add) hl hy).bind
            fun h' e k' e' hle hle' he =>
              addLiteral_agree (reusable_none h' .add) (reusable_none k' .add)
                (hz.mono hle hle') he
        cases hl using Copies.shapes with
        | literal hl => exact addLiteral_agree (reusable_none h .add) (reusable_none k .add) hl hr
        | input => exact inner
        | binary => exact inner
      | input => exact other
      | binary => exact other
    | _ => exact other

/-! ## Sums of terms -/

variable {ts ts' : List Expr}

theorem foldlM_add_agree (hts : List.Forall₂ (Copies h · k ·) ts ts') (hl : Copies h l k l') :
    (ts.foldlM (add none) l).Agree h (ts'.foldlM (add none) l') k Copies := by
  induction ts generalizing h k l l' ts' with
  | nil =>
    cases hts
    exact agree_pure hl
  | cons t ts ih =>
    cases hts with
    | cons ht hts =>
    rw [List.foldlM_cons, List.foldlM_cons]
    exact (add_agree (reusable_none h .add) (reusable_none k .add) hl ht).bind
      fun h' e k' e' hle hle' he => ih (hts.imp fun _ _ ht => ht.mono hle hle') he

theorem sumOf_agree (hts : List.Forall₂ (Copies h · k ·) ts ts') :
    (sumOf ts).Agree h (sumOf ts') k Copies := by
  cases hts with
  | nil => exact agree_literal 0
  | cons ht hts => exact foldlM_add_agree hts ht

/-! ## Products -/

theorem mulLiteral_agree (hreuse : Reusable h .mul reuse?) (hreuse' : Reusable k .mul reuse'?)
    {id id' : Nat} {c : Word} (hid : Copies h (.literal id c) k (.literal id' c))
    (hl : Copies h l k l') :
    (mulLiteral reuse? id c l).Agree h (mulLiteral reuse'? id' c l') k Copies := by
  induction l generalizing h k reuse? reuse'? id id' c l' with
  | literal i a =>
    obtain ⟨j, rfl⟩ := hl.of_literal
    exact agree_literal (a * c)
  | input i index =>
    have other := finish_agree hreuse hreuse' hl hid
    obtain ⟨j, rfl⟩ := hl.of_input
    simp only [mulLiteral]
    split
    · exact agree_literal 0
    split
    · exact agree_pure hl
    · exact other
  | binary i settled op x r ihx ihr =>
    have other := finish_agree hreuse hreuse' hl hid
    obtain ⟨i', settled', x', r', rfl, hx, hr⟩ := hl.of_binary
    rw [mulLiteral.eq_def, mulLiteral.eq_def reuse'?]
    simp only []
    split
    · exact agree_literal 0
    split
    · exact agree_pure hl
    cases op with
    | add =>
      refine (ihx (reusable_none h .mul) (reusable_none k .mul) hid hx).bind
        fun h₁ a k₁ a' hle hle' ha => ?_
      refine (ihr (reusable_none h₁ .mul) (reusable_none k₁ .mul) (hid.mono hle hle')
        (hr.mono hle hle')).bind fun h₂ b k₂ b' hle hle' hb => ?_
      exact add_agree (reusable_none h₂ .add) (reusable_none k₂ .add) (ha.mono hle hle') hb
    | mul =>
      cases hr using Copies.shapes with
      | @literal _ _ q =>
        refine Agree.identity_bind (q * c) fun h' n k' n' hle hle' hn => ?_
        exact ihx (reusable_none h' .mul) (reusable_none k' .mul) hn (hx.mono hle hle')
      | input => exact other
      | binary => exact other
    | _ => exact other

theorem mul_agree (hreuse : Reusable h .mul reuse?) (hreuse' : Reusable k .mul reuse'?)
    (hl : Copies h l k l') (hr : Copies h r k r') :
    (mul reuse? l r).Agree h (mul reuse'? l' r') k Copies := by
  have other := finish_agree hreuse hreuse' hl hr
  have leaf {id id' : Nat} {a : Word} (hl : Copies h (.literal id a) k (.literal id' a)) :
      (mulLiteral none id a r).Agree h (mulLiteral none id' a r') k Copies :=
    mulLiteral_agree (reusable_none h .mul) (reusable_none k .mul) hl hr
  cases hr using Copies.shapes with
  | literal hr =>
    rw [mul, mul]
    exact mulLiteral_agree hreuse hreuse' hr hl
  | input =>
    cases hl using Copies.shapes with
    | literal hl => exact leaf hl
    | input => exact other
    | binary => exact other
  | binary =>
    cases hl using Copies.shapes with
    | literal hl => exact leaf hl
    | input => exact other
    | binary => exact other

/-! ## Splitting a sum -/

theorem termsOf_copies (hl : Copies h l k l') :
    List.Forall₂ (Copies h · k ·) (termsOf l) (termsOf l') := by
  induction l generalizing l' with
  | literal =>
    obtain ⟨_, rfl⟩ := hl.of_literal
    exact .cons hl .nil
  | input =>
    obtain ⟨_, rfl⟩ := hl.of_input
    exact .cons hl .nil
  | binary i settled op x y ihx ihy =>
    have term : List.Forall₂ (Copies h · k ·) [.binary i settled op x y] [l'] := .cons hl .nil
    obtain ⟨i', settled', x', y', rfl, hx, hy⟩ := hl.of_binary
    cases op with
    | add => exact List.rel_append (ihx hx) (ihy hy)
    | _ => exact term

theorem isMultiple_eq (hl : Copies h l k l') (c : Word) : isMultiple c l = isMultiple c l' := by
  have other : (do (← l.range).multiplesOf c) = (do (← l'.range).multiplesOf c) := by
    rw [hl.range_eq]
  cases hl using Copies.shapes with
  | literal => rfl
  | input => rfl
  | @binary _ _ _ _ op _ _ _ _ _ _ hy =>
    cases op with
    | mul =>
      cases hy using Copies.shapes with
      | literal => simp only [isMultiple, other]
      | input => exact other
      | binary => exact other
    | _ => exact other

theorem separate_agree (hts : List.Forall₂ (Copies h · k ·) ts ts') (c : Word) :
    (liftM (separate c ts) : Build _).Agree h (liftM (separate c ts')) k fun h p k p' =>
      List.Forall₂ (Copies h · k ·) p.1 p'.1 ∧ List.Forall₂ (Copies h · k ·) p.2 p'.2 := by
  induction hts with
  | nil => exact agree_pure ⟨.nil, .nil⟩
  | @cons t t' ts ts' ht hts ih =>
    rw [separate, separate, lift_bind, lift_bind]
    refine Agree.lift_bind (isMultiple_eq ht c) fun isM _ => ?_
    rw [lift_bind, lift_bind]
    refine ih.bind fun h' p k' p' hle hle' hp => ?_
    replace ht := ht.mono hle hle'
    cases isM with
    | true => exact agree_pure ⟨.cons ht hp.1, hp.2⟩
    | false => exact agree_pure ⟨hp.1, .cons ht hp.2⟩

/-- Splits of two sums into copies. -/
structure Split.Copies (h : Heap) (s : Split) (k : Heap) (s' : Split) : Prop where
  multiples : List.Forall₂ (Expr.Copies h · k ·) s.multiples s'.multiples
  rest : Expr.Copies h s.rest k s'.rest

theorem splitSum_agree (hl : Copies h l k l') (c : Word) :
    (splitSum l c).Agree h (splitSum l' c) k fun h s? k s'? =>
      Option.Rel (Split.Copies h · k ·) s? s'? := by
  refine (separate_agree (termsOf_copies hl) c).bind fun h₁ p k₁ p' _ _ hp => ?_
  obtain ⟨multiples, others⟩ := p
  obtain ⟨multiples', others'⟩ := p'
  obtain ⟨hmultiples, hothers⟩ := hp
  simp only [List.isEmpty_iff, ← List.length_eq_zero_iff, hmultiples.length_eq]
  split
  · exact agree_pure .none
  refine (sumOf_agree hmultiples).bind fun h₂ m k₂ m' hle hle' hm => ?_
  refine (sumOf_agree (hothers.imp fun _ _ ht => ht.mono hle hle')).bind
    fun h₃ rest k₃ rest' hle₃ hle₃' hrest => ?_
  replace hm := hm.mono hle₃ hle₃'
  refine Agree.lift_bind hm.range_eq fun r _ => ?_
  refine Agree.lift_bind hrest.range_eq fun s _ => ?_
  split
  · exact agree_pure (.some ⟨hmultiples.imp fun _ _ ht =>
      ht.mono (Heap.le_trans hle hle₃) (Heap.le_trans hle' hle₃'), hrest⟩)
  · exact agree_pure .none

/-! ## Quotients -/

theorem literal?_eq (hl : Copies h l k l') : l.literal? = l'.literal? := by
  cases hl using Copies.shapes with
  | literal => rfl
  | input => rfl
  | binary => rfl

theorem isNonzero_eq (hr : Copies h r k r') : isNonzero r = isNonzero r' := by
  rw [isNonzero, isNonzero, hr.range_eq]

theorem cancelled?_copies (hl : Copies h l k l') (hr : Copies h r k r') :
    Option.Rel (Copies h · k ·) (cancelled? l r) (cancelled? l' r') := by
  cases hl using Copies.shapes with
  | literal => exact .none
  | input => exact .none
  | @binary _ _ _ _ op _ _ _ _ _ hx hy =>
    cases op with
    | mul =>
      simp only [cancelled?, hy.alike_eq hr, hx.alike_eq hr]
      split
      · exact .some hx
      split
      · exact .some hy
      · exact .none
    | _ => exact .none

/-- What is done only where the divisor cannot be zero. -/
theorem ifNonzero_agree (hr : Copies h r k r') {x y : Build (Option Expr)}
    (hxy : x.Agree h y k fun h e? k e'? => Option.Rel (Copies h · k ·) e? e'?) :
    (do if ← isNonzero r then x else return none : Build (Option Expr)).Agree h
      (do if ← isNonzero r' then y else return none) k
      fun h e? k e'? => Option.Rel (Copies h · k ·) e? e'? := by
  refine Agree.lift_bind (isNonzero_eq hr) fun nonzero _ => ?_
  split
  · exact hxy
  · exact agree_pure .none

theorem cancel?_agree (hl : Copies h l k l') (hr : Copies h r k r') :
    (cancel? l r).Agree h (cancel? l' r') k
      fun h e? k e'? => Option.Rel (Copies h · k ·) e? e'? := by
  have single (value : Word) : (do return some (← literal value) : Build (Option Expr)).Agree h
      (do return some (← literal value)) k fun h e? k e'? => Option.Rel (Copies h · k ·) e? e'? :=
    (agree_literal value).bind fun _ _ _ _ _ _ he => agree_pure (.some he)
  unfold cancel?
  rw [literal?_eq hl, hl.alike_eq hr]
  split
  · exact ifNonzero_agree hr (single 0)
  split
  · exact ifNonzero_agree hr (single 1)
  have factor := cancelled?_copies hl hr
  cases hl using Copies.shapes with
  | literal => exact agree_pure .none
  | input => exact agree_pure .none
  | @binary _ _ _ _ op =>
    cases op with
    | mul => exact ifNonzero_agree hr (agree_pure factor)
    | _ => exact agree_pure .none

/-- Quotients of the terms of two lists, each by a new literal. -/
theorem mapM_agree {α β : Type} {f : α → Build Expr} {g : β → Build Expr} {as : List α}
    {bs : List β} {T : α → β → Prop} (hts : List.Forall₂ T as bs)
    (hfg : ∀ h' k' a b, h ≤ h' → k ≤ k' → T a b → (f a).Agree h' (g b) k' Copies) :
    (as.mapM f).Agree h (bs.mapM g) k fun h es k es' => List.Forall₂ (Copies h · k ·) es es' := by
  induction hts generalizing h k with
  | nil => exact agree_pure .nil
  | cons hab _ ih =>
    rw [List.mapM_cons, List.mapM_cons]
    refine (hfg h k _ _ h.le_refl k.le_refl hab).bind fun h₁ e k₁ e' hle hle' he => ?_
    refine (ih fun h' k' a b hle₁ hle₁' => hfg h' k' a b (Heap.le_trans hle hle₁)
      (Heap.le_trans hle' hle₁')).bind fun h₂ es k₂ es' hle₂ hle₂' hes => ?_
    exact agree_pure (.cons (he.mono hle₂ hle₂') hes)

theorem splitBelow_agree {i i' : Nat} {settled settled' : Bool} {a b a' b' : Expr}
    (hl : Copies h (.binary i settled .add a b) k (.binary i' settled' .add a' b')) (c : Word) :
    (splitBelow i settled a b c).Agree h (splitBelow i' settled' a' b' c) k fun h s? k s'? =>
      Option.Rel (Split.Copies h · k ·) s?.1 s'?.1 :=
  (splitSum_agree hl c).attach _ _

/-- Members of two lists, each known to be one. -/
theorem attach_copies (hts : List.Forall₂ (Copies h · k ·) ts ts') :
    List.Forall₂ (fun t t' : {t // t ∈ _} => Copies h t.1 k t'.1) ts.attach ts'.attach := by
  have hval : List.Forall₂ (Copies h · k ·) (ts.attach.map Subtype.val)
      (ts'.attach.map Subtype.val) := by
    rw [List.attach_map_subtype_val, List.attach_map_subtype_val]
    exact hts
  rw [List.forall₂_map_left_iff, List.forall₂_map_right_iff] at hval
  exact hval

/-- What is made of the parts of two splits, each with a new literal, added up. -/
theorem sumOfParts_agree {s s' : Split} (hs : Split.Copies h s k s') (c : Word)
    {f : {m // m ∈ s.multiples} → Nat → Build Expr}
    {g : {m // m ∈ s'.multiples} → Nat → Build Expr} {x y : Nat → Build Expr}
    (hfg : ∀ h' n k' n' m m', Copies h' (.literal n c) k' (.literal n' c) →
      Copies h' m.1 k' m'.1 → (f m n).Agree h' (g m' n') k' Copies)
    (hxy : ∀ h' n k' n', Copies h' (.literal n c) k' (.literal n' c) →
      Copies h' s.rest k' s'.rest → (x n).Agree h' (y n') k' Copies) : (do
      let parts ← s.multiples.attach.mapM fun m => do f m (← identity)
      let rest ← x (← identity)
      sumOf (parts ++ [rest])).Agree h
    (do
      let parts ← s'.multiples.attach.mapM fun m => do g m (← identity)
      let rest ← y (← identity)
      sumOf (parts ++ [rest])) k Copies := by
  refine (mapM_agree (attach_copies hs.multiples) fun h' k' m m' hle hle' hm =>
    Agree.identity_bind c fun h₁ n k₁ n' hle₁ hle₁' hn => hfg h₁ n k₁ n' m m' hn
      (hm.mono (Heap.le_trans hle hle₁) (Heap.le_trans hle' hle₁'))).bind
    fun h₁ parts k₁ parts' hle hle' hparts => ?_
  refine Agree.identity_bind c fun h₂ n k₂ n' hle₂ hle₂' hn => ?_
  refine (hxy h₂ n k₂ n' hn (hs.rest.mono (Heap.le_trans hle hle₂)
    (Heap.le_trans hle' hle₂'))).bind fun h₃ rest k₃ rest' hle₃ hle₃' hrest => ?_
  exact sumOf_agree (List.rel_append (hparts.imp fun _ _ he =>
    he.mono (Heap.le_trans hle₂ hle₃) (Heap.le_trans hle₂' hle₃')) (.cons hrest .nil))

theorem divLiteral_agree (hreuse : Reusable h .div reuse?) (hreuse' : Reusable k .div reuse'?)
    {id id' : Nat} {c : Word} (hid : Copies h (.literal id c) k (.literal id' c))
    (hl : Copies h l k l') :
    (divLiteral reuse? id c l).Agree h (divLiteral reuse'? id' c l') k Copies := by
  induction hw : weight l using Nat.strongRecOn generalizing h k reuse? reuse'? id id' c l l' with
  | ind n ih =>
  have part {h k : Heap} {id id' : Nat} {d : Word} {m m' : Expr} (hm : weight m < n)
      (hid : Copies h (.literal id d) k (.literal id' d)) (hcopies : Copies h m k m') :
      (divLiteral none id d m).Agree h (divLiteral none id' d m') k Copies :=
    ih (weight m) hm (reusable_none h .div) (reusable_none k .div) hid hcopies rfl
  subst hw
  rw [divLiteral.eq_def, divLiteral.eq_def reuse'?, literal?_eq hl]
  split
  · exact node_agree hreuse hreuse' hl hid
  split
  · exact agree_literal _
  refine (cancel?_agree hl hid).bind fun h₁ e? k₁ e'? hle hle' he => ?_
  replace hl := hl.mono hle hle'
  replace hid := hid.mono hle hle'
  replace hreuse := hreuse.mono hle
  replace hreuse' := hreuse'.mono hle'
  cases he with
  | some he => exact agree_pure he
  | none =>
  simp only []
  split
  · exact agree_pure hl
  split
  · refine Agree.identity_bind (-1) fun h₂ n k₂ n' hle hle' hn => ?_
    exact mulLiteral_agree (reusable_none h₂ .mul) (reusable_none k₂ .mul) hn (hl.mono hle hle')
  refine Agree.lift_bind hl.range_eq fun range _ => ?_
  split
  · exact agree_literal 0
  have other := finish_agree hreuse hreuse' hl hid
  cases hl using Copies.shapes with
  | literal => exact other
  | input => exact other
  | @binary _ _ _ _ op x x' y y' hl hx hy =>
    cases op with
    | add =>
      refine (splitBelow_agree hl c).bind fun h₂ s? k₂ s'? hle hle' hs => ?_
      obtain ⟨s?, below⟩ := s?
      obtain ⟨s'?, below'⟩ := s'?
      cases hs with
      | none =>
        exact finish_agree (hreuse.mono hle) (hreuse'.mono hle') (hl.mono hle hle')
          (hid.mono hle hle')
      | @some s s' hs =>
        exact sumOfParts_agree hs c
          (fun h₃ n k₃ n' m m' hn hm => part ((below s rfl).1 m.1 m.2) hn hm)
          fun h₃ n k₃ n' hn hrest => part (below s rfl).2 hn hrest
    | mul =>
      cases hy using Copies.shapes with
      | @literal _ _ q =>
        simp only []
        split
        · refine Agree.identity_bind (q / c) fun h₂ n k₂ n' hle hle' hn => ?_
          exact mulLiteral_agree (reusable_none h₂ .mul) (reusable_none k₂ .mul) hn
            (hx.mono hle hle')
        split
        · refine Agree.identity_bind (c / q) fun h₂ n k₂ n' hle hle' hn => ?_
          exact part (by simp only [weight]; omega) hn (hx.mono hle hle')
        · exact other
      | input => exact other
      | binary => exact other
    | div =>
      cases hy using Copies.shapes with
      | literal =>
        simp only []
        split
        · rename_i d _
          refine Agree.identity_bind d fun h₂ n k₂ n' hle hle' hn => ?_
          exact part (by simp only [weight]; omega) hn (hx.mono hle hle')
        · exact other
      | input => exact other
      | binary => exact other
    | _ => exact other

/-- A quotient by what is no literal. -/
theorem divOther_agree (hreuse : Reusable h .div reuse?) (hreuse' : Reusable k .div reuse'?)
    (hl : Copies h l k l') (hr : Copies h r k r') : (do
      match ← cancel? l r with
      | some e => return e
      | none => finish reuse? .div l r : Build Expr).Agree h
    (do
      match ← cancel? l' r' with
      | some e => return e
      | none => finish reuse'? .div l' r') k Copies := by
  refine (cancel?_agree hl hr).bind fun h₁ e? k₁ e'? hle hle' he => ?_
  cases he with
  | some he => exact agree_pure he
  | none =>
    exact finish_agree (hreuse.mono hle) (hreuse'.mono hle') (hl.mono hle hle') (hr.mono hle hle')

theorem div_agree (hreuse : Reusable h .div reuse?) (hreuse' : Reusable k .div reuse'?)
    (hl : Copies h l k l') (hr : Copies h r k r') :
    (div reuse? l r).Agree h (div reuse'? l' r') k Copies := by
  have other := divOther_agree hreuse hreuse' hl hr
  cases hr using Copies.shapes with
  | literal hr => exact divLiteral_agree hreuse hreuse' hr hl
  | input => exact other
  | binary => exact other

/-! ## Remainders -/

theorem modLiteral_agree (hreuse : Reusable h .mod reuse?) (hreuse' : Reusable k .mod reuse'?)
    {id id' : Nat} {c : Word} (hid : Copies h (.literal id c) k (.literal id' c))
    (hl : Copies h l k l') :
    (modLiteral reuse? id c l).Agree h (modLiteral reuse'? id' c l') k Copies := by
  induction hw : weight l using Nat.strongRecOn generalizing h k reuse? reuse'? l l' with
  | ind n ih =>
  subst hw
  rw [modLiteral.eq_def, modLiteral.eq_def reuse'?, literal?_eq hl]
  split
  · exact node_agree hreuse hreuse' hl hid
  split
  · exact agree_literal _
  split
  · exact agree_literal 0
  refine Agree.lift_bind hl.range_eq fun range _ => ?_
  split
  · exact agree_pure hl
  refine Agree.lift_bind (isMultiple_eq hl c) fun isM _ => ?_
  split
  · exact agree_literal 0
  have other := finish_agree hreuse hreuse' hl hid
  cases hl using Copies.shapes with
  | literal => exact other
  | input => exact other
  | @binary _ _ _ _ op x x' y y' hl hx hy =>
    cases op with
    | add =>
      refine (splitBelow_agree hl c).bind fun h₁ s? k₁ s'? hle hle' hs => ?_
      obtain ⟨s?, below⟩ := s?
      obtain ⟨s'?, below'⟩ := s'?
      cases hs with
      | none =>
        exact finish_agree (hreuse.mono hle) (hreuse'.mono hle') (hl.mono hle hle')
          (hid.mono hle hle')
      | @some s s' hs =>
        exact ih (weight s.rest) (below s rfl).2 (reusable_none h₁ .mod) (reusable_none k₁ .mod)
          (hid.mono hle hle') hs.rest rfl
    | mod =>
      cases hy using Copies.shapes with
      | literal =>
        simp only []
        split
        · exact ih (weight x) (by simp only [weight]; omega) (reusable_none h .mod)
            (reusable_none k .mod) hid hx rfl
        · exact other
      | input => exact other
      | binary => exact other
    | _ => exact other

theorem mod_agree (hreuse : Reusable h .mod reuse?) (hreuse' : Reusable k .mod reuse'?)
    (hl : Copies h l k l') (hr : Copies h r k r') :
    (mod reuse? l r).Agree h (mod reuse'? l' r') k Copies := by
  have other : (do
        if l.literal? = some 0 then
          if ← isNonzero r then literal 0 else finish reuse? .mod l r
        else finish reuse? .mod l r : Build Expr).Agree h
      (do
        if l'.literal? = some 0 then
          if ← isNonzero r' then literal 0 else finish reuse'? .mod l' r'
        else finish reuse'? .mod l' r') k Copies := by
    have node := finish_agree hreuse hreuse' hl hr
    rw [literal?_eq hl]
    split
    · refine Agree.lift_bind (isNonzero_eq hr) fun nonzero _ => ?_
      split
      · exact agree_literal 0
      · exact node
    · exact node
  cases hr using Copies.shapes with
  | literal hr => exact modLiteral_agree hreuse hreuse' hr hl
  | input => exact other
  | binary => exact other

/-! ## Equality tests -/

theorem eqlOrdered_agree (hreuse : Reusable h .eql reuse?) (hreuse' : Reusable k .eql reuse'?)
    (hl : Copies h l k l') (hr : Copies h r k r') :
    (eqlOrdered reuse? l r).Agree h (eqlOrdered reuse'? l' r') k Copies := by
  refine Agree.lift_bind hl.range_eq fun s _ => ?_
  refine Agree.lift_bind hr.range_eq fun t _ => ?_
  rw [hl.alike_eq hr]
  split
  · split
    · exact agree_literal 1
    · exact finish_agree hreuse hreuse' hl hr
  · exact agree_literal 0

theorem eql_agree (hreuse : Reusable h .eql reuse?) (hreuse' : Reusable k .eql reuse'?)
    (hl : Copies h l k l') (hr : Copies h r k r') :
    (eql reuse? l r).Agree h (eql reuse'? l' r') k Copies := by
  have other := eqlOrdered_agree hreuse hreuse' hl hr
  have swapped := eqlOrdered_agree (reusable_none h .eql) (reusable_none k .eql) hr hl
  cases hl using Copies.shapes with
  | literal =>
    cases hr using Copies.shapes with
    | literal => exact agree_literal _
    | input => exact swapped
    | binary => exact swapped
  | input => exact other
  | binary => exact other

/-! ## Operations -/

/-- The normal form of an operation has the same tree, or the same fault,
    however the operands share nodes. -/
theorem operation_agree {op : Operator} (hreuse : Reusable h op reuse?)
    (hreuse' : Reusable k op reuse'?) (hl : Copies h l k l') (hr : Copies h r k r') :
    (operation reuse? op l r).Agree h (operation reuse'? op l' r') k Copies := by
  cases op with
  | add => exact add_agree hreuse hreuse' hl hr
  | mul => exact mul_agree hreuse hreuse' hl hr
  | div => exact div_agree hreuse hreuse' hl hr
  | mod => exact mod_agree hreuse hreuse' hl hr
  | eql => exact eql_agree hreuse hreuse' hl hr

end InputSolver.Normal
