/-
  InputSolver — normal forms of remainders.

  * `modLiteral_meets`, `mod_meets`: a remainder yields what the operator
    gives, and is no larger than its dividend.
-/
import InputSolver.Normal.Remainder
import InputSolver.Proofs.Normal.Quotient

namespace InputSolver.Normal

open InputSolver.Expr

/-! ## Remainders of words -/

/-- A remainder whose divisor is not zero is a remainder of words. -/
theorem mod_eq_ok {x y v : Word} (hv : Operator.mod.apply x y = .ok v) : y ≠ 0 ∧ x % y = v := by
  simp only [Operator.apply] at hv
  split at hv
  · cases hv
  · rename_i hy
    exact ⟨hy, Except.ok.inj hv⟩

theorem mod_eq_zero {x c : Word} (hd : c.toInt ∣ x.toInt) : x % c = 0 := by
  refine Word.eq_of_toInt_eq ?_
  rw [Int64.toInt_mod, Int.tmod_eq_zero_of_dvd hd]
  rfl

theorem mod_eq_self {x c : Word} (hlt : x.toInt.natAbs < c.toInt.natAbs) : x % c = x := by
  refine Word.eq_of_toInt_eq ?_
  rw [Int64.toInt_mod, Division.tmod_eq_self_of_natAbs_lt hlt]

theorem mod_mod (x c : Word) : x % c % c = x % c := by
  refine Word.eq_of_toInt_eq ?_
  rw [Int64.toInt_mod, Int64.toInt_mod, Int.tmod_tmod]

/-- A multiple of the divisor drops out of a sum of words of one sign. -/
theorem add_mod_eq {M N : Nat} (hK : M + N < Word.halfBound) {x y c : Word}
    (hx : x.toInt.natAbs ≤ M) (hy : y.toInt.natAbs ≤ N) (hd : c.toInt ∣ x.toInt)
    (hsign : Division.SameSign x.toInt y.toInt) : (x + y) % c = y % c := by
  refine Word.eq_of_toInt_eq ?_
  rw [Int64.toInt_mod, Int64.toInt_mod, Word.toInt_add (Range.inRange_add hK hx hy),
    Division.add_tmod_of_dvd hd hsign]

theorem natAbs_lt_of_isOwnRemainder {c : Word} (hc : c ≠ 0) {r : Range}
    (hr : isOwnRemainder r (remainderBound c) = true) {x : Int} (hx : x ∈ r) :
    x.natAbs < c.toInt.natAbs := by
  obtain ⟨h₁, h₂, h₃, -⟩ := toInt_remainderBound hc
  rcases Bool.or_eq_true_iff.1 hr with hr | hr
  · have : (0 : Word).toInt ≤ x ∧ _ := Range.of_within hr hx
    have hzero : (0 : Word).toInt = 0 := rfl
    omega
  · have : _ ∧ x ≤ (0 : Word).toInt := Range.of_within hr hx
    have hzero : (0 : Word).toInt = 0 := rfl
    omega

variable {S : Nat → Prop} {P : Prop} {h : Heap} {reuse? : Option Expr}

/-! ## Remainders by a literal -/

/-- The multiples of the divisor drop out of a sum that splits. -/
theorem yields_mod_of_splits {sum e : Expr} {c : Word} {s : Split} (hsum : P → sum.Bounded)
    (hs : Splits h S P sum c s) (he : Yields h S P s.rest.extent (s.rest.Image (· % c)) e) :
    Yields h S P sum.magnitude (sum.Image (· % c)) e := by
  refine he.imp (fun hp => ?_) ?_
  · have := hs.extent_le hp
    omega
  · rintro hp a v ha ⟨z, hz, rfl⟩
    obtain ⟨x, y, -, hy, rfl, hx', hy', hdvd, hsign⟩ := hs.parts hp (hsum hp) ha hz
    have hlt := Nat.lt_of_le_of_lt (hs.extent_le hp) (hsum hp).magnitude_lt
    exact ⟨y, hy, (add_mod_eq hlt hx' hy' hdvd hsign).symm⟩

/-- `(x % c) % c` becomes `x % c`. -/
theorem yields_mod_of_mod {i j : Nat} {settled : Bool} {x e : Expr} {c : Word}
    (he : Yields h S P x.extent (x.Image (· % c)) e) :
    Yields h S P (Expr.binary i settled .mod x (.literal j c)).extent
      ((Expr.binary i settled .mod x (.literal j c)).Image (· % c)) e := by
  refine he.image_of_left (fun _ => x.extent_le_magnitude) fun _ a y w _ _ hyw => ?_
  obtain ⟨-, rfl⟩ := mod_eq_ok hyw
  exact (mod_mod y c).symm

/-- The remainder by a literal that is not zero. -/
theorem modLiteral_meets (hreuse : Reusable h .mod reuse?) {id : Nat} {c : Word} (hc : c ≠ 0)
    {l : Expr} (hr : Operand h S P (.literal id c)) (hl : Operand h S P l) :
    (modLiteral reuse? id c l).Meets h P fun k e =>
      Yields k S P l.extent (l.Image (· % c)) e := by
  induction hw : weight l using Nat.strongRecOn generalizing h reuse? l with
  | ind n ih =>
  subst hw
  have zero {k : Heap} (hzero : P → ∀ a x, a.Digits → l.valueOn a = .ok x → x % c = 0) :
      (Build.literal 0).Meets k P fun k e => Yields k S P l.extent (l.Image (· % c)) e :=
    image_single_meets (fun hp => (hl.bounded hp).extent_lt) (fun _ => Nat.zero_le _) hzero
  rw [modLiteral.eq_def, if_neg hc]
  split
  · rename_i a hlit
    obtain ⟨j, rfl⟩ := literal?_eq_some hlit
    refine image_literal_meets (· % c) (fun hp => (hl.bounded hp).extent_lt) fun _ => ?_
    rw [Int64.toInt_mod]
    exact Range.natAbs_le_of_between (Nat.le_refl _) (Range.between_tmod _ _)
  · rename_i hlit
    have hsize : l.magnitude = l.extent := (extent_of_not_literal (not_literal hlit)).symm
    split
    · rename_i hone
      refine zero fun _ a x _ _ => mod_eq_zero ?_
      rcases hone with rfl | rfl
      · exact Int.one_dvd _
      · exact Int.neg_dvd.2 (Int.one_dvd _)
    refine (range_meets hl.bounded).bind fun k range _ hk => ?_
    obtain ⟨rfl, hrange⟩ := hk
    split
    · rename_i hown
      exact Build.meets_pure (hl.image_self (fun _ => Nat.le_refl _) fun hp a x ha hx =>
        mod_eq_self (natAbs_lt_of_isOwnRemainder hc hown
          (((hl.bounded hp).of_range hrange).2 a x ha hx)))
    refine (Build.meets_lift (Q := fun m b => m = k ∧ isMultiple c l = .ok b) (fun hp => ?_)
      fun b hb => ⟨rfl, hb⟩).bind fun m b _ hm => ?_
    · exact (isMultiple_of_bounded (hl.bounded hp) c).imp fun _ hb => hb.1
    obtain ⟨rfl, hb⟩ := hm
    split
    · rename_i hbt
      subst hbt
      exact zero fun hp a x ha hx =>
        mod_eq_zero (multiple_of_isMultiple (hl.bounded hp) hb a x ha hx)
    · have finished {n : Heap} (hle : m ≤ n) :
          (finish reuse? .mod l (.literal id c)).Meets n P fun k e =>
            Yields k S P l.extent (l.Image (· % c)) e :=
        finish_literal_meets (fun hp => (hl.bounded hp).magnitude_lt) (hreuse.mono hle)
          (hl.mono hle) (hr.mono hle) (Nat.le_of_eq hsize) fun _ => if_neg hc
      split
      · rename_i i settled x j b
        split
        · rename_i heq
          subst heq
          exact (ih (weight x) (by simp only [weight]; omega) (reusable_none m .mod) hr hl.left
            rfl).imp (fun hp => hp) fun n e _ he => yields_mod_of_mod he
        · exact finished m.le_refl
      · rename_i i settled a b
        refine (splitBelow_meets hl c).bind fun k₁ s? hle₁ hs => ?_
        split
        · rename_i split below
          replace hs := hs split rfl
          exact (ih (weight split.rest) (below split rfl).2 (reusable_none k₁ .mod)
            (hr.mono hle₁) hs.rest rfl).imp (fun hp => hp)
            fun n e hle he => yields_mod_of_splits hl.bounded (hs.mono hle) he
        · exact finished hle₁
      · exact finished m.le_refl

/-- The remainder of two expressions. -/
theorem mod_meets (hreuse : Reusable h .mod reuse?) {l r : Expr} (hl : Operand h S P l)
    (hr : Operand h S P r) :
    (mod reuse? l r).Meets h P fun k e =>
      Yields k S P l.magnitude (Operator.mod.Gives l r) e := by
  have hK (hp : P) : Operator.mod.magnitude l.magnitude r.magnitude < Word.halfBound :=
    (hl.bounded hp).magnitude_lt
  have finished : (finish reuse? .mod l r).Meets h P fun k e =>
      Yields k S P l.magnitude (Operator.mod.Gives l r) e := finish_meets hK hreuse hl hr
  unfold mod
  split
  · rename_i id c
    by_cases hc : c = 0
    · -- a remainder by the literal 0 stays as it is
      rw [modLiteral.eq_def, if_pos hc]
      exact node_meets hK hreuse hl hr
    · refine (modLiteral_meets hreuse hc hr hl).yields_imp (fun _ => l.extent_le_magnitude) ?_
      rintro - a v - ⟨x, y, hx, hy, hxy⟩
      cases hy
      exact ⟨x, hx, (mod_eq_ok hxy).2⟩
  · split
    · rename_i hzero
      obtain ⟨id, rfl⟩ := literal?_eq_some hzero
      refine (isNonzero_meets fun hp => ?_).bind fun k b _ hk => ?_
      · exact (range_of_bounded (hr.bounded hp)).imp fun _ hr => hr.1
      · subst hk
        split
        · refine literal_meets (fun hp => (hl.bounded hp).magnitude_lt) (fun _ => Nat.zero_le _) ?_
          rintro - a v - ⟨x, y, hx, -, hxy⟩
          obtain ⟨-, rfl⟩ := mod_eq_ok hxy
          cases hx
          exact Int64.zero_mod.symm
        · exact finished
    · exact finished

end InputSolver.Normal
