/-
  InputSolver — cutting progressions at a bound.

  * `firstFrom_eq_some`, `lastTo_eq_some`: the value nearest to a bound from
    one side, and none only if there is none;
  * `mem_splitSign_negative`, `mem_splitSign_positive`: the parts below and
    above zero have exactly the values below and above zero.
-/
import InputSolver.Proofs.Progression.Values

namespace InputSolver.Progression

/-! ## The nearest value -/

theorem firstFrom_eq_none {p : Progression} {bound : Word} (h : p.firstFrom bound = none) {x : Int}
    (hx : x ∈ p) : x < bound.toInt := by
  unfold firstFrom at h
  split at h
  · rename_i hlt
    have := Int64.lt_iff_toInt_lt.1 hlt
    have := hx.2.1
    omega
  · split at h <;> cases h

theorem roundUp_le_iff {a d n : Nat} (hd : 0 < d) : (a + d - 1) / d ≤ n ↔ a ≤ n * d := by
  rw [Nat.div_le_iff_le_mul hd]
  omega

/-- The value found is the lowest at or above the bound. -/
theorem firstFrom_eq_some {p : Progression} {bound first : Word}
    (h : p.firstFrom bound = some first) :
    first.toInt ∈ p ∧ bound.toInt ≤ first.toInt ∧ ∀ x ∈ p, bound.toInt ≤ x → first.toInt ≤ x := by
  unfold firstFrom at h
  split at h
  · cases h
  · rename_i hmax
    split at h
    · rename_i hmin
      cases h
      exact ⟨p.min_mem, Int64.le_iff_toInt_le.1 hmin, fun x hx _ => hx.1⟩
    · rename_i hmin
      simp only [Option.some.injEq] at h
      have hle := Int64.le_of_lt (Int64.not_le.1 hmin)
      have hmax' := Int64.not_lt.1 hmax
      have hdist := Word.distance_eq hle
      have hdist' := Word.distance_eq p.min_le_max
      have hstep := Word.toInt_toNat (Int64.le_of_lt p.step_pos)
      have hpos := Word.toNatClampNeg_pos p.step_pos
      have hbound := Int64.le_iff_toInt_le.1 hmax'
      -- the offset of the bound, rounded up to a multiple of the step
      obtain ⟨k, hk⟩ : ∃ k, k = (Word.distance p.min bound + p.step.toNatClampNeg - 1) /
        p.step.toNatClampNeg := ⟨_, rfl⟩
      have hiff (n : Nat) : k ≤ n ↔ Word.distance p.min bound ≤ n * p.step.toNatClampNeg := by
        rw [hk]
        exact roundUp_le_iff hpos
      have hlow := (hiff k).1 (Nat.le_refl k)
      have hmul (x : Int) (hx : x ∈ p) :
          ∃ n : Nat, x - p.min.toInt = n * p.step.toNatClampNeg := by
        obtain ⟨n, hn⟩ := exists_steps_of_mem hx
        exact ⟨n, by rw [hstep]; omega⟩
      obtain ⟨m, hm⟩ := hmul _ p.max_mem
      have hkm : k * p.step.toNatClampNeg ≤ m * p.step.toNatClampNeg :=
        Nat.mul_le_mul_right _ ((hiff m).2 (by zify; omega))
      rw [← hk] at h
      have hfirst : first.toInt = p.min.toInt + (k * p.step.toNatClampNeg : Nat) := by
        rw [← h]
        refine Word.toInt_add_ofNat p.min_le_max ?_
        zify at hkm ⊢
        omega
      refine ⟨⟨by omega, ?_, ?_⟩, by omega, fun x hx hbx => ?_⟩
      · zify at hkm hfirst
        omega
      · rw [hfirst, add_sub_cancel_left, ← hstep]
        exact Int.natCast_dvd_natCast.2 (Nat.dvd_mul_left ..)
      · obtain ⟨n, hn⟩ := hmul x hx
        have hkn := Nat.mul_le_mul_right p.step.toNatClampNeg ((hiff n).2 (by zify; omega))
        zify at hkn hfirst
        omega

theorem lastTo_eq_none {p : Progression} {bound : Word} (h : p.lastTo bound = none) {x : Int}
    (hx : x ∈ p) : bound.toInt < x := by
  unfold lastTo at h
  split at h
  · rename_i hlt
    have := Int64.lt_iff_toInt_lt.1 hlt
    have := hx.1
    omega
  · split at h <;> cases h

/-- The value found is the highest at or below the bound. -/
theorem lastTo_eq_some {p : Progression} {bound last : Word} (h : p.lastTo bound = some last) :
    last.toInt ∈ p ∧ last.toInt ≤ bound.toInt ∧ ∀ x ∈ p, x ≤ bound.toInt → x ≤ last.toInt := by
  unfold lastTo at h
  split at h
  · cases h
  · rename_i hmin
    split at h
    · rename_i hmax
      cases h
      exact ⟨p.max_mem, Int64.le_iff_toInt_le.1 hmax, fun x hx _ => hx.2.1⟩
    · rename_i hmax
      simp only [Option.some.injEq] at h
      have hle := Int64.not_lt.1 hmin
      have hlt := Int64.lt_iff_toInt_lt.1 (Int64.not_le.1 hmax)
      have hlast : last = lastReached p.min bound p.step := by
        rw [← h, lastReached, ← Nat.div_mul_self_eq_mod_sub_self]
      have hdvd : p.step.toInt ∣ last.toInt - p.min.toInt := by
        rw [hlast, toInt_lastReached_eq hle p.step_pos, add_sub_cancel_left]
        exact Int.dvd_mul_right ..
      have hiff (x : Int) (hx : p.step.toInt ∣ x - p.min.toInt) :
          x ≤ last.toInt ↔ x ≤ bound.toInt := by
        rw [hlast]
        exact le_toInt_lastReached_iff hle p.step_pos hx
      have hbound := (hiff _ hdvd).1 (Int.le_refl _)
      refine ⟨⟨?_, by omega, hdvd⟩, hbound, fun x hx => (hiff x hx.2.2).2⟩
      rw [hiff _ (by rw [Int.sub_self]; exact Int.dvd_zero _)]
      exact Int64.le_iff_toInt_le.1 hle

/-! ## Signs -/

theorem splitSign_hasZero {p : Progression} : p.splitSign.hasZero = true ↔ (0 : Int) ∈ p :=
  includes_iff

/-- The part below zero has exactly the values below zero. -/
theorem mem_splitSign_negative {p : Progression} {x : Int} :
    (∃ q ∈ p.splitSign.negative, x ∈ q) ↔ x ∈ p ∧ x < 0 := by
  have hneg : (-1 : Word).toInt = -1 := rfl
  cases h : p.lastTo (-1) with
  | none =>
    simp only [splitSign, h, Option.map_none, Option.toList_none, List.not_mem_nil, false_and,
      exists_false, false_iff, not_and]
    intro hx
    have := lastTo_eq_none h hx
    omega
  | some last =>
    obtain ⟨hmem, hle, hgreatest⟩ := lastTo_eq_some h
    simp only [splitSign, h, Option.map_some, Option.toList_some, List.mem_singleton,
      exists_eq_left]
    rw [mem_new (Int64.le_iff_toInt_le.2 hmem.1) p.step_pos]
    constructor
    · rintro ⟨h₁, h₂, h₃⟩
      exact ⟨⟨h₁, h₂.trans hmem.2.1, h₃⟩, by omega⟩
    · rintro ⟨hx, hlt⟩
      exact ⟨hx.1, hgreatest x hx (by omega), hx.2.2⟩

/-- The part above zero has exactly the values above zero. -/
theorem mem_splitSign_positive {p : Progression} {x : Int} :
    (∃ q ∈ p.splitSign.positive, x ∈ q) ↔ x ∈ p ∧ 0 < x := by
  have hone : (1 : Word).toInt = 1 := rfl
  cases h : p.firstFrom 1 with
  | none =>
    simp only [splitSign, h, Option.map_none, Option.toList_none, List.not_mem_nil, false_and,
      exists_false, false_iff, not_and]
    intro hx
    have := firstFrom_eq_none h hx
    omega
  | some first =>
    obtain ⟨hmem, hle, hleast⟩ := firstFrom_eq_some h
    simp only [splitSign, h, Option.map_some, Option.toList_some, List.mem_singleton,
      exists_eq_left]
    rw [mem_new (Int64.le_iff_toInt_le.2 hmem.2.1) p.step_pos]
    have hshift : p.step.toInt ∣ x - first.toInt ↔ p.step.toInt ∣ x - p.min.toInt := by
      have : x - p.min.toInt = (x - first.toInt) + (first.toInt - p.min.toInt) := by omega
      rw [this]
      exact (Int.dvd_add_left hmem.2.2).symm
    rw [hshift]
    constructor
    · rintro ⟨h₁, h₂, h₃⟩
      exact ⟨⟨hmem.1.trans h₁, h₂, h₃⟩, by omega⟩
    · rintro ⟨hx, hlt⟩
      exact ⟨hleast x hx (by omega), hx.2.1, hx.2.2⟩

theorem bounded_of_mem_splitSign {M : Nat} {p q : Progression} (hp : p.Bounded M)
    (hq : q ∈ p.splitSign.negative ∨ q ∈ p.splitSign.positive) : q.Bounded M := by
  have h (x : Int) (hx : x ∈ q) : x ∈ p := by
    rcases hq with hq | hq
    · exact (mem_splitSign_negative.1 ⟨q, hq, hx⟩).1
    · exact (mem_splitSign_positive.1 ⟨q, hq, hx⟩).1
  exact ⟨hp.of_mem (h _ q.min_mem), hp.of_mem (h _ q.max_mem)⟩

end InputSolver.Progression
