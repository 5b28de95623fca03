/-
  InputSolver — the values of a progression.

  A progression stands for the integers `min, min + step, …, max`; `x ∈ p`
  says that `x` is one of them.  `Bounded M` limits their magnitude.

  * `includes_iff`: the test for a value is this membership;
  * `mem_new`: the values of a progression built from its bounds and step;
  * `size_eq_of_lt` and `mem_values`: below the limit of 64 bits the size is the
    number of values, and the list has all of them.
-/
import Mathlib.Tactic.NormNum
import Mathlib.Tactic.Zify
import InputSolver.Progression.Union
import InputSolver.Proofs.Word

namespace InputSolver.Progression

/-- The integers that are values of a progression. -/
instance : Membership Int Progression where
  mem p x := p.min.toInt ≤ x ∧ x ≤ p.max.toInt ∧ p.step.toInt ∣ x - p.min.toInt

/-- All values are at most `M` in magnitude. -/
def Bounded (M : Nat) (p : Progression) : Prop :=
  p.min.toInt.natAbs ≤ M ∧ p.max.toInt.natAbs ≤ M

theorem mem_def {p : Progression} {x : Int} :
    x ∈ p ↔ p.min.toInt ≤ x ∧ x ≤ p.max.toInt ∧ p.step.toInt ∣ x - p.min.toInt := Iff.rfl

theorem Bounded.of_mem {M : Nat} {p : Progression} (h : p.Bounded M) {x : Int} (hx : x ∈ p) :
    x.natAbs ≤ M := by
  obtain ⟨h₁, h₂⟩ := h
  obtain ⟨h₃, h₄, -⟩ := hx
  omega

/-! ## Bounds and step -/

theorem toInt_min_le (p : Progression) : p.min.toInt ≤ p.max.toInt :=
  Int64.le_iff_toInt_le.1 p.min_le_max

theorem toInt_step_pos (p : Progression) : 0 < p.step.toInt :=
  Int64.lt_iff_toInt_lt.1 p.step_pos

theorem step_dvd (p : Progression) : p.step.toInt ∣ p.max.toInt - p.min.toInt :=
  (Word.distance_mod_eq_zero p.min_le_max p.step_pos).1 p.aligned

theorem min_mem (p : Progression) : p.min.toInt ∈ p :=
  ⟨Int.le_refl _, p.toInt_min_le, by rw [Int.sub_self]; exact Int.dvd_zero _⟩

theorem max_mem (p : Progression) : p.max.toInt ∈ p := ⟨p.toInt_min_le, Int.le_refl _, p.step_dvd⟩

theorem isSingle_iff {p : Progression} : p.isSingle = true ↔ p.min.toInt = p.max.toInt := by
  rw [isSingle, beq_iff_eq, Int64.toInt_inj]

theorem mem_iff_of_isSingle {p : Progression} (h : p.isSingle = true) {x : Int} :
    x ∈ p ↔ x = p.min.toInt := by
  constructor
  · rintro ⟨h₁, h₂, -⟩
    have := isSingle_iff.1 h
    omega
  · rintro rfl
    exact p.min_mem

/-- A progression of several values has its first two a step apart. -/
theorem step_le_of_not_isSingle {p : Progression} (h : ¬ p.isSingle = true) :
    p.step.toInt ≤ p.max.toInt - p.min.toInt := by
  have h₁ := p.toInt_min_le
  have h₂ : p.min.toInt ≠ p.max.toInt := fun h' => h (isSingle_iff.2 h')
  exact Int.le_of_dvd (by omega) p.step_dvd

theorem second_mem {p : Progression} (h : ¬ p.isSingle = true) :
    p.min.toInt + p.step.toInt ∈ p := by
  have hle := step_le_of_not_isSingle h
  have hpos := p.toInt_step_pos
  refine ⟨by omega, by omega, ?_⟩
  rw [add_sub_cancel_left]

theorem stride_of_isSingle {p : Progression} (h : p.isSingle = true) : p.stride = 0 := if_pos h

theorem stride_of_not_isSingle {p : Progression} (h : ¬ p.isSingle = true) : p.stride = p.step :=
  if_neg h

theorem toInt_stride_nonneg (p : Progression) : 0 ≤ p.stride.toInt := by
  by_cases h : p.isSingle = true
  · rw [stride_of_isSingle h]
    exact Int.le_refl 0
  · rw [stride_of_not_isSingle h]
    exact Int.le_of_lt p.toInt_step_pos

theorem stride_dvd {p : Progression} {x : Int} (hx : x ∈ p) :
    p.stride.toInt ∣ x - p.min.toInt := by
  by_cases h : p.isSingle = true
  · rw [(mem_iff_of_isSingle h).1 hx, Int.sub_self]
    exact Int.dvd_zero _
  · rw [stride_of_not_isSingle h]
    exact hx.2.2

theorem includes_iff {p : Progression} {v : Word} : p.includes v = true ↔ v.toInt ∈ p := by
  rw [mem_def, includes, Bool.and_eq_true, Bool.and_eq_true, decide_eq_true_eq, decide_eq_true_eq,
    beq_iff_eq, ← Int64.le_iff_toInt_le, ← Int64.le_iff_toInt_le, and_assoc]
  refine and_congr_right fun h => and_congr_right fun _ => ?_
  exact Word.distance_mod_eq_zero h p.step_pos

/-- A value lies a number of steps above the lowest one. -/
theorem exists_steps_of_mem {p : Progression} {x : Int} (hx : x ∈ p) :
    ∃ n : Nat, x = p.min.toInt + n * p.step.toInt := by
  obtain ⟨h₁, -, k, hk⟩ := hx
  have hk0 : 0 ≤ k := by
    by_contra hneg
    have := Int.mul_neg_of_pos_of_neg p.toInt_step_pos (by omega : k < 0)
    omega
  obtain ⟨n, rfl⟩ := Int.eq_ofNat_of_zero_le hk0
  refine ⟨n, ?_⟩
  rw [Int.mul_comm]
  omega

/-- Every value is a word. -/
theorem exists_word_of_mem {p : Progression} {x : Int} (hx : x ∈ p) : ∃ v : Word, v.toInt = x := by
  have hmin := p.min.le_toInt
  have hmax := p.max.toInt_lt
  obtain ⟨h₁, h₂, -⟩ := hx
  exact ⟨Int64.ofInt x, Word.toInt_ofInt ⟨by omega, by omega⟩⟩

/-! ## Building -/

theorem mem_single {v : Word} {x : Int} : x ∈ single v ↔ x = v.toInt :=
  mem_iff_of_isSingle (by simp [single, isSingle])

theorem bounded_single {M : Nat} {v : Word} (h : v.toInt.natAbs ≤ M) : (single v).Bounded M :=
  ⟨h, h⟩

theorem min_ofOrdered (lo hi d : Word) (h : lo ≤ hi) (hd : 0 < d) :
    (ofOrdered lo hi d h hd).min = lo := by
  unfold ofOrdered
  split <;> rfl

theorem max_ofOrdered (lo hi d : Word) (h : lo ≤ hi) (hd : 0 < d) :
    (ofOrdered lo hi d h hd).max = lastReached lo hi d := by
  unfold ofOrdered
  split
  · assumption
  · rfl

theorem toInt_lastReached_eq {lo hi d : Word} (h : lo ≤ hi) (hd : 0 < d) :
    (lastReached lo hi d).toInt =
      lo.toInt + d.toInt * ((hi.toInt - lo.toInt) / d.toInt) := by
  have h₁ := toInt_lastReached h d
  have h₂ := Nat.div_add_mod (Word.distance lo hi) d.toNatClampNeg
  rw [← Word.distance_eq h, ← Word.toInt_toNat (Int64.le_of_lt hd), h₁]
  norm_cast
  omega

/-- The last word reached is the highest at or below the bound that is a
    multiple of the step above the lowest. -/
theorem le_toInt_lastReached_iff {lo hi d : Word} (h : lo ≤ hi) (hd : 0 < d) {x : Int}
    (hx : d.toInt ∣ x - lo.toInt) : x ≤ (lastReached lo hi d).toInt ↔ x ≤ hi.toInt := by
  obtain ⟨k, hk⟩ := hx
  have hpos : 0 < d.toInt := Int64.lt_iff_toInt_lt.1 hd
  have hdiv := Int.le_ediv_iff_mul_le (a := k) (b := hi.toInt - lo.toInt) hpos
  have hmul := Int.mul_le_mul_left (a := d.toInt) (b := k)
    (c := (hi.toInt - lo.toInt) / d.toInt) hpos
  rw [toInt_lastReached_eq h hd]
  rw [Int.mul_comm] at hdiv
  constructor
  · intro hle
    have := hdiv.1 (hmul.1 (by omega))
    omega
  · intro hle
    have := hmul.2 (hdiv.2 (by omega))
    omega

theorem mem_ofOrdered {lo hi d : Word} (h : lo ≤ hi) (hd : 0 < d) {x : Int} :
    x ∈ ofOrdered lo hi d h hd ↔ lo.toInt ≤ x ∧ x ≤ hi.toInt ∧ d.toInt ∣ x - lo.toInt := by
  have hlast : d.toInt ∣ (lastReached lo hi d).toInt - lo.toInt := by
    rw [← Word.distance_mod_eq_zero (le_lastReached h d) hd, distance_lastReached h]
    exact Nat.sub_mod_eq_zero_of_mod_eq (Nat.mod_mod ..).symm
  by_cases heq : lo = lastReached lo hi d
  · have : ofOrdered lo hi d h hd = single lo := dif_pos heq
    rw [this, mem_single]
    constructor
    · rintro rfl
      exact ⟨Int.le_refl _, Int64.le_iff_toInt_le.1 h, by rw [Int.sub_self]; exact Int.dvd_zero _⟩
    · rintro ⟨h₁, h₂, h₃⟩
      have := (le_toInt_lastReached_iff h hd h₃).2 h₂
      rw [← heq] at this
      omega
  · rw [mem_def, min_ofOrdered, max_ofOrdered]
    have hstep : (ofOrdered lo hi d h hd).step = d := by
      unfold ofOrdered
      rw [dif_neg heq]
    rw [hstep]
    constructor
    · rintro ⟨h₁, h₂, h₃⟩
      exact ⟨h₁, (le_toInt_lastReached_iff h hd h₃).1 h₂, h₃⟩
    · rintro ⟨h₁, h₂, h₃⟩
      exact ⟨h₁, (le_toInt_lastReached_iff h hd h₃).2 h₂, h₃⟩

theorem new_of_le {a b d : Word} (h : a ≤ b) (hd : 0 < d) : new a b d = ofOrdered a b d h hd := by
  unfold new
  rw [dif_pos hd, dif_pos h]

theorem new_swap (a b d : Word) : new a b d = new b a d := by
  by_cases hab : a ≤ b
  · by_cases hba : b ≤ a
    · rw [Int64.le_antisymm hab hba]
    · unfold new
      simp only [dif_pos hab, dif_neg hba]
  · have hba : b ≤ a := Int64.le_of_lt (Int64.not_le.1 hab)
    unfold new
    simp only [dif_neg hab, dif_pos hba]

/-- A step below 1 counts as 1. -/
theorem new_of_not_pos {a b d : Word} (hd : ¬ 0 < d) : new a b d = new a b 1 := by
  have h1 : (0 : Word) < 1 := by decide
  unfold new
  simp only [dif_neg hd, dif_pos h1]

theorem mem_new {a b d : Word} (h : a ≤ b) (hd : 0 < d) {x : Int} :
    x ∈ new a b d ↔ a.toInt ≤ x ∧ x ≤ b.toInt ∧ d.toInt ∣ x - a.toInt := by
  rw [new_of_le h hd, mem_ofOrdered h hd]

theorem mem_new_of_dvd {a b d : Word} {x : Int} (h₁ : a.toInt ≤ x) (h₂ : x ≤ b.toInt)
    (h₃ : d.toInt ∣ x - a.toInt) : x ∈ new a b d := by
  have hab : a ≤ b := Int64.le_iff_toInt_le.2 (by omega)
  by_cases hd : 0 < d
  · exact (mem_new hab hd).2 ⟨h₁, h₂, h₃⟩
  · rw [new_of_not_pos hd]
    exact (mem_new hab (by decide)).2 ⟨h₁, h₂, Int.one_dvd _⟩

theorem mem_new_one {a b : Word} {x : Int} (h₁ : a.toInt ≤ x) (h₂ : x ≤ b.toInt) :
    x ∈ new a b 1 := mem_new_of_dvd h₁ h₂ (Int.one_dvd _)

theorem le_of_mem_new {a b d : Word} (h : a ≤ b) {x : Int} (hx : x ∈ new a b d) :
    a.toInt ≤ x ∧ x ≤ b.toInt := by
  by_cases hd : 0 < d
  · exact ((mem_new h hd).1 hx).imp_right (·.1)
  · rw [new_of_not_pos hd] at hx
    exact ((mem_new h (by decide)).1 hx).imp_right (·.1)

theorem bounded_new {M : Nat} {a b : Word} (ha : a.toInt.natAbs ≤ M) (hb : b.toInt.natAbs ≤ M)
    (d : Word) : (new a b d).Bounded M := by
  by_cases h : a ≤ b
  · have h₁ := le_of_mem_new h (new a b d).min_mem
    have h₂ := le_of_mem_new h (new a b d).max_mem
    exact ⟨by omega, by omega⟩
  · rw [new_swap]
    have hba : b ≤ a := Int64.le_of_lt (Int64.not_le.1 h)
    have h₁ := le_of_mem_new hba (new b a d).min_mem
    have h₂ := le_of_mem_new hba (new b a d).max_mem
    exact ⟨by omega, by omega⟩

/-! ## The list of values -/

theorem values_eq (p : Progression) : p.values = (List.range p.size).map p.value :=
  congrArg (fun n => (List.range n).map p.value) (Nat.min_self p.size)

theorem length_values (p : Progression) : p.values.length = p.size := by
  rw [values_eq, List.length_map, List.length_range]

theorem toInt_value {p : Progression} {k : Nat}
    (hk : p.min.toInt + k * p.step.toInt ≤ p.max.toInt) :
    (p.value k).toInt = p.min.toInt + k * p.step.toInt := by
  have h₁ := Word.inRange_toInt p.min
  have h₂ := Word.inRange_toInt p.max
  have h₃ : 0 ≤ (k : Int) * p.step.toInt :=
    Int.mul_nonneg (by omega) (Int.le_of_lt p.toInt_step_pos)
  unfold Word.InRange at h₁ h₂
  rw [value, Int64.toInt_add, Int64.toInt_mul, Int64.toInt_ofNat', Int64.size,
    Int.bmod_mul_bmod, Int.add_bmod_bmod]
  exact Word.bmod_of_inRange ⟨by omega, by omega⟩

/-- The progression does not have all `2^64` words as values. -/
theorem size_eq {p : Progression} (h : p.max.toInt - p.min.toInt < 0xffffffffffffffff) :
    p.size = Word.distance p.min p.max / p.step.toNatClampNeg + 1 := by
  have h₁ := Word.distance_eq p.min_le_max
  have h₂ := Nat.div_le_self (Word.distance p.min p.max) p.step.toNatClampNeg
  unfold size Word.countBound
  exact Nat.min_eq_left (by omega)

/-- A size below the limit is exact. -/
theorem size_eq_of_lt {p : Progression} (h : p.size < Word.countBound - 1) :
    p.size = Word.distance p.min p.max / p.step.toNatClampNeg + 1 := by
  rcases Nat.le_total (Word.distance p.min p.max / p.step.toNatClampNeg + 1)
    (Word.countBound - 1) with hle | hle
  · exact Nat.min_eq_left hle
  · have hlimit : p.size = Word.countBound - 1 := Nat.min_eq_right hle
    omega

/-- The number of steps that stay within the bounds. -/
theorem lt_count_iff (p : Progression) (k : Nat) :
    k < Word.distance p.min p.max / p.step.toNatClampNeg + 1 ↔
      p.min.toInt + k * p.step.toInt ≤ p.max.toInt := by
  have hstep := Word.toInt_toNat (Int64.le_of_lt p.step_pos)
  have hdist := Word.distance_eq p.min_le_max
  rw [Nat.lt_succ_iff, Nat.le_div_iff_mul_le (Word.toNatClampNeg_pos p.step_pos), ← hstep]
  zify
  omega

/-- What is counted stays within the bounds, also where the size is cut. -/
theorem le_max_of_lt_size {p : Progression} {k : Nat} (hk : k < p.size) :
    p.min.toInt + k * p.step.toInt ≤ p.max.toInt :=
  (p.lt_count_iff k).1 (Nat.lt_of_lt_of_le hk (Nat.min_le_left ..))

section Listed

variable {p : Progression} (h : p.size = Word.distance p.min p.max / p.step.toNatClampNeg + 1)
include h

theorem lt_size_iff (k : Nat) : k < p.size ↔ p.min.toInt + k * p.step.toInt ≤ p.max.toInt := by
  rw [h]
  exact p.lt_count_iff k

theorem mem_values {v : Word} : v ∈ p.values ↔ v.toInt ∈ p := by
  have hpos := p.toInt_step_pos
  have hlt := lt_size_iff h
  simp only [values_eq, List.mem_map, List.mem_range]
  constructor
  · rintro ⟨k, hk, rfl⟩
    rw [toInt_value ((hlt k).1 hk)]
    refine ⟨?_, (hlt k).1 hk, ?_⟩
    · have : 0 ≤ (k : Int) * p.step.toInt := Int.mul_nonneg (by omega) (Int.le_of_lt hpos)
      omega
    · rw [add_sub_cancel_left]
      exact Int.dvd_mul_left ..
  · intro hv
    obtain ⟨n, hn⟩ := exists_steps_of_mem hv
    have hle : p.min.toInt + n * p.step.toInt ≤ p.max.toInt := hn ▸ hv.2.1
    exact ⟨n, (hlt n).2 hle, Word.eq_of_toInt_eq ((toInt_value hle).trans hn.symm)⟩

end Listed

theorem mem_values_of_bounded {M : Nat} (hM : M < Word.halfBound) {p : Progression}
    (hp : p.Bounded M) {v : Word} : v ∈ p.values ↔ v.toInt ∈ p := by
  obtain ⟨h₁, h₂⟩ := hp
  unfold Word.halfBound at hM
  exact mem_values (size_eq (by omega))

/-- Every value is listed. -/
theorem exists_mem_values {M : Nat} (hM : M < Word.halfBound) {p : Progression}
    (hp : p.Bounded M) {x : Int} (hx : x ∈ p) : ∃ v ∈ p.values, v.toInt = x := by
  obtain ⟨v, rfl⟩ := exists_word_of_mem hx
  exact ⟨v, (mem_values_of_bounded hM hp).2 hx, rfl⟩

end InputSolver.Progression
