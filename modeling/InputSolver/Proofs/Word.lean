/-
  InputSolver — words as integers.

  Word arithmetic agrees with integer arithmetic as long as the result is a
  word.  `toInt_add`, `toInt_mul`, `toInt_div` and the others say so for each
  operation; magnitudes are given by `Int.natAbs`.
-/
import Mathlib.Algebra.Order.Ring.Int
import InputSolver.Word

namespace InputSolver.Word

/-- Below this magnitude sums and differences of two integers are words. -/
def halfBound : Nat := 0x4000000000000000

theorem inRange_of_natAbs {i : Int} (h : i.natAbs < 0x8000000000000000) : InRange i :=
  ⟨by omega, by omega⟩

theorem natAbs_toInt_le (a : Word) : a.toInt.natAbs ≤ 0x8000000000000000 := by
  have := inRange_toInt a
  unfold InRange at this
  omega

theorem bmod_of_inRange {i : Int} (h : InRange i) : i.bmod (2 ^ 64) = i := by
  obtain ⟨h₁, h₂⟩ := h
  exact Int.bmod_eq_of_le (by omega) (by omega)

theorem eq_of_toInt_eq {a b : Word} (h : a.toInt = b.toInt) : a = b := Int64.toInt_inj.1 h

theorem ne_zero_iff {a : Word} : a ≠ 0 ↔ a.toInt ≠ 0 := by
  constructor
  · intro h h'
    exact h (eq_of_toInt_eq h')
  · rintro h rfl
    exact h rfl

theorem toInt_ne {a b : Word} (h : a ≠ b) : a.toInt ≠ b.toInt :=
  fun heq => h (eq_of_toInt_eq heq)

/-- All words but the lowest have an opposite. -/
theorem natAbs_le_of_ne_minValue {a : Word} (h : a ≠ Int64.minValue) :
    a.toInt.natAbs ≤ 0x7fffffffffffffff := by
  have h₁ := toInt_ne h
  have h₂ := inRange_toInt a
  rw [show Int64.minValue.toInt = -0x8000000000000000 from rfl] at h₁
  unfold InRange at h₂
  omega

theorem ne_minValue {a : Word} (h : a.toInt.natAbs < 0x8000000000000000) : a ≠ Int64.minValue := by
  rintro rfl
  exact absurd h (by decide)

/-- The larger of two words is one of them, and at or above both. -/
instance : Std.LawfulOrderMax Word where
  max_eq_or a b := by
    change (if a ≤ b then b else a) = a ∨ (if a ≤ b then b else a) = b
    split <;> simp
  max_le_iff a b c := by
    change (if a ≤ b then b else a) ≤ c ↔ a ≤ c ∧ b ≤ c
    split <;> simp only [Int64.le_iff_toInt_le] at * <;> omega

/-! ## Arithmetic that wraps around -/

theorem toInt_add {a b : Word} (h : InRange (a.toInt + b.toInt)) :
    (a + b).toInt = a.toInt + b.toInt := by
  rw [Int64.toInt_add]
  exact bmod_of_inRange h

theorem toInt_sub {a b : Word} (h : InRange (a.toInt - b.toInt)) :
    (a - b).toInt = a.toInt - b.toInt := by
  rw [Int64.toInt_sub]
  exact bmod_of_inRange h

theorem toInt_mul {a b : Word} (h : InRange (a.toInt * b.toInt)) :
    (a * b).toInt = a.toInt * b.toInt := by
  rw [Int64.toInt_mul]
  exact bmod_of_inRange h

theorem toInt_neg {a : Word} (h : a ≠ Int64.minValue) : (-a).toInt = -a.toInt := by
  have h₁ : a.toInt ≠ -0x8000000000000000 := fun h' => h (eq_of_toInt_eq h')
  have h₂ := inRange_toInt a
  unfold InRange at h₂
  rw [Int64.toInt_neg]
  exact bmod_of_inRange ⟨by omega, by omega⟩

theorem toInt_div {a b : Word} (h : a ≠ Int64.minValue) :
    (a / b).toInt = a.toInt.tdiv b.toInt := Int64.toInt_div_of_ne_left a b h

/-! ## Arithmetic that saturates -/

theorem toInt_satAdd {a b : Word} (h : InRange (a.toInt + b.toInt)) :
    (satAdd a b).toInt = a.toInt + b.toInt := clamp_of_inRange h

theorem toInt_satMul {a b : Word} (h : InRange (a.toInt * b.toInt)) :
    (satMul a b).toInt = a.toInt * b.toInt := clamp_of_inRange h

theorem toInt_satAbs_eq_min (a : Word) :
    (satAbs a).toInt = min a.toInt.natAbs 0x7fffffffffffffff := by
  rw [satAbs, toInt_clamp]
  split <;> omega

theorem toInt_satAbs {a : Word} (h : a.toInt.natAbs < 0x8000000000000000) :
    (satAbs a).toInt = a.toInt.natAbs := clamp_of_inRange ⟨by omega, by omega⟩

theorem toInt_gcd {a b : Word} (h : Int.gcd a.toInt b.toInt < 0x8000000000000000) :
    (gcd a b).toInt = Int.gcd a.toInt b.toInt := clamp_of_inRange ⟨by omega, by omega⟩

/-! ## Arithmetic that must be exact -/

theorem exact_of_inRange {i : Int} (h : InRange i) : ∃ a, exact i = .ok a ∧ a.toInt = i :=
  ⟨Int64.ofInt i, if_pos h, toInt_ofInt h⟩

theorem exactRem_of_ne {a : Word} (h : a ≠ Int64.minValue) (b : Word) :
    exactRem a b = .ok (a % b) := if_neg fun h' => h h'.1

theorem dvd_of_divides {a b : Word} (h : divides b a = true) :
    b.toInt ≠ 0 ∧ b.toInt ∣ a.toInt := by
  simp only [divides, Bool.and_eq_true, bne_iff_ne, ne_eq, beq_iff_eq] at h
  obtain ⟨⟨hb, -⟩, hmod⟩ := h
  refine ⟨ne_zero_iff.1 hb, Int.dvd_of_tmod_eq_zero ?_⟩
  rw [← Int64.toInt_mod, hmod]
  rfl

/-! ## Folds -/

theorem gcd_lt {a b : Int} {n : Nat} (ha : a.natAbs < n) (hb : b.natAbs < n) :
    Int.gcd a b < n := by
  rcases Nat.eq_zero_or_pos a.natAbs with h | h
  · rw [Int.gcd, h, Nat.gcd_zero_left]
    exact hb
  · exact Nat.lt_of_le_of_lt (Nat.gcd_le_left _ h) ha

theorem foldl_lowest {α : Type} (f : α → Word) (as : List α) (v : Word) :
    let r := as.foldl (fun lo a => if f a < lo then f a else lo) v
    r.toInt ≤ v.toInt ∧ (∀ a ∈ as, r.toInt ≤ (f a).toInt) ∧ (r = v ∨ ∃ a ∈ as, r = f a) := by
  induction as generalizing v with
  | nil => simp
  | cons a as ih =>
    obtain ⟨h₁, h₂, h₃⟩ := ih (if f a < v then f a else v)
    have hle : (if f a < v then f a else v).toInt ≤ v.toInt ∧
        (if f a < v then f a else v).toInt ≤ (f a).toInt := by
      split
      · rename_i h
        exact ⟨Int.le_of_lt (Int64.lt_iff_toInt_lt.1 h), Int.le_refl _⟩
      · rename_i h
        rw [Int64.lt_iff_toInt_lt] at h
        omega
    refine ⟨h₁.trans hle.1, ?_, ?_⟩
    · intro b hb
      rcases List.mem_cons.1 hb with rfl | hb
      · exact h₁.trans hle.2
      · exact h₂ b hb
    · rcases h₃ with h₃ | ⟨b, hb, h₃⟩
      · rw [List.foldl_cons, h₃]
        split
        · exact .inr ⟨a, List.mem_cons_self, rfl⟩
        · exact .inl rfl
      · exact .inr ⟨b, List.mem_cons_of_mem _ hb, h₃⟩

theorem foldl_highest {α : Type} (f : α → Word) (as : List α) (v : Word) :
    let r := as.foldl (fun hi a => if hi < f a then f a else hi) v
    v.toInt ≤ r.toInt ∧ (∀ a ∈ as, (f a).toInt ≤ r.toInt) ∧ (r = v ∨ ∃ a ∈ as, r = f a) := by
  induction as generalizing v with
  | nil => simp
  | cons a as ih =>
    obtain ⟨h₁, h₂, h₃⟩ := ih (if v < f a then f a else v)
    have hle : v.toInt ≤ (if v < f a then f a else v).toInt ∧
        (f a).toInt ≤ (if v < f a then f a else v).toInt := by
      split
      · rename_i h
        exact ⟨Int.le_of_lt (Int64.lt_iff_toInt_lt.1 h), Int.le_refl _⟩
      · rename_i h
        rw [Int64.lt_iff_toInt_lt] at h
        omega
    refine ⟨hle.1.trans h₁, ?_, ?_⟩
    · intro b hb
      rcases List.mem_cons.1 hb with rfl | hb
      · exact hle.2.trans h₁
      · exact h₂ b hb
    · rcases h₃ with h₃ | ⟨b, hb, h₃⟩
      · rw [List.foldl_cons, h₃]
        split
        · exact .inr ⟨a, List.mem_cons_self, rfl⟩
        · exact .inl rfl
      · exact .inr ⟨b, List.mem_cons_of_mem _ hb, h₃⟩

/-! ## Natural numbers -/

theorem toNatClampNeg_pos {a : Word} (h : 0 < a) : 0 < a.toNatClampNeg := by
  have h₁ := Int64.lt_iff_toInt_lt.1 h
  have h₂ := toInt_toNat (Int64.le_of_lt h)
  change 0 < a.toInt at h₁
  omega

/-- Whether a distance is a multiple of a positive word, in the integers. -/
theorem distance_mod_eq_zero {a b d : Word} (h : a ≤ b) (hd : 0 < d) :
    distance a b % d.toNatClampNeg = 0 ↔ d.toInt ∣ b.toInt - a.toInt := by
  rw [← distance_eq h, ← toInt_toNat (Int64.le_of_lt hd), Int.natCast_dvd_natCast,
    Nat.dvd_iff_mod_eq_zero]

end InputSolver.Word
