/-
  InputSolver — progressions as sets of words.

  A progression has one representation for its set of values, and its list of
  values is its test for values.

  * `mem_new_iff`: the values of what is built from any three words, with the
    bounds in either order and any step;
  * `contains_iff`, `eq_iff`: one progression contains another if and only if it
    has all its values, and the same values make the same progression;
  * `map_toInt_values`: the list of values goes up in steps, although each value
    is computed from its index with arithmetic that wraps around;
  * `listed_iff`: the list is complete unless all words are values, whose number
    is one more than a size can be;
  * `representation_exact` puts these together.
-/
import InputSolver.Proofs.Progression.Common
import InputSolver.Proofs.Progression.Union

namespace InputSolver.Progression

variable {p q : Progression}

/-! ## Building -/

/-- The values of a progression built from any three words.  A step below 1
    counts as 1. -/
theorem mem_new_iff {a b d : Word} {x : Int} :
    x ∈ new a b d ↔ Min.min a.toInt b.toInt ≤ x ∧ x ≤ Max.max a.toInt b.toInt ∧
      Max.max d.toInt 1 ∣ x - Min.min a.toInt b.toInt := by
  have ordered {a b : Word} (h : a ≤ b) :
      x ∈ new a b d ↔ a.toInt ≤ x ∧ x ≤ b.toInt ∧ Max.max d.toInt 1 ∣ x - a.toInt := by
    by_cases hd : 0 < d
    · have hpos : 0 < d.toInt := Int64.lt_iff_toInt_lt.1 hd
      rw [mem_new h hd, Int.max_eq_left (by omega)]
    · have hle : d.toInt ≤ 0 := Int64.le_iff_toInt_le.1 (Int64.not_lt.1 hd)
      rw [new_of_not_pos hd, mem_new h (by decide), Int.max_eq_right (by omega)]
      rfl
  rcases Int64.le_total a b with h | h
  · have hle := Int64.le_iff_toInt_le.1 h
    rw [ordered h, Int.min_eq_left hle, Int.max_eq_right hle]
  · have hle := Int64.le_iff_toInt_le.1 h
    rw [new_swap, ordered h, Int.min_eq_right hle, Int.max_eq_left hle]

/-! ## Containment -/

/-- The first two values of a progression decide which steps suit it. -/
theorem step_dvd_of_subset (h : ∀ x ∈ q, x ∈ p) (hq : ¬ q.isSingle = true) :
    p.step.toInt ∣ q.step.toInt := by
  have hfirst := (h _ q.min_mem).2.2
  have hsecond := (h _ (second_mem hq)).2.2
  have hdiff : q.step.toInt =
      (q.min.toInt + q.step.toInt - p.min.toInt) - (q.min.toInt - p.min.toInt) := by omega
  rw [hdiff]
  exact Int.dvd_sub hsecond hfirst

theorem contains_iff_subset : p.contains q = true ↔ ∀ x ∈ q, x ∈ p := by
  refine ⟨fun h x hx => mem_of_contains h hx, fun h => ?_⟩
  have hmin := h _ q.min_mem
  have hmax := h _ q.max_mem
  have hstep : q.isSingle = true ∨ q.step % p.step = 0 := by
    by_cases hq : q.isSingle = true
    · exact .inl hq
    · refine .inr (Word.eq_of_toInt_eq ?_)
      rw [Int64.toInt_mod]
      exact Int.tmod_eq_zero_of_dvd (step_dvd_of_subset h hq)
  simp only [contains, Bool.and_eq_true, decide_eq_true_eq, Bool.or_eq_true, beq_iff_eq,
    Int64.le_iff_toInt_le, includes_iff]
  exact ⟨⟨⟨hmin.1, hmax.2.1⟩, hmin⟩, hstep⟩

/-- All values are words, so the test for values sees them all. -/
theorem subset_iff_includes :
    (∀ x ∈ q, x ∈ p) ↔ ∀ v, q.includes v = true → p.includes v = true := by
  simp only [includes_iff]
  refine ⟨fun h v => h v.toInt, fun h x hx => ?_⟩
  obtain ⟨v, rfl⟩ := exists_word_of_mem hx
  exact h v hx

theorem contains_iff :
    p.contains q = true ↔ ∀ v, q.includes v = true → p.includes v = true :=
  contains_iff_subset.trans subset_iff_includes

/-! ## Equality -/

/-- Progressions that have each other's values agree in both bounds and in the
    step. -/
theorem eq_of_subset (hpq : ∀ x ∈ p, x ∈ q) (hqp : ∀ x ∈ q, x ∈ p) : p = q := by
  have hmin : p.min = q.min := Word.eq_of_toInt_eq
    (Int.le_antisymm (hqp _ q.min_mem).1 (hpq _ p.min_mem).1)
  have hmax : p.max = q.max := Word.eq_of_toInt_eq
    (Int.le_antisymm (hpq _ p.max_mem).2.1 (hqp _ q.max_mem).2.1)
  have hsingle : p.isSingle = q.isSingle := by rw [isSingle, isSingle, hmin, hmax]
  by_cases hp : p.isSingle = true
  · have hq : q.isSingle = true := hsingle ▸ hp
    rw [eq_single hp, eq_single hq, hmin]
  · have hstep : p.step.toInt = q.step.toInt :=
      Int.dvd_antisymm (Int.le_of_lt p.toInt_step_pos) (Int.le_of_lt q.toInt_step_pos)
        (step_dvd_of_subset hqp (hsingle ▸ hp)) (step_dvd_of_subset hpq hp)
    exact Progression.ext hmin hmax (Word.eq_of_toInt_eq hstep)

theorem eq_iff : p = q ↔ ∀ v, p.includes v = q.includes v := by
  constructor
  · rintro rfl v
    rfl
  · intro h
    refine eq_of_subset (subset_iff_includes.2 fun v hv => ?_)
      (subset_iff_includes.2 fun v hv => ?_)
    · rw [← h v, hv]
    · rw [h v, hv]

/-! ## The list of values -/

/-- The values of this progression are all words. -/
def full : Progression := new Int64.minValue Int64.maxValue 1

theorem eq_full_iff :
    p = full ↔ p.min = Int64.minValue ∧ p.max = Int64.maxValue ∧ p.step = 1 := by
  constructor
  · rintro rfl
    decide
  · rintro ⟨hmin, hmax, hstep⟩
    exact Progression.ext hmin hmax hstep

/-- Only the number of all words is too large for a size. -/
theorem size_eq_of_ne_full (h : p ≠ full) :
    p.size = Word.distance p.min p.max / p.step.toNatClampNeg + 1 := by
  by_cases hspan : p.max.toInt - p.min.toInt < 0xffffffffffffffff
  · exact size_eq hspan
  · -- the bounds are the lowest and the highest word, so the step is not 1
    have hmin := Word.inRange_toInt p.min
    have hmax := Word.inRange_toInt p.max
    unfold Word.InRange at hmin hmax
    have hlowest : p.min = Int64.minValue :=
      Word.eq_of_toInt_eq (by rw [Int64.toInt_minValue]; omega)
    have hhighest : p.max = Int64.maxValue :=
      Word.eq_of_toInt_eq (by rw [Int64.toInt_maxValue]; omega)
    have hstep : p.step.toInt ≠ 1 := fun hone =>
      h (eq_full_iff.2 ⟨hlowest, hhighest, Word.eq_of_toInt_eq hone⟩)
    have hpos := p.toInt_step_pos
    have hnat := Word.toInt_toNat (Int64.le_of_lt p.step_pos)
    have hdist := Word.distance_eq p.min_le_max
    have hhalf : Word.distance p.min p.max / p.step.toNatClampNeg ≤ Word.distance p.min p.max / 2 :=
      Nat.div_le_div_left (by omega) (by omega)
    unfold size Word.countBound
    exact Nat.min_eq_left (by omega)

/-- The values are the integers that their indices stand for: what wraps around
    on the way comes back. -/
theorem map_toInt_values (p : Progression) :
    p.values.map Int64.toInt = steps p.min.toInt p.step.toInt p.size := by
  rw [values_eq, List.map_map, steps]
  refine List.map_congr_left fun k hk => ?_
  exact toInt_value (le_max_of_lt_size (List.mem_range.1 hk))

theorem pairwise_steps {c d : Int} (hd : 0 < d) (n : Nat) : (steps c d n).Pairwise (· < ·) := by
  rw [steps, List.pairwise_map]
  refine List.pairwise_lt_range.imp fun {j k} hjk => ?_
  have := Int.mul_lt_mul_of_pos_right (Int.ofNat_lt.2 hjk) hd
  omega

theorem pairwise_values (p : Progression) : p.values.Pairwise (· < ·) := by
  have h := pairwise_steps (c := p.min.toInt) p.toInt_step_pos p.size
  rw [← map_toInt_values, List.pairwise_map] at h
  exact h.imp Int64.lt_iff_toInt_lt.2

/-- The list of values has exactly the values, each once and in ascending order,
    and the size is their number. -/
structure Listed (p : Progression) : Prop where
  mem : ∀ v, v ∈ p.values ↔ p.includes v = true
  ascending : p.values.Pairwise (· < ·)
  length : p.values.length = p.size

theorem listed_of_ne_full (h : p ≠ full) : p.Listed where
  mem _ := (mem_values (size_eq_of_ne_full h)).trans includes_iff.symm
  ascending := p.pairwise_values
  length := p.length_values

/-- The size of all words is one too low, so the highest one is not listed. -/
theorem maxValue_not_mem_values_full : Int64.maxValue ∉ full.values := by
  intro h
  have hmem := List.mem_map_of_mem (f := Int64.toInt) h
  rw [map_toInt_values, steps] at hmem
  obtain ⟨k, hk, hvalue⟩ := List.mem_map.1 hmem
  have hsize : full.size = 0xffffffffffffffff := by decide
  have hmin : full.min.toInt = -0x8000000000000000 := by decide
  have hstep : full.step.toInt = 1 := by decide
  rw [List.mem_range, hsize] at hk
  rw [hmin, hstep, Int64.toInt_maxValue] at hvalue
  omega

theorem listed_iff : p.Listed ↔ p ≠ full := by
  refine ⟨?_, listed_of_ne_full⟩
  rintro hlisted rfl
  exact maxValue_not_mem_values_full ((hlisted.mem _).2 (includes_iff.2 full.max_mem))

/-! ## Representation -/

/-- What is built from any three words is the progression of the values that
    they ask for, in its one representation; it lists its values unless it is
    the one of all words; and it is compared with others by its values. -/
theorem representation_exact (a b d : Word) :
    let p := new a b d
    (∀ v, p.includes v = true ↔
      Min.min a.toInt b.toInt ≤ v.toInt ∧ v.toInt ≤ Max.max a.toInt b.toInt ∧
        Max.max d.toInt 1 ∣ v.toInt - Min.min a.toInt b.toInt) ∧
    (p.min ≤ p.max ∧ 1 ≤ p.step ∧ p.step.toInt ∣ p.max.toInt - p.min.toInt ∧
      (p.isSingle = true → p.step = 1)) ∧
    (p.Listed ↔ p ≠ full) ∧
    ∀ a' b' d' : Word,
      let q := new a' b' d'
      (p = q ↔ ∀ v, p.includes v = q.includes v) ∧
      (p.contains q = true ↔ ∀ v, q.includes v = true → p.includes v = true) := by
  intro p
  refine ⟨fun v => includes_iff.trans mem_new_iff, ⟨p.min_le_max, ?_, p.step_dvd, fun h => ?_⟩,
    listed_iff, fun a' b' d' => ⟨eq_iff, contains_iff⟩⟩
  · exact Int64.le_iff_toInt_le.2 p.toInt_step_pos
  · exact p.step_of_single (beq_iff_eq.1 h)

/-- All words but the highest one, asked for with the bounds reversed and a
    negative step.  The indices go up to `2^64 - 2`, which is no word, and still
    the list is complete. -/
theorem representation_exact_allButHighest :
    let p := new 0x7ffffffffffffffe Int64.minValue (-5)
    p ≠ full ∧ p.size = 0xffffffffffffffff ∧ p.Listed := by
  intro p
  have hne : p ≠ full := by decide
  exact ⟨hne, by decide, (representation_exact _ _ _).2.2.1.2 hne⟩

end InputSolver.Progression
