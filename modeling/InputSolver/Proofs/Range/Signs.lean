/-
  InputSolver — cutting at zero, on words.

  * `Progression.firstFrom_eq_some_iff`, `Progression.lastTo_eq_some_iff`: the
    value nearest to a bound is the only one they can return;
  * `Progression.splitSign_cutAtZero`: the parts of a progression are its values
    below, at and above zero;
  * `cutting_exact` puts these together with `withoutZero`.  The parts of a
    range without zero may be joined again across zero (`-1, 1` has step 2),
    and still zero is not among them.
-/
import InputSolver.Proofs.Progression.Cut
import InputSolver.Proofs.Range.Sets

namespace InputSolver

namespace Progression

variable {p : Progression} {bound v : Word}

/-! ## The nearest value -/

theorem firstFrom_eq_none_iff :
    p.firstFrom bound = none ↔ ∀ v, p.includes v = true → v < bound := by
  refine ⟨fun h v hv => ?_, fun h => ?_⟩
  · exact Int64.lt_iff_toInt_lt.2 (firstFrom_eq_none h (includes_iff.1 hv))
  · exact if_pos (h p.max (includes_iff.2 p.max_mem))

theorem firstFrom_eq_some_iff : p.firstFrom bound = some v ↔
    (p.includes v = true ∧ bound ≤ v) ∧ ∀ w, p.includes w = true → bound ≤ w → v ≤ w := by
  constructor
  · intro h
    obtain ⟨hmem, hle, hleast⟩ := firstFrom_eq_some h
    refine ⟨⟨includes_iff.2 hmem, Int64.le_iff_toInt_le.2 hle⟩, fun w hw hbw => ?_⟩
    exact Int64.le_iff_toInt_le.2 (hleast _ (includes_iff.1 hw) (Int64.le_iff_toInt_le.1 hbw))
  · rintro ⟨⟨hv, hle⟩, hleast⟩
    cases h : p.firstFrom bound with
    | none => exact absurd (firstFrom_eq_none_iff.1 h v hv) (Int64.not_lt.2 hle)
    | some first =>
      obtain ⟨hmem, hbound, hfirst⟩ := firstFrom_eq_some h
      have h₁ := hfirst _ (includes_iff.1 hv) (Int64.le_iff_toInt_le.1 hle)
      have h₂ := hleast first (includes_iff.2 hmem) (Int64.le_iff_toInt_le.2 hbound)
      exact congrArg some (Int64.le_antisymm (Int64.le_iff_toInt_le.2 h₁) h₂)

theorem lastTo_eq_none_iff :
    p.lastTo bound = none ↔ ∀ v, p.includes v = true → bound < v := by
  refine ⟨fun h v hv => ?_, fun h => ?_⟩
  · exact Int64.lt_iff_toInt_lt.2 (lastTo_eq_none h (includes_iff.1 hv))
  · exact if_pos (h p.min (includes_iff.2 p.min_mem))

theorem lastTo_eq_some_iff : p.lastTo bound = some v ↔
    (p.includes v = true ∧ v ≤ bound) ∧ ∀ w, p.includes w = true → w ≤ bound → w ≤ v := by
  constructor
  · intro h
    obtain ⟨hmem, hle, hgreatest⟩ := lastTo_eq_some h
    refine ⟨⟨includes_iff.2 hmem, Int64.le_iff_toInt_le.2 hle⟩, fun w hw hwb => ?_⟩
    exact Int64.le_iff_toInt_le.2 (hgreatest _ (includes_iff.1 hw) (Int64.le_iff_toInt_le.1 hwb))
  · rintro ⟨⟨hv, hle⟩, hgreatest⟩
    cases h : p.lastTo bound with
    | none => exact absurd (lastTo_eq_none_iff.1 h v hv) (Int64.not_lt.2 hle)
    | some last =>
      obtain ⟨hmem, hbound, hlast⟩ := lastTo_eq_some h
      have h₁ := hlast _ (includes_iff.1 hv) (Int64.le_iff_toInt_le.1 hle)
      have h₂ := hgreatest last (includes_iff.2 hmem) (Int64.le_iff_toInt_le.2 hbound)
      exact congrArg some (Int64.le_antisymm h₂ (Int64.le_iff_toInt_le.2 h₁))

/-! ## Zero -/

/-- At most one part on each side of zero, and each value of a progression where
    its sign puts it. -/
structure CutAtZero (p : Progression) (parts : SignParts) : Prop where
  negative_le_one : parts.negative.length ≤ 1
  positive_le_one : parts.positive.length ≤ 1
  negative : ∀ v, (∃ q ∈ parts.negative, q.includes v = true) ↔ p.includes v = true ∧ v < 0
  zero : parts.hasZero = true ↔ p.includes 0 = true
  positive : ∀ v, (∃ q ∈ parts.positive, q.includes v = true) ↔ p.includes v = true ∧ 0 < v

theorem splitSign_cutAtZero (p : Progression) : p.CutAtZero p.splitSign where
  negative_le_one := Option.length_toList_le
  positive_le_one := Option.length_toList_le
  negative v := by
    simp only [includes_iff]
    rw [mem_splitSign_negative, Int64.lt_iff_toInt_lt]
    rfl
  zero := Iff.rfl
  positive v := by
    simp only [includes_iff]
    rw [mem_splitSign_positive, Int64.lt_iff_toInt_lt]
    rfl

end Progression

namespace Range

theorem withoutZero_includes {M : Nat} (hM : M < Word.halfBound) {r : Range} (hr : r.Bounded M) :
    ∃ s, r.withoutZero = .ok s ∧ ∀ v, s.includes v = true ↔ v ≠ 0 ∧ r.includes v = true := by
  obtain ⟨s, hs, -, hmem⟩ := withoutZero_of_bounded hM hr
  refine ⟨s, hs, fun v => ?_⟩
  rw [includes_iff, includes_iff, hmem, Word.ne_zero_iff, and_comm]

/-- Cutting a progression at zero or at a bound is exact for all words, and so
    is taking zero out of a range of small words. -/
theorem cutting_exact :
    (∀ p : Progression, p.CutAtZero p.splitSign ∧ ∀ bound : Word,
      (∀ v, p.firstFrom bound = some v ↔ (p.includes v = true ∧ bound ≤ v) ∧
        ∀ w, p.includes w = true → bound ≤ w → v ≤ w) ∧
      (p.firstFrom bound = none ↔ ∀ v, p.includes v = true → v < bound) ∧
      (∀ v, p.lastTo bound = some v ↔ (p.includes v = true ∧ v ≤ bound) ∧
        ∀ w, p.includes w = true → w ≤ bound → w ≤ v) ∧
      (p.lastTo bound = none ↔ ∀ v, p.includes v = true → bound < v)) ∧
    ∀ {M : Nat}, M < Word.halfBound → ∀ r : Range, r.Bounded M →
      ∃ s, r.withoutZero = .ok s ∧ ∀ v, s.includes v = true ↔ v ≠ 0 ∧ r.includes v = true := by
  refine ⟨fun p => ⟨p.splitSign_cutAtZero, fun bound => ?_⟩, fun hM _ hr =>
    withoutZero_includes hM hr⟩
  exact ⟨fun _ => Progression.firstFrom_eq_some_iff, Progression.firstFrom_eq_none_iff,
    fun _ => Progression.lastTo_eq_some_iff, Progression.lastTo_eq_none_iff⟩

/-- Without zero, `-1, 0, 1` is joined again to `-1, 1`. -/
theorem cutting_exact_joinedAgain : ∃ r s : Range,
    r = progression (-1) 1 1 ∧ s = progression (-1) 1 2 ∧ 1 < Word.halfBound ∧ r.Bounded 1 ∧
      r.withoutZero = .ok s ∧ ∀ v, s.includes v = true ↔ v ≠ 0 ∧ r.includes v = true := by
  have hM : 1 < Word.halfBound := by decide
  have hr : (progression (-1) 1 1).Bounded 1 := bounded_progression (by decide) (by decide) 1
  obtain ⟨s, hs, hincludes⟩ := cutting_exact.2 hM _ hr
  have hjoined : (progression (-1) 1 1).withoutZero = .ok (progression (-1) 1 2) :=
    (withoutZero_singleton _).trans
      (ofProgressions_of_union? (n := .single (-1)) (p := .single 1) (by decide) (by decide))
  rw [hs, Except.ok.injEq] at hjoined
  subst hjoined
  exact ⟨_, _, rfl, rfl, hM, hr, hs, hincludes⟩

end Range

end InputSolver
