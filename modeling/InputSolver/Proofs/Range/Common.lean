/-
  InputSolver — which values two ranges have in common.

  * `meets_iff`: two ranges meet exactly if they share a value;
  * `meet_exact_iff`: the range of common values of two progressions has them
    all and nothing outside them, and it has nothing between them either unless
    they are several at a distance that is no word.
-/
import InputSolver.Proofs.Progression.Common
import InputSolver.Proofs.Range.Sets

namespace InputSolver

namespace Progression

/-- The first common value is one. -/
theorem exists_common {p q t : Progression} (h : p.meet? q = some t) :
    ∃ c : Word, p.includes c = true ∧ q.includes c = true := by
  obtain ⟨c, hi, hle, -, hcommon⟩ := meet?_eq_some h
  obtain ⟨hp, hq⟩ := (hcommon c.toInt).2 ⟨Int.le_refl _, hle, by simp⟩
  exact ⟨c, includes_iff.2 hp, includes_iff.2 hq⟩

variable {p q : Progression}

/-- The progression built for the common values has these values only, if their
    period is a word or there are no two of them. -/
theorem mem_meet? (hexact : p.period q < 0x8000000000000000 ∨ ∀ v w : Word,
      v.toInt ∈ p ∧ v.toInt ∈ q → w.toInt ∈ p ∧ w.toInt ∈ q → v = w) {x : Int} :
    (∃ t, p.meet? q = some t ∧ x ∈ t) ↔ x ∈ p ∧ x ∈ q := by
  have hbuilt {t : Progression} (h : p.meet? q = some t) : x ∈ t ↔ x ∈ p ∧ x ∈ q := by
    obtain ⟨c, hi, hle, rfl, hcommon⟩ := meet?_eq_some h
    have hpos := period_pos p q
    rw [hcommon]
    refine mem_cycle (Int64.le_iff_toInt_le.2 hle) hpos (hexact.imp_right fun honly => ?_)
    by_contra hn
    -- otherwise the next word at the period is common, too
    have hfirst := (hcommon c.toInt).2 ⟨Int.le_refl _, hle, by simp⟩
    have hnext := (hcommon (c.toInt + p.period q)).2 ⟨by omega, by omega, by simp⟩
    obtain ⟨w, hw⟩ := exists_word_of_mem hnext.1
    rw [← hw] at hnext
    rw [← honly c w hfirst hnext] at hw
    omega
  constructor
  · rintro ⟨t, ht, hx⟩
    exact (hbuilt ht).1 hx
  · intro hx
    obtain ⟨t, ht⟩ := Option.isSome_iff_exists.1 (meet?_isSome hx.1 hx.2)
    exact ⟨t, ht, (hbuilt ht).2 hx⟩

/-- Several common values at a longer period are two, and the progression built
    for them is the interval between them. -/
theorem mem_meet?_of_long (hlong : 0x8000000000000000 ≤ p.period q) {v w : Word}
    (hv : v.toInt ∈ p ∧ v.toInt ∈ q) (hw : w.toInt ∈ p ∧ w.toInt ∈ q) (hvw : v.toInt < w.toInt) :
    w.toInt = v.toInt + p.period q ∧ (∀ x, x ∈ p ∧ x ∈ q → x = v.toInt ∨ x = w.toInt) ∧
      ∀ x, (∃ t, p.meet? q = some t ∧ x ∈ t) ↔ v.toInt ≤ x ∧ x ≤ w.toInt := by
  obtain ⟨t, ht⟩ := Option.isSome_iff_exists.1 (meet?_isSome hv.1 hv.2)
  simp only [ht, Option.some.injEq, exists_eq_left']
  obtain ⟨c, hi, hle, rfl, hcommon⟩ := meet?_eq_some ht
  have h₁ := Word.inRange_toInt c
  have h₂ := Word.inRange_toInt hi
  unfold Word.InRange at h₁ h₂
  -- the interval is shorter than two periods
  have htwo {x : Int} (hx : x ∈ p ∧ x ∈ q) : x = c.toInt ∨ x = c.toInt + p.period q := by
    obtain ⟨hcx, hxhi, k, hk⟩ := (hcommon x).1 hx
    have hpos : (0 : Int) < p.period q := by omega
    have hk0 : 0 ≤ k := Int.nonneg_of_mul_nonneg_right (hk ▸ by omega) hpos
    have hk2 : k < 2 := Int.lt_of_mul_lt_mul_left (a := p.period q) (by omega) (by omega)
    obtain rfl | rfl : k = 0 ∨ k = 1 := by omega
    · exact .inl (by omega)
    · exact .inr (by omega)
  have hcv := ((hcommon _).1 hv).1
  have hwhi := ((hcommon _).1 hw).2.1
  have hvc : v.toInt = c.toInt := by
    have := htwo hv
    have := htwo hw
    omega
  have hwc : w.toInt = c.toInt + p.period q := (htwo hw).resolve_left (by omega)
  rw [hwc, hvc]
  exact ⟨rfl, fun x hx => htwo hx,
    fun x => mem_cycle_of_long (Int64.le_iff_toInt_le.2 hle) hlong (by omega)⟩

end Progression

namespace Range

/-- Two ranges meet exactly if a word is in both. -/
theorem meets_iff {r s : Range} :
    r.meets s = true ↔ ∃ v : Word, r.includes v = true ∧ s.includes v = true := by
  constructor
  · intro h
    rw [meets, Bool.and_eq_true] at h
    obtain ⟨p, hp, h⟩ := List.any_eq_true.1 h.2
    obtain ⟨q, hq, h⟩ := List.any_eq_true.1 h
    obtain ⟨t, ht⟩ := Option.isSome_iff_exists.1 h
    obtain ⟨c, hcp, hcq⟩ := Progression.exists_common ht
    exact ⟨c, List.any_eq_true.2 ⟨p, hp, hcp⟩, List.any_eq_true.2 ⟨q, hq, hcq⟩⟩
  · rintro ⟨v, hr, hs⟩
    exact meets_of_mem (includes_iff.1 hr) (includes_iff.1 hs)

theorem meets_comm (r s : Range) : r.meets s = s.meets r :=
  Bool.eq_iff_iff.2 <| meets_iff.trans <| (exists_congr fun _ => And.comm).trans meets_iff.symm

theorem meets_single {a b : Word} : (single a).meets (single b) = true ↔ a = b := by
  simp only [meets_iff, includes_iff, mem_single, Int64.toInt_inj, exists_eq_left]

/-! ## The range of common values -/

/-- The range of common values of two progressions has one member, or none. -/
theorem meet_progressions (p q : Progression) :
    meet ⟨[p]⟩ ⟨[q]⟩ = .ok ⟨(p.meet? q).toList⟩ := by
  have hcollect : ([p].flatMap fun p => [q].filterMap fun q => p.meet? q) =
      (p.meet? q).toList := by
    rw [List.flatMap_cons, List.flatMap_nil, List.append_nil]
    cases h : p.meet? q with
    | none => exact List.filterMap_cons_none h
    | some t => exact List.filterMap_cons_some h
  rw [meet, hcollect]
  cases p.meet? q with
  | none =>
    rw [Option.toList_none, ofProgressions, List.mergeSort_nil, List.foldlM_nil]
    change Except.ok (Range.mk (List.mergeSort [] _)) = _
    rw [List.mergeSort_nil]
  | some t => exact ofProgressions_singleton t

theorem mem_toList {t? : Option Progression} {x : Int} :
    x ∈ Range.mk t?.toList ↔ ∃ t, t? = some t ∧ x ∈ t := by
  simp only [mem_def, Option.mem_toList]

/-- The range of common values of two progressions has them all, and nothing
    outside them.  It has only them exactly if their period is a word or there
    are no two of them. -/
theorem meet_exact_iff (p q : Progression) : ∃ t, meet ⟨[p]⟩ ⟨[q]⟩ = .ok t ∧
    (∀ v : Word, p.includes v = true → q.includes v = true → t.includes v = true) ∧
    (∀ v : Word, t.includes v = true → ∃ a b : Word,
      (p.includes a = true ∧ q.includes a = true) ∧ (p.includes b = true ∧ q.includes b = true) ∧
        a ≤ v ∧ v ≤ b) ∧
    ((∀ v : Word, t.includes v = true ↔ p.includes v = true ∧ q.includes v = true) ↔
      p.period q < 0x8000000000000000 ∨ ∀ v w : Word,
        p.includes v = true ∧ q.includes v = true → p.includes w = true ∧ q.includes w = true →
          v = w) := by
  refine ⟨_, meet_progressions p q, ?_⟩
  simp only [includes_iff, mem_toList, Progression.includes_iff]
  by_cases hexact : p.period q < 0x8000000000000000 ∨ ∀ v w : Word,
      v.toInt ∈ p ∧ v.toInt ∈ q → w.toInt ∈ p ∧ w.toInt ∈ q → v = w
  · simp only [Progression.mem_meet? hexact]
    refine ⟨fun v hp hq => ⟨hp, hq⟩, fun v hv => ?_, fun _ => hexact, fun _ _ => trivial⟩
    exact ⟨v, v, hv, hv, Int64.le_refl v, Int64.le_refl v⟩
  · have hlong : 0x8000000000000000 ≤ p.period q := Nat.not_lt.1 fun hlt => hexact (.inl hlt)
    obtain ⟨v, w, hv, hw, hvw⟩ : ∃ v w : Word, (v.toInt ∈ p ∧ v.toInt ∈ q) ∧
        (w.toInt ∈ p ∧ w.toInt ∈ q) ∧ v.toInt < w.toInt := by
      by_contra hnone
      refine hexact (.inr fun v w hv hw => Word.eq_of_toInt_eq ?_)
      have h₁ : ¬ v.toInt < w.toInt := fun hlt => hnone ⟨v, w, hv, hw, hlt⟩
      have h₂ : ¬ w.toInt < v.toInt := fun hlt => hnone ⟨w, v, hw, hv, hlt⟩
      omega
    obtain ⟨hperiod, htwo, hmem⟩ := Progression.mem_meet?_of_long hlong hv hw hvw
    simp only [hmem]
    refine ⟨fun x hp hq => ?_, fun x hx => ?_, fun hall => ?_, fun hex => (hexact hex).elim⟩
    · have := htwo x.toInt ⟨hp, hq⟩
      omega
    · exact ⟨v, w, hv, hw, Int64.le_iff_toInt_le.2 hx.1, Int64.le_iff_toInt_le.2 hx.2⟩
    · -- the word after the lower one is not common
      obtain ⟨u, hu⟩ : ∃ u : Word, u.toInt = v.toInt + 1 := by
        have h₁ := Word.inRange_toInt v
        have h₂ := Word.inRange_toInt w
        unfold Word.InRange at h₁ h₂
        exact ⟨.ofInt (v.toInt + 1), Word.toInt_ofInt ⟨by omega, by omega⟩⟩
      have := htwo u.toInt ((hall u).1 ⟨by omega, by omega⟩)
      omega

/-- Between the two common values of these progressions, the range of common
    values has all words. -/
theorem meet_longPeriod :
    let p := Progression.new Int64.minValue 4611686018427387904 6917529027641081856
    let q := Progression.new Int64.minValue 4611686018427387904 4611686018427387904
    ∃ t, meet ⟨[p]⟩ ⟨[q]⟩ = .ok t ∧ t.includes 0 = true ∧ p.includes 0 = false := by
  intro p q
  have ht : p.meet? q = some (.new Int64.minValue 4611686018427387904 1) := by decide +kernel
  have hmeet := meet_progressions p q
  rw [ht] at hmeet
  exact ⟨_, hmeet, by decide, by decide⟩

end Range

end InputSolver
