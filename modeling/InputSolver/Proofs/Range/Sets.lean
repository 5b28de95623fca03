/-
  InputSolver — reading and cutting ranges.

  * `of_within`, `of_isNonnegative`, `multiplesOf_of_bounded`: what the tests on
    a range say about each of its values;
  * `meets_of_mem`: ranges with a value in common meet;
  * `withoutZero_of_bounded`, `mem_signParts`: cutting a range at zero neither
    loses nor adds a value;
  * `mem_signHulls`: the hulls below, at and above zero have all values.
-/
import InputSolver.Proofs.Progression.Meet
import InputSolver.Proofs.Range.Members
import InputSolver.Range.Sets

namespace InputSolver.Range

/-! ## Bounds -/

theorem min?_le {r : Range} {lo : Word} (h : r.min? = some lo) {x : Int} (hx : x ∈ r) :
    lo.toInt ≤ x := by
  obtain ⟨p, hp, hx⟩ := hx
  have hle := (List.min?_eq_some_iff.1 h).2 p.min (List.mem_map.2 ⟨p, hp, rfl⟩)
  exact (Int64.le_iff_toInt_le.1 hle).trans hx.1

theorem le_max? {r : Range} {hi : Word} (h : r.max? = some hi) {x : Int} (hx : x ∈ r) :
    x ≤ hi.toInt := by
  obtain ⟨p, hp, hx⟩ := hx
  have hle := (List.max?_eq_some_iff.1 h).2 p.max (List.mem_map.2 ⟨p, hp, rfl⟩)
  exact hx.2.1.trans (Int64.le_iff_toInt_le.1 hle)

theorem exists_min? {r : Range} {x : Int} (hx : x ∈ r) : ∃ lo, r.min? = some lo := by
  obtain ⟨p, hp, -⟩ := hx
  exact Option.isSome_iff_exists.1 (List.isSome_min?_of_mem (List.mem_map.2 ⟨p, hp, rfl⟩))

theorem exists_max? {r : Range} {x : Int} (hx : x ∈ r) : ∃ hi, r.max? = some hi := by
  obtain ⟨p, hp, -⟩ := hx
  exact Option.isSome_iff_exists.1 (List.isSome_max?_of_mem (List.mem_map.2 ⟨p, hp, rfl⟩))

theorem of_within {r : Range} {lo hi : Word} (h : r.within lo hi = true) {x : Int} (hx : x ∈ r) :
    lo.toInt ≤ x ∧ x ≤ hi.toInt := by
  obtain ⟨a, ha⟩ := exists_min? hx
  obtain ⟨b, hb⟩ := exists_max? hx
  simp only [within, ha, hb, Bool.and_eq_true, decide_eq_true_eq, Int64.le_iff_toInt_le] at h
  exact ⟨h.1.trans (min?_le ha hx), (le_max? hb hx).trans h.2⟩

theorem within_of_bounded {M : Nat} {r : Range} (hr : r.Bounded M) {lo hi : Word}
    (hlo : lo.toInt ≤ -M) (hhi : M ≤ hi.toInt) : r.within lo hi = true := by
  unfold within
  split
  · rename_i a b ha hb
    obtain ⟨p, hp, rfl⟩ := List.mem_map.1 (List.min?_eq_some_iff.1 ha).1
    obtain ⟨q, hq, rfl⟩ := List.mem_map.1 (List.max?_eq_some_iff.1 hb).1
    have hp := (hr p hp).1
    have hq := (hr q hq).2
    simp only [Bool.and_eq_true, decide_eq_true_eq, Int64.le_iff_toInt_le]
    omega
  · rfl

theorem of_isNonnegative {r : Range} (h : r.isNonnegative = true) {x : Int} (hx : x ∈ r) :
    0 ≤ x := by
  obtain ⟨a, ha⟩ := exists_min? hx
  simp only [isNonnegative, ha, Option.all_some, decide_eq_true_eq, Int64.le_iff_toInt_le] at h
  exact h.trans (min?_le ha hx)

theorem of_isNonpositive {r : Range} (h : r.isNonpositive = true) {x : Int} (hx : x ∈ r) :
    x ≤ 0 := by
  obtain ⟨b, hb⟩ := exists_max? hx
  simp only [isNonpositive, hb, Option.all_some, decide_eq_true_eq, Int64.le_iff_toInt_le] at h
  exact (le_max? hb hx).trans h

/-! ## Multiples -/

theorem Progression.multiplesOf_of_ne {p : Progression} (hp : p.min ≠ Int64.minValue) (d : Word) :
    ∃ b, p.multiplesOf d = .ok b ∧ (b = true → ∀ x ∈ p, d.toInt ∣ x) := by
  unfold Progression.multiplesOf
  simp only [Word.exactRem_of_ne hp, bind, Except.bind, pure, Except.pure]
  split
  · exact ⟨false, rfl, by simp⟩
  · split
    · exact ⟨false, rfl, by simp⟩
    · rename_i hmin
      refine ⟨_, rfl, fun hb x hx => ?_⟩
      have hmin : d.toInt ∣ p.min.toInt := by
        refine Int.dvd_of_tmod_eq_zero ?_
        rw [← Int64.toInt_mod, Decidable.not_not.1 hmin]
        rfl
      have hstride : d.toInt ∣ p.stride.toInt := by
        refine Int.dvd_of_tmod_eq_zero ?_
        rw [← Int64.toInt_mod, eq_of_beq hb]
        rfl
      have : x = (x - p.min.toInt) + p.min.toInt := by omega
      rw [this]
      exact Int.dvd_add (Int.dvd_trans hstride (Progression.stride_dvd hx)) hmin

theorem multiplesOf_of_bounded {M : Nat} (hM : M < 0x8000000000000000) {r : Range}
    (hr : r.Bounded M) (d : Word) :
    ∃ b, r.multiplesOf d = .ok b ∧ (b = true → ∀ x : Int, x ∈ r → d.toInt ∣ x) := by
  obtain ⟨ps⟩ := r
  change ∃ b, ps.allM (·.multiplesOf d) = .ok b ∧ _
  induction ps with
  | nil => exact ⟨true, rfl, fun _ x hx => absurd hx (not_mem_empty x)⟩
  | cons p ps ih =>
    have hp := (hr p List.mem_cons_self).1
    obtain ⟨b, hb, hbx⟩ := Progression.multiplesOf_of_ne (Word.ne_minValue (by omega)) d
      (p := p)
    obtain ⟨c, hc, hcx⟩ := ih fun q hq => hr q (List.mem_cons_of_mem _ hq)
    rw [List.allM, hb]
    cases b with
    | false => exact ⟨false, rfl, by simp⟩
    | true =>
      refine ⟨c, hc, fun hct x hx => ?_⟩
      obtain ⟨q, hq, hx⟩ := hx
      rcases List.mem_cons.1 hq with rfl | hq
      · exact hbx rfl x hx
      · exact hcx hct x ⟨q, hq, hx⟩

/-! ## Common values -/

/-- Ranges with a value in common meet. -/
theorem meets_of_mem {r s : Range} {x : Int} (hr : x ∈ r) (hs : x ∈ s) : r.meets s = true := by
  obtain ⟨rlo, hrlo⟩ := exists_min? hr
  obtain ⟨rhi, hrhi⟩ := exists_max? hr
  obtain ⟨slo, hslo⟩ := exists_min? hs
  obtain ⟨shi, hshi⟩ := exists_max? hs
  have h₁ := min?_le hrlo hr
  have h₂ := le_max? hrhi hr
  have h₃ := min?_le hslo hs
  have h₄ := le_max? hshi hs
  obtain ⟨p, hp, hxp⟩ := hr
  obtain ⟨q, hq, hxq⟩ := hs
  simp only [meets, boundsOverlap, hrlo, hrhi, hslo, hshi, Bool.and_eq_true, decide_eq_true_eq,
    Int64.le_iff_toInt_le, List.any_eq_true]
  exact ⟨⟨by omega, by omega⟩, p, hp, q, hq, Progression.meet?_isSome hxp hxq⟩

/-! ## Cutting at zero -/

theorem mem_signParts_negative {r : Range} {x : Int} :
    Covers r.signParts.negative x ↔ x ∈ r ∧ x < 0 := by
  simp only [Covers, signParts, List.mem_flatMap, mem_def]
  constructor
  · rintro ⟨q, ⟨p, hp, hq⟩, hx⟩
    obtain ⟨hxp, hneg⟩ := Progression.mem_splitSign_negative.1 ⟨q, hq, hx⟩
    exact ⟨⟨p, hp, hxp⟩, hneg⟩
  · rintro ⟨⟨p, hp, hx⟩, hneg⟩
    obtain ⟨q, hq, hxq⟩ := Progression.mem_splitSign_negative.2 ⟨hx, hneg⟩
    exact ⟨q, ⟨p, hp, hq⟩, hxq⟩

theorem mem_signParts_positive {r : Range} {x : Int} :
    Covers r.signParts.positive x ↔ x ∈ r ∧ 0 < x := by
  simp only [Covers, signParts, List.mem_flatMap, mem_def]
  constructor
  · rintro ⟨q, ⟨p, hp, hq⟩, hx⟩
    obtain ⟨hxp, hpos⟩ := Progression.mem_splitSign_positive.1 ⟨q, hq, hx⟩
    exact ⟨⟨p, hp, hxp⟩, hpos⟩
  · rintro ⟨⟨p, hp, hx⟩, hpos⟩
    obtain ⟨q, hq, hxq⟩ := Progression.mem_splitSign_positive.2 ⟨hx, hpos⟩
    exact ⟨q, ⟨p, hp, hq⟩, hxq⟩

theorem signParts_hasZero {r : Range} : r.signParts.hasZero = true ↔ (0 : Int) ∈ r := by
  simp only [signParts, List.any_eq_true, Progression.splitSign_hasZero, mem_def]

theorem bounded_signParts {M : Nat} {r : Range} (hr : r.Bounded M) {q : Progression}
    (hq : q ∈ r.signParts.negative ∨ q ∈ r.signParts.positive) : q.Bounded M := by
  simp only [signParts, List.mem_flatMap] at hq
  rcases hq with ⟨p, hp, hq⟩ | ⟨p, hp, hq⟩
  · exact Progression.bounded_of_mem_splitSign (hr p hp) (.inl hq)
  · exact Progression.bounded_of_mem_splitSign (hr p hp) (.inr hq)

theorem max_neg_of_mem_signParts {r : Range} {q : Progression} (hq : q ∈ r.signParts.negative) :
    q.max.toInt < 0 := (mem_signParts_negative.1 ⟨q, hq, q.max_mem⟩).2

theorem min_pos_of_mem_signParts {r : Range} {q : Progression} (hq : q ∈ r.signParts.positive) :
    0 < q.min.toInt := (mem_signParts_positive.1 ⟨q, hq, q.min_mem⟩).2

theorem covers_splitSign {r : Range} {x : Int} :
    Covers (r.members.flatMap fun p => p.splitSign.negative ++ p.splitSign.positive) x ↔
      x ∈ r ∧ x ≠ 0 := by
  have hne : x ≠ 0 ↔ x < 0 ∨ 0 < x := by omega
  rw [hne, and_or_left, ← mem_signParts_negative, ← mem_signParts_positive]
  simp only [Covers, signParts, List.mem_flatMap, List.mem_append]
  constructor
  · rintro ⟨q, ⟨p, hp, hq | hq⟩, hx⟩
    · exact .inl ⟨q, ⟨p, hp, hq⟩, hx⟩
    · exact .inr ⟨q, ⟨p, hp, hq⟩, hx⟩
  · rintro (⟨q, ⟨p, hp, hq⟩, hx⟩ | ⟨q, ⟨p, hp, hq⟩, hx⟩)
    · exact ⟨q, ⟨p, hp, .inl hq⟩, hx⟩
    · exact ⟨q, ⟨p, hp, .inr hq⟩, hx⟩

theorem withoutZero_singleton (q : Progression) : (⟨[q]⟩ : Range).withoutZero =
    ofProgressions (q.splitSign.negative ++ q.splitSign.positive) := by
  rw [withoutZero, List.flatMap_cons, List.flatMap_nil, List.append_nil]

theorem withoutZero_of_bounded {M : Nat} (hM : M < Word.halfBound) {r : Range}
    (hr : r.Bounded M) :
    ∃ s, r.withoutZero = .ok s ∧ s.Bounded M ∧ ∀ x : Int, x ∈ s ↔ x ∈ r ∧ x ≠ 0 := by
  have hparts : ∀ q ∈ r.members.flatMap fun p => p.splitSign.negative ++ p.splitSign.positive,
      q.Bounded M := by
    intro q hq
    obtain ⟨p, hp, hq⟩ := List.mem_flatMap.1 hq
    exact Progression.bounded_of_mem_splitSign (hr p hp) (List.mem_append.1 hq)
  obtain ⟨s, hs, hb, hx⟩ := ofProgressions_of_bounded hM hparts
  exact ⟨s, hs, hb, fun x => (hx x).trans covers_splitSign⟩

/-! ## Hulls -/

/-- The hull of some progressions, if there are any, has all their values. -/
theorem hull?_toList_of_bounded {M : Nat} (hM : M < Word.halfBound) {ps : List Progression}
    (hps : ∀ q ∈ ps, q.Bounded M) :
    (∀ q ∈ (Progression.hull? ps).toList, q.Bounded M) ∧
      ∀ x, Covers ps x → Covers (Progression.hull? ps).toList x := by
  cases ps with
  | nil =>
    exact ⟨fun q hq => absurd hq List.not_mem_nil,
      fun x ⟨_, hq, _⟩ => absurd hq List.not_mem_nil⟩
  | cons p ps =>
    obtain ⟨h, hh, hb, hx⟩ := Progression.hull?_of_bounded hM hps
    rw [hh]
    refine ⟨fun q hq => ?_, fun x ⟨q, hq, hxq⟩ => ⟨h, List.mem_singleton.2 rfl, hx q hq x hxq⟩⟩
    obtain rfl := List.mem_singleton.1 hq
    exact hb

/-- The hulls below, at and above zero have all values. -/
theorem mem_signHulls {M : Nat} (hM : M < Word.halfBound) {r : Range} (hr : r.Bounded M) :
    (∀ q ∈ r.signHulls, q.Bounded M) ∧ ∀ x : Int, x ∈ r → Covers r.signHulls x := by
  have hnegative : ∀ q ∈ r.signParts.negative, q.Bounded M :=
    fun q hq => bounded_signParts hr (.inl hq)
  have hpositive : ∀ q ∈ r.signParts.positive, q.Bounded M :=
    fun q hq => bounded_signParts hr (.inr hq)
  obtain ⟨hn, hnx⟩ := hull?_toList_of_bounded hM hnegative
  obtain ⟨hp, hpx⟩ := hull?_toList_of_bounded hM hpositive
  unfold signHulls
  constructor
  · intro q hq
    rcases List.mem_append.1 hq with hq | hq
    · rcases List.mem_append.1 hq with hq | hq
      · exact hn q hq
      · split at hq
        · obtain rfl := List.mem_singleton.1 hq
          exact Progression.bounded_single (Nat.zero_le _)
        · exact absurd hq List.not_mem_nil
    · exact hp q hq
  · intro x hx
    rw [covers_append, covers_append]
    rcases Int.lt_trichotomy x 0 with hlt | rfl | hgt
    · exact .inl (.inl (hnx x (mem_signParts_negative.2 ⟨hx, hlt⟩)))
    · refine .inl (.inr ?_)
      rw [if_pos (signParts_hasZero.2 hx)]
      exact ⟨_, List.mem_singleton.2 rfl, Progression.mem_single.2 rfl⟩
    · exact .inr (hpx x (mem_signParts_positive.2 ⟨hx, hgt⟩))

end InputSolver.Range
