/-
  InputSolver — remainders at the ends of the word range.

  The lowest word has no opposite, and the magnitude `2^63` is no word.  So the
  search for bounds does not cover all words:

  * `remainder_words`: the range of remainders by one progression exists and
    has every remainder, apart from three kinds of operands;
  * `withoutZero_straddling`: divisors that are zero and two opposite words far
    apart fault when zero is taken out;
  * `remainder_lowest`: the lowest word among the dividends faults when its
    opposite is taken;
  * `remainder_extremes`: the highest word is lost as a remainder by the lowest
    one.
-/
import InputSolver.Proofs.Range.Exact
import InputSolver.Proofs.Range.Remainder

namespace InputSolver

/-! ## Divisors without zero -/

namespace Progression

/-- The values are zero and two opposite words whose difference is not a
    word. -/
def Straddles (q : Progression) : Prop :=
  q.min.toInt = -q.step.toInt ∧ q.max.toInt = q.step.toInt ∧ 0x4000000000000000 ≤ q.step.toInt

instance (q : Progression) : Decidable q.Straddles :=
  inferInstanceAs (Decidable (_ ∧ _))

/-- The two parts of a progression are near enough to be joined. -/
theorem near_splitSign {q n p : Progression} (hq : ¬ q.Straddles)
    (hn : q.splitSign.negative = [n]) (hp : q.splitSign.positive = [p]) : Near n p := by
  intro hns hps
  have hnegative {x : Int} : x ∈ q ∧ x < 0 ↔ x = n.min.toInt := by
    rw [← mem_splitSign_negative, hn, ← mem_iff_of_isSingle hns]
    simp
  have hpositive {x : Int} : x ∈ q ∧ 0 < x ↔ x = p.min.toInt := by
    rw [← mem_splitSign_positive, hp, ← mem_iff_of_isSingle hps]
    simp
  obtain ⟨hv, hv0⟩ := hnegative.2 rfl
  obtain ⟨hw, hw0⟩ := hpositive.2 rfl
  have hvle := hv.1
  have hwle := hw.2.1
  have hmin : q.min.toInt = n.min.toInt := hnegative.1 ⟨q.min_mem, by omega⟩
  have hmax : q.max.toInt = p.min.toInt := hpositive.1 ⟨q.max_mem, by omega⟩
  have hpos := q.toInt_step_pos
  have hsingle : ¬ q.isSingle = true := fun hs => by have := isSingle_iff.1 hs; omega
  have hstep := step_le_of_not_isSingle hsingle
  have hlt := q.step.toInt_lt
  -- the second value decides whether zero is among the values
  have hsecond := second_mem hsingle
  rcases Int.lt_trichotomy (q.min.toInt + q.step.toInt) 0 with hlt0 | h0 | hgt
  · exact absurd (hnegative.1 ⟨hsecond, hlt0⟩) (by omega)
  · have hthird : q.step.toInt ∈ q := by
      have hdvd : q.step.toInt ∣ q.step.toInt - q.min.toInt :=
        ⟨2, by omega⟩
      have hreach : q.step.toInt ∣ q.max.toInt := by
        have hsum : q.max.toInt = (q.max.toInt - q.min.toInt) + -q.step.toInt := by omega
        rw [hsum]
        exact Int.dvd_add q.step_dvd (Int.dvd_neg.2 (Int.dvd_refl _))
      exact ⟨by omega, Int.le_of_dvd (by omega) hreach, hdvd⟩
    have hthird := hpositive.1 ⟨hthird, hpos⟩
    have : q.step.toInt < 0x4000000000000000 := by
      by_contra hlarge
      exact hq ⟨by omega, by omega, by omega⟩
    omega
  · have := hpositive.1 ⟨hsecond, hgt⟩
    omega

theorem negative_cases (q : Progression) :
    q.splitSign.negative = [] ∨ ∃ n, q.splitSign.negative = [n] := by
  cases h : q.lastTo (-1) <;> simp [splitSign, h]

theorem positive_cases (q : Progression) :
    q.splitSign.positive = [] ∨ ∃ p, q.splitSign.positive = [p] := by
  cases h : q.firstFrom 1 <;> simp [splitSign, h]

/-- A progression below zero comes before one above. -/
theorem boundsLE_of_lt {n p : Progression} (h : n.min.toInt < p.min.toInt) :
    n.boundsLE p = true := boundsLE_iff.2 (.inl h)

/-- Two single values too far apart have no common stride. -/
theorem union?_of_far {n p : Progression} (hn : n.isSingle = true) (hp : p.isSingle = true)
    (h : n.min.toInt + 0x8000000000000000 ≤ p.min.toInt) : n.union? p = .error .overflow := by
  have hns := isSingle_iff.1 hn
  have hps := isSingle_iff.1 hp
  have hnp : ¬ n.contains p = true := by
    intro hc
    have := ((mem_of_contains hc) p.min_mem).2.1
    omega
  have hpn : ¬ p.contains n = true := by
    intro hc
    have := ((mem_of_contains hc) n.min_mem).1
    omega
  have hdiff : Word.exactSub p.min n.min = .error .overflow := by
    unfold Word.exactSub Word.exact
    rw [if_neg]
    unfold Word.InRange
    omega
  unfold union?
  simp only [if_pos (boundsLE_of_lt (show n.min.toInt < p.min.toInt by omega)), if_neg hnp,
    if_neg hpn, join?, commonStride?, hn, hp, hdiff]
  rfl

end Progression

namespace Range

/-- What is left after joining are the members of the range. -/
theorem ofProgressions_eq {ps ms : List Progression}
    (h : (ps.mergeSort Progression.boundsLE).foldlM absorb [] = .ok ms) :
    ∃ r, ofProgressions ps = .ok r ∧ ∀ x : Int, x ∈ r ↔ Covers ms x := by
  refine ⟨_, by rw [ofProgressions, h]; rfl, fun x => ?_⟩
  simp only [mem_def, Covers, List.mem_mergeSort, List.mem_reverse]

theorem ofProgressions_pair {n p : Progression} (hle : n.boundsLE p = true)
    (hnear : Progression.Near n p) :
    ∃ r, ofProgressions [n, p] = .ok r ∧ ∀ x : Int, x ∈ r ↔ x ∈ n ∨ x ∈ p := by
  obtain ⟨u?, hu?, hu⟩ := Progression.union?_of_near hnear
  have hfold := foldlM_absorb_pair hle
  rw [hu?] at hfold
  obtain ⟨r, hr, hx⟩ := ofProgressions_eq hfold
  refine ⟨r, hr, fun x => ?_⟩
  rw [hx]
  cases u? with
  | none => simp [Covers, or_comm]
  | some u => simpa [Covers] using hu u rfl x

theorem not_straddles_withoutZero {q : Progression} (hq : ¬ q.Straddles) :
    ∃ divisors, (⟨[q]⟩ : Range).withoutZero = .ok divisors ∧
      ∀ y : Int, y ∈ divisors ↔ y ∈ (⟨[q]⟩ : Range) ∧ y ≠ 0 := by
  have hcovers {y : Int} : Covers (q.splitSign.negative ++ q.splitSign.positive) y ↔
      y ∈ (⟨[q]⟩ : Range) ∧ y ≠ 0 := by
    rw [← covers_splitSign, List.flatMap_cons, List.flatMap_nil, List.append_nil]
  simp only [withoutZero_singleton, ← hcovers]
  rcases q.negative_cases with hn | ⟨n, hn⟩ <;> rcases q.positive_cases with hp | ⟨p, hp⟩ <;>
    rw [hn, hp]
  · exact ofProgressions_eq (by rw [List.append_nil, List.mergeSort_nil]; rfl)
  · exact ⟨_, ofProgressions_singleton p, fun y => Iff.rfl⟩
  · exact ⟨_, ofProgressions_singleton n, fun y => Iff.rfl⟩
  · have hlt : n.min.toInt < p.min.toInt := by
      have h₁ := (Progression.mem_splitSign_negative.1 ⟨n, by rw [hn]; simp, n.min_mem⟩).2
      have h₂ := (Progression.mem_splitSign_positive.1 ⟨p, by rw [hp]; simp, p.min_mem⟩).2
      omega
    obtain ⟨r, hr, hx⟩ := ofProgressions_pair (Progression.boundsLE_of_lt hlt)
      (Progression.near_splitSign hq hn hp)
    exact ⟨r, hr, fun y => (hx y).trans (by simp [Covers])⟩

/-- Taking zero out from between two words too far apart faults. -/
theorem withoutZero_straddling {q : Progression} (hq : q.Straddles) :
    (⟨[q]⟩ : Range).withoutZero = .error .overflow := by
  obtain ⟨hmin, hmax, hstep⟩ := hq
  -- the values are `-step`, zero and `step`
  have hvalue {x : Int} (hx : x ∈ q) : x = -q.step.toInt ∨ x = 0 ∨ x = q.step.toInt := by
    obtain ⟨k, rfl⟩ := Progression.exists_steps_of_mem hx
    have hle := hx.2.1
    have : k ≤ 2 := Int.ofNat_le.1 <|
      (Int.mul_le_mul_right (show 0 < q.step.toInt by omega)).1 (by omega)
    obtain rfl | rfl | rfl : k = 0 ∨ k = 1 ∨ k = 2 := by omega
    · omega
    · omega
    · omega
  have hlow : (∃ n ∈ q.splitSign.negative, -q.step.toInt ∈ n) :=
    Progression.mem_splitSign_negative.2 ⟨hmin ▸ q.min_mem, by omega⟩
  have hhigh : (∃ p ∈ q.splitSign.positive, q.step.toInt ∈ p) :=
    Progression.mem_splitSign_positive.2 ⟨hmax ▸ q.max_mem, by omega⟩
  rcases q.negative_cases with hn | ⟨n, hn⟩
  · rw [hn] at hlow
    exact absurd hlow (by simp)
  · rcases q.positive_cases with hp | ⟨p, hp⟩
    · rw [hp] at hhigh
      exact absurd hhigh (by simp)
    · have hnegative {x : Int} (hx : x ∈ n) : x = -q.step.toInt := by
        obtain ⟨hxq, hlt⟩ := Progression.mem_splitSign_negative.1 ⟨n, by rw [hn]; simp, hx⟩
        have := hvalue hxq
        omega
      have hpositive {x : Int} (hx : x ∈ p) : x = q.step.toInt := by
        obtain ⟨hxq, hlt⟩ := Progression.mem_splitSign_positive.1 ⟨p, by rw [hp]; simp, hx⟩
        have := hvalue hxq
        omega
      have hnmin := hnegative n.min_mem
      have hpmin := hpositive p.min_mem
      have hfar := Progression.union?_of_far
        (Progression.isSingle_iff.2 (hnmin.trans (hnegative n.max_mem).symm))
        (Progression.isSingle_iff.2 (hpmin.trans (hpositive p.max_mem).symm)) (by omega)
      rw [withoutZero_singleton, hn, hp, List.singleton_append, ofProgressions,
        foldlM_absorb_pair (Progression.boundsLE_of_lt (by omega)), hfar]
      rfl

/-! ## Remainders -/

/-- The operands for which no remainder is lost: there is nothing to search
    for, or no dividend is the lowest word, and neither the highest word nor its
    opposite is one if the lowest is a divisor. -/
def Searchable (r divisors : Range) : Prop :=
  divisors.isEmpty = true ∨ (r.singleValue?.isSome = true ∧ divisors.singleValue?.isSome = true) ∨
    probeBudget < divisors.size ∨
    (r.includes Int64.minValue = false ∧ (divisors.includes Int64.minValue = false ∨
      r.includes Int64.maxValue = false ∧ r.includes (-Int64.maxValue) = false))

/-- Without the lowest word the magnitudes are those of words. -/
theorem exists_bounded (r : Range) :
    ∃ M, r.Bounded M ∧ (r.includes Int64.minValue = false → M < 0x8000000000000000) := by
  by_cases hlow : r.includes Int64.minValue = true
  · exact ⟨0x8000000000000000, fun p _ => ⟨Word.natAbs_toInt_le _, Word.natAbs_toInt_le _⟩,
      by simp [hlow]⟩
  · have hne {v : Word} (hv : v.toInt ∈ r) : v ≠ Int64.minValue := by
      rintro rfl
      exact hlow (includes_iff.2 hv)
    exact ⟨0x7fffffffffffffff, fun p hp => ⟨Word.natAbs_le_of_ne_minValue (hne ⟨p, hp, p.min_mem⟩),
      Word.natAbs_le_of_ne_minValue (hne ⟨p, hp, p.max_mem⟩)⟩, fun _ => by omega⟩

instance (r divisors : Range) : Decidable (Searchable r divisors) :=
  inferInstanceAs (Decidable (_ ∨ _))

/-- The range of remainders by one progression. -/
theorem remainder_words {r : Range} {q : Progression} (hq : ¬ q.Straddles) :
    ∃ divisors, (⟨[q]⟩ : Range).withoutZero = .ok divisors ∧
      (∀ b : Word, divisors.includes b = true ↔ q.includes b = true ∧ b ≠ 0) ∧
      (Searchable r divisors → ∃ t, r.remainder ⟨[q]⟩ = .ok t ∧
        ∀ a b : Word, r.includes a = true → q.includes b = true → b ≠ 0 →
          t.includes (a % b) = true) := by
  obtain ⟨divisors, hd, hdx⟩ := not_straddles_withoutZero hq
  have hincludes {b : Word} : q.includes b = true ↔ b.toInt ∈ (⟨[q]⟩ : Range) := by
    rw [Progression.includes_iff, mem_def]
    simp
  refine ⟨divisors, hd, fun b => ?_, fun hsearch => ?_⟩
  · rw [includes_iff, hdx, hincludes, Word.ne_zero_iff]
  · obtain ⟨M, hr, hM⟩ := exists_bounded r
    obtain ⟨t, ht, -, hx⟩ := mem_remainder hd hdx hr fun hnonempty hseveral hsize => by
      rcases hsearch with hempty | ⟨ha, hb⟩ | hmany | ⟨hlow, hrest⟩
      · exact absurd hempty hnonempty
      · obtain ⟨a, ha⟩ := Option.isSome_iff_exists.1 ha
        obtain ⟨b, hb⟩ := Option.isSome_iff_exists.1 hb
        exact (hseveral a b ha hb).elim
      · exact absurd hsize (Nat.not_le.2 hmany)
      · refine ⟨hM hlow, fun x y hxr hyd => ?_⟩
        obtain ⟨u, rfl⟩ := exists_word_of_mem hxr
        obtain ⟨v, rfl⟩ := exists_word_of_mem hyd
        rw [← includes_iff] at hxr hyd
        by_cases hv : v = Int64.minValue
        · subst hv
          obtain ⟨hhigh, hopposite⟩ := hrest.resolve_left (by simp [hyd])
          have hu (w : Word) (hw : r.includes w = false) : u ≠ w := by
            rintro rfl
            simp [hxr] at hw
          have h₁ := Word.toInt_ne (hu _ hlow)
          have h₂ := Word.toInt_ne (hu _ hhigh)
          have h₃ := Word.toInt_ne (hu _ hopposite)
          have hrange := Word.inRange_toInt u
          unfold Word.InRange at hrange
          rw [show Int64.minValue.toInt = -0x8000000000000000 from rfl] at h₁
          rw [show Int64.maxValue.toInt = 0x7fffffffffffffff from rfl] at h₂
          rw [show (-Int64.maxValue).toInt = -0x7fffffffffffffff from rfl] at h₃
          exact .inr (by omega)
        · exact .inl (by have := Word.natAbs_le_of_ne_minValue hv; omega)
    refine ⟨t, ht, fun a b ha hb hb0 => ?_⟩
    rw [includes_iff, Int64.toInt_mod]
    exact hx _ _ (includes_iff.1 ha) (hincludes.1 hb) (Word.ne_zero_iff.1 hb0)

/-- All words but the lowest by the digits. -/
theorem remainder_words_digits :
    let r : Range := .progression (-Int64.maxValue) Int64.maxValue 1
    let q : Progression := .new 1 9 1
    ¬ q.Straddles ∧ Searchable r ⟨[q]⟩ ∧ ∃ t, r.remainder ⟨[q]⟩ = .ok t ∧
      ∀ a b : Word, r.includes a = true → q.includes b = true → b ≠ 0 →
        t.includes (a % b) = true := by
  intro r q
  have hq : ¬ q.Straddles := by decide
  have hsearch : Searchable r ⟨[q]⟩ := by decide
  obtain ⟨divisors, hd, -, hremainder⟩ := remainder_words (r := r) hq
  obtain rfl : ⟨[q]⟩ = divisors := Except.ok.inj ((ofProgressions_singleton q).symm.trans hd)
  exact ⟨hq, hsearch, hremainder hsearch⟩

/-! ## The lowest word as a dividend -/

/-- The lowest word has no opposite. -/
theorem negated_lowest {n : Progression} (hmin : n.min = Int64.minValue) :
    n.negated = .error .overflow := by
  have hlow : Word.exact (-n.min.toInt) = .error .overflow := by
    rw [hmin]
    rfl
  unfold Progression.negated Word.exactNeg
  rw [hlow]
  unfold Word.exact
  split <;> rfl

theorem exists_outerBounds {parts : Progression.SignParts} {n : Progression}
    {ns : List Progression} (h : parts.negative = n :: ns) (magnitude : Word) :
    ∃ outer, outerBounds parts magnitude = some outer := by
  unfold outerBounds
  simp only [h, List.map_cons, List.min?_cons', Option.map_some]
  split
  · exact ⟨_, rfl⟩
  · split <;> exact ⟨_, rfl⟩

/-- Well-formed dividends with the lowest word among them have it at the front
    of their negative parts. -/
theorem negative_of_lowest {r : Range} (hr : r.WellFormed)
    (hlow : r.includes Int64.minValue = true) :
    ∃ n ns, r.signParts.negative = n :: ns ∧ n.min = Int64.minValue ∧ n.max < 0 := by
  have hleast {p : Progression} (h : p.min.toInt ≤ Int64.minValue.toInt) :
      p.min = Int64.minValue :=
    Word.eq_of_toInt_eq (Int.le_antisymm h p.min.le_toInt)
  obtain ⟨ps⟩ := r
  obtain ⟨q, hq, hmem⟩ := includes_iff.1 hlow
  cases ps with
  | nil => exact absurd hq List.not_mem_nil
  | cons p ps =>
    have hp : p.min = Int64.minValue := by
      rcases List.mem_cons.1 hq with rfl | hq
      · exact hleast hmem.1
      · have hpq := (List.pairwise_cons.1 hr).1 q hq
        exact hleast ((Progression.toInt_min_le_of_boundsLE hpq).trans hmem.1)
    have hpart : ∃ n ∈ p.splitSign.negative, Int64.minValue.toInt ∈ n :=
      Progression.mem_splitSign_negative.2 ⟨hp ▸ p.min_mem, by decide⟩
    rcases p.negative_cases with hn | ⟨n, hn⟩
    · rw [hn] at hpart
      exact absurd hpart (by simp)
    · rw [hn] at hpart
      obtain ⟨_, hmem', hlowest⟩ := hpart
      obtain rfl := List.mem_singleton.1 hmem'
      refine ⟨_, ps.flatMap (·.splitSign.negative), ?_, hleast hlowest.1, ?_⟩
      · simp [signParts, hn]
      · exact Int64.lt_iff_toInt_lt.2
          (Progression.mem_splitSign_negative.1 ⟨_, by rw [hn]; simp, Progression.max_mem _⟩).2

/-- Well-formed dividends with the lowest word among them fault as soon as
    there is something to search for. -/
theorem remainder_lowest {r s divisors : Range} (hr : r.WellFormed)
    (hlow : r.includes Int64.minValue = true) (hd : s.withoutZero = .ok divisors)
    (hnonempty : ¬ divisors.isEmpty = true)
    (hseveral : ∀ a b, r.singleValue? = some a → divisors.singleValue? = some b → False)
    (hsize : divisors.size ≤ probeBudget) : r.remainder s = .error .overflow := by
  obtain ⟨n, ns, hnegative, hmin, hmax⟩ := negative_of_lowest hr hlow
  obtain ⟨y, hy⟩ := exists_mem_of_not_isEmpty hnonempty
  obtain ⟨m, hm, -⟩ := exists_modulus hsize hy
  obtain ⟨modulus, moduli, hmoduli⟩ := List.exists_cons_of_ne_nil (List.ne_nil_of_mem hm)
  have hprobe (outer : Bounds) (parts : List Progression) (s : Probe) :
      probe outer (n :: parts) (modulus :: moduli) s = .error .overflow := by
    rw [probe, probeParts, probePart, if_pos hmax, negated_lowest hmin]
    rfl
  have hempty : ¬ (r.isEmpty || divisors.isEmpty) = true := by
    rw [Bool.or_eq_true, isEmpty_iff, isEmpty_iff]
    exact fun h => h.elim (· _ (includes_iff.1 hlow)) (· y hy)
  obtain ⟨outer, houter⟩ :=
    exists_outerBounds hnegative (Word.clamp (largestMagnitude divisors - 1))
  have hparts : remainderOfParts r.signParts divisors = .error .overflow := by
    unfold remainderOfParts
    simp only [houter, if_neg (Nat.not_lt.2 hsize), hmoduli, hnegative, List.cons_append, hprobe]
    rfl
  unfold remainder
  simp only [hd, bind, Except.bind, if_neg hempty]
  exact hparts

/-- The three kinds of operands that are not searchable. -/
theorem remainder_extremes :
    (single Int64.minValue).remainder (.progression 1 9 1) = .error .overflow ∧
      (single 1).remainder (.progression (-0x4000000000000000) 0x4000000000000000
        0x4000000000000000) = .error .overflow ∧
      ∃ t, (progression 5 Int64.maxValue (Int64.maxValue - 5)).remainder
          (single Int64.minValue) = .ok t ∧
        t.includes (Int64.maxValue % Int64.minValue) = false := by
  refine ⟨?_, ?_, ?_⟩
  · have hseveral : (progression 1 9 1).singleValue? = none := by decide
    exact remainder_lowest (List.pairwise_singleton ..) (by decide)
      (ofProgressions_singleton (.new 1 9 1)) (by decide)
      (fun _ _ _ hb => Option.some_ne_none _ (hb.symm.trans hseveral)) (by decide)
  · have hstraddles : (Progression.new (-0x4000000000000000) 0x4000000000000000
        0x4000000000000000).Straddles := by decide
    rw [remainder, progression, withoutZero_straddling hstraddles]
    rfl
  · have hwithout : (single Int64.minValue).withoutZero = .ok (single Int64.minValue) :=
      ofProgressions_singleton (.single Int64.minValue)
    refine ⟨progression 0 5 1, ?_, by decide⟩
    rw [remainder, hwithout]
    decide +kernel

end Range

end InputSolver
