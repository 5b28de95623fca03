/-
  InputSolver — exact arithmetic of small ranges.

  An operator that knows the results for two progressions without listing them
  knows them exactly (`Operation.Exact`).  So sums, products and quotients of
  ranges have no values but the results, as long as the pairs of values are few
  enough to be listed.

  * `Results` says of a range that it has the results of an operation for two
    ranges; `combine_results` carries it from values to ranges;
  * `sum_product_quotient_results`: the ranges of sums, products and quotients
    have them.
-/
import InputSolver.Proofs.Range.Arithmetic

namespace InputSolver

/-! ## The order of members -/

namespace Progression

theorem boundsLE_iff {p q : Progression} : p.boundsLE q = true ↔
    p.min.toInt < q.min.toInt ∨ p.min.toInt = q.min.toInt ∧ p.max.toInt ≤ q.max.toInt := by
  simp only [boundsLE, Bool.or_eq_true, decide_eq_true_eq, Bool.and_eq_true, beq_iff_eq,
    Int64.lt_iff_toInt_lt, Int64.le_iff_toInt_le, Int64.toInt_inj]

theorem boundsLE_trans {p q u : Progression} (hpq : p.boundsLE q = true)
    (hqu : q.boundsLE u = true) : p.boundsLE u = true := by
  rw [boundsLE_iff] at hpq hqu ⊢
  omega

theorem boundsLE_total (p q : Progression) : (p.boundsLE q || q.boundsLE p) = true := by
  rw [Bool.or_eq_true, boundsLE_iff, boundsLE_iff]
  omega

end Progression

namespace Range

/-- The members of a range are in the order of their bounds.  That each of them
    is canonical is part of its type. -/
def WellFormed (r : Range) : Prop := r.members.Pairwise fun p q => p.boundsLE q = true

theorem wellFormed_empty : empty.WellFormed := .nil

theorem wellFormed_option (p? : Option Progression) : WellFormed ⟨p?.toList⟩ := by
  cases p? with
  | none => exact .nil
  | some p => exact List.pairwise_singleton _ p

theorem wellFormed_of_ofProgressions {ps : List Progression} {r : Range}
    (h : ofProgressions ps = .ok r) : r.WellFormed := by
  unfold ofProgressions at h
  cases hms : (ps.mergeSort Progression.boundsLE).foldlM absorb [] with
  | error f =>
    rw [hms] at h
    cases h
  | ok ms =>
    simp only [hms, bind, Except.bind, pure, Except.pure, Except.ok.injEq] at h
    subst h
    exact @List.pairwise_mergeSort _ Progression.boundsLE
      (fun _ _ _ => Progression.boundsLE_trans) Progression.boundsLE_total _

theorem wellFormed_of_ofValues {vs : List Word} {r : Range} (h : ofValues vs = .ok r) :
    r.WellFormed := by
  unfold ofValues at h
  split at h
  · cases h
    exact wellFormed_empty
  · rename_i v vs _
    cases hps : runs v v none vs with
    | error f =>
      rw [hps] at h
      cases h
    | ok ps =>
      rw [hps] at h
      exact wellFormed_of_ofProgressions h

theorem wellFormed_of_combine {op : Operation} {r s t : Range} (h : combine op r s = .ok t) :
    t.WellFormed := by
  unfold combine at h
  split at h
  · cases h
    exact wellFormed_empty
  · split at h
    · cases hparts : r.members.mapM fun p => s.members.mapM fun q => combinePair op p q with
      | error f =>
        rw [hparts] at h
        cases h
      | ok parts =>
        rw [hparts] at h
        exact wellFormed_of_ofProgressions h
    · split at h
      · exact wellFormed_of_ofValues h
      · cases h
        exact wellFormed_option _

/-! ## All pairs of members -/

/-- What an operator knows for two progressions of small magnitude has no values
    but the results of `f`. -/
def Operation.Exact (op : Operation) (f : Int → Int → Int) (M N : Nat) : Prop :=
  ∀ {p q r : Progression}, p.Bounded M → q.Bounded N → op.known? p q = some r →
    ∀ z ∈ r, ∃ x ∈ p, ∃ y ∈ q, f x y = z

/-- `t` has the results of `f` for values of `r` and `s`, and no others if there
    are no more than 4096 pairs of values. -/
structure Results (f : Int → Int → Int) (r s t : Range) : Prop where
  wellFormed : t.WellFormed
  sound : ∀ x y : Int, x ∈ r → y ∈ s → f x y ∈ t
  exact : r.size * s.size ≤ 4096 → ∀ z : Int, z ∈ t → ∃ x y : Int, x ∈ r ∧ y ∈ s ∧ f x y = z

/-- What stands in the result was computed for one of the elements. -/
theorem exists_of_mem_mapM {α β : Type} {f : α → Except Fault β} {as : List α} {bs : List β}
    (h : as.mapM f = .ok bs) {b : β} (hb : b ∈ bs) : ∃ a ∈ as, f a = .ok b := by
  induction as generalizing bs with
  | nil =>
    cases h
    exact absurd hb List.not_mem_nil
  | cons a as ih =>
    rw [List.mapM_cons] at h
    cases ha : f a with
    | error fault =>
      rw [ha] at h
      cases h
    | ok c =>
      cases has : as.mapM f with
      | error fault =>
        rw [ha, has] at h
        cases h
      | ok cs =>
        rw [ha, has] at h
        cases h
        rcases List.mem_cons.1 hb with rfl | hb
        · exact ⟨a, List.mem_cons_self, ha⟩
        · obtain ⟨a', ha', hfa'⟩ := ih has hb
          exact ⟨a', List.mem_cons_of_mem _ ha', hfa'⟩

section Combine

variable {op : Operation} {f : Int → Int → Int} {M N K : Nat} (h : op.Sound f M N K)
  (hexact : op.Exact f M N) (hM : M < Word.halfBound) (hN : N < Word.halfBound)
  (hK : K < Word.halfBound)
include h hexact hM hN hK

omit hexact hM hN in
/-- The values listed for all pairs from two lists are results. -/
theorem exists_of_mem_pairValues {as bs : List Word} (has : ∀ a ∈ as, a.toInt.natAbs ≤ M)
    (hbs : ∀ b ∈ bs, b.toInt.natAbs ≤ N) {r : Range}
    (hr : ofValues (pairValues op.value as bs) = .ok r) {z : Int} (hz : z ∈ r) :
    ∃ a ∈ as, ∃ b ∈ bs, f a.toInt b.toInt = z := by
  have hpair {v : Word} (hv : v ∈ pairValues op.value as bs) :
      ∃ a ∈ as, ∃ b ∈ bs, v = op.value a b := by
    obtain ⟨a, ha, hv⟩ := List.mem_flatMap.1 hv
    obtain ⟨b, hb, rfl⟩ := List.mem_map.1 hv
    exact ⟨a, ha, b, hb, rfl⟩
  have hvalues : ∀ v ∈ pairValues op.value as bs, v.toInt.natAbs ≤ K := by
    intro v hv
    obtain ⟨a, ha, b, hb, rfl⟩ := hpair hv
    rw [h.value (has a ha) (hbs b hb)]
    exact h.bound (has a ha) (hbs b hb)
  obtain ⟨r', hr', -, hmem⟩ := ofValues_of_bounded hK hvalues
  obtain rfl : r' = r := Except.ok.inj (hr'.symm.trans hr)
  obtain ⟨v, hv, rfl⟩ := (hmem z).1 hz
  obtain ⟨a, ha, b, hb, rfl⟩ := hpair hv
  exact ⟨a, ha, b, hb, (h.value (has a ha) (hbs b hb)).symm⟩

/-- So are the values for one pair of members that is small. -/
theorem exists_of_mem_combinePair {p q : Progression} (hp : p.Bounded M) (hq : q.Bounded N)
    (hsize : p.size * q.size ≤ enumerationLimit) {ps : List Progression}
    (hps : combinePair op p q = .ok ps) {z : Int} (hz : Covers ps z) :
    ∃ x ∈ p, ∃ y ∈ q, f x y = z := by
  unfold combinePair at hps
  split at hps
  · rename_i r hr
    cases hps
    obtain ⟨r', hr', hz⟩ := hz
    obtain rfl := List.mem_singleton.1 hr'
    exact hexact hp hq hr z hz
  · rw [if_pos hsize] at hps
    have hmem {a : Word} := Progression.mem_values_of_bounded hM hp (v := a)
    have hmem' {b : Word} := Progression.mem_values_of_bounded hN hq (v := b)
    cases hr : ofValues (pairValues op.value p.values q.values) with
    | error fault =>
      rw [hr] at hps
      cases hps
    | ok r =>
      rw [hr] at hps
      cases hps
      obtain ⟨a, ha, b, hb, hab⟩ := exists_of_mem_pairValues h hK
        (fun a ha => hp.of_mem (hmem.1 ha)) (fun b hb => hq.of_mem (hmem'.1 hb)) hr hz
      exact ⟨_, hmem.1 ha, _, hmem'.1 hb, hab⟩

/-- So are all values, if the ranges are small. -/
theorem exists_of_mem_combine {r s t : Range} (hr : r.Bounded M) (hs : s.Bounded N)
    (hsize : r.size * s.size ≤ enumerationLimit) (ht : combine op r s = .ok t) {z : Int}
    (hz : z ∈ t) : ∃ x y : Int, x ∈ r ∧ y ∈ s ∧ f x y = z := by
  unfold combine at ht
  split at ht
  · cases ht
    exact absurd hz (not_mem_empty z)
  · split at ht
    · obtain ⟨parts, hparts, hbounded, -⟩ := combineMembers_of_sound h hM hN hK hr hs
      obtain ⟨t', ht', -, hmem⟩ := ofProgressions_of_bounded hK hbounded
      rw [hparts] at ht
      obtain rfl : t' = t := Except.ok.inj (ht'.symm.trans ht)
      -- the value comes from some part, and the part from one pair of members
      obtain ⟨u, hu, hzu⟩ := (hmem z).1 hz
      obtain ⟨ps, hps, hu⟩ := List.mem_flatten.1 hu
      obtain ⟨pss, hpss, hps⟩ := List.mem_flatten.1 hps
      obtain ⟨p, hp, hpss'⟩ := exists_of_mem_mapM hparts hpss
      obtain ⟨q, hq, hps'⟩ := exists_of_mem_mapM hpss' hps
      have hpair := Nat.le_trans (Nat.mul_le_mul (size_le_of_mem hp) (size_le_of_mem hq)) hsize
      obtain ⟨x, hx, y, hy, hxy⟩ := exists_of_mem_combinePair h hexact hM hN hK (hr p hp) (hs q hq)
        hpair hps' ⟨u, hu, hzu⟩
      exact ⟨x, y, ⟨p, hp, hx⟩, ⟨q, hq, hy⟩, hxy⟩
    · have hmem {a : Word} := mem_values_of_bounded hM hr (v := a)
      have hmem' {b : Word} := mem_values_of_bounded hN hs (v := b)
      obtain ⟨a, ha, b, hb, hab⟩ := exists_of_mem_pairValues h hK
        (fun a ha => hr.of_mem (hmem.1 ha)) (fun b hb => hs.of_mem (hmem'.1 hb)) ht hz
      exact ⟨_, _, hmem.1 ha, hmem'.1 hb, hab⟩

/-- The range of an operator has the results for operands drawn from two
    ranges. -/
theorem combine_results {r s : Range} (hr : r.Bounded M) (hs : s.Bounded N) :
    ∃ t, combine op r s = .ok t ∧ Results f r s t := by
  obtain ⟨t, ht, -, hsound⟩ := combine_of_sound h hM hN hK hr hs
  exact ⟨t, ht, wellFormed_of_combine ht, hsound,
    fun hsize z hz => exists_of_mem_combine h hexact hM hN hK hr hs hsize ht hz⟩

end Combine

/-! ## Sums -/

/-- Progressions with a common step have as sums all words in between that the
    step reaches. -/
theorem exists_add_of_step {p q : Progression} {d : Int}
    (hp : p.isSingle = true ∨ p.step.toInt = d) (hq : q.isSingle = true ∨ q.step.toInt = d)
    {z : Int} (hlo : p.min.toInt + q.min.toInt ≤ z) (hhi : z ≤ p.max.toInt + q.max.toInt)
    (hdvd : d ∣ z - (p.min.toInt + q.min.toInt)) : ∃ x ∈ p, ∃ y ∈ q, x + y = z := by
  have hp₁ := p.toInt_min_le
  have hq₁ := q.toInt_min_le
  simp only [Progression.mem_iff_of_step hp, Progression.mem_iff_of_step hq]
  by_cases hle : z - q.min.toInt ≤ p.max.toInt
  · -- the second operand stays at its least value
    refine ⟨z - q.min.toInt, ⟨by omega, hle, ?_⟩, q.min.toInt, ⟨Int.le_refl _, hq₁, ?_⟩, by omega⟩
    · rwa [show z - q.min.toInt - p.min.toInt = z - (p.min.toInt + q.min.toInt) by omega]
    · rw [Int.sub_self]
      exact Int.dvd_zero _
  · -- the first operand stays at its greatest value
    have hmax := ((Progression.mem_iff_of_step hp).1 p.max_mem).2.2
    refine ⟨p.max.toInt, ⟨hp₁, Int.le_refl _, hmax⟩, z - p.max.toInt, ⟨by omega, by omega, ?_⟩,
      by omega⟩
    rw [show z - p.max.toInt - q.min.toInt =
      (z - (p.min.toInt + q.min.toInt)) - (p.max.toInt - p.min.toInt) by omega]
    exact Int.dvd_sub hdvd hmax

theorem sumOperation_exact {M N : Nat} (hK : M + N < Word.halfBound) :
    sumOperation.Exact (· + ·) M N := by
  intro p q r hp hq hr z hz
  have hlo := Word.toInt_satAdd (inRange_add hK hp.1 hq.1)
  have hhi := Word.toInt_satAdd (inRange_add hK hp.2 hq.2)
  have hp₁ := p.toInt_min_le
  have hq₁ := q.toInt_min_le
  have hle : Word.satAdd p.min q.min ≤ Word.satAdd p.max q.max :=
    Int64.le_iff_toInt_le.2 (by omega)
  -- whichever step is taken, it suits both operands
  have mem {d : Word} (hd : 0 < d) (hpd : p.isSingle = true ∨ p.step.toInt = d.toInt)
      (hqd : q.isSingle = true ∨ q.step.toInt = d.toInt)
      (hz : z ∈ Progression.new (Word.satAdd p.min q.min) (Word.satAdd p.max q.max) d) :
      ∃ x ∈ p, ∃ y ∈ q, x + y = z := by
    rw [Progression.mem_new hle hd, hlo, hhi] at hz
    exact exists_add_of_step hpd hqd hz.1 hz.2.1 hz.2.2
  simp only [sumOperation] at hr
  split at hr
  · rename_i hs
    cases hr
    exact mem q.step_pos (.inl hs) (.inr rfl) hz
  · split at hr
    · rename_i hs
      cases hr
      exact mem p.step_pos (.inr rfl) (.inl hs) hz
    · split at hr
      · rename_i heq
        cases hr
        exact mem p.step_pos (.inr rfl) (.inr (heq ▸ rfl)) hz
      · cases hr

/-! ## Products -/

/-- What lies between the multiples of the bounds and is reached from one of
    them in steps of multiples of the step is a multiple of a value. -/
theorem exists_mul_of_step {p : Progression} {c : Int} (hc : c ≠ 0) {b : Int} (hb : b ∈ p)
    {z : Int} (hz : Between (p.min.toInt * c) (p.max.toInt * c) z)
    (hdvd : p.step.toInt * c ∣ z - b * c) : ∃ x ∈ p, x * c = z := by
  obtain ⟨k, hk⟩ := hdvd
  obtain rfl : z = (b + p.step.toInt * k) * c := by
    rw [Int.add_mul, Int.mul_right_comm]
    omega
  have hle := p.toInt_min_le
  refine ⟨_, ?_, rfl⟩
  have hbetween : p.min.toInt ≤ b + p.step.toInt * k ∧ b + p.step.toInt * k ≤ p.max.toInt := by
    unfold Between at hz
    rcases Int.lt_or_gt_of_ne hc with hneg | hpos
    · simp only [mul_le_mul_right_of_neg hneg] at hz
      omega
    · simp only [Int.mul_le_mul_right hpos] at hz
      omega
  refine ⟨hbetween.1, hbetween.2, ?_⟩
  rw [show b + p.step.toInt * k - p.min.toInt = (b - p.min.toInt) + p.step.toInt * k by omega]
  exact Int.dvd_add hb.2.2 (Int.dvd_mul_right ..)

section Product

variable {M N : Nat} (hK : M * N < Word.halfBound)
include hK

/-- The values of a scaled progression are multiples. -/
theorem exists_of_mem_scaled {p : Progression} (hp : p.Bounded M) {factor : Word}
    (hf : factor.toInt.natAbs ≤ N) {z : Int} (hz : z ∈ scaled factor p) :
    ∃ x ∈ p, x * factor.toInt = z := by
  unfold scaled at hz
  split at hz
  · rename_i h0
    subst h0
    rw [Progression.mem_single.1 hz]
    exact ⟨_, p.min_mem, Int.mul_zero _⟩
  · rename_i h0
    have h0 := Word.ne_zero_iff.1 h0
    have hlo := toInt_satMul_of_bounded hK hp.1 hf
    have hhi := toInt_satMul_of_bounded hK hp.2 hf
    by_cases hs : p.isSingle = true
    · have hbounds : p.max = p.min := (Word.eq_of_toInt_eq (Progression.isSingle_iff.1 hs)).symm
      rw [hbounds] at hz
      have := Progression.le_of_mem_new (Int64.le_refl _) hz
      exact ⟨_, p.min_mem, by omega⟩
    · have hstep := toInt_scaledStep hK hp hs hf
      have hpos : 0 < Word.satMul p.step (Word.satAbs factor) := by
        rw [Int64.lt_iff_toInt_lt, hstep]
        exact Int.mul_pos p.toInt_step_pos (by omega)
      have hdvd : p.step.toInt * factor.toInt ∣ p.step.toInt * factor.toInt.natAbs :=
        Int.mul_dvd_mul (Int.dvd_refl _) (Int.dvd_natAbs.2 (Int.dvd_refl _))
      rcases Int64.le_total (Word.satMul p.min factor) (Word.satMul p.max factor) with hle | hle
      · rw [Progression.mem_new hle hpos, hlo, hhi, hstep] at hz
        exact exists_mul_of_step h0 p.min_mem (.inl ⟨hz.1, hz.2.1⟩) (Int.dvd_trans hdvd hz.2.2)
      · -- a negative factor turns the bounds round
        rw [Progression.new_swap, Progression.mem_new hle hpos, hlo, hhi, hstep] at hz
        exact exists_mul_of_step h0 p.max_mem (.inr ⟨hz.1, hz.2.1⟩) (Int.dvd_trans hdvd hz.2.2)

theorem productOperation_exact : productOperation.Exact (· * ·) M N := by
  intro p q r hp hq hr z hz
  simp only [productOperation] at hr
  split at hr
  · cases hr
    obtain ⟨y, hy, rfl⟩ :=
      exists_of_mem_scaled (M := N) (N := M) (Nat.mul_comm M N ▸ hK) hq hp.1 hz
    exact ⟨_, p.min_mem, y, hy, Int.mul_comm ..⟩
  · split at hr
    · cases hr
      obtain ⟨x, hx, rfl⟩ := exists_of_mem_scaled hK hp hq.1 hz
      exact ⟨x, hx, _, q.min_mem, rfl⟩
    · cases hr

end Product

/-! ## Quotients -/

theorem quotientOperation_exact {M : Nat} (hM : M < Word.halfBound) (N : Nat) :
    quotientOperation.Exact Int.tdiv M N := by
  intro p q r hp _ hr z hz
  simp only [quotientOperation] at hr
  split at hr
  · cases hr
    rw [Progression.mem_single, toInt_div_of_bounded hM hp.1] at hz
    exact ⟨_, p.min_mem, _, q.min_mem, hz.symm⟩
  · cases hr

/-! ## Ranges of results -/

/-- The ranges of sums, products and quotients of two ranges exist and have the
    results for their values, as long as these are words. -/
theorem sum_product_quotient_results {M N : Nat} (hM : M < Word.halfBound)
    (hN : N < Word.halfBound) {r s : Range} (hr : r.Bounded M) (hs : s.Bounded N) :
    (M + N < Word.halfBound → ∃ t, r.sum s = .ok t ∧ Results (· + ·) r s t) ∧
    (M * N < Word.halfBound → ∃ t, r.product s = .ok t ∧ Results (· * ·) r s t) ∧
    ∃ divisors t, s.withoutZero = .ok divisors ∧ (∀ y : Int, y ∈ divisors ↔ y ∈ s ∧ y ≠ 0) ∧
      r.quotient s = .ok t ∧ Results Int.tdiv r divisors t := by
  refine ⟨fun hK => ?_, fun hK => ?_, ?_⟩
  · exact combine_results (sumOperation_sound hK) (sumOperation_exact hK) hM hN hK hr hs
  · exact combine_results (productOperation_sound hK) (productOperation_exact hK) hM hN hK hr hs
  · obtain ⟨divisors, hd, hdb, hdx⟩ := withoutZero_of_bounded hN hs
    obtain ⟨t, ht, hresults⟩ := combine_results (quotientOperation_sound hM N)
      (quotientOperation_exact hM N) hM hN hM hr hdb
    exact ⟨divisors, t, hd, hdx, by rw [quotient, hd]; exact ht, hresults⟩

/-- `2, 5, 8` and `20` against `-3, 0, 3`. -/
theorem sum_product_quotient_results_compound :
    let r : Range := ⟨[.new 2 8 3, .single 20]⟩
    let s : Range := ⟨[.new (-3) 3 3]⟩
    r.Bounded 20 ∧ s.Bounded 3 ∧ (∃ t, r.sum s = .ok t ∧ Results (· + ·) r s t) ∧
      (∃ t, r.product s = .ok t ∧ Results (· * ·) r s t) ∧
      ∃ divisors t, s.withoutZero = .ok divisors ∧ (∀ y : Int, y ∈ divisors ↔ y ∈ s ∧ y ≠ 0) ∧
        r.quotient s = .ok t ∧ Results Int.tdiv r divisors t := by
  intro r s
  have hr : r.Bounded 20 := by
    intro p hp
    rcases List.mem_cons.1 hp with rfl | hp
    · exact Progression.bounded_new (by decide) (by decide) 3
    · obtain rfl := List.mem_singleton.1 hp
      exact Progression.bounded_single (by decide)
  have hs : s.Bounded 3 := bounded_progression (by decide) (by decide) 3
  obtain ⟨hsum, hproduct, hquotient⟩ := sum_product_quotient_results (by decide) (by decide) hr hs
  exact ⟨hr, hs, hsum (by decide), hproduct (by decide), hquotient⟩

end Range

end InputSolver
