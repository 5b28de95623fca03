/-
  InputSolver — tight bounds on remainders.

  What probing finds are remainders, and a search whose budget lasts goes on
  to the end.  So the bounds of the interval are the least and the greatest
  remainder, unless the values are too many to be listed.

  * `residueBounds_attained`: the bounds for a positive progression and one
    modulus are remainders;
  * `probe_attained`: so are those that probing finds, within a budget of all
    values for each modulus;
  * `remainder_interval`: the range of remainders is an interval around them,
    with the least and the greatest as its bounds if the budget lasts.
-/
import Mathlib.Data.Int.GCD
import Mathlib.Order.Bounds.Defs
import Mathlib.Tactic.LinearCombination
import InputSolver.Proofs.Range.Remainder

namespace InputSolver

/-! ## Sizes of parts -/

namespace Progression

/-- Going up `n` steps of `d` gives no more than `n + 1` values. -/
theorem size_new_le {a b d : Word} (hd : 0 < d) {n : Nat} (h : b.toInt = a.toInt + n * d.toInt) :
    (new a b d).size ≤ n + 1 := by
  have hpos : 0 < d.toInt := Int64.lt_iff_toInt_lt.1 hd
  have hn : 0 ≤ (n : Int) * d.toInt := Int.mul_nonneg (by omega) (by omega)
  have hab : a ≤ b := Int64.le_iff_toInt_le.2 (by omega)
  have hmul : Word.distance a b = n * d.toNatClampNeg := by
    have hdist := Word.distance_eq hab
    have hstep := Word.toInt_toNat (Int64.le_of_lt hd)
    zify
    rw [hdist, hstep]
    omega
  have hsteps := Word.toNatClampNeg_pos hd
  rw [new_of_le hab hd]
  unfold ofOrdered
  refine Nat.le_trans (Nat.min_le_left ..) (Nat.succ_le_succ ?_)
  split
  · change Word.distance a a / _ ≤ n
    have hself := Word.distance_eq (Int64.le_refl a)
    rw [show Word.distance a a = 0 by omega, Nat.zero_div]
    exact Nat.zero_le n
  · change Word.distance a (lastReached a b d) / d.toNatClampNeg ≤ n
    rw [distance_lastReached hab, hmul, Nat.mul_mod_left, Nat.sub_zero,
      Nat.mul_div_cancel _ hsteps]

theorem le_of_steps_le {p : Progression} {i k : Nat}
    (h : (i : Int) * p.step.toInt ≤ k * p.step.toInt) : i ≤ k :=
  Int.ofNat_le.1 ((Int.mul_le_mul_right p.toInt_step_pos).1 h)

theorem lt_of_steps_lt {p : Progression} {i k : Nat}
    (h : (i : Int) * p.step.toInt < k * p.step.toInt) : i < k :=
  Int.ofNat_lt.1 ((Int.mul_lt_mul_right p.toInt_step_pos).1 h)

section Steps

variable {p : Progression} {n : Nat} (hn : p.max.toInt = p.min.toInt + n * p.step.toInt)
include hn

/-- The values below zero take no more steps than there are before the first
    value above zero. -/
theorem size_negative_le : ∃ j ≤ n + 1, (p.splitSign.negative.map (·.size)).sum ≤ j ∧
    ∀ k : Nat, 0 < p.min.toInt + k * p.step.toInt → j ≤ k := by
  cases hlast : p.lastTo (-1) with
  | none => exact ⟨0, Nat.zero_le _, by simp [splitSign, hlast], fun _ _ => Nat.zero_le _⟩
  | some last =>
    obtain ⟨hmem, hle, -⟩ := lastTo_eq_some hlast
    have hle : last.toInt ≤ -1 := hle
    obtain ⟨i, hi⟩ := exists_steps_of_mem hmem
    have hmax := hmem.2.1
    refine ⟨i + 1, Nat.succ_le_succ (le_of_steps_le (p := p) (by omega)),
      by simpa [splitSign, hlast] using size_new_le p.step_pos hi, fun k hk => ?_⟩
    exact lt_of_steps_lt (p := p) (by omega)

/-- The values above zero take the steps from the first of them on. -/
theorem size_positive_le : ∃ k ≤ n + 1, (p.splitSign.positive.map (·.size)).sum + k ≤ n + 1 ∧
    (k ≤ n → 0 < p.min.toInt + k * p.step.toInt) := by
  cases hfirst : p.firstFrom 1 with
  | none => exact ⟨n + 1, Nat.le_refl _, by simp [splitSign, hfirst], fun h => by omega⟩
  | some first =>
    obtain ⟨hmem, hle, -⟩ := firstFrom_eq_some hfirst
    have hle : 1 ≤ first.toInt := hle
    obtain ⟨k, hk⟩ := exists_steps_of_mem hmem
    have hmax := hmem.2.1
    have hkn : k ≤ n := le_of_steps_le (p := p) (by omega)
    have hrest : p.max.toInt = first.toInt + (n - k : Nat) * p.step.toInt := by
      rw [Int.natCast_sub hkn, Int.sub_mul]
      omega
    have hsize : (p.splitSign.positive.map (·.size)).sum ≤ n - k + 1 := by
      simpa [splitSign, hfirst] using size_new_le p.step_pos hrest
    exact ⟨k, by omega, by omega, fun _ => by omega⟩

end Steps

/-- The parts below and above zero have together no more values than the
    whole. -/
theorem size_splitSign {p : Progression} (h : p.size < Word.countBound - 1) :
    (p.splitSign.negative.map (·.size)).sum + (p.splitSign.positive.map (·.size)).sum ≤
      p.size := by
  obtain ⟨n, hn⟩ := exists_steps_of_mem p.max_mem
  have hsize := (lt_size_iff (size_eq_of_lt h) n).2 (by omega)
  obtain ⟨j, hj, hneg, hbefore⟩ := size_negative_le hn
  obtain ⟨k, hk, hposi, habove⟩ := size_positive_le hn
  have hjk : j ≤ k := by
    by_cases hkn : k ≤ n
    · exact hbefore k (habove hkn)
    · omega
  omega

/-- The opposites are not more than the values. -/
theorem size_negated_le {p q : Progression} (h : p.size < Word.countBound - 1)
    (hq : p.negated = .ok q) : q.size ≤ p.size := by
  obtain ⟨n, hn⟩ := exists_steps_of_mem p.max_mem
  have hsize := (lt_size_iff (size_eq_of_lt h) n).2 (by omega)
  unfold negated Word.exactNeg at hq
  cases ha : Word.exact (-p.max.toInt) with
  | error fault =>
    rw [ha] at hq
    cases hq
  | ok a =>
    cases hb : Word.exact (-p.min.toInt) with
    | error fault =>
      rw [ha, hb] at hq
      cases hq
    | ok b =>
      rw [ha, hb] at hq
      cases hq
      have ha := Word.exact_eq_ok_iff.1 ha
      have hb := Word.exact_eq_ok_iff.1 hb
      exact Nat.le_trans (size_new_le p.step_pos (n := n) (by omega)) hsize

end Progression

namespace Range

/-- Progressions of small words have a size below the limit. -/
theorem size_lt_of_bounded {M : Nat} (hM : M < Word.halfBound) {p : Progression}
    (hp : p.Bounded M) : p.size < Word.countBound - 1 := by
  have hdist := Word.distance_eq p.min_le_max
  have hle : p.size ≤ _ := Nat.min_le_left ..
  have hdiv := Nat.div_le_self (Word.distance p.min p.max) p.step.toNatClampNeg
  obtain ⟨h₁, h₂⟩ := hp
  unfold Word.halfBound at hM
  unfold Word.countBound
  omega

/-- The parts of all members have together no more values than the range. -/
theorem size_signParts {r : Range} (h : r.size < Word.countBound - 1) :
    ((r.signParts.negative ++ r.signParts.positive).map (·.size)).sum ≤ r.size := by
  have hmember (p : Progression) (hp : p ∈ r.members) :=
    Progression.size_splitSign (Nat.lt_of_le_of_lt (size_le_of_mem hp) h)
  rw [size_eq_of_lt h, List.map_append, List.sum_append]
  unfold signParts
  generalize r.members = ps at hmember
  induction ps with
  | nil => exact Nat.le_refl 0
  | cons p ps ih =>
    have hp := hmember p List.mem_cons_self
    have hps := ih fun q hq => hmember q (List.mem_cons_of_mem _ hq)
    simp only [List.flatMap_cons, List.map_append, List.sum_append, List.map_cons,
      List.sum_cons] at hps ⊢
    omega

theorem length_values {r : Range} (h : r.size < Word.countBound - 1) :
    r.values.length = r.size := by
  rw [size_eq_of_lt h, values, List.length_flatMap]
  exact congrArg List.sum (List.map_congr_left fun p _ => p.length_values)

theorem length_moduli_le {divisors : Range} (h : divisors.size < Word.countBound - 1) :
    ((divisors.values.map Word.satAbs).mergeSort fun a b => b ≤ a).eraseReps.length ≤
      divisors.size := by
  refine Nat.le_trans (length_eraseReps_le _) ?_
  rw [List.length_mergeSort, List.length_map, length_values h]

/-! ## Residues that are reached -/

/-- Some multiple of `d` below a full period goes from `a` to any number that
    agrees with it modulo the common divisor. -/
theorem exists_steps_residue {a d m t : Int} (hm : 0 < m) (h : (Int.gcd d m : Int) ∣ t - a) :
    ∃ k : Nat, (k : Int) < m / Int.gcd d m ∧ m ∣ a + k * d - t := by
  obtain ⟨c, hc⟩ := h
  have hg : 0 < (Int.gcd d m : Int) :=
    Int.natCast_pos.2 (Int.gcd_pos_of_ne_zero_right _ (by omega))
  have hgm : (Int.gcd d m : Int) * (m / Int.gcd d m) = m :=
    Int.mul_ediv_cancel' (Int.gcd_dvd_right ..)
  have hgd : (Int.gcd d m : Int) * (d / Int.gcd d m) = d :=
    Int.mul_ediv_cancel' (Int.gcd_dvd_left ..)
  have hbezout := Int.gcd_eq_gcd_ab d m
  generalize hq : m / (Int.gcd d m : Int) = q at hgm ⊢
  generalize d / (Int.gcd d m : Int) = e at hgd
  have hqpos : 0 < q := by
    rw [← hq]
    exact Int.ediv_pos_of_pos_of_dvd hm (Int.le_of_lt hg) (Int.gcd_dvd_right ..)
  have hk := Int.emod_nonneg (Int.gcdA d m * c) (Int.ne_of_gt hqpos)
  refine ⟨((Int.gcdA d m * c) % q).toNat, ?_, ?_⟩
  · rw [Int.toNat_of_nonneg hk]
    exact Int.emod_lt_of_pos _ hqpos
  · -- `k` differs from `gcdA * c` by a multiple of `q`, and `gcdA * d` from the divisor by one of `m`
    rw [Int.toNat_of_nonneg hk, Int.emod_def]
    generalize Int.gcdA d m * c / q = periods
    refine ⟨-(Int.gcdB d m * c) - periods * e, ?_⟩
    linear_combination (-1 : Int) * hc - c * hbezout - periods * e * hgm + q * periods * hgd

/-- The remainders of the values of `p`. -/
def Residue (p : Progression) (modulus : Word) (z : Int) : Prop :=
  ∃ x ∈ p, x.tmod modulus.toInt = z

theorem listedBounds_attained {modulus : Word} {vs : List Word} {b : Bounds}
    (hb : listedBounds modulus vs = some b) :
    b.Both fun z => ∃ v ∈ vs, v.toInt.tmod modulus.toInt = z := by
  have fold (ws : List Word) (hws : ∀ w ∈ ws, w ∈ vs) (b : Bounds)
      (hb : b.Both fun z => ∃ v ∈ vs, v.toInt.tmod modulus.toInt = z) :
      (ws.foldl (fun b w => Bounds.widen (some b) (w % modulus) (w % modulus)) b).Both
        fun z => ∃ v ∈ vs, v.toInt.tmod modulus.toInt = z := by
    induction ws generalizing b with
    | nil => exact hb
    | cons w ws ih =>
      have hw : ∃ v ∈ vs, v.toInt.tmod modulus.toInt = (w % modulus).toInt :=
        ⟨w, hws w List.mem_cons_self, (Int64.toInt_mod ..).symm⟩
      refine ih (fun u hu => hws u (List.mem_cons_of_mem _ hu)) _ (Bounds.both_widen ?_ hw hw)
      rintro b' ⟨⟩
      exact hb
  cases vs with
  | nil => cases hb
  | cons v vs =>
    cases hb
    have hv : ∃ w ∈ v :: vs, w.toInt.tmod modulus.toInt = (v % modulus).toInt :=
      ⟨v, List.mem_cons_self, (Int64.toInt_mod ..).symm⟩
    exact fold vs (fun w hw => List.mem_cons_of_mem _ hw) _ ⟨hv, hv⟩

section Residues

variable {p : Progression} (hmin : 0 < p.min.toInt) {modulus : Word} (hpos : 0 < modulus.toInt)
include hmin hpos

/-- A progression with a full period reaches every residue that agrees with
    its lowest value modulo the common divisor of step and modulus. -/
theorem residue_of_period
    (hsize : (modulus / Word.gcd p.step modulus).toNatClampNeg ≤ p.size) {t : Int} (ht : 0 ≤ t)
    (htm : t < modulus.toInt) (hdvd : (Word.gcd p.step modulus).toInt ∣ t - p.min.toInt) :
    Residue p modulus t := by
  obtain ⟨hgpos, hgm, -⟩ := gcd_step_dvd (p := p) hpos
  have hperiod : (modulus / Word.gcd p.step modulus).toInt =
      modulus.toInt / (Word.gcd p.step modulus).toInt := by
    rw [Word.toInt_div (Word.ne_minValue (by have := modulus.toInt_lt; omega)),
      Int.tdiv_eq_ediv_of_nonneg (by omega)]
  have hgcd := toInt_gcd_step (p := p) hpos
  rw [hgcd] at hdvd hperiod
  obtain ⟨k, hk, hkm⟩ := exists_steps_residue hpos hdvd
  have hmax := p.max.toInt_lt
  have hle := (Progression.lt_size_iff (p := p) (Progression.size_eq (by omega)) k).1 <| by
    have hclamp : ((modulus / Word.gcd p.step modulus).toNatClampNeg : Int) =
        (modulus / Word.gcd p.step modulus).toInt := Int.toNat_of_nonneg (by omega)
    omega
  have hsteps : 0 ≤ (k : Int) * p.step.toInt :=
    Int.mul_nonneg (by omega) (Int.le_of_lt p.toInt_step_pos)
  refine ⟨p.min.toInt + k * p.step.toInt, ⟨by omega, hle, ?_⟩, ?_⟩
  · rw [add_sub_cancel_left]
    exact Int.dvd_mul_left ..
  · rw [Int.tmod_eq_emod_of_nonneg (by omega),
      Int.emod_eq_emod_iff_emod_sub_eq_zero.2 (Int.emod_eq_zero_of_dvd hkm),
      Int.emod_eq_of_lt ht htm]

/-- The bounds of a full period are remainders. -/
theorem periodBounds_attained
    (hsize : (modulus / Word.gcd p.step modulus).toNatClampNeg ≤ p.size) :
    (Bounds.mk (p.min % Word.gcd p.step modulus)
      (modulus - Word.gcd p.step modulus + p.min % Word.gcd p.step modulus)).Both
        (Residue p modulus) := by
  obtain ⟨hlo, hhi⟩ := toInt_periodBounds hmin hpos
  obtain ⟨hgpos, hgm, -⟩ := gcd_step_dvd (p := p) hpos
  have hgle := Int.le_of_dvd hpos hgm
  have h₀ := Int.emod_nonneg p.min.toInt (Int.ne_of_gt hgpos)
  have h₁ := Int.emod_lt_of_pos p.min.toInt hgpos
  have hdvd : (Word.gcd p.step modulus).toInt ∣
      p.min.toInt % (Word.gcd p.step modulus).toInt - p.min.toInt := Int.dvd_emod_sub_self
  constructor
  · rw [hlo]
    exact residue_of_period hmin hpos hsize h₀ (by omega) hdvd
  · rw [hhi]
    refine residue_of_period hmin hpos hsize (by omega) (by omega) ?_
    rw [Int.add_sub_assoc]
    exact Int.dvd_add (Int.dvd_sub hgm (Int.dvd_refl _)) hdvd

omit hpos in
/-- The values of a positive progression, when listed, give bounds, which are
    remainders. -/
theorem exists_listedBounds (modulus : Word) :
    ∃ b, listedBounds modulus p.values = some b ∧ b.Both (Residue p modulus) := by
  have hlisted {v : Word} : v ∈ p.values ↔ v.toInt ∈ p := mem_values_of_pos hmin
  obtain ⟨v, vs, hvs⟩ := List.exists_cons_of_ne_nil (List.ne_nil_of_mem (hlisted.2 p.min_mem))
  have residue {z : Int} : (∃ v ∈ p.values, v.toInt.tmod modulus.toInt = z) →
      Residue p modulus z := fun ⟨v, hv, hz⟩ => ⟨_, hlisted.1 hv, hz⟩
  obtain ⟨b, hb⟩ : ∃ b, listedBounds modulus p.values = some b := by
    rw [hvs]
    exact ⟨_, rfl⟩
  exact ⟨b, hb, (listedBounds_attained hb).imp residue residue⟩

/-- Within a budget of all values the bounds for one modulus are found, and
    both are remainders. -/
theorem residueBounds_attained {budget : Nat} (hbudget : p.size ≤ budget) :
    ∃ b left, residueBounds p modulus budget = some (b, left) ∧ budget ≤ left + p.size ∧
      b.Both (Residue p modulus) := by
  unfold residueBounds
  split
  · rename_i hone
    have hzero : Residue p modulus 0 := by
      refine ⟨_, p.min_mem, ?_⟩
      rw [hone, show (1 : Word).toInt = 1 from rfl, Int.tmod_one]
    exact ⟨_, _, rfl, Nat.le_add_right .., hzero, hzero⟩
  split
  · rename_i hmax
    have hmax := Int64.lt_iff_toInt_lt.1 hmax
    have hle := p.toInt_min_le
    exact ⟨_, _, rfl, Nat.le_add_right .., ⟨_, p.min_mem, Int.tmod_eq_of_lt (by omega) (by omega)⟩,
      ⟨_, p.max_mem, Int.tmod_eq_of_lt (by omega) hmax⟩⟩
  split
  · have hsingle : Residue p modulus (p.min % modulus).toInt :=
      ⟨_, p.min_mem, (Int64.toInt_mod ..).symm⟩
    exact ⟨_, _, rfl, Nat.le_add_right .., hsingle, hsingle⟩
  simp only
  split
  · rename_i hsize
    exact ⟨_, _, rfl, Nat.le_add_right .., periodBounds_attained hmin hpos hsize⟩
  · obtain ⟨b, hb, hresidues⟩ := exists_listedBounds hmin modulus
    rw [if_neg (Nat.not_lt.2 hbudget), hb]
    exact ⟨b, _, rfl, by omega, hresidues⟩

end Residues

/-! ## Bounds that are reached -/

/-- The bounds found so far have a property, if any were found. -/
def Probe.Both (P : Int → Prop) (s : Probe) : Prop := ∀ b, s.found = some b → b.Both P

section Probing

variable {M : Nat} (hM : M < Word.halfBound) {P : Int → Prop}
include hM

/-- What a part costs is its size at most. -/
theorem probePart_attained {modulus : Word} (hpos : 0 < modulus.toInt) {s : Probe}
    (hs : s.Both P) {p : Progression} (hp : p.Bounded M)
    (hsign : p.max.toInt < 0 ∨ 0 < p.min.toInt) (hP : ∀ x ∈ p, P (x.tmod modulus.toInt))
    (hbudget : p.size ≤ s.budget) :
    ∃ t, probePart modulus s p = .ok (some t) ∧ t.Both P ∧ s.budget ≤ t.budget + p.size ∧
      t.found.isSome = true := by
  have widened {lo hi : Word} (left : Nat) (hlo : P lo.toInt) (hhi : P hi.toInt) :
      Probe.Both P ⟨some (Bounds.widen s.found lo hi), left⟩ := by
    rintro b ⟨⟩
    exact Bounds.both_widen hs hlo hhi
  unfold probePart
  split
  · rename_i hmax
    have hneg : p.max.toInt < 0 := Int64.lt_iff_toInt_lt.1 hmax
    have hlimit := size_lt_of_bounded hM hp
    unfold Word.halfBound at hM
    obtain ⟨q, hq, hqb, hqmin, hqx⟩ := negated_of_bounded (by omega) hp
    have hsize := Progression.size_negated_le hlimit hq
    obtain ⟨b, left, hb, hleft, ⟨x, hx, hlo⟩, ⟨y, hy, hhi⟩⟩ :=
      residueBounds_attained (hqmin hneg) hpos (Nat.le_trans hsize hbudget)
    -- the bounds of the opposites turn round
    have opposite {z : Int} (hz : z ∈ q) {v : Word} (hv : z.tmod modulus.toInt = v.toInt) :
        P (-v).toInt := by
      have hbound := natAbs_le_of_between (hqb.of_mem hz) (between_tmod z modulus.toInt)
      rw [Word.toInt_neg (Word.ne_minValue (by omega)), ← hv, ← Int.neg_tmod]
      exact hP _ ((hqx _).1 (by rwa [Int.neg_neg]))
    rw [hq]
    refine ⟨_, by simp only [bind, Except.bind, hb]; rfl,
      widened left (opposite hy hhi) (opposite hx hlo), ?_, rfl⟩
    change s.budget ≤ left + p.size
    omega
  · rename_i hmax
    have hmin : 0 < p.min.toInt := hsign.resolve_left fun h => hmax (Int64.lt_iff_toInt_lt.2 h)
    obtain ⟨b, left, hb, hleft, ⟨x, hx, hlo⟩, ⟨y, hy, hhi⟩⟩ :=
      residueBounds_attained hmin hpos hbudget
    refine ⟨_, by rw [hb]; rfl, widened left ?_ ?_, hleft, rfl⟩
    · exact hlo ▸ hP x hx
    · exact hhi ▸ hP y hy

theorem probeParts_attained {modulus : Word} (hpos : 0 < modulus.toInt)
    {parts : List Progression} (hparts : Parts M parts)
    (hP : ∀ x, Covers parts x → P (x.tmod modulus.toInt)) {s : Probe} (hs : s.Both P)
    (hbudget : (parts.map (·.size)).sum ≤ s.budget) :
    ∃ t, probeParts modulus parts s = .ok (some t) ∧ t.Both P ∧
      s.budget ≤ t.budget + (parts.map (·.size)).sum ∧
      (s.found.isSome = true ∨ parts ≠ [] → t.found.isSome = true) := by
  induction parts generalizing s with
  | nil => exact ⟨s, rfl, hs, Nat.le_add_right .., fun h => h.resolve_right (· rfl)⟩
  | cons p ps ih =>
    rw [List.map_cons, List.sum_cons] at hbudget ⊢
    obtain ⟨hpb, hsign⟩ := hparts p List.mem_cons_self
    obtain ⟨s₁, hs₁, hboth, hleft, hsome⟩ := probePart_attained hM hpos hs hpb hsign
      (fun x hx => hP x (covers_cons.2 (.inl hx))) (by omega)
    obtain ⟨t, ht, htboth, htleft, htsome⟩ := ih
      (fun q hq => hparts q (List.mem_cons_of_mem _ hq))
      (fun x hx => hP x (covers_cons.2 (.inr hx))) hboth (by omega)
    refine ⟨t, ?_, htboth, by omega, fun _ => htsome (.inl hsome)⟩
    unfold probeParts
    rw [hs₁]
    exact ht

/-- Within a budget of all values for each modulus probing goes on to the
    end, and the bounds it finds are remainders. -/
theorem probe_attained (outer : Bounds) {parts : List Progression} (hparts : Parts M parts)
    {moduli : List Word} (hpos : ∀ m ∈ moduli, 0 < m.toInt)
    (hP : ∀ m ∈ moduli, ∀ x, Covers parts x → P (x.tmod m.toInt)) {s : Probe} (hs : s.Both P)
    (hbudget : moduli.length * (parts.map (·.size)).sum ≤ s.budget) :
    ∃ b?, probe outer parts moduli s = .ok b? ∧ (∀ b, b? = some b → b.Both P) ∧
      (s.found.isSome = true ∨ parts ≠ [] ∧ moduli ≠ [] → b?.isSome = true) := by
  induction moduli generalizing s with
  | nil => exact ⟨s.found, rfl, hs, fun h => h.resolve_right fun h => h.2 rfl⟩
  | cons modulus moduli ih =>
    rw [List.length_cons, Nat.succ_mul] at hbudget
    obtain ⟨s₁, hs₁, hboth, hleft, hsome⟩ := probeParts_attained hM
      (hpos modulus List.mem_cons_self) hparts (hP modulus List.mem_cons_self) hs (by omega)
    unfold probe
    rw [hs₁]
    simp only [bind, Except.bind, pure, Except.pure]
    split
    · exact ⟨s₁.found, rfl, hboth, fun h => hsome (h.imp_right (·.1))⟩
    · obtain ⟨b?, hb?, hb, hbsome⟩ := ih (fun m hm => hpos m (List.mem_cons_of_mem _ hm))
        (fun m hm => hP m (List.mem_cons_of_mem _ hm)) hboth (by omega)
      exact ⟨b?, hb?, hb, fun h => hbsome (.inl (hsome (h.imp_right (·.1))))⟩

end Probing

theorem size_pos_of_mem {r : Range} {x : Int} (hx : x ∈ r) : 0 < r.size := by
  obtain ⟨p, hp, -⟩ := hx
  have hpos : 0 < p.size := Nat.lt_min.2 ⟨Nat.succ_pos _, by decide⟩
  exact Nat.lt_of_lt_of_le hpos (size_le_of_mem hp)

theorem mem_of_covers_signParts {r : Range} {x : Int}
    (hx : Covers (r.signParts.negative ++ r.signParts.positive) x) : x ∈ r := by
  rcases covers_append.1 hx with hx | hx
  · exact (mem_signParts_negative.1 hx).1
  · exact (mem_signParts_positive.1 hx).1

theorem signParts_of_mem {r : Range} {x : Int} (hx : x ∈ r) :
    r.signParts.hasZero = true ∨ r.signParts.negative ++ r.signParts.positive ≠ [] := by
  by_cases h0 : x = 0
  · exact .inl (signParts_hasZero.2 (h0 ▸ hx))
  · have hcovers : Covers (r.signParts.negative ++ r.signParts.positive) x := by
      rcases Int.lt_or_gt_of_ne h0 with hneg | hpos
      · exact covers_append.2 (.inl (mem_signParts_negative.2 ⟨hx, hneg⟩))
      · exact covers_append.2 (.inr (mem_signParts_positive.2 ⟨hx, hpos⟩))
    obtain ⟨p, hp, -⟩ := hcovers
    exact .inr (List.ne_nil_of_mem hp)

/-- An interval has its bounds, the lower one first. -/
theorem bounds_new_one (a b : Word) :
    (Progression.new a b 1).step = 1 ∧
      ((Progression.new a b 1).min = a ∧ (Progression.new a b 1).max = b ∨
        (Progression.new a b 1).min = b ∧ (Progression.new a b 1).max = a) := by
  have ordered {a b : Word} (h : a ≤ b) : (Progression.new a b 1).step = 1 ∧
      (Progression.new a b 1).min = a ∧ (Progression.new a b 1).max = b := by
    have hle := Int64.le_iff_toInt_le.1 h
    have hmin := Progression.le_of_mem_new h (Progression.new a b 1).min_mem
    have hmax := Progression.le_of_mem_new h (Progression.new a b 1).max_mem
    have hlo := (Progression.mem_new_one (Int.le_refl a.toInt) hle).1
    have hhi := (Progression.mem_new_one hle (Int.le_refl b.toInt)).2.1
    refine ⟨?_, Word.eq_of_toInt_eq (by omega), Word.eq_of_toInt_eq (by omega)⟩
    rw [Progression.new_of_le h (by decide)]
    unfold Progression.ofOrdered
    split <;> rfl
  rcases Int64.le_total a b with h | h
  · exact (ordered h).imp_right .inl
  · rw [Progression.new_swap]
    exact (ordered h).imp_right .inr

theorem both_new_one {P : Int → Prop} {b : Bounds} (h : b.Both P) :
    P (Progression.new b.lo b.hi 1).min.toInt ∧ P (Progression.new b.lo b.hi 1).max.toInt := by
  obtain ⟨hlo, hhi⟩ := h
  rcases (bounds_new_one b.lo b.hi).2 with ⟨hmin, hmax⟩ | ⟨hmin, hmax⟩
  · rw [hmin, hmax]
    exact ⟨hlo, hhi⟩
  · rw [hmin, hmax]
    exact ⟨hhi, hlo⟩

theorem toRange_self (v : Word) : Bounds.toRange ⟨v, v⟩ = single v := by
  obtain ⟨hstep, hbounds⟩ := bounds_new_one v v
  have hnew : Progression.new v v 1 = .single v := by
    rcases hbounds with ⟨hmin, hmax⟩ | ⟨hmin, hmax⟩
    · exact Progression.ext hmin hmax hstep
    · exact Progression.ext hmin hmax hstep
  rw [Bounds.toRange, progression, hnew]
  rfl

/-! ## The range of remainders -/

/-- The remainders of dividends by divisors. -/
def remainders (r divisors : Range) : Set Int :=
  {z | ∃ x y : Int, x ∈ r ∧ y ∈ divisors ∧ x.tmod y = z}

/-- Whatever the search comes to, a range with remainders is an interval. -/
theorem remainderOfParts_eq_ok {parts : Progression.SignParts} {divisors t : Range}
    (h : remainderOfParts parts divisors = .ok t) : t = empty ∨ ∃ b : Bounds, t = b.toRange := by
  unfold remainderOfParts at h
  split at h
  · exact .inl (Except.ok.inj h).symm
  · rename_i outer _
    split at h
    · exact .inr ⟨outer, (Except.ok.inj h).symm⟩
    · simp only [bind, Except.bind] at h
      split at h
      · cases h
      · rename_i found _
        exact .inr ⟨found.getD outer, (Except.ok.inj h).symm⟩

section Remainder

variable {M N : Nat} (hM : M < Word.halfBound) (hN : N < Word.halfBound) {r divisors : Range}
  (hr : r.Bounded M) (hd : divisors.Bounded N) (hne : ∀ y : Int, y ∈ divisors → y ≠ 0)
  {x₀ y₀ : Int} (hx₀ : x₀ ∈ r) (hy₀ : y₀ ∈ divisors)
  (hbudget : divisors.size * (1 + r.size) ≤ probeBudget)

include hy₀ hbudget in
/-- The budget suffices for listing the dividends once for each modulus. -/
theorem cost_le : r.size < Word.countBound - 1 ∧ divisors.size ≤ probeBudget ∧
    ((divisors.values.map Word.satAbs).mergeSort fun a b => b ≤ a).eraseReps.length *
      ((r.signParts.negative ++ r.signParts.positive).map (·.size)).sum ≤
        probeBudget - divisors.size := by
  have hdsize : divisors.size ≤ probeBudget :=
    Nat.le_trans (Nat.le_mul_of_pos_right _ (by omega)) hbudget
  have hrsize : r.size < Word.countBound - 1 := by
    have hle := Nat.le_mul_of_pos_left (1 + r.size) (size_pos_of_mem hy₀)
    exact Nat.lt_trans (by omega : r.size < probeBudget) (by decide)
  refine ⟨hrsize, hdsize, ?_⟩
  rw [Nat.mul_add, Nat.mul_one] at hbudget
  refine Nat.le_trans (Nat.mul_le_mul
    (length_moduli_le (Nat.lt_of_le_of_lt hdsize (by decide))) (size_signParts hrsize)) ?_
  omega

include hN hd in
/-- What probing computes are remainders. -/
theorem tmod_modulus_mem (hsize : divisors.size ≤ probeBudget) :
    ∀ m ∈ ((divisors.values.map Word.satAbs).mergeSort fun a b => b ≤ a).eraseReps,
      ∀ x, Covers (r.signParts.negative ++ r.signParts.positive) x →
        x.tmod m.toInt ∈ remainders r divisors := by
  intro m hm x hx
  obtain ⟨y, hy, hval⟩ := (mem_moduli hsize).1 hm
  have hsmall := hd.of_mem hy
  unfold Word.halfBound at hN
  exact ⟨x, y, mem_of_covers_signParts hx, hy, tmod_modulus hval (.inl (by omega))⟩

include hM hN hr hd hne hx₀ hy₀ hbudget

/-- The search that is not out of budget finds bounds that are remainders. -/
theorem remainderOfParts_attained : ∃ b : Bounds,
    remainderOfParts r.signParts divisors = .ok b.toRange ∧ b.Both (· ∈ remainders r divisors) := by
  obtain ⟨-, hsize, hcost⟩ := cost_le hy₀ hbudget
  have hstart : Probe.Both (· ∈ remainders r divisors)
      ⟨if r.signParts.hasZero then some ⟨0, 0⟩ else none, probeBudget - divisors.size⟩ := by
    intro b hb
    simp only at hb
    split at hb
    · rename_i hzero
      cases hb
      have hmem : (0 : Int) ∈ remainders r divisors :=
        ⟨0, y₀, signParts_hasZero.1 hzero, hy₀, Int.zero_tmod _⟩
      exact ⟨hmem, hmem⟩
    · cases hb
  unfold remainderOfParts
  split
  · rename_i h
    exact absurd hx₀ ((mem_outerBounds_magnitude hr hne ⟨y₀, hy₀⟩).1 h x₀)
  · rename_i outer _
    rw [if_neg (Nat.not_lt.2 hsize)]
    obtain ⟨found, hfound, hboth, hfinds⟩ := probe_attained hM outer (parts_signParts hr)
      (moduli_pos hsize hne) (tmod_modulus_mem hN hd hsize) hstart hcost
    obtain ⟨m, hm, -⟩ := exists_modulus hsize hy₀
    have hsome : found.isSome = true := by
      refine hfinds ((signParts_of_mem hx₀).imp (fun hzero => ?_) fun hparts =>
        ⟨hparts, List.ne_nil_of_mem hm⟩)
      rw [if_pos hzero]
      rfl
    obtain ⟨b, rfl⟩ := Option.isSome_iff_exists.1 hsome
    exact ⟨b, by simp only [hfound]; rfl, hboth b rfl⟩

/-- So does the range of remainders, where two single values need no search. -/
theorem remainder_attained {s : Range} (hs : s.withoutZero = .ok divisors) :
    ∃ b : Bounds, r.remainder s = .ok b.toRange ∧ b.Both (· ∈ remainders r divisors) := by
  have hempty : ¬ (r.isEmpty || divisors.isEmpty) = true := by
    rw [Bool.or_eq_true, isEmpty_iff, isEmpty_iff]
    exact fun h => h.elim (· x₀ hx₀) (· y₀ hy₀)
  unfold remainder
  simp only [hs, bind, Except.bind, pure, Except.pure, if_neg hempty]
  split
  · rename_i a b ha hb
    have hmem : (a % b).toInt ∈ remainders r divisors :=
      ⟨_, _, (eq_of_singleValue? ha).1, (eq_of_singleValue? hb).1, (Int64.toInt_mod ..).symm⟩
    exact ⟨⟨a % b, a % b⟩, by rw [toRange_self], hmem, hmem⟩
  · exact remainderOfParts_attained hM hN hr hd hne hx₀ hy₀ hbudget

end Remainder

theorem remainder_eq_ok {r s divisors t : Range} (hd : s.withoutZero = .ok divisors)
    (h : r.remainder s = .ok t) : t = empty ∨ ∃ b : Bounds, t = b.toRange := by
  unfold remainder at h
  simp only [hd, bind, Except.bind, pure, Except.pure] at h
  split at h
  · exact .inl (Except.ok.inj h).symm
  · split at h
    · exact .inr ⟨_, (Except.ok.inj h).symm.trans (toRange_self _).symm⟩
    · exact remainderOfParts_eq_ok h

/-- The range of remainders is an interval around them.  Its bounds are the
    least and the greatest remainder if all values can be listed. -/
theorem remainder_interval {M N : Nat} (hM : M < Word.halfBound) (hN : N < Word.halfBound)
    {r s : Range} (hr : r.Bounded M) (hs : s.Bounded N) :
    ∃ divisors, s.withoutZero = .ok divisors ∧ (∀ y : Int, y ∈ divisors ↔ y ∈ s ∧ y ≠ 0) ∧
      (r.isEmpty = true ∨ divisors.isEmpty = true → r.remainder s = .ok empty) ∧
      (¬ r.isEmpty = true → ¬ divisors.isEmpty = true →
        ∃ p : Progression, r.remainder s = .ok ⟨[p]⟩ ∧ p.step = 1 ∧
          (∀ x y : Int, x ∈ r → y ∈ divisors → x.tmod y ∈ p) ∧
          (divisors.size * (1 + r.size) ≤ 65536 →
            IsLeast (remainders r divisors) p.min.toInt ∧
              IsGreatest (remainders r divisors) p.max.toInt)) := by
  obtain ⟨divisors, hd, hdb, hdx⟩ := withoutZero_of_bounded hN hs
  obtain ⟨t, ht, -, hmem⟩ := remainder_of_bounded hM hN hr hs
  refine ⟨divisors, hd, hdx, fun hempty => ?_, fun hr0 hd0 => ?_⟩
  · unfold remainder
    simp only [hd, bind, Except.bind]
    rw [if_pos (Bool.or_eq_true_iff.2 hempty)]
    rfl
  · obtain ⟨x₀, hx₀⟩ := exists_mem_of_not_isEmpty hr0
    obtain ⟨y₀, hy₀⟩ := exists_mem_of_not_isEmpty hd0
    have hsound : ∀ x y : Int, x ∈ r → y ∈ divisors → x.tmod y ∈ t :=
      fun x y hx hy => hmem x y hx ((hdx y).1 hy).1 ((hdx y).1 hy).2
    rcases remainder_eq_ok hd ht with rfl | ⟨b, rfl⟩
    · exact absurd (hsound x₀ y₀ hx₀ hy₀) (not_mem_empty _)
    · have hinterval : ∀ x y : Int, x ∈ r → y ∈ divisors → x.tmod y ∈ Progression.new b.lo b.hi 1 :=
        fun x y hx hy => mem_progression.1 (hsound x y hx hy)
      refine ⟨_, ht, (bounds_new_one b.lo b.hi).1, hinterval, fun hbudget => ?_⟩
      obtain ⟨b', hb', hboth⟩ := remainder_attained hM hN hr hdb
        (fun y hy => ((hdx y).1 hy).2) hx₀ hy₀ hbudget hd
      have hsame : Progression.new b.lo b.hi 1 = .new b'.lo b'.hi 1 := by
        have := Except.ok.inj (ht.symm.trans hb')
        exact (List.cons.inj (congrArg members this)).1
      rw [hsame] at hinterval ⊢
      obtain ⟨hmin, hmax⟩ := both_new_one hboth
      refine ⟨⟨hmin, ?_⟩, ⟨hmax, ?_⟩⟩
      · rintro z ⟨x, y, hx, hy, rfl⟩
        exact (hinterval x y hx hy).1
      · rintro z ⟨x, y, hx, hy, rfl⟩
        exact (hinterval x y hx hy).2.1

/-- The remainders of `-20, -17, …, 19` by `2, …, 7`. -/
theorem remainder_interval_steps :
    let r : Range := .progression (-20) 20 3
    let s : Range := .progression 2 7 1
    r.Bounded 20 ∧ s.Bounded 7 ∧ ¬ r.isEmpty = true ∧ s.withoutZero = .ok s ∧
      s.size * (1 + r.size) ≤ 65536 ∧
      ∃ p : Progression, r.remainder s = .ok ⟨[p]⟩ ∧ p.step = 1 ∧
        (∀ x y : Int, x ∈ r → y ∈ s → x.tmod y ∈ p) ∧
        IsLeast (remainders r s) p.min.toInt ∧ IsGreatest (remainders r s) p.max.toInt := by
  intro r s
  have hr : r.Bounded 20 := bounded_progression (by decide) (by decide) 3
  have hs : s.Bounded 7 := bounded_progression (by decide) (by decide) 1
  have hwithout : s.withoutZero = .ok s := ofProgressions_singleton (.new 2 7 1)
  have hsize : s.size * (1 + r.size) ≤ 65536 := by decide
  obtain ⟨divisors, hd, -, -, hinterval⟩ := remainder_interval (by decide) (by decide) hr hs
  obtain rfl : s = divisors := Except.ok.inj (hwithout.symm.trans hd)
  obtain ⟨p, hp, hstep, hmem, htight⟩ := hinterval (by decide) (by decide)
  exact ⟨hr, hs, by decide, hwithout, hsize, p, hp, hstep, hmem, htight hsize⟩

end Range

end InputSolver
