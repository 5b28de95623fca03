/-
  InputSolver — which values two progressions have in common.

  The walk over the coarser progression is one over words.  It stops before a
  step would leave the common interval, so it tries the same integers as a walk
  that cannot overflow.

  * `firstCommon_eq_find`: the walk finds the first value of the finer
    progression among these integers;
  * `meet?_eq_some`: from the first common value on, the common values follow
    at the least common multiple of the steps;
  * `mem_cycle`, `mem_cycle_of_long`: these are the values of the progression
    that is built for them, unless that multiple is no word.
-/
import InputSolver.Proofs.Progression.Meet

namespace InputSolver.Progression

instance (p : Progression) (x : Int) : Decidable (x ∈ p) :=
  inferInstanceAs (Decidable (_ ∧ _ ∧ _))

/-! ## The walk -/

/-- The integers `c, c + d, …`, `n` of them. -/
def steps (c d : Int) (n : Nat) : List Int := (List.range n).map fun k : Nat => c + k * d

theorem steps_succ (c d : Int) (n : Nat) : steps c d (n + 1) = c :: steps (c + d) d n := by
  simp only [steps, List.range_succ_eq_map, List.map_cons, List.map_map, Nat.cast_zero, Int.zero_mul,
    Int.add_zero]
  refine congrArg _ (List.map_congr_left fun k _ => ?_)
  change c + ((k + 1 : Nat) : Int) * d = c + d + k * d
  push_cast
  ring

/-- Nothing is found above the common interval. -/
theorem find?_steps_of_lt {fine : Progression} {c d hi : Int} (hd : 0 < d) (h : hi < c) (n : Nat) :
    (steps c d n).find? (fun x => x ≤ hi ∧ x ∈ fine) = none := by
  rw [List.find?_eq_none]
  intro x hx hfound
  obtain ⟨k, -, rfl⟩ := List.mem_map.1 hx
  have hle := (of_decide_eq_true hfound).1
  have h0 : 0 ≤ (k : Int) * d := Int.mul_nonneg (by omega) (by omega)
  omega

/-- The walk over words finds what a walk over integers finds. -/
theorem firstCommon_eq_find (fine : Progression) (hi : Word) {d : Word} (hd : 0 < d) (tries : Nat)
    (c : Word) : (firstCommon fine hi d tries c).map Int64.toInt =
      (steps c.toInt d.toInt tries).find? fun x => x ≤ hi.toInt ∧ x ∈ fine := by
  have hpos : 0 < d.toInt := Int64.lt_iff_toInt_lt.1 hd
  induction tries generalizing c with
  | zero => rfl
  | succ tries ih =>
    rw [firstCommon]
    by_cases hhi : hi < c
    · rw [if_pos hhi, find?_steps_of_lt hpos (Int64.lt_iff_toInt_lt.1 hhi)]
      rfl
    · have hle := Int64.not_lt.1 hhi
      have hlei := Int64.le_iff_toInt_le.1 hle
      rw [if_neg hhi, steps_succ]
      by_cases hmem : fine.includes c = true
      · have hfound : decide (c.toInt ≤ hi.toInt ∧ c.toInt ∈ fine) = true :=
          decide_eq_true ⟨hlei, includes_iff.1 hmem⟩
        rw [if_pos hmem, List.find?_cons, hfound]
        rfl
      · have hnot : decide (c.toInt ≤ hi.toInt ∧ c.toInt ∈ fine) = false :=
          decide_eq_false fun h => hmem (includes_iff.2 h.2)
        rw [if_neg hmem, List.find?_cons, hnot]
        have hdist := Word.distance_eq hle
        have hstep := Word.toInt_toNat (Int64.le_of_lt hd)
        by_cases hend : Word.distance c hi < d.toNatClampNeg
        · rw [if_pos hend, find?_steps_of_lt hpos (by omega)]
          rfl
        · -- the next word is within the interval, so the addition does not wrap
          have hnext : (c + d).toInt = c.toInt + d.toInt := by
            have h₁ := Word.inRange_toInt c
            have h₂ := Word.inRange_toInt hi
            unfold Word.InRange at h₁ h₂
            exact Word.toInt_add ⟨by omega, by omega⟩
          rw [if_neg hend, ih, hnext]

/-- What the walk finds is a value of the finer progression, and nothing before
    it is. -/
theorem firstCommon_eq_some {fine : Progression} {hi d c w : Word} (hd : 0 < d) {tries : Nat}
    (h : firstCommon fine hi d tries c = some w) :
    ∃ k : Nat, w.toInt = c.toInt + k * d.toInt ∧ w.toInt ≤ hi.toInt ∧ w.toInt ∈ fine ∧
      ∀ j < k, ¬ c.toInt + (j : Int) * d.toInt ∈ fine := by
  have hpos : 0 < d.toInt := Int64.lt_iff_toInt_lt.1 hd
  have hfind := firstCommon_eq_find fine hi hd tries c
  rw [h, Option.map_some, steps, List.find?_map, eq_comm, Option.map_eq_some_iff] at hfind
  obtain ⟨k, hk, hw⟩ := hfind
  obtain ⟨hfound, -, hbefore⟩ := List.find?_range_eq_some.1 hk
  rw [Function.comp_apply, hw] at hfound
  obtain ⟨hle, hmem⟩ := of_decide_eq_true hfound
  refine ⟨k, hw.symm, hle, hmem, fun j hj hjmem => ?_⟩
  have hjk : (j : Int) * d.toInt ≤ k * d.toInt :=
    Int.mul_le_mul_of_nonneg_right (by omega) (by omega)
  have hnot : ¬ (c.toInt + (j : Int) * d.toInt ≤ hi.toInt ∧ _) :=
    of_decide_eq_false (Bool.not_eq_true' _ ▸ hbefore j hj)
  exact hnot ⟨by omega, hjmem⟩

/-! ## The common values -/

/-- The least common multiple of the steps, at which common values recur. -/
def period (p q : Progression) : Nat := Nat.lcm p.step.toNatClampNeg q.step.toNatClampNeg

theorem period_comm (p q : Progression) : p.period q = q.period p := Nat.lcm_comm ..

theorem period_pos (p q : Progression) : 0 < p.period q :=
  Nat.lcm_pos (Word.toNatClampNeg_pos p.step_pos) (Word.toNatClampNeg_pos q.step_pos)

theorem period_dvd_iff {p q : Progression} {x : Int} :
    (p.period q : Int) ∣ x ↔ p.step.toInt ∣ x ∧ q.step.toInt ∣ x := by
  rw [← Word.toInt_toNat (Int64.le_of_lt p.step_pos), ← Word.toInt_toNat (Int64.le_of_lt q.step_pos),
    Int.natCast_dvd, Int.natCast_dvd, Int.natCast_dvd]
  exact Nat.lcm_dvd_iff

/-- Once there is a first common value, the others are a multiple of the period
    above it. -/
theorem common_iff {p q : Progression} {c hi x : Int} (hp : c ∈ p) (hq : c ∈ q)
    (hfirst : ∀ y, y ∈ p → y ∈ q → c ≤ y) (hhi : ∀ y, y ≤ hi ↔ y ≤ p.max.toInt ∧ y ≤ q.max.toInt) :
    x ∈ p ∧ x ∈ q ↔ c ≤ x ∧ x ≤ hi ∧ (p.period q : Int) ∣ x - c := by
  have hoffset (r : Progression) (hr : c ∈ r) :
      r.step.toInt ∣ x - c ↔ r.step.toInt ∣ x - r.min.toInt := by
    have hsplit : x - r.min.toInt = (x - c) + (c - r.min.toInt) := by omega
    rw [hsplit]
    exact (Int.dvd_add_left hr.2.2).symm
  rw [period_dvd_iff, hoffset p hp, hoffset q hq, hhi]
  constructor
  · intro ⟨hxp, hxq⟩
    exact ⟨hfirst x hxp hxq, ⟨hxp.2.1, hxq.2.1⟩, hxp.2.2, hxq.2.2⟩
  · rintro ⟨hle, ⟨h₁, h₂⟩, h₃, h₄⟩
    exact ⟨⟨hp.1.trans hle, h₁, h₃⟩, ⟨hq.1.trans hle, h₂, h₄⟩⟩

/-- The walk starts at or below every common value, so it finds the first. -/
theorem meetStepped?_eq_some {coarse fine t : Progression} {lo hi : Word}
    (hlo : ∀ y, lo.toInt ≤ y ↔ coarse.min.toInt ≤ y ∧ fine.min.toInt ≤ y)
    (hhi : ∀ y, y ≤ hi.toInt ↔ y ≤ coarse.max.toInt ∧ y ≤ fine.max.toInt)
    (h : meetStepped? coarse fine lo hi = some t) :
    ∃ c : Word, t = cycle c hi (coarse.period fine) ∧ c.toInt ≤ hi.toInt ∧ c.toInt ∈ coarse ∧
      c.toInt ∈ fine ∧ ∀ y, y ∈ coarse → y ∈ fine → c.toInt ≤ y := by
  obtain ⟨start, hstart, h⟩ := Option.bind_eq_some_iff.1 h
  obtain ⟨c, hc, h⟩ := Option.bind_eq_some_iff.1 h
  obtain ⟨hmem, -, hleast⟩ := firstFrom_eq_some hstart
  obtain ⟨k, hk, hle, hfine, hbefore⟩ := firstCommon_eq_some coarse.step_pos hc
  have hpos := coarse.toInt_step_pos
  have hk0 : 0 ≤ (k : Int) * coarse.step.toInt := Int.mul_nonneg (by omega) (by omega)
  refine ⟨c, (Option.some.inj h).symm, hle, ⟨?_, ((hhi _).1 hle).1, ?_⟩, hfine, fun y hy hyf => ?_⟩
  · have := hmem.1
    omega
  · have hsplit : c.toInt - coarse.min.toInt =
        (start.toInt - coarse.min.toInt) + k * coarse.step.toInt := by omega
    rw [hsplit]
    exact Int.dvd_add hmem.2.2 (Int.dvd_mul_left ..)
  · obtain ⟨m, rfl⟩ := exists_steps_above hmem hy (hleast y hy ((hlo y).2 ⟨hy.1, hyf.1⟩))
    have hkm : k ≤ m := Nat.le_of_not_lt fun hlt => hbefore m hlt hyf
    have := Int.mul_le_mul_of_nonneg_right (Int.ofNat_le.2 hkm) (Int.le_of_lt hpos)
    omega

/-- A progression of one value. -/
theorem eq_single {p : Progression} (h : p.isSingle = true) : p = single p.min := by
  have hmax : p.max = p.min := (eq_of_beq h).symm
  have hstep : p.step = 1 := p.step_of_single (eq_of_beq h)
  exact Progression.ext rfl hmax hstep

theorem cycle_self (c : Word) {n : Nat} (hn : 0 < n) : cycle c c n = single c := by
  have hdist := Word.distance_eq (Int64.le_refl c)
  exact if_pos (by omega)

/-- The common values of two progressions that meet. -/
theorem meet?_eq_some {p q t : Progression} (h : p.meet? q = some t) :
    ∃ c hi : Word, c.toInt ≤ hi.toInt ∧ t = cycle c hi (p.period q) ∧
      ∀ x, x ∈ p ∧ x ∈ q ↔
        c.toInt ≤ x ∧ x ≤ hi.toInt ∧ (p.period q : Int) ∣ x - c.toInt := by
  obtain ⟨lo, hlo', hlo⟩ : ∃ lo : Word, (if p.min ≤ q.min then q.min else p.min) = lo ∧
      ∀ y, lo.toInt ≤ y ↔ p.min.toInt ≤ y ∧ q.min.toInt ≤ y := by
    refine ⟨_, rfl, fun y => ?_⟩
    simp only [Int64.le_iff_toInt_le]
    split <;> omega
  obtain ⟨hi, hhi', hhi⟩ : ∃ hi : Word, (if p.max ≤ q.max then p.max else q.max) = hi ∧
      ∀ y, y ≤ hi.toInt ↔ y ≤ p.max.toInt ∧ y ≤ q.max.toInt := by
    refine ⟨_, rfl, fun y => ?_⟩
    simp only [Int64.le_iff_toInt_le]
    split <;> omega
  -- a single value is the only common one
  have hsingle {s : Progression} (hs : s.isSingle = true)
      (honly : ∀ x, x ∈ p ∧ x ∈ q ↔ x = s.min.toInt) :
      ∃ c hi : Word, c.toInt ≤ hi.toInt ∧ s = cycle c hi (p.period q) ∧
        ∀ x, x ∈ p ∧ x ∈ q ↔
          c.toInt ≤ x ∧ x ≤ hi.toInt ∧ (p.period q : Int) ∣ x - c.toInt := by
    refine ⟨s.min, s.min, Int.le_refl _,
      (eq_single hs).trans (cycle_self s.min (period_pos p q)).symm, fun x => (honly x).trans ?_⟩
    constructor
    · rintro rfl
      exact ⟨Int.le_refl _, Int.le_refl _, by rw [Int.sub_self]; exact Int.dvd_zero _⟩
    · rintro ⟨h₁, h₂, -⟩
      exact Int.le_antisymm h₂ h₁
  unfold meet? at h
  dsimp only at h
  rw [hlo', hhi'] at h
  split at h
  · cases h
  split at h
  · rename_i hs
    split at h
    · rename_i hq
      rw [includes_iff] at hq
      cases h
      refine hsingle hs fun x => ?_
      rw [mem_iff_of_isSingle hs]
      exact and_iff_left_of_imp fun hx => hx ▸ hq
    · cases h
  split at h
  · rename_i hs
    split at h
    · rename_i hp
      rw [includes_iff] at hp
      cases h
      refine hsingle hs fun x => ?_
      rw [mem_iff_of_isSingle hs]
      exact and_iff_right_of_imp fun hx => hx ▸ hp
    · cases h
  split at h
  · obtain ⟨c, rfl, hle, hp, hq, hfirst⟩ := meetStepped?_eq_some hlo hhi h
    exact ⟨c, _, hle, rfl, fun x => common_iff hp hq hfirst hhi⟩
  · obtain ⟨c, rfl, hle, hq, hp, hfirst⟩ := meetStepped?_eq_some
      (fun y => (hlo y).trans And.comm) (fun y => (hhi y).trans And.comm) h
    rw [period_comm]
    exact ⟨c, _, hle, rfl, fun x => common_iff hp hq (fun y hy hy' => hfirst y hy' hy) hhi⟩

/-! ## The progression built for them -/

/-- A period that is a word, or longer than the interval, gives the words at
    this period. -/
theorem mem_cycle {c hi : Word} (h : c ≤ hi) {n : Nat} (hn : 0 < n)
    (hfits : n < 0x8000000000000000 ∨ hi.toInt - c.toInt < n) {x : Int} :
    x ∈ cycle c hi n ↔ c.toInt ≤ x ∧ x ≤ hi.toInt ∧ (n : Int) ∣ x - c.toInt := by
  have hdist := Word.distance_eq h
  unfold cycle
  dsimp only
  split
  · rw [mem_single]
    constructor
    · rintro rfl
      exact ⟨Int.le_refl _, Int64.le_iff_toInt_le.1 h, by rw [Int.sub_self]; exact Int.dvd_zero _⟩
    · rintro ⟨h₁, h₂, h₃⟩
      have := Int.eq_zero_of_dvd_of_nonneg_of_lt (by omega) (by omega) h₃
      omega
  · have hword : (Int64.ofNat n).toInt = n := Int64.toInt_ofNat_of_lt (by omega)
    have hpos : 0 < Int64.ofNat n := Int64.lt_iff_toInt_lt.2 (by
      rw [hword]
      exact Int.ofNat_lt.2 hn)
    have hnat : (Int64.ofNat n).toNatClampNeg = n := by
      have := Word.toInt_toNat (Int64.le_of_lt hpos)
      omega
    have hlast : c + Int64.ofNat (Word.distance c hi / n * n) =
        lastReached c hi (Int64.ofNat n) := by
      rw [lastReached, hnat, ← Nat.div_mul_self_eq_mod_sub_self]
    rw [hlast, mem_new (le_lastReached h _) hpos, ← hword]
    refine and_congr_right fun _ => and_congr_left fun hdvd => ?_
    exact le_toInt_lastReached_iff h hpos hdvd

/-- A longer period counts as a step of 1, up to the second word at this
    period. -/
theorem mem_cycle_of_long {c hi : Word} (h : c ≤ hi) {n : Nat} (hlong : 0x8000000000000000 ≤ n)
    (hn : (n : Int) ≤ hi.toInt - c.toInt) {x : Int} :
    x ∈ cycle c hi n ↔ c.toInt ≤ x ∧ x ≤ c.toInt + n := by
  have hdist := Word.distance_eq h
  have h₁ := Word.inRange_toInt c
  have h₂ := Word.inRange_toInt hi
  unfold Word.InRange at h₁ h₂
  have hone : Word.distance c hi / n = 1 := Nat.div_eq_of_lt_le (by omega) (by omega)
  have hnot : ¬ 0 < Int64.ofNat n := by
    rw [Int64.lt_iff_toInt_lt, Int64.toInt_zero, Int64.toInt_ofNat', Int64.size, Int.bmod_def]
    omega
  have hlast : (c + Int64.ofNat n).toInt = c.toInt + n := Word.toInt_add_ofNat h (by omega)
  have hle : c ≤ c + Int64.ofNat n := Int64.le_iff_toInt_le.2 (by omega)
  unfold cycle
  dsimp only
  rw [if_neg (by omega), hone, Nat.one_mul, new_of_not_pos hnot, mem_new hle (by decide), hlast]
  exact and_congr_right fun _ => and_iff_left (Int.one_dvd _)

end InputSolver.Progression
