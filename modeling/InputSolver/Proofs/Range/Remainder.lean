/-
  InputSolver — remainders of ranges.

  `x ∈ b` says that an integer lies within the bounds `b`.

  * `mem_outerBounds`: the bounds from the extremes hold for every remainder;
  * `mem_residueBounds`: so do those for a positive progression and one
    modulus;
  * `probe_of_bounded`: probing does not fault, and the bounds it finds hold
    for every remainder;
  * `mem_remainder`: the range of remainders exists, has every remainder as a
    value, and stays within the magnitude of the dividends, wherever probing
    does not meet the lowest word;
  * `remainder_of_bounded`: so it is for ranges within bounds.
-/
import Mathlib.Algebra.Ring.Divisibility.Basic
import InputSolver.Proofs.Division
import InputSolver.Proofs.Range.Arithmetic
import InputSolver.Range.Remainder

namespace InputSolver.Range

/-! ## Remainders of integers -/

/-- A remainder lies between zero and the dividend. -/
theorem between_tmod (x y : Int) : Between 0 x (x.tmod y) := by
  have habs : (x.tmod y).natAbs ≤ x.natAbs := by
    rw [Int.natAbs_tmod]
    exact Nat.mod_le ..
  rcases Int.le_total 0 x with hx | hx
  · have := Int.tmod_nonneg y hx
    exact .inl ⟨by omega, by omega⟩
  · have := Int.tmod_nonneg (a := -x) y (by omega)
    rw [Int.neg_tmod] at this
    exact .inr ⟨by omega, by omega⟩

theorem natAbs_tmod_lt (x : Int) {y : Int} (hy : y ≠ 0) : (x.tmod y).natAbs < y.natAbs := by
  rw [Int.natAbs_tmod]
  exact Nat.mod_lt _ (by omega)

theorem natAbs_le_of_between {M : Nat} {x v : Int} (hx : x.natAbs ≤ M) (hv : Between 0 x v) :
    v.natAbs ≤ M := by
  unfold Between at hv
  omega

/-- The least and the greatest number below a multiple of `g` that agrees with
    `a` modulo `g`. -/
theorem residue_bounds {g m a v : Int} (hg : 0 < g) (hgm : g ∣ m) (hv : 0 ≤ v) (hvm : v < m)
    (h : g ∣ v - a) : a % g ≤ v ∧ v ≤ m - g + a % g := by
  obtain ⟨j, rfl⟩ := hgm
  have hmod : v % g = a % g := Int.emod_eq_emod_iff_emod_sub_eq_zero.2 (Int.emod_eq_zero_of_dvd h)
  have hsplit := Int.mul_ediv_add_emod v g
  have hquot : v / g < j := Int.ediv_lt_of_lt_mul hg (by rw [Int.mul_comm]; exact hvm)
  have hmul := Int.mul_le_mul_of_nonneg_left (Int.add_one_le_of_lt hquot) (Int.le_of_lt hg)
  rw [Int.mul_add, Int.mul_one] at hmul
  have hnonneg := Int.mul_nonneg (Int.le_of_lt hg) (Int.ediv_nonneg hv (Int.le_of_lt hg))
  rw [hmod] at hsplit
  omega

/-! ## Bounds -/

namespace Bounds

/-- The integers within some bounds. -/
instance : Membership Int Bounds where
  mem b x := b.lo.toInt ≤ x ∧ x ≤ b.hi.toInt

theorem mem_def {b : Bounds} {x : Int} : x ∈ b ↔ b.lo.toInt ≤ x ∧ x ≤ b.hi.toInt := Iff.rfl

/-- Both bounds have a property. -/
def Both (P : Int → Prop) (b : Bounds) : Prop := P b.lo.toInt ∧ P b.hi.toInt

/-- Both bounds have magnitude at most `M`. -/
def Bounded (M : Nat) (b : Bounds) : Prop := b.Both fun v => v.natAbs ≤ M

theorem mem_widen_of_mem {b : Bounds} {x : Int} (hx : x ∈ b) (lo hi : Word) :
    x ∈ widen (some b) lo hi := by
  obtain ⟨h₁, h₂⟩ := hx
  simp only [widen, mem_def, Int64.lt_iff_toInt_lt]
  split <;> split <;> omega

theorem mem_widen_of_le (b? : Option Bounds) {lo hi : Word} {x : Int} (hlo : lo.toInt ≤ x)
    (hhi : x ≤ hi.toInt) : x ∈ widen b? lo hi := by
  cases b? with
  | none => exact ⟨hlo, hhi⟩
  | some b =>
    simp only [widen, mem_def, Int64.lt_iff_toInt_lt]
    split <;> split <;> omega

/-- Bounds are widened to one of the given words or not at all. -/
theorem both_widen {P : Int → Prop} {b? : Option Bounds} (hb : ∀ b, b? = some b → b.Both P)
    {lo hi : Word} (hlo : P lo.toInt) (hhi : P hi.toInt) : (widen b? lo hi).Both P := by
  cases b? with
  | none => exact ⟨hlo, hhi⟩
  | some b =>
    obtain ⟨h₁, h₂⟩ := hb b rfl
    simp only [widen, Both]
    split <;> split <;> exact ⟨by assumption, by assumption⟩

theorem bounded_widen {M : Nat} {b? : Option Bounds} (hb : ∀ b, b? = some b → b.Bounded M)
    {lo hi : Word} (hlo : lo.toInt.natAbs ≤ M) (hhi : hi.toInt.natAbs ≤ M) :
    (widen b? lo hi).Bounded M := both_widen hb hlo hhi

theorem mem_toRange {b : Bounds} {x : Int} (hx : x ∈ b) : x ∈ b.toRange :=
  mem_progression.2 (Progression.mem_new_one hx.1 hx.2)

theorem bounded_toRange {M : Nat} {b : Bounds} (hb : b.Bounded M) : b.toRange.Bounded M :=
  bounded_progression hb.1 hb.2 1

end Bounds

/-! ## Bounds from the extremes -/

theorem le_largestMagnitude {r : Range} {x : Int} (hx : x ∈ r) :
    x.natAbs ≤ largestMagnitude r := by
  obtain ⟨ps⟩ := r
  obtain ⟨p, hp, hx₁, hx₂, -⟩ := hx
  have fold (ps : List Progression) (m : Nat) :
      let r := ps.foldl
        (fun m p => Nat.max m (Nat.max p.min.toInt.natAbs p.max.toInt.natAbs)) m
      m ≤ r ∧ ∀ p ∈ ps, p.min.toInt.natAbs ≤ r ∧ p.max.toInt.natAbs ≤ r := by
    induction ps generalizing m with
    | nil => simp
    | cons p ps ih =>
      obtain ⟨h₁, h₂⟩ := ih (Nat.max m (Nat.max p.min.toInt.natAbs p.max.toInt.natAbs))
      simp only [Nat.max_le] at h₁
      refine ⟨h₁.1, fun q hq => ?_⟩
      rcases List.mem_cons.1 hq with rfl | hq
      · exact h₁.2
      · exact h₂ q hq
  have := (fold ps 0).2 p hp
  unfold largestMagnitude
  simp only at this ⊢
  omega

theorem largestMagnitude_le {M : Nat} {r : Range} (hr : r.Bounded M) : largestMagnitude r ≤ M := by
  obtain ⟨ps⟩ := r
  have fold (ps : List Progression) (hps : ∀ p ∈ ps, p.Bounded M) (m : Nat) (hm : m ≤ M) :
      ps.foldl (fun m p => Nat.max m (Nat.max p.min.toInt.natAbs p.max.toInt.natAbs)) m ≤ M := by
    induction ps generalizing m with
    | nil => exact hm
    | cons p ps ih =>
      obtain ⟨h₁, h₂⟩ := hps p List.mem_cons_self
      exact ih (fun q hq => hps q (List.mem_cons_of_mem _ hq)) _
        (Nat.max_le.2 ⟨hm, Nat.max_le.2 ⟨h₁, h₂⟩⟩)
  exact fold ps hr 0 (Nat.zero_le M)

/-- Bounds that hold for every number between zero and `x` of no more than a
    magnitude. -/
def Outer (magnitude : Word) (b? : Option Bounds) (x : Int) : Prop :=
  ∃ b, b? = some b ∧ ∀ v : Int, Between 0 x v → v.natAbs ≤ magnitude.toInt → v ∈ b

theorem Outer.widen {magnitude : Word} {b? : Option Bounds} {x : Int}
    (h : Outer magnitude b? x) (lo hi : Word) :
    Outer magnitude (some (Bounds.widen b? lo hi)) x := by
  obtain ⟨b, rfl, hb⟩ := h
  exact ⟨_, rfl, fun v hv hm => Bounds.mem_widen_of_mem (hb v hv hm) lo hi⟩

section Outer

variable {M : Nat} {r : Range} (hr : r.Bounded M) {magnitude : Word} (hmag : 0 ≤ magnitude.toInt)
include hr hmag

theorem outer_negative :
    let b? := (r.signParts.negative.map (·.min)).min?.map fun lowest =>
      Bounds.mk (-(if magnitude < Word.satAbs lowest then magnitude else Word.satAbs lowest)) 0
    (∀ b, b? = some b → b.Bounded M) ∧ ∀ x : Int, x ∈ r → x < 0 → Outer magnitude b? x := by
  intro b?
  -- the lowest bound is negated after it was cut at the magnitude
  have lower (lowest : Word) :
      (-(if magnitude < Word.satAbs lowest then magnitude else Word.satAbs lowest)).toInt =
        -min magnitude.toInt lowest.toInt.natAbs := by
    have habs := Word.toInt_satAbs_eq_min lowest
    have hlt := magnitude.toInt_lt
    have hval : (if magnitude < Word.satAbs lowest then magnitude
        else Word.satAbs lowest).toInt = min magnitude.toInt lowest.toInt.natAbs := by
      split
      · rename_i h
        have := Int64.lt_iff_toInt_lt.1 h
        omega
      · rename_i h
        rw [Int64.lt_iff_toInt_lt] at h
        omega
    rw [Word.toInt_neg (Word.ne_minValue (by omega)), hval]
  have extreme {lowest : Word} (h : (r.signParts.negative.map (·.min)).min? = some lowest) :
      lowest.toInt < 0 ∧ lowest.toInt.natAbs ≤ M := by
    obtain ⟨q, hq, rfl⟩ := List.mem_map.1 (List.min?_eq_some_iff.1 h).1
    have hmax := max_neg_of_mem_signParts hq
    exact ⟨Int.lt_of_le_of_lt q.toInt_min_le hmax, (bounded_signParts hr (.inl hq)).1⟩
  constructor
  · rintro b hb
    obtain ⟨lowest, h, rfl⟩ := Option.map_eq_some_iff.1 hb
    obtain ⟨hneg, hbound⟩ := extreme h
    refine ⟨?_, Nat.zero_le M⟩
    change (-_ : Word).toInt.natAbs ≤ M
    rw [lower]
    omega
  · intro x hx hlt
    obtain ⟨q, hq, hxq⟩ := mem_signParts_negative.2 ⟨hx, hlt⟩
    have hlow : q.min ∈ r.signParts.negative.map (·.min) := List.mem_map.2 ⟨q, hq, rfl⟩
    obtain ⟨lowest, h⟩ := Option.isSome_iff_exists.1 (List.isSome_min?_of_mem hlow)
    obtain ⟨hneg, hbound⟩ := extreme h
    have hle := Int64.le_iff_toInt_le.1 ((List.min?_eq_some_iff.1 h).2 q.min hlow)
    refine ⟨_, Option.map_eq_some_iff.2 ⟨lowest, h, rfl⟩, fun v hv hm => ?_⟩
    have hxmin := hxq.1
    unfold Between at hv
    rw [Bounds.mem_def, lower]
    exact ⟨by omega, by change v ≤ 0; omega⟩

theorem outer_positive (b? : Option Bounds) {highest : Word}
    (h : (r.signParts.positive.map (·.max)).max? = some highest)
    (hb : ∀ b, b? = some b → b.Bounded M) :
    let b := Bounds.widen b? 0 (if magnitude < highest then magnitude else highest)
    b.Bounded M ∧ ∀ x : Int, x ∈ r → 0 < x → Outer magnitude (some b) x := by
  obtain ⟨⟨q, hq, rfl⟩, hle⟩ := (List.max?_eq_some_iff.1 h).imp_left List.mem_map.1
  have hqb := (bounded_signParts hr (.inr hq)).2
  have hmin := min_pos_of_mem_signParts hq
  have hqle := q.toInt_min_le
  have hval : (if magnitude < q.max then magnitude else q.max).toInt =
      min magnitude.toInt q.max.toInt := by
    split
    · rename_i h
      have := Int64.lt_iff_toInt_lt.1 h
      omega
    · rename_i h
      rw [Int64.lt_iff_toInt_lt] at h
      omega
  refine ⟨Bounds.bounded_widen hb (Nat.zero_le M) (by omega), fun x hx hpos => ?_⟩
  obtain ⟨p, hp, hxp⟩ := mem_signParts_positive.2 ⟨hx, hpos⟩
  have hpmax := Int64.le_iff_toInt_le.1 (hle p.max (List.mem_map.2 ⟨p, hp, rfl⟩))
  have hxmax := hxp.2.1
  refine ⟨_, rfl, fun v hv hm => ?_⟩
  unfold Between at hv
  refine Bounds.mem_widen_of_le b? ?_ (by omega)
  change (0 : Int) ≤ v
  omega

/-- The bounds from the extremes are small, and hold for every number between
    zero and a dividend of no more than the magnitude. -/
theorem mem_outerBounds :
    (outerBounds r.signParts magnitude = none → ∀ x : Int, ¬ x ∈ r) ∧
      ∀ b, outerBounds r.signParts magnitude = some b → b.Bounded M ∧
        ∀ x v : Int, x ∈ r → Between 0 x v → v.natAbs ≤ magnitude.toInt → v ∈ b := by
  obtain ⟨hnb, hnx⟩ := outer_negative hr hmag
  unfold outerBounds
  simp only
  generalize (r.signParts.negative.map (·.min)).min?.map (fun lowest =>
    Bounds.mk (-(if magnitude < Word.satAbs lowest then magnitude else Word.satAbs lowest)) 0) =
    negative at hnb hnx ⊢
  -- zero is added, then the positive part
  obtain ⟨withZero, hwithZero⟩ : ∃ withZero, withZero =
    if r.signParts.hasZero then some (Bounds.widen negative 0 0) else negative := ⟨_, rfl⟩
  have hzb : ∀ b, withZero = some b → b.Bounded M := by
    intro b hb
    rw [hwithZero] at hb
    split at hb
    · cases hb
      exact Bounds.bounded_widen hnb (Nat.zero_le M) (Nat.zero_le M)
    · exact hnb b hb
  have hzx : ∀ x : Int, x ∈ r → x ≤ 0 → Outer magnitude withZero x := by
    intro x hx hle
    rw [hwithZero]
    rcases Int.lt_or_eq_of_le hle with hlt | rfl
    · split
      · exact (hnx x hx hlt).widen 0 0
      · exact hnx x hx hlt
    · rw [if_pos (signParts_hasZero.2 hx)]
      refine ⟨_, rfl, fun v hv _ => ?_⟩
      unfold Between at hv
      exact Bounds.mem_widen_of_le negative (by change (0 : Int) ≤ v; omega)
        (by change v ≤ (0 : Int); omega)
  rw [← hwithZero]
  cases hmax : (r.signParts.positive.map (·.max)).max? with
  | none =>
    have hnot (x : Int) (hx : x ∈ r) : x ≤ 0 := by
      by_contra hpos
      obtain ⟨p, hp, -⟩ := mem_signParts_positive.2 ⟨hx, Int.not_le.1 hpos⟩
      have := List.isSome_max?_of_mem (List.mem_map.2 ⟨p, hp, rfl⟩ : p.max ∈ _)
      rw [hmax] at this
      cases this
    refine ⟨fun hnone x hx => ?_, fun b hb => ⟨hzb b hb, fun x v hx hv hm => ?_⟩⟩
    · obtain ⟨b, hb, -⟩ := hzx x hx (hnot x hx)
      rw [hb] at hnone
      cases hnone
    · obtain ⟨b', hb', h⟩ := hzx x hx (hnot x hx)
      obtain rfl : b' = b := Option.some.inj (hb'.symm.trans hb)
      exact h v hv hm
  | some highest =>
    obtain ⟨hpb, hpx⟩ := outer_positive hr hmag withZero hmax hzb
    refine ⟨fun h => (Option.some_ne_none _ h).elim, fun b hb => ?_⟩
    cases hb
    refine ⟨hpb, fun x v hx hv hm => ?_⟩
    have houter : Outer magnitude (some (Bounds.widen withZero 0
        (if magnitude < highest then magnitude else highest))) x := by
      rcases Int.lt_or_le 0 x with hpos | hle
      · exact hpx x hx hpos
      · exact (hzx x hx hle).widen _ _
    obtain ⟨b, hb, h⟩ := houter
    cases hb
    exact h v hv hm

end Outer

/-! ## Bounds for one modulus -/

theorem toInt_gcd_step {p : Progression} {modulus : Word} (hpos : 0 < modulus.toInt) :
    (Word.gcd p.step modulus).toInt = Int.gcd p.step.toInt modulus.toInt := by
  have h₁ := p.toInt_step_pos
  have h₂ := p.step.toInt_lt
  have h₃ := modulus.toInt_lt
  exact Word.toInt_gcd (Word.gcd_lt (by omega) (by omega))

theorem mem_listedBounds {M : Nat} {modulus : Word} {vs : List Word}
    (hvs : ∀ v ∈ vs, v.toInt.natAbs ≤ M) {b : Bounds} (hb : listedBounds modulus vs = some b) :
    b.Bounded M ∧ ∀ v ∈ vs, v.toInt.tmod modulus.toInt ∈ b := by
  have hmod {v : Word} (hv : v.toInt.natAbs ≤ M) : (v % modulus).toInt.natAbs ≤ M := by
    rw [Int64.toInt_mod]
    exact natAbs_le_of_between hv (between_tmod _ _)
  have fold (vs : List Word) (hvs : ∀ v ∈ vs, v.toInt.natAbs ≤ M) (b : Bounds)
      (hb : b.Bounded M) :
      let r := vs.foldl (fun b w => Bounds.widen (some b) (w % modulus) (w % modulus)) b
      r.Bounded M ∧ (∀ x ∈ b, x ∈ r) ∧ ∀ v ∈ vs, (v % modulus).toInt ∈ r := by
    induction vs generalizing b with
    | nil => exact ⟨hb, fun _ hx => hx, by simp⟩
    | cons v vs ih =>
      have hv := hmod (hvs v List.mem_cons_self)
      obtain ⟨h₁, h₂, h₃⟩ := ih (fun w hw => hvs w (List.mem_cons_of_mem _ hw))
        (Bounds.widen (some b) (v % modulus) (v % modulus))
        (Bounds.bounded_widen (fun b' h => by cases h; exact hb) hv hv)
      refine ⟨h₁, fun x hx => h₂ x (Bounds.mem_widen_of_mem hx _ _), fun w hw => ?_⟩
      rcases List.mem_cons.1 hw with rfl | hw
      · exact h₂ _ (Bounds.mem_widen_of_le _ (Int.le_refl _) (Int.le_refl _))
      · exact h₃ w hw
  cases vs with
  | nil => cases hb
  | cons v vs =>
    cases hb
    have hv := hmod (hvs v List.mem_cons_self)
    obtain ⟨h₁, h₂, h₃⟩ := fold vs (fun w hw => hvs w (List.mem_cons_of_mem _ hw))
      ⟨v % modulus, v % modulus⟩ ⟨hv, hv⟩
    refine ⟨h₁, fun w hw => ?_⟩
    rw [← Int64.toInt_mod]
    rcases List.mem_cons.1 hw with rfl | hw
    · exact h₂ _ ⟨Int.le_refl _, Int.le_refl _⟩
    · exact h₃ w hw

section Period

variable {p : Progression} (hmin : 0 < p.min.toInt) {modulus : Word} (hpos : 0 < modulus.toInt)
include hpos

theorem gcd_step_dvd :
    0 < (Word.gcd p.step modulus).toInt ∧ (Word.gcd p.step modulus).toInt ∣ modulus.toInt ∧
      (Word.gcd p.step modulus).toInt ∣ p.step.toInt := by
  rw [toInt_gcd_step hpos]
  exact ⟨Int.natCast_pos.2 (Int.gcd_pos_of_ne_zero_right _ (by omega)), Int.gcd_dvd_right ..,
    Int.gcd_dvd_left ..⟩

include hmin

/-- The bounds where a full period is reached are computed without wrapping
    around. -/
theorem toInt_periodBounds :
    let g := Word.gcd p.step modulus
    (p.min % g).toInt = p.min.toInt % g.toInt ∧
      (modulus - g + p.min % g).toInt = modulus.toInt - g.toInt + p.min.toInt % g.toInt := by
  intro g
  have hgpos : 0 < g.toInt := (gcd_step_dvd hpos).1
  have hgm : g.toInt ∣ modulus.toInt := (gcd_step_dvd hpos).2.1
  have hgle := Int.le_of_dvd hpos hgm
  have hlo₀ := Int.emod_nonneg p.min.toInt (Int.ne_of_gt hgpos)
  have hlo₁ := Int.emod_lt_of_pos p.min.toInt hgpos
  have hmlt := modulus.toInt_lt
  have hlo : (p.min % g).toInt = p.min.toInt % g.toInt := by
    rw [Int64.toInt_mod, Int.tmod_eq_emod_of_nonneg (by omega)]
  have hsub : (modulus - g).toInt = modulus.toInt - g.toInt :=
    Word.toInt_sub (Word.inRange_of_natAbs (by omega))
  refine ⟨hlo, ?_⟩
  rw [Word.toInt_add (Word.inRange_of_natAbs (by omega)), hsub, hlo]

/-- The residues that agree with the lowest value modulo the common divisor of
    step and modulus, where the modulus is in reach. -/
theorem mem_periodBounds {M : Nat} (hp : p.Bounded M) (hmax : modulus.toInt ≤ p.max.toInt) :
    let g := Word.gcd p.step modulus
    let b : Bounds := ⟨p.min % g, modulus - g + p.min % g⟩
    b.Bounded M ∧ ∀ x ∈ p, x.tmod modulus.toInt ∈ b := by
  intro g b
  obtain ⟨hgpos, hgm, hgs⟩ :
      0 < g.toInt ∧ g.toInt ∣ modulus.toInt ∧ g.toInt ∣ p.step.toInt := gcd_step_dvd hpos
  obtain ⟨hlo, hhi⟩ : (p.min % g).toInt = p.min.toInt % g.toInt ∧
      (modulus - g + p.min % g).toInt = modulus.toInt - g.toInt + p.min.toInt % g.toInt :=
    toInt_periodBounds hmin hpos
  have hgle := Int.le_of_dvd hpos hgm
  have hlo₀ := Int.emod_nonneg p.min.toInt (Int.ne_of_gt hgpos)
  have hlo₁ := Int.emod_lt_of_pos p.min.toInt hgpos
  obtain ⟨hp₁, hp₂⟩ := hp
  refine ⟨⟨by change (p.min % g).toInt.natAbs ≤ M; omega,
    by change (modulus - g + p.min % g).toInt.natAbs ≤ M; omega⟩, fun x hx => ?_⟩
  have hx₁ := hx.1
  have hsplit : x.tmod modulus.toInt - p.min.toInt =
      (x.tmod modulus.toInt - x) + (x - p.min.toInt) := by omega
  have hdvd : g.toInt ∣ x.tmod modulus.toInt - p.min.toInt := by
    rw [hsplit]
    exact Int.dvd_add (Int.dvd_trans hgm Int.dvd_tmod_sub_self) (Int.dvd_trans hgs hx.2.2)
  rw [Bounds.mem_def, hlo, hhi]
  exact residue_bounds hgpos hgm (Int.tmod_nonneg _ (by omega)) (Int.tmod_lt_of_pos x hpos) hdvd

end Period

/-- All values of a positive progression are listed. -/
theorem mem_values_of_pos {p : Progression} (hmin : 0 < p.min.toInt) {v : Word} :
    v ∈ p.values ↔ v.toInt ∈ p := by
  have := p.max.toInt_lt
  exact Progression.mem_values (Progression.size_eq (by omega))

/-- The bounds for a positive progression and one modulus. -/
theorem mem_residueBounds {M : Nat} {p : Progression} (hp : p.Bounded M)
    (hmin : 0 < p.min.toInt) {modulus : Word} (hpos : 0 < modulus.toInt) {budget left : Nat}
    {b : Bounds} (h : residueBounds p modulus budget = some (b, left)) :
    b.Bounded M ∧ ∀ x ∈ p, x.tmod modulus.toInt ∈ b := by
  have hle (x : Int) (hx : x ∈ p) : (x.tmod modulus.toInt).natAbs ≤ M :=
    natAbs_le_of_between (hp.of_mem hx) (between_tmod _ _)
  unfold residueBounds at h
  split at h
  · rename_i hone
    cases h
    refine ⟨⟨Nat.zero_le M, Nat.zero_le M⟩, fun x _ => ?_⟩
    subst hone
    rw [show (1 : Word).toInt = 1 from rfl, Int.tmod_one]
    exact ⟨Int.le_refl _, Int.le_refl _⟩
  · split at h
    · rename_i hmax
      cases h
      have hmax := Int64.lt_iff_toInt_lt.1 hmax
      refine ⟨hp, fun x hx => ?_⟩
      have hx₁ := hx.1
      have hx₂ := hx.2.1
      rw [Int.tmod_eq_of_lt (by omega) (by omega)]
      exact ⟨hx₁, hx₂⟩
    · rename_i hmax
      split at h
      · rename_i hs
        cases h
        have hmod : (p.min % modulus).toInt.natAbs ≤ M := by
          rw [Int64.toInt_mod]
          exact hle _ p.min_mem
        refine ⟨⟨hmod, hmod⟩, fun x hx => ?_⟩
        rw [(Progression.mem_iff_of_isSingle hs).1 hx, Bounds.mem_def, Int64.toInt_mod]
        exact ⟨Int.le_refl _, Int.le_refl _⟩
      · simp only at h
        split at h
        · cases h
          rw [Int64.lt_iff_toInt_lt, Int.not_lt] at hmax
          exact mem_periodBounds hmin hpos hp hmax
        · split at h
          · cases h
          · obtain ⟨b', hb', hpair⟩ := Option.map_eq_some_iff.1 h
            cases hpair
            obtain ⟨hbb, hbx⟩ := mem_listedBounds (fun v hv =>
              hp.of_mem ((mem_values_of_pos hmin).1 hv)) hb'
            refine ⟨hbb, fun x hx => ?_⟩
            obtain ⟨v, rfl⟩ := Progression.exists_word_of_mem hx
            exact hbx v ((mem_values_of_pos hmin).2 hx)

/-! ## Probing -/

theorem negated_of_bounded {M : Nat} (hM : M < 0x8000000000000000) {p : Progression}
    (hp : p.Bounded M) :
    ∃ q, p.negated = .ok q ∧ q.Bounded M ∧ (p.max.toInt < 0 → 0 < q.min.toInt) ∧
      ∀ x, -x ∈ q ↔ x ∈ p := by
  have hle := p.toInt_min_le
  obtain ⟨hp₁, hp₂⟩ := hp
  obtain ⟨a, ha, haval⟩ := Word.exact_of_inRange (i := -p.max.toInt)
    (Word.inRange_of_natAbs (by omega))
  obtain ⟨b, hb, hbval⟩ := Word.exact_of_inRange (i := -p.min.toInt)
    (Word.inRange_of_natAbs (by omega))
  have hab : a ≤ b := Int64.le_iff_toInt_le.2 (by omega)
  refine ⟨.new a b p.step, ?_, Progression.bounded_new (by omega) (by omega) _, fun hneg => ?_,
    fun x => ?_⟩
  · simp only [Progression.negated, Word.exactNeg, ha, hb]
    rfl
  · have := (Progression.le_of_mem_new hab (Progression.new a b p.step).min_mem).1
    omega
  · rw [Progression.mem_new hab p.step_pos, Progression.mem_def]
    have hsplit : x - p.min.toInt = (p.max.toInt - p.min.toInt) - (-x - a.toInt) := by omega
    rw [hsplit, dvd_sub_right p.step_dvd]
    exact ⟨fun ⟨h₁, h₂, h₃⟩ => ⟨by omega, by omega, h₃⟩,
      fun ⟨h₁, h₂, h₃⟩ => ⟨by omega, by omega, h₃⟩⟩

/-- The parts of a set of dividends, all of magnitude at most `M`. -/
def Parts (M : Nat) (parts : List Progression) : Prop :=
  ∀ p ∈ parts, p.Bounded M ∧ (p.max.toInt < 0 ∨ 0 < p.min.toInt)

/-- The bounds found so far are small. -/
def Probe.Bounded (M : Nat) (s : Probe) : Prop := ∀ b, s.found = some b → b.Bounded M

/-- Within the bounds found so far, if any were found. -/
def Probe.Has (s : Probe) (x : Int) : Prop := ∃ b, s.found = some b ∧ x ∈ b

section Probing

variable {M : Nat} (hM : M < 0x8000000000000000)
include hM

theorem probePart_of_bounded {modulus : Word} (hpos : 0 < modulus.toInt) {s : Probe}
    (hs : s.Bounded M) {p : Progression} (hp : p.Bounded M)
    (hsign : p.max.toInt < 0 ∨ 0 < p.min.toInt) :
    ∃ s?, probePart modulus s p = .ok s? ∧ ∀ t, s? = some t → t.Bounded M ∧
      (∀ x, s.Has x → t.Has x) ∧ ∀ x ∈ p, t.Has (x.tmod modulus.toInt) := by
  -- what both signs have in common: bounds for this part widen those found so far
  have step {lo hi : Word} (left : Nat) (hlo : lo.toInt.natAbs ≤ M) (hhi : hi.toInt.natAbs ≤ M)
      (hx : ∀ x ∈ p, lo.toInt ≤ x.tmod modulus.toInt ∧ x.tmod modulus.toInt ≤ hi.toInt) :
      let t : Probe := ⟨some (Bounds.widen s.found lo hi), left⟩
      t.Bounded M ∧ (∀ x, s.Has x → t.Has x) ∧ ∀ x ∈ p, t.Has (x.tmod modulus.toInt) := by
    refine ⟨?_, ?_, fun x hxp => ⟨_, rfl, Bounds.mem_widen_of_le _ (hx x hxp).1 (hx x hxp).2⟩⟩
    · rintro b hb
      cases hb
      exact Bounds.bounded_widen hs hlo hhi
    · rintro x ⟨b, hb, hxb⟩
      rw [hb]
      exact ⟨_, rfl, Bounds.mem_widen_of_mem hxb lo hi⟩
  unfold probePart
  split
  · rename_i hmax
    obtain ⟨q, hq, hqb, hqmin, hqx⟩ := negated_of_bounded hM hp
    have hneg : p.max.toInt < 0 := Int64.lt_iff_toInt_lt.1 hmax
    rw [hq]
    refine ⟨_, rfl, fun t ht => ?_⟩
    obtain ⟨⟨b, left⟩, hb, rfl⟩ := Option.map_eq_some_iff.1 ht
    obtain ⟨hbb, hbx⟩ := mem_residueBounds hqb (hqmin hneg) hpos hb
    obtain ⟨hlo, hhi⟩ := hbb
    have hnlo := Word.toInt_neg (a := b.lo) (Word.ne_minValue (by omega))
    have hnhi := Word.toInt_neg (a := b.hi) (Word.ne_minValue (by omega))
    refine step left (by omega) (by omega) fun x hx => ?_
    obtain ⟨h₁, h₂⟩ := hbx (-x) ((hqx x).2 hx)
    rw [Int.neg_tmod] at h₁ h₂
    exact ⟨by omega, by omega⟩
  · rename_i hmax
    refine ⟨_, rfl, fun t ht => ?_⟩
    obtain ⟨⟨b, left⟩, hb, rfl⟩ := Option.map_eq_some_iff.1 ht
    have hmin : 0 < p.min.toInt := hsign.resolve_left fun h => hmax (Int64.lt_iff_toInt_lt.2 h)
    obtain ⟨hbb, hbx⟩ := mem_residueBounds hp hmin hpos hb
    exact step left hbb.1 hbb.2 hbx

theorem probeParts_of_bounded {modulus : Word} (hpos : 0 < modulus.toInt)
    {parts : List Progression} (hparts : Parts M parts) {s : Probe} (hs : s.Bounded M) :
    ∃ s?, probeParts modulus parts s = .ok s? ∧ ∀ t, s? = some t → t.Bounded M ∧
      (∀ x, s.Has x → t.Has x) ∧ ∀ x, Covers parts x → t.Has (x.tmod modulus.toInt) := by
  induction parts generalizing s with
  | nil =>
    refine ⟨some s, rfl, ?_⟩
    rintro t ⟨⟩
    exact ⟨hs, fun x hx => hx, fun x ⟨p, hp, _⟩ => absurd hp List.not_mem_nil⟩
  | cons p ps ih =>
    obtain ⟨hpb, hsign⟩ := hparts p List.mem_cons_self
    obtain ⟨s?, hs?, h⟩ := probePart_of_bounded hM hpos hs hpb hsign
    unfold probeParts
    rw [hs?]
    cases s? with
    | none => exact ⟨none, rfl, nofun⟩
    | some s₁ =>
      obtain ⟨hb₁, hmono₁, hx₁⟩ := h s₁ rfl
      obtain ⟨t?, ht?, ht⟩ := ih (fun q hq => hparts q (List.mem_cons_of_mem _ hq)) hb₁
      refine ⟨t?, ht?, fun t h => ?_⟩
      obtain ⟨hb₂, hmono₂, hx₂⟩ := ht t h
      refine ⟨hb₂, fun x hx => hmono₂ x (hmono₁ x hx), fun x hx => ?_⟩
      rcases covers_cons.1 hx with hx | hx
      · exact hmono₂ _ (hx₁ x hx)
      · exact hx₂ x hx

/-- Bounds found by probing are the outer ones, or hold for what they held
    before and for every remainder. -/
theorem probe_of_bounded (outer : Bounds) {parts : List Progression} (hparts : Parts M parts)
    {moduli : List Word} (hpos : ∀ m ∈ moduli, 0 < m.toInt) {s : Probe} (hs : s.Bounded M) :
    ∃ b?, probe outer parts moduli s = .ok b? ∧ ∀ b, b? = some b → b = outer ∨ b.Bounded M ∧
      (∀ x, s.Has x → x ∈ b) ∧ ∀ m ∈ moduli, ∀ x, Covers parts x → x.tmod m.toInt ∈ b := by
  induction moduli generalizing s with
  | nil =>
    refine ⟨s.found, rfl, fun b hb => .inr ⟨hs b hb, ?_, by simp⟩⟩
    rintro x ⟨b', hb', hx⟩
    obtain rfl : b' = b := Option.some.inj (hb'.symm.trans hb)
    exact hx
  | cons modulus moduli ih =>
    obtain ⟨s?, hs?, h⟩ := probeParts_of_bounded hM (hpos modulus List.mem_cons_self) hparts hs
    unfold probe
    rw [hs?]
    cases s? with
    | none => exact ⟨none, rfl, nofun⟩
    | some s₁ =>
      obtain ⟨hb₁, hmono₁, hx₁⟩ := h s₁ rfl
      simp only [bind, Except.bind, pure, Except.pure]
      split
      · rename_i heq
        exact ⟨s₁.found, rfl, fun b hb => .inl (Option.some.inj (hb.symm.trans heq))⟩
      · obtain ⟨b?, hb?, hb⟩ := ih (fun m hm => hpos m (List.mem_cons_of_mem _ hm)) hb₁
        refine ⟨b?, hb?, fun b h => (hb b h).imp_right ?_⟩
        rintro ⟨hbb, hmono₂, hx₂⟩
        refine ⟨hbb, fun x hx => hmono₂ x (hmono₁ x hx), fun m hm x hx => ?_⟩
        rcases List.mem_cons.1 hm with rfl | hm
        · exact hmono₂ _ (hx₁ x hx)
        · exact hx₂ m hm x hx

end Probing

/-! ## The range of remainders -/

theorem parts_signParts {M : Nat} {r : Range} (hr : r.Bounded M) :
    Parts M (r.signParts.negative ++ r.signParts.positive) := by
  intro p hp
  rcases List.mem_append.1 hp with hp | hp
  · exact ⟨bounded_signParts hr (.inl hp), .inl (max_neg_of_mem_signParts hp)⟩
  · exact ⟨bounded_signParts hr (.inr hp), .inr (min_pos_of_mem_signParts hp)⟩

/-- The remainder does not depend on the sign of the divisor. -/
theorem tmod_natAbs (x y : Int) : x.tmod y.natAbs = x.tmod y := by
  rcases Int.natAbs_eq y with h | h
  · rw [← h]
  · rw [← Int.tmod_neg x (y.natAbs : Int), ← h]

section Moduli

variable {divisors : Range} (hsize : divisors.size ≤ probeBudget)
include hsize

/-- The moduli of divisors that are few enough to be listed are their
    magnitudes, where the highest word stands for `2^63`. -/
theorem mem_moduli {m : Word} :
    m ∈ ((divisors.values.map Word.satAbs).mergeSort fun a b => b ≤ a).eraseReps ↔
      ∃ y : Int, y ∈ divisors ∧ m.toInt = min y.natAbs 0x7fffffffffffffff := by
  have hlisted {v : Word} : v ∈ divisors.values ↔ v.toInt ∈ divisors :=
    mem_values_of_size (Nat.lt_of_le_of_lt hsize (by decide))
  rw [mem_sortDistinct, List.mem_map]
  constructor
  · rintro ⟨v, hv, rfl⟩
    exact ⟨_, hlisted.1 hv, Word.toInt_satAbs_eq_min v⟩
  · rintro ⟨y, hy, hm⟩
    obtain ⟨v, rfl⟩ := exists_word_of_mem hy
    exact ⟨v, hlisted.2 hy, Word.eq_of_toInt_eq ((Word.toInt_satAbs_eq_min v).trans hm.symm)⟩

theorem moduli_pos (hne : ∀ y : Int, y ∈ divisors → y ≠ 0) :
    ∀ m ∈ ((divisors.values.map Word.satAbs).mergeSort fun a b => b ≤ a).eraseReps,
      0 < m.toInt := by
  intro m hm
  obtain ⟨y, hy, hval⟩ := (mem_moduli hsize).1 hm
  have := hne y hy
  omega

theorem exists_modulus {y : Int} (hy : y ∈ divisors) :
    ∃ m ∈ ((divisors.values.map Word.satAbs).mergeSort fun a b => b ≤ a).eraseReps,
      m.toInt = min y.natAbs 0x7fffffffffffffff := by
  obtain ⟨v, rfl⟩ := exists_word_of_mem hy
  exact ⟨_, (mem_moduli hsize).2 ⟨_, hy, Word.toInt_satAbs_eq_min v⟩, Word.toInt_satAbs_eq_min v⟩

end Moduli

/-- No word but the highest and its opposite tells the lowest divisor from the
    highest modulus. -/
theorem tmod_modulus {x y : Int} {m : Word} (hm : m.toInt = min y.natAbs 0x7fffffffffffffff)
    (h : y.natAbs < 0x8000000000000000 ∨ x.natAbs < 0x7fffffffffffffff) :
    x.tmod y = x.tmod m.toInt := by
  by_cases hy : y.natAbs < 0x8000000000000000
  · rw [hm, Nat.min_eq_left (by omega), tmod_natAbs]
  · rw [Division.tmod_eq_self_of_natAbs_lt (by omega),
      Division.tmod_eq_self_of_natAbs_lt (by omega)]

section Remainder

variable {M : Nat} {r divisors : Range} (hr : r.Bounded M)
  (hne : ∀ y : Int, y ∈ divisors → y ≠ 0) (hsome : ∃ y : Int, y ∈ divisors)
include hr hne hsome

/-- The bounds from the extremes hold for every remainder by a divisor. -/
theorem mem_outerBounds_magnitude :
    (outerBounds r.signParts (Word.clamp (largestMagnitude divisors - 1)) = none →
      ∀ x : Int, ¬ x ∈ r) ∧
    ∀ outer, outerBounds r.signParts (Word.clamp (largestMagnitude divisors - 1)) = some outer →
      outer.Bounded M ∧ ∀ x y : Int, x ∈ r → y ∈ divisors → x.tmod y ∈ outer := by
  obtain ⟨y₀, hy₀⟩ := hsome
  have hpos := le_largestMagnitude hy₀
  have hy₀0 := hne y₀ hy₀
  have hsmall : largestMagnitude divisors ≤ 0x8000000000000000 :=
    largestMagnitude_le fun _ _ => ⟨Word.natAbs_toInt_le _, Word.natAbs_toInt_le _⟩
  have hval : (Word.clamp (largestMagnitude divisors - 1)).toInt =
      (largestMagnitude divisors - 1 : Int) :=
    Word.clamp_of_inRange (Word.inRange_of_natAbs (by omega))
  have hmag : 0 ≤ (Word.clamp (largestMagnitude divisors - 1)).toInt := by omega
  obtain ⟨hnone, hb⟩ := mem_outerBounds hr hmag
  refine ⟨hnone, fun outer houter => ?_⟩
  obtain ⟨hbounded, hmem⟩ := hb outer houter
  refine ⟨hbounded, fun x y hx hy => ?_⟩
  have hlarge := le_largestMagnitude hy
  have hlt := natAbs_tmod_lt x (hne y hy)
  exact hmem x _ hx (between_tmod x y) (by omega)

/-- Divisors that are too many to be listed cause no search.  For others no
    dividend may be the lowest word, and none the highest or its opposite if
    the lowest word is a divisor. -/
theorem mem_remainderOfParts (hlist : divisors.size ≤ probeBudget → M < 0x8000000000000000 ∧
      ∀ x y : Int, x ∈ r → y ∈ divisors →
        y.natAbs < 0x8000000000000000 ∨ x.natAbs < 0x7fffffffffffffff) :
    ∃ t, remainderOfParts r.signParts divisors = .ok t ∧ t.Bounded M ∧
      ∀ x y : Int, x ∈ r → y ∈ divisors → x.tmod y ∈ t := by
  obtain ⟨hnone, houter⟩ := mem_outerBounds_magnitude hr hne hsome
  have toRange {b : Bounds} (hb : b.Bounded M)
      (hx : ∀ x y : Int, x ∈ r → y ∈ divisors → x.tmod y ∈ b) :
      b.toRange.Bounded M ∧ ∀ x y : Int, x ∈ r → y ∈ divisors → x.tmod y ∈ b.toRange :=
    ⟨Bounds.bounded_toRange hb, fun x y hxr hyd => Bounds.mem_toRange (hx x y hxr hyd)⟩
  unfold remainderOfParts
  split
  · rename_i h
    exact ⟨empty, rfl, bounded_empty M, fun x _ hx _ => absurd hx (hnone h x)⟩
  · rename_i outer h
    obtain ⟨hob, hox⟩ := houter outer h
    split
    · exact ⟨_, rfl, toRange hob hox⟩
    · rename_i hsize
      have hsize := Nat.not_lt.1 hsize
      obtain ⟨hM, hlow⟩ := hlist hsize
      have hstart : Probe.Bounded M ⟨if r.signParts.hasZero then some ⟨0, 0⟩ else none,
          probeBudget - divisors.size⟩ := by
        intro b hb
        simp only at hb
        split at hb
        · cases hb
          exact ⟨Nat.zero_le M, Nat.zero_le M⟩
        · cases hb
      obtain ⟨found, hfound, hbounds⟩ :=
        probe_of_bounded hM outer (parts_signParts hr) (moduli_pos hsize hne) hstart
      simp only [hfound]
      refine ⟨_, rfl, ?_⟩
      cases found with
      | none => exact toRange hob hox
      | some b =>
        rcases hbounds b rfl with rfl | ⟨hbb, hzero, hx⟩
        · exact toRange hob hox
        · refine toRange hbb fun x y hxr hyd => ?_
          obtain ⟨m, hm, hval⟩ := exists_modulus hsize hyd
          rw [tmod_modulus hval (hlow x y hxr hyd)]
          rcases Int.lt_trichotomy x 0 with hneg | rfl | hpos
          · refine hx _ hm x (covers_append.2 (.inl ?_))
            exact mem_signParts_negative.2 ⟨hxr, hneg⟩
          · rw [Int.zero_tmod]
            refine hzero 0 ⟨⟨0, 0⟩, ?_, Int.le_refl _, Int.le_refl _⟩
            exact if_pos (signParts_hasZero.2 hxr)
          · refine hx _ hm x (covers_append.2 (.inr ?_))
            exact mem_signParts_positive.2 ⟨hxr, hpos⟩

end Remainder

/-- The range of remainders, where the divisors without zero are known. -/
theorem mem_remainder {M : Nat} {r s divisors : Range} (hd : s.withoutZero = .ok divisors)
    (hdx : ∀ y : Int, y ∈ divisors ↔ y ∈ s ∧ y ≠ 0) (hr : r.Bounded M)
    (h : ¬ divisors.isEmpty = true →
      (∀ a b, r.singleValue? = some a → divisors.singleValue? = some b → False) →
      divisors.size ≤ probeBudget → M < 0x8000000000000000 ∧
        ∀ x y : Int, x ∈ r → y ∈ divisors →
          y.natAbs < 0x8000000000000000 ∨ x.natAbs < 0x7fffffffffffffff) :
    ∃ t, r.remainder s = .ok t ∧ t.Bounded M ∧
      ∀ x y : Int, x ∈ r → y ∈ s → y ≠ 0 → x.tmod y ∈ t := by
  unfold remainder
  simp only [hd, bind, Except.bind, pure, Except.pure]
  split
  · rename_i hempty
    refine ⟨empty, rfl, bounded_empty M, fun x y hx hy hy0 => ?_⟩
    rcases Bool.or_eq_true_iff.1 hempty with hempty | hempty
    · exact absurd hx (isEmpty_iff.1 hempty x)
    · exact absurd ((hdx y).2 ⟨hy, hy0⟩) (isEmpty_iff.1 hempty y)
  · rename_i hempty
    split
    · rename_i a b ha hb
      obtain ⟨ha, hax⟩ := eq_of_singleValue? ha
      obtain ⟨-, hbx⟩ := eq_of_singleValue? hb
      refine ⟨_, rfl, bounded_single ?_, fun x y hx hy hy0 => ?_⟩
      · rw [Int64.toInt_mod]
        exact natAbs_le_of_between (hr.of_mem ha) (between_tmod _ _)
      · rw [mem_single, Int64.toInt_mod, hax x hx, hbx y ((hdx y).2 ⟨hy, hy0⟩)]
    · rename_i hseveral
      have hdempty : ¬ divisors.isEmpty = true := fun h => hempty (Bool.or_eq_true_iff.2 (.inr h))
      obtain ⟨t, ht, htb, htx⟩ := mem_remainderOfParts hr (fun y hy => ((hdx y).1 hy).2)
        (exists_mem_of_not_isEmpty hdempty) (h hdempty hseveral)
      exact ⟨t, ht, htb, fun x y hx hy hy0 => htx x y hx ((hdx y).2 ⟨hy, hy0⟩)⟩

/-- The range of remainders by the non-zero divisors. -/
theorem remainder_of_bounded {M N : Nat} (hM : M < Word.halfBound) (hN : N < Word.halfBound)
    {r s : Range} (hr : r.Bounded M) (hs : s.Bounded N) :
    ∃ t, r.remainder s = .ok t ∧ t.Bounded M ∧
      ∀ x y : Int, x ∈ r → y ∈ s → y ≠ 0 → x.tmod y ∈ t := by
  obtain ⟨divisors, hd, hdb, hdx⟩ := withoutZero_of_bounded hN hs
  unfold Word.halfBound at hM hN
  refine mem_remainder hd hdx hr fun _ _ _ => ⟨by omega, fun x y _ hy => .inl ?_⟩
  exact Nat.lt_of_le_of_lt (hdb.of_mem hy) (by omega)

end InputSolver.Range
