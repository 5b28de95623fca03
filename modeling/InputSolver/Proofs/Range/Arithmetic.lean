/-
  InputSolver — sums, products and quotients of ranges.

  `Operation.Sound` says what an operator on words must satisfy to contain
  every result of an operation on integers, for operands limited in
  magnitude; `combine_of_sound` carries this over to ranges.

  * `sum_of_bounded`, `product_of_bounded`, `quotient_of_bounded`: the ranges
    of sums, products and quotients exist, have every result as a value, and
    stay within the magnitude that the operands allow.
-/
import InputSolver.Proofs.Range.Sets
import InputSolver.Range.Arithmetic

namespace InputSolver.Range

/-- An operator on words agrees with the operation `f` on integers, for
    operands of magnitude at most `M` and `N`; its results have magnitude at
    most `K`. -/
structure Operation.Sound (op : Operation) (f : Int → Int → Int) (M N K : Nat) : Prop where
  value {a b : Word} : a.toInt.natAbs ≤ M → b.toInt.natAbs ≤ N →
    (op.value a b).toInt = f a.toInt b.toInt
  bound {x y : Int} : x.natAbs ≤ M → y.natAbs ≤ N → (f x y).natAbs ≤ K
  known {p q r : Progression} : p.Bounded M → q.Bounded N → op.known? p q = some r →
    r.Bounded K ∧ ∀ x ∈ p, ∀ y ∈ q, f x y ∈ r
  hull {p q : Progression} : p.Bounded M → q.Bounded N →
    (op.hull p q).Bounded K ∧ ∀ x ∈ p, ∀ y ∈ q, f x y ∈ op.hull p q

/-! ## All pairs of members -/

/-- The results of a function that does not fault on the elements of a list. -/
theorem mapM_of_forall {α β : Type} {f : α → Except Fault β} {R : α → β → Prop} {as : List α}
    (h : ∀ a ∈ as, ∃ b, f a = .ok b ∧ R a b) :
    ∃ bs, as.mapM f = .ok bs ∧ (∀ b ∈ bs, ∃ a ∈ as, R a b) ∧ ∀ a ∈ as, ∃ b ∈ bs, R a b := by
  induction as with
  | nil => exact ⟨[], rfl, by simp, by simp⟩
  | cons a as ih =>
    obtain ⟨b, hb, hab⟩ := h a List.mem_cons_self
    obtain ⟨bs, hbs, h₁, h₂⟩ := ih fun c hc => h c (List.mem_cons_of_mem _ hc)
    refine ⟨b :: bs, by rw [List.mapM_cons, hb, hbs]; rfl, ?_, ?_⟩
    · intro c hc
      rcases List.mem_cons.1 hc with rfl | hc
      · exact ⟨a, List.mem_cons_self, hab⟩
      · obtain ⟨d, hd, hdc⟩ := h₁ c hc
        exact ⟨d, List.mem_cons_of_mem _ hd, hdc⟩
    · intro c hc
      rcases List.mem_cons.1 hc with rfl | hc
      · exact ⟨b, List.mem_cons_self, hab⟩
      · obtain ⟨d, hd, hdc⟩ := h₂ c hc
        exact ⟨d, List.mem_cons_of_mem _ hd, hdc⟩

section Combine

variable {op : Operation} {f : Int → Int → Int} {M N K : Nat} (h : op.Sound f M N K)
  (hM : M < Word.halfBound) (hN : N < Word.halfBound) (hK : K < Word.halfBound)
include h hM hN hK

omit hM hN in
/-- The results listed for all pairs of values from two lists. -/
theorem ofValues_pairValues {as bs : List Word} (has : ∀ a ∈ as, a.toInt.natAbs ≤ M)
    (hbs : ∀ b ∈ bs, b.toInt.natAbs ≤ N) :
    ∃ r, ofValues (pairValues op.value as bs) = .ok r ∧ r.Bounded K ∧
      ∀ a ∈ as, ∀ b ∈ bs, f a.toInt b.toInt ∈ r := by
  have hvalues : ∀ v ∈ pairValues op.value as bs, v.toInt.natAbs ≤ K := by
    intro v hv
    obtain ⟨a, ha, hv⟩ := List.mem_flatMap.1 hv
    obtain ⟨b, hb, rfl⟩ := List.mem_map.1 hv
    rw [h.value (has a ha) (hbs b hb)]
    exact h.bound (has a ha) (hbs b hb)
  obtain ⟨r, hr, hrb, hrx⟩ := ofValues_of_bounded hK hvalues
  refine ⟨r, hr, hrb, fun a ha b hb => ?_⟩
  rw [← h.value (has a ha) (hbs b hb), hrx]
  exact ⟨_, List.mem_flatMap.2 ⟨a, ha, List.mem_map.2 ⟨b, hb, rfl⟩⟩, rfl⟩

/-- The results for one pair of members. -/
theorem combinePair_of_sound {p q : Progression} (hp : p.Bounded M) (hq : q.Bounded N) :
    ∃ ps, combinePair op p q = .ok ps ∧ (∀ r ∈ ps, r.Bounded K) ∧
      ∀ x ∈ p, ∀ y ∈ q, Covers ps (f x y) := by
  unfold combinePair
  split
  · rename_i r hr
    obtain ⟨hb, hx⟩ := h.known hp hq hr
    refine ⟨[r], rfl, ?_, fun x hxp y hyq => ⟨r, List.mem_singleton.2 rfl, hx x hxp y hyq⟩⟩
    rintro r' hr'
    obtain rfl := List.mem_singleton.1 hr'
    exact hb
  · split
    · obtain ⟨r, hr, hb, hx⟩ := ofValues_pairValues h hK
        (fun a ha => hp.of_mem ((Progression.mem_values_of_bounded hM hp).1 ha))
        (fun b hb => hq.of_mem ((Progression.mem_values_of_bounded hN hq).1 hb))
      refine ⟨r.members, by rw [hr]; rfl, hb, fun x hxp y hyq => ?_⟩
      obtain ⟨a, ha, rfl⟩ := Progression.exists_mem_values hM hp hxp
      obtain ⟨b, hb, rfl⟩ := Progression.exists_mem_values hN hq hyq
      exact hx a ha b hb
    · obtain ⟨hb, hx⟩ := h.hull hp hq
      refine ⟨_, rfl, ?_, fun x hxp y hyq => ⟨_, List.mem_singleton.2 rfl, hx x hxp y hyq⟩⟩
      rintro r hr
      obtain rfl := List.mem_singleton.1 hr
      exact hb

/-- The results for all pairs of members. -/
theorem combineMembers_of_sound {r s : Range} (hr : r.Bounded M) (hs : s.Bounded N) :
    ∃ parts, (r.members.mapM fun p => s.members.mapM fun q => combinePair op p q) = .ok parts ∧
      (∀ t ∈ parts.flatten.flatten, t.Bounded K) ∧
      ∀ x y : Int, x ∈ r → y ∈ s → Covers parts.flatten.flatten (f x y) := by
  have hmember : ∀ p ∈ r.members, ∃ pss,
      (s.members.mapM fun q => combinePair op p q) = .ok pss ∧
        (∀ ps ∈ pss, ∀ t ∈ ps, t.Bounded K) ∧
        ∀ x ∈ p, ∀ y : Int, y ∈ s → ∃ ps ∈ pss, Covers ps (f x y) := by
    intro p hp
    obtain ⟨pss, hpss, hb, hx⟩ := mapM_of_forall
      fun q hq => combinePair_of_sound h hM hN hK (hr p hp) (hs q hq)
    refine ⟨pss, hpss, fun ps hps => ?_, fun x hx' y ⟨q, hq, hy⟩ => ?_⟩
    · obtain ⟨q, -, hb', -⟩ := hb ps hps
      exact hb'
    · obtain ⟨ps, hps, -, hcovers⟩ := hx q hq
      exact ⟨ps, hps, hcovers x hx' y hy⟩
  obtain ⟨parts, hparts, hb, hx⟩ := mapM_of_forall hmember
  refine ⟨parts, hparts, fun t ht => ?_, fun x y ⟨p, hp, hxp⟩ hy => ?_⟩
  · obtain ⟨ps, hps, ht⟩ := List.mem_flatten.1 ht
    obtain ⟨pss, hpss, hps⟩ := List.mem_flatten.1 hps
    obtain ⟨p, -, hb', -⟩ := hb pss hpss
    exact hb' ps hps t ht
  · obtain ⟨pss, hpss, -, hcovers⟩ := hx p hp
    obtain ⟨ps, hps, u, hu, hmem⟩ := hcovers x hxp y hy
    exact ⟨u, List.mem_flatten.2 ⟨ps, List.mem_flatten.2 ⟨pss, hpss, hps⟩, hu⟩, hmem⟩

omit hK in
/-- The hulls of the results for all pairs of sign hulls. -/
theorem combineHulls_of_sound {r s : Range} (hr : r.Bounded M) (hs : s.Bounded N) :
    (∀ t ∈ r.signHulls.flatMap fun p => s.signHulls.map fun q => op.hull p q, t.Bounded K) ∧
      ∀ x y : Int, x ∈ r → y ∈ s →
        Covers (r.signHulls.flatMap fun p => s.signHulls.map fun q => op.hull p q) (f x y) := by
  obtain ⟨hrb, hrx⟩ := mem_signHulls hM hr
  obtain ⟨hsb, hsx⟩ := mem_signHulls hN hs
  refine ⟨fun t ht => ?_, fun x y hx hy => ?_⟩
  · obtain ⟨p, hp, ht⟩ := List.mem_flatMap.1 ht
    obtain ⟨q, hq, rfl⟩ := List.mem_map.1 ht
    exact (h.hull (hrb p hp) (hsb q hq)).1
  · obtain ⟨p, hp, hxp⟩ := hrx x hx
    obtain ⟨q, hq, hyq⟩ := hsx y hy
    exact ⟨_, List.mem_flatMap.2 ⟨p, hp, List.mem_map.2 ⟨q, hq, rfl⟩⟩,
      (h.hull (hrb p hp) (hsb q hq)).2 x hxp y hyq⟩

/-- A range with every result for operands drawn from two ranges. -/
theorem combine_of_sound {r s : Range} (hr : r.Bounded M) (hs : s.Bounded N) :
    ∃ t, combine op r s = .ok t ∧ t.Bounded K ∧ ∀ x y : Int, x ∈ r → y ∈ s → f x y ∈ t := by
  unfold combine
  split
  · rename_i hempty
    refine ⟨empty, rfl, bounded_empty K, fun x y hx hy => ?_⟩
    rcases Bool.or_eq_true_iff.1 hempty with hempty | hempty
    · exact absurd hx (isEmpty_iff.1 hempty x)
    · exact absurd hy (isEmpty_iff.1 hempty y)
  · split
    · obtain ⟨parts, hparts, hb, hx⟩ := combineMembers_of_sound h hM hN hK hr hs
      obtain ⟨t, ht, htb, htx⟩ := ofProgressions_of_bounded hK hb
      exact ⟨t, by rw [hparts]; exact ht, htb, fun x y hxr hys => (htx _).2 (hx x y hxr hys)⟩
    · split
      · obtain ⟨t, ht, hb, hx⟩ := ofValues_pairValues h hK
          (fun a ha => hr.of_mem ((mem_values_of_bounded hM hr).1 ha))
          (fun b hb => hs.of_mem ((mem_values_of_bounded hN hs).1 hb))
        refine ⟨t, ht, hb, fun x y hxr hys => ?_⟩
        obtain ⟨a, ha, rfl⟩ := exists_mem_values hM hr hxr
        obtain ⟨b, hb, rfl⟩ := exists_mem_values hN hs hys
        exact hx a ha b hb
      · obtain ⟨hb, hx⟩ := combineHulls_of_sound h hM hN hr hs
        obtain ⟨htb, htx⟩ := hull?_toList_of_bounded hK hb
        exact ⟨_, rfl, htb, fun x y hxr hys => htx _ (hx x y hxr hys)⟩

end Combine

/-! ## Sums -/

/-- Words of small magnitude add up without wrapping around. -/
theorem inRange_add {M N : Nat} (hK : M + N < Word.halfBound) {x y : Int} (hx : x.natAbs ≤ M)
    (hy : y.natAbs ≤ N) : Word.InRange (x + y) := by
  unfold Word.halfBound at hK
  exact Word.inRange_of_natAbs (by omega)

theorem sumOperation_sound {M N : Nat} (hK : M + N < Word.halfBound) :
    sumOperation.Sound (· + ·) M N (M + N) := by
  have toInt_bounds {p q : Progression} (hp : p.Bounded M) (hq : q.Bounded N) :
      (Word.satAdd p.min q.min).toInt = p.min.toInt + q.min.toInt ∧
        (Word.satAdd p.max q.max).toInt = p.max.toInt + q.max.toInt :=
    ⟨Word.toInt_satAdd (inRange_add hK hp.1 hq.1), Word.toInt_satAdd (inRange_add hK hp.2 hq.2)⟩
  have bounded {p q : Progression} (hp : p.Bounded M) (hq : q.Bounded N) (d : Word) :
      (Progression.new (Word.satAdd p.min q.min) (Word.satAdd p.max q.max) d).Bounded (M + N) := by
    obtain ⟨hlo, hhi⟩ := toInt_bounds hp hq
    obtain ⟨hp₁, hp₂⟩ := hp
    obtain ⟨hq₁, hq₂⟩ := hq
    exact Progression.bounded_new (by omega) (by omega) d
  -- a step suits the sums if it suits both operands
  have mem {p q : Progression} (hp : p.Bounded M) (hq : q.Bounded N) {d : Word} {x y : Int}
      (hx : x ∈ p) (hy : y ∈ q) (hdx : d.toInt ∣ x - p.min.toInt)
      (hdy : d.toInt ∣ y - q.min.toInt) :
      x + y ∈ Progression.new (Word.satAdd p.min q.min) (Word.satAdd p.max q.max) d := by
    obtain ⟨hlo, hhi⟩ := toInt_bounds hp hq
    obtain ⟨hx₁, hx₂, -⟩ := hx
    obtain ⟨hy₁, hy₂, -⟩ := hy
    refine Progression.mem_new_of_dvd (by omega) (by omega) ?_
    have hsum : x + y - (Word.satAdd p.min q.min).toInt =
        (x - p.min.toInt) + (y - q.min.toInt) := by omega
    rw [hsum]
    exact Int.dvd_add hdx hdy
  constructor
  case value =>
    intro a b ha hb
    exact Word.toInt_add (inRange_add hK ha hb)
  case bound =>
    intro x y hx hy
    omega
  case known =>
    intro p q r hp hq hr
    simp only [sumOperation] at hr
    split at hr
    · rename_i hs
      cases hr
      refine ⟨bounded hp hq _, fun x hx y hy => mem hp hq hx hy ?_ hy.2.2⟩
      rw [(Progression.mem_iff_of_isSingle hs).1 hx, Int.sub_self]
      exact Int.dvd_zero _
    · split at hr
      · rename_i hs
        cases hr
        refine ⟨bounded hp hq _, fun x hx y hy => mem hp hq hx hy hx.2.2 ?_⟩
        rw [(Progression.mem_iff_of_isSingle hs).1 hy, Int.sub_self]
        exact Int.dvd_zero _
      · split at hr
        · rename_i heq
          cases hr
          exact ⟨bounded hp hq _, fun x hx y hy => mem hp hq hx hy hx.2.2 (heq ▸ hy.2.2)⟩
        · cases hr
  case hull =>
    intro p q hp hq
    have hgcd : (Word.gcd p.stride q.stride).toInt = Int.gcd p.stride.toInt q.stride.toInt := by
      have hps := p.toInt_stride_nonneg
      have hqs := q.toInt_stride_nonneg
      have hpl := p.stride.toInt_lt
      have hql := q.stride.toInt_lt
      exact Word.toInt_gcd (Word.gcd_lt (by omega) (by omega))
    refine ⟨bounded hp hq _, fun x hx y hy => mem hp hq hx hy ?_ ?_⟩
    · rw [hgcd]
      exact Int.dvd_trans (Int.gcd_dvd_left ..) (Progression.stride_dvd hx)
    · rw [hgcd]
      exact Int.dvd_trans (Int.gcd_dvd_right ..) (Progression.stride_dvd hy)

/-- The range of sums. -/
theorem sum_of_bounded {M N : Nat} (hK : M + N < Word.halfBound) {r s : Range}
    (hr : r.Bounded M) (hs : s.Bounded N) :
    ∃ t, r.sum s = .ok t ∧ t.Bounded (M + N) ∧ ∀ x y : Int, x ∈ r → y ∈ s → x + y ∈ t :=
  combine_of_sound (sumOperation_sound hK) (by omega) (by omega) hK hr hs

/-! ## Corners -/

/-- `w` lies between `u` and `v`, in either order. -/
def Between (u v w : Int) : Prop := u ≤ w ∧ w ≤ v ∨ v ≤ w ∧ w ≤ u

/-- The corner hull has every value between the corners. -/
theorem mem_cornerHull {a b c d : Word} {u v x : Int} (hu : Between a.toInt b.toInt u)
    (hv : Between c.toInt d.toInt v) (hx : Between u v x) : x ∈ cornerHull a b c d := by
  unfold Between at hu hv hx
  unfold cornerHull
  refine Progression.mem_new_one ?_ ?_
  · simp only [Int64.lt_iff_toInt_lt, apply_ite Int64.toInt]
    split <;> split <;> split <;> omega
  · simp only [Int64.lt_iff_toInt_lt, apply_ite Int64.toInt]
    split <;> split <;> split <;> omega

theorem bounded_cornerHull {K : Nat} {a b c d : Word} (ha : a.toInt.natAbs ≤ K)
    (hb : b.toInt.natAbs ≤ K) (hc : c.toInt.natAbs ≤ K) (hd : d.toInt.natAbs ≤ K) :
    (cornerHull a b c d).Bounded K := by
  have pick (P : Prop) [Decidable P] {x y : Word} (hx : x.toInt.natAbs ≤ K)
      (hy : y.toInt.natAbs ≤ K) : (if P then x else y).toInt.natAbs ≤ K := by
    split <;> assumption
  exact Progression.bounded_new (pick _ (pick _ hd hc) (pick _ hb ha))
    (pick _ (pick _ hd hc) (pick _ hb ha)) 1

/-! ## Products -/

/-- Products have at most the product of the magnitudes. -/
theorem natAbs_mul_le {M N : Nat} {x y : Int} (hx : x.natAbs ≤ M) (hy : y.natAbs ≤ N) :
    (x * y).natAbs ≤ M * N := by
  rw [Int.natAbs_mul]
  exact Nat.mul_le_mul hx hy

theorem between_mul_right {a b x : Int} (hax : a ≤ x) (hxb : x ≤ b) (y : Int) :
    Between (a * y) (b * y) (x * y) := by
  rcases Int.le_total 0 y with hy | hy
  · exact .inl ⟨Int.mul_le_mul_of_nonneg_right hax hy, Int.mul_le_mul_of_nonneg_right hxb hy⟩
  · exact .inr ⟨Int.mul_le_mul_of_nonpos_right hxb hy, Int.mul_le_mul_of_nonpos_right hax hy⟩

theorem between_mul_left {c d y : Int} (hcy : c ≤ y) (hyd : y ≤ d) (x : Int) :
    Between (x * c) (x * d) (x * y) := by
  rw [Int.mul_comm x c, Int.mul_comm x d, Int.mul_comm x y]
  exact between_mul_right hcy hyd x

section Product

variable {M N : Nat} (hK : M * N < Word.halfBound)
include hK

theorem inRange_mul {x y : Int} (hx : x.natAbs ≤ M) (hy : y.natAbs ≤ N) :
    Word.InRange (x * y) := by
  have := natAbs_mul_le hx hy
  unfold Word.halfBound at hK
  exact Word.inRange_of_natAbs (by omega)

theorem toInt_satMul_of_bounded {a b : Word} (ha : a.toInt.natAbs ≤ M) (hb : b.toInt.natAbs ≤ N) :
    (Word.satMul a b).toInt = a.toInt * b.toInt := Word.toInt_satMul (inRange_mul hK ha hb)

/-- Several values have a step of at most twice their magnitude, so that scaling
    it is exact. -/
theorem toInt_scaledStep {p : Progression} (hp : p.Bounded M) (hs : ¬ p.isSingle = true)
    {factor : Word} (hf : factor.toInt.natAbs ≤ N) :
    (Word.satMul p.step (Word.satAbs factor)).toInt = p.step.toInt * factor.toInt.natAbs := by
  have hpos := p.toInt_step_pos
  have hstep := Progression.step_le_of_not_isSingle hs
  obtain ⟨hp₁, hp₂⟩ := hp
  have hle : p.step.toInt.natAbs * factor.toInt.natAbs ≤ 2 * M * N :=
    Nat.mul_le_mul (by omega) hf
  have hM : 0 < M := by omega
  have hN : N ≤ M * N := Nat.le_mul_of_pos_left N hM
  rw [Nat.mul_assoc] at hle
  unfold Word.halfBound at hK
  have habs : (Word.satAbs factor).toInt = factor.toInt.natAbs := Word.toInt_satAbs (by omega)
  rw [Word.toInt_satMul, habs]
  rw [habs]
  refine Word.inRange_of_natAbs ?_
  rw [Int.natAbs_mul, Int.natAbs_natCast]
  omega

/-- The scaled step suits the multiples, counted from either bound. -/
theorem scaledStep_dvd {p : Progression} (hp : p.Bounded M) {factor : Word}
    (hf : factor.toInt.natAbs ≤ N) {x : Int} (hx : x ∈ p) {bound : Int} (hbound : bound ∈ p) :
    (Word.satMul p.step (Word.satAbs factor)).toInt ∣ x * factor.toInt - bound * factor.toInt := by
  have hdiff : x * factor.toInt - bound * factor.toInt = (x - bound) * factor.toInt := by
    rw [Int.sub_mul]
  rw [hdiff]
  by_cases hs : p.isSingle = true
  · rw [(Progression.mem_iff_of_isSingle hs).1 hx, (Progression.mem_iff_of_isSingle hs).1 hbound,
      Int.sub_self, Int.zero_mul]
    exact Int.dvd_zero _
  · rw [toInt_scaledStep hK hp hs hf]
    refine Int.mul_dvd_mul ?_ (Int.natAbs_dvd.2 (Int.dvd_refl _))
    have : x - bound = (x - p.min.toInt) - (bound - p.min.toInt) := by omega
    rw [this]
    exact Int.dvd_sub hx.2.2 hbound.2.2

/-- The multiples of a progression. -/
theorem scaled_of_bounded {p : Progression} (hp : p.Bounded M) {factor : Word}
    (hf : factor.toInt.natAbs ≤ N) :
    (scaled factor p).Bounded (M * N) ∧ ∀ x ∈ p, x * factor.toInt ∈ scaled factor p := by
  unfold scaled
  split
  · rename_i h0
    subst h0
    refine ⟨Progression.bounded_single (Nat.zero_le _), fun x _ => ?_⟩
    exact Progression.mem_single.2 (Int.mul_zero x)
  · have hlo := toInt_satMul_of_bounded hK hp.1 hf
    have hhi := toInt_satMul_of_bounded hK hp.2 hf
    refine ⟨Progression.bounded_new ?_ ?_ _, fun x hx => ?_⟩
    · rw [hlo]
      exact natAbs_mul_le hp.1 hf
    · rw [hhi]
      exact natAbs_mul_le hp.2 hf
    · rcases between_mul_right hx.1 hx.2.1 factor.toInt with ⟨h₁, h₂⟩ | ⟨h₁, h₂⟩
      · refine Progression.mem_new_of_dvd (by omega) (by omega) ?_
        rw [hlo]
        exact scaledStep_dvd hK hp hf hx p.min_mem
      · -- a negative factor turns the bounds round
        rw [Progression.new_swap]
        refine Progression.mem_new_of_dvd (by omega) (by omega) ?_
        rw [hhi]
        exact scaledStep_dvd hK hp hf hx p.max_mem

theorem productOperation_sound : productOperation.Sound (· * ·) M N (M * N) := by
  constructor
  case value =>
    intro a b ha hb
    exact Word.toInt_mul (inRange_mul hK ha hb)
  case bound =>
    intro x y hx hy
    exact natAbs_mul_le hx hy
  case known =>
    intro p q r hp hq hr
    simp only [productOperation] at hr
    split at hr
    · rename_i hs
      cases hr
      obtain ⟨hb, hx⟩ := scaled_of_bounded (M := N) (N := M) (Nat.mul_comm M N ▸ hK) hq hp.1
      refine ⟨Nat.mul_comm M N ▸ hb, fun x hxp y hyq => ?_⟩
      rw [(Progression.mem_iff_of_isSingle hs).1 hxp, Int.mul_comm]
      exact hx y hyq
    · split at hr
      · rename_i hs
        cases hr
        obtain ⟨hb, hx⟩ := scaled_of_bounded hK hp hq.1
        refine ⟨hb, fun x hxp y hyq => ?_⟩
        rw [(Progression.mem_iff_of_isSingle hs).1 hyq]
        exact hx x hxp
      · cases hr
  case hull =>
    intro p q hp hq
    have hll := toInt_satMul_of_bounded hK hp.1 hq.1
    have hlh := toInt_satMul_of_bounded hK hp.1 hq.2
    have hhl := toInt_satMul_of_bounded hK hp.2 hq.1
    have hhh := toInt_satMul_of_bounded hK hp.2 hq.2
    simp only [productOperation]
    refine ⟨bounded_cornerHull ?_ ?_ ?_ ?_, fun x hx y hy => ?_⟩
    · rw [hll]
      exact natAbs_mul_le hp.1 hq.1
    · rw [hlh]
      exact natAbs_mul_le hp.1 hq.2
    · rw [hhl]
      exact natAbs_mul_le hp.2 hq.1
    · rw [hhh]
      exact natAbs_mul_le hp.2 hq.2
    · refine mem_cornerHull (u := p.min.toInt * y) (v := p.max.toInt * y) ?_ ?_
        (between_mul_right hx.1 hx.2.1 y)
      · rw [hll, hlh]
        exact between_mul_left hy.1 hy.2.1 _
      · rw [hhl, hhh]
        exact between_mul_left hy.1 hy.2.1 _

/-- The range of products. -/
theorem product_of_bounded (hM : M < Word.halfBound) (hN : N < Word.halfBound) {r s : Range}
    (hr : r.Bounded M) (hs : s.Bounded N) :
    ∃ t, r.product s = .ok t ∧ t.Bounded (M * N) ∧ ∀ x y : Int, x ∈ r → y ∈ s → x * y ∈ t :=
  combine_of_sound (productOperation_sound hK) hM hN hK hr hs

end Product

/-! ## Quotients -/

/-- Quotients by one divisor are monotone in the dividend, or turned round. -/
theorem between_tdiv_right {a b x : Int} (hax : a ≤ x) (hxb : x ≤ b) (y : Int) :
    Between (a.tdiv y) (b.tdiv y) (x.tdiv y) := by
  rcases Int.lt_trichotomy y 0 with hy | rfl | hy
  · have h₁ := Int.tdiv_le_tdiv (c := -y) (by omega) hax
    have h₂ := Int.tdiv_le_tdiv (c := -y) (by omega) hxb
    rw [Int.tdiv_neg, Int.tdiv_neg] at h₁ h₂
    exact .inr ⟨by omega, by omega⟩
  · simp [Between]
  · exact .inl ⟨Int.tdiv_le_tdiv hy hax, Int.tdiv_le_tdiv hy hxb⟩

theorem tdiv_le_tdiv_left {x c y : Int} (hx : 0 ≤ x) (hc : 0 < c) (hcy : c ≤ y) :
    x.tdiv y ≤ x.tdiv c := by
  rw [Int.tdiv_eq_ediv_of_nonneg hx, Int.tdiv_eq_ediv_of_nonneg hx]
  exact (Int.le_ediv_iff_mul_le hc).2 <|
    (Int.mul_le_mul_of_nonneg_left hcy (Int.ediv_nonneg hx (by omega))).trans
      (Int.ediv_mul_le x (by omega))

/-- Quotients by positive divisors are monotone in the divisor, or turned
    round. -/
theorem between_tdiv_left_of_pos {c d y : Int} (hc : 0 < c) (hcy : c ≤ y) (hyd : y ≤ d) (x : Int) :
    Between (x.tdiv c) (x.tdiv d) (x.tdiv y) := by
  rcases Int.le_total 0 x with hx | hx
  · exact .inr ⟨tdiv_le_tdiv_left hx (by omega) hyd, tdiv_le_tdiv_left hx hc hcy⟩
  · have h₁ := tdiv_le_tdiv_left (x := -x) (by omega) hc hcy
    have h₂ := tdiv_le_tdiv_left (x := -x) (by omega) (by omega) hyd
    rw [Int.neg_tdiv, Int.neg_tdiv] at h₁ h₂
    exact .inl ⟨by omega, by omega⟩

/-- Quotients by divisors of one sign lie between those by the bounds. -/
theorem between_tdiv_left {c d y : Int} (hcy : c ≤ y) (hyd : y ≤ d) (hsign : 0 < c ∨ d < 0)
    (x : Int) : Between (x.tdiv c) (x.tdiv d) (x.tdiv y) := by
  rcases hsign with hc | hd
  · exact between_tdiv_left_of_pos hc hcy hyd x
  · have := between_tdiv_left_of_pos (c := -d) (d := -c) (y := -y) (by omega) (by omega)
      (by omega) x
    rw [Int.tdiv_neg, Int.tdiv_neg, Int.tdiv_neg] at this
    unfold Between at this ⊢
    omega

theorem natAbs_tdiv_le {M : Nat} {x : Int} (hx : x.natAbs ≤ M) (y : Int) :
    (x.tdiv y).natAbs ≤ M := Nat.le_trans (Int.natAbs_tdiv_le_natAbs x y) hx

section Quotient

variable {M : Nat} (hM : M < Word.halfBound)
include hM

theorem toInt_div_of_bounded {a : Word} (ha : a.toInt.natAbs ≤ M) (b : Word) :
    (a / b).toInt = a.toInt.tdiv b.toInt := by
  unfold Word.halfBound at hM
  exact Word.toInt_div (Word.ne_minValue (by omega))

theorem natAbs_div_le {a : Word} (ha : a.toInt.natAbs ≤ M) (b : Word) :
    (a / b).toInt.natAbs ≤ M := by
  rw [toInt_div_of_bounded hM ha]
  exact natAbs_tdiv_le ha _

/-- No quotient is larger than the largest dividend. -/
theorem mem_symmetricHull {p : Progression} (hp : p.Bounded M) {bound : Word}
    (hbound : bound = if Word.satAbs p.min ≤ Word.satAbs p.max then Word.satAbs p.max
      else Word.satAbs p.min) :
    (Progression.new (-bound) bound 1).Bounded M ∧
      ∀ x ∈ p, ∀ y, x.tdiv y ∈ Progression.new (-bound) bound 1 := by
  unfold Word.halfBound at hM
  obtain ⟨hp₁, hp₂⟩ := hp
  have hval : bound.toInt = max p.min.toInt.natAbs p.max.toInt.natAbs := by
    have hmin := Word.toInt_satAbs (a := p.min) (by omega)
    have hmax := Word.toInt_satAbs (a := p.max) (by omega)
    rw [hbound]
    split
    · rename_i hle
      have := Int64.le_iff_toInt_le.1 hle
      omega
    · rename_i hle
      rw [Int64.le_iff_toInt_le] at hle
      omega
  have hneg : (-bound).toInt = -bound.toInt := Word.toInt_neg (Word.ne_minValue (by omega))
  refine ⟨Progression.bounded_new (by omega) (by omega) 1, fun x hx y => ?_⟩
  have hle := Int.natAbs_tdiv_le_natAbs x y
  obtain ⟨hx₁, hx₂, -⟩ := hx
  exact Progression.mem_new_one (by omega) (by omega)

theorem quotientOperation_sound (N : Nat) : quotientOperation.Sound Int.tdiv M N M := by
  constructor
  case value =>
    intro a b ha _
    exact toInt_div_of_bounded hM ha b
  case bound =>
    intro x y hx _
    exact natAbs_tdiv_le hx y
  case known =>
    intro p q r hp hq hr
    simp only [quotientOperation] at hr
    split at hr
    · rename_i hs
      cases hr
      obtain ⟨hps, hqs⟩ := Bool.and_eq_true_iff.1 hs
      refine ⟨Progression.bounded_single (natAbs_div_le hM hp.1 _), fun x hx y hy => ?_⟩
      rw [Progression.mem_single, toInt_div_of_bounded hM hp.1,
        (Progression.mem_iff_of_isSingle hps).1 hx, (Progression.mem_iff_of_isSingle hqs).1 hy]
    · cases hr
  case hull =>
    intro p q hp hq
    simp only [quotientOperation]
    split
    · -- divisors of both signs
      obtain ⟨hb, hx⟩ := mem_symmetricHull hM hp rfl
      exact ⟨hb, fun x hx' y _ => hx x hx' y⟩
    · rename_i hsign
      have hsign : 0 < q.min.toInt ∨ q.max.toInt < 0 := by
        rw [not_and_or, Int64.not_le, Int64.not_le, Int64.lt_iff_toInt_lt,
          Int64.lt_iff_toInt_lt] at hsign
        exact hsign
      refine ⟨bounded_cornerHull (natAbs_div_le hM hp.1 _) (natAbs_div_le hM hp.1 _)
        (natAbs_div_le hM hp.2 _) (natAbs_div_le hM hp.2 _), fun x hx y hy => ?_⟩
      refine mem_cornerHull (u := p.min.toInt.tdiv y) (v := p.max.toInt.tdiv y) ?_ ?_
        (between_tdiv_right hx.1 hx.2.1 y)
      · rw [toInt_div_of_bounded hM hp.1, toInt_div_of_bounded hM hp.1]
        exact between_tdiv_left hy.1 hy.2.1 hsign _
      · rw [toInt_div_of_bounded hM hp.2, toInt_div_of_bounded hM hp.2]
        exact between_tdiv_left hy.1 hy.2.1 hsign _

/-- The range of quotients by the non-zero divisors. -/
theorem quotient_of_bounded {N : Nat} (hN : N < Word.halfBound) {r s : Range} (hr : r.Bounded M)
    (hs : s.Bounded N) :
    ∃ t, r.quotient s = .ok t ∧ t.Bounded M ∧
      ∀ x y : Int, x ∈ r → y ∈ s → y ≠ 0 → x.tdiv y ∈ t := by
  obtain ⟨divisors, hd, hdb, hdx⟩ := withoutZero_of_bounded hN hs
  obtain ⟨t, ht, htb, htx⟩ := combine_of_sound (quotientOperation_sound hM N) hM hN hM hr hdb
  refine ⟨t, by rw [quotient, hd]; exact ht, htb, fun x y hx hy hy0 => ?_⟩
  exact htx x y hx ((hdx y).2 ⟨hy, hy0⟩)

end Quotient

end InputSolver.Range
