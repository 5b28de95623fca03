/-
  InputSolver — unions and hulls of progressions.

  * `union?_of_near`: joining two progressions does not fault unless they are
    single values too far apart, and a joint progression has exactly the values
    of both;
  * `hull?_of_bounded`: a hull has the values of every progression it is
    built from, and no larger ones.
-/
import InputSolver.Proofs.Progression.Values

namespace InputSolver.Progression

/-! ## Containment -/

theorem mem_of_contains {p q : Progression} (h : p.contains q = true) {x : Int} (hx : x ∈ q) :
    x ∈ p := by
  simp only [contains, Bool.and_eq_true, decide_eq_true_eq, Bool.or_eq_true, beq_iff_eq,
    Int64.le_iff_toInt_le, includes_iff] at h
  obtain ⟨⟨⟨-, h₂⟩, h₃⟩, h₄⟩ := h
  obtain ⟨hx₁, hx₂, hx₃⟩ := hx
  refine ⟨h₃.1.trans hx₁, hx₂.trans h₂, ?_⟩
  have hsplit : x - p.min.toInt = (x - q.min.toInt) + (q.min.toInt - p.min.toInt) := by omega
  rw [hsplit]
  refine Int.dvd_add ?_ h₃.2.2
  rcases h₄ with hs | hs
  · rw [(mem_iff_of_isSingle hs).1 ⟨hx₁, hx₂, hx₃⟩, Int.sub_self]
    exact Int.dvd_zero _
  · refine Int.dvd_trans (Int.dvd_of_tmod_eq_zero ?_) hx₃
    rw [← Int64.toInt_mod, hs]
    rfl

/-! ## Joining -/

/-- The values of a progression, by any step that suits it. -/
theorem mem_iff_of_step {p : Progression} {s : Int} (h : p.isSingle = true ∨ p.step.toInt = s)
    {x : Int} : x ∈ p ↔ p.min.toInt ≤ x ∧ x ≤ p.max.toInt ∧ s ∣ x - p.min.toInt := by
  rcases h with h | rfl
  · rw [mem_iff_of_isSingle h]
    have := isSingle_iff.1 h
    constructor
    · rintro rfl
      exact ⟨Int.le_refl _, p.toInt_min_le, by rw [Int.sub_self]; exact Int.dvd_zero _⟩
    · rintro ⟨h₁, h₂, -⟩
      omega
  · exact mem_def

/-- Two progressions with a common step join where the higher one starts no
    further than one step above the end of the lower one. -/
theorem mem_join_iff {a b : Progression} {s : Word} (hs : 0 < s)
    (ha : a.isSingle = true ∨ a.step.toInt = s.toInt)
    (hb : b.isSingle = true ∨ b.step.toInt = s.toInt) (hle : a.min.toInt ≤ b.min.toInt)
    (hgap : s.toInt ∣ b.min.toInt - a.min.toInt) (hnear : b.min.toInt ≤ a.max.toInt + s.toInt)
    {x : Int} : x ∈ new a.min (if a.max ≤ b.max then b.max else a.max) s ↔ x ∈ a ∨ x ∈ b := by
  have ha₁ := a.toInt_min_le
  have hb₁ := b.toInt_min_le
  have hpos : 0 < s.toInt := Int64.lt_iff_toInt_lt.1 hs
  have hmax : (if a.max ≤ b.max then b.max else a.max).toInt =
      if a.max.toInt ≤ b.max.toInt then b.max.toInt else a.max.toInt := by
    simp only [Int64.le_iff_toInt_le]
    split <;> rfl
  have hlo : a.min ≤ if a.max ≤ b.max then b.max else a.max := by
    rw [Int64.le_iff_toInt_le, hmax]
    split <;> omega
  rw [mem_new hlo hs, mem_iff_of_step ha, mem_iff_of_step hb, hmax]
  have hshift : s.toInt ∣ x - b.min.toInt ↔ s.toInt ∣ x - a.min.toInt := by
    have : x - a.min.toInt = (x - b.min.toInt) + (b.min.toInt - a.min.toInt) := by omega
    rw [this]
    exact (Int.dvd_add_left hgap).symm
  rw [hshift]
  constructor
  · rintro ⟨h₁, h₂, h₃⟩
    by_cases hxa : x ≤ a.max.toInt
    · exact .inl ⟨h₁, hxa, h₃⟩
    · -- `x` is a multiple of the step above the end of `a`, so at or above the start of `b`
      refine .inr ⟨?_, by split at h₂ <;> omega, h₃⟩
      have hend : s.toInt ∣ a.max.toInt - a.min.toInt := ((mem_iff_of_step ha).1 a.max_mem).2.2
      have hdvd : s.toInt ∣ x - a.max.toInt := by
        have : x - a.max.toInt = (x - a.min.toInt) - (a.max.toInt - a.min.toInt) := by omega
        rw [this]
        exact Int.dvd_sub h₃ hend
      have := Int.le_of_dvd (by omega) hdvd
      omega
  · rintro (⟨h₁, h₂, h₃⟩ | ⟨h₁, h₂, h₃⟩)
    · exact ⟨h₁, by split <;> omega, h₃⟩
    · exact ⟨by omega, by split <;> omega, h₃⟩

/-- Two single values have a word as their difference. -/
def Near (p q : Progression) : Prop :=
  p.isSingle = true → q.isSingle = true →
    (p.min.toInt - q.min.toInt).natAbs < 0x8000000000000000

theorem Near.symm {p q : Progression} (h : Near p q) : Near q p := by
  intro hq hp
  have := h hp hq
  omega

theorem near_of_bounded {M : Nat} (hM : M < Word.halfBound) {p q : Progression} (hp : p.Bounded M)
    (hq : q.Bounded M) : Near p q := by
  intro _ _
  obtain ⟨hp, -⟩ := hp
  obtain ⟨hq, -⟩ := hq
  unfold Word.halfBound at hM
  omega

/-- What a common stride of two progressions is. -/
theorem commonStride?_of_near {a b : Progression} (hnear : Near a b)
    (hle : a.min.toInt ≤ b.min.toInt) :
    ∃ s?, commonStride? a b = .ok s? ∧ ∀ s, s? = some s →
      (a.isSingle = true ∨ a.step.toInt = s.toInt) ∧
      (b.isSingle = true ∨ b.step.toInt = s.toInt) ∧
      (0 < s ∨ s = 0 ∧ a.isSingle = true ∧ b.isSingle = true ∧ a.min.toInt = b.min.toInt) := by
  unfold commonStride?
  cases hsa : a.isSingle <;> cases hsb : b.isSingle <;> simp only
  · split
    · rename_i heq
      refine ⟨_, rfl, ?_⟩
      rintro s ⟨⟩
      exact ⟨.inr rfl, .inr (by rw [heq]), .inl a.step_pos⟩
    · exact ⟨_, rfl, by rintro s ⟨⟩⟩
  · refine ⟨_, rfl, ?_⟩
    rintro s ⟨⟩
    exact ⟨.inr rfl, .inl trivial, .inl a.step_pos⟩
  · refine ⟨_, rfl, ?_⟩
    rintro s ⟨⟩
    exact ⟨.inl trivial, .inr rfl, .inl b.step_pos⟩
  · have hdiff := hnear hsa hsb
    obtain ⟨d, hd, hd'⟩ := Word.exact_of_inRange (i := b.min.toInt - a.min.toInt)
      (Word.inRange_of_natAbs (by omega))
    refine ⟨some d, by rw [Word.exactSub, hd]; rfl, ?_⟩
    rintro s ⟨⟩
    refine ⟨.inl trivial, .inl trivial, ?_⟩
    by_cases h0 : a.min.toInt = b.min.toInt
    · exact .inr ⟨Word.eq_of_toInt_eq (by rw [hd', h0, Int.sub_self]; rfl), trivial, trivial, h0⟩
    · exact .inl (Int64.lt_iff_toInt_lt.2 (by rw [hd']; change 0 < _; omega))

theorem join?_of_near {a b : Progression} (hnear : Near a b) (hle : a.min.toInt ≤ b.min.toInt) :
    ∃ u?, join? a b = .ok u? ∧ ∀ u, u? = some u → ∀ x, x ∈ u ↔ x ∈ a ∨ x ∈ b := by
  obtain ⟨s?, hs?, hs⟩ := commonStride?_of_near hnear hle
  unfold join?
  rw [hs?]
  cases s? with
  | none => exact ⟨none, rfl, by rintro u ⟨⟩⟩
  | some s =>
    obtain ⟨hsa, hsb, hpos⟩ := hs s rfl
    simp only [bind, Except.bind, pure, Except.pure]
    split
    · exact ⟨none, rfl, by rintro u ⟨⟩⟩
    · rename_i hcond
      obtain ⟨hgap, hstart⟩ := not_or.1 hcond
      refine ⟨_, rfl, ?_⟩
      rintro u ⟨⟩ x
      rcases hpos with hpos | ⟨rfl, h₁, h₂, h₃⟩
      · have hgap := Decidable.not_not.1 hgap
        rw [Word.distance_mod_eq_zero (Int64.le_iff_toInt_le.2 hle) hpos] at hgap
        exact mem_join_iff hpos hsa hsb hle hgap (by omega)
      · -- both are the same single value
        have hmin : a.min = b.min := Word.eq_of_toInt_eq h₃
        have ha' := isSingle_iff.1 h₁
        have hb' := isSingle_iff.1 h₂
        have hmax : a.max = b.max := Word.eq_of_toInt_eq (by omega)
        rw [new_of_not_pos (by decide), mem_iff_of_isSingle h₁, mem_iff_of_isSingle h₂, hmin,
          or_self, hmax, ite_self, mem_new b.min_le_max (by decide)]
        constructor
        · rintro ⟨h₄, h₅, -⟩
          omega
        · rintro rfl
          exact ⟨Int.le_refl _, by omega, Int.one_dvd _⟩

theorem toInt_min_le_of_boundsLE {p q : Progression} (h : p.boundsLE q = true) :
    p.min.toInt ≤ q.min.toInt := by
  simp only [boundsLE, Bool.or_eq_true, decide_eq_true_eq, Bool.and_eq_true, beq_iff_eq] at h
  rcases h with h | ⟨h, -⟩
  · exact Int.le_of_lt (Int64.lt_iff_toInt_lt.1 h)
  · rw [h]

theorem toInt_min_le_of_not_boundsLE {p q : Progression} (h : ¬ p.boundsLE q = true) :
    q.min.toInt ≤ p.min.toInt := by
  simp only [boundsLE, Bool.or_eq_true, decide_eq_true_eq, not_or, Int64.lt_iff_toInt_lt] at h
  omega

/-- A joint progression has exactly the values of both. -/
theorem union?_of_near {p q : Progression} (hnear : Near p q) :
    ∃ u?, p.union? q = .ok u? ∧ ∀ u, u? = some u → ∀ x, x ∈ u ↔ x ∈ p ∨ x ∈ q := by
  have ordered {a b : Progression} (hnear : Near a b) (hle : a.min.toInt ≤ b.min.toInt) :
      ∃ u?, (if a.contains b then return some a else if b.contains a then return some b
          else join? a b : Except Fault (Option Progression)) = .ok u? ∧
        ∀ u, u? = some u → ∀ x, x ∈ u ↔ x ∈ a ∨ x ∈ b := by
    split
    · rename_i hc
      refine ⟨_, rfl, ?_⟩
      rintro u ⟨⟩ x
      exact ⟨.inl, fun h => h.elim id (mem_of_contains hc)⟩
    · split
      · rename_i hc
        refine ⟨_, rfl, ?_⟩
        rintro u ⟨⟩ x
        exact ⟨.inr, fun h => h.elim (mem_of_contains hc) id⟩
      · exact join?_of_near hnear hle
  unfold union?
  by_cases hle : p.boundsLE q = true
  · simp only [if_pos hle]
    exact ordered hnear (toInt_min_le_of_boundsLE hle)
  · simp only [if_neg hle]
    obtain ⟨u?, hu?, hu⟩ := ordered hnear.symm (toInt_min_le_of_not_boundsLE hle)
    exact ⟨u?, hu?, fun u h x => (hu u h x).trans or_comm⟩

/-- The values of a joint progression are no larger. -/
theorem union?_of_bounded {M : Nat} (hM : M < Word.halfBound) {p q : Progression}
    (hp : p.Bounded M) (hq : q.Bounded M) :
    ∃ u?, p.union? q = .ok u? ∧
      ∀ u, u? = some u → u.Bounded M ∧ ∀ x, x ∈ u ↔ x ∈ p ∨ x ∈ q := by
  obtain ⟨u?, hu?, hu⟩ := union?_of_near (near_of_bounded hM hp hq)
  refine ⟨u?, hu?, fun u h => ⟨?_, hu u h⟩⟩
  have hmem {x : Int} (hx : x ∈ u) : x.natAbs ≤ M := ((hu u h x).1 hx).elim hp.of_mem hq.of_mem
  exact ⟨hmem u.min_mem, hmem u.max_mem⟩

/-! ## Hulls -/

theorem toInt_commonStep_dvd {s t d : Word} (hs : 0 ≤ s.toInt) (ht : 0 ≤ t.toInt)
    (hd : d.toInt.natAbs < 0x8000000000000000) :
    0 ≤ (commonStep s t d).toInt ∧ (commonStep s t d).toInt ∣ s.toInt ∧
      (commonStep s t d).toInt ∣ t.toInt ∧ (commonStep s t d).toInt ∣ d.toInt := by
  have hs' := s.toInt_lt
  have ht' := t.toInt_lt
  have h₁ := Word.toInt_gcd (Word.gcd_lt (a := s.toInt) (b := t.toInt) (by omega) (by omega))
  have h₂ := Word.toInt_gcd (a := Word.gcd s t) (b := d)
    (Word.gcd_lt (by have := (Word.gcd s t).toInt_lt; omega) hd)
  have h₃ : (commonStep s t d).toInt ∣ (Word.gcd s t).toInt := by
    rw [commonStep, h₂]
    exact Int.gcd_dvd_left ..
  rw [h₁] at h₃
  refine ⟨by rw [commonStep, h₂]; omega, Int.dvd_trans h₃ (Int.gcd_dvd_left ..),
    Int.dvd_trans h₃ (Int.gcd_dvd_right ..), ?_⟩
  rw [commonStep, h₂]
  exact Int.gcd_dvd_right ..

/-- The folded step suits every progression, counted from the lowest value of
    the first one. -/
theorem foldl_commonStep_dvd {M : Nat} (hM : M < Word.halfBound) {base : Word}
    (hbase : base.toInt.natAbs ≤ M) {ps : List Progression} (hps : ∀ q ∈ ps, q.Bounded M)
    {d : Word} (hd : 0 ≤ d.toInt) :
    let r := (ps.foldl (fun d q => commonStep d q.stride (q.min - base)) d).toInt
    r ∣ d.toInt ∧ ∀ q ∈ ps, r ∣ q.stride.toInt ∧ r ∣ q.min.toInt - base.toInt := by
  induction ps generalizing d with
  | nil => exact ⟨Int.dvd_refl _, by simp⟩
  | cons p ps ih =>
    have hp := (hps p List.mem_cons_self).1
    unfold Word.halfBound at hM
    have hdiff : (p.min - base).toInt = p.min.toInt - base.toInt :=
      Word.toInt_sub (Word.inRange_of_natAbs (by omega))
    obtain ⟨h₁, h₂, h₃, h₄⟩ := toInt_commonStep_dvd hd p.toInt_stride_nonneg
      (d := p.min - base) (by omega)
    obtain ⟨h₅, h₆⟩ := ih (fun q hq => hps q (List.mem_cons_of_mem _ hq)) h₁
    rw [hdiff] at h₄
    refine ⟨Int.dvd_trans h₅ h₂, fun q hq => ?_⟩
    rcases List.mem_cons.1 hq with rfl | hq
    · exact ⟨Int.dvd_trans h₅ h₃, Int.dvd_trans h₅ h₄⟩
    · exact h₆ q hq

theorem mem_new_of_offset {base lo hi d : Word} {q : Progression} (hlo : lo.toInt ≤ q.min.toInt)
    (hhi : q.max.toInt ≤ hi.toInt) (hstride : d.toInt ∣ q.stride.toInt)
    (hoffset : d.toInt ∣ q.min.toInt - base.toInt) (hbase : d.toInt ∣ lo.toInt - base.toInt)
    {x : Int} (hx : x ∈ q) : x ∈ new lo hi d := by
  have hx₁ := hx.1
  have hx₂ := hx.2.1
  refine mem_new_of_dvd (by omega) (by omega) ?_
  have hsum : x - lo.toInt = (x - q.min.toInt) + (q.min.toInt - base.toInt) -
      (lo.toInt - base.toInt) := by omega
  rw [hsum]
  exact Int.dvd_sub (Int.dvd_add (Int.dvd_trans hstride (stride_dvd hx)) hoffset) hbase

/-- A hull has the values of every progression it is built from. -/
theorem hull?_of_bounded {M : Nat} (hM : M < Word.halfBound) {p : Progression}
    {ps : List Progression} (hps : ∀ q ∈ p :: ps, q.Bounded M) :
    ∃ h, hull? (p :: ps) = some h ∧ h.Bounded M ∧ ∀ q ∈ p :: ps, ∀ x ∈ q, x ∈ h := by
  have hp := hps p List.mem_cons_self
  have hps' (q : Progression) (hq : q ∈ ps) := hps q (List.mem_cons_of_mem _ hq)
  obtain ⟨hlo, hlos, hlo_eq⟩ := Word.foldl_lowest (fun q : Progression => q.min) ps p.min
  obtain ⟨hhi, hhis, hhi_eq⟩ := Word.foldl_highest (fun q : Progression => q.max) ps p.max
  obtain ⟨hstep, hsteps⟩ := foldl_commonStep_dvd hM hp.1 hps' p.toInt_stride_nonneg
  refine ⟨_, rfl, bounded_new ?_ ?_ _, fun q hq x hx => ?_⟩
  · rcases hlo_eq with heq | ⟨q, hq, heq⟩
    · rw [heq]
      exact hp.1
    · rw [heq]
      exact (hps' q hq).1
  · rcases hhi_eq with heq | ⟨q, hq, heq⟩
    · rw [heq]
      exact hp.2
    · rw [heq]
      exact (hps' q hq).2
  · -- offsets are counted from `p`, then moved to the lowest bound
    have hlow : ∀ lo : Word, (lo = p.min ∨ ∃ q ∈ ps, lo = q.min) →
        (ps.foldl (fun d q => commonStep d q.stride (q.min - p.min)) p.stride).toInt ∣
          lo.toInt - p.min.toInt := by
      rintro lo (rfl | ⟨q, hq, rfl⟩)
      · rw [Int.sub_self]
        exact Int.dvd_zero _
      · exact (hsteps q hq).2
    rcases List.mem_cons.1 hq with rfl | hq
    · exact mem_new_of_offset hlo hhi hstep (hlow _ (.inl rfl)) (hlow _ hlo_eq) hx
    · exact mem_new_of_offset (hlos q hq) (hhis q hq) (hsteps q hq).1 (hsteps q hq).2
        (hlow _ hlo_eq) hx

end InputSolver.Progression
