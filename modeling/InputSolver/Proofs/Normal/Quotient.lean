/-
  InputSolver — normal forms of quotients.

  * `cancel?_meets`: what is left when a divisor cancels is the quotient;
  * `divLiteral_meets`, `div_meets`: a quotient yields what division gives,
    and is no larger than its dividend.
-/
import InputSolver.Normal.Quotient
import InputSolver.Proofs.Normal.Product
import InputSolver.Proofs.Normal.Split

namespace InputSolver.Normal

open InputSolver.Expr

/-! ## Quotients of words -/

/-- A quotient that is a word. -/
theorem toInt_div_of_divides {a b : Word} (hd : Word.divides b a = true) :
    (a / b).toInt = a.toInt.tdiv b.toInt := by
  simp only [Word.divides, Bool.and_eq_true, Bool.not_eq_true', Bool.and_eq_false_iff,
    beq_eq_false_iff_ne] at hd
  obtain ⟨⟨-, ha | hb⟩, -⟩ := hd
  · exact Int64.toInt_div_of_ne_left a b ha
  · exact Int64.toInt_div_of_ne_right a b hb

section Words

variable {M N : Nat} (hK : M * N < Word.halfBound) {x k c : Word} (hx : x.toInt.natAbs ≤ M)
  (hk : k.toInt.natAbs ≤ N)
include hK hx hk

theorem toInt_mul_div : (x * k / c).toInt = (x.toInt * k.toInt).tdiv c.toInt := by
  have hprod := Word.toInt_mul (Range.inRange_mul hK hx hk)
  rw [Range.toInt_div_of_bounded hK, hprod]
  rw [hprod]
  exact Range.natAbs_mul_le hx hk

/-- A divisor of the factor is taken out of the factor. -/
theorem mul_div_of_divides (hN : N < Word.halfBound) (hd : Word.divides c k = true) :
    x * k / c = x * (k / c) := by
  obtain ⟨-, hdvd⟩ := Word.dvd_of_divides hd
  have hquot := Range.toInt_div_of_bounded hN hk c
  have hle := Range.natAbs_div_le hN hk c
  refine Word.eq_of_toInt_eq ?_
  rw [toInt_mul_div hK hx hk, Word.toInt_mul (Range.inRange_mul hK hx hle), hquot,
    Int.mul_tdiv_assoc _ hdvd]

/-- A factor of the divisor is taken out of the divisor. -/
theorem mul_div_of_divides_left (hM : M < Word.halfBound) (hd : Word.divides k c = true) :
    x * k / c = x / (c / k) := by
  obtain ⟨hk0, j, hj⟩ := Word.dvd_of_divides hd
  have hquot : (c / k).toInt = j := by
    rw [toInt_div_of_divides hd, hj, Int.mul_tdiv_cancel_left _ hk0]
  refine Word.eq_of_toInt_eq ?_
  rw [toInt_mul_div hK hx hk, Range.toInt_div_of_bounded hM hx, hquot, hj,
    Division.mul_tdiv_mul_of_ne hk0]

/-- A factor cancels. -/
theorem mul_div_cancel (hk0 : k ≠ 0) : x * k / k = x := by
  refine Word.eq_of_toInt_eq ?_
  rw [toInt_mul_div hK hx hk, Int.mul_tdiv_cancel _ (Word.ne_zero_iff.1 hk0)]

end Words

theorem div_ne_zero_of_divides {k c : Word} (hd : Word.divides k c = true) (hc : c ≠ 0) :
    c / k ≠ 0 := by
  obtain ⟨-, hdvd⟩ := Word.dvd_of_divides hd
  rw [Word.ne_zero_iff] at hc ⊢
  rw [toInt_div_of_divides hd]
  intro h0
  have := Int.mul_tdiv_cancel' hdvd
  rw [h0, Int.mul_zero] at this
  exact hc this.symm

section Words

variable {M : Nat} (hM : M < Word.halfBound) {x : Word} (hx : x.toInt.natAbs ≤ M)
include hM hx

/-- Two positive divisors fold into one. -/
theorem div_div_of_positiveProduct? {b c d : Word} (hd : positiveProduct? b c = some d) :
    d ≠ 0 ∧ x / b / c = x / d := by
  unfold positiveProduct? at hd
  split at hd
  · rename_i hpos
    obtain ⟨hb, hc⟩ := hpos
    have hb : 0 < b.toInt := Int64.lt_iff_toInt_lt.1 hb
    have hc : 0 < c.toInt := Int64.lt_iff_toInt_lt.1 hc
    have hval : d.toInt = b.toInt * c.toInt := by
      refine Word.exact_eq_ok_iff.1 ?_
      cases hex : Word.exact (b.toInt * c.toInt) with
      | error f =>
        rw [hex] at hd
        cases hd
      | ok w =>
        rw [hex] at hd
        cases hd
        rfl
    refine ⟨Word.ne_zero_iff.2 ?_, Word.eq_of_toInt_eq ?_⟩
    · rw [hval]
      exact Int.ne_of_gt (Int.mul_pos hb hc)
    · rw [Range.toInt_div_of_bounded hM (Range.natAbs_div_le hM hx b),
        Range.toInt_div_of_bounded hM hx, Range.toInt_div_of_bounded hM hx, hval,
        Division.tdiv_tdiv_of_nonneg (Int.le_of_lt hb)]
  · cases hd

theorem div_eq_zero {c : Word} (hlt : x.toInt.natAbs < c.toInt.natAbs) : x / c = 0 := by
  refine Word.eq_of_toInt_eq ?_
  rw [Range.toInt_div_of_bounded hM hx, Division.tdiv_eq_zero_of_natAbs_lt hlt]
  rfl

theorem div_neg_one : x / -1 = x * -1 := by
  have hM' := hM
  unfold Word.halfBound at hM'
  have hone : (-1 : Word).toInt = -1 := rfl
  refine Word.eq_of_toInt_eq ?_
  rw [Range.toInt_div_of_bounded hM hx, hone, Int.tdiv_neg, Int.tdiv_one,
    Word.toInt_mul (Word.inRange_of_natAbs (by rw [hone]; omega)), hone]
  omega

theorem div_one : x / 1 = x := by
  refine Word.eq_of_toInt_eq ?_
  rw [Range.toInt_div_of_bounded hM hx]
  exact Int.tdiv_one _

end Words

/-! ## Small dividends -/

/-- The largest magnitude of a remainder is below that of the divisor. -/
theorem toInt_remainderBound {c : Word} (hc : c ≠ 0) :
    0 ≤ (remainderBound c).toInt ∧ (remainderBound c).toInt < c.toInt.natAbs ∧
      (-remainderBound c).toInt = -(remainderBound c).toInt ∧
      (c.toInt.natAbs < Word.halfBound ∨
        (Word.halfBound : Int) - 1 ≤ (remainderBound c).toInt) := by
  have hc := Word.ne_zero_iff.1 hc
  have hle := Word.natAbs_toInt_le c
  have habs : (Word.satAbs c).toInt = min c.toInt.natAbs 0x7fffffffffffffff := by
    unfold Word.satAbs
    rw [Word.toInt_clamp]
    split
    · omega
    · split <;> omega
  have hval : (remainderBound c).toInt = min c.toInt.natAbs 0x7fffffffffffffff - 1 := by
    have hone : (1 : Word).toInt = 1 := rfl
    unfold remainderBound
    rw [Word.toInt_sub (Word.inRange_of_natAbs (by rw [habs, hone]; omega)), habs, hone]
  refine ⟨by omega, by omega, Word.toInt_neg (Word.ne_minValue (by omega)), ?_⟩
  unfold Word.halfBound
  omega

theorem natAbs_lt_of_within {c : Word} (hc : c ≠ 0) {r : Range}
    (hr : r.within (-remainderBound c) (remainderBound c) = true) {x : Int} (hx : x ∈ r) :
    x.natAbs < c.toInt.natAbs := by
  obtain ⟨h₁, h₂, h₃, -⟩ := toInt_remainderBound hc
  have := Range.of_within hr hx
  omega

/-- A divisor that some dividend reaches is small. -/
theorem natAbs_lt_of_not_within {M : Nat} (hM : M < Word.halfBound) {c : Word} (hc : c ≠ 0)
    {r : Range} (hr : r.Bounded M)
    (hwithin : ¬ r.within (-remainderBound c) (remainderBound c) = true) :
    c.toInt.natAbs < Word.halfBound := by
  obtain ⟨-, -, hneg, hsmall | hlarge⟩ := toInt_remainderBound hc
  · exact hsmall
  · exact absurd (Range.within_of_bounded hr (by omega) (by omega)) hwithin

variable {S : Nat → Prop} {P : Prop} {h : Heap} {reuse? : Option Expr}

theorem literal?_eq_some {e : Expr} {value : Word} (he : e.literal? = some value) :
    ∃ id, e = .literal id value := by
  cases e with
  | literal id v =>
    cases he
    exact ⟨id, rfl⟩
  | _ => cases he

theorem not_literal {e : Expr} (he : ∀ value, e.literal? = some value → False) (id : Nat)
    (value : Word) (heq : e = .literal id value) : False := by
  subst heq
  exact he value rfl

/-! ## Cancelling -/

theorem isNonzero_meets {r : Expr} (hr : P → ∃ range, r.range = .ok range) :
    (liftM (isNonzero r) : Build Bool).Meets h P fun k _ => k = h :=
  Build.meets_lift (fun hp => by
    obtain ⟨range, hrange⟩ := hr hp
    exact ⟨_, by rw [isNonzero, hrange]; rfl⟩) fun _ _ => rfl

/-- A branch that is taken only where the divisor is known not to be zero. -/
theorem ifNonzero_meets {r : Expr} (hr : P → ∃ range, r.range = .ok range) {x : Build (Option Expr)}
    {Q : Heap → Option Expr → Prop} (hx : x.Meets h P Q) (hnone : Q h none) :
    (do if ← isNonzero r then x else return none : Build (Option Expr)).Meets h P Q := by
  refine (isNonzero_meets hr).bind fun k b _ hk => ?_
  subst hk
  split
  · exact hx
  · exact Build.meets_pure hnone

theorem cancelled?_eq_some {l r e : Expr} (he : cancelled? l r = some e) :
    ∃ id settled x y, l = .binary id settled .mul x y ∧
      (y.alike r = true ∧ e = x ∨ x.alike r = true ∧ e = y) := by
  unfold cancelled? at he
  split at he
  · rename_i id settled x y
    split at he
    · rename_i hy
      cases he
      exact ⟨id, settled, _, y, rfl, .inl ⟨hy, rfl⟩⟩
    · split at he
      · rename_i hx
        cases he
        exact ⟨id, settled, x, _, rfl, .inr ⟨hx, rfl⟩⟩
      · cases he
  · cases he

/-- A quotient whose divisor is not zero is a quotient of words. -/
theorem div_eq_ok {x y v : Word} (hv : Operator.div.apply x y = .ok v) : y ≠ 0 ∧ x / y = v := by
  simp only [Operator.apply] at hv
  split at hv
  · cases hv
  · rename_i hy
    exact ⟨hy, Except.ok.inj hv⟩

/-- What is left of a product when a factor cancels. -/
theorem yields_of_cancelled? {l r e : Expr} (hl : Operand h S P l) (hr : h.Holds r)
    (he : cancelled? l r = some e) : Yields h S P l.magnitude (Operator.div.Gives l r) e := by
  obtain ⟨id, settled, x, y, rfl, ⟨hy, rfl⟩ | ⟨hx, rfl⟩⟩ := cancelled?_eq_some he
  · have halike := alike_of_holds hl.right.holds hr hy
    refine hl.left.yields (fun _ => e.extent_le_magnitude.trans
      (Nat.le_mul_of_pos_right _ y.magnitude_pos)) ?_
    rintro hp a v ha ⟨w, z, hw, hz, hwz⟩
    obtain ⟨hz0, rfl⟩ := div_eq_ok hwz
    obtain ⟨x', y', hx', hy', hxy⟩ := valueOn_binary.1 hw
    cases hxy
    rw [← halike.valueOn_eq, hy'] at hz
    cases hz
    have hb := hl.bounded hp
    rw [mul_div_cancel hb.magnitude_lt (hb.left.natAbs_le ha hx') (hb.right.natAbs_le ha hy') hz0]
    exact hx'
  · have halike := alike_of_holds hl.left.holds hr hx
    refine hl.right.yields (fun _ => e.extent_le_magnitude.trans
      (Nat.le_mul_of_pos_left _ x.magnitude_pos)) ?_
    rintro hp a v ha ⟨w, z, hw, hz, hwz⟩
    obtain ⟨hz0, rfl⟩ := div_eq_ok hwz
    obtain ⟨x', y', hx', hy', hxy⟩ := valueOn_binary.1 hw
    cases hxy
    rw [← halike.valueOn_eq, hx'] at hz
    cases hz
    have hb := hl.bounded hp
    have hK : e.magnitude * x.magnitude < Word.halfBound := Nat.mul_comm .. ▸ hb.magnitude_lt
    rw [Int64.mul_comm, mul_div_cancel hK (hb.right.natAbs_le ha hy') (hb.left.natAbs_le ha hx')
      hz0]
    exact hy'

/-- What is left when the divisor cancels is the quotient. -/
theorem cancel?_meets {l r : Expr} (hl : Operand h S P l) (hr : h.Holds r)
    (hrange : P → ∃ range, r.range = .ok range) :
    (cancel? l r).Meets h P fun k e? => ∀ e, e? = some e →
      Yields k S P l.magnitude (Operator.div.Gives l r) e := by
  -- a literal in place of the quotient
  have literal (value : Word) (hone : value.toInt.natAbs ≤ 1)
      (hvalue : P → ∀ a v, a.Digits → Operator.div.Gives l r a v → value = v) :
      (do return some (← Build.literal value) : Build (Option Expr)).Meets h P fun k e? =>
        ∀ e, e? = some e → Yields k S P l.magnitude (Operator.div.Gives l r) e := by
    have hpos := l.magnitude_pos
    refine (literal_meets (S := S) (fun hp => (hl.bounded hp).magnitude_lt) (fun _ => by omega)
      hvalue).bind fun k e _ he => Build.meets_pure ?_
    rintro e' ⟨⟩
    exact he
  unfold cancel?
  split
  · rename_i hzero
    obtain ⟨id, rfl⟩ := literal?_eq_some hzero
    refine ifNonzero_meets hrange (literal 0 (by decide) ?_) nofun
    rintro - a v - ⟨x, y, hx, -, hxy⟩
    obtain ⟨-, rfl⟩ := div_eq_ok hxy
    cases hx
    exact Int64.zero_div.symm
  · split
    · rename_i halike
      have halike := alike_of_holds hl.holds hr halike
      refine ifNonzero_meets hrange (literal 1 (by decide) ?_) nofun
      rintro hp a v ha ⟨x, y, hx, hy, hxy⟩
      obtain ⟨hy0, rfl⟩ := div_eq_ok hxy
      have hle := (hl.bounded hp).natAbs_le ha hx
      rw [halike.valueOn_eq, hy] at hx
      cases hx
      refine Word.eq_of_toInt_eq ?_
      rw [Range.toInt_div_of_bounded (hl.bounded hp).magnitude_lt hle,
        Int.tdiv_self (Word.ne_zero_iff.1 hy0)]
      rfl
    · split
      · refine ifNonzero_meets hrange (Build.meets_pure fun e he => ?_) nofun
        exact yields_of_cancelled? hl hr he
      · exact Build.meets_pure nofun

/-! ## Dividing by a literal -/

/-- The quotient of a sum of two words, where the quotients add up. -/
theorem add_div_eq {M N : Nat} (hK : M + N < Word.halfBound) {x y c : Word}
    (hx : x.toInt.natAbs ≤ M) (hy : y.toInt.natAbs ≤ N)
    (hsplit : (x.toInt + y.toInt).tdiv c.toInt = x.toInt.tdiv c.toInt + y.toInt.tdiv c.toInt) :
    (x + y) / c = x / c + y / c := by
  have hM : M < Word.halfBound := by omega
  have hN : N < Word.halfBound := by omega
  have hsum := Word.toInt_add (Range.inRange_add hK hx hy)
  refine Word.eq_of_toInt_eq ?_
  rw [Range.toInt_div_of_bounded hK (hsum ▸ by omega), hsum, hsplit,
    Word.toInt_add (Range.inRange_add hK (Range.natAbs_div_le hM hx c)
      (Range.natAbs_div_le hN hy c)),
    Range.toInt_div_of_bounded hM hx, Range.toInt_div_of_bounded hN hy]

/-- Quotients by `c` of some terms. -/
structure Quotients (h : Heap) (S : Nat → Prop) (P : Prop) (c : Word) (ts qs : List Expr) :
    Prop where
  operand : ∀ q ∈ qs, Operand h S P q
  extent_le : P → totalExtent qs ≤ totalExtent ts
  value : P → ∀ a x, a.Digits → SumsTo a ts x → SumsTo a qs (x / c)

theorem Quotients.mono {c : Word} {ts qs : List Expr} (hqs : Quotients h S P c ts qs) {k : Heap}
    (hle : h ≤ k) : Quotients k S P c ts qs :=
  ⟨fun q hq => (hqs.operand q hq).mono hle, hqs.extent_le, hqs.value⟩

/-- A list of quotients of multiples adds up to the quotient of their sum. -/
theorem mapM_quotient_meets {α : Type} {f : α → Build Expr} {g : α → Expr} {c : Word}
    {as : List α} (hg : ∀ b ∈ as, Operand h S P (g b)) (hc : P → ∀ b ∈ as, Multiple c (g b))
    (hK : P → totalExtent (as.map g) < Word.halfBound)
    (hf : ∀ k b, h ≤ k → b ∈ as → (f b).Meets k P fun m e =>
      Yields m S P (g b).extent ((g b).Image (· / c)) e) :
    (as.mapM f).Meets h P fun k qs => Quotients k S P c (as.map g) qs := by
  induction as generalizing h with
  | nil =>
    refine Build.meets_pure ⟨by simp, fun _ => Nat.le_refl 0, ?_⟩
    rintro - a x - rfl
    exact Int64.zero_div
  | cons b as ih =>
    rw [List.mapM_cons]
    simp only [List.map_cons, totalExtent] at hK ⊢
    refine (hf h b h.le_refl List.mem_cons_self).bind fun k q hle hq => ?_
    refine (ih (fun d hd => (hg d (List.mem_cons_of_mem _ hd)).mono hle)
      (fun hp d hd => hc hp d (List.mem_cons_of_mem _ hd)) (fun hp => by have := hK hp; omega)
      (fun k' d hle' hd => hf k' d (Heap.le_trans hle hle') (List.mem_cons_of_mem _ hd))).bind
      fun m qs hle' hqs => Build.meets_pure ⟨fun r hr => ?_, fun hp => ?_, ?_⟩
    · rcases List.mem_cons.1 hr with rfl | hr
      · exact hq.toOperand.mono hle'
      · exact hqs.operand r hr
    · exact Nat.add_le_add (hq.extent_le hp) (hqs.extent_le hp)
    · rintro hp a v ha ⟨x, y, hx, hy, rfl⟩
      have hK := hK hp
      have hgs (t : Expr) (ht : t ∈ as.map g) : t.Bounded ∧ Multiple c t := by
        obtain ⟨d, hd, rfl⟩ := List.mem_map.1 ht
        exact ⟨(hg d (List.mem_cons_of_mem _ hd)).bounded hp, hc hp d (List.mem_cons_of_mem _ hd)⟩
      have hx' := ((hg b List.mem_cons_self).bounded hp).natAbs_le_extent ha hx
      have hy' := hy.natAbs_le ha (fun t ht => (hgs t ht).1) (by omega)
      have hxc := hc hp b List.mem_cons_self a x ha hx
      have hyc := hy.dvd ha (fun t ht => (hgs t ht).1) (by omega) fun t ht => (hgs t ht).2
      rw [add_div_eq hK hx' hy' (Division.add_tdiv_of_dvd_of_dvd hxc hyc)]
      exact ⟨x / c, y / c, hq.value hp a _ ha ⟨x, hx, rfl⟩, hqs.value hp a y ha hy, rfl⟩

/-- The quotients of both parts of a sum that splits add up to its quotient. -/
theorem sumOf_quotients_meets {sum rest : Expr} {c : Word} {s : Split} {qs : List Expr}
    (hsum : P → sum.Bounded) (hs : Splits h S P sum c s)
    (hqs : Quotients h S P c s.multiples qs)
    (hrest : Yields h S P s.rest.extent (s.rest.Image (· / c)) rest) :
    (sumOf (qs ++ [rest])).Meets h P fun k e =>
      Yields k S P sum.magnitude (sum.Image (· / c)) e := by
  have hsize (hp : P) : totalExtent (qs ++ [rest]) ≤ sum.magnitude := by
    have hq := hqs.extent_le hp
    have hr := hrest.extent_le hp
    have hs := hs.extent_le hp
    rw [totalExtent_append]
    simp only [totalExtent]
    omega
  refine (sumOf_meets (fun t ht => ?_)
    fun hp => Nat.lt_of_le_of_lt (hsize hp) (hsum hp).magnitude_lt).yields_imp hsize ?_
  · rcases List.mem_append.1 ht with ht | ht
    · exact hqs.operand t ht
    · obtain rfl := List.mem_singleton.1 ht
      exact hrest.toOperand
  · rintro hp a v ha ⟨z, hz, rfl⟩
    obtain ⟨x, y, hx, hy, rfl, hx', hy', hdvd, hsign⟩ := hs.parts hp (hsum hp) ha hz
    have hlt := Nat.lt_of_le_of_lt (hs.extent_le hp) (hsum hp).magnitude_lt
    have hdiv := add_div_eq hlt hx' hy' (Division.add_tdiv_of_dvd hdvd hsign)
    simp only [hdiv]
    exact (hqs.value hp a x ha hx).append
      ⟨y / c, 0, hrest.value hp a _ ha ⟨y, hy, rfl⟩, rfl, (Int64.add_zero _).symm⟩

/-- A quotient by `-1` is a product. -/
theorem mulLiteral_neg_one_meets {id : Nat} {l : Expr} (hid : h.Holds (.literal id (-1)))
    (hl : Operand h S P l) :
    (mulLiteral none id (-1) l).Meets h P fun k e =>
      Yields k S P l.extent (l.Image (· / -1)) e := by
  have hone : l.extent * (-1 : Word).toInt.natAbs = l.extent := Nat.mul_one _
  refine (mulLiteral_meets (reusable_none h .mul) hid hl fun hp => ?_).yields_imp
    (fun _ => Nat.le_of_eq hone) ?_
  · rw [hone]
    exact (hl.bounded hp).extent_lt
  · rintro hp a v ha ⟨x, hx, rfl⟩
    exact ⟨x, hx, (div_neg_one (hl.bounded hp).magnitude_lt
      ((hl.bounded hp).natAbs_le ha hx)).symm⟩

section Factor

variable {i j : Nat} {settled : Bool} {x : Expr} {q c : Word}
  (hl : Operand h S P (.binary i settled .mul x (.literal j q)))
include hl

/-- `(x * q) / c` becomes `x * (q / c)`. -/
theorem mulLiteral_of_divides_meets {id : Nat} (hd : Word.divides c q = true)
    (hid : h.Holds (.literal id (q / c))) :
    (mulLiteral none id (q / c) x).Meets h P fun k e =>
      Yields k S P (Expr.binary i settled .mul x (.literal j q)).extent
        ((Expr.binary i settled .mul x (.literal j q)).Image (· / c)) e := by
  have hq : q.toInt.natAbs ≤ (Expr.literal j q).magnitude := Nat.le_max_right ..
  have hle (hp : P) : x.extent * (q / c).toInt.natAbs ≤
      (Expr.binary i settled .mul x (.literal j q)).extent :=
    Nat.mul_le_mul x.extent_le_magnitude
      (Range.natAbs_div_le (hl.right.bounded hp).magnitude_lt hq c)
  refine (mulLiteral_meets (reusable_none h .mul) hid hl.left
    fun hp => Nat.lt_of_le_of_lt (hle hp) (hl.bounded hp).extent_lt).imp (fun hp => hp)
    fun k e _ he => he.image_of_left hle fun hp a y w ha hy hyw => ?_
  cases hyw
  exact (mul_div_of_divides (hl.bounded hp).magnitude_lt ((hl.left.bounded hp).natAbs_le ha hy)
    hq (hl.right.bounded hp).magnitude_lt hd).symm

/-- `(x * q) / c` becomes `x / (c / q)`. -/
theorem yields_of_divides_left {e : Expr} (hd : Word.divides q c = true)
    (he : Yields h S P x.extent (x.Image (· / (c / q))) e) :
    Yields h S P (Expr.binary i settled .mul x (.literal j q)).extent
      ((Expr.binary i settled .mul x (.literal j q)).Image (· / c)) e := by
  refine he.image_of_left (fun _ => ?_) fun hp a y w ha hy hyw => ?_
  · exact x.extent_le_magnitude.trans
      (Nat.le_mul_of_pos_right _ (Expr.magnitude_pos (.literal j q)))
  · cases hyw
    exact (mul_div_of_divides_left (hl.bounded hp).magnitude_lt
      ((hl.left.bounded hp).natAbs_le ha hy) (Nat.le_max_right ..)
      (hl.left.bounded hp).magnitude_lt hd).symm

end Factor

/-- `(x / b) / c` becomes `x / (b * c)`. -/
theorem yields_of_positiveProduct? {i j : Nat} {settled : Bool} {x e : Expr} {b c d : Word}
    (hl : Operand h S P (.binary i settled .div x (.literal j b)))
    (hd : positiveProduct? b c = some d) (he : Yields h S P x.extent (x.Image (· / d)) e) :
    Yields h S P (Expr.binary i settled .div x (.literal j b)).extent
      ((Expr.binary i settled .div x (.literal j b)).Image (· / c)) e := by
  refine he.image_of_left (fun _ => x.extent_le_magnitude) fun hp a y w ha hy hyw => ?_
  obtain ⟨-, rfl⟩ := div_eq_ok hyw
  exact (div_div_of_positiveProduct? (hl.left.bounded hp).magnitude_lt
    ((hl.left.bounded hp).natAbs_le ha hy) hd).2.symm

theorem ne_zero_of_positiveProduct? {b c d : Word} (hd : positiveProduct? b c = some d) : d ≠ 0 :=
  (div_div_of_positiveProduct? (x := 0) (M := 0) (by decide) (Nat.le_refl 0) hd).1

theorem splitBelow_meets {i : Nat} {settled : Bool} {l r : Expr}
    (hsum : Operand h S P (.binary i settled .add l r)) (c : Word) :
    (splitBelow i settled l r c).Meets h P fun k s? =>
      ∀ s, s?.1 = some s → Splits k S P (.binary i settled .add l r) c s :=
  (splitSum_meets hsum c).attach _

/-- Dividing by a literal that is not zero. -/
theorem divLiteral_meets (hreuse : Reusable h .div reuse?) {id : Nat} {c : Word} (hc : c ≠ 0)
    {l : Expr} (hid : h.Holds (.literal id c)) (hl : Operand h S P l) :
    (divLiteral reuse? id c l).Meets h P fun k e =>
      Yields k S P l.extent (l.Image (· / c)) e := by
  induction hw : weight l using Nat.strongRecOn generalizing h reuse? id c l with
  | ind n ih =>
  subst hw
  rw [divLiteral.eq_def, if_neg hc]
  split
  · rename_i a hlit
    obtain ⟨j, rfl⟩ := literal?_eq_some hlit
    exact image_literal_meets (· / c) (fun hp => (hl.bounded hp).extent_lt)
      fun hp => Range.natAbs_div_le (hl.bounded hp).extent_lt (Nat.le_refl _) c
  · rename_i hlit
    have hsize : l.magnitude = l.extent := (extent_of_not_literal (not_literal hlit)).symm
    refine (cancel?_meets hl hid fun _ => ⟨_, range_literal id c⟩).bind fun k e? hle he? => ?_
    split
    · refine Build.meets_pure ((he? _ rfl).imp (fun _ => Nat.le_of_eq hsize) ?_)
      rintro - a v - ⟨x, hx, rfl⟩
      exact ⟨x, c, hx, rfl, if_neg hc⟩
    replace hl := hl.mono hle
    replace hid := hid.mono hle
    replace hreuse := hreuse.mono hle
    split
    · rename_i h1
      subst h1
      exact Build.meets_pure (hl.image_self (fun _ => Nat.le_refl _) fun hp a x ha hx =>
        div_one (hl.bounded hp).magnitude_lt ((hl.bounded hp).natAbs_le ha hx))
    split
    · rename_i h1
      subst h1
      exact Build.Meets.identity_bind (-1) fun m n hle hn =>
        mulLiteral_neg_one_meets hn (hl.mono hle)
    refine (range_meets hl.bounded).bind fun k' range _ hk => ?_
    obtain ⟨rfl, hrange⟩ := hk
    split
    · rename_i hwithin
      refine image_single_meets (fun hp => (hl.bounded hp).extent_lt) (fun _ => Nat.zero_le _)
        fun hp a x ha hx => ?_
      exact div_eq_zero (hl.bounded hp).magnitude_lt ((hl.bounded hp).natAbs_le ha hx)
        (natAbs_lt_of_within hc hwithin (((hl.bounded hp).of_range hrange).2 a x ha hx))
    · rename_i hwithin
      -- a divisor that is not too large for the node to be made
      have hr : Operand k' S P (.literal id c) := operand_literal hid fun hp =>
        natAbs_lt_of_not_within (hl.bounded hp).magnitude_lt hc
          ((hl.bounded hp).of_range hrange).1 hwithin
      have finished {m : Heap} (hle : k' ≤ m) :
          (finish reuse? .div l (.literal id c)).Meets m P fun k e =>
            Yields k S P l.extent (l.Image (· / c)) e :=
        finish_literal_meets (fun hp => (hl.bounded hp).magnitude_lt) (hreuse.mono hle)
          (hl.mono hle) (hr.mono hle) (Nat.le_of_eq hsize) fun _ => if_neg hc
      split
      · rename_i i settled x j q
        split
        · rename_i hd
          exact Build.Meets.identity_bind (q / c) fun m n hle hn =>
            mulLiteral_of_divides_meets (hl.mono hle) hd hn
        · split
          · rename_i hd
            refine Build.Meets.identity_bind (c / q) fun m n hle hn => ?_
            exact (ih (weight x) (by simp only [weight]; omega) (reusable_none m .div)
              (div_ne_zero_of_divides hd hc) hn (hl.left.mono hle) rfl).imp (fun hp => hp)
              fun m' e hle' he => yields_of_divides_left ((hl.mono hle).mono hle') hd he
          · exact finished k'.le_refl
      · rename_i i settled x j b
        split
        · rename_i d hd
          refine Build.Meets.identity_bind d fun m n hle hn => ?_
          exact (ih (weight x) (by simp only [weight]; omega) (reusable_none m .div)
            (ne_zero_of_positiveProduct? hd) hn (hl.left.mono hle) rfl).imp (fun hp => hp)
            fun m' e hle' he => yields_of_positiveProduct? ((hl.mono hle).mono hle') hd he
        · exact finished k'.le_refl
      · rename_i i settled a b
        refine (splitBelow_meets hl c).bind fun k₁ s? hle₁ hs => ?_
        split
        · rename_i split below
          replace hs := hs split rfl
          have hval : split.multiples.attach.map Subtype.val = split.multiples :=
            List.attach_map_subtype_val _
          have hsmall (hp : P) := Nat.lt_of_le_of_lt (hs.extent_le hp) (hl.bounded hp).magnitude_lt
          refine (mapM_quotient_meets (c := c) (g := Subtype.val) (fun m _ => hs.multiples m.1 m.2)
            (fun hp m _ => hs.multiple hp m.1 m.2) (fun hp => ?_) fun k m hle hm => ?_).bind
            fun k₂ quotients hle₂ hquotients => ?_
          · have := hsmall hp
            rw [hval]
            omega
          · refine Build.Meets.identity_bind c fun k' n hle' hn => ?_
            exact ih (weight m.1) ((below split rfl).1 m.1 m.2) (reusable_none k' .div) hc hn
              ((hs.multiples m.1 m.2).mono (Heap.le_trans hle hle')) rfl
          · rw [hval] at hquotients
            refine Build.Meets.identity_bind c fun k₃ n hle₃ hn => ?_
            have hle₁₃ := Heap.le_trans hle₂ hle₃
            refine (ih (weight split.rest) (below split rfl).2 (reusable_none k₃ .div) hc hn
              (hs.rest.mono hle₁₃) rfl).bind fun k₄ rest hle₄ hrest => ?_
            exact sumOf_quotients_meets hl.bounded (hs.mono (Heap.le_trans hle₁₃ hle₄))
              (hquotients.mono (Heap.le_trans hle₃ hle₄)) hrest
        · exact finished hle₁
      · exact finished k'.le_refl

/-- The quotient of two expressions. -/
theorem div_meets (hreuse : Reusable h .div reuse?) {l r : Expr} (hl : Operand h S P l)
    (hr : Operand h S P r) :
    (div reuse? l r).Meets h P fun k e =>
      Yields k S P l.magnitude (Operator.div.Gives l r) e := by
  have hK (hp : P) : Operator.div.magnitude l.magnitude r.magnitude < Word.halfBound :=
    (hl.bounded hp).magnitude_lt
  unfold div
  split
  · rename_i id c
    by_cases hc : c = 0
    · -- a quotient by the literal 0 stays as it is
      rw [divLiteral.eq_def, if_pos hc]
      exact node_meets hK hreuse hl hr
    · refine (divLiteral_meets hreuse hc hr.holds hl).yields_imp
        (fun _ => l.extent_le_magnitude) ?_
      rintro - a v - ⟨x, y, hx, hy, hxy⟩
      cases hy
      exact ⟨x, hx, (div_eq_ok hxy).2⟩
  · refine (cancel?_meets hl hr.holds fun hp => ?_).bind fun k e? hle he? => ?_
    · exact (range_of_bounded (hr.bounded hp)).imp fun _ hr => hr.1
    · split
      · exact Build.meets_pure (he? _ rfl)
      · exact finish_meets hK (hreuse.mono hle) (hl.mono hle) (hr.mono hle)

end InputSolver.Normal
