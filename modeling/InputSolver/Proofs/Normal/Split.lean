/-
  InputSolver — splitting a sum by a divisor.

  * `SumsTo.ofTerms`: the terms of a sum add up to it;
  * `splitSum_meets`: where a sum splits, its multiples of the divisor and the
    rest add up to it and agree in sign.
-/
import InputSolver.Normal.Split
import InputSolver.Proofs.Division
import InputSolver.Proofs.Normal.Sum

namespace InputSolver.Normal

open InputSolver.Expr

variable {S : Nat → Prop} {P : Prop} {h : Heap}

/-! ## Terms -/

theorem SumsTo.append {a : Assignment} {ts us : List Expr} {x y : Word} (hx : SumsTo a ts x)
    (hy : SumsTo a us y) : SumsTo a (ts ++ us) (x + y) := by
  induction ts generalizing x with
  | nil =>
    obtain rfl := hx
    rw [Int64.zero_add]
    exact hy
  | cons t ts ih =>
    obtain ⟨v, w, hv, hw, rfl⟩ := hx
    exact ⟨v, w + y, hv, ih hw, Int64.add_assoc ..⟩

theorem totalExtent_append (ts us : List Expr) :
    totalExtent (ts ++ us) = totalExtent ts + totalExtent us := by
  induction ts with
  | nil => exact (Nat.zero_add _).symm
  | cons t ts ih => simp only [List.cons_append, totalExtent, ih, Nat.add_assoc]

/-- The terms of a sum add up to it. -/
theorem SumsTo.ofTerms {a : Assignment} {e : Expr} {v : Word} (hv : e.valueOn a = .ok v) :
    SumsTo a (termsOf e) v := by
  fun_induction termsOf e generalizing v with
  | case1 id settled l r ihl ihr =>
    obtain ⟨x, y, hx, hy, hxy⟩ := valueOn_binary.1 hv
    cases hxy
    exact (ihl hx).append (ihr hy)
  | case2 e => exact ⟨v, 0, hv, rfl, (Int64.add_zero v).symm⟩

theorem totalExtent_termsOf_le (e : Expr) : totalExtent (termsOf e) ≤ e.magnitude := by
  fun_induction termsOf e with
  | case1 id settled l r ihl ihr =>
    rw [totalExtent_append]
    exact Nat.add_le_add ihl ihr
  | case2 e => exact e.extent_le_magnitude

theorem operand_termsOf {e : Expr} (he : Operand h S P e) {t : Expr} (ht : t ∈ termsOf e) :
    Operand h S P t := by
  fun_induction termsOf e with
  | case1 id settled l r ihl ihr =>
    rcases List.mem_append.1 ht with ht | ht
    · exact ihl he.left ht
    · exact ihr he.right ht
  | case2 e =>
    obtain rfl := List.mem_singleton.1 ht
    exact he

/-! ## Multiples -/

/-- All values over digits are multiples of `c`. -/
def Multiple (c : Word) (e : Expr) : Prop :=
  ∀ a v, a.Digits → e.valueOn a = .ok v → c.toInt ∣ v.toInt

theorem isMultiple_of_bounded {e : Expr} (he : e.Bounded) (c : Word) :
    ∃ b, isMultiple c e = .ok b ∧ (b = true → Multiple c e) := by
  -- what the range knows
  have ofRange : ∃ b, (do (← e.range).multiplesOf c : Except Fault Bool) = .ok b ∧
      (b = true → Multiple c e) := by
    obtain ⟨r, hr, hb, hx⟩ := range_of_bounded he
    have hlt := he.magnitude_lt
    obtain ⟨b, hb, hbx⟩ := Range.multiplesOf_of_bounded (M := e.magnitude)
      (by unfold Word.halfBound at hlt; omega) hb c
    refine ⟨b, by rw [hr]; exact hb, fun hbt a v ha hv => hbx hbt _ (hx a v ha hv)⟩
  unfold isMultiple
  split
  · rename_i id value
    refine ⟨_, rfl, fun hd a v _ hv => ?_⟩
    cases hv
    exact (Word.dvd_of_divides hd).2
  · rename_i id settled x j k
    split
    · rename_i hd
      refine ⟨true, rfl, fun _ a v ha hv => ?_⟩
      obtain ⟨y, k', hy, hk', hyk⟩ := valueOn_binary.1 hv
      have hk := he.right.natAbs_le ha hk'
      cases hk'
      cases hyk
      rw [Word.toInt_mul (Range.inRange_mul he.magnitude_lt (he.left.natAbs_le ha hy) hk)]
      exact Int.dvd_trans (Word.dvd_of_divides hd).2 (Int.dvd_mul_left ..)
    · exact ofRange
  · exact ofRange

theorem multiple_of_isMultiple {c : Word} {e : Expr} (he : e.Bounded)
    (hm : isMultiple c e = .ok true) : Multiple c e := by
  obtain ⟨b, hb, hbm⟩ := isMultiple_of_bounded he c
  cases hm.symm.trans hb
  exact hbm rfl

theorem separate_cons {c : Word} {t : Expr} {ts ms os : List Expr}
    (hsep : separate c (t :: ts) = .ok (ms, os)) :
    ∃ b ms' os', isMultiple c t = .ok b ∧ separate c ts = .ok (ms', os') ∧
      (ms, os) = if b then (t :: ms', os') else (ms', t :: os') := by
  simp only [separate, bind, Except.bind, pure, Except.pure] at hsep
  split at hsep
  · cases hsep
  · rename_i b hb
    split at hsep
    · cases hsep
    · rename_i p hp
      exact ⟨b, p.1, p.2, hb, hp, (Except.ok.inj hsep).symm⟩

/-- Separating terms keeps them all, in two lists. -/
theorem separate_eq_ok {c : Word} {ts ms os : List Expr} (hsep : separate c ts = .ok (ms, os)) :
    (∀ t, t ∈ ms ∨ t ∈ os → t ∈ ts) ∧ totalExtent ms + totalExtent os = totalExtent ts ∧
      (∀ m ∈ ms, isMultiple c m = .ok true) ∧
      ∀ a v, SumsTo a ts v → ∃ x y, SumsTo a ms x ∧ SumsTo a os y ∧ v = x + y := by
  induction ts generalizing ms os with
  | nil =>
    cases hsep
    refine ⟨by simp, rfl, by simp, ?_⟩
    rintro a v rfl
    exact ⟨0, 0, rfl, rfl, rfl⟩
  | cons t ts ih =>
    obtain ⟨b, ms', os', hb, hsep', heq⟩ := separate_cons hsep
    obtain ⟨hmem, hsize, hmult, hsum⟩ := ih hsep'
    cases b with
    | true =>
      cases heq
      refine ⟨fun u hu => ?_, by simp only [totalExtent]; omega, fun m hm => ?_, ?_⟩
      · rcases hu with hu | hu
        · rcases List.mem_cons.1 hu with rfl | hu
          · exact List.mem_cons_self
          · exact List.mem_cons_of_mem _ (hmem u (.inl hu))
        · exact List.mem_cons_of_mem _ (hmem u (.inr hu))
      · rcases List.mem_cons.1 hm with rfl | hm
        · exact hb
        · exact hmult m hm
      · rintro a _ ⟨x, _, hx, hrest, rfl⟩
        obtain ⟨y, z, hy, hz, rfl⟩ := hsum a _ hrest
        exact ⟨x + y, z, ⟨x, y, hx, hy, rfl⟩, hz, (Int64.add_assoc ..).symm⟩
    | false =>
      cases heq
      refine ⟨fun u hu => ?_, by simp only [totalExtent]; omega, hmult, ?_⟩
      · rcases hu with hu | hu
        · exact List.mem_cons_of_mem _ (hmem u (.inl hu))
        · rcases List.mem_cons.1 hu with rfl | hu
          · exact List.mem_cons_self
          · exact List.mem_cons_of_mem _ (hmem u (.inr hu))
      · rintro a _ ⟨x, _, hx, hrest, rfl⟩
        obtain ⟨y, z, hy, hz, rfl⟩ := hsum a _ hrest
        refine ⟨y, x + z, hy, ⟨x, z, hx, hz, rfl⟩, ?_⟩
        rw [← Int64.add_assoc, Int64.add_comm x y, Int64.add_assoc]

theorem separate_of_bounded {ts : List Expr} (hts : ∀ t ∈ ts, t.Bounded) (c : Word) :
    ∃ p, separate c ts = .ok p := by
  induction ts with
  | nil => exact ⟨_, rfl⟩
  | cons t ts ih =>
    obtain ⟨b, hb, -⟩ := isMultiple_of_bounded (hts t List.mem_cons_self) c
    obtain ⟨p, hp⟩ := ih fun u hu => hts u (List.mem_cons_of_mem _ hu)
    rw [separate, hb, hp]
    exact ⟨_, rfl⟩

/-! ## Splitting -/

/-- What a split of a sum by `c` says. -/
structure Splits (h : Heap) (S : Nat → Prop) (P : Prop) (sum : Expr) (c : Word) (s : Split) :
    Prop where
  multiples : ∀ m ∈ s.multiples, Operand h S P m
  rest : Operand h S P s.rest
  multiple : P → ∀ m ∈ s.multiples, Multiple c m
  extent_le : P → totalExtent s.multiples + s.rest.extent ≤ sum.magnitude
  value : P → ∀ a v, a.Digits → sum.valueOn a = .ok v → ∃ x y, SumsTo a s.multiples x ∧
    s.rest.valueOn a = .ok y ∧ v = x + y ∧ Division.SameSign x.toInt y.toInt

theorem Splits.mono {sum : Expr} {c : Word} {s : Split} (hs : Splits h S P sum c s) {k : Heap}
    (hle : h ≤ k) : Splits k S P sum c s :=
  ⟨fun m hm => (hs.multiples m hm).mono hle, hs.rest.mono hle, hs.multiple, hs.extent_le, hs.value⟩

theorem sameSign_of_agreeInSign {r s : Range} (hrs : agreeInSign r s = true) {x y : Int}
    (hx : x ∈ r) (hy : y ∈ s) : Division.SameSign x y := by
  simp only [agreeInSign, Bool.or_eq_true, Bool.and_eq_true] at hrs
  rcases hrs with ⟨hr, hs⟩ | ⟨hr, hs⟩
  · exact .inl ⟨Range.of_isNonnegative hr hx, Range.of_isNonnegative hs hy⟩
  · exact .inr ⟨Range.of_isNonpositive hr hx, Range.of_isNonpositive hs hy⟩

/-- Where a sum splits, both parts add up to it and agree in sign. -/
theorem splitSum_meets {sum : Expr} (hsum : Operand h S P sum) (c : Word) :
    (splitSum sum c).Meets h P fun k s? => ∀ s, s? = some s → Splits k S P sum c s := by
  unfold splitSum
  refine (Build.meets_lift (Q := fun k p => k = h ∧ separate c (termsOf sum) = .ok p) (fun hp => ?_)
    fun p hp => ⟨rfl, hp⟩).bind fun k p _ hk => ?_
  · exact separate_of_bounded (fun t ht => (operand_termsOf hsum ht).bounded hp) c
  obtain ⟨rfl, hsep⟩ := hk
  obtain ⟨ms, os⟩ := p
  obtain ⟨hmem, hsize, hmult, hvalue⟩ := separate_eq_ok hsep
  have hbound (hp : P) : totalExtent ms + totalExtent os ≤ sum.magnitude ∧
      sum.magnitude < Word.halfBound :=
    ⟨hsize ▸ totalExtent_termsOf_le sum, (hsum.bounded hp).magnitude_lt⟩
  have hms (m : Expr) (hm : m ∈ ms) : Operand k S P m :=
    operand_termsOf hsum (hmem m (.inl hm))
  have hos (o : Expr) (ho : o ∈ os) : Operand k S P o :=
    operand_termsOf hsum (hmem o (.inr ho))
  simp only
  split
  · exact Build.meets_pure nofun
  · refine (sumOf_meets hms fun hp => ?_).bind fun k₁ multipleSum hle₁ hmultipleSum => ?_
    · have := hbound hp
      omega
    refine (sumOf_meets (fun o ho => (hos o ho).mono hle₁) fun hp => ?_).bind
      fun k₂ rest hle₂ hrest => ?_
    · have := hbound hp
      omega
    refine (range_meets hmultipleSum.bounded).bind fun k₃ r _ hk₃ => ?_
    obtain ⟨rfl, hr⟩ := hk₃
    refine (range_meets hrest.bounded).bind fun k₄ t _ hk₄ => ?_
    obtain ⟨rfl, ht⟩ := hk₄
    split
    · rename_i hsign
      refine Build.meets_pure ?_
      rintro s ⟨⟩
      refine ⟨fun m hm => ((hms m hm).mono hle₁).mono hle₂, hrest.toOperand, fun hp m hm => ?_,
        fun hp => ?_, fun hp a v ha hv => ?_⟩
      · exact multiple_of_isMultiple ((hms m hm).bounded hp) (hmult m hm)
      · have := hrest.extent_le hp
        have := hbound hp
        simp only
        omega
      · obtain ⟨x, y, hx, hy, rfl⟩ := hvalue a v (SumsTo.ofTerms hv)
        have hy' := hrest.value hp a y ha hy
        have hx' := hmultipleSum.value hp a x ha hx
        refine ⟨x, y, hx, hy', rfl, sameSign_of_agreeInSign hsign ?_ ?_⟩
        · exact ((hmultipleSum.bounded hp).of_range hr).2 a x ha hx'
        · exact ((hrest.bounded hp).of_range ht).2 a y ha hy'
    · exact Build.meets_pure nofun

/-- The sum of some terms is no larger than their extents. -/
theorem SumsTo.natAbs_le {a : Assignment} (ha : a.Digits) {ts : List Expr}
    (hts : ∀ t ∈ ts, t.Bounded) (hK : totalExtent ts < Word.halfBound) {v : Word}
    (hv : SumsTo a ts v) : v.toInt.natAbs ≤ totalExtent ts := by
  induction ts generalizing v with
  | nil =>
    obtain rfl := hv
    exact Nat.le_refl 0
  | cons t ts ih =>
    obtain ⟨x, y, hx, hy, rfl⟩ := hv
    simp only [totalExtent] at hK ⊢
    have hx' := (hts t List.mem_cons_self).natAbs_le_extent ha hx
    have hy' := ih (fun u hu => hts u (List.mem_cons_of_mem _ hu)) (by omega) hy
    rw [Word.toInt_add (Range.inRange_add hK hx' hy')]
    omega

/-- The sum of some multiples is a multiple. -/
theorem SumsTo.dvd {a : Assignment} (ha : a.Digits) {c : Word} {ts : List Expr}
    (hts : ∀ t ∈ ts, t.Bounded) (hK : totalExtent ts < Word.halfBound)
    (hc : ∀ t ∈ ts, Multiple c t) {v : Word} (hv : SumsTo a ts v) : c.toInt ∣ v.toInt := by
  induction ts generalizing v with
  | nil =>
    obtain rfl := hv
    exact Int.dvd_zero _
  | cons t ts ih =>
    obtain ⟨x, y, hx, hy, rfl⟩ := hv
    simp only [totalExtent] at hK
    have hts' (u : Expr) (hu : u ∈ ts) := hts u (List.mem_cons_of_mem _ hu)
    have hx' := (hts t List.mem_cons_self).natAbs_le_extent ha hx
    have hy' := hy.natAbs_le ha hts' (by omega)
    rw [Word.toInt_add (Range.inRange_add hK hx' hy')]
    exact Int.dvd_add (hc t List.mem_cons_self a x ha hx)
      (ih hts' (by omega) (fun u hu => hc u (List.mem_cons_of_mem _ hu)) hy)

/-- A value of a sum that splits comes from two values of one sign, the first
    of them a multiple. -/
theorem Splits.parts {k : Heap} {sum : Expr} {c : Word} {s : Split} (hs : Splits k S P sum c s)
    (hp : P) (hsum : sum.Bounded) {a : Assignment} (ha : a.Digits) {v : Word}
    (hv : sum.valueOn a = .ok v) :
    ∃ x y, SumsTo a s.multiples x ∧ s.rest.valueOn a = .ok y ∧ v = x + y ∧
      x.toInt.natAbs ≤ totalExtent s.multiples ∧ y.toInt.natAbs ≤ s.rest.extent ∧
      c.toInt ∣ x.toInt ∧ Division.SameSign x.toInt y.toInt := by
  obtain ⟨x, y, hx, hy, rfl, hsign⟩ := hs.value hp a v ha hv
  have hsize := hs.extent_le hp
  have hlt := hsum.magnitude_lt
  have hms (m : Expr) (hm : m ∈ s.multiples) : m.Bounded := (hs.multiples m hm).bounded hp
  exact ⟨x, y, hx, hy, rfl, hx.natAbs_le ha hms (by omega),
    (hs.rest.bounded hp).natAbs_le_extent ha hy, hx.dvd ha hms (by omega) (hs.multiple hp), hsign⟩

end InputSolver.Normal
