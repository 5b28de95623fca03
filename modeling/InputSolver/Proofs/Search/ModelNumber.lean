/-
  InputSolver — model numbers.

  The digits of a solution in a row are a decimal number.

  * `decimal_before`: of two lists of digits of one length, the one that comes
    first in search order has the larger number, or the smaller one, as the
    direction asks for;
  * `completion_of_first`: the first solution is completed to the digits that
    come first among all that reach the target;
  * `complete_extremal`: so they have the largest number, or the smallest one.
-/
import InputSolver.Proofs.Search.Completion
import InputSolver.Proofs.Search.Found
import InputSolver.Proofs.Text.Number

namespace InputSolver

/-! ## Digits as a number -/

theorem Digit.toList_text {d : Word} (hd : isDigit d = true) :
    (Word.text d).toList = [Nat.digitChar d.toInt.toNat] := by
  have hbounds := toInt_bounds hd
  rw [Word.toList_text, if_pos (by omega), Nat.toDigits_of_lt_base (by omega)]

/-- The decimal number of some digits, after a number that was read before. -/
def decimal (n : Nat) (ds : List Word) : Nat := ds.foldl (fun n d => 10 * n + d.toInt.toNat) n

theorem decimal_cons (n : Nat) (d : Word) (ds : List Word) :
    decimal n (d :: ds) = decimal (10 * n + d.toInt.toNat) ds := rfl

theorem ofDigitChars_text {ds : List Word} (hds : ∀ d ∈ ds, Digit.isDigit d = true) (n : Nat) :
    Nat.ofDigitChars 10 ((ds.map Word.text).flatMap String.toList) n = decimal n ds := by
  induction ds generalizing n with
  | nil => rfl
  | cons d ds ih =>
    obtain ⟨hd, hds⟩ := List.forall_mem_cons.1 hds
    have hbounds := Digit.toInt_bounds hd
    have hchar : (Nat.digitChar d.toInt.toNat).toNat - '0'.toNat = d.toInt.toNat :=
      Nat.toNat_digitChar_sub_48_of_lt_ten (by omega)
    rw [List.map_cons, List.flatMap_cons, Digit.toList_text hd, List.singleton_append,
      Nat.ofDigitChars_cons, hchar, ih hds, decimal_cons]

/-- The model number as a number. -/
def Solution.number (s : Solution) : Nat := Nat.ofDigitChars 10 s.modelNumber.toList 0

theorem Solution.number_eq {s : Solution} (hs : ∀ d ∈ s.digits, Digit.isDigit d = true) :
    s.number = decimal 0 s.digits := by
  rw [number, modelNumber, String.toList_join, ofDigitChars_text hs]

/-- A larger number stays larger, whatever digits follow. -/
theorem decimal_lt {n m : Nat} (h : n < m) {as bs : List Word} (hlength : as.length = bs.length)
    (has : ∀ d ∈ as, Digit.isDigit d = true) : decimal n as < decimal m bs := by
  induction as generalizing n m bs with
  | nil =>
    obtain rfl := List.length_eq_zero_iff.1 hlength.symm
    exact h
  | cons a as ih =>
    obtain ⟨b, bs, rfl⟩ := List.exists_cons_of_length_eq_add_one hlength.symm
    obtain ⟨ha, has⟩ := List.forall_mem_cons.1 has
    have hbound := Digit.toInt_bounds ha
    rw [decimal_cons, decimal_cons]
    exact ih (by omega) (Nat.succ.inj hlength) has

/-- Digits that come first in search order have the larger number, or the
    smaller one. -/
theorem decimal_before {direction : Direction} {as bs : List Word}
    (hlex : List.Lex direction.Before as bs) (hlength : as.length = bs.length)
    (has : ∀ d ∈ as, Digit.isDigit d = true) (hbs : ∀ d ∈ bs, Digit.isDigit d = true) (n : Nat) :
    (direction = .largest → decimal n bs < decimal n as) ∧
      (direction = .smallest → decimal n as < decimal n bs) := by
  induction hlex generalizing n with
  | nil => cases hlength
  | cons _ ih =>
    simp only [decimal_cons]
    exact ih (Nat.succ.inj hlength) (List.forall_mem_cons.1 has).2 (List.forall_mem_cons.1 hbs).2 _
  | rel h =>
    obtain ⟨ha, has⟩ := List.forall_mem_cons.1 has
    obtain ⟨hb, hbs⟩ := List.forall_mem_cons.1 hbs
    replace hlength := Nat.succ.inj hlength
    have hboundA := Digit.toInt_bounds ha
    have hboundB := Digit.toInt_bounds hb
    simp only [decimal_cons]
    constructor
    · rintro rfl
      have hlt := Int64.lt_iff_toInt_lt.1 h
      exact decimal_lt (by omega) hlength.symm hbs
    · rintro rfl
      have hlt := Int64.lt_iff_toInt_lt.1 h
      exact decimal_lt (by omega) hlength has

/-- No digits have a better number than those that come first. -/
theorem decimal_first {direction : Direction} {as bs : List Word}
    (hfirst : as = bs ∨ List.Lex direction.Before as bs) (hlength : as.length = bs.length)
    (has : ∀ d ∈ as, Digit.isDigit d = true) (hbs : ∀ d ∈ bs, Digit.isDigit d = true) (n : Nat) :
    (direction = .largest → decimal n bs ≤ decimal n as) ∧
      (direction = .smallest → decimal n as ≤ decimal n bs) := by
  rcases hfirst with rfl | hlex
  · exact ⟨fun _ => Nat.le_refl _, fun _ => Nat.le_refl _⟩
  · have hbefore := decimal_before hlex hlength has hbs n
    exact ⟨fun hd => Nat.le_of_lt (hbefore.1 hd), fun hd => Nat.le_of_lt (hbefore.2 hd)⟩

namespace Solution

open Backtrack InputSolver.Expr

variable {total : Nat}

/-- A solution for the first inputs binds them to its digits. -/
theorem get?_assignment_range {s : Solution} (hs : s.inputs = List.range total) (i : Nat) :
    s.assignment.get? i = s.digits[i]? := by
  have hlength := s.length_eq
  rw [hs, List.length_range] at hlength
  refine Option.ext fun v => ?_
  rw [assignment, hs, Assignment.get?_ofPairs_zip List.pairwise_lt_range, List.mem_iff_getElem?]
  simp only [List.getElem?_zip_eq_some]
  constructor
  · rintro ⟨k, hk, hv⟩
    obtain ⟨-, rfl⟩ := List.getElem?_eq_some_iff.1 hk
    rwa [List.getElem_range]
  · intro hv
    obtain ⟨hi, -⟩ := List.getElem?_eq_some_iff.1 hv
    exact ⟨i, List.getElem?_range (hlength ▸ hi), hv⟩

/-- It has the values of these digits. -/
theorem evaluate_assignment_range {h : Heap} {e : Expr} (he : h.Holds e) {s : Solution}
    (hs : s.inputs = List.range total) :
    e.evaluate s.assignment = e.evaluate (.ofDigits s.digits) := by
  rw [evaluate_eq_valueOn he, evaluate_eq_valueOn he]
  refine valueOn_congr fun i _ => ?_
  rw [get?_assignment_range hs, Assignment.get?_ofDigits]

/-- The first solution is completed to digits that come first among all that
    reach the target. -/
theorem completion_of_first {h : Heap} {q : Query} (hholds : h.Holds q.expr) {s : Solution}
    (hs : q.IsFirstSolution [] (some s)) (hlt : ∀ i ∈ s.inputs, i < total) {ds : List Word}
    (hlength : ds.length = total) (hds : ∀ d ∈ ds, Digit.isDigit d = true)
    (hvalue : q.expr.evaluate (.ofDigits ds) = .ok q.target) :
    s.completion total q.direction = ds ∨
      List.Lex q.direction.Before (s.completion total q.direction) ds := by
  obtain ⟨hsolves, hbefore⟩ := hs
  -- the digits for the inputs that occur are a solution themselves
  obtain ⟨s', hs', hext⟩ := Query.exists_solves hholds (Assignment.digits_ofDigits hds) hvalue
  have hinputs : s'.inputs = s.inputs := hs'.ascending.eq_of_mem_iff hsolves.ascending fun i =>
    (hs'.inputs i).trans (hsolves.inputs i).symm
  exact completion_first hsolves.ascending hlt hinputs (hbefore s' hs') hlength hds hext

/-- The first solution is completed to digits for all inputs that extend it and
    reach the target, and no digits that do have a better number. -/
theorem complete_extremal {q : Query} (hgraph : Coherent [q.expr]) {s : Solution}
    (hs : q.IsFirstSolution [] (some s)) (hall : ∀ i, q.expr.Mentions i → i < total)
    (htotal : total < Word.countBound) : ∃ t, s.complete total q.direction = .ok t ∧
      t.inputs = List.range total ∧ t.digits.length = total ∧
      (∀ d ∈ t.digits, Digit.isDigit d = true) ∧ s.assignment.ExtendedBy t.assignment ∧
      q.expr.evaluate t.assignment = .ok q.target ∧
      ∀ u : Solution, u.inputs = List.range total → (∀ d ∈ u.digits, Digit.isDigit d = true) →
        q.expr.evaluate u.assignment = .ok q.target →
          (q.direction = .largest → u.number ≤ t.number) ∧
            (q.direction = .smallest → t.number ≤ u.number) := by
  obtain ⟨h, hholds⟩ := Heap.exists_holds_root hgraph
  have hsolves := hs.1
  have hlt (i : Nat) (hi : i ∈ s.inputs) : i < total := hall i ((hsolves.inputs i).1 hi)
  obtain ⟨t, ht, hinputs, hdigits⟩ := complete_eq_ok q.direction hlt htotal
  have htdigits : ∀ d ∈ t.digits, Digit.isDigit d = true := by
    rw [hdigits]
    exact digits_completion hsolves.ascending total q.direction hsolves.digits
  have htlength : t.digits.length = total := by rw [hdigits, length_completion]
  have hext : s.assignment.ExtendedBy t.assignment := by
    intro i v hv
    have hkept := extendedBy_completion hsolves.ascending q.direction hlt i v hv
    rwa [get?_assignment_range hinputs, hdigits, ← Assignment.get?_ofDigits]
  refine ⟨t, ht, hinputs, htlength, htdigits, hext, ?_, fun u hu hudigits huvalue => ?_⟩
  · rw [evaluate_eq_valueOn hholds]
    exact valueOn_extend hext ((evaluate_eq_valueOn hholds _).symm.trans hsolves.value)
  · have hulength : u.digits.length = total := by rw [← u.length_eq, hu, List.length_range]
    rw [evaluate_assignment_range hholds hu] at huvalue
    have hfirst := completion_of_first hholds hs hlt hulength hudigits huvalue
    rw [← hdigits] at hfirst
    rw [number_eq htdigits, number_eq hudigits]
    exact decimal_first hfirst (htlength.trans hulength.symm) htdigits hudigits 0

/-- A sum of the second and the fourth input. -/
def evenSum : Query := ⟨.binary 2 false .add (.input 0 1) (.input 1 3), 9, .largest,
  .constant false⟩

/-- The digits 8 and 1 are the first ones that add up to 9. -/
theorem isFirst_evenSum {h : Heap} (hholds : h.Holds evenSum.expr) :
    evenSum.IsFirstSolution [] (some ⟨[1, 3], [8, 1], rfl⟩) := by
  have hmentions (i : Nat) : evenSum.expr.Mentions i ↔ i ∈ [1, 3] := by
    simp [evenSum, mentions_binary, mentions_input, eq_comm]
  refine ⟨⟨by decide, fun i => (hmentions i).symm, List.all_eq_true.1 (by decide), by decide, ?_⟩,
    fun t ht => ?_⟩
  · rw [evaluate_eq_valueOn hholds]
    decide
  · obtain ⟨inputs, digits, hlength⟩ := t
    obtain ⟨hasc, hinputs, hdigits, -, hvalue⟩ := ht
    obtain rfl : inputs = [1, 3] := hasc.eq_of_mem_iff (by decide) fun i =>
      (hinputs i).trans (hmentions i)
    obtain ⟨a, b, rfl⟩ := List.length_eq_two.1 hlength.symm
    rw [evaluate_eq_valueOn hholds] at hvalue
    obtain ⟨ha, hb⟩ : Digit.isDigit a = true ∧ Digit.isDigit b = true := by simpa using hdigits
    have hboundA := Digit.toInt_bounds ha
    have hboundB := Digit.toInt_bounds hb
    have hsum : a.toInt + b.toInt = 9 := by
      have hvalue : a + b = 9 := Except.ok.inj hvalue
      rw [← Word.toInt_add ⟨by omega, by omega⟩, hvalue]
      rfl
    obtain hlt | heq : a.toInt < 8 ∨ a.toInt = 8 := by omega
    · exact .inr (.rel (Int64.lt_iff_toInt_lt.2 hlt))
    · obtain rfl : a = 8 := Word.eq_of_toInt_eq heq
      obtain rfl : b = 1 := Word.eq_of_toInt_eq (show b.toInt = 1 by omega)
      exact .inl rfl

theorem complete_extremal_evenSum : ∃ t, complete ⟨[1, 3], [8, 1], rfl⟩ 5 .largest = .ok t ∧
    t.number = 98919 ∧ ∀ u : Solution, u.inputs = List.range 5 →
      (∀ d ∈ u.digits, Digit.isDigit d = true) →
      evenSum.expr.evaluate u.assignment = .ok 9 → u.number ≤ 98919 := by
  have hgraph : Coherent [evenSum.expr] := by simp [Coherent, evenSum, nodes, Expr.id]
  obtain ⟨h, hholds⟩ := Heap.exists_holds_root hgraph
  have hall (i : Nat) (hi : evenSum.expr.Mentions i) : i < 5 := by
    simp only [evenSum, mentions_binary, mentions_input] at hi
    omega
  obtain ⟨t, ht, -, -, htdigits, -, -, hlargest⟩ := complete_extremal hgraph
    (isFirst_evenSum hholds) hall (by decide)
  have hdigits : t.digits = [9, 8, 9, 1, 9] := by
    cases ht
    decide
  have hnumber : t.number = 98919 := by
    rw [number_eq htdigits, hdigits]
    decide
  exact ⟨t, ht, hnumber, fun u hu hud huv => hnumber ▸ (hlargest u hu hud huv).1 rfl⟩

end Solution

end InputSolver
