/-
  InputSolver — decimal numbers are read as written.

  * `digits_toDigits`: the decimal digits of a number are read as the number,
    up to the limit;
  * `Word.ofText_text`: every word is read as it is written, the lowest one
    among them.
-/
import InputSolver.Text.Number

namespace InputSolver

namespace Text

variable {limit : Nat} {e : NumberError}

theorem digit?_of_isDigit {c : Char} (h : c.isDigit = true) :
    digit? c = some (c.toNat - '0'.toNat) := by
  simp only [Char.isDigit, Bool.and_eq_true, decide_eq_true_eq] at h
  exact if_pos h

/-- Digits only make the number before them larger. -/
theorem le_ofDigitChars (n : Nat) (cs : List Char) : n ≤ Nat.ofDigitChars 10 cs n := by
  induction cs generalizing n with
  | nil => exact Nat.le_refl n
  | cons c cs ih =>
    rw [Nat.ofDigitChars_cons]
    exact Nat.le_trans (by omega) (ih _)

/-- Digits are read to the end as long as their value is within the limit. -/
theorem digitsFrom_eq {cs : List Char} (hcs : ∀ c ∈ cs, c.isDigit = true) {n : Nat}
    (hn : Nat.ofDigitChars 10 cs n ≤ limit) :
    digitsFrom limit e n cs = .ok (Nat.ofDigitChars 10 cs n) := by
  induction cs generalizing n with
  | nil => rfl
  | cons c cs ih =>
    rw [Nat.ofDigitChars_cons, Nat.mul_comm] at hn ⊢
    have hle := Nat.le_trans (le_ofDigitChars _ cs) hn
    simp only [digitsFrom, digit?_of_isDigit (hcs c List.mem_cons_self), if_neg (Nat.not_lt.2 hle)]
    exact ih (fun d hd => hcs d (List.mem_cons_of_mem c hd)) hn

theorem isDigit_of_mem {n : Nat} {c : Char} (h : c ∈ Nat.toDigits 10 n) : c.isDigit = true :=
  Nat.isDigit_of_mem_toDigits (by decide) (Nat.le_refl 10) h

theorem digits_toDigits {n : Nat} (hn : n ≤ limit) :
    digits limit e (Nat.toDigits 10 n) = .ok n := by
  have hread : digitsFrom limit e 0 (Nat.toDigits 10 n) = .ok n := by
    rw [digitsFrom_eq (fun c hc => isDigit_of_mem hc) (by rwa [Nat.ofDigitChars_ten_toDigits]),
      Nat.ofDigitChars_ten_toDigits]
  cases hcs : Nat.toDigits 10 n with
  | nil => exact absurd hcs Nat.toDigits_ne_nil
  | cons c cs => rwa [hcs] at hread

end Text

namespace Word

open InputSolver.Text

theorem toList_text (a : Word) : (text a).toList =
    if 0 ≤ a.toInt then Nat.toDigits 10 a.toInt.toNat
    else '-' :: Nat.toDigits 10 (-a.toInt).toNat := by
  rw [text, Int.toString_eq_repr, Int.repr_eq_if]
  split
  · rw [Nat.toList_repr]
  · rw [String.toList_append, Nat.toList_repr]
    rfl

/-- A text that begins with a digit has no sign. -/
theorem ofText_of_isDigit {c : Char} {cs : List Char} (h : c.isDigit = true) :
    ofText (c :: cs) = (digits 0x7fffffffffffffff .tooLarge (c :: cs)).map Int64.ofNat := by
  unfold ofText
  split
  · rename_i heq
    cases heq
  · rename_i heq
    cases heq
    exact absurd h (by decide)
  · rename_i heq
    cases heq
    exact absurd h (by decide)
  · rfl

/-- Every word is read as it is written. -/
theorem ofText_text (a : Word) : ofText (text a).toList = .ok a := by
  have hlo := a.le_toInt
  have hhi := a.toInt_lt
  rw [toList_text]
  split
  · rename_i ha
    have hread : digits 0x7fffffffffffffff .tooLarge (Nat.toDigits 10 a.toInt.toNat) =
        .ok a.toInt.toNat := digits_toDigits (by omega)
    cases hcs : Nat.toDigits 10 a.toInt.toNat with
    | nil => exact absurd hcs Nat.toDigits_ne_nil
    | cons c cs =>
      rw [ofText_of_isDigit (isDigit_of_mem (hcs ▸ List.mem_cons_self)), ← hcs, hread]
      change Except.ok (Int64.ofNat a.toInt.toNat) = _
      rw [← Int64.ofInt_eq_ofNat, Int.toNat_of_nonneg ha, Int64.ofInt_toInt]
  · rename_i ha
    have hread : digits 0x8000000000000000 .tooSmall (Nat.toDigits 10 (-a.toInt).toNat) =
        .ok (-a.toInt).toNat := digits_toDigits (by omega)
    change (digits 0x8000000000000000 .tooSmall (Nat.toDigits 10 (-a.toInt).toNat)).map
      (fun n => Int64.ofInt (-n)) = _
    rw [hread]
    change Except.ok (Int64.ofInt (-((-a.toInt).toNat : Int))) = _
    rw [Int.toNat_of_nonneg (by omega), Int.neg_neg, Int64.ofInt_toInt]

end Word

end InputSolver
