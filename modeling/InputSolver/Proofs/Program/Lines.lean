/-
  InputSolver — programs line by line.

  The tokens of a line are the pieces between white space before the first
  comment mark.  What a text is read to depends on its lines of tokens only.

  * `mapError_ofText`: texts with the same lines of tokens are read to the same
    program, or fail for the same reason;
  * `ofLines_eq_error_iff`, `ofLines_eq_ok_iff`: the first line that cannot be
    read is the one reported, and without such a line there is an instruction
    for every line that is not blank;
  * `ofText_lines`: so it is with whole texts, which must have an instruction.
-/
import Mathlib.Data.List.Forall2
import InputSolver.Program.Parse
import InputSolver.Proofs.Text.Fields

namespace InputSolver

open Text

/-! ## Tokens of a line -/

namespace Instruction

/-- The pieces between white space before the first comment mark. -/
def tokens (line : List Char) : List (List Char) :=
  ((code line).splitOnP isBlank).filter (!·.isEmpty)

/-- A line of nothing but white space and perhaps a comment. -/
def isBlankLine (line : List Char) : Bool := (code line).all isBlank

/-- What tokens are read to. -/
def ofTokens (ts : List (List Char)) : Except FieldError (Option Instruction) :=
  match ts.map String.ofList with
  | [] => .ok none
  | mnemonic :: operands => some <$> ofFields mnemonic operands

theorem ofLine_eq_ofTokens (line : List Char) : ofLine line = ofTokens (tokens line) := by
  rw [ofLine, fields_eq_splitOnP]
  rfl

theorem tokens_eq_nil_iff {line : List Char} : tokens line = [] ↔ isBlankLine line = true := by
  rw [tokens, ← fields_eq_splitOnP, fields_eq_nil_iff]
  rfl

/-- Blank lines hold no instruction, all others do or cannot be read. -/
theorem ofLine_eq_none_iff {line : List Char} :
    ofLine line = .ok none ↔ isBlankLine line = true := by
  rw [ofLine_eq_ofTokens, ← tokens_eq_nil_iff]
  cases tokens line with
  | nil => exact iff_of_true rfl rfl
  | cons t ts =>
    refine iff_of_false (fun h => ?_) (List.cons_ne_nil t ts)
    change some <$> ofFields (String.ofList t) (ts.map String.ofList) = _ at h
    cases hread : ofFields (String.ofList t) (ts.map String.ofList) with
    | error cause =>
      rw [hread] at h
      cases h
    | ok i =>
      rw [hread] at h
      cases h

/-- A carriage return before the line feed changes nothing. -/
theorem ofLine_append_return (line : List Char) : ofLine (line ++ ['\r']) = ofLine line := by
  have hcode : fields (code (line ++ ['\r'])) = fields (code line) := by
    unfold code
    rw [List.takeWhile_append]
    split
    · rename_i hall
      rw [List.takeWhile_cons_of_pos (by decide), List.takeWhile_nil,
        fields_append_blank line (by decide), (List.takeWhile_prefix _).eq_of_length hall]
    · rfl
  rw [ofLine, ofLine, hcode]

end Instruction

/-! ## Lines of tokens -/

/-- An error without its line: what is wrong, but not where. -/
def ProgramError.unplaced : ProgramError → ProgramError
  | line _ _ cause => line 0 "" cause
  | e => e

theorem ProgramError.message_unplaced (e : ProgramError) : e.unplaced.message = e.message := by
  cases e <;> rfl

namespace Program

open Instruction

/-- The tokens of all lines that have any. -/
def tokenLines (text : String) : List (List (List Char)) :=
  ((lines text.toList).map tokens).filter (!·.isEmpty)

/-- What lines of tokens are read to, with errors that name no line. -/
def ofTokenLines : List (List (List Char)) → Except ProgramError Program
  | [] => .ok []
  | ts :: rest =>
    match ofTokens ts with
    | .error cause => .error (.line 0 "" cause)
    | .ok instruction? => (instruction?.toList ++ ·) <$> ofTokenLines rest

theorem ofLines_cons_error {n : Nat} {l : List Char} {ls : List (List Char)} {cause : FieldError}
    (h : ofLine l = .error cause) :
    ofLines n (l :: ls) = .error (.line n (String.ofList (trim l)) cause) := by
  rw [ofLines, h]

theorem ofLines_cons_ok {n : Nat} {l : List Char} {ls : List (List Char)}
    {instruction? : Option Instruction} (h : ofLine l = .ok instruction?) :
    ofLines n (l :: ls) = (instruction?.toList ++ ·) <$> ofLines (n + 1) ls := by
  rw [ofLines, h]

theorem mapError_ofLines (n : Nat) (ls : List (List Char)) :
    (ofLines n ls).mapError ProgramError.unplaced =
      ofTokenLines ((ls.map tokens).filter (!·.isEmpty)) := by
  induction ls generalizing n with
  | nil => rfl
  | cons l ls ih =>
    rw [ofLines, ofLine_eq_ofTokens, List.map_cons]
    by_cases hblank : tokens l = []
    · rw [hblank, List.filter_cons_of_neg (by simp), ← ih (n + 1)]
      change ((fun p => [] ++ p) <$> ofLines (n + 1) ls).mapError _ = _
      cases ofLines (n + 1) ls <;> rfl
    · rw [List.filter_cons_of_pos (by simp [hblank]), ofTokenLines, ← ih (n + 1)]
      cases ofTokens (tokens l) with
      | error cause => rfl
      | ok instruction? => cases ofLines (n + 1) ls <;> rfl

theorem ofText_eq (text : String) :
    ofText text = match ofLines 1 (lines text.toList) with
      | .error e => .error e
      | .ok p => if p.isEmpty then .error .noInstructions else .ok p := by
  rw [ofText]
  cases ofLines 1 (lines text.toList) <;> rfl

/-- Texts with the same lines of tokens are read to the same program, or fail
    for the same reason. -/
theorem mapError_ofText (text : String) :
    (ofText text).mapError ProgramError.unplaced =
      match ofTokenLines (tokenLines text) with
      | .error e => .error e
      | .ok p => if p.isEmpty then .error .noInstructions else .ok p := by
  rw [ofText_eq, tokenLines, ← mapError_ofLines 1]
  cases ofLines 1 (lines text.toList) with
  | error e => rfl
  | ok p =>
    change (if p.isEmpty then Except.error ProgramError.noInstructions
      else Except.ok p).mapError _ = if p.isEmpty then _ else _
    split <;> rfl

/-- What agrees up to the lines that errors name is one program or one
    message. -/
theorem agree_of_mapError_eq {x y : Except ProgramError Program}
    (h : x.mapError ProgramError.unplaced = y.mapError ProgramError.unplaced) :
    (∃ p, x = .ok p ∧ y = .ok p) ∨
      ∃ e e', x = .error e ∧ y = .error e' ∧ e.unplaced = e'.unplaced ∧
        e.message = e'.message := by
  cases x with
  | error e =>
    cases y with
    | error e' =>
      have hunplaced : e.unplaced = e'.unplaced := Except.error.inj h
      refine .inr ⟨e, e', rfl, rfl, hunplaced, ?_⟩
      rw [← e.message_unplaced, hunplaced, e'.message_unplaced]
    | ok p => cases h
  | ok p =>
    cases y with
    | error e' => cases h
    | ok p' =>
      cases h
      exact .inl ⟨p, rfl, rfl⟩

/-! ## The first line that cannot be read -/

/-- The first line that cannot be read, counted from `n`, with what is wrong
    with it. -/
def IsFirstError (n : Nat) (ls : List (List Char)) (e : ProgramError) : Prop :=
  ∃ before line after cause, ls = before ++ line :: after ∧
    (∀ l ∈ before, ∃ instruction?, ofLine l = .ok instruction?) ∧
    ofLine line = .error cause ∧
    e = .line (n + before.length) (String.ofList (trim line)) cause

theorem not_isFirstError_nil (n : Nat) (e : ProgramError) : ¬IsFirstError n [] e := by
  rintro ⟨before, line, after, cause, h, -⟩
  cases before <;> cases h

/-- It is the first line, if that cannot be read; otherwise it comes later. -/
theorem isFirstError_cons {n : Nat} {l : List Char} {ls : List (List Char)} {e : ProgramError} :
    IsFirstError n (l :: ls) e ↔
      (∃ cause, ofLine l = .error cause ∧ e = .line n (String.ofList (trim l)) cause) ∨
        (∃ instruction?, ofLine l = .ok instruction?) ∧ IsFirstError (n + 1) ls e := by
  constructor
  · rintro ⟨before, line, after, cause, heq, hbefore, hline, rfl⟩
    cases before with
    | nil =>
      cases heq
      exact .inl ⟨cause, hline, rfl⟩
    | cons b before =>
      cases heq
      refine .inr ⟨hbefore l List.mem_cons_self, before, line, after, cause, rfl,
        fun x hx => hbefore x (List.mem_cons_of_mem l hx), hline, ?_⟩
      rw [List.length_cons, Nat.add_right_comm, Nat.add_assoc]
  · rintro (⟨cause, hl, rfl⟩ | ⟨hl, before, line, after, cause, rfl, hbefore, hline, rfl⟩)
    · exact ⟨[], l, ls, cause, rfl, nofun, hl, rfl⟩
    · refine ⟨l :: before, line, after, cause, rfl, fun x hx => ?_, hline, ?_⟩
      · rcases List.mem_cons.1 hx with rfl | hx
        · exact hl
        · exact hbefore x hx
      · rw [List.length_cons, Nat.add_right_comm, Nat.add_assoc]

/-- Reading fails at the first line that cannot be read. -/
theorem ofLines_eq_error_iff {n : Nat} {ls : List (List Char)} {e : ProgramError} :
    ofLines n ls = .error e ↔ IsFirstError n ls e := by
  induction ls generalizing n with
  | nil => exact iff_of_false nofun (not_isFirstError_nil n e)
  | cons l ls ih =>
    rw [isFirstError_cons, ← ih]
    cases hl : ofLine l with
    | error cause =>
      rw [ofLines_cons_error hl]
      constructor
      · rintro ⟨⟩
        exact .inl ⟨cause, rfl, rfl⟩
      · rintro (⟨_, ⟨⟩, rfl⟩ | ⟨⟨_, ⟨⟩⟩, -⟩)
        rfl
    | ok instruction? =>
      rw [ofLines_cons_ok hl]
      constructor
      · intro h
        cases hrest : ofLines (n + 1) ls with
        | error e' =>
          rw [hrest] at h
          exact .inr ⟨⟨instruction?, rfl⟩, h⟩
        | ok p =>
          rw [hrest] at h
          cases h
      · rintro (⟨_, ⟨⟩, -⟩ | ⟨-, hrest⟩)
        rw [hrest]
        rfl

/-- It succeeds with an instruction for every line that is not blank. -/
theorem ofLines_eq_ok_iff {n : Nat} {ls : List (List Char)} {p : Program} :
    ofLines n ls = .ok p ↔
      List.Forall₂ (fun l i => ofLine l = .ok (some i)) (ls.filter (!isBlankLine ·)) p := by
  induction ls generalizing n p with
  | nil =>
    rw [List.filter_nil, List.forall₂_nil_left_iff]
    exact ⟨fun h => (Except.ok.inj h).symm, fun h => congrArg _ h.symm⟩
  | cons l ls ih =>
    by_cases hblank : isBlankLine l = true
    · rw [List.filter_cons_of_neg (by simp [hblank]), ← ih (n := n + 1),
        ofLines_cons_ok (ofLine_eq_none_iff.2 hblank)]
      cases ofLines (n + 1) ls <;> exact Iff.rfl
    · rw [List.filter_cons_of_pos (by simp [hblank]), List.forall₂_cons_left_iff]
      cases hl : ofLine l with
      | error cause =>
        rw [ofLines_cons_error hl]
        refine iff_of_false nofun ?_
        rintro ⟨i, q, ⟨⟩, -⟩
      | ok instruction? =>
        cases instruction? with
        | none => exact absurd (ofLine_eq_none_iff.1 hl) hblank
        | some i =>
          rw [ofLines_cons_ok hl]
          constructor
          · intro h
            cases hrest : ofLines (n + 1) ls with
            | error e =>
              rw [hrest] at h
              cases h
            | ok q =>
              rw [hrest] at h
              cases h
              exact ⟨i, q, rfl, ih.1 hrest, rfl⟩
          · rintro ⟨j, q, ⟨⟩, hq, rfl⟩
            rw [ih.2 hq]
            rfl

/-- Nothing is read where all lines are blank, and only there. -/
theorem ofLines_eq_nil_iff {n : Nat} {ls : List (List Char)} :
    ofLines n ls = .ok [] ↔ ∀ l ∈ ls, isBlankLine l = true := by
  rw [ofLines_eq_ok_iff, List.forall₂_nil_right_iff, List.filter_eq_nil_iff]
  simp

/-! ## Whole texts -/

theorem ofText_eq_ok_iff {text : String} {p : Program} :
    ofText text = .ok p ↔ p ≠ [] ∧ ofLines 1 (lines text.toList) = .ok p := by
  rw [ofText_eq]
  cases ofLines 1 (lines text.toList) with
  | error e => exact iff_of_false nofun fun h => nomatch h.2
  | ok q =>
    simp only
    split
    · rename_i hempty
      refine iff_of_false nofun ?_
      rintro ⟨hne, ⟨⟩⟩
      exact hne (List.isEmpty_iff.1 hempty)
    · rename_i hne
      constructor
      · rintro ⟨⟩
        exact ⟨fun hnil => hne (List.isEmpty_iff.2 hnil), rfl⟩
      · exact fun h => h.2

theorem ofText_eq_error_iff {text : String} {e : ProgramError} :
    ofText text = .error e ↔ IsFirstError 1 (lines text.toList) e ∨
      e = .noInstructions ∧ ∀ l ∈ lines text.toList, isBlankLine l = true := by
  rw [← ofLines_eq_error_iff, ← ofLines_eq_nil_iff (n := 1), ofText_eq]
  cases ofLines 1 (lines text.toList) with
  | error e' =>
    constructor
    · exact .inl
    · rintro (h | ⟨-, ⟨⟩⟩)
      exact h
  | ok p =>
    simp only
    split
    · rename_i hempty
      rw [List.isEmpty_iff.1 hempty]
      constructor
      · rintro ⟨⟩
        exact .inr ⟨rfl, rfl⟩
      · rintro (⟨⟨⟩⟩ | ⟨rfl, -⟩)
        rfl
    · rename_i hne
      refine iff_of_false nofun ?_
      rintro (⟨⟨⟩⟩ | ⟨-, ⟨⟩⟩)
      exact hne rfl

/-- Texts are read by their lines of tokens: those with the same tokens on each
    line that has any are read to the same program, or fail for the same reason
    with the same message.  An error with a line is one of the first line that
    cannot be read, with its number, what is wrong with it and its content; the
    only other error is that all lines are blank.  What is read otherwise is one
    instruction for each line that is not blank, in order.  A carriage return at
    the end of a line changes neither what is read nor what is shown of it. -/
theorem ofText_lines (text : String) :
    (∀ other, tokenLines text = tokenLines other →
      (∃ p, ofText text = .ok p ∧ ofText other = .ok p) ∨
        ∃ e e', ofText text = .error e ∧ ofText other = .error e' ∧
          e.unplaced = e'.unplaced ∧ e.message = e'.message) ∧
    (∀ e : ProgramError, 1 ≤ e.lineNumber →
      (ofText text = .error e ↔ IsFirstError 1 (lines text.toList) e)) ∧
    (∀ e : ProgramError, e.lineNumber = 0 →
      (ofText text = .error e ↔
        e = .noInstructions ∧ ∀ l ∈ lines text.toList, isBlankLine l = true)) ∧
    (∀ p, ofText text = .ok p ↔ p ≠ [] ∧ List.Forall₂ (fun l i => ofLine l = .ok (some i))
      ((lines text.toList).filter (!isBlankLine ·)) p) ∧
    ∀ l, ofLine (l ++ ['\r']) = ofLine l ∧ trim (l ++ ['\r']) = trim l := by
  refine ⟨fun other htokens => ?_, fun e he => ?_, fun e he => ?_, fun p => ?_, fun l => ?_⟩
  · exact agree_of_mapError_eq ((mapError_ofText text).trans (htokens ▸ (mapError_ofText other).symm))
  · rw [ofText_eq_error_iff, or_iff_left]
    rintro ⟨rfl, -⟩
    exact absurd he (by decide)
  · rw [ofText_eq_error_iff, or_iff_right]
    rintro ⟨before, line, after, cause, -, -, -, rfl⟩
    exact absurd he (by simp [ProgramError.lineNumber])
  · rw [ofText_eq_ok_iff, ofLines_eq_ok_iff]
  · exact ⟨ofLine_append_return l, trim_append_blank l (by decide)⟩

/-- Comments, blank lines and the ends of lines make no difference; the third
    line of a text is reported before the fourth; a text of comments has no
    instruction. -/
theorem ofText_lines_carriageReturns :
    (let text := "inp w ; digit\r\n\r\n# next\nadd\tw  -1"
      let other := "inp w\n  add w -1\n"
      tokenLines text = tokenLines other ∧
        ∃ p, ofText text = .ok p ∧ ofText other = .ok p) ∧
    (let text := "inp w\n; digit\n add q 1 # bad\r\nsub w 1"
      let e : ProgramError := .line 3 "add q 1 # bad" (.unknownRegister "q")
      1 ≤ e.lineNumber ∧ ofText text = .error e) ∧
    (ProgramError.noInstructions.lineNumber = 0 ∧ ofText " \r\n#\n" = .error .noInstructions) := by
  refine ⟨⟨by decide +kernel, ?_⟩, ⟨by decide, ?_⟩, rfl, ?_⟩
  · rcases (ofText_lines "inp w ; digit\r\n\r\n# next\nadd\tw  -1").1 "inp w\n  add w -1\n"
      (by decide +kernel) with h | ⟨e, -, he, -⟩
    · exact h
    · have hok : (ofText "inp w ; digit\r\n\r\n# next\nadd\tw  -1").isOk = true := by
        decide +kernel
      rw [he] at hok
      cases hok
  · refine ((ofText_lines _).2.1 _ (by decide)).2 ⟨["inp w".toList, "; digit".toList],
      " add q 1 # bad\r".toList, ["sub w 1".toList], .unknownRegister "q", by decide +kernel, ?_,
      by decide +kernel, by decide +kernel⟩
    intro l hl
    simp only [List.mem_cons, List.not_mem_nil, or_false] at hl
    rcases hl with rfl | rfl
    · exact ⟨some (.inp .w), by decide +kernel⟩
    · exact ⟨none, by decide +kernel⟩
  · exact ((ofText_lines _).2.2.1 .noInstructions rfl).2 ⟨rfl, by decide +kernel⟩

end Program

end InputSolver
