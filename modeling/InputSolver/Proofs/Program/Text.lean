/-
  InputSolver — programs are read as they are written.

  The text of an instruction are its fields with a space between them, and
  the text of a program are its instructions with a line feed between them.

  * `Instruction.ofLine_text`: an instruction is read as it is written, unless
    it divides by the literal 0;
  * `not_isZeroDivision_of_ofLine`: no line reads as such a division;
  * `text_round_trip`: what this says about whole programs, and where the
    first such division is reported.
-/
import InputSolver.Program.Parse
import InputSolver.Proofs.Text.Fields
import InputSolver.Proofs.Text.Number
import Mathlib.Data.List.TakeWhile

namespace InputSolver

open InputSolver.Text

/-! ## Characters -/

/-- A field that holds no beginning of a comment. -/
structure IsCode (f : List Char) : Prop extends IsField f where
  not_comment : ∀ c ∈ f, c ≠ '#' ∧ c ≠ ';'

theorem isCode_iff {f : List Char} : IsCode f ↔
    f ≠ [] ∧ (f.all fun c => !isBlank c && c != '#' && c != ';') = true := by
  simp only [List.all_eq_true, Bool.and_eq_true, Bool.not_eq_true', bne_iff_ne]
  constructor
  · intro h
    exact ⟨h.ne_nil, fun c hc => ⟨⟨h.not_blank c hc, (h.not_comment c hc).1⟩,
      (h.not_comment c hc).2⟩⟩
  · rintro ⟨hne, h⟩
    exact ⟨⟨hne, fun c hc => (h c hc).1.1⟩, fun c hc => ⟨(h c hc).1.2, (h c hc).2⟩⟩

instance (f : List Char) : Decidable (IsCode f) := decidable_of_iff _ isCode_iff.symm

/-- Decimal digits are neither white space nor the beginning of a comment. -/
theorem Text.isBlank_of_isDigit {c : Char} (h : c.isDigit = true) : isBlank c = false := by
  simp only [Char.isDigit, Bool.and_eq_true, decide_eq_true_eq, ge_iff_le, UInt32.le_iff_toNat_le]
    at h
  obtain ⟨h₁, h₂⟩ := h
  simp only [isBlank, Bool.or_eq_false_iff, Bool.and_eq_false_iff, decide_eq_false_iff_not,
    beq_eq_false_iff_ne, UInt32.le_iff_toNat_le, ne_eq, ← UInt32.toNat_inj]
  change 48 ≤ c.val.toNat at h₁
  change c.val.toNat ≤ 57 at h₂
  simp only [UInt32.reduceToNat]
  omega

theorem Word.mem_text {a : Word} {c : Char} (h : c ∈ (Word.text a).toList) :
    c = '-' ∨ c.isDigit = true := by
  rw [Word.toList_text] at h
  split at h
  · exact .inr (isDigit_of_mem h)
  · rcases List.mem_cons.1 h with rfl | h
    · exact .inl rfl
    · exact .inr (isDigit_of_mem h)

theorem Word.isCode_text (a : Word) : IsCode (Word.text a).toList where
  ne_nil := by
    rw [Word.toList_text]
    split
    · exact Nat.toDigits_ne_nil
    · exact List.cons_ne_nil _ _
  not_blank c hc := by
    rcases Word.mem_text hc with rfl | hc
    · decide
    · exact isBlank_of_isDigit hc
  not_comment c hc := by
    rcases Word.mem_text hc with rfl | hc
    · decide
    · constructor
      · rintro rfl
        exact absurd hc (by decide)
      · rintro rfl
        exact absurd hc (by decide)

/-! ## Instructions -/

theorem Register.isCode_text (r : Register) : IsCode r.text.toList := by
  cases r <;> decide

theorem Operator.isCode_mnemonic (op : Operator) : IsCode op.mnemonic.toList := by
  cases op <;> decide

theorem Operand.isCode_text (rm : Operand) : IsCode rm.text.toList := by
  cases rm with
  | register r => exact r.isCode_text
  | immediate value => exact value.isCode_text

/-- No literal is written as the name of a register. -/
theorem Register.ofText?_literal (a : Word) : Register.ofText? (Word.text a) = none := by
  have hne (r : Register) : Word.text a ≠ r.text := by
    intro heq
    have hmem {c : Char} (hc : c ∈ r.text.toList) : c = '-' ∨ c.isDigit = true :=
      Word.mem_text (heq ▸ hc)
    cases r with
    | w => exact absurd (hmem (c := 'w') (by decide)) (by decide)
    | x => exact absurd (hmem (c := 'x') (by decide)) (by decide)
    | y => exact absurd (hmem (c := 'y') (by decide)) (by decide)
    | z => exact absurd (hmem (c := 'z') (by decide)) (by decide)
  unfold Register.ofText?
  split
  · rename_i heq
    exact absurd heq (hne .w)
  · rename_i heq
    exact absurd heq (hne .x)
  · rename_i heq
    exact absurd heq (hne .y)
  · rename_i heq
    exact absurd heq (hne .z)
  · rfl

theorem Register.ofText_text (r : Register) : Register.ofText r.text = .ok r := by
  rw [Register.ofText, Register.ofText?_text]

theorem Operand.ofText_text (rm : Operand) : Operand.ofText rm.text = .ok rm := by
  cases rm with
  | register r =>
    change Operand.ofText r.text = _
    rw [Operand.ofText, Register.ofText?_text]
  | immediate value =>
    change Operand.ofText (Word.text value) = _
    rw [Operand.ofText, Register.ofText?_literal, Word.ofText_text]

namespace Instruction

/-- An instruction divides by the literal 0, or takes the remainder. -/
def IsZeroDivision (i : Instruction) (op : Operator) : Prop :=
  (op = .div ∨ op = .mod) ∧ ∃ rd, i = .apply op rd (.immediate 0)

theorem refuses_iff {op : Operator} {rd : Register} {rm : Operand} :
    op.refuses rm = true ↔ (apply op rd rm).IsZeroDivision op := by
  simp only [Operator.refuses, IsZeroDivision, decide_eq_true_eq]
  constructor
  · rintro ⟨hop, rfl⟩
    exact ⟨hop, rd, rfl⟩
  · rintro ⟨hop, rd', h⟩
    cases h
    exact ⟨hop, rfl⟩

/-- The fields of an instruction. -/
def parts : Instruction → List String
  | inp rd => ["inp", rd.text]
  | apply op rd rm => [op.mnemonic, rd.text, rm.text]

theorem isCode_of_mem_parts {i : Instruction} {s : String} (h : s ∈ i.parts) :
    IsCode s.toList := by
  cases i with
  | inp rd =>
    simp only [parts, List.mem_cons, List.not_mem_nil, or_false] at h
    rcases h with rfl | rfl
    · decide
    · exact rd.isCode_text
  | apply op rd rm =>
    simp only [parts, List.mem_cons, List.not_mem_nil, or_false] at h
    rcases h with rfl | rfl | rfl
    · exact op.isCode_mnemonic
    · exact rd.isCode_text
    · exact rm.isCode_text

theorem toList_text (i : Instruction) :
    i.text.toList = [' '].intercalate (i.parts.map String.toList) := by
  cases i with
  | inp rd => simp [text, parts]
  | apply op rd rm => simp [text, parts]

theorem isField_of_mem_parts {i : Instruction} {f : List Char}
    (h : f ∈ i.parts.map String.toList) : IsField f := by
  obtain ⟨s, hs, rfl⟩ := List.mem_map.1 h
  exact (isCode_of_mem_parts hs).toIsField

/-- There is no comment in the text of an instruction. -/
theorem code_text (i : Instruction) : code i.text.toList = i.text.toList := by
  refine List.takeWhile_eq_self_iff.2 fun c hc => ?_
  rw [toList_text] at hc
  rcases mem_intercalate hc with rfl | ⟨f, hf, hc⟩
  · decide
  · obtain ⟨s, hs, rfl⟩ := List.mem_map.1 hf
    exact decide_eq_true ((isCode_of_mem_parts hs).not_comment c hc)

theorem fields_text (i : Instruction) :
    (fields (code i.text.toList)).map String.ofList = i.parts := by
  rw [code_text, toList_text, fields_intercalate fun f hf => isField_of_mem_parts hf,
    List.map_map]
  exact (List.map_congr_left fun s _ => String.ofList_toList).trans (List.map_id _)

/-- An operation is read as it is written, unless its operator refuses the
    operand. -/
theorem ofLine_text_apply (op : Operator) (rd : Register) (rm : Operand) :
    ofLine (apply op rd rm).text.toList =
      if op.refuses rm then .error (.zeroDivisor op) else .ok (some (apply op rd rm)) := by
  rw [ofLine, fields_text]
  change some <$> ofFields op.mnemonic [rd.text, rm.text] = _
  rw [ofFields, if_neg (by cases op <;> decide), Operator.ofMnemonic?_mnemonic]
  change some <$> applyOfFields op [rd.text, rm.text] = _
  simp only [applyOfFields, Register.ofText_text, Operand.ofText_text]
  change some <$> (if op.refuses rm then Except.error (FieldError.zeroDivisor op)
    else Except.ok (apply op rd rm)) = _
  split <;> rfl

/-- An instruction is read as it is written, if it does not divide by the
    literal 0. -/
theorem ofLine_text {i : Instruction} (h : ∀ op, ¬i.IsZeroDivision op) :
    ofLine i.text.toList = .ok (some i) := by
  cases i with
  | inp rd =>
    rw [ofLine, fields_text]
    change some <$> inpOfFields [rd.text] = _
    rw [inpOfFields, Register.ofText_text]
    rfl
  | apply op rd rm =>
    rw [ofLine_text_apply, if_neg fun hop => h op (refuses_iff.1 hop)]

theorem ofLine_text_of_isZeroDivision {i : Instruction} {op : Operator}
    (h : i.IsZeroDivision op) : ofLine i.text.toList = .error (.zeroDivisor op) := by
  obtain ⟨hop, rd, rfl⟩ := h
  rw [ofLine_text_apply, if_pos (refuses_iff.2 ⟨hop, rd, rfl⟩)]

/-- No operation is read whose operator refuses the operand. -/
theorem applyOfFields_eq_ok {op : Operator} {fs : List String} {i : Instruction}
    (h : applyOfFields op fs = .ok i) : ∃ rd rm, i = .apply op rd rm ∧ ¬op.refuses rm = true := by
  unfold applyOfFields at h
  split at h
  · rename_i rdText rmText
    cases hrd : Register.ofText rdText with
    | error e =>
      rw [hrd] at h
      cases h
    | ok rd =>
      cases hrm : Operand.ofText rmText with
      | error e =>
        rw [hrd, hrm] at h
        cases h
      | ok rm =>
        rw [hrd, hrm] at h
        change (if op.refuses rm then Except.error (FieldError.zeroDivisor op)
          else Except.ok (apply op rd rm)) = _ at h
        split at h
        · cases h
        · rename_i hrefuses
          cases h
          exact ⟨rd, rm, rfl, hrefuses⟩
  · cases h

theorem inpOfFields_eq_ok {fs : List String} {i : Instruction} (h : inpOfFields fs = .ok i) :
    ∃ rd, i = .inp rd := by
  unfold inpOfFields at h
  split at h
  · rename_i rdText
    cases hrd : Register.ofText rdText with
    | error e =>
      rw [hrd] at h
      cases h
    | ok rd =>
      rw [hrd] at h
      cases h
      exact ⟨rd, rfl⟩
  · cases h

/-- No line is read as a division by the literal 0. -/
theorem not_isZeroDivision_of_ofLine {line : List Char} {i : Instruction}
    (h : ofLine line = .ok (some i)) (op : Operator) : ¬i.IsZeroDivision op := by
  rintro ⟨hop, rd, rfl⟩
  unfold ofLine at h
  split at h
  · cases h
  · rename_i mnemonic operands _
    cases hi : ofFields mnemonic operands with
    | error e =>
      rw [hi] at h
      cases h
    | ok i =>
      rw [hi] at h
      cases h
      unfold ofFields at hi
      split at hi
      · obtain ⟨rd, heq⟩ := inpOfFields_eq_ok hi
        cases heq
      · split at hi
        · obtain ⟨rd, rm, heq, hrefuses⟩ := applyOfFields_eq_ok hi
          cases heq
          exact hrefuses (refuses_iff.2 ⟨hop, rd, rfl⟩)
        · cases hi

theorem trim_text (i : Instruction) : trim i.text.toList = i.text.toList := by
  rw [toList_text, trim_intercalate fun f hf => isField_of_mem_parts hf]

/-- The text of an instruction is a line of its own. -/
theorem text_line (i : Instruction) : i.text.toList ≠ [] ∧ '\n' ∉ i.text.toList := by
  constructor
  · intro hnil
    have hfields := fields_text i
    rw [hnil] at hfields
    cases i <;> cases hfields
  · intro hmem
    rw [toList_text] at hmem
    rcases mem_intercalate hmem with h | ⟨f, hf, h⟩
    · exact absurd h (by decide)
    · exact absurd ((isField_of_mem_parts hf).not_blank _ h) (by decide)

end Instruction

/-! ## Programs -/

namespace Program

open Instruction

theorem lines_text (p : Program) :
    lines p.text.toList = p.map fun i => i.text.toList := by
  have htext : p.text.toList = ['\n'].intercalate (p.map fun i => i.text.toList) := by
    rw [text, String.toList_intercalate, List.map_map]
    rfl
  rw [htext, lines_intercalate]
  intro l hl
  obtain ⟨i, -, rfl⟩ := List.mem_map.1 hl
  exact i.text_line

/-- The lines of instructions are read, then those after them. -/
theorem ofLines_append {p : Program} (hp : ∀ i ∈ p, ∀ op, ¬i.IsZeroDivision op) (n : Nat)
    (rest : List (List Char)) :
    ofLines n ((p.map fun i => i.text.toList) ++ rest) =
      (p ++ ·) <$> ofLines (n + p.length) rest := by
  induction p generalizing n with
  | nil => exact (id_map _).symm
  | cons i p ih =>
    rw [List.map_cons, List.cons_append, ofLines, ofLine_text (hp i List.mem_cons_self)]
    change ([i] ++ ·) <$> ofLines (n + 1) _ = _
    rw [ih fun j hj => hp j (List.mem_cons_of_mem i hj), List.length_cons, Nat.add_right_comm,
      Nat.add_assoc n]
    cases ofLines (n + (p.length + 1)) rest <;> rfl

/-- No program is read that divides by the literal 0. -/
theorem not_isZeroDivision_of_ofLines {n : Nat} {ls : List (List Char)} {p : Program}
    (h : ofLines n ls = .ok p) : ∀ i ∈ p, ∀ op, ¬i.IsZeroDivision op := by
  induction ls generalizing n p with
  | nil =>
    cases h
    exact fun i hi => absurd hi List.not_mem_nil
  | cons l ls ih =>
    rw [ofLines] at h
    split at h
    · cases h
    · rename_i instruction? hline
      cases hrest : ofLines (n + 1) ls with
      | error e =>
        rw [hrest] at h
        cases h
      | ok q =>
        rw [hrest] at h
        cases h
        intro i hi op
        rcases List.mem_append.1 hi with hi | hi
        · rw [Option.mem_toList] at hi
          exact not_isZeroDivision_of_ofLine (hi ▸ hline) op
        · exact ih hrest i hi op

theorem ofText_text {p : Program} (hne : p ≠ [])
    (hp : ∀ i ∈ p, ∀ op, ¬i.IsZeroDivision op) : ofText p.text = .ok p := by
  have hlines : ofLines 1 (lines p.text.toList) = .ok p := by
    have happend := ofLines_append hp 1 []
    rw [List.append_nil] at happend
    rw [lines_text, happend]
    change Except.ok (p ++ []) = _
    rw [List.append_nil]
  rw [ofText, hlines]
  change (if p.isEmpty then Except.error ProgramError.noInstructions else Except.ok p) = _
  rw [if_neg fun h => hne (List.isEmpty_iff.1 h)]

/-- The first division by the literal 0 is reported with its line. -/
theorem ofText_text_of_isZeroDivision {before : Program} {i : Instruction} {op : Operator}
    (hbefore : ∀ j ∈ before, ∀ op, ¬j.IsZeroDivision op) (hi : i.IsZeroDivision op)
    (after : Program) : ofText (before ++ i :: after).text =
      .error (.line (before.length + 1) i.text (.zeroDivisor op)) := by
  have hlines : ofLines 1 (lines (text (before ++ i :: after)).toList) =
      .error (.line (before.length + 1) i.text (.zeroDivisor op)) := by
    rw [lines_text, List.map_append, ofLines_append hbefore, List.map_cons, ofLines,
      ofLine_text_of_isZeroDivision hi, trim_text, String.ofList_toList, Nat.add_comm 1]
    rfl
  rw [ofText, hlines]
  rfl

theorem of_ofText {s : String} {p : Program} (h : ofText s = .ok p) :
    p ≠ [] ∧ ∀ i ∈ p, ∀ op, ¬i.IsZeroDivision op := by
  unfold ofText at h
  cases hlines : ofLines 1 (lines s.toList) with
  | error e =>
    rw [hlines] at h
    cases h
  | ok q =>
    rw [hlines] at h
    change (if q.isEmpty then Except.error ProgramError.noInstructions else Except.ok q) = _ at h
    split at h
    · cases h
    · rename_i hne
      cases h
      exact ⟨fun hnil => hne (List.isEmpty_iff.2 hnil), not_isZeroDivision_of_ofLines hlines⟩

/-- A program with instructions is read as it is written, unless it divides by
    the literal 0; then the first such instruction is reported with its line.
    Every program that is read is one that is read as it is written. -/
theorem text_round_trip :
    (∀ p : Program, p ≠ [] → (∀ i ∈ p, ∀ op, ¬i.IsZeroDivision op) → ofText p.text = .ok p) ∧
    (∀ (before : Program) (i : Instruction) (op : Operator) (after : Program),
      (∀ j ∈ before, ∀ op, ¬j.IsZeroDivision op) → i.IsZeroDivision op →
        ofText (before ++ i :: after).text =
          .error (.line (before.length + 1) i.text (.zeroDivisor op))) ∧
    ∀ (s : String) (p : Program), ofText s = .ok p →
      p ≠ [] ∧ (∀ i ∈ p, ∀ op, ¬i.IsZeroDivision op) ∧ ofText p.text = .ok p := by
  refine ⟨fun p => ofText_text, fun before i op after => ?_, fun s p h => ?_⟩
  · intro hbefore hi
    exact ofText_text_of_isZeroDivision hbefore hi after
  · obtain ⟨hne, hp⟩ := of_ofText h
    exact ⟨hne, hp, ofText_text hne hp⟩

/-- The lowest word is the one whose opposite is none. -/
def addLowest : Program := [.inp .w, .apply .add .w (.immediate Int64.minValue)]

theorem text_round_trip_addLowest :
    ofText addLowest.text = .ok addLowest ∧
      ofText (text (addLowest ++ .apply .mod .w (.immediate 0) :: [.apply .div .w (.immediate 0)])) =
        .error (.line 3 (Instruction.text (.apply .mod .w (.immediate 0))) (.zeroDivisor .mod)) ∧
      ∃ p, ofText " inp w ; a digit\n\nadd w -0" = .ok p ∧ ofText p.text = .ok p := by
  have hp : ∀ i ∈ addLowest, ∀ op, ¬i.IsZeroDivision op := by
    rintro i hi op ⟨-, rd, rfl⟩
    simp only [addLowest, List.mem_cons, reduceCtorEq, Instruction.apply.injEq,
      Operand.immediate.injEq, List.not_mem_nil, or_false, false_or] at hi
    exact absurd hi.2.2 (by decide)
  obtain ⟨hread, herror, hagain⟩ := text_round_trip
  refine ⟨hread addLowest (List.cons_ne_nil _ _) hp,
    herror addLowest _ .mod _ hp ⟨.inr rfl, .w, rfl⟩, [.inp .w, .apply .add .w (.immediate 0)], ?_⟩
  have hother : ofText " inp w ; a digit\n\nadd w -0" =
      .ok [.inp .w, .apply .add .w (.immediate 0)] := by decide +kernel
  exact ⟨hother, (hagain _ _ hother).2.2⟩

end Program

end InputSolver
