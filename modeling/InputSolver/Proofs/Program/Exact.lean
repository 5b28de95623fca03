/-
  InputSolver — runs in which nothing overflows.

  An exact run carries out a program on integers and stops at the first
  result that is not a word, or has none.  As long as it goes on, the run on
  words does too, with the same values.

  * `Operator.exactValue?`, `Machine.exactStep`, `Program.exactRun`;
  * `Program.run_of_exactRun`: a program that runs exactly has no overflow and
    no division by zero.
-/
import InputSolver.Proofs.Program.Run
import InputSolver.Proofs.Word

namespace InputSolver

/-! ## Operators -/

namespace Operator

/-- The result of an operator on integers, if it exists and is a word.  A
    remainder needs a quotient that is a word, too. -/
def exactValue? : Operator → Int → Int → Option Int
  | add, a, b => if Word.InRange (a + b) then some (a + b) else none
  | mul, a, b => if Word.InRange (a * b) then some (a * b) else none
  | div, a, b => if b ≠ 0 ∧ Word.InRange (a.tdiv b) then some (a.tdiv b) else none
  | mod, a, b => if b ≠ 0 ∧ Word.InRange (a.tdiv b) then some (a.tmod b) else none
  | eql, a, b => some (if a = b then 1 else 0)

/-- Where the quotient is a word, the dividend and the divisor are not the
    lowest word and -1. -/
theorem toInt_div_of_inRange {a b : Word} (h : Word.InRange (a.toInt.tdiv b.toInt)) :
    (a / b).toInt = a.toInt.tdiv b.toInt := by
  rw [Int64.toInt_div]
  exact Word.bmod_of_inRange h

/-- An operator has the exact result on words. -/
theorem apply_of_exactValue? {op : Operator} {a b : Word} {c : Int}
    (h : op.exactValue? a.toInt b.toInt = some c) : ∃ v, op.apply a b = .ok v ∧ v.toInt = c := by
  cases op with
  | add =>
    obtain ⟨hrange, ⟨⟩⟩ := Option.ite_none_right_eq_some.1 h
    exact ⟨a + b, rfl, Word.toInt_add hrange⟩
  | mul =>
    obtain ⟨hrange, ⟨⟩⟩ := Option.ite_none_right_eq_some.1 h
    exact ⟨a * b, rfl, Word.toInt_mul hrange⟩
  | div =>
    obtain ⟨⟨hzero, hrange⟩, ⟨⟩⟩ := Option.ite_none_right_eq_some.1 h
    exact ⟨a / b, if_neg (Word.ne_zero_iff.2 hzero), toInt_div_of_inRange hrange⟩
  | mod =>
    obtain ⟨⟨hzero, -⟩, ⟨⟩⟩ := Option.ite_none_right_eq_some.1 h
    exact ⟨a % b, if_neg (Word.ne_zero_iff.2 hzero), Int64.toInt_mod a b⟩
  | eql =>
    obtain rfl := Option.some.inj h
    refine ⟨if a = b then 1 else 0, rfl, ?_⟩
    by_cases hab : a = b
    · simp [hab]
    · have hne : a.toInt ≠ b.toInt := fun heq => hab (Word.eq_of_toInt_eq heq)
      simp [hab, hne]

end Operator

/-! ## Machines -/

namespace Registers

variable {α β : Type}

/-- Changes the content of every register. -/
def map (f : α → β) (rs : Registers α) : Registers β := ⟨f rs.w, f rs.x, f rs.y, f rs.z⟩

@[simp] theorem get_map (f : α → β) (rs : Registers α) (r : Register) :
    (rs.map f).get r = f (rs.get r) := by
  cases r <;> rfl

@[simp] theorem map_set (f : α → β) (rs : Registers α) (r : Register) (a : α) :
    (rs.set r a).map f = (rs.map f).set r (f a) := by
  cases r <;> rfl

end Registers

namespace Machine

/-- The machine with its registers as integers. -/
def toInt (m : Machine Word) : Machine Int := ⟨m.registers.map Int64.toInt, m.inputsRead⟩

@[simp] theorem get_toInt (m : Machine Word) (r : Register) :
    m.toInt.registers.get r = (m.registers.get r).toInt := Registers.get_map ..

/-- The value of an operand as an integer. -/
def operandInt (m : Machine Int) : Operand → Int
  | .register r => m.registers.get r
  | .immediate value => value.toInt

@[simp] theorem operandInt_toInt (m : Machine Word) (rm : Operand) :
    m.toInt.operandInt rm = (m.operandValue rm).toInt := by
  cases rm with
  | register r => exact m.get_toInt r
  | immediate value => rfl

/-- Carries out an instruction on integers, if the result is exact. -/
def exactStep (ds : List Word) (m : Machine Int) : Instruction → Option (Machine Int)
  | .inp rd => (ds[m.inputsRead]?).map fun d => ⟨m.registers.set rd d.toInt, m.inputsRead + 1⟩
  | .apply op rd rm => (op.exactValue? (m.registers.get rd) (m.operandInt rm)).map fun v =>
    ⟨m.registers.set rd v, m.inputsRead⟩

/-- An exact step is a step. -/
theorem step_of_exactStep {ds : List Word} {m : Machine Word} {i : Instruction} {t : Machine Int}
    (h : m.toInt.exactStep ds i = some t) : ∃ m', m.step ds i = .ok m' ∧ m'.toInt = t := by
  cases i with
  | inp rd =>
    obtain ⟨d, hd, rfl⟩ := Option.map_eq_some_iff.1 h
    refine ⟨⟨m.registers.set rd d, m.inputsRead + 1⟩, step_inp.2 ⟨d, hd, rfl⟩, ?_⟩
    simp [toInt]
  | apply op rd rm =>
    obtain ⟨c, hc, rfl⟩ := Option.map_eq_some_iff.1 h
    rw [get_toInt, operandInt_toInt] at hc
    obtain ⟨v, hv, rfl⟩ := op.apply_of_exactValue? hc
    refine ⟨⟨m.registers.set rd v, m.inputsRead⟩, step_apply.2 ⟨v, hv, rfl⟩, ?_⟩
    simp [toInt]

end Machine

/-! ## Programs -/

namespace Program

variable {p q : Program} {ds : List Word} {t : Machine Int}

/-- The machine after a program that is carried out on integers, if every
    result is exact. -/
def exactRun (p : Program) (ds : List Word) : Option (Machine Int) :=
  p.foldlM (Machine.exactStep ds) Machine.zero.toInt

theorem exactRun_append (p q : Program) (ds : List Word) :
    (p ++ q).exactRun ds = p.exactRun ds >>= fun m => q.foldlM (Machine.exactStep ds) m :=
  List.foldlM_append

theorem exactRun_concat_eq_some {i : Instruction} : (p ++ [i]).exactRun ds = some t ↔
    ∃ s, p.exactRun ds = some s ∧ s.exactStep ds i = some t := by
  rw [exactRun_append]
  simp [Option.bind_eq_some_iff]

/-- A program that runs exactly runs, with the same values. -/
theorem run_of_exactRun (h : p.exactRun ds = some t) : ∃ m, p.run ds = .ok m ∧ m.toInt = t := by
  induction p using List.reverseRecOn generalizing t with
  | nil =>
    obtain rfl := Option.some.inj h
    exact ⟨.zero, rfl, rfl⟩
  | append_singleton p i ih =>
    obtain ⟨s, hs, hstep⟩ := exactRun_concat_eq_some.1 h
    obtain ⟨m, hm, rfl⟩ := ih hs
    obtain ⟨m', hm', rfl⟩ := Machine.step_of_exactStep hstep
    exact ⟨m', run_concat_eq_ok.2 ⟨m, hm, hm'⟩, rfl⟩

end Program

end InputSolver
