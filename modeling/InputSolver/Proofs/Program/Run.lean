/-
  InputSolver — running programs on enough digits.

  * `run_concat`: a run of a program with one more instruction is a run of the
    program and a step;
  * `inputsRead_of_run`: a run reads the inputs that the program names, each
    once;
  * `error_of_run`: with a digit for each of them it can only fail by a
    division by zero.
-/
import InputSolver.Program.Run
import InputSolver.Proofs.Expr.Inputs

namespace InputSolver

/-! ## Registers -/

namespace Registers

variable {α β : Type}

/-- The contents of two sets of registers are related if those of the register
    that was set and those of the others are. -/
theorem related_set {R : Register → α → β → Prop} {as : Registers α} {bs : Registers β}
    {rd : Register} {a : α} {b : β} (hab : R rd a b) (h : ∀ r, r ≠ rd → R r (as.get r) (bs.get r))
    (r : Register) : R r ((as.set rd a).get r) ((bs.set rd b).get r) := by
  rw [get_set, get_set]
  split
  · rename_i heq
    exact heq ▸ hab
  · rename_i hne
    exact h r hne

end Registers

/-! ## Steps -/

namespace Machine

variable {ds : List Word} {m t : Machine Word} {rd : Register}

/-- Reading takes the next digit, if there is one. -/
theorem step_inp : m.step ds (.inp rd) = .ok t ↔
    ∃ d, ds[m.inputsRead]? = some d ∧ t = ⟨m.registers.set rd d, m.inputsRead + 1⟩ := by
  unfold step
  cases ds[m.inputsRead]? with
  | none =>
    constructor
    · intro h
      cases h
    · rintro ⟨d, hd, -⟩
      cases hd
  | some d =>
    constructor
    · intro h
      cases h
      exact ⟨d, rfl, rfl⟩
    · rintro ⟨d', hd, rfl⟩
      cases hd
      rfl

/-- An operation puts the value of its operator into the register. -/
theorem step_apply {op : Operator} {rm : Operand} : m.step ds (.apply op rd rm) = .ok t ↔
    ∃ v, op.apply (m.registers.get rd) (m.operandValue rm) = .ok v ∧
      t = ⟨m.registers.set rd v, m.inputsRead⟩ := by
  simp only [step]
  cases op.apply (m.registers.get rd) (m.operandValue rm) with
  | error f =>
    constructor
    · intro h
      cases h
    · rintro ⟨v, hv, -⟩
      cases hv
  | ok v =>
    constructor
    · intro h
      cases h
      exact ⟨v, rfl, rfl⟩
    · rintro ⟨v', hv, rfl⟩
      cases hv
      rfl

/-- A step only changes the register that its instruction writes. -/
theorem get_of_step {i : Instruction} (h : m.step ds i = .ok t) {r : Register}
    (hr : r ≠ i.destination) : t.registers.get r = m.registers.get r := by
  cases i with
  | inp rd =>
    obtain ⟨d, -, rfl⟩ := step_inp.1 h
    exact (Registers.get_set ..).trans (if_neg hr)
  | apply op rd rm =>
    obtain ⟨v, -, rfl⟩ := step_apply.1 h
    exact (Registers.get_set ..).trans (if_neg hr)

/-- A step counts the input that it reads. -/
theorem inputsRead_of_step {i : Instruction} (h : m.step ds i = .ok t) :
    t.inputsRead = m.inputsRead + Program.inputCount [i] := by
  cases i with
  | inp rd =>
    obtain ⟨d, -, rfl⟩ := step_inp.1 h
    rfl
  | apply op rd rm =>
    obtain ⟨v, -, rfl⟩ := step_apply.1 h
    rfl

/-- A step that has its digit can only fail by a division by zero. -/
theorem error_of_step {i : Instruction} {f : EvalError}
    (hlen : m.inputsRead + Program.inputCount [i] ≤ ds.length) (h : m.step ds i = .error f) :
    f = .divisionByZero := by
  cases i with
  | inp rd =>
    have hlt : m.inputsRead < ds.length := hlen
    simp only [step, List.getElem?_eq_getElem hlt] at h
    cases h
  | apply op rd rm =>
    simp only [step] at h
    cases hv : op.apply (m.registers.get rd) (m.operandValue rm) with
    | ok v =>
      rw [hv] at h
      cases h
    | error f' =>
      rw [hv] at h
      cases h
      cases f with
      | unboundInput index => exact (op.apply_bound _ _ index hv).elim
      | divisionByZero => rfl

end Machine

/-! ## Runs -/

namespace Program

variable {p : Program} {i : Instruction} {ds : List Word} {t : Machine Word}

theorem inputCount_concat (p : Program) (i : Instruction) :
    (p ++ [i]).inputCount = p.inputCount + Program.inputCount [i] := List.countP_append

theorem run_concat (p : Program) (i : Instruction) (ds : List Word) :
    (p ++ [i]).run ds = p.run ds >>= fun m => m.step ds i := by
  simp only [run, List.foldlM_append, List.foldlM_cons, List.foldlM_nil, bind_pure]

theorem run_concat_eq_ok : (p ++ [i]).run ds = .ok t ↔
    ∃ s, p.run ds = .ok s ∧ s.step ds i = .ok t := by
  rw [run_concat]
  cases p.run ds with
  | error f =>
    constructor
    · intro h
      cases h
    · rintro ⟨s, hs, -⟩
      cases hs
  | ok s =>
    constructor
    · intro h
      exact ⟨s, rfl, h⟩
    · rintro ⟨s', hs, h⟩
      cases hs
      exact h

/-- A run reads each input that the program names once. -/
theorem inputsRead_of_run (h : p.run ds = .ok t) : t.inputsRead = p.inputCount := by
  induction p using List.reverseRecOn generalizing t with
  | nil =>
    cases h
    rfl
  | append_singleton p i ih =>
    obtain ⟨s, hs, hstep⟩ := run_concat_eq_ok.1 h
    rw [Machine.inputsRead_of_step hstep, ih hs, inputCount_concat]

/-- On a digit for each input a run can only fail by a division by zero. -/
theorem error_of_run {f : EvalError} (hlen : p.inputCount ≤ ds.length)
    (h : p.run ds = .error f) : f = .divisionByZero := by
  induction p using List.reverseRecOn with
  | nil => cases h
  | append_singleton p i ih =>
    rw [inputCount_concat] at hlen
    rw [run_concat] at h
    cases hs : run p ds with
    | error f' =>
      rw [hs] at h
      cases h
      exact ih (Nat.le_trans (Nat.le_add_right ..) hlen) hs
    | ok s =>
      rw [hs] at h
      refine Machine.error_of_step ?_ h
      rwa [inputsRead_of_run hs]

end Program

end InputSolver
