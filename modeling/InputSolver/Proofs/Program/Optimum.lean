/-
  InputSolver — no run is missed.

  * `no_run_missed`: if a run leaves the target in a register, then the
    expression of the register evaluates to the target on the digits of the
    run, the search finds a solution, and the solution completed to the inputs
    of the program comes no later than these digits.
-/
import InputSolver.Proofs.Program.Solve

namespace InputSolver.Program

open InputSolver.Expr

variable {p : Program} {h : Heap} {m : Machine Expr}

/-- A register evaluates to what a run leaves in it. -/
theorem Loaded.evaluate_of_run (hm : Loaded h p m) (hp : p.LoadsBounded) {ds : List Word}
    (hds : ∀ d ∈ ds, Digit.isDigit d = true) {u : Machine Word} (hrun : p.run ds = .ok u)
    (r : Register) : (m.registers.get r).evaluate (.ofDigits ds) = .ok (u.registers.get r) := by
  rw [evaluate_eq_valueOn (hm.holds r)]
  exact (hm.yields r).value hp _ _ (Assignment.digits_ofDigits hds) ⟨ds, u, rfl, hrun, rfl⟩

/-- A program that is loaded within bounds is loaded without a fault.  For all
    digits on which a run leaves the target in a register, the register
    evaluates to the target, and the search finds a solution that is completed
    to these digits or to digits that come before them. -/
theorem no_run_missed (hp : p.LoadsBounded) (hcount : p.inputCount < Word.countBound)
    (config : SearchConfig) :
    ∃ m g, p.load.run.run .empty = (.ok m, g) ∧ ∀ ds u, ds.length = p.inputCount →
      (∀ d ∈ ds, Digit.isDigit d = true) → p.run ds = .ok u →
      u.registers.get config.register = config.target →
        (m.registers.get config.register).evaluate (.ofDigits ds) = .ok config.target ∧
        ∀ statistics readings, ∃ result p' s t,
          (Backtrack.search (config.query (m.registers.get config.register) (.constant false))).Runs
            ⟨g, statistics, readings⟩ result p' ∧
          result.solution? = some s ∧ s.complete m.inputsRead config.direction = .ok t ∧
          t.digits.length = p.inputCount ∧
          (t.digits = ds ∨ List.Lex config.direction.Before t.digits ds) := by
  obtain ⟨h, hg, hloaded, hok⟩ := loaded p
  obtain ⟨m, hm⟩ := hok hp
  have hm' := hloaded m hm
  refine ⟨m, _, Prod.ext hm rfl, fun ds u hlength hds hrun htarget => ?_⟩
  have hyields := hm'.yields config.register
  have hvalue := htarget ▸ hm'.evaluate_of_run hp hds hrun config.register
  refine ⟨hvalue, fun statistics readings => ?_⟩
  let q := config.query (m.registers.get config.register) (.constant false)
  obtain ⟨result, p', hsearch, hfirst, -⟩ := Backtrack.search_first (q := q) hyields.holds
    (hyields.bounded hp) (fun _ => rfl) (p := ⟨_, statistics, readings⟩) hg
  -- the digits of the run that occur in the expression are a solution themselves
  obtain ⟨s', hs', hext⟩ := Backtrack.Query.exists_solves (q := q) hyields.holds
    (Assignment.digits_ofDigits hds) hvalue
  cases hresult : result.solution? with
  | none =>
    rw [hresult] at hfirst
    exact (hfirst s' hs').elim
  | some s =>
    rw [hresult] at hfirst
    obtain ⟨hs, hbefore⟩ := hfirst
    have hsolves : config.Solves (m.registers.get config.register) s := hs
    have hlt := hm'.lt_inputCount hsolves
    obtain ⟨t, ht, -, hdigits⟩ := Solution.complete_eq_ok config.direction hlt hcount
    have hinputs : s'.inputs = s.inputs := hs'.ascending.eq_of_mem_iff hs.ascending fun i =>
      (hs'.inputs i).trans (hs.inputs i).symm
    refine ⟨result, p', s, t, hsearch, hresult, hm'.inputsRead ▸ ht, ?_, ?_⟩
    · rw [hdigits, Solution.length_completion]
    · rw [hdigits]
      exact Solution.completion_first hs.ascending hlt hinputs (hbefore s' hs') hlength hds hext

theorem no_run_missed_leadingInput : ∃ m g result p' s t,
    leadingInput.load.run.run .empty = (.ok m, g) ∧
      (Backtrack.search ⟨m.registers.get .w, 3, .largest, .constant false⟩).Runs
        ⟨g, .zero .backtracking, 0⟩ result p' ∧
      result.solution? = some s ∧ s.complete m.inputsRead .largest = .ok t ∧
      (t.digits = [3, 7] ∨ List.Lex Direction.largest.Before t.digits [3, 7]) := by
  obtain ⟨m, g, hload, hmissed⟩ := no_run_missed (p := leadingInput)
    (loadsBounded_of_fits (by decide)) (by decide) ⟨3, .largest, .w, .backtracking⟩
  obtain ⟨-, hsearch⟩ := hmissed [3, 7] ⟨⟨3, 7, 0, 0⟩, 2⟩ (by decide)
    (List.all_eq_true.1 (by decide)) (by decide) rfl
  obtain ⟨result, p', s, t, hrun, hs, ht, -, hbefore⟩ := hsearch (.zero .backtracking) 0
  exact ⟨m, g, result, p', s, t, hload, hrun, hs, ht, hbefore⟩

end InputSolver.Program
