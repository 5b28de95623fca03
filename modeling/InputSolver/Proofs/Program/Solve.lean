/-
  InputSolver — what is offered as a solution.

  A search sees the expression of one register.  Normal forms and the other
  registers may hide a division by zero from it, but nothing else.

  * `Cli.solves_of_searchWith`: what a search finds, with or without workers,
    is a solution;
  * `Program.solve_accepted`: completed to the inputs of the program it leaves
    the target in the register, unless the run divides by zero.
-/
import InputSolver.Cli.Analyze
import InputSolver.Proofs.Program.Load
import InputSolver.Proofs.Search.Completion
import InputSolver.Proofs.Search.Parallel.Pool

namespace InputSolver

open InputSolver.Expr GraphM

/-- What a search finds, with or without workers, is a solution. -/
theorem Cli.solves_of_searchWith {options : Cli.SolveOptions} {h : Heap} {e : Expr}
    (he : h.Holds e) {g g' : Graph} {result : SearchResult}
    (hrun : (Cli.searchWith options e).run.run g = (.ok (.ok result), g')) {s : Solution}
    (hs : result.solution? = some s) : options.config.Solves e s := by
  unfold Cli.searchWith at hrun
  split at hrun
  · rename_i count _ _
    rw [run_bind] at hrun
    cases hres : (Parallel.search options.config e count).run.run g with
    | mk res graph =>
      rw [hres] at hrun
      rcases res with _ | _ | o
      · cases hrun
      · cases hrun
      · cases hrun
        exact Parallel.solves_of_search he hres hs
  · exact runSearch_ensures (options.config.search_ensures he) hrun s hs

namespace Program

variable {p : Program} {h : Heap} {m : Machine Expr}

/-- A solution for a register only has inputs of the program. -/
theorem Loaded.lt_inputCount (hm : Loaded h p m) {config : SearchConfig} {s : Solution}
    (hs : config.Solves (m.registers.get config.register) s) (i : Nat) (hi : i ∈ s.inputs) :
    i < p.inputCount :=
  (hm.yields config.register).inputs.of_mentions ((hs.inputs i).1 hi)

/-- The digits of a solution for a register, completed to the inputs of the
    program, leave the target in it. -/
theorem Loaded.get_of_completion (hm : Loaded h p m) (hp : p.LoadsBounded) {config : SearchConfig}
    {s : Solution} (hs : config.Solves (m.registers.get config.register) s) {t : Machine Word}
    (hrun : p.run (s.completion p.inputCount config.direction) = .ok t) :
    t.registers.get config.register = config.target := by
  have hdigits := Assignment.digits_ofDigits
    (Solution.digits_completion hs.ascending p.inputCount config.direction hs.digits)
  have hvalue := (hm.yields config.register).value hp _ _ hdigits ⟨_, t, rfl, hrun, rfl⟩
  have hsolution := hs.value
  change (m.registers.get config.register).evaluate s.assignment = .ok config.target at hsolution
  rw [evaluate_eq_valueOn (hm.holds config.register)] at hsolution
  have hextended := valueOn_extend
    (Solution.extendedBy_completion hs.ascending config.direction (hm.lt_inputCount hs)) hsolution
  exact Except.ok.inj (hvalue.symm.trans hextended)

/-- What a search for a register of a program finds can be completed to digits
    for all inputs of the program.  A run on them leaves the target in the
    register if and only if it does not divide by zero. -/
theorem solve_accepted (hp : p.LoadsBounded) (hcount : p.inputCount < Word.countBound)
    (options : Cli.SolveOptions) :
    ∃ m g, p.load.run.run .empty = (.ok m, g) ∧
      ∀ result g' s,
        (Cli.searchWith options (m.registers.get options.config.register)).run.run g =
          (.ok (.ok result), g') →
        result.solution? = some s →
        ∃ t, s.complete m.inputsRead options.config.direction = .ok t ∧
          t.digits.length = p.inputCount ∧ (∀ d ∈ t.digits, Digit.isDigit d = true) ∧
          ((∃ u, p.run t.digits = .ok u ∧
              u.registers.get options.config.register = options.config.target) ↔
            p.run t.digits ≠ .error .divisionByZero) := by
  obtain ⟨h, -, hloaded, hok⟩ := loaded p
  obtain ⟨m, hm⟩ := hok hp
  have hm' := hloaded m hm
  refine ⟨m, _, Prod.ext hm rfl, fun result g' s hsearch hs => ?_⟩
  have hsolves := Cli.solves_of_searchWith (hm'.holds options.config.register) hsearch hs
  obtain ⟨t, ht, -, hdigits⟩ := Solution.complete_eq_ok options.config.direction
    (hm'.lt_inputCount hsolves) hcount
  have hlength : t.digits.length = p.inputCount := by
    rw [hdigits, Solution.length_completion]
  refine ⟨t, hm'.inputsRead ▸ ht, hlength, ?_, ?_⟩
  · rw [hdigits]
    exact Solution.digits_completion hsolves.ascending _ _ hsolves.digits
  · constructor
    · rintro ⟨u, hu, -⟩ herror
      cases hu.symm.trans herror
    · intro hzero
      cases hrun : p.run t.digits with
      | error f =>
        obtain rfl := error_of_run (Nat.le_of_eq hlength.symm) hrun
        exact (hzero hrun).elim
      | ok u =>
        rw [hdigits] at hrun
        exact ⟨u, rfl, hm'.get_of_completion hp hsolves hrun⟩

theorem solve_accepted_leadingInput : ∃ m g result g' s t u,
    leadingInput.load.run.run .empty = (.ok m, g) ∧
      (Cli.searchWith ⟨"", ⟨3, .largest, .w, .backtracking⟩, none, false⟩
        (m.registers.get .w)).run.run g = (.ok (.ok result), g') ∧
      result.solution? = some s ∧ s.complete m.inputsRead .largest = .ok t ∧
      leadingInput.run t.digits = .ok u ∧ u.registers.get .w = 3 := by
  have hbounded := loadsBounded_of_fits (p := leadingInput) (by decide)
  obtain ⟨m, g, hload, haccepted⟩ := solve_accepted hbounded (by decide)
    ⟨"", ⟨3, .largest, .w, .backtracking⟩, none, false⟩
  obtain ⟨h, hg, hm, -⟩ := loaded leadingInput
  rw [hload] at hg hm
  have hw := (hm m rfl).yields .w
  -- the digits 3 and 7 leave 3 in `w`, so there is a solution to be found
  have hdigits : (Assignment.ofDigits [3, 7]).Digits := by decide
  have hvalue : (m.registers.get .w).evaluate (.ofDigits [3, 7]) = .ok 3 := by
    rw [evaluate_eq_valueOn hw.holds]
    exact hw.value hbounded _ 3 hdigits ⟨[3, 7], ⟨⟨3, 7, 0, 0⟩, 2⟩, rfl, by decide, rfl⟩
  obtain ⟨r, g', s, hsearch, hs⟩ := SearchConfig.exists_runSearch ⟨3, .largest, .w, .backtracking⟩
    hw.holds (hw.bounded hbounded) hg hdigits hvalue
  obtain ⟨t, ht, hlength, -, hiff⟩ := haccepted r g' s hsearch hs
  obtain ⟨a, b, hab⟩ := List.length_eq_two.1 hlength
  have hzero : leadingInput.run t.digits ≠ .error .divisionByZero := by
    rw [hab]
    intro hzero
    cases hzero
  obtain ⟨u, hu, htarget⟩ := hiff.2 hzero
  exact ⟨m, g, r, g', s, t, u, hload, hsearch, hs, ht, hu, htarget⟩

/-! ## A hidden division by zero -/

/-- A division by zero in a register that the search does not look at. -/
def hiddenDivision : Program := [.inp .w, .apply .div .x (.register .y)]

/-- The register `z` holds the literal 0 all along. -/
theorem load_hiddenDivision : ∃ m g, hiddenDivision.load.run.run .empty = (.ok m, g) ∧
    m.registers.get .z = .literal 3 0 := by
  obtain ⟨-, -, -, hok⟩ := loaded hiddenDivision
  obtain ⟨m, hm⟩ := hok (loadsBounded_of_fits (by decide))
  refine ⟨m, _, Prod.ext hm rfl, ?_⟩
  change ((load ([.inp .w] ++ [.apply .div .x (.register .y)])).run.run .empty).1 = _ at hm
  rw [load_concat, run_bind] at hm
  change ((Machine.load ⟨⟨.input 4 0, .literal 1 0, .literal 2 0, .literal 3 0⟩, 1⟩
    (.apply .div .x (.register .y))).run.run ⟨5, ∅⟩).1 = _ at hm
  rw [Machine.load_apply, run_bind] at hm
  change ((GraphM.normalize (.binary 5 false .div (.literal 1 0) (.literal 2 0)) >>=
    _).run.run ⟨6, ∅⟩).1 = _ at hm
  rw [run_bind] at hm
  cases hres : ((GraphM.normalize
      (.binary 5 false .div (.literal 1 0) (.literal 2 0))).run.run ⟨6, ∅⟩).1 with
  | error fault =>
    rw [hres] at hm
    cases hm
  | ok n =>
    rw [hres] at hm
    cases hm
    rfl

/-- A digit is offered for `z` all the same, and the run on it divides by
    zero. -/
theorem hiddenDivision_offered : ∃ m g result g' s t,
    hiddenDivision.load.run.run .empty = (.ok m, g) ∧
      (Cli.searchWith ⟨"", .standard, none, false⟩ (m.registers.get .z)).run.run g =
        (.ok (.ok result), g') ∧
      result.solution? = some s ∧ s.complete m.inputsRead .largest = .ok t ∧
      hiddenDivision.run t.digits = .error .divisionByZero := by
  obtain ⟨m, g, hload, hz⟩ := load_hiddenDivision
  obtain ⟨h, hg, hm, -⟩ := loaded hiddenDivision
  rw [hload] at hg hm
  have hyields := (hm m rfl).yields .z
  have hbounded := hyields.bounded (loadsBounded_of_fits (by decide))
  obtain ⟨r, g', s, hsearch, hs⟩ := SearchConfig.standard.exists_runSearch hyields.holds hbounded hg
    (a := .empty) (by decide) (by rw [hz]; rfl)
  have hsolves :=
    runSearch_ensures (SearchConfig.standard.search_ensures hyields.holds) hsearch s hs
  obtain ⟨t, ht, -, hdigits⟩ := Solution.complete_eq_ok .largest ((hm m rfl).lt_inputCount hsolves)
    (by decide)
  refine ⟨m, g, r, g', s, t, hload, hsearch, hs, (hm m rfl).inputsRead ▸ ht, ?_⟩
  have hlength := hdigits ▸ s.length_completion (inputCount hiddenDivision) .largest
  obtain ⟨d, hd⟩ := List.length_eq_one_iff.1 hlength
  rw [hd]
  rfl

end Program

end InputSolver
