/-
  InputSolver — inputs and their positions.

  Loading, running and solving count the inputs of a program each on its own;
  the counts agree, and no input appears on the way.

  * `Graph.Used.inputIndices_simplify`: what is left under an assignment has
    only unbound inputs of the expression;
  * `Solution.toList_modelNumber` and `Cli.readDigits_eq`: a model number has
    one character for each digit, and is read back;
  * `Cli.mem_output_runSolve`: when a line is written;
  * `Program.positions_aligned`: registers only have inputs that were read, as
    many as a run reads, and every model number has a digit for each.
-/
import InputSolver.Proofs.Program.Solve
import InputSolver.Proofs.Program.Text
import InputSolver.Proofs.Search.History
import InputSolver.Proofs.Search.ModelNumber

namespace InputSolver

open InputSolver.Expr GraphM

variable {h : Heap}

/-! ## Simplification -/

/-- A graph that remembers nothing. -/
theorem Graph.sound_new (h : Heap) : Graph.Sound h ⟨h.next, ∅⟩ where
  next := rfl
  normal hn := by
    rw [Std.HashMap.getElem?_empty] at hn
    cases hn

theorem Graph.canonical_new (h : Heap) : Graph.Canonical h ⟨h.next, ∅⟩ where
  next := rfl
  normal hn := by
    rw [Std.HashMap.getElem?_empty] at hn
    cases hn

/-- Simplification leaves only unbound inputs of a tree. -/
theorem Expr.mentions_of_simplified {p : Assignment} {e s : Expr} (he : h.Holds e)
    (hm : e.Marked) (hs : e.tree.simplified p = .ok s.tree) {i : Nat} (hi : s.Mentions i) :
    e.Mentions i ∧ p.get? i = none := by
  -- without a memory the tree is left by an expression over these inputs
  obtain ⟨k, -, -, houtcome⟩ := simplify_gives (p := p) he hm _ (Graph.canonical_new h)
  obtain ⟨k', -, -, hleft, -⟩ := simplify_meets (p := p) he _ (Graph.sound_new h)
  rw [hs] at houtcome
  obtain ⟨t, ht, -, htree⟩ := houtcome
  exact (hleft t ht).inputs.of_mentions ((mentions_iff_of_tree htree i).2 hi)

/-- In every graph that requests and searches left, what is left under an
    assignment has only unbound inputs of the expression. -/
theorem Graph.Used.inputIndices_simplify {g g' : Graph} {answers : List Expr} (hg : g.Used answers)
    {e s : Expr} (he : Known answers e) {p : Assignment}
    (hrun : (simplify p e).run.run g = (.ok s, g')) {i : Nat} (hi : i ∈ s.inputIndices) :
    i ∈ e.inputIndices ∧ p.get? i = none := by
  obtain ⟨h, hcanonical, hknown⟩ := hg.canonical
  obtain ⟨hholds, hm⟩ := hknown e he
  obtain ⟨k, -, -, houtcome⟩ := simplify_gives (p := p) hholds hm g hcanonical
  rw [hrun] at houtcome
  cases hsimplified : e.tree.simplified p with
  | error fault =>
    rw [hsimplified] at houtcome
    cases houtcome
  | ok t =>
    rw [hsimplified] at houtcome
    obtain ⟨s', hs', hnormal, rfl⟩ := houtcome
    obtain rfl := Except.ok.inj hs'
    obtain ⟨hi, hnone⟩ := mentions_of_simplified hholds hm hsimplified
      ((mem_inputIndices hnormal.holds).1 hi)
    exact ⟨(mem_inputIndices hholds).2 hi, hnone⟩

/-! ## Model numbers -/

/-- The character of a digit. -/
def Digit.char (d : Word) : Char := Nat.digitChar d.toInt.toNat

/-- It is one from 1 to 9, neither skipped nor refused when digits are read. -/
theorem Digit.char_reads {d : Word} (hd : isDigit d = true) :
    '1' ≤ char d ∧ char d ≤ '9' ∧ Text.isBlank (char d) = false ∧ (char d != '_') = true ∧
      Text.digit? (char d) = some d.toInt.toNat := by
  have hmem := mem_ascending.2 hd
  simp only [ascending, List.mem_cons, List.not_mem_nil, or_false] at hmem
  rcases hmem with rfl | rfl | rfl | rfl | rfl | rfl | rfl | rfl | rfl <;> decide

/-- The digits in a row of characters are read back. -/
theorem Cli.readDigits_eq {text : String} {ds : List Word} (htext : text.toList = ds.map Digit.char)
    (hds : ∀ d ∈ ds, Digit.isDigit d = true) : readDigits text = .ok ds := by
  have hkept : text.toList.filter (fun c => !Text.isBlank c && c != '_') = ds.map Digit.char := by
    rw [htext]
    refine List.filter_eq_self.2 fun c hc => ?_
    obtain ⟨d, hd, rfl⟩ := List.mem_map.1 hc
    obtain ⟨-, -, hblank, hline, -⟩ := Digit.char_reads (hds d hd)
    rw [hblank, hline]
    rfl
  rw [readDigits, hkept]
  clear hkept htext
  induction ds with
  | nil => rfl
  | cons d ds ih =>
    obtain ⟨hd, hds⟩ := List.forall_mem_cons.1 hds
    obtain ⟨-, -, -, -, hread⟩ := Digit.char_reads hd
    have hbounds := Digit.toInt_bounds hd
    obtain ⟨n, hn⟩ : ∃ n, d.toInt.toNat = n + 1 := ⟨d.toInt.toNat - 1, by omega⟩
    have hdigit : Int64.ofNat (n + 1) = d := by
      rw [← hn, ← Int64.ofInt_eq_ofNat, Int.toNat_of_nonneg (by omega), Int64.ofInt_toInt]
    rw [List.map_cons, List.mapM_cons, ih hds, hread, hn]
    change Except.ok (Int64.ofNat (n + 1) :: ds) = _
    rw [hdigit]

/-- A model number has one character for each digit. -/
theorem Solution.toList_modelNumber {s : Solution} (hs : ∀ d ∈ s.digits, Digit.isDigit d = true) :
    s.modelNumber.toList = s.digits.map Digit.char := by
  rw [modelNumber, String.toList_join, List.flatMap_map, List.map_eq_flatMap]
  exact List.flatMap_congr fun d hd => Digit.toList_text (hs d hd)

/-! ## What is written -/

/-- A computation that goes on with the answer of another one. -/
theorem GraphM.run_bind_eq_ok {α β : Type} {x : GraphM α} {f : α → GraphM β} {g g' : Graph}
    {b : β} : (x >>= f).run.run g = (.ok b, g') ↔
      ∃ a k, x.run.run g = (.ok a, k) ∧ (f a).run.run k = (.ok b, g') := by
  rw [run_bind]
  constructor
  · intro h
    rcases hx : x.run.run g with ⟨fault | a, k⟩
    · rw [hx] at h
      cases h
    · rw [hx] at h
      exact ⟨a, k, rfl, h⟩
  · rintro ⟨a, k, hx, h⟩
    rwa [hx]

namespace Cli

variable {options : SolveOptions} {line : String}

theorem mem_output_onNewGraph {x : GraphM Answer} :
    line ∈ (onNewGraph x).output ↔ ∃ a g, x.run.run .empty = (.ok a, g) ∧ line ∈ a.output := by
  unfold onNewGraph GraphM.result GraphM.runOn
  constructor
  · intro h
    rcases hx : x.run.run .empty with ⟨fault | a, g⟩
    · rw [hx] at h
      cases h
    · rw [hx] at h
      exact ⟨a, g, rfl, h⟩
  · rintro ⟨a, g, hx, h⟩
    rwa [hx]

/-- What is written of a search is its solution, completed. -/
theorem mem_output_solveAnswer {inputs : Nat} {result : SearchResult} :
    (∃ a, solveAnswer options inputs result = .ok a ∧ line ∈ a.output) ↔
      ∃ s t, result.solution? = some s ∧ s.complete inputs options.config.direction = .ok t ∧
        line = t.modelNumber := by
  unfold solveAnswer
  constructor
  · rintro ⟨a, ha, hline⟩
    cases hs : result.solution? with
    | none =>
      rw [hs] at ha
      cases ha
      cases hline
    | some s =>
      cases ht : s.complete inputs options.config.direction with
      | error fault =>
        simp only [hs, ht] at ha
        cases ha
      | ok t =>
        simp only [hs, ht] at ha
        cases ha
        exact ⟨s, t, rfl, ht, List.mem_singleton.1 hline⟩
  · rintro ⟨s, t, hs, ht, rfl⟩
    simp only [hs, ht]
    exact ⟨_, rfl, List.mem_cons_self⟩

/-- A line is written if the program is loaded, the search finds something and
    this is completed. -/
theorem mem_output_runSolve {source : Source} {p : Program}
    (hp : readProgram options.path source = .ok p) :
    line ∈ (runSolve options source).output ↔ ∃ m g result g' s t,
      p.load.run.run .empty = (.ok m, g) ∧
        (searchWith options (m.registers.get options.config.register)).run.run g =
          (.ok (.ok result), g') ∧ result.solution? = some s ∧
        s.complete m.inputsRead options.config.direction = .ok t ∧ line = t.modelNumber := by
  simp only [runSolve, withProgram, hp, mem_output_onNewGraph, GraphM.run_bind_eq_ok]
  constructor
  · rintro ⟨a, k, ⟨m, g, hload, answer, g', hsearch, ha⟩, hline⟩
    cases answer with
    | error e =>
      cases ha
      cases hline
    | ok result =>
      cases hanswer : solveAnswer options m.inputsRead result with
      | error fault =>
        simp only [hanswer] at ha
        cases ha
      | ok a' =>
        simp only [hanswer] at ha
        cases ha
        obtain ⟨s, t, hs, ht, hline⟩ := mem_output_solveAnswer.1 ⟨_, hanswer, hline⟩
        exact ⟨m, g, result, _, s, t, hload, hsearch, hs, ht, hline⟩
  · rintro ⟨m, g, result, g', s, t, hload, hsearch, hs, ht, hline⟩
    obtain ⟨a, ha, hline⟩ := mem_output_solveAnswer.2 ⟨s, t, hs, ht, hline⟩
    refine ⟨a, g', ⟨m, g, hload, .ok result, g', hsearch, ?_⟩, hline⟩
    simp only [ha]
    rfl

end Cli

namespace Program

variable {p : Program} {m : Machine Expr}

/-- The registers only have inputs that were read. -/
theorem Loaded.lt_inputsRead (hm : Loaded h p m) {r : Register} {i : Nat}
    (hi : i ∈ (m.registers.get r).inputIndices) : i < m.inputsRead := by
  rw [hm.inputsRead]
  exact (hm.yields r).inputs.of_mentions ((mem_inputIndices (hm.holds r)).1 hi)

/-- A solution for a register is completed to a digit for each input of the
    program. -/
theorem Loaded.digits_of_complete (hm : Loaded h p m) {config : SearchConfig} {s t : Solution}
    (hs : config.Solves (m.registers.get config.register) s)
    (ht : s.complete m.inputsRead config.direction = .ok t) :
    t.digits.length = p.inputCount ∧ ∀ d ∈ t.digits, Digit.isDigit d = true := by
  rw [hm.inputsRead] at ht
  rw [Solution.digits_of_complete (hm.lt_inputCount hs) ht]
  exact ⟨s.length_completion _ _, Solution.digits_completion hs.ascending _ _ hs.digits⟩

/-- No input appears from nowhere, and positions stay aligned.  What is left
    of an expression under an assignment has only unbound inputs of it.  So the
    registers of a loaded program have only inputs that it reads, as many as a
    run reads; and what is written as a solution has one character from 1 to 9
    for each of them, to be read back as that many digits. -/
theorem positions_aligned :
    (∀ (g g' : Graph) (answers : List Expr) (e s : Expr) (a : Assignment), g.Used answers →
      Known answers e → (simplify a e).run.run g = (.ok s, g') →
      ∀ i ∈ s.inputIndices, i ∈ e.inputIndices ∧ a.get? i = none) ∧
    ∀ p : Program,
      (∀ m g, p.load.run.run .empty = (.ok m, g) → m.inputsRead = p.inputCount ∧
        ∀ r, ∀ i ∈ (m.registers.get r).inputIndices, i < m.inputsRead) ∧
      (∀ ds t, p.run ds = .ok t → t.inputsRead = p.inputCount) ∧
      ∀ options source, Cli.readProgram options.path source = .ok p →
        ∀ line ∈ (Cli.runSolve options source).output,
          line.toList.length = p.inputCount ∧ (∀ c ∈ line.toList, '1' ≤ c ∧ c ≤ '9') ∧
            ∃ ds, Cli.readDigits line = .ok ds ∧ ds.length = p.inputCount := by
  refine ⟨fun g g' answers e s a hg he hrun i hi => hg.inputIndices_simplify he hrun hi,
    fun p => ⟨fun m g hload => ?_, fun ds t hrun => inputsRead_of_run hrun,
      fun options source hp line hline => ?_⟩⟩
  · obtain ⟨h, -, hloaded, -⟩ := loaded p
    have hm := hloaded m (by rw [hload])
    exact ⟨hm.inputsRead, fun r i hi => hm.lt_inputsRead hi⟩
  · obtain ⟨m, g, result, g', s, t, hload, hsearch, hs, ht, rfl⟩ :=
      (Cli.mem_output_runSolve hp).1 hline
    obtain ⟨h, -, hloaded, -⟩ := loaded p
    have hm := hloaded m (by rw [hload])
    have hsolves := Cli.solves_of_searchWith (hm.holds options.config.register) hsearch hs
    obtain ⟨hlength, hdigits⟩ := hm.digits_of_complete hsolves ht
    have hchars := Solution.toList_modelNumber hdigits
    refine ⟨by rw [hchars, List.length_map, hlength], fun c hc => ?_, t.digits,
      Cli.readDigits_eq hchars hdigits, hlength⟩
    rw [hchars] at hc
    obtain ⟨d, hd, rfl⟩ := List.mem_map.1 hc
    obtain ⟨hlowest, hhighest, -⟩ := Digit.char_reads (hdigits d hd)
    exact ⟨hlowest, hhighest⟩

/-- The example program is read as it is written. -/
theorem readProgram_leadingInput (path : String) :
    Cli.readProgram path (.ok leadingInput.text) = .ok leadingInput := by
  refine ofText_text (List.cons_ne_nil _ _) ?_
  rintro i hi op ⟨-, rd, rfl⟩
  simp only [leadingInput, List.mem_cons, reduceCtorEq, Instruction.apply.injEq,
    Operand.immediate.injEq, List.not_mem_nil, or_false, false_or] at hi
  rcases hi with ⟨-, -, hzero⟩ | ⟨-, -, hzero⟩ | ⟨-, -, hzero⟩ <;> cases hzero

/-- The digits 3 and 7 leave 3 in `w`, so digits are found and written. -/
theorem exists_line_leadingInput :
    ∃ line, line ∈ (Cli.runSolve ⟨"", ⟨3, .largest, .w, .backtracking⟩, none, false⟩
      (.ok leadingInput.text)).output := by
  have hbounded : leadingInput.LoadsBounded := loadsBounded_of_fits (by decide)
  obtain ⟨h, hg, hloaded, hok⟩ := loaded leadingInput
  obtain ⟨m, hload⟩ := hok hbounded
  have hm := hloaded m hload
  have hw := hm.yields .w
  have hdigits : (Assignment.ofDigits [3, 7]).Digits := by decide
  have hvalue : (m.registers.get .w).evaluate (.ofDigits [3, 7]) = .ok 3 := by
    rw [evaluate_eq_valueOn hw.holds]
    exact hw.value hbounded _ 3 hdigits ⟨[3, 7], ⟨⟨3, 7, 0, 0⟩, 2⟩, rfl, by decide, rfl⟩
  let config : SearchConfig := ⟨3, .largest, .w, .backtracking⟩
  obtain ⟨r, g', s, hsearch, hs⟩ :=
    config.exists_runSearch hw.holds (hw.bounded hbounded) hg hdigits hvalue
  have hsolves := runSearch_ensures (config.search_ensures hw.holds) hsearch s hs
  obtain ⟨t, ht, -⟩ := Solution.complete_eq_ok .largest (hm.lt_inputCount hsolves) (by decide)
  exact ⟨t.modelNumber, (Cli.mem_output_runSolve (readProgram_leadingInput _)).2
    ⟨m, _, r, g', s, t, Prod.ext hload rfl, hsearch, hs, hm.inputsRead ▸ ht, rfl⟩⟩

/-- With the first of two inputs bound only the second one is left; and for
    the program that reads both a number with two digits is written. -/
theorem positions_aligned_leadingInput :
    (∃ s g', (simplify (.ofDigits [3]) Graph.Reachable.leadingInput).run.run ⟨6, ∅⟩ = (.ok s, g') ∧
      ∀ i ∈ s.inputIndices, i = 1) ∧
    (∃ m g, leadingInput.load.run.run .empty = (.ok m, g) ∧
      ∀ r, ∀ i ∈ (m.registers.get r).inputIndices, i < 2) ∧
    (∃ t, leadingInput.run [3, 7] = .ok t ∧ t.inputsRead = 2) ∧
    ∃ line, line ∈ (Cli.runSolve ⟨"", ⟨3, .largest, .w, .backtracking⟩, none, false⟩
        (.ok leadingInput.text)).output ∧ line.toList.length = 2 ∧
      ∃ ds, Cli.readDigits line = .ok ds ∧ ds.length = 2 := by
  obtain ⟨hleft, haligned⟩ := positions_aligned
  obtain ⟨hregisters, hrun, hlines⟩ := haligned leadingInput
  refine ⟨?_, ?_, ?_, ?_⟩
  · obtain ⟨answers, hreached, hknown⟩ := Graph.Reachable.reachable_leadingInput
    obtain ⟨h, hsound, hholds⟩ := hreached.sound
    obtain ⟨k, -, -, -, hok⟩ :=
      simplify_meets (p := .ofDigits [3]) (hholds _ hknown) ⟨6, ∅⟩ hsound
    obtain ⟨s, hs⟩ := hok ⟨by decide, by decide⟩
    have hsimplify : (simplify (.ofDigits [3]) Graph.Reachable.leadingInput).run.run ⟨6, ∅⟩ =
        (.ok s, _) := Prod.ext hs rfl
    refine ⟨s, _, hsimplify, fun i hi => ?_⟩
    obtain ⟨hi, hunbound⟩ := hleft _ _ answers _ s _ hreached.used hknown hsimplify i hi
    have hmentions := (mem_inputIndices (hholds _ hknown)).1 hi
    simp only [Graph.Reachable.leadingInput, mentions_binary, mentions_input, not_mentions_literal,
      or_false] at hmentions
    rcases hmentions with rfl | rfl
    · cases hunbound
    · rfl
  · obtain ⟨h, -, -, hok⟩ := loaded leadingInput
    obtain ⟨m, hm⟩ := hok (loadsBounded_of_fits (by decide))
    have hload : leadingInput.load.run.run .empty = (.ok m, _) := Prod.ext hm rfl
    obtain ⟨hcount, hbelow⟩ := hregisters m _ hload
    rw [hcount] at hbelow
    exact ⟨m, _, hload, hbelow⟩
  · have hthree : leadingInput.run [3, 7] = .ok ⟨⟨3, 7, 0, 0⟩, 2⟩ := by decide
    exact ⟨_, hthree, hrun _ _ hthree⟩
  · obtain ⟨line, hline⟩ := exists_line_leadingInput
    obtain ⟨hlength, -, hagain⟩ := hlines _ _ (readProgram_leadingInput _) line hline
    exact ⟨line, hline, hlength, hagain⟩

end Program

end InputSolver
