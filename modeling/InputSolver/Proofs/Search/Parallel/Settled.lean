/-
  InputSolver — every schedule comes to the answer of one worker.

  * `System.Settled` is what is asked of a run that is complete;
  * `settled_of_complete`: whatever the order of the steps, it comes to what the
    searches in order come to; for the searches of an expression that is the
    answer of the search without workers.
-/
import InputSolver.Proofs.Search.Parallel.Pool
import InputSolver.Proofs.Search.Parallel.Rounds
import InputSolver.Proofs.Search.Parallel.Verdict
import InputSolver.Proofs.Search.Pruning

namespace InputSolver.Parallel

open InputSolver.Expr

/-- A run with `n` workers has come to what a search came to: its error, or its
    solution, if any, with the counters of the workers added up, unless these
    have more than 64 bits.  Each job was taken once, in order, and each worker
    came to its end once. -/
structure System.Settled (s : System) (jobs : List Job) (n : Nat)
    (found : SearchEnd (Option Solution)) : Prop where
  outcome : ∃ r, found = .ok r ∧ s.coordinator.outcome = match r with
    | .error error => .ok (.error error)
    | .ok solution? =>
      if s.coordinator.total.Fits then
        .ok (.ok ⟨⟨solution?, s.coordinator.total⟩, s.coordinator.done.reverse⟩)
      else .error .overflow
  taken : s.board.taken = jobs
  workers : (s.coordinator.done.map Prod.fst).Perm (List.range n)

/-- A complete run has come to what the searches in order come to. -/
theorem System.Complete.settled {find : Searcher} {direction : Direction} {count : WorkerCount}
    {g : Graph} {s : System} (hcomplete : s.Complete)
    (hsteps : Steps find (.start direction count g) s) {A : Job → SearchEnd (Option Solution)}
    {I : Graph → Prop} (hfind : find.Answers A I) (hg : I g) :
    s.Settled (Job.ranked direction.digits)
      (count.effective (Job.ranked direction.digits).length)
      (SearchEnd.first ((Job.ranked direction.digits).map A)) := by
  have hcount : 0 < count.effective (Job.ranked direction.digits).length :=
    Nat.lt_of_lt_of_le Nat.one_pos (Nat.le_max_right ..)
  obtain ⟨htaken, hranks, hworkers⟩ :=
    ((accounted_start direction count g).steps hsteps).complete hcount hcomplete
  have hsound := hsteps.sound hfind (System.sound_start direction count hg)
  have hfirst := hsound.verdict_eq_first (Job.pairwise_ranked _) hranks
  exact ⟨⟨_, hfirst, s.coordinator.outcome_eq_verdict⟩, htaken, hworkers⟩

/-- The search of a bounded expression with several workers is a complete
    schedule. -/
theorem exists_complete (config : SearchConfig) {e : Expr} {g : Graph} {answers : List Expr}
    (hg : g.Reachable answers) (he : Known answers e) (hb : e.Bounded)
    (hinputs : e.inputIndices ≠ []) (count : WorkerCount) :
    ∃ s, Steps (.leading config e) (.start config.direction count g) s ∧ s.Complete ∧
      (search config e count).run.run g = (s.coordinator.outcome, s.board.graph) := by
  obtain ⟨h, hcanonical, hknown⟩ := hg.used.canonical
  obtain ⟨hholds, hmarked⟩ := hknown e he
  refine search_schedule (Searcher.leading_answers hcanonical hholds hmarked)
    ⟨h, h.le_refl, hcanonical⟩ (fun job hjob => ?_) hinputs count
  obtain ⟨k, hsound, hknown⟩ := hg.sound
  have hdigits (d : Word) (hd : d ∈ [job.digit]) : Digit.isDigit d = true :=
    List.mem_singleton.1 hd ▸ isDigit_of_ranked config.direction hjob
  obtain ⟨-, r, p', hrun, -⟩ := Backtrack.searchFrom_meets
    (q := config.query e (.constant false)) (hknown e he) hb (fun _ => rfl) hdigits
    ⟨g, .zero .backtracking, 0⟩ hsound
  refine ⟨.ok r, ?_⟩
  change ((Backtrack.searchFrom (config.query e (.constant false)) [job.digit]).run.run.run
    ⟨g, .zero .backtracking, 0⟩).1 = _
  rw [hrun]

/-- Whatever the order of their steps, workers come to what the searches in
    order of the digits come to: the first solution or error of a digit for
    which the search does not find nothing.  That is so for searches that come
    to anything, as long as they come to the same in all graphs that searches
    leave.  For the searches of an expression with an input it is the answer of
    the whole search, made without workers. -/
theorem settled_of_complete {config : SearchConfig} {count : WorkerCount} {find : Searcher}
    {g : Graph} {s : System} (hsteps : Steps find (.start config.direction count g) s)
    (hcomplete : s.Complete) :
    let jobs := Job.ranked config.direction.digits
    (∀ (A : Job → SearchEnd (Option Solution)) (I : Graph → Prop), find.Answers A I → I g →
      s.Settled jobs (count.effective jobs.length) (SearchEnd.first (jobs.map A))) ∧
    ∀ (answers : List Expr) (e : Expr), find = .leading config e → g.Used answers →
      Known answers e → e.inputIndices ≠ [] →
      s.Settled jobs (count.effective jobs.length)
        (((runSearch (Backtrack.search (config.query e (.constant false)))).run.run g).1.map
          (Except.map (·.solution?))) := by
  refine ⟨fun A I hfind hg => hcomplete.settled hsteps hfind hg, ?_⟩
  rintro answers e rfl hg he hinputs
  obtain ⟨h, hcanonical, hknown⟩ := hg.canonical
  obtain ⟨hholds, hmarked⟩ := hknown e he
  have hsettled := hcomplete.settled hsteps
    (Searcher.leading_answers hcanonical hholds hmarked) ⟨h, h.le_refl, hcanonical⟩
  have hsearch : ((runSearch (Backtrack.search (config.query e (.constant false)))).run.run g).1.map
      (Except.map (·.solution?)) = SearchEnd.first ((Job.ranked config.direction.digits).map
        fun job => Backtrack.answerFor (config.query e (.constant false)) g job.digit) := by
    rw [Job.map_ranked]
    exact Backtrack.search_eq_first (q := config.query e (.constant false)) hcanonical hholds
      hmarked hinputs
  rw [hsearch]
  exact hsettled

/-- Four workers look for a number that begins with 3, and come to the one that
    one worker finds. -/
theorem settled_leadingInput :
    let config : SearchConfig := { SearchConfig.standard with target := 3 }
    let find := Searcher.leading config Graph.Reachable.leadingInput
    ∃ s r, Steps find (.start .largest (.ofNat 4) ⟨6, ∅⟩) s ∧ s.Complete ∧ r ≠ none ∧
      s.Settled (Job.ranked Direction.largest.digits) 4 (.ok (.ok r)) := by
  intro config find
  obtain ⟨answers, hg, he⟩ := Graph.Reachable.reachable_leadingInput
  obtain ⟨h, hsound, hknown⟩ := hg.sound
  have hmentions (i : Nat) : Graph.Reachable.leadingInput.Mentions i ↔ i ∈ [0, 1] := by
    simp [Graph.Reachable.leadingInput, mentions_binary, mentions_input, not_mentions_literal,
      eq_comm]
  have hinputs : Graph.Reachable.leadingInput.inputIndices ≠ [] :=
    List.ne_nil_of_mem ((mem_inputIndices (hknown _ he)).2 ((hmentions 0).2 List.mem_cons_self))
  obtain ⟨s, hsteps, hcomplete, -⟩ := exists_complete config hg he (by decide) hinputs
    (.ofNat 4)
  have hsettled := (settled_of_complete hsteps hcomplete).2 answers _ rfl hg.used he hinputs
  obtain ⟨r, p', hrun, hfirst, -⟩ := Backtrack.search_first
    (q := config.query Graph.Reachable.leadingInput (.constant false)) (hknown _ he) (by decide)
    (fun _ => rfl) (p := ⟨⟨6, ∅⟩, .zero .backtracking, 0⟩) hsound
  refine ⟨s, r.solution?, hsteps, hcomplete, ?_, ?_⟩
  · intro hnone
    rw [hnone] at hfirst
    exact hfirst ⟨[0, 1], [3, 7], rfl⟩ ⟨by decide, fun i => (hmentions i).symm,
      List.all_eq_true.1 (by decide), by decide, Graph.Reachable.evaluate_leadingInput⟩
  · rw [run_runSearch, hrun] at hsettled
    exact hsettled

end InputSolver.Parallel
