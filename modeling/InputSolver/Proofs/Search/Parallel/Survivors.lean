/-
  InputSolver — what the workers come to that are not lost.

  Nobody hears of a worker that is lost.  If one worker alone, searching in
  order, comes to an answer, several come to it as well, whichever of them are
  lost; if it faults, they give whatever the others found, of worse ranks.

  * `LossySystem.Settled` is what is asked of a run that has stopped;
  * `settled_with_losses`: it is so whatever the order of the steps and the
    losses;
  * `exhausted_lowestIfNine`: the outcome may be that there is no solution
    where there is one.
-/
import InputSolver.Proofs.Search.Parallel.Rounds
import InputSolver.Proofs.Search.Parallel.Verdict
import InputSolver.Proofs.Search.Pruning

namespace InputSolver.Parallel

open InputSolver.Expr

variable {A : Job → SearchEnd (Option Solution)} {jobs : List Job} {n : Nat}
  {I : Graph → Prop} {s : LossySystem}

/-- A run with `n` workers has stopped where the searches in order, which come
    to `A`, have found `found`.

    * Each worker has told of its end once, or is lost, and each job that was taken
      was told of once, or is lost.  Jobs wait only if all workers are lost.
    * If an answer was found, it is the outcome, unless the counters added up
      have more than 64 bits.  Lost jobs are of worse ranks than the outcome.  If
      nothing was found, then by none of the jobs, and none is lost.
    * If a fault was found, its job is lost, and the outcome, if any, is of a
      worse rank. -/
structure LossySystem.Settled (s : LossySystem) (A : Job → SearchEnd (Option Solution))
    (jobs : List Job) (n : Nat) (found : SearchEnd (Option Solution)) : Prop where
  workers : (s.system.coordinator.done.map Prod.fst ++ s.lost.map Prod.fst).Perm (List.range n)
  told : (s.system.received.filterMap Message.rank? ++ s.lost.map (·.2.rank)).Perm
    (s.system.board.taken.map Job.rank)
  taken : s.system.board.taken <+: jobs ∧ (s.lost.length < n → s.system.board.taken = jobs)
  lost : ∀ l ∈ s.lost, l.2 ∈ jobs ∧ ∃ fault, A l.2 = .error fault
  answer : ∀ r, found = .ok r →
    s.system.coordinator.outcome = (match r with
      | .error error => .ok (.error error)
      | .ok solution? =>
        if s.system.coordinator.total.Fits then
          .ok (.ok ⟨⟨solution?, s.system.coordinator.total⟩, s.system.coordinator.done.reverse⟩)
        else .error .overflow) ∧
    ∀ l ∈ s.lost, ∃ rank, s.system.coordinator.rank? = some rank ∧ rank < l.2.rank
  exhausted : found = .ok (.ok none) → s.lost = [] ∧ ∀ job ∈ jobs, A job = .ok (.ok none)
  fault : ∀ fault, found = .error fault → ∃ l ∈ s.lost, A l.2 = .error fault ∧
    ∀ rank, s.system.coordinator.rank? = some rank → l.2.rank < rank

/-! ## The leading job -/

namespace LossySystem.Sound

section Leads

variable (hs : s.Sound A jobs n I) {t : Job} (ht : Leads A jobs t)
include hs ht

/-- No job is lost before the leading one. -/
theorem eq_or_lt_of_lost {l : Nat × Job} (hl : l ∈ s.lost) : l.2 = t ∨ t.rank < l.2.rank := by
  obtain ⟨fault, hfault⟩ := hs.faulted l hl
  exact ht.least l.2 (hs.mem_jobs hl) (by rw [hfault]; nofun)

variable (hover : s.Over) (hsorted : jobs.Pairwise fun job job' => job.rank < job'.rank)
  (hn : 0 < n)
include hover hsorted hn

/-- The leading job was taken: some worker is left until it is. -/
theorem mem_taken_of_leads : t ∈ s.system.board.taken := by
  obtain ⟨-, htold, -, htaken⟩ := hs.told hover
  by_cases hleft : s.lost.length < n
  · exact htaken hleft ▸ ht.mem
  · obtain ⟨l, hl⟩ := List.exists_mem_of_length_pos (l := s.lost) (by omega)
    have hrank : l.2.rank ∈ s.system.board.taken.map Job.rank :=
      htold.mem_iff.1 (List.mem_append_right _ (List.mem_map.2 ⟨l, hl, rfl⟩))
    obtain ⟨job, hjob, hrank⟩ := List.mem_map.1 hrank
    -- the lost job was taken, and jobs that wait come after all that were taken
    have hqueue := hs.accounted.queue
    refine (List.mem_append.1 (hqueue.symm ▸ ht.mem)).resolve_right fun hwaiting => ?_
    have hlt := (List.pairwise_append.1 (hqueue.symm ▸ hsorted)).2.2 job hjob t hwaiting
    rw [hrank] at hlt
    obtain rfl | hlt' := hs.eq_or_lt_of_lost ht hl
    · exact Nat.lt_irrefl _ hlt
    · exact Nat.lt_asymm hlt hlt'

/-- It was told of, or it is lost. -/
theorem told_or_lost_of_leads :
    t.rank ∈ s.system.received.filterMap Message.rank? ∨ ∃ l ∈ s.lost, l.2 = t := by
  have hrank : t.rank ∈ s.system.board.taken.map Job.rank :=
    List.mem_map.2 ⟨t, hs.mem_taken_of_leads ht hover hsorted hn, rfl⟩
  refine (List.mem_append.1 ((hs.told hover).2.1.mem_iff.2 hrank)).imp_right fun hlost => ?_
  obtain ⟨l, hl, hrank⟩ := List.mem_map.1 hlost
  exact ⟨l, hl, eq_of_rank_eq hsorted (hs.mem_jobs hl) ht.mem hrank⟩

/-- If it comes to an answer, that is the verdict. -/
theorem verdict_of_leads {r : Except EvalError (Option Solution)} (hA : A t = .ok r)
    (hr : r ≠ .ok none) :
    s.system.coordinator.verdict = r ∧ s.system.coordinator.rank? = some t.rank := by
  have hfound : A t ≠ .ok (.ok none) := by
    rw [hA]
    exact fun hnone => hr (Except.ok.inj hnone)
  obtain htold | ⟨l, hl, rfl⟩ := hs.told_or_lost_of_leads ht hover hsorted hn
  · obtain ⟨hverdict, hrank⟩ := hs.sound.verdict_of_leads hsorted ht hfound htold
    exact ⟨Except.ok.inj (hverdict.symm.trans hA), hrank⟩
  · obtain ⟨fault, hfault⟩ := hs.faulted l hl
    cases hfault.symm.trans hA

/-- If it faults, it is lost. -/
theorem lost_of_leads {fault : Fault} (hA : A t = .error fault) : ∃ l ∈ s.lost, l.2 = t := by
  refine (hs.told_or_lost_of_leads ht hover hsorted hn).resolve_left fun htold => ?_
  have hverdict := (hs.sound.verdict_of_leads hsorted ht (by rw [hA]; nofun) htold).1
  cases hA.symm.trans hverdict

end Leads

/-! ## Runs that have stopped -/

/-- A run that has stopped is settled. -/
theorem settled (hs : s.Sound A jobs n I) (hover : s.Over)
    (hsorted : jobs.Pairwise fun job job' => job.rank < job'.rank) (hn : 0 < n) :
    s.Settled A jobs n (SearchEnd.first (jobs.map A)) := by
  obtain ⟨hworkers, htold, htaken⟩ := hs.told hover
  have hlost (l : Nat × Job) (hl : l ∈ s.lost) : l.2 ∈ jobs ∧ ∃ fault, A l.2 = .error fault :=
    ⟨hs.mem_jobs hl, hs.faulted l hl⟩
  have houtcome := s.system.coordinator.outcome_eq_verdict
  obtain ⟨hnone, hfirst⟩ | ⟨t, ht, hA, hfirst⟩ := first_cases (A := A) hsorted
  · have hkept : s.lost = [] := List.eq_nil_iff_forall_not_mem.2 fun l hl => by
      obtain ⟨hjob, fault, hfault⟩ := hlost l hl
      cases hfault.symm.trans (hnone l.2 hjob)
    refine ⟨hworkers, htold, htaken, hlost, fun r hr => ?_, fun _ => ⟨hkept, hnone⟩,
      fun fault hfault => ?_⟩
    · obtain rfl := Except.ok.inj (hfirst.symm.trans hr)
      rw [(hs.sound.keeps.verdict_of_none hnone).1] at houtcome
      exact ⟨houtcome, fun l hl => (List.not_mem_nil (hkept ▸ hl)).elim⟩
    · cases hfirst.symm.trans hfault
  · rw [hfirst]
    refine ⟨hworkers, htold, htaken, hlost, fun r hr => ?_, fun hnone => (hA hnone).elim,
      fun fault hfault => ?_⟩
    · obtain ⟨rfl, hrank⟩ := hs.verdict_of_leads ht hover hsorted hn hr
        fun hnone => hA (hnone ▸ hr)
      refine ⟨houtcome, fun l hl => ⟨t.rank, hrank, ?_⟩⟩
      refine (hs.eq_or_lt_of_lost ht hl).resolve_left ?_
      rintro rfl
      obtain ⟨-, fault, hfault⟩ := hlost l hl
      cases hfault.symm.trans hr
    · obtain ⟨l, hl, rfl⟩ := hs.lost_of_leads ht hover hsorted hn hfault
      exact ⟨l, hl, hfault, fun rank => hs.sound.keeps.rank_of_fault ht hfault⟩

end LossySystem.Sound

/-! ## A search that faults for the best digit -/

/-- The lowest word if the first digit is 9, and 0 otherwise, modulo the second
    digit. -/
def lowestIfNine : Expr :=
  .binary 6 false .mod (.binary 4 false .mul (.literal 3 Int64.minValue)
    (.binary 2 false .eql (.input 0 0) (.literal 1 9))) (.input 5 1)

theorem reachable_lowestIfNine :
    ∃ answers, Graph.Reachable ⟨7, ∅⟩ answers ∧ Known answers lowestIfNine := by
  have h₀ : Graph.Reachable ⟨1, ∅⟩ [.input 0 0] :=
    Graph.Reachable.empty.answered (.input 0) (by simp [Request.subjects]) rfl
  have h₁ := h₀.answered (.literal 9) (by simp [Request.subjects]) rfl
  have h₂ := h₁.answered (.binary .eql (.input 0 0) (.literal 1 9))
    (by simp [Request.subjects, Known, nodes]) rfl
  have h₃ := h₂.answered (.literal Int64.minValue) (by simp [Request.subjects]) rfl
  have h₄ := h₃.answered (.binary .mul (.literal 3 Int64.minValue)
    (.binary 2 false .eql (.input 0 0) (.literal 1 9))) (by simp [Request.subjects, Known, nodes]) rfl
  have h₅ := h₄.answered (.input 1) (by simp [Request.subjects]) rfl
  have h₆ := h₅.answered (.binary .mod lowestIfNine.operands[0] (.input 5 1))
    (by simp [Request.subjects, Known, nodes, lowestIfNine, operands]) rfl
  exact ⟨_, h₆, lowestIfNine, List.mem_cons_self, self_mem_nodes _⟩

theorem canonical_lowestIfNine :
    ∃ h, Graph.Canonical h ⟨7, ∅⟩ ∧ h.Holds lowestIfNine ∧ lowestIfNine.Marked := by
  obtain ⟨answers, hg, he⟩ := reachable_lowestIfNine
  obtain ⟨h, hcanonical, hknown⟩ := hg.used.canonical
  exact ⟨h, hcanonical, hknown _ he⟩

theorem inputIndices_lowestIfNine : lowestIfNine.inputIndices = [0, 1] := by
  obtain ⟨h, -, hholds, -⟩ := canonical_lowestIfNine
  have hmentions (i : Nat) : lowestIfNine.Mentions i ↔ i ∈ [0, 1] := by
    simp [lowestIfNine, mentions_binary, mentions_input, not_mentions_literal, eq_comm]
  exact (pairwise_inputIndices lowestIfNine).eq_of_mem_iff (by decide) fun i =>
    (mem_inputIndices hholds).trans (hmentions i)

/-- With 9 as first digit a remainder of the lowest word is left. -/
theorem simplified_lowestIfNine :
    lowestIfNine.tree.simplified (Assignment.empty.bind 0 9) = .error .overflow := by
  have hdividend : (Tree.binary .mul (.literal Int64.minValue)
      (.binary .eql (.input 0) (.literal 9))).simplified (Assignment.empty.bind 0 9) =
        .ok (.literal Int64.minValue) := rfl
  have hremainder : Tree.operation .mod (.literal Int64.minValue) (.input 1) = .error .overflow := by
    change (Normal.operation none .mod (.literal 0 Int64.minValue) (.input 1 1) 2).map _ = _
    rw [Normal.mod_lowest_input rfl]
    rfl
  change ((Tree.binary .mul (.literal Int64.minValue)
    (.binary .eql (.input 0) (.literal 9))).simplified (Assignment.empty.bind 0 9) >>= _) = _
  rw [hdividend]
  exact hremainder

/-- So the search with that digit faults, which is the first one that is
    tried. -/
theorem answerFor_lowestIfNine :
    let q := SearchConfig.standard.query lowestIfNine (.constant false)
    Backtrack.answerFor q ⟨7, ∅⟩ 9 = .error .overflow ∧
      ((runSearch (Backtrack.search q)).run.run ⟨7, ∅⟩).1.map (Except.map (·.solution?)) =
        .error .overflow := by
  intro q
  obtain ⟨h, hcanonical, hholds, hmarked⟩ := canonical_lowestIfNine
  have hanswer : Backtrack.answerFor q ⟨7, ∅⟩ 9 = .error .overflow :=
    Backtrack.answerFor_fault (q := q) inputIndices_lowestIfNine hcanonical hholds hmarked
      simplified_lowestIfNine
  refine ⟨hanswer, ?_⟩
  have hsearch := Backtrack.search_eq_first (q := q) hcanonical hholds hmarked
    (inputIndices_lowestIfNine ▸ List.cons_ne_nil _ _)
  change _ = SearchEnd.first (Backtrack.answerFor q ⟨7, ∅⟩ 9 :: _) at hsearch
  rw [hanswer] at hsearch
  exact hsearch

/-! ## Every schedule -/

/-- Whatever the order of the steps and whichever workers are lost, those that
    are left come to what the searches in order of the digits come to, if that
    is an answer.  If it is a fault, the worker is lost that has that digit,
    which is better than all that the others come to.  For the searches of an
    expression with an input the searches in order are the whole search, made
    without workers. -/
theorem settled_with_losses {config : SearchConfig} {count : WorkerCount} {find : Searcher}
    {g : Graph} {s : LossySystem}
    (hsteps : LossySteps find (.start config.direction count g) s) (hover : s.Over) :
    let jobs := Job.ranked config.direction.digits
    (∀ (A : Job → SearchEnd (Option Solution)) (I : Graph → Prop), find.Answers A I → I g →
      s.Settled A jobs (count.effective jobs.length) (SearchEnd.first (jobs.map A))) ∧
    ∀ (answers : List Expr) (e : Expr), find = .leading config e → g.Used answers →
      Known answers e → e.inputIndices ≠ [] →
      s.Settled (fun job => Backtrack.answerFor (config.query e (.constant false)) g job.digit)
        jobs (count.effective jobs.length)
        (((runSearch (Backtrack.search (config.query e (.constant false)))).run.run g).1.map
          (Except.map (·.solution?))) := by
  have hsettled (A : Job → SearchEnd (Option Solution)) (I : Graph → Prop)
      (hfind : find.Answers A I) (hg : I g) :=
    (hsteps.sound hfind (LossySystem.sound_start config.direction count hg)).settled hover
      (Job.pairwise_ranked _) (Nat.lt_of_lt_of_le Nat.one_pos (Nat.le_max_right ..))
  refine ⟨hsettled, ?_⟩
  rintro answers e rfl hg he hinputs
  obtain ⟨h, hcanonical, hknown⟩ := hg.canonical
  obtain ⟨hholds, hmarked⟩ := hknown e he
  have hsearch := Backtrack.search_eq_first (q := config.query e (.constant false)) hcanonical
    hholds hmarked hinputs
  rw [← Job.map_ranked] at hsearch
  exact hsearch ▸ hsettled _ _ (Searcher.leading_answers hcanonical hholds hmarked)
    ⟨h, h.le_refl, hcanonical⟩

/-- Of two workers at least one is lost, the one with the first job. -/
theorem settled_with_losses_lowestIfNine :
    let q := SearchConfig.standard.query lowestIfNine (.constant false)
    ∃ s, LossySteps (.leading .standard lowestIfNine) (.start .largest (.ofNat 2) ⟨7, ∅⟩) s ∧
      s.Over ∧
      s.Settled (fun job => Backtrack.answerFor q ⟨7, ∅⟩ job.digit)
        (Job.ranked Direction.largest.digits) 2 (.error .overflow) := by
  intro q
  obtain ⟨answers, hg, he⟩ := reachable_lowestIfNine
  have hinputs : lowestIfNine.inputIndices ≠ [] :=
    inputIndices_lowestIfNine ▸ List.cons_ne_nil _ _
  obtain ⟨s, hsteps, hover, -⟩ := search_lossySchedule .standard hinputs (.ofNat 2) ⟨7, ∅⟩
  have hsettled := (settled_with_losses hsteps hover).2 answers _ rfl hg.used he hinputs
  rw [answerFor_lowestIfNine.2] at hsettled
  exact ⟨s, hsteps, hover, hsettled⟩

/-- A worker on its own may be lost with the first job, if that faults.  Then
    nobody takes the others, and the coordinator has heard of nothing. -/
theorem exists_lost_alone {find : Searcher} {direction : Direction} {job : Job}
    {waiting : List Job} (hjobs : Job.ranked direction.digits = job :: waiting) {g graph : Graph}
    {fault : Fault} (hrun : (find job Session.start).run.run g = (.error fault, graph)) :
    ∃ s, LossySteps find (.start direction (.ofNat 1) g) s ∧ s.Over ∧ s.lost = [(0, job)] ∧
      s.system.board.taken = [job] ∧ s.system.coordinator = .start := by
  let worker : Worker := ⟨0, .start⟩
  let b : Board := ⟨⟨job :: waiting⟩, [], .new (job :: waiting).length, g, []⟩
  have hcount : (WorkerCount.ofNat 1).effective (job :: waiting).length = 1 :=
    Nat.max_eq_right (Nat.min_le_left ..)
  have hstart : LossySystem.start direction (.ofNat 1) g =
      ⟨⟨[] ++ ⟨worker, .idle⟩ :: [], b, []⟩, []⟩ := by
    rw [LossySystem.start, System.start, hjobs, hcount]
    rfl
  have hbegin := turns_begin find worker (b := b) rfl
    (SharedBest.isSuperseded_new (hjobs ▸ List.mem_cons_self) _)
  rw [hstart]
  refine ⟨_, (hbegin.steps [] [] [] fun _ => List.not_mem_nil).tail
    (.lose [] [] (fun _ => List.not_mem_nil) (StopFlag.monotone_constant false)
      (fun _ hi => (Bool.false_ne_true hi).elim) hrun), .inr ⟨rfl, ?_⟩, rfl, rfl, rfl⟩
  exact List.forall_mem_singleton.2 (.inr ⟨job, List.mem_singleton_self _⟩)

/-- So the outcome may be that there is no solution, though there is one, and
    the search without workers faults. -/
theorem exhausted_lowestIfNine :
    let q := SearchConfig.standard.query lowestIfNine (.constant false)
    ∃ s o, LossySteps (.leading .standard lowestIfNine) (.start .largest (.ofNat 1) ⟨7, ∅⟩) s ∧
      s.Over ∧ s.system.coordinator.outcome = .ok (.ok o) ∧ o.result.solution? = none ∧
      s.lost = [(0, ⟨0, 9⟩)] ∧ s.system.board.taken = [⟨0, 9⟩] ∧
      lowestIfNine.evaluate (.ofDigits [8, 9]) = .ok SearchConfig.standard.target ∧
      ((runSearch (Backtrack.search q)).run.run ⟨7, ∅⟩).1.map (Except.map (·.solution?)) =
        .error .overflow := by
  intro q
  obtain ⟨h, hcanonical, hholds, hmarked⟩ := canonical_lowestIfNine
  have hvalue : lowestIfNine.evaluate (.ofDigits [8, 9]) = .ok SearchConfig.standard.target := by
    rw [evaluate_eq_valueOn hholds]
    rfl
  obtain ⟨waiting, hjobs⟩ : ∃ waiting, Job.ranked Direction.largest.digits = ⟨0, 9⟩ :: waiting :=
    ⟨_, rfl⟩
  have hfault : ((Searcher.leading .standard lowestIfNine ⟨0, 9⟩ .start).run.run ⟨7, ∅⟩).1 =
      .error .overflow := by
    obtain ⟨-, session, hended | ⟨-, i, hi⟩⟩ :=
      Searcher.leading_answers hcanonical hholds hmarked ⟨0, 9⟩ .start ⟨7, ∅⟩
        ⟨h, h.le_refl, hcanonical⟩ (StopFlag.monotone_constant false)
    · rw [hended]
      exact congrArg (Except.map _) answerFor_lowestIfNine.1
    · exact (Bool.false_ne_true hi).elim
  obtain ⟨s, hsteps, hover, hlost, htaken, hcoordinator⟩ :=
    exists_lost_alone hjobs (Prod.ext hfault rfl)
  refine ⟨s, ⟨⟨none, .zero .backtracking⟩, []⟩, hsteps, hover, ?_, rfl, hlost, htaken, hvalue,
    answerFor_lowestIfNine.2⟩
  rw [hcoordinator]
  rfl

end InputSolver.Parallel
