/-
  InputSolver — workers that take turns job by job.

  The search with several workers lets one worker after the other take a job,
  run it to its end and report.  That is one of the schedules.

  * `Pool.Shows.runJob`: what a pool does with a job is a number of steps, the
    last of them a loss if the search faults;
  * `search_lossySchedule`: so is the whole search, with the same outcome;
  * `search_schedule`: if no search faults, no worker is lost, and the schedule
    is complete.
-/
import InputSolver.Proofs.Search.Parallel.Losses

namespace InputSolver.Parallel

/-! ## Turns of one worker -/

/-- Any number of turns of one worker, while the others wait. -/
inductive Turns (find : Searcher) : Thread → Board → Thread → Board → Prop where
  | refl {t : Thread} {b : Board} : Turns find t b t b
  | head {t t₁ t' : Thread} {b b₁ b' : Board} : Turn find t b t₁ b₁ → Turns find t₁ b₁ t' b' →
      Turns find t b t' b'

variable {find : Searcher}

theorem Turns.trans {t t₁ t' : Thread} {b b₁ b' : Board} (h : Turns find t b t₁ b₁)
    (h' : Turns find t₁ b₁ t' b') : Turns find t b t' b' := by
  induction h with
  | refl => exact h'
  | head hturn _ ih => exact .head hturn (ih h')

theorem Turns.worker_id {t t' : Thread} {b b' : Board} (h : Turns find t b t' b') :
    t'.worker.id = t.worker.id := by
  induction h with
  | refl => rfl
  | head hturn _ ih =>
    obtain ⟨_, _, heffect⟩ := hturn.effect
    exact ih.trans heffect.id

theorem Turns.steps {t t' : Thread} {b b' : Board} (h : Turns find t b t' b')
    (before after : List Thread) (received : List Message) {lost : List (Nat × Job)}
    (hleft : ∀ job, (t.worker.id, job) ∉ lost) :
    LossySteps find ⟨⟨before ++ t :: after, b, received⟩, lost⟩
      ⟨⟨before ++ t' :: after, b', received⟩, lost⟩ := by
  induction h with
  | refl => exact .refl
  | head hturn _ ih =>
    obtain ⟨_, _, heffect⟩ := hturn.effect
    exact .head (.turn before after hleft hturn) (ih (heffect.id ▸ hleft))

/-- The flags are set one by one. -/
theorem turns_cancel (w : Worker) (b : Board) (job : Job) (solution : Solution)
    (ranks : List Nat) :
    Turns find ⟨w, .cancelling job solution ranks⟩ b ⟨w, .cancelling job solution []⟩
      { b with shared := ranks.foldl SharedBest.setFlag b.shared } := by
  induction ranks generalizing b with
  | nil => exact .refl
  | cons rank ranks ih => exact .head .cancel (ih { b with shared := b.shared.setFlag rank })

/-- What workers share after an answer. -/
def SharedBest.after (b : SharedBest) (rank : Nat) : Except EvalError (Option Solution) → SharedBest
  | .ok (some _) => (b.tryUpdate rank).2
  | _ => b

/-- After a search the worker notes a success, reports, and asks for a job. -/
theorem turns_report (w : Worker) (b : Board) (job : Job)
    (answer : Except EvalError (Option Solution)) :
    Turns find ⟨w, .afterSearch job answer⟩ b ⟨w, .idle⟩ { b with
      shared := b.shared.after job.rank answer
      channel := b.channel ++ [.report w.id job.rank answer] } := by
  rcases answer with error | _ | solution
  · exact .head .send .refl
  · exact .head .send .refl
  · have hshared : (b.shared.tryUpdate job.rank).2 =
        (if job.rank < b.shared.best then b.shared.worseRanks job.rank else []).foldl
          SharedBest.setFlag (b.shared.lowerTo job.rank) := by
      unfold SharedBest.tryUpdate
      split <;> rfl
    rw [SharedBest.after, hshared]
    exact .head .lower (.trans (turns_cancel w { b with shared := _ } job solution _)
      (.head .cancelled (.head .send .refl)))

/-- A worker that is idle takes a job, skips it or searches, and reports. -/
theorem turns_skip (find : Searcher) (w : Worker) {b : Board} {job : Job} {waiting : List Job}
    (hqueue : b.queue = ⟨job :: waiting⟩) (hsuperseded : b.shared.isSuperseded job.rank = true) :
    Turns find ⟨w, .idle⟩ b ⟨w, .idle⟩ { b with
      queue := ⟨waiting⟩
      taken := b.taken ++ [job]
      channel := b.channel ++ [.report w.id job.rank (.ok none)] } :=
  .head (.take (by rw [hqueue]; rfl)) (.head (.skip hsuperseded) (.head .send .refl))

/-- With a job that is not superseded it comes to search. -/
theorem turns_begin (find : Searcher) (w : Worker) {b : Board} {job : Job} {waiting : List Job}
    (hqueue : b.queue = ⟨job :: waiting⟩) (hsuperseded : b.shared.isSuperseded job.rank = false) :
    Turns find ⟨w, .idle⟩ b ⟨w, .searching job⟩
      { b with queue := ⟨waiting⟩, taken := b.taken ++ [job] } :=
  .head (.take (by rw [hqueue]; rfl)) (.head (.begin hsuperseded) .refl)

/-- A flag that is read as set all along is set. -/
theorem flag?_of_constant {flag? : Option Bool} {i : Nat}
    (hi : StopFlag.constant (flag?.getD false) i = true) : flag? = some true := by
  change flag?.getD false = true at hi
  cases flag? with
  | none => cases hi
  | some flag => exact congrArg some hi

theorem turns_search (find : Searcher) (w : Worker) {b : Board} {job : Job} {waiting : List Job}
    (hqueue : b.queue = ⟨job :: waiting⟩) (hsuperseded : b.shared.isSuperseded job.rank = false)
    {session : Session} {answer : Except EvalError (Option Solution)} {graph : Graph}
    (hrun : (find job (w.session.setStop (b.shared.flag? job.rank))).run.run b.graph =
      (.ok (answer, session), graph)) :
    Turns find ⟨w, .idle⟩ b ⟨{ w with session }, .idle⟩ { b with
      queue := ⟨waiting⟩
      taken := b.taken ++ [job]
      shared := b.shared.after job.rank answer
      graph
      channel := b.channel ++ [.report w.id job.rank answer] } :=
  (turns_begin find w hqueue hsuperseded).trans
    (.head (.search (StopFlag.monotone_constant _) (fun _ => flag?_of_constant) hrun)
      (turns_report _ _ job answer))

/-! ## Pools -/

theorem Coordinator.done_report (c : Coordinator) (worker rank : Nat)
    (answer : Except EvalError (Option Solution)) :
    (c.receive (.report worker rank answer)).done = c.done := by
  rcases answer with error | _ | solution <;> rfl

namespace Pool

theorem report_eq (p : Pool) (worker rank : Nat) (answer : Except EvalError (Option Solution)) :
    p.report worker rank answer = { p with
      shared := p.shared.after rank answer
      coordinator := p.coordinator.receive (.report worker rank answer) } := by
  rcases answer with error | _ | solution <;> rfl

/-- A pool between two jobs, as a system: all workers that are left are idle,
    the others lost, and no message is on its way. -/
structure Shows (p : Pool) (waiting : List Job) (s : LossySystem) : Prop where
  threads : ∃ lost, s.system.threads.Perm (p.workers.map (fun w => ⟨w, .idle⟩) ++ lost) ∧
    ∀ t ∈ lost, s.Lost t.worker.id
  left : ∀ w ∈ p.workers, ∀ job, (w.id, job) ∉ s.lost
  nodup : (p.workers.map Worker.id).Nodup
  queue : p.workers ≠ [] → s.system.board.queue = ⟨waiting⟩
  shared : s.system.board.shared = p.shared
  graph : s.system.board.graph = p.graph
  channel : s.system.board.channel = []
  coordinator : s.system.coordinator = p.coordinator
  none_done : p.coordinator.done = []

variable {p : Pool} {job : Job} {waiting waiting' : List Job} {s : LossySystem}

/-- The next worker is idle, in the midst of the others that are left and of
    those that are lost. -/
theorem Shows.next (hs : p.Shows waiting s) {w : Worker} {others : List Worker}
    (hworkers : p.workers = w :: others) :
    ∃ before after gone, s.system.threads = before ++ ⟨w, .idle⟩ :: after ∧
      (before ++ after).Perm (others.map (fun w => ⟨w, .idle⟩) ++ gone) ∧
      (∀ t ∈ gone, s.Lost t.worker.id) ∧ (∀ v ∈ w :: others, ∀ job, (v.id, job) ∉ s.lost) ∧
      ((w :: others).map Worker.id).Nodup := by
  obtain ⟨gone, hthreads, hgone⟩ := hs.threads
  rw [hworkers, List.map_cons] at hthreads
  obtain ⟨before, after, hsplit⟩ := List.append_of_mem
    (hthreads.mem_iff.2 (List.mem_append_left _ List.mem_cons_self))
  rw [hsplit] at hthreads
  exact ⟨before, after, gone, hsplit, (List.perm_middle.symm.trans hthreads).cons_inv, hgone,
    hworkers ▸ hs.left, hworkers ▸ hs.nodup⟩

/-- The next worker makes some turns up to a message, which comes in. -/
theorem Shows.take (hs : p.Shows waiting s) {w w' : Worker} {others : List Worker}
    (hworkers : p.workers = w :: others) {b : Board}
    (hturns : Turns find ⟨w, .idle⟩ s.system.board ⟨w', .idle⟩ b) (hqueue : b.queue = ⟨waiting'⟩)
    {rank : Nat} {answer : Except EvalError (Option Solution)}
    (hchannel : b.channel = s.system.board.channel ++ [.report w.id rank answer]) :
    ∃ s', LossySteps find s s' ∧ Shows ⟨others ++ [w'], b.shared,
      p.coordinator.receive (.report w.id rank answer), b.graph⟩ waiting' s' := by
  obtain ⟨before, after, gone, hsplit, hothers, hgone, hleft, hnodup⟩ := hs.next hworkers
  obtain ⟨⟨threads, board, received⟩, lost⟩ := s
  obtain rfl : threads = before ++ ⟨w, .idle⟩ :: after := hsplit
  have hid : w'.id = w.id := hturns.worker_id
  rw [hs.channel, List.nil_append] at hchannel
  have hwaits : (System.mk (before ++ ⟨w', .idle⟩ :: after) b received).coordinator.done.length <
      (before ++ (⟨w', .idle⟩ : Thread) :: after).length := by
    have hdone : (System.mk (before ++ ⟨w', .idle⟩ :: after) b received).coordinator =
        p.coordinator := hs.coordinator
    rw [hdone, hs.none_done]
    exact List.length_pos_of_mem (List.mem_append_right _ List.mem_cons_self)
  refine ⟨_, (hturns.steps before after received (hleft w List.mem_cons_self)).tail
    (.receive hchannel hwaits), ⟨⟨gone, ?_, hgone⟩, ?_, ?_, fun _ => hqueue, rfl, rfl, rfl, ?_, ?_⟩⟩
  · rw [List.map_append, List.append_assoc]
    exact List.perm_middle.trans ((hothers.cons _).trans List.perm_middle.symm)
  · refine List.forall_mem_append.2 ⟨fun v hv => hleft v (List.mem_cons_of_mem _ hv), ?_⟩
    rw [List.forall_mem_singleton, hid]
    exact hleft w List.mem_cons_self
  · rw [List.map_append, List.map_singleton, hid]
    exact (List.perm_append_singleton _ _).nodup_iff.2 hnodup
  · rw [System.coordinator, List.foldl_append]
    exact congrArg (Coordinator.receive · _) hs.coordinator
  · rw [Coordinator.done_report]
    exact hs.none_done

/-- The next worker makes some turns up to a search, and that faults. -/
theorem Shows.lose (hs : p.Shows waiting s) {w : Worker} {others : List Worker}
    (hworkers : p.workers = w :: others) {b : Board}
    (hturns : Turns find ⟨w, .idle⟩ s.system.board ⟨w, .searching job⟩ b)
    (hqueue : b.queue = ⟨waiting'⟩) (hchannel : b.channel = []) {fault : Fault} {graph : Graph}
    (hrun : (find job (w.session.setStop (b.shared.flag? job.rank))).run.run b.graph =
      (.error fault, graph)) :
    ∃ s', LossySteps find s s' ∧
      Shows ⟨others, b.shared, p.coordinator, graph⟩ waiting' s' := by
  obtain ⟨before, after, gone, hsplit, hothers, hgone, hleft, hnodup⟩ := hs.next hworkers
  obtain ⟨⟨threads, board, received⟩, lost⟩ := s
  obtain rfl : threads = before ++ ⟨w, .idle⟩ :: after := hsplit
  have hw := hleft w List.mem_cons_self
  refine ⟨_, (hturns.steps before after received hw).tail
    (.lose before after hw (StopFlag.monotone_constant _) (fun _ => flag?_of_constant) hrun),
    ⟨⟨⟨w, .searching job⟩ :: gone, ?_, ?_⟩, fun v hv job' hmem => ?_, hnodup.of_cons,
      fun _ => hqueue, rfl, rfl, hchannel, hs.coordinator, hs.none_done⟩⟩
  · exact List.perm_middle.trans ((hothers.cons _).trans List.perm_middle.symm)
  · refine List.forall_mem_cons.2 ⟨⟨job, List.mem_append_right _ List.mem_cons_self⟩, ?_⟩
    exact fun t ht => (hgone t ht).imp fun _ => List.mem_append_left _
  · rcases List.mem_append.1 hmem with hmem | hmem
    · exact hleft v (List.mem_cons_of_mem _ hv) job' hmem
    · exact hnodup.notMem (List.mem_map.2 ⟨v, hv, congrArg Prod.fst (List.mem_singleton.1 hmem)⟩)

variable (config : SearchConfig) (e : Expr)

/-- What a pool does with a job is a number of steps. -/
theorem Shows.runJob (hs : p.Shows (job :: waiting) s) :
    ∃ s', LossySteps (.leading config e) s s' ∧ (Pool.runJob config e p job).Shows waiting s' := by
  unfold Pool.runJob
  rcases hworkers : p.workers with _ | ⟨w, others⟩
  · exact ⟨s, .refl, { hs with queue := fun hleft => (hleft hworkers).elim }⟩
  have hqueue := hs.queue (hworkers ▸ List.cons_ne_nil _ _)
  dsimp only
  split
  · rename_i hsuperseded
    rw [← hs.shared] at hsuperseded
    have htake := hs.take hworkers (turns_skip (.leading config e) w hqueue hsuperseded) rfl rfl
    rw [report_eq]
    rw [hs.shared, hs.graph] at htake
    exact htake
  · rename_i hsuperseded
    rw [← hs.shared] at hsuperseded
    have hsuperseded := Bool.eq_false_iff.2 hsuperseded
    rw [← hs.shared, ← hs.graph]
    split
    · rename_i graph hrun
      exact hs.lose hworkers (turns_begin (.leading config e) w hqueue hsuperseded) rfl hs.channel
        hrun
    · rename_i answer session graph hrun
      have htake := hs.take hworkers (turns_search (.leading config e) w hqueue hsuperseded hrun)
        rfl rfl
      rw [report_eq]
      exact htake

theorem Shows.runJobs {jobs : List Job} (hs : p.Shows jobs s) :
    ∃ s', LossySteps (.leading config e) s s' ∧
      (jobs.foldl (Pool.runJob config e) p).Shows [] s' := by
  induction jobs generalizing p s with
  | nil => exact ⟨s, .refl, hs⟩
  | cons job jobs ih =>
    obtain ⟨s₁, hsteps, hs₁⟩ := hs.runJob config e
    obtain ⟨s', hsteps', hs'⟩ := ih hs₁
    exact ⟨s', hsteps.trans hsteps', hs'⟩

/-- The workers that are left come to their end one by one, and say so. -/
theorem steps_finish (left : List Worker) (through : List Thread)
    (hthreads : s.system.threads.Perm (through ++ left.map fun w => ⟨w, .idle⟩))
    (hthrough : ∀ t ∈ through, t.phase = .ended ∨ s.Lost t.worker.id)
    (hleft : ∀ w ∈ left, ∀ job, (w.id, job) ∉ s.lost)
    (hqueue : left ≠ [] → s.system.board.queue = ⟨[]⟩) (hchannel : s.system.board.channel = [])
    (hdone : s.system.coordinator.done.length ≤ through.length) :
    ∃ s', LossySteps find s s' ∧ s'.Over ∧ s'.system.board.graph = s.system.board.graph ∧
      s'.system.coordinator = left.foldl
        (fun c w => c.receive (.done w.id { w.session.statistics with interrupted := false }))
        s.system.coordinator := by
  induction left generalizing s through with
  | nil =>
    rw [List.map_nil, List.append_nil] at hthreads
    exact ⟨s, .refl, .inr ⟨hchannel, fun t ht => hthrough t (hthreads.mem_iff.1 ht)⟩, rfl, rfl⟩
  | cons w left ih =>
    obtain ⟨⟨threads, board, received⟩, lost⟩ := s
    rw [List.map_cons] at hthreads
    obtain ⟨before, after, rfl⟩ := List.append_of_mem
      (hthreads.mem_iff.2 (List.mem_append_right _ List.mem_cons_self))
    have hothers := (List.perm_middle.symm.trans (hthreads.trans List.perm_middle)).cons_inv
    have hqueue : board.queue = ⟨[]⟩ := hqueue (List.cons_ne_nil _ _)
    have hend : Turn find ⟨w, .idle⟩ board ⟨w, .ended⟩ { board with
        channel := board.channel ++
          [.done w.id { w.session.statistics with interrupted := false }] } :=
      .retire (by rw [hqueue]; rfl)
    rw [show board.channel = [] from hchannel] at hend
    have hlength := hthreads.length_eq
    rw [List.length_append, List.length_append, List.length_cons] at hlength
    have hwaits : (System.mk (before ++ ⟨w, .idle⟩ :: after) board received).coordinator.done.length <
        (before ++ (⟨w, .ended⟩ : Thread) :: after).length := by
      refine Nat.lt_of_le_of_lt hdone ?_
      rw [List.length_append, List.length_cons]
      rw [List.length_cons] at hlength
      omega
    obtain ⟨s', hsteps, hover, hgraph, hcoordinator⟩ := ih (through ++ [⟨w, .ended⟩])
      (s := ⟨⟨before ++ ⟨w, .ended⟩ :: after, { board with channel := [] },
        received ++ [.done w.id { w.session.statistics with interrupted := false }]⟩, lost⟩)
      (by
        rw [List.append_assoc]
        exact List.perm_middle.trans ((hothers.cons _).trans List.perm_middle.symm))
      (List.forall_mem_append.2 ⟨hthrough, List.forall_mem_singleton.2 (.inl rfl)⟩)
      (fun v hv => hleft v (List.mem_cons_of_mem _ hv)) (fun _ => hqueue) rfl
      (by
        rw [System.coordinator, List.foldl_append, List.length_append]
        exact Nat.succ_le_succ hdone)
    refine ⟨s', .head (.turn before after (hleft w List.mem_cons_self) hend)
      (.head (.receive rfl hwaits) hsteps), hover, hgraph, ?_⟩
    rw [hcoordinator, System.coordinator, List.foldl_append]
    rfl

end Pool

/-! ## The search -/

/-- The search with several workers is one of the schedules, with a loss for
    each search that faults. -/
theorem search_lossySchedule (config : SearchConfig) {e : Expr} (hinputs : e.inputIndices ≠ [])
    (count : WorkerCount) (g : Graph) :
    ∃ s, LossySteps (.leading config e) (.start config.direction count g) s ∧ s.Over ∧
      (search config e count).run.run g = (s.system.coordinator.outcome, s.system.board.graph) := by
  let jobs := Job.ranked config.direction.digits
  let pool : Pool := ⟨(List.range (count.effective jobs.length)).map fun id => ⟨id, .start⟩,
    .new jobs.length, .start, g⟩
  have hpool : pool.Shows jobs (.start config.direction count g) := by
    refine ⟨⟨[], ?_, nofun⟩, fun _ _ _ => nofun, ?_, fun _ => rfl, rfl, rfl, rfl, rfl, rfl⟩
    · rw [List.append_nil, List.map_map]
      exact .refl _
    · rw [List.map_map]
      exact (List.map_id _).symm ▸ List.nodup_range
  obtain ⟨s, hsteps, hs⟩ := hpool.runJobs config e
  obtain ⟨lost, hthreads, hlost⟩ := hs.threads
  obtain ⟨s', hsteps', hover, hgraph, hcoordinator⟩ := Pool.steps_finish
    (jobs.foldl (Pool.runJob config e) pool).workers lost
    (hthreads.trans List.perm_append_comm) (fun t ht => .inr (hlost t ht)) hs.left hs.queue
    hs.channel (by rw [hs.coordinator, hs.none_done]; exact Nat.zero_le _)
  refine ⟨s', hsteps.trans hsteps', hover, ?_⟩
  have hrun : (search config e count).run.run g =
      ((jobs.foldl (Pool.runJob config e) pool).finish.outcome,
        (jobs.foldl (Pool.runJob config e) pool).graph) := by
    rw [search, if_neg (by rwa [List.isEmpty_iff])]
    rfl
  rw [hrun, hgraph, hs.graph, hcoordinator, hs.coordinator]
  rfl

/-- If no search faults, the search with several workers is one of the complete
    schedules. -/
theorem search_schedule {config : SearchConfig} {e : Expr}
    {A : Job → SearchEnd (Option Solution)} {I : Graph → Prop} {g : Graph}
    (hfind : (Searcher.leading config e).Answers A I) (hg : I g)
    (hA : ∀ job ∈ Job.ranked config.direction.digits, ∃ answer, A job = .ok answer)
    (hinputs : e.inputIndices ≠ []) (count : WorkerCount) :
    ∃ s, Steps (.leading config e) (.start config.direction count g) s ∧ s.Complete ∧
      (search config e count).run.run g = (s.coordinator.outcome, s.board.graph) := by
  obtain ⟨s, hsteps, hover, hrun⟩ := search_lossySchedule config hinputs count g
  have hs := hsteps.sound hfind (LossySystem.sound_start config.direction count hg)
  have hlost : s.lost = [] := List.eq_nil_iff_forall_not_mem.2 fun l hl => by
    obtain ⟨fault, hfault⟩ := hs.faulted l hl
    obtain ⟨answer, hanswer⟩ := hA l.2 (hs.mem_jobs hl)
    cases hfault.symm.trans hanswer
  refine ⟨s.system, (hsteps.steps_of_none_lost hlost).2, ?_, hrun⟩
  have hworkers := (hs.told hover).1.length_eq
  rw [hlost, List.map_nil, List.append_nil, List.length_map, List.length_range] at hworkers
  have hids := congrArg List.length hs.accounted.ids
  rw [List.length_map, List.length_range] at hids
  exact hworkers.trans hids.symm

end InputSolver.Parallel
