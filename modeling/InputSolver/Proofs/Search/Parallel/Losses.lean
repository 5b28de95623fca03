/-
  InputSolver — workers that are lost.

  A worker whose search faults is lost: it says nothing more, and its job is
  not told of.  The others go on, and the coordinator stops when all that are
  left have come to their end.

  * `LossyStep` are the steps of a system that may lose workers, and
    `LossySystem.Over` says that the coordinator has stopped;
  * `LossyStep.sound`: every step keeps jobs, messages and workers accounted
    for, and a worker is lost only with a job that faults;
  * `LossySystem.Sound.told`: once the coordinator has stopped, each job that was
    taken was told of, or its worker was lost, and each worker told of its end
    or was lost.
-/
import InputSolver.Proofs.Search.Parallel.Accounts
import InputSolver.Proofs.Search.Parallel.Answers

namespace InputSolver.Parallel

/-! ## Steps -/

/-- A system with the workers that it has lost, each with the job that it had,
    in the order of the losses.  They stay in the list where they stood. -/
structure LossySystem where
  system : System
  lost : List (Nat × Job)

namespace LossySystem

/-- A worker is lost. -/
def Lost (s : LossySystem) (worker : Nat) : Prop := ∃ job, (worker, job) ∈ s.lost

/-- No worker is lost yet. -/
def start (direction : Direction) (count : WorkerCount) (g : Graph) : LossySystem :=
  ⟨.start direction count g, []⟩

/-- The coordinator stops: it has heard of the end of each worker, or no worker
    is left that could send a message, and none is on its way. -/
def Over (s : LossySystem) : Prop :=
  s.system.Complete ∨
    s.system.board.channel = [] ∧
      ∀ t ∈ s.system.threads, t.phase = .ended ∨ s.Lost t.worker.id

end LossySystem

/-- A worker that is not lost makes a step, or is lost since its search faults,
    or the coordinator takes in the next message.  A search that faults leaves
    a graph behind, and it may have read its flag like any other. -/
inductive LossyStep (find : Searcher) : LossySystem → LossySystem → Prop where
  | turn {t t' : Thread} {b b' : Board} {received : List Message} {lost : List (Nat × Job)}
      (before after : List Thread) :
      (∀ job, (t.worker.id, job) ∉ lost) → Turn find t b t' b' →
      LossyStep find ⟨⟨before ++ t :: after, b, received⟩, lost⟩
        ⟨⟨before ++ t' :: after, b', received⟩, lost⟩
  | lose {w : Worker} {job : Job} {b : Board} {received : List Message} {lost : List (Nat × Job)}
      {stop : StopFlag} {fault : Fault} {graph : Graph} (before after : List Thread) :
      (∀ job, (w.id, job) ∉ lost) → stop.Monotone →
      (∀ i, stop i = true → b.shared.flag? job.rank = some true) →
      (find job { w.session with stop }).run.run b.graph = (.error fault, graph) →
      LossyStep find ⟨⟨before ++ ⟨w, .searching job⟩ :: after, b, received⟩, lost⟩
        ⟨⟨before ++ ⟨w, .searching job⟩ :: after, { b with graph }, received⟩,
          lost ++ [(w.id, job)]⟩
  | receive {threads : List Thread} {b : Board} {received : List Message}
      {lost : List (Nat × Job)} {m : Message} {channel : List Message} :
      b.channel = m :: channel →
      (System.mk threads b received).coordinator.done.length < threads.length →
      LossyStep find ⟨⟨threads, b, received⟩, lost⟩
        ⟨⟨threads, { b with channel }, received ++ [m]⟩, lost⟩

/-- Any number of steps, in any order. -/
abbrev LossySteps (find : Searcher) : LossySystem → LossySystem → Prop :=
  Relation.ReflTransGen (LossyStep find)

variable {find : Searcher} {A : Job → SearchEnd (Option Solution)} {jobs : List Job} {n : Nat}
  {I : Graph → Prop} {s s' : LossySystem}

/-- Steps without a loss are the steps of a system that loses no workers. -/
theorem LossySteps.steps_of_none_lost (h : LossySteps find s s') (hlost : s'.lost = []) :
    s.lost = [] ∧ Steps find s.system s'.system := by
  induction h with
  | refl => exact ⟨hlost, .refl⟩
  | tail _ hstep ih =>
    cases hstep with
    | turn before after _ hturn =>
      obtain ⟨hnone, hsteps⟩ := ih hlost
      exact ⟨hnone, hsteps.tail (.turn before after hturn)⟩
    | lose => exact (List.cons_ne_nil _ _ (List.append_eq_nil_iff.1 hlost).2).elim
    | receive hchannel hleft =>
      obtain ⟨hnone, hsteps⟩ := ih hlost
      exact ⟨hnone, hsteps.tail (.receive hchannel hleft)⟩

/-! ## The invariant -/

/-- Of `jobs` and `n` workers nothing goes missing but through losses.  A worker
    that is lost stands where it searched, with a job that faults. -/
structure LossySystem.Sound (A : Job → SearchEnd (Option Solution)) (jobs : List Job) (n : Nat)
    (I : Graph → Prop) (s : LossySystem) : Prop where
  accounted : Accounted jobs n s.system
  sound : s.system.Sound A jobs I
  once : (s.lost.map Prod.fst).Nodup
  held : ∀ l ∈ s.lost, ∃ t ∈ s.system.threads, t.worker.id = l.1 ∧ t.phase = .searching l.2
  faulted : ∀ l ∈ s.lost, ∃ fault, A l.2 = .error fault

theorem LossySystem.sound_start (direction : Direction) (count : WorkerCount) {g : Graph}
    (hg : I g) : (start direction count g).Sound A (Job.ranked direction.digits)
      (count.effective (Job.ranked direction.digits).length) I :=
  ⟨accounted_start direction count g, System.sound_start direction count hg, .nil, nofun, nofun⟩

/-- Only jobs that fault can make a search fault. -/
theorem Searcher.Answers.fault (hfind : find.Answers A I) {job : Job} {session : Session}
    {g graph : Graph} (hg : I g) (hstop : session.stop.Monotone) {fault : Fault}
    (hrun : (find job session).run.run g = (.error fault, graph)) :
    I graph ∧ A job = .error fault := by
  obtain ⟨hgraph, session', hended⟩ := hfind job session g hg hstop
  rw [hrun] at hgraph hended
  refine ⟨hgraph, ?_⟩
  obtain hended | ⟨hended, -⟩ := hended
  · cases hA : A job with
    | error fault' =>
      rw [hA] at hended
      exact congrArg Except.error (Except.error.inj hended).symm
    | ok answer =>
      rw [hA] at hended
      cases hended
  · cases hended

section Sound

variable (hfind : find.Answers A I)
include hfind

/-- Every step keeps the invariant, a loss as well. -/
theorem LossyStep.sound (hstep : LossyStep find s s') (hs : s.Sound A jobs n I) :
    s'.Sound A jobs n I := by
  obtain ⟨haccounted, hsound, honce, hheld, hfaulted⟩ := hs
  cases hstep with
  | @turn t t' b b' received lost before after hleft hturn =>
    have hstep : Step find ⟨before ++ t :: after, b, received⟩
        ⟨before ++ t' :: after, b', received⟩ := .turn before after hturn
    refine ⟨haccounted.step hstep, hstep.sound hfind hsound, honce, fun l hl => ?_, hfaulted⟩
    obtain ⟨t₀, ht₀, hid, hphase⟩ := hheld l hl
    -- the worker that makes a turn is not lost, so it is another one
    rcases List.mem_append.1 ht₀ with hmem | hmem
    · exact ⟨t₀, List.mem_append_left _ hmem, hid, hphase⟩
    · rcases List.mem_cons.1 hmem with rfl | hmem
      · exact (hleft l.2 (hid ▸ hl)).elim
      · exact ⟨t₀, List.mem_append_right _ (List.mem_cons_of_mem _ hmem), hid, hphase⟩
  | @lose w job b received lost stop fault graph before after hleft hstop hset hrun =>
    obtain ⟨hgraph, hA⟩ := hfind.fault hsound.board.graph hstop hrun
    refine ⟨⟨haccounted.queue, haccounted.ranks, haccounted.ids, haccounted.workers,
      haccounted.ended, haccounted.last, haccounted.drained⟩,
      ⟨hsound.threads, ⟨hgraph, hsound.board.queue, hsound.board.superseded,
        hsound.board.flagged⟩, hsound.sent⟩, ?_, fun l hl => ?_, fun l hl => ?_⟩
    · rw [List.map_append]
      refine honce.append (List.nodup_singleton _) (List.disjoint_singleton.2 fun hmem => ?_)
      obtain ⟨⟨_, job⟩, hl, rfl⟩ := List.mem_map.1 hmem
      exact hleft job hl
    · rcases List.mem_append.1 hl with hl | hl
      · exact hheld l hl
      · rw [List.mem_singleton.1 hl]
        exact ⟨_, List.mem_append_right _ List.mem_cons_self, rfl, rfl⟩
    · rcases List.mem_append.1 hl with hl | hl
      · exact hfaulted l hl
      · rw [List.mem_singleton.1 hl]
        exact ⟨fault, hA⟩
  | @receive threads b received lost m channel hchannel hleft =>
    have hstep : Step find ⟨threads, b, received⟩ ⟨threads, { b with channel }, received ++ [m]⟩ :=
      .receive hchannel hleft
    exact ⟨haccounted.step hstep, hstep.sound hfind hsound, honce, hheld, hfaulted⟩

theorem LossySteps.sound (hsteps : LossySteps find s s') (hs : s.Sound A jobs n I) :
    s'.Sound A jobs n I := by
  induction hsteps with
  | refl => exact hs
  | tail _ hstep ih => exact hstep.sound hfind ih

end Sound

/-! ## The end -/

/-- A worker that has a job, with that job. -/
def Thread.held? (t : Thread) : Option (Nat × Job) := t.phase.job?.map fun job => (t.worker.id, job)

/-- Where each worker has a job or came to its end, these are all workers. -/
theorem ids_perm (threads : List Thread)
    (hthreads : ∀ t ∈ threads, t.phase = .ended ∨ ∃ job, t.phase = .searching job) :
    (threads.map fun t => t.worker.id).Perm
      (threads.filterMap Thread.ended? ++ (threads.filterMap Thread.held?).map Prod.fst) := by
  induction threads with
  | nil => exact .refl _
  | cons t threads ih =>
    obtain ⟨ht, hthreads⟩ := List.forall_mem_cons.1 hthreads
    obtain hphase | ⟨job, hphase⟩ := ht
    · have hended : t.ended? = some t.worker.id := by rw [Thread.ended?, hphase]
      have hheld : t.held? = none := by rw [Thread.held?, hphase]; rfl
      rw [List.filterMap_cons_some hended, List.filterMap_cons_none hheld]
      exact (ih hthreads).cons _
    · have hended : t.ended? = none := by rw [Thread.ended?, hphase]
      have hheld : t.held? = some (t.worker.id, job) := by rw [Thread.held?, hphase]; rfl
      rw [List.filterMap_cons_none hended, List.filterMap_cons_some hheld]
      exact ((ih hthreads).cons _).trans List.perm_middle.symm

namespace LossySystem.Sound

variable (hs : s.Sound A jobs n I)
include hs

/-- Two workers of the same number are one. -/
theorem eq_of_id {t t' : Thread} (ht : t ∈ s.system.threads) (ht' : t' ∈ s.system.threads)
    (hid : t.worker.id = t'.worker.id) : t = t' :=
  List.inj_on_of_nodup_map (hs.accounted.ids ▸ List.nodup_range) ht ht' hid

/-- A worker that is lost has one of the jobs. -/
theorem mem_jobs {l : Nat × Job} (hl : l ∈ s.lost) : l.2 ∈ jobs := by
  obtain ⟨t, ht, -, hphase⟩ := hs.held l hl
  have hsound := hs.sound.threads t ht
  rw [hphase] at hsound
  exact hsound

variable (hover : s.Over)
include hover

/-- When the coordinator stops, no message is on its way, and each worker has
    come to its end or is lost with its job. -/
theorem through : s.system.board.channel = [] ∧ ∀ t ∈ s.system.threads,
    t.phase = .ended ∨ ∃ job, (t.worker.id, job) ∈ s.lost ∧ t.phase = .searching job := by
  obtain hcomplete | ⟨hchannel, hall⟩ := hover
  · refine ⟨hs.accounted.channel_of_complete hcomplete, fun t ht => .inl ?_⟩
    obtain ⟨w, hw⟩ := (hs.accounted.all_ended hcomplete).1 t ht
    exact (Thread.of_ended? hw).1
  · refine ⟨hchannel, fun t ht => (hall t ht).imp_right ?_⟩
    rintro ⟨job, hlost⟩
    obtain ⟨t', ht', hid, hphase⟩ := hs.held _ hlost
    obtain rfl := hs.eq_of_id ht ht' hid.symm
    exact ⟨job, hlost, hphase⟩

/-- The workers that came to their end and those that still have a job are all
    workers. -/
theorem ended_held_perm : (s.system.threads.filterMap Thread.ended? ++
    (s.system.threads.filterMap Thread.held?).map Prod.fst).Perm (List.range n) := by
  rw [← hs.accounted.ids]
  refine (ids_perm s.system.threads fun t ht => ?_).symm
  exact ((hs.through hover).2 t ht).imp_right fun ⟨job, _, hphase⟩ => ⟨job, hphase⟩

/-- Those that still have a job are lost. -/
theorem held_perm : (s.system.threads.filterMap Thread.held?).Perm s.lost := by
  have hheld : (s.system.threads.filterMap Thread.held?).Nodup :=
    (List.nodup_append.1 ((hs.ended_held_perm hover).nodup_iff.2 List.nodup_range)).2.1.of_map _
  refine (List.perm_ext_iff_of_nodup hheld (hs.once.of_map _)).2 fun l => ?_
  rw [List.mem_filterMap]
  constructor
  · rintro ⟨t, ht, hl⟩
    obtain ⟨job, hjob, rfl⟩ := Option.map_eq_some_iff.1 hl
    obtain hphase | ⟨job', hlost, hphase⟩ := (hs.through hover).2 t ht
    · rw [hphase] at hjob
      cases hjob
    · rw [hphase] at hjob
      cases hjob
      exact hlost
  · intro hl
    obtain ⟨t, ht, hid, hphase⟩ := hs.held l hl
    refine ⟨t, ht, ?_⟩
    rw [Thread.held?, hphase, hid]
    rfl

/-- When the coordinator stops, each worker has told of its end once or is
    lost, and each job that was taken was told of once or is one of a worker
    that is lost.  Jobs that were not taken are left only if all workers are
    lost. -/
theorem told :
    (s.system.coordinator.done.map Prod.fst ++ s.lost.map Prod.fst).Perm (List.range n) ∧
      (s.system.received.filterMap Message.rank? ++ s.lost.map (·.2.rank)).Perm
        (s.system.board.taken.map Job.rank) ∧
      s.system.board.taken <+: jobs ∧ (s.lost.length < n → s.system.board.taken = jobs) := by
  obtain ⟨hchannel, hall⟩ := hs.through hover
  have hsent : s.system.sent = s.system.received := by
    rw [System.sent, hchannel, List.append_nil]
  have hworkers :
      (s.system.coordinator.done.map Prod.fst ++ s.lost.map Prod.fst).Perm (List.range n) := by
    rw [s.system.done_coordinator]
    refine .trans (.append ((List.reverse_perm _).trans (hsent ▸ hs.accounted.ended)) ?_)
      (hs.ended_held_perm hover)
    exact ((hs.held_perm hover).map _).symm
  refine ⟨hworkers, ?_, ⟨_, hs.accounted.queue⟩, fun hleft => ?_⟩
  · have hranks := hs.accounted.ranks
    have hheld : s.system.threads.filterMap Thread.rank? =
        (s.system.threads.filterMap Thread.held?).map (·.2.rank) := by
      rw [List.map_filterMap]
      refine List.filterMap_congr fun t _ => ?_
      rw [Thread.rank?, Thread.held?, Option.map_map]
      rfl
    rw [hsent, hheld] at hranks
    exact .trans (.append_left _ ((hs.held_perm hover).map _).symm) hranks
  · -- some worker came to its end, and for that it found no more jobs
    obtain ⟨t, ht, hended⟩ : ∃ t ∈ s.system.threads, t.phase = .ended := by
      by_contra hnone
      have hnil : s.system.threads.filterMap Thread.ended? = [] :=
        List.filterMap_eq_nil_iff.2 fun t ht => Option.eq_none_iff_forall_ne_some.2 fun w hw =>
          hnone ⟨t, ht, (Thread.of_ended? hw).1⟩
      have hlength := (hs.ended_held_perm hover).length_eq
      rw [hnil, List.nil_append, List.length_map, (hs.held_perm hover).length_eq,
        List.length_range] at hlength
      omega
    have hqueue := hs.accounted.queue
    rwa [hs.accounted.drained t ht hended, List.append_nil] at hqueue

end LossySystem.Sound

end InputSolver.Parallel
