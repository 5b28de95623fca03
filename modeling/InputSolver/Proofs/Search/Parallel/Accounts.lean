/-
  InputSolver — jobs, messages and workers are accounted for.

  * `Accounted.step`: at any time each job waits, or a worker has it, or one
    message was sent about it, and a worker tells of its end once, last of all;
  * `Accounted.complete`: when a run is complete, all jobs were taken, and a
    message has come in about each job and about the end of each worker.
-/
import Mathlib.Data.List.Nodup
import InputSolver.Proofs.Search.Parallel.Schedule

namespace InputSolver.Parallel

/-! ## What a message is about -/

namespace Message

/-- The rank of the job that a message is about. -/
def rank? : Message → Option Nat
  | finished _ rank _ | failed _ rank _ => some rank
  | done _ _ => none

/-- The worker that tells of its end. -/
def ended? : Message → Option Nat
  | done worker _ => some worker
  | _ => none

/-- The worker that sent a message. -/
def worker : Message → Nat
  | finished worker _ _ | failed worker _ _ | done worker _ => worker

@[simp] theorem rank?_report (worker rank : Nat) (answer : Except EvalError (Option Solution)) :
    (report worker rank answer).rank? = some rank := by
  cases answer <;> rfl

@[simp] theorem ended?_report (worker rank : Nat) (answer : Except EvalError (Option Solution)) :
    (report worker rank answer).ended? = none := by
  cases answer <;> rfl

@[simp] theorem worker_report (worker rank : Nat) (answer : Except EvalError (Option Solution)) :
    (report worker rank answer).worker = worker := by
  cases answer <;> rfl

end Message

namespace Thread

/-- The rank of the job that a worker has. -/
def rank? (t : Thread) : Option Nat := t.phase.job?.map Job.rank

/-- A worker that came to its end. -/
def ended? (t : Thread) : Option Nat :=
  match t.phase with
  | .ended => some t.worker.id
  | _ => none

theorem of_ended? {t : Thread} {w : Nat} (ht : t.ended? = some w) :
    t.phase = .ended ∧ w = t.worker.id := by
  unfold ended? at ht
  split at ht
  · exact ⟨‹_›, (Option.some.inj ht).symm⟩
  · cases ht

end Thread

theorem Phase.job?_afterSearch (job : Job) (answer : Except EvalError (Option Solution)) :
    (afterSearch job answer).job? = some job := by
  rcases answer with _ | _ | _ <;> rfl

theorem Phase.afterSearch_ne_ended (job : Job) (answer : Except EvalError (Option Solution)) :
    afterSearch job answer ≠ .ended := by
  rcases answer with _ | _ | _ <;> nofun

/-! ## Turns -/

/-- What a turn does to jobs and messages: the worker takes some jobs, and
    tells something. -/
structure Turn.Effect (t : Thread) (b : Board) (took : List Job) (said : List Message)
    (t' : Thread) (b' : Board) : Prop where
  id : t'.worker.id = t.worker.id
  taken : b'.taken = b.taken ++ took
  waiting : b.queue.waiting = took ++ b'.queue.waiting
  channel : b'.channel = b.channel ++ said
  ranks : (said.filterMap Message.rank? ++ t'.rank?.toList).Perm
    (t.rank?.toList ++ took.map Job.rank)
  running : t.ended? = none
  ended : said.filterMap Message.ended? = t'.ended?.toList
  worker : ∀ m ∈ said, m.worker = t.worker.id
  short : said.length ≤ 1
  drained : t'.phase = .ended → b'.queue.waiting = []

variable {find : Searcher}

theorem Turn.effect {t t' : Thread} {b b' : Board} (h : Turn find t b t' b') :
    ∃ took said, Turn.Effect t b took said t' b' := by
  cases h with
  | @take w b job queue htake =>
    rcases hq : b.queue with ⟨_ | ⟨next, rest⟩⟩
    · rw [hq] at htake
      cases htake
    · rw [hq] at htake
      cases htake
      refine ⟨[job], [], rfl, rfl, ?_, (List.append_nil _).symm, .refl _, rfl, rfl, nofun,
        Nat.zero_le 1, nofun⟩
      rw [hq]
      rfl
  | skip | begin | lower | cancel | cancelled =>
    exact ⟨[], [], rfl, (List.append_nil _).symm, rfl, (List.append_nil _).symm, .refl _, rfl, rfl,
      nofun, Nat.zero_le 1, nofun⟩
  | @search w b job stop session answer graph =>
    have hrank (w : Worker) : (Thread.mk w (.afterSearch job answer)).rank? = some job.rank := by
      rw [Thread.rank?, Phase.job?_afterSearch]
      rfl
    have hended (w : Worker) : (Thread.mk w (.afterSearch job answer)).ended? = none := by
      rcases answer with _ | _ | _ <;> rfl
    refine ⟨[], [], rfl, (List.append_nil _).symm, rfl, (List.append_nil _).symm, ?_, rfl, ?_,
      nofun, Nat.zero_le 1, fun h => (Phase.afterSearch_ne_ended job answer h).elim⟩
    · rw [hrank]
      exact .refl _
    · rw [hended]
      rfl
  | @send w b job answer =>
    refine ⟨[], [.report w.id job.rank answer], rfl, (List.append_nil _).symm, rfl, rfl, ?_, rfl, ?_,
      ?_, Nat.le_refl 1, nofun⟩
    · rw [List.filterMap_cons, Message.rank?_report]
      exact .refl _
    · rw [List.filterMap_cons, Message.ended?_report]
      rfl
    · intro m hm
      rw [List.mem_singleton.1 hm, Message.worker_report]
  | @retire w b hempty =>
    refine ⟨[], [_], rfl, (List.append_nil _).symm, rfl, rfl, .refl _, rfl, rfl, ?_, Nat.le_refl 1,
      fun _ => ?_⟩
    · intro m hm
      rw [List.mem_singleton.1 hm]
      rfl
    · rcases hq : b.queue with ⟨_ | ⟨next, rest⟩⟩
      · rfl
      · rw [hq] at hempty
        cases hempty

/-! ## The system -/

/-- Of `jobs` and `n` workers nothing is lost. -/
structure Accounted (jobs : List Job) (n : Nat) (s : System) : Prop where
  queue : s.board.taken ++ s.board.queue.waiting = jobs
  ranks : (s.sent.filterMap Message.rank? ++ s.threads.filterMap Thread.rank?).Perm
    (s.board.taken.map Job.rank)
  ids : (s.threads.map fun t => t.worker.id) = List.range n
  workers : ∀ m ∈ s.sent, m.worker < n
  ended : (s.sent.filterMap Message.ended?).Perm (s.threads.filterMap Thread.ended?)
  last : s.sent.Pairwise fun m m' => ∀ w, m.ended? = some w → m'.worker ≠ w
  drained : ∀ t ∈ s.threads, t.phase = .ended → s.board.queue.waiting = []

theorem accounted_start (direction : Direction) (count : WorkerCount) (g : Graph) :
    Accounted (Job.ranked direction.digits)
      (count.effective (Job.ranked direction.digits).length) (.start direction count g) where
  queue := rfl
  ranks := by
    have hidle : (System.start direction count g).threads.filterMap Thread.rank? = [] := by
      refine List.filterMap_eq_nil_iff.2 fun t ht => ?_
      obtain ⟨id, -, rfl⟩ := List.mem_map.1 ht
      rfl
    rw [hidle]
    exact .refl _
  ids := by
    rw [System.start, List.map_map]
    exact List.map_id _
  workers := nofun
  ended := by
    have hrunning : (System.start direction count g).threads.filterMap Thread.ended? = [] := by
      refine List.filterMap_eq_nil_iff.2 fun t ht => ?_
      obtain ⟨id, -, rfl⟩ := List.mem_map.1 ht
      rfl
    rw [hrunning]
    exact .refl _
  last := .nil
  drained t ht := by
    obtain ⟨id, -, rfl⟩ := List.mem_map.1 ht
    nofun

variable {jobs : List Job} {n : Nat} {s s' : System}

/-- A list with one item in the midst of others. -/
theorem filterMap_insert {α β : Type} (f : α → Option β) (before after : List α) (a : α) :
    ((before ++ a :: after).filterMap f).Perm
      ((f a).toList ++ (before ++ after).filterMap f) := by
  have hcons : (a :: after).filterMap f = (f a).toList ++ after.filterMap f := by
    rw [List.filterMap_cons]
    cases f a <;> rfl
  rw [List.filterMap_append, List.filterMap_append, hcons, ← List.append_assoc, ← List.append_assoc]
  exact List.perm_append_comm.append_right _

/-- Of a worker that has not come to its end, no message says so. -/
theorem Accounted.running (hs : Accounted jobs n s) {t : Thread} (ht : t ∈ s.threads)
    (hrunning : t.ended? = none) {m : Message} (hm : m ∈ s.sent) : m.ended? ≠ some t.worker.id := by
  intro hended
  have hmem := hs.ended.mem_iff.1 (List.mem_filterMap.2 ⟨m, hm, hended⟩)
  obtain ⟨t', ht', hended'⟩ := List.mem_filterMap.1 hmem
  have hid := (Thread.of_ended? hended').2
  have hnodup : (s.threads.map fun t => t.worker.id).Nodup := hs.ids ▸ List.nodup_range
  obtain rfl := List.inj_on_of_nodup_map hnodup ht' ht hid.symm
  rw [hrunning] at hended'
  cases hended'

/-- A turn of a worker keeps the accounts. -/
theorem Accounted.turn {t t' : Thread} {b b' : Board} {received : List Message}
    {before after : List Thread} {took : List Job} {said : List Message}
    (hs : Accounted jobs n ⟨before ++ t :: after, b, received⟩)
    (heffect : Turn.Effect t b took said t' b') :
    Accounted jobs n ⟨before ++ t' :: after, b', received⟩ := by
  have hsent : (System.mk (before ++ t' :: after) b' received).sent =
      (System.mk (before ++ t :: after) b received).sent ++ said := by
    rw [System.sent, System.sent, heffect.channel, List.append_assoc]
  have ht : t ∈ before ++ t :: after := List.mem_append_right _ List.mem_cons_self
  constructor
  case queue => rw [← hs.queue, heffect.taken, heffect.waiting, List.append_assoc]
  case ranks =>
    rw [hsent, heffect.taken, List.filterMap_append, List.map_append]
    refine List.perm_iff_count.2 fun r => ?_
    have h₁ := hs.ranks.count_eq r
    have h₂ := heffect.ranks.count_eq r
    have h₃ := (filterMap_insert Thread.rank? before after t).count_eq r
    have h₄ := (filterMap_insert Thread.rank? before after t').count_eq r
    simp only [List.count_append] at h₁ h₂ h₃ h₄ ⊢
    omega
  case ids => rw [← hs.ids, List.map_append, List.map_append, List.map_cons, List.map_cons, heffect.id]
  case workers =>
    rw [hsent]
    intro m hm
    rcases List.mem_append.1 hm with hm | hm
    · exact hs.workers m hm
    · rw [heffect.worker m hm, ← List.mem_range, ← hs.ids]
      exact List.mem_map.2 ⟨t, ht, rfl⟩
  case ended =>
    rw [hsent, List.filterMap_append, heffect.ended]
    refine List.perm_iff_count.2 fun r => ?_
    have h₁ := hs.ended.count_eq r
    have h₂ := (filterMap_insert Thread.ended? before after t).count_eq r
    have h₃ := (filterMap_insert Thread.ended? before after t').count_eq r
    rw [heffect.running] at h₂
    simp only [List.count_append, Option.toList_none, List.count_nil] at h₁ h₂ h₃ ⊢
    omega
  case last =>
    have hsaid : said.Pairwise fun m m' => ∀ w, m.ended? = some w → m'.worker ≠ w := by
      rcases said with _ | ⟨m, _ | ⟨m', said⟩⟩
      · exact .nil
      · exact List.pairwise_singleton _ m
      · exact absurd heffect.short (by simp only [List.length_cons]; omega)
    rw [hsent, List.pairwise_append]
    refine ⟨hs.last, hsaid, fun m hm m' hm' w hended hw => ?_⟩
    rw [heffect.worker m' hm'] at hw
    exact hs.running ht heffect.running hm (hw ▸ hended)
  case drained =>
    intro t₀ ht₀ hended
    have hold (h₀ : t₀ ∈ before ++ t :: after) : b'.queue.waiting = [] := by
      have hwaiting := hs.drained t₀ h₀ hended
      rw [heffect.waiting] at hwaiting
      exact (List.append_eq_nil_iff.1 hwaiting).2
    rcases List.mem_append.1 ht₀ with hmem | hmem
    · exact hold (List.mem_append_left _ hmem)
    · rcases List.mem_cons.1 hmem with rfl | hmem
      · exact heffect.drained hended
      · exact hold (List.mem_append_right _ (List.mem_cons_of_mem _ hmem))

/-- Every step keeps the accounts. -/
theorem Accounted.step (hs : Accounted jobs n s) (h : Step find s s') :
    Accounted jobs n s' := by
  cases h with
  | turn before after hturn =>
    obtain ⟨took, said, heffect⟩ := hturn.effect
    exact hs.turn heffect
  | @receive threads b received m channel hchannel hleft =>
    have hsent := @System.sent_receive threads b received channel m hchannel
    exact ⟨hs.queue, hsent ▸ hs.ranks, hs.ids, hsent ▸ hs.workers, hsent ▸ hs.ended,
      hsent ▸ hs.last, hs.drained⟩

theorem Accounted.steps (hs : Accounted jobs n s) (h : Steps find s s') :
    Accounted jobs n s' := by
  induction h with
  | refl => exact hs
  | tail _ hstep ih => exact ih.step hstep

/-! ## The end -/

/-- The coordinator knows of each end that it was told of. -/
theorem Coordinator.done_foldl (ms : List Message) (c : Coordinator) :
    (ms.foldl receive c).done.map Prod.fst =
      (ms.filterMap Message.ended?).reverse ++ c.done.map Prod.fst := by
  induction ms generalizing c with
  | nil => rfl
  | cons m ms ih =>
    rw [List.foldl_cons, ih]
    rcases m with ⟨w, r, _ | s⟩ | ⟨w, r, error⟩ | ⟨w, statistics⟩
    · rfl
    · rfl
    · rfl
    · simp [receive, Message.ended?]

theorem System.done_coordinator (s : System) :
    s.coordinator.done.map Prod.fst = (s.received.filterMap Message.ended?).reverse :=
  (Coordinator.done_foldl s.received .start).trans (List.append_nil _)

/-- When a run is complete, every worker has come to its end, and the
    coordinator has heard of that. -/
theorem Accounted.all_ended (hs : Accounted jobs n s) (hc : s.Complete) :
    (∀ t ∈ s.threads, ∃ w, t.ended? = some w) ∧
      (s.received.filterMap Message.ended?).Perm (List.range n) := by
  have hcount : (s.received.filterMap Message.ended?).length = s.threads.length := by
    rw [← hc, ← List.length_reverse, ← s.done_coordinator, List.length_map]
  have hperm := hs.ended
  rw [System.sent, List.filterMap_append] at hperm
  have hlength := hperm.length_eq
  have hle := List.length_filterMap_le Thread.ended? s.threads
  rw [List.length_append] at hlength
  have hall : ∀ t ∈ s.threads, ∃ w, t.ended? = some w := fun t ht =>
    Option.isSome_iff_exists.1 (List.filterMap_length_eq_length.1 (by omega) t ht)
  have hids : s.threads.filterMap Thread.ended? = List.range n := by
    rw [← hs.ids, ← List.filterMap_eq_map]
    refine List.filterMap_congr fun t ht => ?_
    obtain ⟨w, hw⟩ := hall t ht
    rw [hw, (Thread.of_ended? hw).2]
    rfl
  have hnone : s.board.channel.filterMap Message.ended? = [] :=
    List.length_eq_zero_iff.1 (by omega)
  rw [hnone, List.append_nil, hids] at hperm
  exact ⟨hall, hperm⟩

/-- When a run is complete, no message is on its way: it would come after its
    worker told of its end. -/
theorem Accounted.channel_of_complete (hs : Accounted jobs n s) (hc : s.Complete) :
    s.board.channel = [] := by
  obtain ⟨-, hperm⟩ := hs.all_ended hc
  refine List.eq_nil_iff_forall_not_mem.2 fun m hm => ?_
  have hworker := hs.workers m (List.mem_append_right _ hm)
  obtain ⟨m', hm', hended⟩ :=
    List.mem_filterMap.1 (hperm.mem_iff.2 (List.mem_range.2 hworker))
  exact (List.pairwise_append.1 hs.last).2.2 m' hm' m hm _ hended rfl

/-- When a run is complete, all jobs were taken, and one message has come in
    about each job, and one about the end of each worker. -/
theorem Accounted.complete (hs : Accounted jobs n s) (hn : 0 < n) (hc : s.Complete) :
    s.board.taken = jobs ∧ (s.received.filterMap Message.rank?).Perm (jobs.map Job.rank) ∧
      (s.coordinator.done.map Prod.fst).Perm (List.range n) := by
  obtain ⟨hall, hperm⟩ := hs.all_ended hc
  have hsent : s.sent = s.received := by
    rw [System.sent, hs.channel_of_complete hc, List.append_nil]
  have hidle : s.threads.filterMap Thread.rank? = [] := by
    refine List.filterMap_eq_nil_iff.2 fun t ht => ?_
    obtain ⟨w, hw⟩ := hall t ht
    rw [Thread.rank?, (Thread.of_ended? hw).1]
    rfl
  have htaken : s.board.taken = jobs := by
    have hmem : 0 ∈ s.threads.map fun t => t.worker.id := hs.ids ▸ List.mem_range.2 hn
    obtain ⟨t, ht, -⟩ := List.mem_map.1 hmem
    obtain ⟨w, hw⟩ := hall t ht
    have hqueue := hs.queue
    rwa [hs.drained t ht (Thread.of_ended? hw).1, List.append_nil] at hqueue
  refine ⟨htaken, ?_, ?_⟩
  · have hranks := hs.ranks
    rwa [hsent, hidle, htaken, List.append_nil] at hranks
  · rw [s.done_coordinator]
    exact (List.reverse_perm _).trans hperm

end InputSolver.Parallel
