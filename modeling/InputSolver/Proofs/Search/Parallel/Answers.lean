/-
  InputSolver — a job is stopped only if it is beaten.

  A job is beaten if one of a better rank finds a solution.  At any time only
  jobs that are beaten are superseded or have their flag set.  So what is said
  of a job is what the search with its digit finds, or that it finds nothing,
  and then it is beaten (`Sound`).

  * `Turn.sound`: each turn of a worker keeps it so;
  * `Steps.sound`: so it is after any number of steps.
-/
import InputSolver.Proofs.Search.Parallel.Schedule

namespace InputSolver.Parallel

/-! ## Ranks -/

namespace Job

variable {digits : List Word}

theorem rank_lt_of_ranked {job : Job} (hjob : job ∈ ranked digits) : job.rank < digits.length := by
  obtain ⟨rank, hrank, rfl⟩ := List.mem_mapIdx.1 hjob
  exact hrank

/-- The ranks are the places in the order of the search. -/
theorem pairwise_ranked (digits : List Word) :
    (ranked digits).Pairwise fun job job' => job.rank < job'.rank := by
  refine List.pairwise_iff_getElem.2 fun i j hi hj hij => ?_
  rw [ranked, List.length_mapIdx] at hi hj
  simp only [ranked, List.getElem_mapIdx]
  exact hij

theorem map_ranked {α : Type} (f : Word → α) (digits : List Word) :
    ((ranked digits).map fun job => f job.digit) = digits.map f := by
  refine List.ext_getElem ?_ fun i _ _ => ?_
  · rw [List.length_map, List.length_map, ranked, List.length_mapIdx]
  · simp only [ranked, List.getElem_map, List.getElem_mapIdx]

end Job

/-! ## What may be said of a job -/

section Sound

variable (A : Job → SearchEnd (Option Solution)) (jobs : List Job)

/-- A job of a better rank finds a solution. -/
def Beaten (rank : Nat) : Prop :=
  ∃ job ∈ jobs, job.rank < rank ∧ ∃ solution, A job = .ok (.ok (some solution))

/-- What may be said of a job: what its search finds, or nothing, if the job is
    beaten. -/
def Fair (job : Job) (answer : Except EvalError (Option Solution)) : Prop :=
  job ∈ jobs ∧ (A job = .ok answer ∨ answer = .ok none ∧ Beaten A jobs job.rank)

/-- A message says of a job what may be said. -/
def Message.Sound : Message → Prop
  | .finished _ rank solution? => ∃ job, job.rank = rank ∧ Fair A jobs job (.ok solution?)
  | .failed _ rank error => ∃ job, job.rank = rank ∧ Fair A jobs job (.error error)
  | .done _ _ => True

/-- A worker has one of the jobs.  Once it has a solution, that is what the job
    finds, and only worse ranks are asked to stop. -/
def Phase.Sound : Phase → Prop
  | .idle | .ended => True
  | .taken job | .searching job => job ∈ jobs
  | .found job solution => job ∈ jobs ∧ A job = .ok (.ok (some solution))
  | .cancelling job solution ranks =>
    job ∈ jobs ∧ A job = .ok (.ok (some solution)) ∧ ∀ rank ∈ ranks, job.rank < rank
  | .reporting job answer => Fair A jobs job answer

/-- Only jobs that are beaten are superseded or asked to stop.  The graph has
    the property that searches keep. -/
structure Board.Sound (I : Graph → Prop) (b : Board) : Prop where
  graph : I b.graph
  queue : ∀ job ∈ b.queue.waiting, job ∈ jobs
  superseded : ∀ job ∈ jobs, b.shared.isSuperseded job.rank = true → Beaten A jobs job.rank
  flagged : ∀ rank, b.shared.flag? rank = some true → Beaten A jobs rank

/-- So it is for all workers and messages. -/
structure System.Sound (I : Graph → Prop) (s : System) : Prop where
  threads : ∀ t ∈ s.threads, t.phase.Sound A jobs
  board : s.board.Sound A jobs I
  sent : ∀ m ∈ s.sent, m.Sound A jobs

end Sound

variable {A : Job → SearchEnd (Option Solution)} {jobs : List Job} {I : Graph → Prop}
  {job : Job}

theorem Message.sound_report {answer : Except EvalError (Option Solution)} (worker : Nat)
    (hfair : Fair A jobs job answer) : (Message.report worker job.rank answer).Sound A jobs := by
  cases answer with
  | ok solution? => exact ⟨job, rfl, hfair⟩
  | error error => exact ⟨job, rfl, hfair⟩

theorem Phase.sound_afterSearch {answer : Except EvalError (Option Solution)}
    (hfair : Fair A jobs job answer) : (Phase.afterSearch job answer).Sound A jobs := by
  rcases answer with error | _ | solution
  · exact hfair
  · exact hfair
  · obtain ⟨hjob, hanswer | ⟨hnone, -⟩⟩ := hfair
    · exact ⟨hjob, hanswer⟩
    · cases hnone

/-! ## What workers share -/

namespace SharedBest

/-- Lowering the best rank supersedes what comes after that rank. -/
theorem isSuperseded_lowerTo {b : SharedBest} {rank r : Nat}
    (hr : (b.lowerTo rank).isSuperseded r = true) : b.isSuperseded r = true ∨ rank < r := by
  have hlt : Nat.min b.best rank < r := of_decide_eq_true hr
  rcases min_lt_iff.1 hlt with hbest | hrank
  · exact .inl (decide_eq_true hbest)
  · exact .inr hrank

theorem flag?_setFlag {b : SharedBest} {rank r : Nat}
    (hr : (b.setFlag rank).flag? r = some true) : b.flag? r = some true ∨ r = rank := by
  by_cases heq : rank = r
  · exact .inr heq.symm
  · rw [flag?, setFlag, List.getElem?_set_ne heq] at hr
    exact .inl hr

theorem lt_of_mem_worseRanks {b : SharedBest} {rank r : Nat} (hr : r ∈ b.worseRanks rank) :
    rank < r :=
  of_decide_eq_true (List.mem_filter.1 hr).2

theorem flag?_new {n r : Nat} : (new n).flag? r ≠ some true := by
  intro hr
  cases (List.mem_replicate.1 (List.mem_of_getElem? hr)).2

end SharedBest

/-- A job with a solution may be the best. -/
theorem Board.Sound.lowerTo {b : Board} (hb : b.Sound A jobs I) (hjob : job ∈ jobs)
    {solution : Solution} (hsolution : A job = .ok (.ok (some solution))) :
    Board.Sound A jobs I { b with shared := b.shared.lowerTo job.rank } where
  graph := hb.graph
  queue := hb.queue
  superseded job' hjob' hlt := by
    obtain hlt | hlt := SharedBest.isSuperseded_lowerTo hlt
    · exact hb.superseded job' hjob' hlt
    · exact ⟨job, hjob, hlt, solution, hsolution⟩
  flagged := hb.flagged

/-- A rank that is beaten may be asked to stop. -/
theorem Board.Sound.setFlag {b : Board} (hb : b.Sound A jobs I) {rank : Nat}
    (hbeaten : Beaten A jobs rank) :
    Board.Sound A jobs I { b with shared := b.shared.setFlag rank } where
  graph := hb.graph
  queue := hb.queue
  superseded := hb.superseded
  flagged r hr := by
    obtain hr | rfl := SharedBest.flag?_setFlag hr
    · exact hb.flagged r hr
    · exact hbeaten

/-! ## The start -/

/-- At the start no rank is the best. -/
theorem SharedBest.isSuperseded_new {direction : Direction}
    (hjob : job ∈ Job.ranked direction.digits) (n : Nat) :
    (new n).isSuperseded job.rank = false := by
  have hrank := Job.rank_lt_of_ranked hjob
  have hdigits : direction.digits.length = 9 := by cases direction <;> rfl
  rw [hdigits] at hrank
  exact decide_eq_false (Nat.not_lt_of_le (Nat.le_trans (Nat.le_of_lt hrank)
    (show 9 ≤ noRank by decide)))

theorem System.sound_start (direction : Direction) (count : WorkerCount) {g : Graph} (hg : I g) :
    (System.start direction count g).Sound A (Job.ranked direction.digits) I where
  threads t ht := by
    obtain ⟨id, -, rfl⟩ := List.mem_map.1 ht
    exact trivial
  board := by
    refine ⟨hg, fun job hjob => hjob, fun job hjob hlt => ?_, fun rank hset => ?_⟩
    · cases (SharedBest.isSuperseded_new hjob _).symm.trans hlt
    · exact (SharedBest.flag?_new hset).elim
  sent := nofun

/-! ## Turns -/

section Answers

variable {find : Searcher} (hfind : find.Answers A I)
include hfind

/-- What a search says of its job may be said. -/
theorem Board.Sound.search {b : Board} (hb : b.Sound A jobs I) (hjob : job ∈ jobs)
    {s session : Session} {graph : Graph} {answer : Except EvalError (Option Solution)}
    (hstop : s.stop.Monotone)
    (hset : ∀ i, s.stop i = true → b.shared.flag? job.rank = some true)
    (hrun : (find job s).run.run b.graph = (.ok (answer, session), graph)) :
    Board.Sound A jobs I { b with graph } ∧ Fair A jobs job answer := by
  obtain ⟨hgraph, session', hended⟩ := hfind job s b.graph hb.graph hstop
  rw [hrun] at hgraph hended
  refine ⟨⟨hgraph, hb.queue, hb.superseded, hb.flagged⟩, hjob, ?_⟩
  obtain hanswer | ⟨hnone, i, hi⟩ := hended
  · left
    cases hsearch : A job with
    | error fault =>
      rw [hsearch] at hanswer
      cases hanswer
    | ok found =>
      rw [hsearch] at hanswer
      cases hanswer
      rfl
  · right
    cases hnone
    exact ⟨rfl, hb.flagged job.rank (hset i hi)⟩

/-- After a turn still only jobs that are beaten are stopped, and what was said
    may be said. -/
theorem Turn.sound {t t' : Thread} {b b' : Board} (hturn : Turn find t b t' b')
    (ht : t.phase.Sound A jobs)
    (hb : b.Sound A jobs I) :
    t'.phase.Sound A jobs ∧ b'.Sound A jobs I ∧
      ∀ m ∈ b'.channel, m ∈ b.channel ∨ m.Sound A jobs := by
  cases hturn with
  | @take w b job queue htake =>
    rcases hq : b.queue with ⟨_ | ⟨next, rest⟩⟩
    · rw [hq] at htake
      cases htake
    · rw [hq] at htake
      cases htake
      have hqueue := hb.queue
      rw [hq] at hqueue
      exact ⟨hqueue job List.mem_cons_self,
        ⟨hb.graph, fun j hj => hqueue j (List.mem_cons_of_mem _ hj), hb.superseded, hb.flagged⟩,
        fun m => .inl⟩
  | skip hsuperseded =>
    exact ⟨⟨ht, .inr ⟨rfl, hb.superseded _ ht hsuperseded⟩⟩, hb, fun m => .inl⟩
  | begin => exact ⟨ht, hb, fun m => .inl⟩
  | search hstop hset hrun =>
    obtain ⟨hb', hfair⟩ := hb.search hfind ht hstop hset hrun
    exact ⟨Phase.sound_afterSearch hfair, hb', fun m => .inl⟩
  | lower =>
    obtain ⟨hjob, hsolution⟩ := ht
    refine ⟨⟨hjob, hsolution, fun r hr => ?_⟩, hb.lowerTo hjob hsolution, fun m => .inl⟩
    split at hr
    · exact SharedBest.lt_of_mem_worseRanks hr
    · cases hr
  | cancel =>
    obtain ⟨hjob, hsolution, hworse⟩ := ht
    obtain ⟨hrank, hworse⟩ := List.forall_mem_cons.1 hworse
    exact ⟨⟨hjob, hsolution, hworse⟩, hb.setFlag ⟨_, hjob, hrank, _, hsolution⟩, fun m => .inl⟩
  | cancelled => exact ⟨⟨ht.1, .inl ht.2.1⟩, hb, fun m => .inl⟩
  | send =>
    refine ⟨trivial, ⟨hb.graph, hb.queue, hb.superseded, hb.flagged⟩, fun m hm => ?_⟩
    refine (List.mem_append.1 hm).imp_right fun hm => ?_
    rw [List.mem_singleton.1 hm]
    exact Message.sound_report _ ht
  | retire =>
    refine ⟨trivial, ⟨hb.graph, hb.queue, hb.superseded, hb.flagged⟩, fun m hm => ?_⟩
    refine (List.mem_append.1 hm).imp_right fun hm => ?_
    rw [List.mem_singleton.1 hm]
    exact trivial

/-! ## The system -/

variable {s s' : System}

theorem Step.sound (hstep : Step find s s') (hs : s.Sound A jobs I) :
    s'.Sound A jobs I := by
  cases hstep with
  | @turn t t' b b' received before after hturn =>
    obtain ⟨ht', hb', hsaid⟩ := hturn.sound hfind
      (hs.threads t (List.mem_append_right _ List.mem_cons_self)) hs.board
    refine ⟨fun t₀ ht₀ => ?_, hb', fun m hm => ?_⟩
    · rcases List.mem_append.1 ht₀ with hmem | hmem
      · exact hs.threads t₀ (List.mem_append_left _ hmem)
      · rcases List.mem_cons.1 hmem with rfl | hmem
        · exact ht'
        · exact hs.threads t₀ (List.mem_append_right _ (List.mem_cons_of_mem _ hmem))
    · rcases List.mem_append.1 hm with hm | hm
      · exact hs.sent m (List.mem_append_left _ hm)
      · exact (hsaid m hm).elim (fun hm => hs.sent m (List.mem_append_right _ hm)) id
  | @receive threads b received m channel hchannel hleft =>
    refine ⟨hs.threads, ⟨hs.board.graph, hs.board.queue, hs.board.superseded, hs.board.flagged⟩,
      fun m' hm' => hs.sent m' (System.sent_receive hchannel ▸ hm')⟩

theorem Steps.sound (hsteps : Steps find s s') (hs : s.Sound A jobs I) :
    s'.Sound A jobs I := by
  induction hsteps with
  | refl => exact hs
  | tail _ hstep ih => exact hstep.sound hfind ih

end Answers

end InputSolver.Parallel
