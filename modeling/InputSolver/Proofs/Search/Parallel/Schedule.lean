/-
  InputSolver — workers that take turns in any order.

  The workers and the coordinator as a system that makes one small step after
  the other.  A worker takes a job, looks whether a better rank has a success,
  searches, lowers the best rank, sets flags one by one and sends a message,
  each in a step of its own; between any two of them others may make theirs.

  * `Searcher` is how workers search, `Turn` are the steps of one worker, and
    `Step` those of the system;
  * a run is complete (`System.Complete`) once the coordinator knows that every
    worker came to its end.

  A worker whose search faults makes no further step, so no run with it is
  complete.
-/
import Mathlib.Logic.Relation
import InputSolver.Proofs.Search.Parallel.Split
import InputSolver.Search.Parallel.Pool

namespace InputSolver.Parallel

/-! ## Searches -/

/-- How a worker searches with a job, in a session. -/
abbrev Searcher := Job → Session → GraphM (Except EvalError (Option Solution) × Session)

/-- The search for an expression with the digit of the job leading. -/
def Searcher.leading (config : SearchConfig) (e : Expr) : Searcher := fun job session =>
  session.searchFrom config e [job.digit]

/-- In graphs with a property `I`, which the searches keep, the search of each
    job comes to what `A` says: a solution, none, an error or a fault.  A search
    that reads its flag as set may find nothing instead. -/
def Searcher.Answers (find : Searcher) (A : Job → SearchEnd (Option Solution))
    (I : Graph → Prop) : Prop :=
  ∀ (job : Job) (session : Session) (g : Graph), I g → session.stop.Monotone →
    I ((find job session).run.run g).2 ∧ ∃ session',
      ((find job session).run.run g).1 = (A job).map (fun answer => (answer, session')) ∨
        ((find job session).run.run g).1 = .ok (.ok none, session') ∧ ∃ i, session.stop i = true

/-- On canonical graphs the searches for an expression come to what they find
    in one of these graphs. -/
theorem Searcher.leading_answers {config : SearchConfig} {e : Expr} {g : Graph} {h : Heap}
    (hg : g.Canonical h) (he : h.Holds e) (hmarked : e.Marked) :
    (leading config e).Answers
      (fun job => Backtrack.answerFor (config.query e (.constant false)) g job.digit)
      fun g' => ∃ k, h ≤ k ∧ g'.Canonical k := by
  rintro job session g' ⟨k, hle, hg'⟩ hstop
  obtain ⟨⟨m, hle', hm⟩, hended⟩ := Session.searchFrom_ends hg he hmarked hstop job.digit hle hg'
  exact ⟨⟨m, Heap.le_trans hle hle', hm⟩, hended⟩

/-! ## Workers -/

/-- Where a worker stands. -/
inductive Phase where
  /-- it asks for a job -/
  | idle
  /-- it has a job, which may be superseded -/
  | taken (job : Job)
  /-- it searches with the digit of its job -/
  | searching (job : Job)
  /-- it has a solution -/
  | found (job : Job) (solution : Solution)
  /-- it has lowered the best rank, and is to set the flags of some ranks -/
  | cancelling (job : Job) (solution : Solution) (ranks : List Nat)
  /-- it is to send what the job came to -/
  | reporting (job : Job) (answer : Except EvalError (Option Solution))
  /-- it found no more jobs, and said so -/
  | ended

namespace Phase

/-- Where a search leads: with a solution there are others to cancel. -/
def afterSearch (job : Job) : Except EvalError (Option Solution) → Phase
  | .ok (some solution) => found job solution
  | answer => reporting job answer

/-- The job of a worker that has one. -/
def job? : Phase → Option Job
  | taken job | searching job | found job _ | cancelling job _ _ | reporting job _ => some job
  | idle | ended => none

end Phase

/-- A worker and where it stands. -/
structure Thread where
  worker : Worker
  phase : Phase

/-- What the workers share: the jobs that wait, the best rank and the flags,
    the graph, and the messages on their way, the oldest first.  The jobs that
    were taken are kept for the record, in order. -/
structure Board where
  queue : JobQueue
  taken : List Job
  shared : SharedBest
  graph : Graph
  channel : List Message

/-- The message on what a job came to. -/
def Message.report (worker rank : Nat) : Except EvalError (Option Solution) → Message
  | .ok solution? => .finished worker rank solution?
  | .error error => .failed worker rank error

/-- The steps of one worker.  A search is one step, made where it ends.  If the
    flag of its rank is set by then, it may have been read as set from some
    reading on, or not at all. -/
inductive Turn (find : Searcher) : Thread → Board → Thread → Board → Prop where
  | take {w : Worker} {b : Board} {job : Job} {queue : JobQueue} :
      b.queue.take? = (some job, queue) →
      Turn find ⟨w, .idle⟩ b ⟨w, .taken job⟩ { b with queue, taken := b.taken ++ [job] }
  | skip {w : Worker} {b : Board} {job : Job} : b.shared.isSuperseded job.rank = true →
      Turn find ⟨w, .taken job⟩ b ⟨w, .reporting job (.ok none)⟩ b
  | begin {w : Worker} {b : Board} {job : Job} : b.shared.isSuperseded job.rank = false →
      Turn find ⟨w, .taken job⟩ b ⟨w, .searching job⟩ b
  | search {w : Worker} {b : Board} {job : Job} {stop : StopFlag} {session : Session}
      {answer : Except EvalError (Option Solution)} {graph : Graph} : stop.Monotone →
      (∀ i, stop i = true → b.shared.flag? job.rank = some true) →
      (find job { w.session with stop }).run.run b.graph = (.ok (answer, session), graph) →
      Turn find ⟨w, .searching job⟩ b ⟨{ w with session }, .afterSearch job answer⟩
        { b with graph }
  | lower {w : Worker} {b : Board} {job : Job} {solution : Solution} :
      Turn find ⟨w, .found job solution⟩ b
        ⟨w, .cancelling job solution
          (if job.rank < b.shared.best then b.shared.worseRanks job.rank else [])⟩
        { b with shared := b.shared.lowerTo job.rank }
  | cancel {w : Worker} {b : Board} {job : Job} {solution : Solution} {rank : Nat}
      {ranks : List Nat} :
      Turn find ⟨w, .cancelling job solution (rank :: ranks)⟩ b
        ⟨w, .cancelling job solution ranks⟩ { b with shared := b.shared.setFlag rank }
  | cancelled {w : Worker} {b : Board} {job : Job} {solution : Solution} :
      Turn find ⟨w, .cancelling job solution []⟩ b ⟨w, .reporting job (.ok (some solution))⟩ b
  | send {w : Worker} {b : Board} {job : Job} {answer : Except EvalError (Option Solution)} :
      Turn find ⟨w, .reporting job answer⟩ b ⟨w, .idle⟩
        { b with channel := b.channel ++ [.report w.id job.rank answer] }
  | retire {w : Worker} {b : Board} : b.queue.take? = (none, b.queue) →
      Turn find ⟨w, .idle⟩ b ⟨w, .ended⟩ { b with
        channel := b.channel ++ [.done w.id { w.session.statistics with interrupted := false }] }

/-! ## The system -/

/-- The workers, what they share, and the messages that the coordinator has
    taken in, in order. -/
structure System where
  threads : List Thread
  board : Board
  received : List Message

namespace System

/-- What the coordinator knows. -/
def coordinator (s : System) : Coordinator := s.received.foldl Coordinator.receive .start

/-- All messages that were sent, in order. -/
def sent (s : System) : List Message := s.received ++ s.board.channel

/-- A message that comes in was sent before. -/
theorem sent_receive {threads : List Thread} {b : Board} {received channel : List Message}
    {m : Message} (hchannel : b.channel = m :: channel) :
    (mk threads { b with channel } (received ++ [m])).sent = (mk threads b received).sent := by
  rw [sent, sent, hchannel, List.append_assoc]
  rfl

/-- The jobs are in the queue, the workers idle. -/
def start (direction : Direction) (count : WorkerCount) (g : Graph) : System :=
  let jobs := Job.ranked direction.digits
  ⟨(List.range (count.effective jobs.length)).map fun id => ⟨⟨id, .start⟩, .idle⟩,
    ⟨⟨jobs⟩, [], .new jobs.length, g, []⟩, []⟩

/-- The coordinator has heard of the end of each worker. -/
def Complete (s : System) : Prop := s.coordinator.done.length = s.threads.length

end System

/-- A worker makes a step, or the coordinator takes in the next message, until
    it has heard of the end of each worker. -/
inductive Step (find : Searcher) : System → System → Prop where
  | turn {t t' : Thread} {b b' : Board} {received : List Message} (before after : List Thread) :
      Turn find t b t' b' →
      Step find ⟨before ++ t :: after, b, received⟩ ⟨before ++ t' :: after, b', received⟩
  | receive {threads : List Thread} {b : Board} {received : List Message} {m : Message}
      {channel : List Message} : b.channel = m :: channel →
      (System.mk threads b received).coordinator.done.length < threads.length →
      Step find ⟨threads, b, received⟩ ⟨threads, { b with channel }, received ++ [m]⟩

/-- Any number of steps, in any order. -/
abbrev Steps (find : Searcher) : System → System → Prop := Relation.ReflTransGen (Step find)

end InputSolver.Parallel
