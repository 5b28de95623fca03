/-
  InputSolver — what several workers find together is a solution.

  * `Pool.sound_jobs`: jobs that are run one after the other keep the best
    answer of the coordinator a solution;
  * `search_ensures`: so the answer of the whole search is one.
-/
import InputSolver.Proofs.Search.Found
import InputSolver.Search.Parallel.Pool

namespace InputSolver.Parallel

open InputSolver.Expr GraphM

variable {config : SearchConfig} {e : Expr} {h : Heap}

/-- The best answer so far is a solution. -/
def Coordinator.Sound (config : SearchConfig) (e : Expr) (c : Coordinator) : Prop :=
  ∀ rank s, c.best? = some (rank, s) → config.Solves e s

namespace Coordinator

variable {c : Coordinator}

theorem sound_start : start.Sound config e := by
  intro rank s hs
  cases hs

/-- A solution may become the best answer. -/
theorem Sound.finished (hc : c.Sound config e) (worker rank : Nat) {solution? : Option Solution}
    (hs : ∀ s, solution? = some s → config.Solves e s) :
    (c.receive (.finished worker rank solution?)).Sound config e := by
  cases solution? with
  | none => exact hc
  | some s =>
    intro rank' s' hbest
    change better c.best? rank s = some (rank', s') at hbest
    unfold better at hbest
    split at hbest
    · rename_i old hold
      split at hbest
      · cases hbest
        exact hs s rfl
      · cases hbest
        exact hc _ _ hold
    · cases hbest
      exact hs s rfl

end Coordinator

namespace Pool

/-- A job keeps the best answer a solution, whether it is skipped, stopped or
    run to its end. -/
theorem sound_runJob (he : h.Holds e) {p : Pool} (hp : p.coordinator.Sound config e) {job : Job}
    (hjob : Digit.isDigit job.digit = true) :
    (runJob config e p job).coordinator.Sound config e := by
  unfold runJob
  cases p.workers with
  | nil => exact hp
  | cons worker others =>
    dsimp only
    split
    · exact hp.finished worker.id job.rank fun s hs => by cases hs
    · split
      · exact hp
      · rename_i answer session graph hrun
        cases answer with
        | error error => exact hp
        | ok solution? =>
          have hfound := Session.ask_ensures (Backtrack.searchFrom_ensures
            (q := config.query e _) he fun d hd => List.mem_singleton.1 hd ▸ hjob) hrun
          have hsolves (s : Solution) (hs : solution? = some s) : config.Solves e s :=
            (hfound s hs).of_leading rfl rfl
          cases solution? with
          | none => exact hp
          | some s => exact hp.finished worker.id job.rank hsolves

theorem sound_jobs (he : h.Holds e) {jobs : List Job}
    (hjobs : ∀ job ∈ jobs, Digit.isDigit job.digit = true) {p : Pool}
    (hp : p.coordinator.Sound config e) :
    (jobs.foldl (runJob config e) p).coordinator.Sound config e := by
  induction jobs generalizing p with
  | nil => exact hp
  | cons job jobs ih =>
    exact ih (fun x hx => hjobs x (List.mem_cons_of_mem _ hx))
      (sound_runJob he hp (hjobs job List.mem_cons_self))

/-- Counters are no answers. -/
theorem sound_finish {p : Pool} (hp : p.coordinator.Sound config e) :
    p.finish.Sound config e := by
  unfold finish
  generalize p.coordinator = c at hp
  induction p.workers generalizing c with
  | nil => exact hp
  | cons worker workers ih => exact ih _ hp

end Pool

/-- The digits of the jobs are those of the direction. -/
theorem isDigit_of_ranked (direction : Direction) {job : Job}
    (hjob : job ∈ Job.ranked direction.digits) : Digit.isDigit job.digit = true := by
  obtain ⟨rank, hrank, rfl⟩ := List.mem_mapIdx.1 hjob
  exact direction.mem_digits.1 (List.getElem_mem hrank)

/-- The answer is the best one. -/
theorem Coordinator.solution_of_outcome {c : Coordinator} {o : Outcome}
    (ho : c.outcome = .ok (.ok o)) : o.result.solution? = c.best?.map (·.2) := by
  unfold outcome at ho
  split at ho
  · cases ho
  · dsimp only at ho
    cases hmerge : c.done.reverse.foldlM (fun s w => s.merge w.2)
        (Statistics.zero .backtracking) with
    | error fault =>
      rw [hmerge] at ho
      cases ho
    | ok statistics =>
      rw [hmerge] at ho
      cases ho
      rfl

/-- What the workers find is a solution. -/
theorem solves_of_search (he : h.Holds e) {count : WorkerCount} {g g' : Graph} {o : Outcome}
    (ho : (search config e count).run.run g = (.ok (.ok o), g')) {s : Solution}
    (hs : o.result.solution? = some s) : config.Solves e s := by
  unfold search at ho
  split at ho
  · rw [run_bind] at ho
    cases hres : (runSearch (Backtrack.search (config.query e (.constant false)))).run.run g with
    | mk res graph =>
      rw [hres] at ho
      rcases res with _ | _ | r
      · cases ho
      · cases ho
      · cases ho
        exact runSearch_ensures (Backtrack.search_ensures (q := config.query e _) he) hres s hs
  · obtain ⟨p, hp, hout⟩ : ∃ p : Pool, p.coordinator = .start ∧
        (((Job.ranked config.direction.digits).foldl (Pool.runJob config e) p).finish).outcome =
          .ok (.ok o) := ⟨_, rfl, (Prod.ext_iff.1 ho).1⟩
    have hstart : p.coordinator.Sound config e := hp ▸ Coordinator.sound_start
    have hsound := Pool.sound_finish (Pool.sound_jobs he
      (fun _ => isDigit_of_ranked config.direction) hstart)
    rw [Coordinator.solution_of_outcome hout] at hs
    obtain ⟨best, hbest, rfl⟩ := Option.map_eq_some_iff.1 hs
    exact hsound best.1 best.2 hbest

end InputSolver.Parallel
