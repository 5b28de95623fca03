/-
  InputSolver — the coordinator's verdict.

  * `Coordinator.verdict` is what the coordinator makes of the messages: the
    solution or the error of the best rank (`outcome_eq_verdict`);
  * `System.Sound.verdict_of_leads`: once the leading job is told of, it is what
    that job comes to;
  * `System.Sound.verdict_eq_first`: at the end of a run it is what the first job in
    order comes to that does not find nothing.
-/
import InputSolver.Proofs.Search.Parallel.Accounts
import InputSolver.Proofs.Search.Parallel.Answers

namespace InputSolver

/-! ## Counters -/

namespace Statistics

/-- Counters of 64 bits. -/
def Fits (s : Statistics) : Prop :=
  s.visited < Word.countBound ∧ s.pruned < Word.countBound ∧ s.exactChecks < Word.countBound

instance (s : Statistics) : Decidable s.Fits := inferInstanceAs (Decidable (_ ∧ _ ∧ _))

/-- Counters with those of other searches added. -/
def addAll (s : Statistics) (ts : List Statistics) : Statistics :=
  { s with
    visited := s.visited + (ts.map visited).sum
    pruned := s.pruned + (ts.map pruned).sum
    exactChecks := s.exactChecks + (ts.map exactChecks).sum }

theorem addAll_cons (s t : Statistics) (ts : List Statistics) :
    s.addAll (t :: ts) = (s.addAll [t]).addAll ts := by
  simp only [addAll, List.map_cons, List.map_nil, List.sum_cons, List.sum_nil, Nat.add_assoc,
    Nat.zero_add]

theorem Fits.of_addAll {s : Statistics} {ts : List Statistics} (hs : (s.addAll ts).Fits) :
    s.Fits :=
  ⟨Nat.lt_of_le_of_lt (Nat.le_add_right ..) hs.1, Nat.lt_of_le_of_lt (Nat.le_add_right ..) hs.2.1,
    Nat.lt_of_le_of_lt (Nat.le_add_right ..) hs.2.2⟩

theorem merge_eq (s t : Statistics) :
    s.merge t = if (s.addAll [t]).Fits then .ok (s.addAll [t]) else .error .overflow := by
  simp only [merge, addCounter, addAll, Fits, List.map_cons, List.map_nil, List.sum_singleton]
  split_ifs <;> first | rfl | omega

/-- The counters of some searches are merged as far as they fit. -/
theorem foldlM_merge {s : Statistics} (hs : s.Fits) (ws : List (Nat × Statistics)) :
    ws.foldlM (fun s w => s.merge w.2) s =
      if (s.addAll (ws.map (·.2))).Fits then .ok (s.addAll (ws.map (·.2)))
      else .error .overflow := by
  induction ws generalizing s with
  | nil => exact (if_pos hs).symm
  | cons w ws ih =>
    rw [List.foldlM_cons, merge_eq, List.map_cons, addAll_cons s w.2 (ws.map _)]
    by_cases hw : (s.addAll [w.2]).Fits
    · rw [if_pos hw]
      exact ih hw
    · rw [if_neg hw, if_neg fun hall => hw hall.of_addAll]
      rfl

end Statistics

namespace Parallel

/-! ## What the coordinator keeps -/

namespace Message

/-- The solution that a message tells of, with the rank of the job. -/
def solution? : Message → Option (Nat × Solution)
  | finished _ rank (some solution) => some (rank, solution)
  | _ => none

/-- The error that a message tells of, with the rank of the job. -/
def error? : Message → Option (Nat × EvalError)
  | failed _ rank error => some (rank, error)
  | _ => none

end Message

/-- One of the items of the lowest rank, if there are any. -/
def IsBest {α : Type} (items : List (Nat × α)) : Option (Nat × α) → Prop
  | none => items = []
  | some a => a ∈ items ∧ ∀ b ∈ items, a.1 ≤ b.1

/-- An item is the best one if no other has a rank as low. -/
theorem IsBest.eq_some {α : Type} {items : List (Nat × α)} {best? : Option (Nat × α)}
    (hbest : IsBest items best?) {a : Nat × α} (ha : a ∈ items)
    (hleast : ∀ b ∈ items, b = a ∨ a.1 < b.1) : best? = some a := by
  cases best? with
  | none =>
    rw [show items = [] from hbest] at ha
    cases ha
  | some b =>
    obtain ⟨hb, hle⟩ := hbest
    rcases hleast b hb with rfl | hlt
    · rfl
    · exact absurd (hle a ha) (Nat.not_le_of_lt hlt)

/-- No item is the best one if there is none. -/
theorem IsBest.eq_none {α : Type} {items : List (Nat × α)} {best? : Option (Nat × α)}
    (hbest : IsBest items best?) (hnone : ∀ b, b ∉ items) : best? = none := by
  cases best? with
  | none => rfl
  | some b => exact absurd hbest.1 (hnone b)

namespace Coordinator

theorem isBest_better {α : Type} {items : List (Nat × α)} {old? : Option (Nat × α)}
    (hold : IsBest items old?) (a : Nat × α) :
    IsBest (items ++ [a]) (better old? a.1 a.2) := by
  cases old? with
  | none =>
    rw [show items = [] from hold]
    exact ⟨List.mem_singleton_self a, fun b hb => List.mem_singleton.1 hb ▸ Nat.le_refl _⟩
  | some old =>
    obtain ⟨hmem, hbest⟩ := hold
    unfold better
    dsimp only
    split
    · rename_i hlt
      refine ⟨List.mem_append_right _ (List.mem_singleton_self a), fun b hb => ?_⟩
      rcases List.mem_append.1 hb with hb | hb
      · exact Nat.le_trans (Nat.le_of_lt hlt) (hbest b hb)
      · exact List.mem_singleton.1 hb ▸ Nat.le_refl _
    · rename_i hle
      refine ⟨List.mem_append_left _ hmem, fun b hb => ?_⟩
      rcases List.mem_append.1 hb with hb | hb
      · exact hbest b hb
      · rw [List.mem_singleton.1 hb]
        exact Nat.le_of_not_lt hle

/-- Of all messages the best solution and the best error are kept. -/
theorem isBest_foldl (ms : List Message) :
    IsBest (ms.filterMap Message.solution?) (ms.foldl receive start).best? ∧
      IsBest (ms.filterMap Message.error?) (ms.foldl receive start).error? := by
  induction ms using List.reverseRecOn with
  | nil => exact ⟨rfl, rfl⟩
  | append_singleton ms m ih =>
    obtain ⟨hbest, herror⟩ := ih
    rw [List.foldl_append, List.filterMap_append, List.filterMap_append]
    rcases m with ⟨w, rank, _ | solution⟩ | ⟨w, rank, error⟩ | ⟨w, statistics⟩
    · exact ⟨(List.append_nil _).symm ▸ hbest, (List.append_nil _).symm ▸ herror⟩
    · exact ⟨isBest_better hbest (rank, solution), (List.append_nil _).symm ▸ herror⟩
    · exact ⟨(List.append_nil _).symm ▸ hbest, isBest_better herror (rank, error)⟩
    · exact ⟨(List.append_nil _).symm ▸ hbest, (List.append_nil _).symm ▸ herror⟩

/-- The solution or the error of the best rank. -/
def verdict (c : Coordinator) : Except EvalError (Option Solution) :=
  match c.leadingError? with
  | some error => .error error
  | none => .ok (c.best?.map (·.2))

/-- The rank of the verdict, unless nothing was found. -/
def rank? (c : Coordinator) : Option Nat :=
  match c.leadingError? with
  | some _ => c.error?.map (·.1)
  | none => c.best?.map (·.1)

/-- The counters of all workers together. -/
def total (c : Coordinator) : Statistics :=
  (Statistics.zero .backtracking).addAll (c.done.reverse.map (·.2))

/-- The outcome is the verdict.  The counters added up may have more than 64
    bits, which is a fault. -/
theorem outcome_eq_verdict (c : Coordinator) :
    c.outcome = match c.verdict with
      | .error error => .ok (.error error)
      | .ok solution? =>
        if c.total.Fits then .ok (.ok ⟨⟨solution?, c.total⟩, c.done.reverse⟩)
        else .error .overflow := by
  have hmerge : c.done.reverse.foldlM (fun s w => s.merge w.2) (Statistics.zero .backtracking) =
      if c.total.Fits then .ok c.total else .error .overflow :=
    Statistics.foldlM_merge (by decide) _
  unfold outcome verdict
  cases c.leadingError? with
  | some error => rfl
  | none =>
    dsimp only
    rw [hmerge]
    split <;> rfl

end Coordinator

/-! ## What messages tell -/

variable {A : Job → SearchEnd (Option Solution)} {jobs : List Job} {I : Graph → Prop}
  {s : System}

/-- A solution that is told of is one. -/
theorem Message.Sound.solution {m : Message} (hm : m.Sound A jobs) {rank : Nat}
    {solution : Solution} (hsolution : m.solution? = some (rank, solution)) :
    ∃ job ∈ jobs, job.rank = rank ∧ A job = .ok (.ok (some solution)) := by
  rcases m with ⟨w, r, _ | s⟩ | ⟨w, r, e⟩ | ⟨w, st⟩
  · cases hsolution
  · cases hsolution
    obtain ⟨job, hrank, hjob, hA | ⟨hnone, -⟩⟩ := hm
    · exact ⟨job, hjob, hrank, hA⟩
    · cases hnone
  · cases hsolution
  · cases hsolution

/-- So is an error. -/
theorem Message.Sound.error {m : Message} (hm : m.Sound A jobs) {rank : Nat}
    {error : EvalError} (herror : m.error? = some (rank, error)) :
    ∃ job ∈ jobs, job.rank = rank ∧ A job = .ok (.error error) := by
  rcases m with ⟨w, r, s?⟩ | ⟨w, r, e⟩ | ⟨w, st⟩
  · cases herror
  · cases herror
    obtain ⟨job, hrank, hjob, hA | ⟨hnone, -⟩⟩ := hm
    · exact ⟨job, hjob, hrank, hA⟩
    · cases hnone
  · cases herror

/-- What is told of a job that is not beaten is what it comes to. -/
theorem Message.Sound.told {m : Message} (hm : m.Sound A jobs) {rank : Nat}
    (hrank : m.rank? = some rank) (hbeaten : ¬ Beaten A jobs rank) :
    ∃ job ∈ jobs, job.rank = rank ∧ (A job = .ok (.ok none) ∨
      (∃ solution, A job = .ok (.ok (some solution)) ∧ m.solution? = some (rank, solution)) ∨
      ∃ error, A job = .ok (.error error) ∧ m.error? = some (rank, error)) := by
  rcases m with ⟨w, r, s?⟩ | ⟨w, r, e⟩ | ⟨w, st⟩
  · cases hrank
    obtain ⟨job, rfl, hjob, hA | ⟨-, hb⟩⟩ := hm
    · cases s? with
      | none => exact ⟨job, hjob, rfl, .inl hA⟩
      | some solution => exact ⟨job, hjob, rfl, .inr (.inl ⟨solution, hA, rfl⟩)⟩
    · exact (hbeaten hb).elim
  · cases hrank
    obtain ⟨job, rfl, hjob, hA | ⟨-, hb⟩⟩ := hm
    · exact ⟨job, hjob, rfl, .inr (.inr ⟨e, hA, rfl⟩)⟩
    · exact (hbeaten hb).elim
  · cases hrank

/-! ## The leading job -/

/-- A job that comes before all others that do not find nothing. -/
structure Leads (A : Job → SearchEnd (Option Solution)) (jobs : List Job) (t : Job) : Prop where
  mem : t ∈ jobs
  least : ∀ job ∈ jobs, A job ≠ .ok (.ok none) → job = t ∨ t.rank < job.rank

/-- Either no job finds anything, or one leads, and the first end is its end. -/
theorem first_cases (hsorted : jobs.Pairwise fun job job' => job.rank < job'.rank) :
    (∀ job ∈ jobs, A job = .ok (.ok none)) ∧ SearchEnd.first (jobs.map A) = .ok (.ok none) ∨
      ∃ t, Leads A jobs t ∧ A t ≠ .ok (.ok none) ∧ SearchEnd.first (jobs.map A) = A t := by
  obtain hnone | ⟨before, t, after, rfl, hbefore, ht, hfirst⟩ := SearchEnd.first_cases A jobs
  · exact .inl hnone
  · refine .inr ⟨t, ⟨List.mem_append_right _ List.mem_cons_self, fun job hjob hA => ?_⟩, ht, hfirst⟩
    rcases List.mem_append.1 hjob with hmem | hmem
    · exact (hA (hbefore job hmem)).elim
    · rcases List.mem_cons.1 hmem with rfl | hmem
      · exact .inl rfl
      · exact .inr (List.rel_of_pairwise_cons (List.pairwise_append.1 hsorted).2.1 hmem)

namespace Leads

variable {t : Job} (ht : Leads A jobs t)
include ht

theorem not_beaten : ¬ Beaten A jobs t.rank := by
  rintro ⟨job, hjob, hlt, solution, hA⟩
  obtain rfl | hlt' := ht.least job hjob (by rw [hA]; nofun)
  · exact Nat.lt_irrefl _ hlt
  · exact Nat.lt_asymm hlt hlt'

variable {α : Type} {f : α → Except EvalError (Option Solution)} {items : List (Nat × α)}
  (hitems : ∀ b ∈ items, ∃ job ∈ jobs, job.rank = b.1 ∧ A job = .ok (f b.2))
  (hf : ∀ a, f a ≠ .ok none)
include hitems hf

/-- What is told of a job is told of the leading one, or of one after it. -/
theorem told {b : Nat × α} (hb : b ∈ items) :
    b.1 = t.rank ∧ A t = .ok (f b.2) ∨ t.rank < b.1 := by
  obtain ⟨job, hjob, hrank, hA⟩ := hitems b hb
  obtain rfl | hlt := ht.least job hjob fun hnone => hf b.2 (by
    rw [hA] at hnone
    exact Except.ok.inj hnone)
  · exact .inl ⟨hrank.symm, hA⟩
  · exact .inr (hrank ▸ hlt)

/-- So what the leading job comes to is the best of its kind. -/
theorem best (hinj : f.Injective) {best? : Option (Nat × α)} (hbest : IsBest items best?) {a : α}
    (hA : A t = .ok (f a)) (hmem : (t.rank, a) ∈ items) : best? = some (t.rank, a) := by
  refine hbest.eq_some hmem fun b hb => ?_
  obtain ⟨hrank, hA'⟩ | hlt := ht.told hitems hf hb
  · rw [hA] at hA'
    exact .inl (Prod.ext hrank (hinj (Except.ok.inj hA')).symm)
  · exact .inr hlt

/-- What is of another kind comes later. -/
theorem lt_of_best {best? : Option (Nat × α)} (hbest : IsBest items best?)
    (hA : ∀ a, A t ≠ .ok (f a)) {b : Nat × α} (hb : best? = some b) : t.rank < b.1 := by
  subst hb
  obtain ⟨-, hA'⟩ | hlt := ht.told hitems hf hbest.1
  · exact (hA b.2 hA').elim
  · exact hlt

end Leads

/-! ## The verdict -/

namespace Coordinator

/-- The best of some solutions and the best of some errors are kept, all of
    which some job comes to. -/
structure Keeps (A : Job → SearchEnd (Option Solution)) (jobs : List Job)
    (solutions : List (Nat × Solution)) (errors : List (Nat × EvalError)) (c : Coordinator) :
    Prop where
  best : IsBest solutions c.best?
  error : IsBest errors c.error?
  solution_of : ∀ b ∈ solutions, ∃ job ∈ jobs, job.rank = b.1 ∧ A job = .ok (.ok (some b.2))
  error_of : ∀ b ∈ errors, ∃ job ∈ jobs, job.rank = b.1 ∧ A job = .ok (.error b.2)

namespace Keeps

variable {solutions : List (Nat × Solution)} {errors : List (Nat × EvalError)} {c : Coordinator}
  (hc : c.Keeps A jobs solutions errors)
include hc

/-- Where every job finds nothing, nothing is kept. -/
theorem verdict_of_none (hnone : ∀ job ∈ jobs, A job = .ok (.ok none)) :
    c.verdict = .ok none ∧ c.rank? = none := by
  have hbest : c.best? = none := hc.best.eq_none fun b hb => by
    obtain ⟨job, hjob, -, hA⟩ := hc.solution_of b hb
    cases (hnone job hjob).symm.trans hA
  have herror : c.error? = none := hc.error.eq_none fun b hb => by
    obtain ⟨job, hjob, -, hA⟩ := hc.error_of b hb
    cases (hnone job hjob).symm.trans hA
  rw [verdict, rank?, leadingError?, herror, hbest]
  exact ⟨rfl, rfl⟩

variable {t : Job} (ht : Leads A jobs t)
include ht

/-- The solution of the leading job comes before every error. -/
theorem verdict_of_solution {solution : Solution} (hA : A t = .ok (.ok (some solution)))
    (hmem : (t.rank, solution) ∈ solutions) :
    c.verdict = .ok (some solution) ∧ c.rank? = some t.rank := by
  have hbest := ht.best hc.solution_of nofun (fun _ _ h => Option.some.inj (Except.ok.inj h))
    hc.best hA hmem
  have hother (error : EvalError) : A t ≠ .ok (.error error) := by
    rw [hA]
    nofun
  rw [verdict, rank?, leadingError?, hbest]
  cases hb : c.error? with
  | none => exact ⟨rfl, rfl⟩
  | some b =>
    have hlt := ht.lt_of_best hc.error_of nofun hc.error hother hb
    dsimp only
    rw [if_neg (Nat.not_lt_of_lt hlt)]
    exact ⟨rfl, rfl⟩

/-- The error of the leading job comes before every solution. -/
theorem verdict_of_error {error : EvalError} (hA : A t = .ok (.error error))
    (hmem : (t.rank, error) ∈ errors) : c.verdict = .error error ∧ c.rank? = some t.rank := by
  have herror := ht.best hc.error_of nofun (fun _ _ h => Except.error.inj h) hc.error hA hmem
  have hother (solution : Solution) : A t ≠ .ok (.ok (some solution)) := by
    rw [hA]
    nofun
  rw [verdict, rank?, leadingError?, herror]
  cases hb : c.best? with
  | none => exact ⟨rfl, rfl⟩
  | some b =>
    have hlt := ht.lt_of_best (f := fun a => .ok (some a)) hc.solution_of nofun hc.best hother hb
    dsimp only
    rw [if_pos hlt]
    exact ⟨rfl, rfl⟩

/-- If the leading job faults, the verdict is one of a worse rank. -/
theorem rank_of_fault {fault : Fault} (hA : A t = .error fault) {rank : Nat}
    (hrank : c.rank? = some rank) : t.rank < rank := by
  rw [rank?] at hrank
  split at hrank
  · obtain ⟨b, hb, rfl⟩ := Option.map_eq_some_iff.1 hrank
    exact ht.lt_of_best hc.error_of nofun hc.error (fun a => by rw [hA]; nofun) hb
  · obtain ⟨b, hb, rfl⟩ := Option.map_eq_some_iff.1 hrank
    exact ht.lt_of_best (f := fun a => .ok (some a)) hc.solution_of nofun hc.best
      (fun a => by rw [hA]; nofun) hb

end Keeps

end Coordinator

/-- Of what the messages tell, the coordinator keeps the best. -/
theorem System.Sound.keeps (hs : s.Sound A jobs I) :
    s.coordinator.Keeps A jobs (s.received.filterMap Message.solution?)
      (s.received.filterMap Message.error?) := by
  obtain ⟨hbest, herror⟩ := Coordinator.isBest_foldl s.received
  refine ⟨hbest, herror, fun b hb => ?_, fun b hb => ?_⟩
  · obtain ⟨m, hm, hsolution⟩ := List.mem_filterMap.1 hb
    exact (hs.sent m (List.mem_append_left _ hm)).solution hsolution
  · obtain ⟨m, hm, herror⟩ := List.mem_filterMap.1 hb
    exact (hs.sent m (List.mem_append_left _ hm)).error herror

/-- Jobs are known by their ranks. -/
theorem eq_of_rank_eq (hsorted : jobs.Pairwise fun job job' => job.rank < job'.rank)
    {job job' : Job} (hjob : job ∈ jobs) (hjob' : job' ∈ jobs) (hrank : job.rank = job'.rank) :
    job = job' := by
  have hnodup : (jobs.map Job.rank).Nodup :=
    List.pairwise_map.2 (hsorted.imp fun hlt => Nat.ne_of_lt hlt)
  exact List.inj_on_of_nodup_map hnodup hjob hjob' hrank

/-- What a message tells of the leading job is what it comes to, and that is
    the verdict. -/
theorem System.Sound.verdict_of_leads (hs : s.Sound A jobs I)
    (hsorted : jobs.Pairwise fun job job' => job.rank < job'.rank) {t : Job}
    (ht : Leads A jobs t) (hA : A t ≠ .ok (.ok none))
    (htold : t.rank ∈ s.received.filterMap Message.rank?) :
    A t = .ok s.coordinator.verdict ∧ s.coordinator.rank? = some t.rank := by
  obtain ⟨m, hm, hrank⟩ := List.mem_filterMap.1 htold
  -- no job is better than the leading one, so it was not stopped
  obtain ⟨job, hjob, hjobrank, htold⟩ :=
    (hs.sent m (List.mem_append_left _ hm)).told hrank ht.not_beaten
  obtain rfl := eq_of_rank_eq hsorted hjob ht.mem hjobrank
  rcases htold with hnone | ⟨solution, hsolution, htold⟩ | ⟨error, herror, htold⟩
  · exact (hA hnone).elim
  · obtain ⟨hverdict, hrank⟩ :=
      hs.keeps.verdict_of_solution ht hsolution (List.mem_filterMap.2 ⟨m, hm, htold⟩)
    exact ⟨hverdict ▸ hsolution, hrank⟩
  · obtain ⟨hverdict, hrank⟩ :=
      hs.keeps.verdict_of_error ht herror (List.mem_filterMap.2 ⟨m, hm, htold⟩)
    exact ⟨hverdict ▸ herror, hrank⟩

/-- When a message has come in about each job, the verdict is what the first
    job in order comes to that does not find nothing. -/
theorem System.Sound.verdict_eq_first (hs : s.Sound A jobs I)
    (hsorted : jobs.Pairwise fun job job' => job.rank < job'.rank)
    (hranks : (s.received.filterMap Message.rank?).Perm (jobs.map Job.rank)) :
    SearchEnd.first (jobs.map A) = .ok s.coordinator.verdict := by
  obtain ⟨hnone, hfirst⟩ | ⟨t, ht, hA, hfirst⟩ := first_cases (A := A) hsorted
  · rw [hfirst, (hs.keeps.verdict_of_none hnone).1]
  · rw [hfirst]
    exact (hs.verdict_of_leads hsorted ht hA
      (hranks.mem_iff.2 (List.mem_map.2 ⟨t, ht.mem, rfl⟩))).1

end Parallel

end InputSolver
