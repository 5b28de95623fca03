/-
  InputSolver — a search that is asked to stop.

  A stop flag is `Monotone` if it stays set.  With such a flag a search does
  what it does without one, up to where it reads that the flag is set; from
  there on it finds nothing.

  * `searchFrom_cancels`: a search with leading digits runs as if it were not
    asked to stop, if the flag is clear whenever that run reads it; otherwise
    it is marked as interrupted and finds nothing;
  * `searchFrom_interrupted`: so one of the two happens;
  * `searchFrom_cancelled`: in a session the number of readings decides which.
-/
import InputSolver.Proofs.Search.Memory
import InputSolver.Proofs.Search.Pruning
import InputSolver.Search.Run

namespace InputSolver

namespace StopFlag

/-- A flag that stays set. -/
def Monotone (stop : StopFlag) : Prop := ∀ i j, i ≤ j → stop i = true → stop j = true

theorem monotone_constant (b : Bool) : (constant b).Monotone := fun _ _ _ h => h

/-- The readings from the one at `i` to the last one before `j` find the flag
    clear. -/
def Clear (stop : StopFlag) (i j : Nat) : Prop := ∀ n, i ≤ n → n < j → stop n = false

variable {stop : StopFlag} {i j k : Nat}

theorem clear_self (stop : StopFlag) (i : Nat) : stop.Clear i i := by
  intro n hi hn
  omega

theorem clear_split (hij : i ≤ j) (hjk : j ≤ k) :
    stop.Clear i k ↔ stop.Clear i j ∧ stop.Clear j k := by
  constructor
  · intro h
    exact ⟨fun n hi hj => h n hi (by omega), fun n hj hk => h n (by omega) hk⟩
  · rintro ⟨hleft, hright⟩ n hi hk
    by_cases hj : n < j
    · exact hleft n hi hj
    · exact hright n (by omega) hk

theorem clear_succ : stop.Clear i (i + 1) ↔ stop i = false := by
  constructor
  · intro h
    exact h i (Nat.le_refl i) (Nat.lt_succ_self i)
  · intro h n hi hn
    obtain rfl : n = i := by omega
    exact h

end StopFlag

namespace SearchM

variable {α β : Type}

/-- The flag was read and found set, which is marked. -/
structure Stopped (stop : StopFlag) (p : Progress) : Prop where
  read : ∃ i < p.readings, stop i = true
  marked : p.statistics.interrupted = true

/-- The first computation runs as the second one does, or it was stopped and
    finds nothing. -/
def Interrupts (stop : StopFlag) (x y : SearchM (Option α)) (p : Progress) : Prop :=
  x.run.run.run p = y.run.run.run p ∨ ∃ p', x.Runs p none p' ∧ Stopped stop p'

/-! ## Computations that do not ask -/

/-- A computation that neither reads the flag nor marks the search. -/
def Quiet (x : SearchM α) : Prop :=
  ∀ p, (x.run.run.run p).2.readings = p.readings ∧
    (x.run.run.run p).2.statistics.interrupted = p.statistics.interrupted

theorem quiet_pure (a : α) : (pure a : SearchM α).Quiet := fun _ => ⟨rfl, rfl⟩

theorem quiet_throw (e : EvalError) : (throw e : SearchM α).Quiet := fun _ => ⟨rfl, rfl⟩

theorem quiet_faulty (x : Except Fault α) : (faulty x).Quiet := by
  intro p
  cases x <;> exact ⟨rfl, rfl⟩

theorem quiet_count {f : Statistics → Statistics} (hf : ∀ s, (f s).interrupted = s.interrupted) :
    (count f).Quiet := fun p => ⟨rfl, hf p.statistics⟩

theorem quiet_countVisit : countVisit.Quiet := quiet_count fun _ => rfl

theorem quiet_countPruned : countPruned.Quiet := quiet_count fun _ => rfl

theorem quiet_countCheck : countCheck.Quiet := quiet_count fun _ => rfl

theorem quiet_onGraph (x : GraphM α) : (onGraph x).Quiet := by
  intro p
  rw [run_onGraph]
  exact ⟨rfl, rfl⟩

theorem Quiet.bind {x : SearchM α} {f : α → SearchM β} (hx : x.Quiet) (hf : ∀ a, (f a).Quiet) :
    (x >>= f).Quiet := by
  intro p
  obtain ⟨hreadings, hmark⟩ := hx p
  rw [run_bind]
  rcases hrun : x.run.run.run p with ⟨_ | _ | a, p₁⟩ <;> rw [hrun] at hreadings hmark
  · exact ⟨hreadings, hmark⟩
  · exact ⟨hreadings, hmark⟩
  · obtain ⟨hreadings', hmark'⟩ := hf a p₁
    exact ⟨hreadings'.trans hreadings, hmark'.trans hmark⟩

/-! ## Computations that may be stopped -/

/-- The second computation, which never marks the search, decides whether the
    first one is stopped: the flag must be clear whenever the second one reads
    it. -/
structure Cancels (stop : StopFlag) (x y : SearchM (Option α)) (p : Progress) : Prop where
  readings_le : p.readings ≤ (y.run.run.run p).2.readings
  unmarked : (y.run.run.run p).2.statistics.interrupted = p.statistics.interrupted
  clear : stop.Clear p.readings (y.run.run.run p).2.readings → x.run.run.run p = y.run.run.run p
  stopped : ¬ stop.Clear p.readings (y.run.run.run p).2.readings →
    ∃ p', x.Runs p none p' ∧ Stopped stop p'

variable {stop : StopFlag} {x y : SearchM (Option α)} {p : Progress}

theorem Cancels.interrupts (h : Cancels stop x y p) : Interrupts stop x y p := by
  by_cases hclear : stop.Clear p.readings (y.run.run.run p).2.readings
  · exact .inl (h.clear hclear)
  · exact .inr (h.stopped hclear)

/-- Computations that run alike and do not ask are not stopped. -/
theorem cancels_of_run_eq (hxy : x.run.run.run p = y.run.run.run p)
    (hreadings : (y.run.run.run p).2.readings = p.readings)
    (hmark : (y.run.run.run p).2.statistics.interrupted = p.statistics.interrupted) :
    Cancels stop x y p where
  readings_le := Nat.le_of_eq hreadings.symm
  unmarked := hmark
  clear _ := hxy
  stopped h := by
    rw [hreadings] at h
    exact (h (stop.clear_self _)).elim

theorem Quiet.cancels (hx : x.Quiet) (p : Progress) : Cancels stop x x p :=
  cancels_of_run_eq rfl (hx p).1 (hx p).2

/-- Computations that go on from another point, reached without asking. -/
theorem Cancels.of_run_eq {x' y' : SearchM (Option α)} {p' : Progress}
    (h : Cancels stop x' y' p') (hx : x.run.run.run p = x'.run.run.run p')
    (hy : y.run.run.run p = y'.run.run.run p') (hreadings : p'.readings = p.readings)
    (hmark : p'.statistics.interrupted = p.statistics.interrupted) : Cancels stop x y p := by
  obtain ⟨hle, hunmarked, hclear, hstopped⟩ := h
  rw [hreadings, ← hy] at hle hclear hstopped
  rw [hmark, ← hy] at hunmarked
  refine ⟨hle, hunmarked, fun hc => hx.trans (hclear hc), fun hc => ?_⟩
  obtain ⟨p'', hrun, hp''⟩ := hstopped hc
  exact ⟨p'', hx.trans hrun, hp''⟩

/-- What comes after a computation that does not ask. -/
theorem Cancels.after {x : SearchM β} {f g : β → SearchM (Option α)} (hx : x.Quiet)
    (hfg : ∀ b p', Cancels stop (f b) (g b) p') : Cancels stop (x >>= f) (x >>= g) p := by
  obtain ⟨hreadings, hmark⟩ := hx p
  have hf := run_bind x f p
  have hg := run_bind x g p
  rcases hrun : x.run.run.run p with ⟨_ | _ | b, p₁⟩ <;> rw [hrun] at hreadings hmark hf hg
  · exact cancels_of_run_eq (hf.trans hg.symm) (hg ▸ hreadings) (hg ▸ hmark)
  · exact cancels_of_run_eq (hf.trans hg.symm) (hg ▸ hreadings) (hg ▸ hmark)
  · exact (hfg b p₁).of_run_eq hf hg hreadings hmark

/-- What comes after the flag is read, if it stops the computation where it is
    set. -/
theorem Cancels.read {f g : Bool → SearchM (Option α)}
    (hset : stop p.readings = true → ∃ p', (readFlag stop >>= f).Runs p none p' ∧ Stopped stop p')
    (hfg : Cancels stop (f false) (g false) { p with readings := p.readings + 1 }) :
    Cancels stop (readFlag stop >>= f) (readFlag (.constant false) >>= g) p := by
  obtain ⟨hle, hunmarked, hclear, hstopped⟩ := hfg
  have hy : (readFlag (.constant false) >>= g).run.run.run p =
      (g false).run.run.run { p with readings := p.readings + 1 } := rfl
  have hx (hread : stop p.readings = false) : (readFlag stop >>= f).run.run.run p =
      (f false).run.run.run { p with readings := p.readings + 1 } := by
    rw [← hread]
    rfl
  have hsplit := stop.clear_split (Nat.le_succ p.readings) hle
  refine ⟨?_, ?_, fun hc => ?_, fun hc => ?_⟩
  · rw [hy]
    exact Nat.le_trans (Nat.le_succ _) hle
  · rw [hy]
    exact hunmarked
  · rw [hy] at hc ⊢
    obtain ⟨hread, hrest⟩ := hsplit.1 hc
    rw [hx (StopFlag.clear_succ.1 hread)]
    exact hclear hrest
  · rw [hy] at hc
    cases hread : stop p.readings with
    | true => exact hset hread
    | false =>
      obtain ⟨p', hrun, hp'⟩ := hstopped fun hrest =>
        hc (hsplit.2 ⟨StopFlag.clear_succ.2 hread, hrest⟩)
      exact ⟨p', (hx hread).trans hrun, hp'⟩

/-- Computations that ask no further and end where these end. -/
theorem Cancels.ended {z z' : SearchM (Option β)} (hxy : Cancels stop x y p)
    (hend : (z'.run.run.run p).2 = (y.run.run.run p).2)
    (hsame : x.run.run.run p = y.run.run.run p → z.run.run.run p = z'.run.run.run p)
    (hstopped : ∀ p', x.Runs p none p' → Stopped stop p' →
      ∃ p'', z.Runs p none p'' ∧ Stopped stop p'') :
    Cancels stop z z' p := by
  obtain ⟨hle, hunmarked, hclear, hstop⟩ := hxy
  rw [← hend] at hle hunmarked hclear hstop
  refine ⟨hle, hunmarked, fun hc => hsame (hclear hc), fun hc => ?_⟩
  obtain ⟨p', hrun, hp'⟩ := hstop hc
  exact hstopped p' hrun hp'

/-- What comes after a search that may be stopped, if nothing is found after a
    stop. -/
theorem Cancels.bind {f g : Option α → SearchM (Option β)} (hxy : Cancels stop x y p)
    (hfg : ∀ r p', Cancels stop (f r) (g r) p')
    (hstopped : ∀ p', Stopped stop p' → ∃ p'', (f none).Runs p' none p'' ∧ Stopped stop p'') :
    Cancels stop (x >>= f) (y >>= g) p := by
  have hf := run_bind x f p
  have hg := run_bind y g p
  have hafter (p' : Progress) (hrun : x.Runs p none p') (hp' : Stopped stop p') :
      ∃ p'', (x >>= f).Runs p none p'' ∧ Stopped stop p'' := by
    obtain ⟨p'', hrun', hp''⟩ := hstopped p' hp'
    exact ⟨p'', hrun.bind hrun', hp''⟩
  rcases hrun : y.run.run.run p with ⟨_ | _ | r, p₁⟩
  · rw [hrun] at hg
    refine hxy.ended (by rw [hg, hrun]) (fun hsame => ?_) hafter
    rw [hf, hg, hsame, hrun]
  · rw [hrun] at hg
    refine hxy.ended (by rw [hg, hrun]) (fun hsame => ?_) hafter
    rw [hf, hg, hsame, hrun]
  · obtain ⟨hle, hunmarked, hclear, hstop⟩ := hxy
    obtain ⟨hle', hunmarked', hclear', hstop'⟩ := hfg r p₁
    rw [hrun] at hg hle hunmarked hclear hstop
    have hsplit := stop.clear_split hle hle'
    refine ⟨?_, ?_, fun hc => ?_, fun hc => ?_⟩
    · rw [hg]
      exact Nat.le_trans hle hle'
    · rw [hg]
      exact hunmarked'.trans hunmarked
    · rw [hg] at hc ⊢
      obtain ⟨hbefore, hrest⟩ := hsplit.1 hc
      rw [hclear hbefore] at hf
      exact hf.trans (hclear' hrest)
    · rw [hg] at hc
      by_cases hbefore : stop.Clear p.readings p₁.readings
      · obtain ⟨p', hrun', hp'⟩ := hstop' fun hrest => hc (hsplit.2 ⟨hbefore, hrest⟩)
        rw [hclear hbefore] at hf
        exact ⟨p', hf.trans hrun', hp'⟩
      · obtain ⟨p', hrun', hp'⟩ := hstop hbefore
        exact hafter p' hrun' hp'

end SearchM

open SearchM

namespace Backtrack

variable {q : Query}

/-- The question without a request to stop. -/
def Query.unstopped (q : Query) : Query := { q with stop := .constant false }

/-! ## The descent -/

theorem exactCheck_quiet (q : Query) (a : Assignment) : (exactCheck q a).Quiet := by
  refine quiet_countCheck.bind fun _ => ?_
  split
  · split
    · exact quiet_pure _
    · exact quiet_pure _
  · exact quiet_pure _
  · exact quiet_throw _

theorem narrowed?_quiet (q : Query) (current : Expr) (a : Assignment) :
    (narrowed? q current a).Quiet := by
  refine quiet_countVisit.bind fun _ => ?_
  refine (quiet_onGraph _).bind fun s => (quiet_faulty _).bind fun r => ?_
  split
  · exact quiet_pure _
  · exact quiet_countPruned.bind fun _ => quiet_pure _

/-- Where the flag is read as set, the search is marked and finds nothing. -/
theorem tryDigits_of_set {below : Expr → Assignment → SearchM (Option Assignment)} {i : Nat}
    {current : Expr} {a : Assignment} {d : Word} {digits : List Word} {p : Progress}
    (hset : q.stop p.readings = true) :
    ∃ p', (tryDigits q below i current a (d :: digits)).Runs p none p' ∧ Stopped q.stop p' := by
  have hread : (readFlag q.stop).Runs p true { p with readings := p.readings + 1 } := by
    rw [← hset]
    rfl
  refine ⟨_, hread.bind ((runs_count _ _).bind (runs_pure none _)), ?_⟩
  exact ⟨⟨p.readings, Nat.lt_succ_self _, hset⟩, rfl⟩

/-- After a stop no more digits are tried. -/
theorem tryDigits_of_stopped (hstop : q.stop.Monotone)
    {below : Expr → Assignment → SearchM (Option Assignment)} {i : Nat} {current : Expr}
    {a : Assignment} {digits : List Word} {p : Progress} (hp : Stopped q.stop p) :
    ∃ p', (tryDigits q below i current a digits).Runs p none p' ∧ Stopped q.stop p' := by
  cases digits with
  | nil => exact ⟨p, runs_pure none p, hp⟩
  | cons d digits =>
    obtain ⟨j, hj, hset⟩ := hp.read
    exact tryDigits_of_set (hstop j _ (Nat.le_of_lt hj) hset)

/-- The digits for one input are tried in turn, until the search is stopped. -/
theorem tryDigits_cancels (hstop : q.stop.Monotone)
    {below below' : Expr → Assignment → SearchM (Option Assignment)}
    (hbelow : ∀ s a p, Cancels q.stop (below s a) (below' s a) p) {i : Nat} {current : Expr}
    {a : Assignment} {digits : List Word} {p : Progress} :
    Cancels q.stop (tryDigits q below i current a digits)
      (tryDigits q.unstopped below' i current a digits) p := by
  induction digits generalizing p with
  | nil => exact (quiet_pure none).cancels p
  | cons d digits ih =>
    refine Cancels.read tryDigits_of_set ?_
    refine Cancels.after (narrowed?_quiet q _ _) fun s? p' => ?_
    cases s? with
    | none => exact ih
    | some s =>
      refine (hbelow s _ p').bind (fun r p'' => ?_) fun p'' => tryDigits_of_stopped hstop
      cases r with
      | none => exact ih
      | some found => exact (quiet_pure (some found)).cancels p''

/-- So is the search for some more positions. -/
theorem descend_cancels (hstop : q.stop.Monotone) {is : List Nat} {current : Expr}
    {a : Assignment} {p : Progress} :
    Cancels q.stop (descend q is current a) (descend q.unstopped is current a) p := by
  induction is generalizing current a p with
  | nil => exact (exactCheck_quiet q a).cancels p
  | cons i is ih => exact tryDigits_cancels hstop fun s a p => ih

/-- So is the search below leading digits, if these leave anything to search. -/
theorem belowLeading_cancels (hstop : q.stop.Monotone) (is : List Nat) (a : Assignment)
    (start : Option Expr) (p : Progress) :
    Cancels q.stop
      (match start with
        | none => return none
        | some current => return (← descend q is current a).map .ofAssignment :
        SearchM (Option Solution))
      (match start with
        | none => return none
        | some current => return (← descend q.unstopped is current a).map .ofAssignment) p := by
  cases start with
  | none => exact (quiet_pure none).cancels p
  | some current =>
    exact (descend_cancels hstop).bind (fun r p' => (quiet_pure _).cancels p')
      fun p' hp' => ⟨p', runs_pure none p', hp'⟩

/-- A search with leading digits runs as if it were not asked to stop, if the
    flag is clear whenever that run reads it; otherwise it is marked as
    interrupted and finds nothing. -/
theorem searchFrom_cancels (hstop : q.stop.Monotone) (leading : List Word) (p : Progress) :
    Cancels q.stop (searchFrom q leading) (searchFrom q.unstopped leading) p := by
  rw [searchFrom, searchFrom, show q.unstopped.expr = q.expr from rfl]
  split
  · exact belowLeading_cancels hstop _ _ (some q.expr) p
  · exact Cancels.after (narrowed?_quiet q _ _) fun start p' =>
      belowLeading_cancels hstop _ _ start p'

/-- A search with leading digits runs as if it were not asked to stop, or it
    was asked, is marked as interrupted and finds nothing. -/
theorem searchFrom_interrupted (hstop : q.stop.Monotone) (leading : List Word) (p : Progress) :
    Interrupts q.stop (searchFrom q leading) (searchFrom q.unstopped leading) p :=
  (searchFrom_cancels hstop leading p).interrupts

end Backtrack

/-! ## Sessions -/

namespace Session

variable {s : Session} {config : SearchConfig} {e : Expr} {leading : List Word} {g g' : Graph}
  {r : Except EvalError (Option Solution)} {t : Session}

/-- A session answers as its search does, and keeps the counters. -/
theorem run_searchFrom : (s.searchFrom config e leading).run.run g = (.ok (r, t), g') ↔
    ∃ p, (Backtrack.searchFrom (config.query e s.stop) leading).run.run.run ⟨g, s.statistics, 0⟩ =
        (.ok r, p) ∧ t = { s with statistics := p.statistics } ∧ g' = p.graph := by
  have hask : (s.searchFrom config e leading).run.run g =
      let ended := (Backtrack.searchFrom (config.query e s.stop) leading).run.run.run
        ⟨g, s.statistics, 0⟩
      (ended.1.map fun answer => (answer, { s with statistics := ended.2.statistics }),
        ended.2.graph) := rfl
  rw [hask]
  rcases (Backtrack.searchFrom (config.query e s.stop) leading).run.run.run
    ⟨g, s.statistics, 0⟩ with ⟨_ | answer, p⟩
  · constructor
    · intro h
      cases h
    · rintro ⟨p', h, -⟩
      cases h
  · constructor
    · intro h
      cases h
      exact ⟨p, rfl, rfl, rfl⟩
    · rintro ⟨p', h, rfl, rfl⟩
      cases h
      rfl

/-- Let a session without a stop flag answer a question.  Its search would read
    the flag some number of times.  With any flag that stays set and is clear
    at these readings, the answer is the same and no interruption is marked;
    with one that is set at some of them nothing is found and the interruption
    is marked. -/
theorem searchFrom_cancelled
    (hrun : ((s.setStop none).searchFrom config e leading).run.run g = (.ok (r, t), g')) :
    ∃ n, ∀ stop : StopFlag, stop.Monotone → ∃ r' t' k,
      ({ s with stop }.searchFrom config e leading).run.run g = (.ok (r', t'), k) ∧
        ((∀ i < n, stop i = false) ∧ r' = r ∧ k = g' ∧ t'.statistics = t.statistics ∧
            t'.statistics.interrupted = s.statistics.interrupted ∨
          (∃ i < n, stop i = true) ∧ r' = .ok none ∧ t'.statistics.interrupted = true) := by
  obtain ⟨p, hfree, rfl, rfl⟩ := run_searchFrom.1 hrun
  refine ⟨p.readings, fun stop hstop => ?_⟩
  obtain ⟨-, hunmarked, hclear, hstopped⟩ := Backtrack.searchFrom_cancels
    (q := config.query e stop) hstop leading ⟨g, s.statistics, 0⟩
  change (Backtrack.searchFrom (config.query e stop).unstopped leading).run.run.run
    ⟨g, s.statistics, 0⟩ = _ at hfree
  rw [hfree] at hunmarked hclear hstopped
  by_cases hc : stop.Clear 0 p.readings
  · refine ⟨r, _, _, run_searchFrom.2 ⟨p, hclear hc, rfl, rfl⟩, .inl ?_⟩
    exact ⟨fun i hi => hc i (Nat.zero_le i) hi, rfl, rfl, rfl, hunmarked⟩
  · obtain ⟨p', hrun', hp'⟩ := hstopped hc
    refine ⟨.ok none, _, _, run_searchFrom.2 ⟨p', hrun', rfl, rfl⟩, .inr ⟨?_, rfl, hp'.marked⟩⟩
    by_contra hnone
    refine hc fun i _ hi => ?_
    by_contra hset
    exact hnone ⟨i, hi, Bool.eq_true_of_not_eq_false hset⟩

/-- A session that looks for the digits with the quotient 3, the first of them
    given, and is asked to stop at the fourth reading. -/
theorem searchFrom_cancelled_leadingInput :
    let e := Graph.Reachable.leadingInput
    let config : SearchConfig := ⟨3, .largest, .z, .backtracking⟩
    ∃ s t g', (start.searchFrom config e [3]).run.run ⟨6, ∅⟩ = (.ok (.ok (some s), t), g') ∧
      ∃ r' t' k, (({ start with stop := fun i => 3 ≤ i } : Session).searchFrom config e [3]).run.run
          ⟨6, ∅⟩ = (.ok (r', t'), k) ∧
        (r' = .ok (some s) ∧ t'.statistics.interrupted = false ∨
          r' = .ok none ∧ t'.statistics.interrupted = true) := by
  intro e config
  obtain ⟨answers, hg, he⟩ := Graph.Reachable.reachable_leadingInput
  obtain ⟨h, hsound, hknown⟩ := hg.sound
  have hthree : ∀ d ∈ ([3] : List Word), Digit.isDigit d = true := by
    intro d hd
    obtain rfl := List.mem_singleton.1 hd
    decide
  obtain ⟨-, r, p, hrun, -, -, -, hfirst⟩ := Backtrack.searchFrom_meets
    (q := config.query e (.constant false)) (hknown e he) (by decide) (fun _ => rfl)
    hthree ⟨⟨6, ∅⟩, .zero .backtracking, 0⟩ hsound
  -- the digits 3 and 7 have this quotient, so something is found
  cases r with
  | none =>
    refine (hfirst ⟨[0, 1], [3, 7], rfl⟩ ⟨by decide, fun i => ?_, List.all_eq_true.1 (by decide),
      by decide, Graph.Reachable.evaluate_leadingInput⟩).elim
    simp [config, SearchConfig.query, e, Graph.Reachable.leadingInput, Expr.mentions_binary,
      Expr.mentions_input, Expr.not_mentions_literal, eq_comm]
  | some s =>
    have hfree : (start.searchFrom config e [3]).run.run ⟨6, ∅⟩ =
        (.ok (.ok (some s), ⟨p.statistics, .constant false⟩), p.graph) :=
      run_searchFrom.2 ⟨p, hrun, rfl, rfl⟩
    obtain ⟨n, hn⟩ := searchFrom_cancelled (s := start) hfree
    obtain ⟨r', t', k, hrun', hends⟩ := hn (fun i => 3 ≤ i) fun i j hij hi => by
      simp only [decide_eq_true_eq] at hi ⊢
      omega
    refine ⟨s, _, _, hfree, r', t', k, hrun', ?_⟩
    rcases hends with ⟨-, hr, -, -, hmark⟩ | ⟨-, hr, hmark⟩
    · exact .inl ⟨hr, hmark⟩
    · exact .inr ⟨hr, hmark⟩

end Session

end InputSolver
