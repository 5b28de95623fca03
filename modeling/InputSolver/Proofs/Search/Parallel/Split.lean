/-
  InputSolver — a search split at the first input.

  * `answerFor` is what the search finds with one digit for the first input.
    It is the same in every state of the graph (`searchFrom_answerFor`);
  * `answerFor_fault`: it faults if nothing is left of the tree under that digit;
  * `search_eq_first`: the whole search finds what the first of these searches
    finds that finds anything, or fails;
  * `Session.searchFrom_ends`: a session that may be asked to stop finds what
    this search finds, or nothing, and then it was asked.
-/
import InputSolver.Proofs.Search.History
import InputSolver.Proofs.Search.Interruption

namespace InputSolver

open InputSolver.Expr SearchM

/-- How a search ends: in a fault, or with an error or an answer. -/
abbrev SearchEnd (α : Type) := Except Fault (Except EvalError α)

namespace SearchEnd

/-- The first end of some searches in a row: all that come before it have
    found nothing. -/
def first : List (SearchEnd (Option Solution)) → SearchEnd (Option Solution)
  | [] => .ok (.ok none)
  | .ok (.ok none) :: ends => first ends
  | found :: _ => found

/-- The first end is the end of a search after some that have found nothing, or
    all have. -/
theorem first_cases {τ : Type} (A : τ → SearchEnd (Option Solution)) (ts : List τ) :
    (∀ t ∈ ts, A t = .ok (.ok none)) ∧ first (ts.map A) = .ok (.ok none) ∨
      ∃ before t after, ts = before ++ t :: after ∧ (∀ u ∈ before, A u = .ok (.ok none)) ∧
        A t ≠ .ok (.ok none) ∧ first (ts.map A) = A t := by
  induction ts with
  | nil => exact .inl ⟨nofun, rfl⟩
  | cons t ts ih =>
    by_cases ht : A t = .ok (.ok none)
    · have hfirst : first ((t :: ts).map A) = first (ts.map A) := by
        rw [List.map_cons, ht, first]
      rw [hfirst]
      obtain ⟨hall, hts⟩ | ⟨before, u, after, rfl, hbefore, hu, hts⟩ := ih
      · exact .inl ⟨List.forall_mem_cons.2 ⟨ht, hall⟩, hts⟩
      · exact .inr ⟨t :: before, u, after, rfl, List.forall_mem_cons.2 ⟨ht, hbefore⟩, hu, hts⟩
    · refine .inr ⟨[], t, ts, rfl, nofun, ht, ?_⟩
      rw [List.map_cons]
      rcases hA : A t with _ | _ | _ | _
      · rfl
      · rfl
      · exact (ht hA).elim
      · rfl

end SearchEnd

namespace Backtrack

variable {q : Query} {g : Graph} {h : Heap}

/-- What a search finds with one digit for the first input. -/
def answerFor (q : Query) (g : Graph) (digit : Word) : SearchEnd (Option Solution) :=
  ((runSearch (searchFrom q.unstopped [digit])).run.run g).1

/-- A search that is not asked to stop finds the same in every state of the
    graph, and leaves the graph canonical. -/
theorem searchFrom_answerFor (hg : g.Canonical h) (he : h.Holds q.expr) (hmarked : q.expr.Marked)
    (digit : Word) {k : Heap} (hle : h ≤ k) {p : Progress} (hp : p.graph.Canonical k) :
    ((searchFrom q.unstopped [digit]).run.run.run p).1 = answerFor q g digit ∧
      ∃ m, k ≤ m ∧ ((searchFrom q.unstopped [digit]).run.run.run p).2.graph.Canonical m := by
  have hq : q.unstopped.Mirrors .free k h q.unstopped :=
    ⟨⟨⟨he.mono hle, he, rfl⟩, hmarked, hmarked⟩, rfl, rfl, fun _ _ _ => rfl⟩
  obtain ⟨m, _, hm, -, hend, hends⟩ := searchFrom_agree Lockstep.kept_free hq [digit] p
    ⟨g, .zero .backtracking, 0⟩ ⟨hp, hg, trivial, trivial⟩
  exact ⟨hends.eq, m, hm, hend.left⟩

/-! ## The first input -/

/-- The search below one digit of the first input. -/
def belowDigit (q : Query) (i : Nat) (is : List Nat) (digit : Word) :
    SearchM (Option Assignment) := do
  match ← narrowed? q q.expr (Assignment.empty.bind i digit) with
  | none => return none
  | some current => descend q is current (Assignment.empty.bind i digit)

section FirstInput

variable {i : Nat} {is : List Nat} (hinputs : q.expr.inputIndices = i :: is)
include hinputs

/-- It is the search with that digit as leading digit. -/
theorem run_searchFrom_digit (digit : Word) (p : Progress) :
    (searchFrom q [digit]).run.run.run p =
      (((belowDigit q i is digit).run.run.run p).1.map (Except.map (Option.map .ofAssignment)),
        ((belowDigit q i is digit).run.run.run p).2) := by
  have hsearch : searchFrom q [digit] = (do
      match ← narrowed? q q.expr (Assignment.empty.bind i digit) with
      | none => return none
      | some current =>
        return (← descend q is current (Assignment.empty.bind i digit)).map .ofAssignment) := by
    rw [searchFrom, hinputs, List.zip_cons_cons, List.zip_nil_right]
    rfl
  rw [hsearch, belowDigit, run_bind, run_bind]
  rcases (narrowed? q q.expr (Assignment.empty.bind i digit)).run.run.run p with
    ⟨_ | _ | _ | current, p'⟩
  · rfl
  · rfl
  · rfl
  · simp only [run_bind]
    rcases (descend q is current (Assignment.empty.bind i digit)).run.run.run p' with
      ⟨_ | _ | _, _⟩ <;> rfl

end FirstInput

/-- If what is left of the tree under the first digit cannot be made, the search
    with that digit faults. -/
theorem answerFor_fault {i : Nat} {is : List Nat} (hinputs : q.expr.inputIndices = i :: is)
    (hg : g.Canonical h) (he : h.Holds q.expr) (hmarked : q.expr.Marked) {digit : Word}
    {fault : Fault}
    (hfault : q.expr.tree.simplified (Assignment.empty.bind i digit) = .error fault) :
    answerFor q g digit = .error fault := by
  obtain ⟨k, -, -, ho⟩ := GraphM.simplify_gives (p := Assignment.empty.bind i digit) he hmarked g hg
  rw [hfault] at ho
  have hcount : countVisit.run.run.run ⟨g, .zero .backtracking, 0⟩ =
    (.ok (.ok ()), ⟨g, { Statistics.zero .backtracking with visited := 1 }, 0⟩) := rfl
  change ((searchFrom q.unstopped [digit]).run.run.run ⟨g, .zero .backtracking, 0⟩).1 = _
  rw [run_searchFrom_digit (q := q.unstopped) hinputs, belowDigit, run_bind, narrowed?, run_bind,
    hcount]
  dsimp only
  rw [run_bind, run_onGraph, show q.unstopped.expr = q.expr from rfl, ho]
  rfl

/-- Trying a digit for the first input is a search below it, and then one with
    the other digits. -/
theorem run_tryDigits_cons (hstop : ∀ n, q.stop n = false) (i : Nat) (is : List Nat) (d : Word)
    (digits : List Word) (p : Progress) :
    (tryDigits q (descend q is) i q.expr .empty (d :: digits)).run.run.run p =
      match (belowDigit q i is d).run.run.run { p with readings := p.readings + 1 } with
      | (.ok (.ok none), p') => (tryDigits q (descend q is) i q.expr .empty digits).run.run.run p'
      | (found, p') => (found, p') := by
  have hread : (readFlag q.stop).run.run.run p =
      (.ok (.ok false), { p with readings := p.readings + 1 }) := by
    rw [← hstop p.readings]
    rfl
  rw [tryDigits, run_bind, hread, belowDigit]
  simp only [Bool.false_eq_true, if_false, run_bind]
  rcases (narrowed? q q.expr (Assignment.empty.bind i d)).run.run.run
    { p with readings := p.readings + 1 } with ⟨_ | _ | _ | current, p'⟩
  · rfl
  · rfl
  · rfl
  · simp only [run_bind]
    rcases (descend q is current (Assignment.empty.bind i d)).run.run.run p' with
      ⟨_ | _ | _ | _, _⟩ <;> rfl

/-- The digits for the first input are tried until one finds something. -/
theorem run_tryDigits_first {i : Nat} {is : List Nat} (hinputs : q.expr.inputIndices = i :: is)
    (hg : g.Canonical h) (he : h.Holds q.expr) (hmarked : q.expr.Marked) (digits : List Word)
    {k : Heap} (hle : h ≤ k) {p : Progress} (hp : p.graph.Canonical k) :
    ((tryDigits q.unstopped (descend q.unstopped is) i q.expr .empty digits).run.run.run p).1.map
        (Except.map (Option.map .ofAssignment)) =
      SearchEnd.first (digits.map (answerFor q g)) := by
  induction digits generalizing k p with
  | nil => rfl
  | cons d digits ih =>
    have hone := run_searchFrom_digit (q := q.unstopped) hinputs d
      { p with readings := p.readings + 1 }
    have hanswer := searchFrom_answerFor hg he hmarked d hle
      (show Graph.Canonical k { p with readings := p.readings + 1 }.graph from hp)
    rw [hone] at hanswer
    rw [show q.expr = q.unstopped.expr from rfl, run_tryDigits_cons (fun _ => rfl), List.map_cons]
    obtain ⟨hanswer, m, hle', hm⟩ := hanswer
    rcases hrun : (belowDigit q.unstopped i is d).run.run.run
      { p with readings := p.readings + 1 } with ⟨_ | _ | _ | _, p'⟩
    all_goals
      rw [hrun] at hanswer hm
      rw [← hanswer]
    · rfl
    · rfl
    · exact ih (Heap.le_trans hle hle') hm
    · rfl

/-- The whole search finds what the first of the searches with one digit for
    the first input finds. -/
theorem search_eq_first (hg : g.Canonical h) (he : h.Holds q.expr) (hmarked : q.expr.Marked)
    (hinputs : q.expr.inputIndices ≠ []) :
    ((runSearch (search q.unstopped)).run.run g).1.map (Except.map (·.solution?)) =
      SearchEnd.first (q.direction.digits.map (answerFor q g)) := by
  obtain ⟨i, is, hinputs⟩ := List.exists_cons_of_ne_nil hinputs
  have hfirst := run_tryDigits_first hinputs hg he hmarked q.direction.digits h.le_refl
    (show Graph.Canonical h (Progress.mk g (.zero .backtracking) 0).graph from hg)
  rw [← hfirst]
  have hfrom : searchFrom q.unstopped [] = (do
      return (← tryDigits q.unstopped (descend q.unstopped is) i q.expr .empty
        q.direction.digits).map .ofAssignment) := by
    rw [searchFrom, show q.unstopped.expr = q.expr from rfl, hinputs]
    rfl
  have hsearch : ((runSearch (search q.unstopped)).run.run g).1 =
      ((do
        let solution? ← searchFrom q.unstopped []
        return ⟨solution?, (← get).statistics⟩ : SearchM SearchResult).run.run.run
          ⟨g, .zero .backtracking, 0⟩).1 := rfl
  rw [hsearch, hfrom]
  simp only [run_bind]
  rcases (tryDigits q.unstopped (descend q.unstopped is) i q.expr .empty
    q.direction.digits).run.run.run ⟨g, .zero .backtracking, 0⟩ with ⟨_ | _ | _, p'⟩
  · rfl
  · rfl
  · rfl

end Backtrack

/-! ## Sessions -/

variable {config : SearchConfig} {e : Expr} {g : Graph} {h : Heap}

/-- A session that may be asked to stop finds what the search finds that is not
    asked, or nothing, and then it was asked. -/
theorem Session.searchFrom_ends (hg : g.Canonical h) (he : h.Holds e) (hmarked : e.Marked)
    {s : Session} (hstop : s.stop.Monotone) (digit : Word) {k : Heap} (hle : h ≤ k) {g' : Graph}
    (hg' : g'.Canonical k) :
    let ended := (s.searchFrom config e [digit]).run.run g'
    (∃ m, k ≤ m ∧ ended.2.Canonical m) ∧ ∃ session,
      ended.1 = (Backtrack.answerFor (config.query e (.constant false)) g digit).map
          (fun answer => (answer, session)) ∨
        ended.1 = .ok (.ok none, session) ∧ ∃ i, s.stop i = true := by
  intro ended
  have hended : ended =
      (((Backtrack.searchFrom (config.query e s.stop) [digit]).run.run.run
        ⟨g', s.statistics, 0⟩).1.map fun answer => (answer, { s with
          statistics := ((Backtrack.searchFrom (config.query e s.stop) [digit]).run.run.run
            ⟨g', s.statistics, 0⟩).2.statistics }),
        ((Backtrack.searchFrom (config.query e s.stop) [digit]).run.run.run
          ⟨g', s.statistics, 0⟩).2.graph) := rfl
  refine ⟨?_, ?_⟩
  · have hmirrors : Mirrors k e k e := ⟨⟨he.mono hle, he.mono hle, rfl⟩, hmarked, hmarked⟩
    obtain ⟨m, _, hm, -, hbeside, -⟩ := Backtrack.searchFrom_agree Lockstep.kept_same
      (config.query_mirrors s.stop hmirrors) [digit] ⟨g', s.statistics, 0⟩ _ ⟨hg', hg', rfl, rfl⟩
    exact ⟨m, hm, hbeside.left⟩
  · rw [hended]
    obtain hrun | ⟨p', hrun, hp'⟩ := Backtrack.searchFrom_interrupted
      (q := config.query e s.stop) hstop [digit] ⟨g', s.statistics, 0⟩
    · rw [hrun]
      have hanswer := (Backtrack.searchFrom_answerFor (q := config.query e s.stop) hg he hmarked
        digit hle (p := ⟨g', s.statistics, 0⟩) hg').1
      rw [hanswer]
      exact ⟨_, .inl rfl⟩
    · rw [Runs] at hrun
      rw [hrun]
      obtain ⟨i, -, hi⟩ := hp'.read
      exact ⟨_, .inr ⟨rfl, i, hi⟩⟩

end InputSolver
