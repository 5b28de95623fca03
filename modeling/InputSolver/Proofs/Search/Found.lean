/-
  InputSolver — what a search finds is a solution.

  A search returns a full assignment only after an exact check.  So whatever
  the ranges say, whatever the normal forms are and whenever the search is
  stopped, what it returns is a solution.

  * `Backtrack.searchFrom_ensures`: what a search with leading digits finds;
  * `SearchConfig.search_ensures`: what the configured algorithm finds.
-/
import InputSolver.Proofs.Search.Pruning
import InputSolver.Search.Run

namespace InputSolver

open InputSolver.Expr

/-! ## Answers -/

namespace SearchM

variable {α β : Type}

/-- Every answer of a computation is as `Q` asks for. -/
def Ensures (x : SearchM α) (Q : α → Prop) : Prop := ∀ p a p', x.Runs p a p' → Q a

variable {x : SearchM α} {f : α → SearchM β} {Q : α → Prop} {R : β → Prop}

theorem Ensures.bind (hx : x.Ensures Q) (hf : ∀ a, Q a → (f a).Ensures R) :
    (x >>= f).Ensures R := by
  intro p b p₂ h
  obtain ⟨a, p₁, ha, hb⟩ := runs_bind h
  exact hf a (hx p a p₁ ha) p₁ b p₂ hb

/-- Whatever the first computation answers. -/
theorem Ensures.after (hf : ∀ a, (f a).Ensures R) : (x >>= f).Ensures R :=
  Ensures.bind (Q := fun _ => True) (fun _ _ _ _ => trivial) fun a _ => hf a

theorem ensures_pure {a : α} (ha : Q a) : (pure a : SearchM α).Ensures Q := by
  intro p b p' h
  cases h
  exact ha

theorem ensures_throw (e : EvalError) : (throw e : SearchM α).Ensures Q := by
  intro p a p' h
  cases h

end SearchM

open SearchM

namespace Backtrack

/-! ## The descent -/

/-- What is found gives digits to some more positions and reaches the
    target. -/
def Found (q : Query) (is : List Nat) (a : Assignment) (r : Option Assignment) : Prop :=
  ∀ b, r = some b → ∃ ds, q.Reaches is a ds ∧ b = a.bindAll is ds

variable {q : Query} {a : Assignment}

theorem found_none (q : Query) (is : List Nat) (a : Assignment) : Found q is a none := by
  intro b hb
  cases hb

/-- Only an assignment that reaches the target passes the exact check. -/
theorem exactCheck_ensures : (exactCheck q a).Ensures (Found q [] a) := by
  refine Ensures.after fun _ => ?_
  split
  · rename_i value hvalue
    split
    · rename_i htarget
      refine ensures_pure fun b hb => ?_
      cases hb
      exact ⟨[], Query.reaches_nil.2 ⟨rfl, hvalue.trans (congrArg _ htarget)⟩, rfl⟩
    · exact ensures_pure (found_none q [] a)
  · exact ensures_pure (found_none q [] a)
  · exact ensures_throw _

/-- The digits for one input are tried in turn. -/
theorem tryDigits_ensures {below : Expr → Assignment → SearchM (Option Assignment)} {i : Nat}
    {is : List Nat} {digits : List Word} (hdigits : ∀ d ∈ digits, d ∈ q.direction.digits)
    (hbelow : ∀ d s, (below s (a.bind i d)).Ensures (Found q is (a.bind i d))) {current : Expr} :
    (tryDigits q below i current a digits).Ensures (Found q (i :: is) a) := by
  induction digits with
  | nil => exact ensures_pure (found_none q (i :: is) a)
  | cons d digits ih =>
    have hrest := ih fun x hx => hdigits x (List.mem_cons_of_mem _ hx)
    rw [tryDigits]
    refine Ensures.after fun stop => ?_
    split
    · exact Ensures.after fun _ => ensures_pure (found_none q (i :: is) a)
    · refine Ensures.after fun s? => ?_
      cases s? with
      | none => exact hrest
      | some s =>
        refine (hbelow d s).bind fun r hr => ?_
        cases r with
        | none => exact hrest
        | some b =>
          refine ensures_pure fun c hc => ?_
          cases hc
          obtain ⟨ds, hds, rfl⟩ := hr b rfl
          exact ⟨d :: ds,
            Query.reaches_cons.2 ⟨d, hdigits d List.mem_cons_self, ds, rfl, hds⟩, rfl⟩

/-- What the search for some more positions finds reaches the target. -/
theorem descend_ensures {is : List Nat} {current : Expr} :
    (descend q is current a).Ensures (Found q is a) := by
  induction is generalizing a current with
  | nil => exact exactCheck_ensures
  | cons i is ih => exact tryDigits_ensures (fun _ hd => hd) fun d s => ih

/-! ## The searches -/

/-- The search for the positions that leading digits leave open. -/
theorem descend_solution {is : List Nat} {P : Solution → Prop}
    (hfound : ∀ b, Found q is a (some b) → P (.ofAssignment b)) (start : Option Expr) :
    (match start with
      | none => return none
      | some current => return (← descend q is current a).map .ofAssignment :
      SearchM (Option Solution)).Ensures fun r => ∀ s, r = some s → P s := by
  cases start with
  | none =>
    refine ensures_pure fun s hs => ?_
    cases hs
  | some current =>
    refine descend_ensures.bind fun r hr => ensures_pure fun s hs => ?_
    cases r with
    | none => cases hs
    | some b =>
      cases hs
      exact hfound b hr

variable {h : Heap}

/-- What a search with leading digits finds is a solution that begins with
    them. -/
theorem searchFrom_ensures (hholds : h.Holds q.expr) {leading : List Word}
    (hdigits : ∀ d ∈ leading, Digit.isDigit d = true) :
    (searchFrom q leading).Ensures fun r => ∀ s, r = some s → q.Solves leading s := by
  have hleads := q.leads leading
  have hfound (b : Assignment) (hb : Found q (q.expr.inputIndices.drop leading.length)
      (.ofPairs (q.expr.inputIndices.zip leading)) (some b)) :
      q.Solves leading (.ofAssignment b) := by
    obtain ⟨ds, hds, rfl⟩ := hb b rfl
    rw [zip_leading] at hds ⊢
    obtain ⟨hinputs, hdigits'⟩ := hleads.ofAssignment hds.length
    exact (hleads.solves_iff hholds hdigits).2 ⟨hinputs, ds, hdigits', hds⟩
  rw [searchFrom, drop_length_zip]
  split
  · exact descend_solution hfound (some q.expr)
  · exact Ensures.after (descend_solution hfound)

/-- So is what a search without leading digits finds. -/
theorem search_ensures (hholds : h.Holds q.expr) :
    (search q).Ensures fun r => ∀ s, r.solution? = some s → q.Solves [] s := by
  have hnil : ∀ d ∈ ([] : List Word), Digit.isDigit d = true := by simp
  refine Ensures.after fun _ => (searchFrom_ensures hholds hnil).bind fun r hr => ?_
  exact Ensures.after fun p => ensures_pure hr

/-- So is what the enumeration finds. -/
theorem enumeration_ensures (hholds : h.Holds q.expr) :
    (Exhaustive.search q).Ensures fun r => ∀ s, r.solution? = some s → q.Solves [] s := by
  intro p r p' hrun s hs
  obtain ⟨r', p'', hrun', hfirst, -⟩ := enumeration_first hholds p
  obtain ⟨rfl, -⟩ := hrun.unique hrun'
  rw [hs] at hfirst
  exact hfirst.1

/-- Whether a solution is one depends neither on the direction nor on the stop
    flag, and its leading digits may be forgotten. -/
theorem Query.Solves.of_leading {q' : Query} {leading : List Word} {s : Solution}
    (hs : q.Solves leading s) (hexpr : q'.expr = q.expr) (htarget : q'.target = q.target) :
    q'.Solves [] s where
  ascending := hs.ascending
  inputs := hexpr ▸ hs.inputs
  digits := hs.digits
  leading := by simp
  value := by
    rw [hexpr, htarget]
    exact hs.value

/-- Digits that reach the target give a solution, by those for the inputs that
    occur. -/
theorem Query.exists_solves (hholds : h.Holds q.expr) (ha : a.Digits) (hq : q.Accepts a) :
    ∃ s, q.Solves [] s ∧ s.assignment.ExtendedBy a := by
  have hvalue : q.expr.valueOn a = .ok q.target := (evaluate_eq_valueOn hholds a).symm.trans hq
  have hbound (i : Nat) (hi : i ∈ q.expr.inputIndices) : ∃ d, a.get? i = some d :=
    bound_of_valueOn hvalue ((mem_inputIndices hholds).1 hi)
  let s : Solution := ⟨q.expr.inputIndices,
    q.expr.inputIndices.map fun i => (a.get? i).getD 0, by simp⟩
  have hget (i : Nat) (d : Word) :
      s.assignment.get? i = some d ↔ i ∈ q.expr.inputIndices ∧ a.get? i = some d := by
    rw [Solution.assignment, Assignment.get?_ofPairs_zip q.expr.pairwise_inputIndices,
      ← List.map_prod_left_eq_zip, List.mem_map]
    constructor
    · rintro ⟨j, hj, hpair⟩
      obtain ⟨d', hd'⟩ := hbound j hj
      rw [hd'] at hpair
      cases hpair
      exact ⟨hj, hd'⟩
    · rintro ⟨hi, hd⟩
      exact ⟨i, hi, by rw [hd, Option.getD_some]⟩
  refine ⟨s, ⟨q.expr.pairwise_inputIndices, fun i => mem_inputIndices hholds, fun d hd => ?_,
    by simp, ?_⟩, fun i d hd => ((hget i d).1 hd).2⟩
  · obtain ⟨i, hi, rfl⟩ := List.mem_map.1 hd
    obtain ⟨d, hd⟩ := hbound i hi
    rw [hd]
    exact ha i d hd
  · rw [evaluate_eq_valueOn hholds, ← hvalue]
    refine valueOn_congr fun i hi => ?_
    have hmem := (mem_inputIndices hholds).2 hi
    obtain ⟨d, hd⟩ := hbound i hmem
    rw [hd]
    exact (hget i d).2 ⟨hmem, hd⟩

end Backtrack

/-! ## Running a search -/

/-- A solution of what a configuration asks about an expression. -/
def SearchConfig.Solves (config : SearchConfig) (e : Expr) (s : Solution) : Prop :=
  (config.query e (.constant false)).Solves [] s

/-- What the configured algorithm finds is a solution. -/
theorem SearchConfig.search_ensures (config : SearchConfig) {h : Heap} {e : Expr}
    (he : h.Holds e) :
    (config.search e).Ensures fun r => ∀ s, r.solution? = some s → config.Solves e s := by
  unfold SearchConfig.search
  cases config.algorithm with
  | backtracking => exact Backtrack.search_ensures he
  | exhaustive => exact Backtrack.enumeration_ensures he

section Runs

variable {α : Type} {x : SearchM α} {Q : α → Prop} {g g' : Graph}

theorem run_runSearch (x : SearchM α) (g : Graph) : (runSearch x).run.run g =
    ((x.run.run.run ⟨g, .zero .backtracking, 0⟩).1,
      (x.run.run.run ⟨g, .zero .backtracking, 0⟩).2.graph) := rfl

/-- A search in a graph answers as its computation does. -/
theorem runSearch_ensures (hx : x.Ensures Q) {a : α}
    (h : (runSearch x).run.run g = (.ok (.ok a), g')) : Q a := by
  rw [run_runSearch] at h
  exact hx _ a _ (Prod.ext (Prod.ext_iff.1 h).1 rfl)

/-- The configured algorithm finds a solution if some digits reach the
    target. -/
theorem SearchConfig.exists_runSearch (config : SearchConfig) {h : Heap} {e : Expr}
    (he : h.Holds e) (hb : e.Bounded) (hg : g.Sound h) {a : Assignment} (ha : a.Digits)
    (hvalue : e.evaluate a = .ok config.target) :
    ∃ r g' s, (runSearch (config.search e)).run.run g = (.ok (.ok r), g') ∧
      r.solution? = some s := by
  obtain ⟨s', hs', -⟩ :=
    Backtrack.Query.exists_solves (q := config.query e (.constant false)) he ha hvalue
  have hfirst : ∃ r p', (config.search e).Runs ⟨g, .zero .backtracking, 0⟩ r p' ∧
      (config.query e (.constant false)).IsFirstSolution [] r.solution? := by
    unfold SearchConfig.search
    cases config.algorithm with
    | backtracking =>
      obtain ⟨r, p', hrun, hfirst, -⟩ := Backtrack.search_first
        (q := config.query e (.constant false)) he hb (fun _ => rfl)
        (p := ⟨g, .zero .backtracking, 0⟩) hg
      exact ⟨r, p', hrun, hfirst⟩
    | exhaustive =>
      obtain ⟨r, p', hrun, hfirst, -⟩ := Backtrack.enumeration_first
        (q := config.query e (.constant false)) he ⟨g, .zero .backtracking, 0⟩
      exact ⟨r, p', hrun, hfirst⟩
  obtain ⟨r, p', hrun, hfirst⟩ := hfirst
  have hsearch := (run_runSearch _ g).trans (congrArg (fun x => (x.1, x.2.graph)) hrun)
  cases hs : r.solution? with
  | none =>
    rw [hs] at hfirst
    exact (hfirst s' hs').elim
  | some s => exact ⟨r, p'.graph, s, hsearch, hs⟩

/-- A question to a session is answered as its computation answers. -/
theorem Session.ask_ensures (hx : x.Ensures Q) {s s' : Session} {a : α}
    (h : (s.ask x).run.run g = (.ok (.ok a, s'), g')) : Q a := by
  have hrun : (s.ask x).run.run g = ((x.run.run.run ⟨g, s.statistics, 0⟩).1.map fun answer =>
      (answer, { s with statistics := (x.run.run.run ⟨g, s.statistics, 0⟩).2.statistics }),
      (x.run.run.run ⟨g, s.statistics, 0⟩).2.graph) := rfl
  rw [hrun] at h
  rcases hres : x.run.run.run ⟨g, s.statistics, 0⟩ with ⟨_ | answer, p⟩
  · rw [hres] at h
    cases h
  · rw [hres] at h
    cases h
    exact hx _ a p hres

end Runs

end InputSolver
