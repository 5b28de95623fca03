/-
  InputSolver — pruning leaves no solution out.

  A search with leading digits looks for the first solution that begins with
  them (`IsFirstSolution`): a digit for each input that occurs, in order of
  position, the preferred digits first.

  * `searchFrom_meets`: the pruned search finds it;
  * `pruning_exact`: so the pruned search without leading digits and the
    enumeration of all assignments agree, and the pruned search makes no more
    exact checks.
-/
import Mathlib.Data.List.Lex
import Mathlib.Data.List.Sort
import InputSolver.Proofs.Search.Backtrack

namespace InputSolver

open InputSolver.Expr

/-! ## Solutions -/

theorem Solution.eq_of_lists {s t : Solution} (hinputs : s.inputs = t.inputs)
    (hdigits : s.digits = t.digits) : s = t := by
  obtain ⟨_, _, _⟩ := s
  obtain ⟨_, _, _⟩ := t
  cases hinputs
  cases hdigits
  rfl

/-- The solution of an assignment of digits to inputs in order has these inputs
    and digits. -/
theorem Solution.ofAssignment_zip {is : List Nat} (his : is.Pairwise (· < ·)) {ds : List Word}
    (hlength : is.length = ds.length) :
    (Solution.ofAssignment (.ofPairs (is.zip ds))).inputs = is ∧
      (Solution.ofAssignment (.ofPairs (is.zip ds))).digits = ds := by
  simp only [ofAssignment, Assignment.inputs, Assignment.digits,
    Assignment.entries_ofPairs (Assignment.pairwise_zip his _)]
  exact ⟨List.map_fst_zip (Nat.le_of_eq hlength), List.map_snd_zip (Nat.le_of_eq hlength.symm)⟩

/-- No input is missing where all that occur are bound. -/
theorem Expr.evaluate_bound {h : Heap} {e : Expr} (he : h.Holds e) {a : Assignment}
    (ha : ∀ i, e.Mentions i → a.get? i ≠ none) (i : Nat) :
    e.evaluate a ≠ .error (.unboundInput i) := by
  rw [evaluate_eq_valueOn he]
  exact valueOn_bound ha i

namespace Backtrack.Query

/-- A solution that begins with the leading digits, as many of them as there
    are inputs: a digit for each input that occurs in the expression, in order
    of position, such that the expression evaluates to the target. -/
structure Solves (q : Query) (leading : List Word) (s : Solution) : Prop where
  ascending : s.inputs.Pairwise (· < ·)
  inputs : ∀ i, i ∈ s.inputs ↔ q.expr.Mentions i
  digits : ∀ d ∈ s.digits, Digit.isDigit d = true
  leading : leading.take s.digits.length <+: s.digits
  value : q.expr.evaluate s.assignment = .ok q.target

/-- The first solution that begins with the leading digits, in lexicographic
    order of its digits, or nothing if there is none. -/
def IsFirstSolution (q : Query) (leading : List Word) : Option Solution → Prop
  | none => ∀ s, ¬ q.Solves leading s
  | some s => q.Solves leading s ∧
      ∀ t, q.Solves leading t → s = t ∨ List.Lex q.direction.Before s.digits t.digits

/-- There is only one first solution. -/
theorem IsFirstSolution.unique {q : Query} {leading : List Word} {r₁ r₂ : Option Solution}
    (h₁ : q.IsFirstSolution leading r₁) (h₂ : q.IsFirstSolution leading r₂) : r₁ = r₂ := by
  cases r₁ with
  | none =>
    cases r₂ with
    | none => rfl
    | some t => exact (h₁ t h₂.1).elim
  | some s =>
    cases r₂ with
    | none => exact (h₂ s h₁.1).elim
    | some t =>
      rcases h₁.2 t h₂.1 with rfl | hst
      · rfl
      · rcases h₂.2 s h₁.1 with rfl | hts
        · rfl
        · exact (asymm hst hts).elim

/-! ## Leading digits -/

/-- The positions of the inputs, split where the leading digits end. -/
structure Leads (q : Query) (leading : List Word) (fixed rest : List Nat) (lead : List Word) :
    Prop where
  inputs : q.expr.inputIndices = fixed ++ rest
  length : fixed.length = lead.length
  lead : leading.take (fixed ++ rest).length = lead

theorem leads (q : Query) (leading : List Word) :
    q.Leads leading (q.expr.inputIndices.take leading.length)
      (q.expr.inputIndices.drop leading.length)
      (leading.take q.expr.inputIndices.length) where
  inputs := (List.take_append_drop ..).symm
  length := by simp [Nat.min_comm]
  lead := by rw [List.take_append_drop]

section Leads

variable {q : Query} {leading : List Word} {fixed rest : List Nat} {lead : List Word}
  (hleads : q.Leads leading fixed rest lead)
include hleads

theorem Leads.pairwise : (fixed ++ rest).Pairwise (· < ·) :=
  hleads.inputs ▸ q.expr.pairwise_inputIndices

/-- The leading digits and some more are digits for all inputs. -/
theorem Leads.bindAll (ds : List Word) :
    (Assignment.ofPairs (fixed.zip lead)).bindAll rest ds =
      .ofPairs ((fixed ++ rest).zip (lead ++ ds)) := by
  rw [List.zip_append hleads.length]
  exact Assignment.bindAll_ofPairs ..

theorem Leads.ofAssignment {ds : List Word} (hds : ds.length = rest.length) :
    (Solution.ofAssignment ((Assignment.ofPairs (fixed.zip lead)).bindAll rest ds)).inputs =
        fixed ++ rest ∧
      (Solution.ofAssignment ((Assignment.ofPairs (fixed.zip lead)).bindAll rest ds)).digits =
        lead ++ ds := by
  rw [hleads.bindAll ds]
  exact Solution.ofAssignment_zip hleads.pairwise (by simp [hleads.length, hds])

/-- The solutions are given by the digits that the search is left to choose. -/
theorem Leads.solves_iff {h : Heap} (hholds : h.Holds q.expr)
    (hdigits : ∀ d ∈ leading, Digit.isDigit d = true) {s : Solution} :
    q.Solves leading s ↔ s.inputs = fixed ++ rest ∧ ∃ ds, s.digits = lead ++ ds ∧
      q.Reaches rest (.ofPairs (fixed.zip lead)) ds := by
  have hmem (i : Nat) : i ∈ fixed ++ rest ↔ q.expr.Mentions i := by
    rw [← hleads.inputs]
    exact mem_inputIndices hholds
  have hlead : ∀ d ∈ lead, Digit.isDigit d = true := by
    intro d hd
    rw [← hleads.lead] at hd
    exact hdigits d (List.mem_of_mem_take hd)
  constructor
  · intro hs
    have hinputs : s.inputs = fixed ++ rest := hs.ascending.eq_of_mem_iff hleads.pairwise
      fun i => (hs.inputs i).trans (hmem i).symm
    have hprefix := hs.leading
    rw [← s.length_eq, hinputs, hleads.lead] at hprefix
    obtain ⟨ds, hds⟩ := hprefix
    refine ⟨hinputs, ds, hds.symm, ?_, fun d hd => ?_, ?_⟩
    · have hlength := s.length_eq
      rw [hinputs, ← hds, List.length_append, List.length_append, hleads.length] at hlength
      omega
    · exact hs.digits d (hds ▸ List.mem_append_right _ hd)
    · have hvalue := hs.value
      rw [Solution.assignment, hinputs, ← hds] at hvalue
      rw [Accepts, hleads.bindAll ds]
      exact hvalue
  · rintro ⟨hinputs, ds, hds, hreaches⟩
    refine ⟨hinputs ▸ hleads.pairwise, fun i => hinputs ▸ hmem i, fun d hd => ?_, ?_, ?_⟩
    · rw [hds] at hd
      exact (List.mem_append.1 hd).elim (hlead d) (hreaches.digits d)
    · rw [← s.length_eq, hinputs, hleads.lead, hds]
      exact List.prefix_append ..
    · rw [Solution.assignment, hinputs, hds, ← hleads.bindAll ds]
      exact hreaches.accepts

/-- The outcome of the search for the open positions is the first solution. -/
theorem Leads.isFirstSolution {h : Heap} (hholds : h.Holds q.expr)
    (hdigits : ∀ d ∈ leading, Digit.isDigit d = true) :
    q.IsFirstSolution leading (((q.outcome rest (.ofPairs (fixed.zip lead))).1.map
      ((Assignment.ofPairs (fixed.zip lead)).bindAll rest)).map Solution.ofAssignment) := by
  have hfirst := q.isFirst_outcome rest (.ofPairs (fixed.zip lead))
  cases hres : (q.outcome rest (.ofPairs (fixed.zip lead))).1 with
  | none =>
    rw [hres] at hfirst
    intro s hs
    obtain ⟨-, ds, -, hds⟩ := (hleads.solves_iff hholds hdigits).1 hs
    exact hfirst ds hds
  | some ds =>
    rw [hres] at hfirst
    obtain ⟨hds, hle⟩ := hfirst
    obtain ⟨hinputs, hdigits'⟩ := hleads.ofAssignment hds.length
    refine ⟨(hleads.solves_iff hholds hdigits).2 ⟨hinputs, ds, hdigits', hds⟩, fun t ht => ?_⟩
    obtain ⟨htinputs, es, htdigits, hes⟩ := (hleads.solves_iff hholds hdigits).1 ht
    rcases hle es hes with rfl | hlex
    · exact .inl (Solution.eq_of_lists (hinputs.trans htinputs.symm) (hdigits'.trans htdigits.symm))
    · rw [hdigits', htdigits]
      exact .inr (List.Lex.append_left _ hlex lead)

/-- The leading digits leave the other positions open. -/
theorem Leads.chosen {h : Heap} (hholds : h.Holds q.expr)
    (hdigits : ∀ d ∈ leading, Digit.isDigit d = true) :
    Chosen q rest (.ofPairs (fixed.zip lead)) := by
  have hpairwise := List.pairwise_append.1 hleads.pairwise
  refine ⟨fun i v hv => ?_, hpairwise.2.1.imp Nat.ne_of_lt, fun i hi => ?_, fun i hi => ?_⟩
  · rw [Assignment.get?_ofPairs_zip hpairwise.1] at hv
    have hmem := (List.of_mem_zip hv).2
    rw [← hleads.lead] at hmem
    exact hdigits v (List.mem_of_mem_take hmem)
  · by_contra hbound
    obtain ⟨v, hv⟩ := Option.ne_none_iff_exists'.1 hbound
    rw [Assignment.get?_ofPairs_zip hpairwise.1] at hv
    exact Nat.lt_irrefl i (hpairwise.2.2 i (List.of_mem_zip hv).1 i hi)
  · have hmem := (mem_inputIndices hholds).2 hi
    rw [hleads.inputs] at hmem
    refine (List.mem_append.1 hmem).symm.imp_right fun hfixed => ?_
    obtain ⟨n, hn, rfl⟩ := List.mem_iff_getElem.1 hfixed
    have hn' : n < lead.length := hleads.length ▸ hn
    have hzip : (fixed[n], lead[n]) ∈ fixed.zip lead := by
      rw [List.mem_iff_getElem]
      exact ⟨n, by simp [hn, hn'], by simp⟩
    rw [(Assignment.get?_ofPairs_zip hpairwise.1).2 hzip]
    nofun

end Leads

end Backtrack.Query

/-! ## The searches -/

namespace Backtrack

open SearchM

variable {q : Query} {h : Heap}

/-- The leading digits that a search gives to inputs. -/
theorem zip_leading (is : List Nat) (ds : List Word) :
    is.zip ds = (is.take ds.length).zip (ds.take is.length) := by
  induction is generalizing ds with
  | nil => simp
  | cons i is ih =>
    cases ds with
    | nil => rfl
    | cons d ds => exact congrArg _ (ih ds)

theorem drop_length_zip (is : List Nat) (ds : List Word) :
    is.drop (is.zip ds).length = is.drop ds.length := by
  rw [List.length_zip]
  rcases Nat.le_total is.length ds.length with hle | hle
  · rw [Nat.min_eq_left hle, List.drop_length, List.drop_of_length_le hle]
  · rw [Nat.min_eq_right hle]

/-- The search for the positions that leading digits leave open. -/
theorem descend_first {is : List Nat} {a : Assignment} {leading : List Word}
    (hval : ∀ b, q.expr.evaluate b = q.expr.valueOn b) (hstop : ∀ n, q.stop n = false)
    (ha : Chosen q is a) (hfirst : q.IsFirstSolution leading
      (((q.outcome is a).1.map (a.bindAll is)).map Solution.ofAssignment))
    {start : Option Expr} : NarrowsTo q a h start → (match start with
      | none => return none
      | some current => return (← descend q is current a).map .ofAssignment :
      SearchM (Option Solution)).Meets h (q.outcome is a).2
      fun _ r => q.IsFirstSolution leading r := by
  intro hstart
  cases start with
  | none =>
    rw [outcome_of_hopeless hval ha hstart] at hfirst
    exact meets_pure hfirst
  | some current =>
    refine (descend_meets hval hstop ha hstart).bind (m := 0) fun k r _ hr => ?_
    obtain rfl := hr
    exact meets_pure hfirst

/-- A search with leading digits finds the first solution that begins with
    them. -/
theorem searchFrom_meets (hholds : h.Holds q.expr) (hb : q.expr.Bounded)
    (hstop : ∀ n, q.stop n = false) {leading : List Word}
    (hdigits : ∀ d ∈ leading, Digit.isDigit d = true) :
    (searchFrom q leading).Meets h (q.outcome (q.expr.inputIndices.drop leading.length)
      (.ofPairs (q.expr.inputIndices.zip leading))).2
      fun _ r => q.IsFirstSolution leading r := by
  have hleads := q.leads leading
  have hval (b : Assignment) := evaluate_eq_valueOn hholds b
  have hchosen := hleads.chosen hholds hdigits
  have hfirst := hleads.isFirstSolution hholds hdigits
  rw [← zip_leading] at hchosen hfirst
  have hstart : Narrowed q h .empty q.expr := ⟨hholds, hb, fun _ _ _ _ hv => hv⟩
  rw [searchFrom, drop_length_zip]
  split
  · rename_i hempty
    have hnarrows : NarrowsTo q (.ofPairs (q.expr.inputIndices.zip leading)) h (some q.expr) := by
      rw [List.isEmpty_iff.1 hempty]
      exact hstart
    exact descend_first hval hstop hchosen hfirst hnarrows
  · exact (narrowed?_meets hstart (fun _ _ => nofun) hchosen.digits).then
      fun _ _ _ hs => descend_first hval hstop hchosen hfirst hs

/-- The pruned search finds the first solution of all, and makes no more exact
    checks than are needed to go through all assignments before it. -/
theorem search_first (hholds : h.Holds q.expr) (hb : q.expr.Bounded)
    (hstop : ∀ n, q.stop n = false) {p : Progress} (hp : p.graph.Sound h) :
    ∃ r p', (search q).Runs p r p' ∧ q.IsFirstSolution [] r.solution? ∧
      r.statistics.exactChecks ≤ (q.outcome q.expr.inputIndices .empty).2 := by
  have hnil : ∀ d ∈ ([] : List Word), Digit.isDigit d = true := by simp
  obtain ⟨k, r, p', hrun, -, -, hchecks, hfirst⟩ := searchFrom_meets hholds hb hstop hnil
    { p with statistics := .zero .backtracking } hp
  rw [List.zip_nil_right, List.length_nil, List.drop_zero] at hchecks
  refine ⟨⟨r, p'.statistics⟩, p', (runs_count _ p).bind (hrun.bind rfl), hfirst, ?_⟩
  exact Nat.le_trans hchecks (Nat.le_of_eq (Nat.zero_add _))

/-- So does the enumeration, and it makes exactly as many. -/
theorem enumeration_first (hholds : h.Holds q.expr) (p : Progress) :
    ∃ r p', (Exhaustive.search q).Runs p r p' ∧ q.IsFirstSolution [] r.solution? ∧
      r.statistics.exactChecks = (q.outcome q.expr.inputIndices .empty).2 := by
  have hcovers (i : Nat) (hi : q.expr.Mentions i) :
      i ∈ q.expr.inputIndices ∨ Assignment.empty.get? i ≠ none :=
    .inl ((mem_inputIndices hholds).2 hi)
  have hrun := Exhaustive.enumerate_runs (fun _ => evaluate_bound hholds) hcovers
    { p with statistics := .zero .exhaustive }
  have hfirst := (q.leads []).isFirstSolution hholds nofun
  rw [← zip_leading, List.zip_nil_right, List.length_nil, List.drop_zero] at hfirst
  exact ⟨⟨_, _⟩, _, (runs_count _ p).bind (hrun.bind rfl), hfirst, Nat.zero_add _⟩

/-- With any leading digits the pruned search finds the first solution that
    begins with them.  Without leading digits it agrees with the enumeration of
    all assignments, and makes no more exact checks. -/
theorem pruning_exact {g : Graph} {answers : List Expr} (hg : g.Reachable answers)
    (he : Known answers q.expr) (hb : q.expr.Bounded) (hstop : ∀ n, q.stop n = false)
    (statistics : Statistics) (readings : Nat) :
    (∀ leading, (∀ d ∈ leading, Digit.isDigit d = true) →
      ∃ r p', (searchFrom q leading).Runs ⟨g, statistics, readings⟩ r p' ∧
        q.IsFirstSolution leading r) ∧
    ∀ p, ∃ r₁ p₁ r₂ p₂, (search q).Runs ⟨g, statistics, readings⟩ r₁ p₁ ∧
      (Exhaustive.search q).Runs p r₂ p₂ ∧ q.IsFirstSolution [] r₁.solution? ∧
      r₁.solution? = r₂.solution? ∧ r₁.statistics.exactChecks ≤ r₂.statistics.exactChecks := by
  obtain ⟨h, hsound, hknown⟩ := hg.sound
  have hholds := hknown q.expr he
  constructor
  · intro leading hdigits
    obtain ⟨k, r, p', hrun, -, -, -, hfirst⟩ := searchFrom_meets hholds hb hstop hdigits
      ⟨g, statistics, readings⟩ hsound
    exact ⟨r, p', hrun, hfirst⟩
  · intro p
    obtain ⟨r₁, p₁, hrun₁, hfirst₁, hle⟩ := search_first hholds hb hstop
      (p := ⟨g, statistics, readings⟩) hsound
    obtain ⟨r₂, p₂, hrun₂, hfirst₂, heq⟩ := enumeration_first hholds p
    exact ⟨r₁, p₁, r₂, p₂, hrun₁, hrun₂, hfirst₁,
      Query.IsFirstSolution.unique hfirst₁ hfirst₂, heq ▸ hle⟩

theorem pruning_exact_leadingInput :
    ∃ r p', (searchFrom ⟨Graph.Reachable.leadingInput, 3, .largest, .constant false⟩ [3]).Runs
      ⟨⟨6, ∅⟩, .zero .backtracking, 0⟩ r p' ∧ r ≠ none := by
  obtain ⟨answers, hg, hknown⟩ := Graph.Reachable.reachable_leadingInput
  obtain ⟨r, p', hrun, hfirst⟩ := (pruning_exact hg
    (q := ⟨Graph.Reachable.leadingInput, 3, .largest, .constant false⟩) hknown (by decide)
    (fun _ => rfl) (.zero .backtracking) 0).1 [3] (List.all_eq_true.1 (by decide))
  refine ⟨r, p', hrun, ?_⟩
  rintro rfl
  refine hfirst ⟨[0, 1], [3, 7], rfl⟩ ⟨by decide, fun i => ?_,
    List.all_eq_true.1 (by decide), by decide, Graph.Reachable.evaluate_leadingInput⟩
  simp [Graph.Reachable.leadingInput, mentions_binary, mentions_input, not_mentions_literal,
    eq_comm]

end Backtrack

end InputSolver
