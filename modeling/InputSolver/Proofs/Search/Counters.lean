/-
  InputSolver — what the counters of a search say.

  Every assignment that a search leaves out or checks was counted as visited
  before.  So a visit is either expanded, which means that digits for one more
  input were tried below it, or it is left out, or checked.

  * `Statistics.Balanced`: no more assignments are left out or checked than
    visited;
  * `searchFrom_settles`: a search with leading digits keeps that, however it
    ends; `search_exhausts`: one that finds nothing and is not interrupted
    visits nine assignments below each one it expands, and nine to begin with;
  * `counters_balanced`: so do the sessions and the merged counters of several
    workers, and the prune rate lies between 0 and 1.

  The library is imported whole for the search at the end.  What evaluates it,
  `cbv`, rewrites with equations that many of its modules hold, from `StateT`
  to `List.lookup`; the theorems before need rational numbers only.
-/
import Mathlib
import InputSolver.Proofs.Double
import InputSolver.Proofs.Search.Interruption
import InputSolver.Proofs.Search.Parallel.Verdict

namespace InputSolver

/-! ## Balance -/

namespace Statistics

/-- The visits that were neither left out nor checked. -/
def expanded (s : Statistics) : Int := s.visited - (s.pruned + s.exactChecks)

/-- Only what was visited is left out or checked, and not both. -/
def Balanced (s : Statistics) : Prop := s.pruned + s.exactChecks ≤ s.visited

theorem balanced_iff {s : Statistics} : s.Balanced ↔ 0 ≤ s.expanded := by
  unfold Balanced expanded
  omega

theorem balanced_zero (algorithm : Algorithm) : (zero algorithm).Balanced := Nat.le_refl 0

theorem Balanced.of_expanded_le {s t : Statistics} (hs : s.Balanced) (h : s.expanded ≤ t.expanded) :
    t.Balanced := by
  rw [balanced_iff] at hs ⊢
  exact Int.le_trans hs h

end Statistics

namespace SearchM

variable {α β : Type}

/-! ## Visits to account for -/

/-- What a computation leaves, if it answers. -/
def unspent (left : α → Nat) : Except Fault (Except EvalError α) → Nat
  | .ok (.ok a) => left a
  | _ => 0

/-- The computation may leave out or check `n` assignments that were visited
    before it, and those that it visits itself; with an answer `a` it leaves
    `left a` of all these to what comes after it. -/
def Settles (x : SearchM α) (n : Nat) (left : α → Nat) : Prop :=
  ∀ p, p.statistics.expanded + unspent left (x.run.run.run p).1 ≤
    (x.run.run.run p).2.statistics.expanded + n

variable {x : SearchM α} {f : α → SearchM β} {n m : Nat} {left : α → Nat} {left' : β → Nat}

theorem Settles.mono (hx : x.Settles n left) (hn : n ≤ m) : x.Settles m left := by
  intro p
  have := hx p
  omega

theorem Settles.bind (hx : x.Settles n left) (hf : ∀ a, (f a).Settles (left a) left') :
    (x >>= f).Settles n left' := by
  intro p
  have hxp := hx p
  rw [run_bind]
  rcases hrun : x.run.run.run p with ⟨_ | _ | a, p₁⟩ <;> rw [hrun] at hxp
  · exact hxp
  · exact hxp
  · have hfp := hf a p₁
    change p.statistics.expanded + (left a : Int) ≤ p₁.statistics.expanded + n at hxp
    change _ ≤ ((f a).run.run.run p₁).2.statistics.expanded + (n : Int)
    change _ + (unspent left' ((f a).run.run.run p₁).1 : Int) ≤ _
    omega

/-- A computation that leaves out and checks only what it visits keeps the
    balance. -/
theorem Settles.balanced (hx : x.Settles 0 left) {p : Progress} (hp : p.statistics.Balanced) :
    (x.run.run.run p).2.statistics.Balanced := by
  have hxp := hx p
  exact hp.of_expanded_le (by omega)

theorem balanced_bind {p : Progress} (hx : (x.run.run.run p).2.statistics.Balanced)
    (hf : ∀ a, (f a).Settles 0 fun _ => 0) : ((x >>= f).run.run.run p).2.statistics.Balanced := by
  rw [run_bind]
  rcases hrun : x.run.run.run p with ⟨_ | _ | a, p₁⟩ <;> rw [hrun] at hx
  · exact hx
  · exact hx
  · exact (hf a).balanced hx

theorem settles_pure (left : α → Nat) (a : α) : (pure a : SearchM α).Settles (left a) left :=
  fun _ => Int.le_refl _

theorem settles_throw (e : EvalError) : (throw e : SearchM α).Settles n left := by
  intro p
  change p.statistics.expanded + 0 ≤ p.statistics.expanded + n
  omega

/-- Counting something. -/
theorem settles_count {f : Statistics → Statistics}
    (hf : ∀ s, s.expanded + m ≤ (f s).expanded + n) : (count f).Settles n fun _ => m :=
  fun p => hf p.statistics

theorem settles_countVisit : countVisit.Settles 0 fun _ => 1 := by
  refine settles_count fun s => ?_
  simp only [Statistics.expanded]
  omega

theorem settles_countPruned : countPruned.Settles 1 fun _ => 0 := by
  refine settles_count fun s => ?_
  simp only [Statistics.expanded]
  omega

theorem settles_countCheck : countCheck.Settles 1 fun _ => 0 := by
  refine settles_count fun s => ?_
  simp only [Statistics.expanded]
  omega

theorem settles_markInterrupted : markInterrupted.Settles n fun _ => n :=
  settles_count fun _ => Int.le_refl _

/-- A computation that counts nothing. -/
theorem settles_of_statistics_eq
    (hx : ∀ p, (x.run.run.run p).2.statistics = p.statistics) : x.Settles n fun _ => n := by
  intro p
  rw [hx p]
  rcases (x.run.run.run p).1 with _ | _ | _ <;> simp only [unspent] <;> omega

theorem settles_readFlag (stop : StopFlag) : (readFlag stop).Settles n fun _ => n :=
  settles_of_statistics_eq fun _ => rfl

theorem settles_onGraph (x : GraphM α) : (onGraph x).Settles n fun _ => n := by
  refine settles_of_statistics_eq fun p => ?_
  rw [run_onGraph]

theorem settles_faulty (x : Except Fault α) : (faulty x).Settles n fun _ => n := by
  refine settles_of_statistics_eq fun p => ?_
  cases x <;> rfl

end SearchM

open SearchM

namespace Backtrack

variable {q : Query}

/-! ## The pruned search -/

theorem exactCheck_settles (q : Query) (a : Assignment) :
    (exactCheck q a).Settles 1 fun _ => 0 := by
  refine settles_countCheck.bind fun _ => ?_
  split
  · split
    · exact settles_pure _ _
    · exact settles_pure _ _
  · exact settles_pure _ _
  · exact settles_throw _

/-- An assignment that is not left out may be checked, or expanded. -/
theorem narrowed?_settles (q : Query) (current : Expr) (a : Assignment) :
    (narrowed? q current a).Settles 0 fun s? => if s?.isSome then 1 else 0 := by
  refine settles_countVisit.bind fun _ => (settles_onGraph _).bind fun s => ?_
  refine (settles_faulty s.range).bind fun r => ?_
  split
  · exact settles_pure (fun s? : Option Expr => if s?.isSome then 1 else 0) (some s)
  · exact settles_countPruned.bind fun _ =>
      settles_pure (fun s? : Option Expr => if s?.isSome then 1 else 0) none

/-- The digits for one input account for the visits they make. -/
theorem tryDigits_settles {below : Expr → Assignment → SearchM (Option Assignment)}
    (hbelow : ∀ s a, (below s a).Settles 1 fun _ => 0) (i : Nat) (current : Expr)
    (a : Assignment) (digits : List Word) :
    (tryDigits q below i current a digits).Settles 0 fun _ => 0 := by
  induction digits with
  | nil => exact settles_pure _ _
  | cons d digits ih =>
    rw [tryDigits]
    refine (settles_readFlag q.stop).bind fun stopped => ?_
    split
    · exact settles_markInterrupted.bind fun _ => settles_pure _ _
    · refine (narrowed?_settles q _ _).bind fun s? => ?_
      cases s? with
      | none => exact ih
      | some s =>
        refine (hbelow s _).bind fun r => ?_
        cases r with
        | none => exact ih
        | some found => exact settles_pure _ _

/-- Below an assignment with no input left there is one check, which that
    assignment pays for. -/
theorem descend_settles (q : Query) (is : List Nat) (current : Expr) (a : Assignment) :
    (descend q is current a).Settles 1 fun _ => 0 := by
  induction is generalizing current a with
  | nil => exact exactCheck_settles q a
  | cons i is ih => exact (tryDigits_settles ih i current a _).mono (Nat.zero_le 1)

theorem descend_settles_of_ne_nil {is : List Nat} (his : is ≠ []) (current : Expr)
    (a : Assignment) : (descend q is current a).Settles 0 fun _ => 0 := by
  cases is with
  | nil => exact absurd rfl his
  | cons i is => exact tryDigits_settles (descend_settles q is) i current a _

/-- A search with leading digits accounts for the visits it makes, if there is
    an input. -/
theorem searchFrom_settles (hinputs : q.expr.inputIndices ≠ []) (leading : List Word) :
    (searchFrom q leading).Settles 0 fun _ => 0 := by
  rw [searchFrom]
  split
  · rename_i hempty
    rw [List.isEmpty_iff.1 hempty]
    exact (descend_settles_of_ne_nil hinputs _ _).bind fun _ => settles_pure _ _
  · refine (narrowed?_settles q _ _).bind fun start => ?_
    cases start with
    | none => exact settles_pure _ _
    | some current => exact (descend_settles q _ current _).bind fun _ => settles_pure _ _

/-! ## The whole tree -/

/-- Where the computation finds nothing and is not interrupted, it visits nine
    assignments below each one that it expands, and `n` more. -/
def Exhausts (x : SearchM (Option Assignment)) (n : Nat) : Prop :=
  ∀ p p', x.Runs p none p' → p'.statistics.interrupted = false →
    p.statistics.interrupted = false ∧
      (p'.statistics.visited : Int) - p.statistics.visited =
        n + 9 * (p'.statistics.expanded - p.statistics.expanded)

theorem exactCheck_exhausts (q : Query) (a : Assignment) : Exhausts (exactCheck q a) 9 := by
  intro p p' hrun hend
  obtain ⟨_, p₁, hcount, hrun⟩ := runs_bind hrun
  cases hcount
  have hp' : p' =
      { p with
        statistics := { p.statistics with exactChecks := p.statistics.exactChecks + 1 } } := by
    split at hrun
    · split at hrun
      · cases hrun
      · cases hrun
        rfl
    · cases hrun
      rfl
    · cases hrun
  subst hp'
  refine ⟨hend, ?_⟩
  simp only [Statistics.expanded]
  omega

/-- An assignment is visited, and left out or not. -/
theorem narrowed?_counts {current : Expr} {a : Assignment} {p p' : Progress} {s? : Option Expr}
    (hrun : (narrowed? q current a).Runs p s? p') :
    p'.statistics.interrupted = p.statistics.interrupted ∧
      p'.statistics.visited = p.statistics.visited + 1 ∧
      p'.statistics.expanded = p.statistics.expanded + if s?.isSome then 1 else 0 := by
  obtain ⟨_, p₁, hcount, hrun⟩ := runs_bind hrun
  cases hcount
  obtain ⟨s, p₂, hgraph, hrun⟩ := runs_bind hrun
  rw [Runs, run_onGraph] at hgraph
  obtain rfl := congrArg Prod.snd hgraph
  obtain ⟨r, p₃, hrange, hrun⟩ := runs_bind hrun
  cases hr : s.range with
  | error fault =>
    rw [hr] at hrange
    cases hrange
  | ok range =>
    rw [hr] at hrange
    cases hrange
    split at hrun
    · cases hrun
      refine ⟨rfl, rfl, ?_⟩
      simp only [Statistics.expanded, Option.isSome_some, if_true]
      omega
    · cases hrun
      refine ⟨rfl, rfl, ?_⟩
      simp only [Statistics.expanded, Option.isSome_none, Bool.false_eq_true, if_false]
      omega

/-- Each digit is one visit more. -/
theorem tryDigits_exhausts {below : Expr → Assignment → SearchM (Option Assignment)}
    (hbelow : ∀ s a, Exhausts (below s a) 9) (i : Nat) (current : Expr) (a : Assignment)
    (digits : List Word) :
    Exhausts (tryDigits q below i current a digits) digits.length := by
  induction digits with
  | nil =>
    intro p p' hrun hend
    cases hrun
    exact ⟨hend, by simp⟩
  | cons d digits ih =>
    intro p p' hrun hend
    rw [tryDigits] at hrun
    obtain ⟨stopped, p₁, hread, hrun⟩ := runs_bind hrun
    cases hread
    split at hrun
    · -- a search that stops here is marked
      cases hrun
      cases hend
    · obtain ⟨s?, p₂, hnarrowed, hrun⟩ := runs_bind hrun
      obtain ⟨hmark, hvisited, hexpanded⟩ := narrowed?_counts hnarrowed
      simp only at hmark hvisited hexpanded
      rw [List.length_cons]
      cases s? with
      | none =>
        obtain ⟨hunmarked, htail⟩ := ih p₂ p' hrun hend
        refine ⟨hmark.symm.trans hunmarked, ?_⟩
        simp only [Option.isSome_none, Bool.false_eq_true, if_false] at hexpanded
        omega
      | some s =>
        obtain ⟨r, p₃, hrunBelow, hrun⟩ := runs_bind hrun
        cases r with
        | some found => cases hrun
        | none =>
          obtain ⟨hunmarked, htail⟩ := ih p₃ p' hrun hend
          obtain ⟨hunmarked', hnine⟩ := hbelow s _ p₂ p₃ hrunBelow hunmarked
          refine ⟨hmark.symm.trans hunmarked', ?_⟩
          simp only [Option.isSome_some, if_true] at hexpanded
          omega

theorem descend_exhausts (q : Query) (is : List Nat) (current : Expr) (a : Assignment) :
    Exhausts (descend q is current a) 9 := by
  induction is generalizing current a with
  | nil => exact exactCheck_exhausts q a
  | cons i is ih =>
    have hlength : q.direction.digits.length = 9 := by cases q.direction <;> rfl
    have htry := tryDigits_exhausts (q := q) ih i current a q.direction.digits
    rw [hlength] at htry
    exact htry

/-- A search that finds nothing and is not interrupted visits nine assignments
    below each one it expands, and nine to begin with. -/
theorem search_exhausts {p p' : Progress} {r : SearchResult} (hrun : (search q).Runs p r p')
    (hnone : r.solution? = none) (hend : r.statistics.interrupted = false) :
    (r.statistics.visited : Int) = 9 * (1 + r.statistics.expanded) := by
  obtain ⟨_, p₁, hreset, hrun⟩ := runs_bind hrun
  cases hreset
  obtain ⟨solution?, p₂, hsearch, hrun⟩ := runs_bind hrun
  cases hrun
  cases hnone
  rw [searchFrom, List.zip_nil_right] at hsearch
  obtain ⟨start, p₃, hstart, hsearch⟩ := runs_bind hsearch
  cases hstart
  obtain ⟨found?, p₄, hdescend, hmap⟩ := runs_bind hsearch
  cases found? with
  | some found => cases hmap
  | none =>
    cases hmap
    obtain ⟨-, hnine⟩ := descend_exhausts q _ _ _ _ _ hdescend hend
    simp only [Statistics.zero, Statistics.expanded] at hnine ⊢
    omega

/-- A full search accounts for its visits, however it ends. -/
theorem search_balanced (hinputs : q.expr.inputIndices ≠ []) (p : Progress) :
    ((search q).run.run.run p).2.statistics.Balanced := by
  refine balanced_bind (x := reset) (Statistics.balanced_zero .backtracking) fun _ => ?_
  refine (searchFrom_settles hinputs []).bind fun _ => ?_
  exact (settles_of_statistics_eq (x := get) fun _ => rfl).bind fun _ => settles_pure _ _

end Backtrack

/-! ## Sessions -/

namespace Session

/-- The sessions in which, since the counters were last reset, only questions
    about expressions with an input were asked.  The stop flag may be changed
    between two questions, and so may the graph. -/
inductive Asked : Session → Prop where
  | reset (s : Session) : Asked s.reset
  | flagged {s : Session} (stop : StopFlag) : Asked s → Asked { s with stop }
  | searched {s t : Session} {config : SearchConfig} {e : Expr} {g g' : Graph}
      {r : Except EvalError (Option Solution)} : e.inputIndices ≠ [] →
      (s.search config e).run.run g = (.ok (r, t), g') → Asked t
  | leading {s t : Session} {config : SearchConfig} {e : Expr} {leading : List Word} {g g' : Graph}
      {r : Except EvalError (Option Solution)} : Asked s → e.inputIndices ≠ [] →
      (s.searchFrom config e leading).run.run g = (.ok (r, t), g') → Asked t

/-- A session keeps the counters of its search. -/
theorem statistics_of_ask {α : Type} {s t : Session} {x : SearchM α} {g g' : Graph}
    {r : Except EvalError α} (hrun : (s.ask x).run.run g = (.ok (r, t), g')) :
    t.statistics = (x.run.run.run ⟨g, s.statistics, 0⟩).2.statistics := by
  have hask : (s.ask x).run.run g =
      let ended := x.run.run.run ⟨g, s.statistics, 0⟩
      (ended.1.map fun answer => (answer, { s with statistics := ended.2.statistics }),
        ended.2.graph) := rfl
  rw [hask] at hrun
  rcases hx : x.run.run.run ⟨g, s.statistics, 0⟩ with ⟨_ | answer, p⟩ <;> rw [hx] at hrun
  · cases hrun
  · cases hrun
    rfl

theorem Asked.balanced {s : Session} (hs : s.Asked) : s.statistics.Balanced := by
  induction hs with
  | reset s => exact Statistics.balanced_zero .backtracking
  | flagged stop _ ih => exact ih
  | @searched s t config e g g' r hinputs hrun =>
    rw [statistics_of_ask hrun]
    exact balanced_bind
      (Backtrack.search_balanced (q := config.query e s.stop) hinputs ⟨g, s.statistics, 0⟩)
      fun r => settles_pure _ r.solution?
  | @leading s t config e leading g g' r _ hinputs hrun ih =>
    rw [statistics_of_ask hrun]
    exact (Backtrack.searchFrom_settles (q := config.query e s.stop) hinputs leading).balanced ih

end Session

/-! ## Rates -/

namespace Statistics

/-- Balanced counters are balanced when they are added. -/
theorem Balanced.addAll {s : Statistics} (hs : s.Balanced) {ts : List Statistics}
    (hts : ∀ t ∈ ts, t.Balanced) : (s.addAll ts).Balanced := by
  induction ts generalizing s with
  | nil => exact hs
  | cons t ts ih =>
    rw [addAll_cons]
    refine ih ?_ fun u hu => hts u (List.mem_cons_of_mem _ hu)
    have ht := hts t List.mem_cons_self
    unfold Balanced at hs ht ⊢
    simp only [Statistics.addAll, List.map_cons, List.map_nil, List.sum_singleton]
    omega

/-- The part of the visits that was left out. -/
theorem Balanced.rate {s : Statistics} (hs : s.Balanced) :
    0 ≤ (s.pruned : ℚ) / s.visited ∧ (s.pruned : ℚ) / s.visited ≤ 1 ∧ s.pruneRate.AtMostOne := by
  have hle : s.pruned ≤ s.visited := Nat.le_trans (Nat.le_add_right ..) hs
  refine ⟨by positivity, div_le_one_of_le₀ (Nat.cast_le.2 hle) (Nat.cast_nonneg _), ?_⟩
  unfold pruneRate
  split
  · decide
  · rename_i hvisited
    exact Double.div_ofNat_atMostOne (Nat.pos_of_ne_zero hvisited) hle

end Statistics

namespace Session

/-- However many questions a session was asked since its counters were reset,
    and however their searches ended, it has left out and checked no more
    assignments than it visited.  A full search that finds nothing and is not
    interrupted visits nine assignments below each one that it expands, and
    nine to begin with.  The counters of several workers are still balanced
    when they are merged, which succeeds where the sums have 64 bits; and with
    balanced counters the prune rate lies between 0 and 1, also after it is
    rounded. -/
theorem counters_balanced :
    (∀ s : Session, s.Asked → s.statistics.Balanced) ∧
    (∀ (q : Backtrack.Query) (p p' : Progress) (r : SearchResult),
      (Backtrack.search q).Runs p r p' → r.solution? = none → r.statistics.interrupted = false →
        (r.statistics.visited : Int) =
          9 * (1 + r.statistics.visited - r.statistics.pruned - r.statistics.exactChecks)) ∧
    (∀ (s : Statistics) (workers : List (Nat × Statistics)), s.Balanced →
      (∀ w ∈ workers, w.2.Balanced) → (s.addAll (workers.map (·.2))).Fits →
        ∃ total, workers.foldlM (fun s w => s.merge w.2) s = .ok total ∧ total.Balanced) ∧
    ∀ s : Statistics, s.Balanced →
      0 ≤ (s.pruned : ℚ) / s.visited ∧ (s.pruned : ℚ) / s.visited ≤ 1 ∧ s.pruneRate.AtMostOne := by
  refine ⟨fun s hs => hs.balanced, fun q p p' r hrun hnone hend => ?_,
    fun s workers hs hworkers hfits => ?_, fun s hs => hs.rate⟩
  · have hnine := Backtrack.search_exhausts hrun hnone hend
    unfold Statistics.expanded at hnine
    omega
  · refine ⟨s.addAll (workers.map (·.2)), ?_, hs.addAll fun t ht => ?_⟩
    · rw [Statistics.foldlM_merge hfits.of_addAll, if_pos hfits]
    · obtain ⟨w, hw, rfl⟩ := List.mem_map.1 ht
      exact hworkers w hw

/-- A remainder of two inputs times the first of them is never 20. -/
def neverTwenty : Backtrack.Query :=
  ⟨.binary 3 false .mul (.binary 2 false .mod (.input 0 0) (.input 1 1)) (.input 0 0), 20, .largest,
    .constant false⟩

/-- The search for it expands one of its 18 visits.  With 2 as the first digit
    it begins at a visit of its own. -/
theorem counters_balanced_neverTwenty :
    let config : SearchConfig := ⟨neverTwenty.target, neverTwenty.direction, .z, .backtracking⟩
    (∃ r t g', (start.searchFrom config neverTwenty.expr [2]).run.run ⟨4, ∅⟩ = (.ok (r, t), g') ∧
      t.statistics.visited = 1 ∧ t.statistics.Balanced) ∧
    (∃ r p', (Backtrack.search neverTwenty).Runs ⟨⟨4, ∅⟩, .zero .backtracking, 0⟩ r p' ∧
      r.statistics.visited = 18 ∧ (r.statistics.visited : Int) =
        9 * (1 + r.statistics.visited - r.statistics.pruned - r.statistics.exactChecks)) ∧
    ∃ total : Statistics,
      [(0, ⟨.backtracking, 0, 18, 17, 0, false⟩), (1, ⟨.backtracking, 0, 9, 3, 6, true⟩)].foldlM
        (fun s w => s.merge w.2) (Statistics.zero .backtracking) = .ok total ∧
      total.Balanced ∧ (total.pruned : ℚ) / total.visited ≤ 1 := by
  intro config
  obtain ⟨hasked, hfull, hmerge, hrate⟩ := counters_balanced
  refine ⟨?_, ?_, ?_⟩
  · have hvisited : ((start.searchFrom config neverTwenty.expr [2]).run.run ⟨4, ∅⟩).1.toOption.map
        (·.2.statistics.visited) = some 1 := by cbv
    rcases hrun : (start.searchFrom config neverTwenty.expr [2]).run.run ⟨4, ∅⟩ with
      ⟨_ | ⟨r, t⟩, g'⟩ <;> rw [hrun] at hvisited
    · cases hvisited
    · have hinputs : neverTwenty.expr.inputIndices = [0, 1] := by cbv
      refine ⟨r, t, g', rfl, Option.some.inj hvisited, hasked t ?_⟩
      exact .leading (.reset start) (hinputs ▸ List.cons_ne_nil 0 [1]) hrun
  · have hended : (((Backtrack.search neverTwenty).run.run.run
        ⟨⟨4, ∅⟩, .zero .backtracking, 0⟩).1.toOption.bind Except.toOption).map
          (fun r => (r.solution?.isNone, r.statistics.interrupted, r.statistics.visited)) =
        some (true, false, 18) := by cbv
    rcases hrun : (Backtrack.search neverTwenty).run.run.run ⟨⟨4, ∅⟩, .zero .backtracking, 0⟩ with
      ⟨_ | _ | r, p'⟩ <;> rw [hrun] at hended
    · cases hended
    · cases hended
    · obtain ⟨hnone, hend, hvisited⟩ : r.solution?.isNone = true ∧
          r.statistics.interrupted = false ∧ r.statistics.visited = 18 := by
        simpa only [Prod.mk.injEq] using Option.some.inj hended
      exact ⟨r, p', hrun, hvisited, hfull _ _ _ _ hrun (Option.isNone_iff_eq_none.1 hnone) hend⟩
  · obtain ⟨total, htotal, hbalanced⟩ := hmerge (.zero .backtracking)
      [(0, ⟨.backtracking, 0, 18, 17, 0, false⟩), (1, ⟨.backtracking, 0, 9, 3, 6, true⟩)]
      (Statistics.balanced_zero _) (by simp [Statistics.Balanced]) (by decide)
    exact ⟨total, htotal, hbalanced, (hrate total hbalanced).2.1⟩

end Session

end InputSolver
