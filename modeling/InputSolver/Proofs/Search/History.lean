/-
  InputSolver — requests and searches in any order.

  A graph is `Used` if requests and searches left it: new nodes,
  simplifications and searches, about nodes of earlier answers, in any order.
  Some of them may have ended in a fault.

  * `Used.canonical`: such a graph is canonical, for a heap that holds every
    answer;
  * `Used.unobservable`: a simplification gives what it gives on the tree alone,
    and a search ends as it does in any other used graph.
-/
import InputSolver.Proofs.Normal.History
import InputSolver.Proofs.Search.Memory
import InputSolver.Search.Run

namespace InputSolver

open InputSolver.Expr GraphM

variable {h k : Heap} {g g' : Graph}

/-! ## Requests -/

namespace GraphM

/-- Making something without a fault. -/
theorem gives_made {α : Type} {x : Build α} {P : Heap → α → Prop} (hx : x.Meets h True P) :
    (build x).Gives h (.ok ()) fun k a _ => P k a := by
  intro g hg
  obtain ⟨a, next, hrun⟩ := hx.ok trivial
  obtain ⟨k, hle, rfl, ha⟩ := hx.post hrun
  rw [run_build, hg.next, hrun]
  exact ⟨k, hle, hg.extend hle, a, rfl, ha⟩

end GraphM

/-- On a canonical graph a request leaves one, and the settled nodes of its
    answer are normal. -/
theorem Request.answer_keeps (q : Request) (hq : ∀ e ∈ q.subjects, h.Holds e ∧ e.Marked)
    (hg : g.Canonical h) :
    ∃ k, h ≤ k ∧ (q.answer.run.run g).2.Canonical k ∧
      ∀ e, (q.answer.run.run g).1 = .ok e → k.Holds e ∧ e.Marked := by
  have made {x : Build Expr} (hx : x.Meets h True fun k e => k.Holds e ∧ e.Marked) :
      ∃ k, h ≤ k ∧ ((build x).run.run g).2.Canonical k ∧
        ∀ e, ((build x).run.run g).1 = .ok e → k.Holds e ∧ e.Marked := by
    obtain ⟨k, hle, hk, hpost⟩ := (gives_made hx).post hg
    exact ⟨k, hle, hk, fun e he => (hpost e he).elim fun _ hkept => hkept⟩
  cases q with
  | literal value => exact made (Build.meets_literal fun _ _ _ hid => ⟨hid, trivial⟩)
  | input index =>
    exact made ((Build.meets_identity (h.holds_push_input index)).bind
      fun _ _ _ hid => Build.meets_pure ⟨hid, trivial⟩)
  | binary op l r =>
    obtain ⟨hl, hlm⟩ := hq l List.mem_cons_self
    obtain ⟨hr, hrm⟩ := hq r (List.mem_cons_of_mem _ List.mem_cons_self)
    exact made ((Build.meets_identity (h.holds_push_binary hl hr false op)).bind
      fun _ _ _ hid => Build.meets_pure ⟨hid, nofun, hlm, hrm⟩)
  | simplify p e =>
    obtain ⟨he, hm⟩ := hq e List.mem_cons_self
    obtain ⟨k, hle, hk, hpost⟩ := (simplify_gives (p := p) he hm).post hg
    refine ⟨k, hle, hk, fun s hs => ?_⟩
    obtain ⟨_, hs, -⟩ := hpost s hs
    exact ⟨hs.holds, marked_of_normal hs.tree⟩

/-! ## Searches -/

section Runs

open SearchM

variable {α : Type} {x y : SearchM α}

theorem SearchM.Ends.eq {r r' : Except Fault (Except EvalError α)}
    (hr : Ends (fun a b => a = b) r r') : r = r' := by
  cases hr with
  | fault | failed => rfl
  | answer hab => rw [hab]

/-- Searches that agree, run with the same counters on canonical graphs. -/
theorem SearchM.Agree.run (hxy : x.Agree .same h y k fun _ a _ b => a = b) (hg : g.Canonical h)
    (hg' : g'.Canonical k) (s : Statistics) :
    (x.run.run.run ⟨g, s, 0⟩).1 = (y.run.run.run ⟨g', s, 0⟩).1 ∧
      (x.run.run.run ⟨g, s, 0⟩).2.statistics = (y.run.run.run ⟨g', s, 0⟩).2.statistics ∧
      ∃ h', h ≤ h' ∧ (x.run.run.run ⟨g, s, 0⟩).2.graph.Canonical h' := by
  obtain ⟨h', k', hle, -, hp, hends⟩ := hxy ⟨g, s, 0⟩ ⟨g', s, 0⟩ ⟨hg, hg', rfl, rfl⟩
  exact ⟨hends.eq, hp.counters, h', hle, hp.left⟩

/-- In a search run from fresh counters this shows in nothing but the graph. -/
theorem runSearch_eq (hxy : x.Agree .same h y k fun _ a _ b => a = b) (hg : g.Canonical h)
    (hg' : g'.Canonical k) :
    ((runSearch x).run.run g).1 = ((runSearch y).run.run g').1 ∧
      ∃ h', h ≤ h' ∧ ((runSearch x).run.run g).2.Canonical h' := by
  obtain ⟨hresult, -, hgraph⟩ := hxy.run hg hg' (.zero .backtracking)
  exact ⟨hresult, hgraph⟩

/-- So it is with a question to a session. -/
theorem Session.ask_eq (hxy : x.Agree .same h y k fun _ a _ b => a = b) (hg : g.Canonical h)
    (hg' : g'.Canonical k) (s : Session) :
    ((s.ask x).run.run g).1 = ((s.ask y).run.run g').1 ∧
      ∃ h', h ≤ h' ∧ ((s.ask x).run.run g).2.Canonical h' := by
  obtain ⟨hresult, hstatistics, hgraph⟩ := hxy.run hg hg' s.statistics
  refine ⟨?_, hgraph⟩
  have hask (x : SearchM α) (g : Graph) : ((s.ask x).run.run g).1 =
      (x.run.run.run ⟨g, s.statistics, 0⟩).1.map fun answer => (answer,
        { s with statistics := (x.run.run.run ⟨g, s.statistics, 0⟩).2.statistics }) := rfl
  rw [hask, hask, hresult, hstatistics]

variable {e e' : Expr}

theorem SearchConfig.query_mirrors (config : SearchConfig) (stop : StopFlag)
    (he : Mirrors h e k e') : (config.query e stop).Mirrors .same h k (config.query e' stop) :=
  ⟨he, rfl, rfl, fun _ _ hij => congrArg stop hij⟩

theorem SearchConfig.search_agree (config : SearchConfig) (he : Mirrors h e k e') :
    (config.search e).Agree .same h (config.search e') k fun _ r _ r' => r = r' := by
  have hq := config.query_mirrors (.constant false) he
  unfold SearchConfig.search
  cases config.algorithm with
  | backtracking => exact Backtrack.search_agree hq
  | exhaustive => exact Exhaustive.enumeration_agree hq

end Runs

/-- Searches that may be made in a graph: of the configured algorithm, or of a
    session, with or without leading digits. -/
inductive Question where
  | configured (config : SearchConfig)
  | session (s : Session) (config : SearchConfig)
  | leading (s : Session) (config : SearchConfig) (digits : List Word)

namespace Question

/-- What a search answers: a solution with its statistics, or the session
    afterwards. -/
inductive Answer where
  | result (r : Except EvalError SearchResult)
  | session (r : Except EvalError (Option Solution)) (s : Session)

/-- Makes the search for an expression. -/
def ask (e : Expr) : Question → GraphM Answer
  | configured config => do
    let r ← runSearch (config.search e)
    return .result r
  | session s config => do
    let r ← s.search config e
    return .session r.1 r.2
  | leading s config digits => do
    let r ← s.searchFrom config e digits
    return .session r.1 r.2

/-- A search ends alike in every canonical graph, on every copy. -/
theorem ask_eq (q : Question) {e e' : Expr} (he : Mirrors h e k e') (hg : g.Canonical h)
    (hg' : g'.Canonical k) :
    ((q.ask e).run.run g).1 = ((q.ask e').run.run g').1 ∧
      ∃ h', h ≤ h' ∧ ((q.ask e).run.run g).2.Canonical h' := by
  have answered {α : Type} {x y : GraphM α} (f : α → Answer)
      (hxy : (x.run.run g).1 = (y.run.run g').1 ∧ ∃ h', h ≤ h' ∧ (x.run.run g).2.Canonical h') :
      ((x >>= fun a => pure (f a)).run.run g).1 = ((y >>= fun a => pure (f a)).run.run g').1 ∧
        ∃ h', h ≤ h' ∧ ((x >>= fun a => pure (f a)).run.run g).2.Canonical h' := by
    have hrun (x : GraphM α) (g : Graph) : (x >>= fun a => pure (f a)).run.run g =
        ((x.run.run g).1.map f, (x.run.run g).2) := by
      rw [run_bind]
      rcases x.run.run g with ⟨_ | _, _⟩ <;> rfl
    rw [hrun, hrun, hxy.1]
    exact ⟨rfl, hxy.2⟩
  cases q with
  | configured config =>
    exact answered _ (runSearch_eq (config.search_agree he) hg hg')
  | session s config =>
    have hq := config.query_mirrors s.stop he
    exact answered _ (Session.ask_eq ((Backtrack.search_agree hq).bind
      fun _ _ _ _ _ _ hr => SearchM.agree_pure (congrArg _ hr)) hg hg' s)
  | leading s config digits =>
    have hq := config.query_mirrors s.stop he
    exact answered _ (Session.ask_eq
      (Backtrack.searchFrom_agree SearchM.Lockstep.kept_same hq digits) hg hg' s)

end Question

/-! ## Any order -/

/-- The graphs that requests and searches leave, with the answers to the
    requests. -/
inductive Graph.Used : Graph → List Expr → Prop where
  | empty : Used .empty []
  | answered {g g' : Graph} {answers : List Expr} {e : Expr} (q : Request) : Used g answers →
      (∀ f ∈ q.subjects, Known answers f) → q.answer.run.run g = (.ok e, g') →
      Used g' (e :: answers)
  | failed {g g' : Graph} {answers : List Expr} {fault : Fault} (q : Request) : Used g answers →
      (∀ f ∈ q.subjects, Known answers f) → q.answer.run.run g = (.error fault, g') →
      Used g' answers
  | searched {g : Graph} {answers : List Expr} {e : Expr} (q : Question) : Used g answers →
      Known answers e → Used ((q.ask e).run.run g).2 answers

/-- Requests alone are no searches. -/
theorem Graph.Reachable.used {answers : List Expr} (hg : g.Reachable answers) : g.Used answers := by
  induction hg with
  | empty => exact .empty
  | answered q _ hq hrun ih => exact .answered q ih hq hrun
  | failed q _ hq hrun ih => exact .failed q ih hq hrun

namespace Graph.Used

variable {answers : List Expr}

/-- One heap explains the graph and all answers. -/
theorem canonical (hg : g.Used answers) :
    ∃ h, g.Canonical h ∧ ∀ e, Known answers e → h.Holds e ∧ e.Marked := by
  induction hg with
  | empty => exact ⟨Heap.empty, Graph.canonical_empty, fun _ h => nomatch h⟩
  | @answered g g' answers e q _ hq hrun ih =>
    obtain ⟨h, hg, hknown⟩ := ih
    obtain ⟨k, hle, hk, hanswer⟩ := q.answer_keeps (fun f hf => hknown f (hq f hf)) hg
    rw [hrun] at hk hanswer
    obtain ⟨he, hmarked⟩ := hanswer e rfl
    refine ⟨k, hk, ?_⟩
    rintro n ⟨f, hf, hn⟩
    rcases List.mem_cons.1 hf with rfl | hf
    · exact ⟨he.of_mem fun m hm => mem_nodes_trans hm hn, hmarked.of_mem hn⟩
    · exact (hknown n ⟨f, hf, hn⟩).imp_left (·.mono hle)
  | @failed g g' answers fault q _ hq hrun ih =>
    obtain ⟨h, hg, hknown⟩ := ih
    obtain ⟨k, hle, hk, -⟩ := q.answer_keeps (fun f hf => hknown f (hq f hf)) hg
    rw [hrun] at hk
    exact ⟨k, hk, fun n hn => (hknown n hn).imp_left (·.mono hle)⟩
  | @searched g answers e q _ he ih =>
    obtain ⟨h, hg, hknown⟩ := ih
    obtain ⟨hholds, hmarked⟩ := hknown e he
    obtain ⟨-, k, hle, hk⟩ := q.ask_eq ⟨⟨hholds, hholds, rfl⟩, hmarked, hmarked⟩ hg hg
    exact ⟨k, hk, fun n hn => (hknown n hn).imp_left (·.mono hle)⟩

/-- What a graph remembers of earlier requests and searches cannot be observed.
    An expression is simplified as its tree is without a memory, to a tree or a
    fault, and a search ends with the same answer and the same statistics in
    any other graph, on any expression of the same tree. -/
theorem unobservable {e : Expr} (hg : g.Used answers) (he : Known answers e) :
    (∀ p, ((simplify p e).run.run g).1.map Expr.tree = e.tree.simplified p) ∧
      ∀ {g' : Graph} {answers' : List Expr} {e' : Expr}, g'.Used answers' → Known answers' e' →
        e.tree = e'.tree → ∀ q : Question, ((q.ask e).run.run g).1 = ((q.ask e').run.run g').1 := by
  obtain ⟨h, hcanonical, hknown⟩ := hg.canonical
  obtain ⟨hholds, hmarked⟩ := hknown e he
  refine ⟨fun p => ?_, fun {g' answers' e'} hg' he' htree q => ?_⟩
  · obtain ⟨k, -, -, ho⟩ := simplify_gives (p := p) hholds hmarked g hcanonical
    cases hsimplified : e.tree.simplified p with
    | error fault =>
      rw [hsimplified] at ho
      rw [ho]
      rfl
    | ok t =>
      rw [hsimplified] at ho
      obtain ⟨s, hs, -, ht⟩ := ho
      rw [hs, ← ht]
      rfl
  · obtain ⟨k, hcanonical', hknown'⟩ := hg'.canonical
    obtain ⟨hholds', hmarked'⟩ := hknown' e' he'
    exact (q.ask_eq ⟨⟨hholds, hholds', htree⟩, hmarked, hmarked'⟩ hcanonical hcanonical').1

/-- In the example graph after a search: what is simplified is simplified as
    before, and the search repeated ends as it did the first time. -/
theorem unobservable_leadingInput :
    ∃ answers, Graph.Used ⟨6, ∅⟩ answers ∧ Known answers Graph.Reachable.leadingInput ∧
      ∀ q : Question,
        let g := ((q.ask Graph.Reachable.leadingInput).run.run ⟨6, ∅⟩).2
        (∀ p, ((simplify p Graph.Reachable.leadingInput).run.run g).1.map Expr.tree =
            Graph.Reachable.leadingInput.tree.simplified p) ∧
          ((q.ask Graph.Reachable.leadingInput).run.run g).1 =
            ((q.ask Graph.Reachable.leadingInput).run.run ⟨6, ∅⟩).1 := by
  obtain ⟨answers, hg, he⟩ := Graph.Reachable.reachable_leadingInput
  refine ⟨answers, hg.used, he, fun q => ?_⟩
  obtain ⟨hsimplified, hsearch⟩ := unobservable (.searched q hg.used he) he
  exact ⟨hsimplified, hsearch hg.used he rfl q⟩

end Graph.Used

end InputSolver
