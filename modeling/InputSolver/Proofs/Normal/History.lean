/-
  InputSolver — simplification after any requests.

  A graph is `Reachable` if requests made it from the empty one: new nodes and
  simplifications, of nodes of earlier answers, in any order.  Some of them may
  have ended in a fault.

  * `Reachable.sound`: there is a heap for which the graph is sound and which
    holds every answer;
  * `simplify_sound`: in such a graph a bounded expression is simplified
    without a fault, and keeps its value under all digits that extend the
    assignment.
-/
import InputSolver.Proofs.Normal.Graph

namespace InputSolver

open InputSolver.Expr GraphM

/-! ## Requests -/

/-- What is asked of a graph: a new node, or a simplification. -/
inductive Request where
  | literal (value : Word)
  | input (index : Nat)
  | binary (op : Operator) (l r : Expr)
  | simplify (p : Assignment) (e : Expr)

namespace Request

/-- The expressions that a request is about. -/
def subjects : Request → List Expr
  | literal _ | input _ => []
  | binary _ l r => [l, r]
  | simplify _ e => [e]

/-- Carries out a request. -/
def answer : Request → GraphM Expr
  | literal value => build (Build.literal value)
  | input index => build (Build.input index)
  | binary op l r => build (Build.binary op l r)
  | simplify p e => GraphM.simplify p e

/-- Whatever is asked, the answer is an expression of the heap. -/
theorem answer_meets (q : Request) {h : Heap} (hq : ∀ e ∈ q.subjects, h.Holds e) :
    q.answer.Meets h False fun k e => k.Holds e := by
  cases q with
  | literal value => exact meets_build (Build.meets_literal fun _ _ _ hid => hid)
  | input index =>
    exact meets_build ((Build.meets_identity (Q := fun k id => k.Holds (.input id index))
      (h.holds_push_input index)).bind fun _ _ _ hk => Build.meets_pure hk)
  | binary op l r =>
    exact meets_build ((Build.meets_identity (Q := fun k id => k.Holds (.binary id false op l r))
      (h.holds_push_binary (hq l List.mem_cons_self)
        (hq r (List.mem_cons_of_mem _ List.mem_cons_self)) false op)).bind
      fun _ _ _ hk => Build.meets_pure hk)
  | simplify p e =>
    exact (simplify_meets (hq e List.mem_cons_self)).imp False.elim fun _ _ _ hs => hs.holds

end Request

/-- A node of one of the answers so far. -/
def Known (answers : List Expr) (e : Expr) : Prop := ∃ f ∈ answers, e ∈ f.nodes

/-- The graphs that requests make, with the answers to these.  A request that
    ends in a fault has no answer. -/
inductive Graph.Reachable : Graph → List Expr → Prop where
  | empty : Reachable .empty []
  | answered {g g' : Graph} {answers : List Expr} {e : Expr} (q : Request) : Reachable g answers →
      (∀ f ∈ q.subjects, Known answers f) → q.answer.run.run g = (.ok e, g') →
      Reachable g' (e :: answers)
  | failed {g g' : Graph} {answers : List Expr} {fault : Fault} (q : Request) :
      Reachable g answers → (∀ f ∈ q.subjects, Known answers f) →
      q.answer.run.run g = (.error fault, g') → Reachable g' answers

namespace Graph.Reachable

variable {g : Graph} {answers : List Expr}

/-- One heap explains the graph and all answers. -/
theorem sound (hg : g.Reachable answers) : ∃ h, g.Sound h ∧ ∀ e, Known answers e → h.Holds e := by
  induction hg with
  | empty => exact ⟨.empty, sound_empty, nofun⟩
  | @answered g g' answers e q _ hq hrun ih =>
    obtain ⟨h, hg, hknown⟩ := ih
    obtain ⟨k, hle, hk, hanswer, -⟩ := q.answer_meets (fun f hf => hknown f (hq f hf)) g hg
    rw [hrun] at hk hanswer
    refine ⟨k, hk, ?_⟩
    rintro n ⟨f, hf, hn⟩
    rcases List.mem_cons.1 hf with rfl | hf
    · exact (hanswer f rfl).of_mem fun m hm => mem_nodes_trans hm hn
    · exact (hknown n ⟨f, hf, hn⟩).mono hle
  | @failed g g' answers fault q _ hq hrun ih =>
    obtain ⟨h, hg, hknown⟩ := ih
    obtain ⟨k, hle, hk, -⟩ := q.answer_meets (fun f hf => hknown f (hq f hf)) g hg
    rw [hrun] at hk
    exact ⟨k, hk, fun n hn => (hknown n hn).mono hle⟩

/-- `(i0 * 26 + i1) / 26`, in a graph without any normal forms. -/
def leadingInput : Expr :=
  .binary 5 false .div (.binary 4 false .add (.binary 2 false .mul (.input 0 0) (.literal 1 26))
    (.input 3 1)) (.literal 1 26)

theorem reachable_leadingInput :
    ∃ answers, Graph.Reachable ⟨6, ∅⟩ answers ∧ Known answers leadingInput := by
  have h₀ : Graph.Reachable ⟨1, ∅⟩ [.input 0 0] :=
    Reachable.empty.answered (.input 0) (by simp [Request.subjects]) rfl
  have h₁ : Graph.Reachable ⟨2, ∅⟩ [.literal 1 26, .input 0 0] :=
    h₀.answered (.literal 26) (by simp [Request.subjects]) rfl
  have h₂ := h₁.answered (.binary .mul (.input 0 0) (.literal 1 26))
    (by simp [Request.subjects, Known, nodes]) rfl
  have h₃ := h₂.answered (.input 1) (by simp [Request.subjects]) rfl
  have h₄ := h₃.answered (.binary .add (.binary 2 false .mul (.input 0 0) (.literal 1 26))
    (.input 3 1)) (by simp [Request.subjects, Known, nodes]) rfl
  have h₅ := h₄.answered (.binary .div leadingInput.operands[0] (.literal 1 26))
    (by simp [Request.subjects, Known, nodes, leadingInput, operands]) rfl
  exact ⟨_, h₅, leadingInput, List.mem_cons_self, self_mem_nodes _⟩

theorem evaluate_leadingInput : leadingInput.evaluate (.ofDigits [3, 7]) = .ok 3 := by
  obtain ⟨answers, hg, hknown⟩ := reachable_leadingInput
  obtain ⟨h, -, hholds⟩ := hg.sound
  rw [evaluate_eq_valueOn (hholds _ hknown)]
  rfl

/-- A bounded expression is simplified without a fault, and what is left has
    every value of the expression over digits that extend the assignment. -/
theorem simplify_sound (hg : g.Reachable answers) {e : Expr} (he : Known answers e)
    (hb : e.Bounded) {p : Assignment} (hp : p.Digits) :
    ∃ s g', (GraphM.simplify p e).run.run g = (.ok s, g') ∧
      ∀ a v, a.Digits → p.ExtendedBy a → e.evaluate a = .ok v → s.evaluate a = .ok v := by
  obtain ⟨h, hsound, hknown⟩ := hg.sound
  have hholds := hknown e he
  obtain ⟨k, -, -, hleft, hok⟩ := simplify_meets (p := p) hholds g hsound
  obtain ⟨s, hs⟩ := hok ⟨hb, hp⟩
  refine ⟨s, ((GraphM.simplify p e).run.run g).2, Prod.ext hs rfl, fun a v ha hext hv => ?_⟩
  have hs := hleft s hs
  rw [evaluate_eq_valueOn hholds] at hv
  rw [evaluate_eq_valueOn hs.holds]
  exact hs.value ⟨hb, hp⟩ a v ha ⟨hext, hv⟩

theorem simplify_sound_leadingInput :
    ∃ s g', (GraphM.simplify (.ofDigits [3]) leadingInput).run.run ⟨6, ∅⟩ = (.ok s, g') ∧
      s.evaluate (.ofDigits [3, 7]) = .ok 3 := by
  obtain ⟨answers, hg, hknown⟩ := reachable_leadingInput
  obtain ⟨s, g', hrun, hvalue⟩ := simplify_sound hg hknown (by decide) (p := .ofDigits [3])
    (by decide)
  exact ⟨s, g', hrun, hvalue (.ofDigits [3, 7]) 3 (by decide) (by decide)
    evaluate_leadingInput⟩

end Graph.Reachable

end InputSolver
