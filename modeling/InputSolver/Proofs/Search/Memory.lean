/-
  InputSolver — searches do not see what a graph remembers.

  Two searches `Agree` if, started on canonical graphs, they fault alike, fail
  alike or answer alike.  They may have to count alike for that (`Lockstep.same`),
  or may have counted anything before (`Lockstep.free`).

  * `searchFrom_agree`, `search_agree`: the pruned search on copies of an
    expression;
  * `enumeration_agree`: the enumeration on copies of an expression.
-/
import InputSolver.Proofs.Normal.Memory
import InputSolver.Proofs.Search.Exhaustive
import InputSolver.Proofs.Expr.Unfolding

namespace InputSolver

open InputSolver.Expr

/-! ## Copies with settled nodes -/

/-- Copies of an expression, the settled nodes of both in normal form. -/
structure Mirrors (h : Heap) (e : Expr) (k : Heap) (e' : Expr) : Prop extends
    Copies h e k e' where
  marked : e.Marked
  marked' : e'.Marked

variable {h k h' k' : Heap} {e e' : Expr}

theorem Mirrors.mono (he : Mirrors h e k e') (hle : h ≤ h') (hle' : k ≤ k') :
    Mirrors h' e k' e' := ⟨he.toCopies.mono hle hle', he.marked, he.marked'⟩

theorem mirrors_of_is {t : Tree} (he : GraphM.Is h e t) (he' : GraphM.Is k e' t) :
    Mirrors h e k e' :=
  ⟨⟨he.1.holds, he'.1.holds, he.2.trans he'.2.symm⟩, marked_of_normal he.1.tree,
    marked_of_normal he'.1.tree⟩

/-! ## Searches that agree -/

namespace SearchM

variable {α β γ δ : Type}

/-- How the counters of two searches are related, and how often they have read
    their stop flags. -/
structure Lockstep where
  counters : Statistics → Statistics → Prop
  readings : Nat → Nat → Prop

namespace Lockstep

/-- Searches that count alike. -/
def same : Lockstep := ⟨Eq, Eq⟩

/-- Searches that may have counted anything. -/
def free : Lockstep := ⟨fun _ _ => True, fun _ _ => True⟩

/-- What a search counts does not change the relation. -/
structure Kept (L : Lockstep) : Prop where
  visit {s t : Statistics} : L.counters s t →
    L.counters { s with visited := s.visited + 1 } { t with visited := t.visited + 1 }
  prune {s t : Statistics} : L.counters s t →
    L.counters { s with pruned := s.pruned + 1 } { t with pruned := t.pruned + 1 }
  check {s t : Statistics} : L.counters s t →
    L.counters { s with exactChecks := s.exactChecks + 1 }
      { t with exactChecks := t.exactChecks + 1 }
  interrupt {s t : Statistics} : L.counters s t →
    L.counters { s with interrupted := true } { t with interrupted := true }
  read {i j : Nat} : L.readings i j → L.readings (i + 1) (j + 1)

theorem kept_same : same.Kept :=
  ⟨fun h => h ▸ rfl, fun h => h ▸ rfl, fun h => h ▸ rfl, fun h => h ▸ rfl, fun h => h ▸ rfl⟩

theorem kept_free : free.Kept :=
  ⟨fun h => h, fun h => h, fun h => h, fun h => h, fun h => h⟩

end Lockstep

/-- Searches on canonical graphs, in lockstep. -/
structure Beside (L : Lockstep) (h k : Heap) (p p' : Progress) : Prop where
  left : p.graph.Canonical h
  right : p'.graph.Canonical k
  counters : L.counters p.statistics p'.statistics
  readings : L.readings p.readings p'.readings

/-- Two ends with the same fault, the same error or related answers. -/
inductive Ends (R : α → β → Prop) : Except Fault (Except EvalError α) →
    Except Fault (Except EvalError β) → Prop
  | fault (f : Fault) : Ends R (.error f) (.error f)
  | failed (e : EvalError) : Ends R (.ok (.error e)) (.ok (.error e))
  | answer {a : α} {b : β} (related : R a b) : Ends R (.ok (.ok a)) (.ok (.ok b))

/-- On graphs that are canonical for `h` and `k` the computations end alike, on
    graphs that are canonical for larger heaps. -/
def Agree (L : Lockstep) (x : SearchM α) (h : Heap) (y : SearchM β)
    (k : Heap) (R : Heap → α → Heap → β → Prop) : Prop :=
  ∀ p p', Beside L h k p p' → ∃ h' k', h ≤ h' ∧ k ≤ k' ∧
    Beside L h' k' (x.run.run.run p).2 (y.run.run.run p').2 ∧
    Ends (R h' · k' ·) (x.run.run.run p).1 (y.run.run.run p').1

variable {L : Lockstep} {x : SearchM α} {y : SearchM β}
  {f : α → SearchM γ} {g : β → SearchM δ} {R : Heap → α → Heap → β → Prop}
  {T : Heap → γ → Heap → δ → Prop}

theorem Agree.bind (hxy : x.Agree L h y k R) (hfg : ∀ h' a k' b, h ≤ h' → k ≤ k' → R h' a k' b →
    (f a).Agree L h' (g b) k' T) : (x >>= f).Agree L h (y >>= g) k T := by
  intro p p' hp
  obtain ⟨h₁, k₁, hle, hle', hp₁, hends⟩ := hxy p p' hp
  rw [run_bind, run_bind]
  rcases hx : x.run.run.run p with ⟨rx, px⟩
  rcases hy : y.run.run.run p' with ⟨ry, py⟩
  rw [hx, hy] at hp₁ hends
  cases hends with
  | fault => exact ⟨h₁, k₁, hle, hle', hp₁, .fault _⟩
  | failed => exact ⟨h₁, k₁, hle, hle', hp₁, .failed _⟩
  | answer hab =>
    obtain ⟨h₂, k₂, hle₂, hle₂', hp₂, hends₂⟩ := hfg h₁ _ k₁ _ hle hle' hab px py hp₁
    exact ⟨h₂, k₂, Heap.le_trans hle hle₂, Heap.le_trans hle' hle₂', hp₂, hends₂⟩

theorem agree_pure {a : α} {b : β} (hab : R h a k b) :
    (pure a : SearchM α).Agree L h (pure b) k R :=
  fun _ _ hp => ⟨h, k, h.le_refl, k.le_refl, hp, .answer hab⟩

theorem agree_throw (e : EvalError) : (throw e : SearchM α).Agree L h (throw e : SearchM β) k R :=
  fun _ _ hp => ⟨h, k, h.le_refl, k.le_refl, hp, .failed e⟩

/-- Counting something. -/
theorem Agree.count_bind {m : Statistics → Statistics} {x : SearchM γ} {y : SearchM δ}
    (hm : ∀ {s t}, L.counters s t → L.counters (m s) (m t)) (hxy : x.Agree L h y k T) :
    (do count m; x).Agree L h (do count m; y) k T :=
  fun _ _ hp => hxy _ _ ⟨hp.left, hp.right, hm hp.counters, hp.readings⟩

/-- Reading stop flags that say the same. -/
theorem Agree.readFlag_bind {stop stop' : StopFlag} {f : Bool → SearchM γ} {g : Bool → SearchM δ}
    (hL : L.Kept) (hstop : ∀ i j, L.readings i j → stop i = stop' j)
    (hfg : ∀ b, (f b).Agree L h (g b) k T) :
    (readFlag stop >>= f).Agree L h (readFlag stop' >>= g) k T := by
  intro p p' hp
  have hrun := hfg (stop p.readings) { p with readings := p.readings + 1 }
    { p' with readings := p'.readings + 1 }
    ⟨hp.left, hp.right, hp.counters, hL.read hp.readings⟩
  have hreading := hstop _ _ hp.readings
  change ∃ h' k', _ ∧ _ ∧ Beside L h' k' ((f (stop p.readings)).run.run.run _).2
    ((g (stop' p'.readings)).run.run.run _).2 ∧ Ends _ ((f (stop p.readings)).run.run.run _).1
    ((g (stop' p'.readings)).run.run.run _).1
  rw [← hreading]
  exact hrun

/-- Reading the counters. -/
theorem Agree.get_bind {f : Progress → SearchM γ} {g : Progress → SearchM δ}
    (hfg : ∀ p p', L.counters p.statistics p'.statistics → (f p).Agree L h (g p') k T) :
    (get >>= f).Agree L h (get >>= g) k T :=
  fun p p' hp => hfg p p' hp.counters p p' hp

/-- Computations that make no nodes and have one outcome. -/
theorem Agree.faulty_bind {x y : Except Fault α} {f : α → SearchM γ} {g : α → SearchM δ}
    (hxy : x = y) (hfg : ∀ a, (f a).Agree L h (g a) k T) :
    (faulty x >>= f).Agree L h (faulty y >>= g) k T := by
  subst hxy
  cases x with
  | error fault => exact fun _ _ hp => ⟨h, k, h.le_refl, k.le_refl, hp, .fault fault⟩
  | ok a => exact hfg a

theorem run_onGraph (x : GraphM α) (p : Progress) :
    (onGraph x).run.run.run p =
      ((x.run.run p.graph).1.map .ok, { p with graph := (x.run.run p.graph).2 }) := by
  rcases hx : x.run.run p.graph with ⟨result, g⟩
  have hxg : x p.graph = (result, g) := hx
  simp only [onGraph, ExceptT.lift, ExceptT.run, ExceptT.mk, Functor.map, ExceptT.map, StateT.run,
    bind, StateT.bind, hxg]
  cases result <;> rfl

/-- Computations on canonical graphs with one outcome. -/
theorem agree_onGraph {τ : Type} {x : GraphM α} {y : GraphM β} {o : Except Fault τ}
    {R : Heap → α → τ → Prop} {T : Heap → β → τ → Prop} (hx : x.Gives h o R)
    (hy : y.Gives k o T) :
    (onGraph x).Agree L h (onGraph y) k fun h a k b => ∃ t, R h a t ∧ T k b t := by
  intro p p' hp
  obtain ⟨h', hle, hg, ho⟩ := hx p.graph hp.left
  obtain ⟨k', hle', hg', ho'⟩ := hy p'.graph hp.right
  refine ⟨h', k', hle, hle', ?_⟩
  rw [run_onGraph, run_onGraph]
  refine ⟨⟨hg, hg', hp.counters, hp.readings⟩, ?_⟩
  cases o with
  | error fault =>
    rw [ho, ho']
    exact .fault fault
  | ok t =>
    obtain ⟨a, ha, hat⟩ := ho
    obtain ⟨b, hb, hbt⟩ := ho'
    rw [ha, hb]
    exact .answer ⟨t, hat, hbt⟩

end SearchM

/-! ## The pruned search -/

namespace Backtrack

open SearchM

/-- One question about two copies of an expression, with stop flags that say
    the same. -/
structure Query.Mirrors (L : Lockstep) (h : Heap) (q : Query) (k : Heap) (q' : Query) : Prop where
  expr : InputSolver.Mirrors h q.expr k q'.expr
  target : q.target = q'.target
  direction : q.direction = q'.direction
  stop : ∀ i j, L.readings i j → q.stop i = q'.stop j

variable {q q' : Query} {L : Lockstep} {current current' : Expr}

theorem Query.Mirrors.mono (hq : q.Mirrors L h k q') (hle : h ≤ h') (hle' : k ≤ k') :
    q.Mirrors L h' k' q' := ⟨hq.expr.mono hle hle', hq.target, hq.direction, hq.stop⟩

theorem exactCheck_agree (hL : L.Kept) (hq : q.Mirrors L h k q') (a : Assignment) :
    (exactCheck q a).Agree L h (exactCheck q' a) k fun _ r _ r' => r = r' := by
  refine Agree.count_bind hL.check ?_
  rw [hq.expr.evaluate_eq, hq.target]
  split
  · split
    · exact agree_pure rfl
    · exact agree_pure rfl
  · exact agree_pure rfl
  · exact agree_throw _

theorem narrowed?_agree (hL : L.Kept) (hq : q.Mirrors L h k q')
    (hc : InputSolver.Mirrors h current k current') (a : Assignment) :
    (narrowed? q current a).Agree L h (narrowed? q' current' a) k
      fun h s? k s'? => Option.Rel (InputSolver.Mirrors h · k ·) s? s'? := by
  refine Agree.count_bind hL.visit ?_
  have hsimplified := GraphM.simplify_gives (p := a) hc.right hc.marked'
  rw [← hc.tree] at hsimplified
  refine (agree_onGraph (GraphM.simplify_gives hc.left hc.marked) hsimplified).bind
    fun h₁ s k₁ s' _ _ hs => ?_
  obtain ⟨t, hs, hs'⟩ := hs
  have hmirrors := mirrors_of_is hs hs'
  refine Agree.faulty_bind hmirrors.range_eq fun range => ?_
  rw [hq.target]
  split
  · exact agree_pure (.some hmirrors)
  · exact Agree.count_bind hL.prune (agree_pure .none)

/-- The digits for one input are tried in turn. -/
theorem tryDigits_agree (hL : L.Kept) (hq : q.Mirrors L h k q')
    (hc : InputSolver.Mirrors h current k current')
    {below below' : Expr → Assignment → SearchM (Option Assignment)}
    (hbelow : ∀ h' s k' s' a, h ≤ h' → k ≤ k' → InputSolver.Mirrors h' s k' s' →
      (below s a).Agree L h' (below' s' a) k' fun _ r _ r' => r = r')
    (i : Nat) (a : Assignment) (digits : List Word) :
    (tryDigits q below i current a digits).Agree L h (tryDigits q' below' i current' a digits) k
      fun _ r _ r' => r = r' := by
  induction digits generalizing h k with
  | nil => exact agree_pure rfl
  | cons d digits ih =>
    rw [tryDigits, tryDigits]
    refine Agree.readFlag_bind hL hq.stop fun stopped => ?_
    split
    · exact Agree.count_bind hL.interrupt (agree_pure rfl)
    refine (narrowed?_agree hL hq hc _).bind fun h₁ s? k₁ s'? hle hle' hs => ?_
    have hrest (h₂ k₂ : Heap) (hle₂ : h₁ ≤ h₂) (hle₂' : k₁ ≤ k₂) :=
      ih (hq.mono (Heap.le_trans hle hle₂) (Heap.le_trans hle' hle₂'))
        (hc.mono (Heap.le_trans hle hle₂) (Heap.le_trans hle' hle₂'))
        fun h' s k' s' a hle₃ hle₃' => hbelow h' s k' s' a
          (Heap.le_trans (Heap.le_trans hle hle₂) hle₃)
          (Heap.le_trans (Heap.le_trans hle' hle₂') hle₃')
    cases hs with
    | none => exact hrest h₁ k₁ h₁.le_refl k₁.le_refl
    | some hs =>
      refine (hbelow h₁ _ k₁ _ _ hle hle' hs).bind fun h₂ r k₂ r' hle₂ hle₂' hr => ?_
      subst hr
      cases r with
      | some found => exact agree_pure rfl
      | none => exact hrest h₂ k₂ hle₂ hle₂'

theorem descend_agree (hL : L.Kept) (hq : q.Mirrors L h k q')
    (hc : InputSolver.Mirrors h current k current') (is : List Nat) (a : Assignment) :
    (descend q is current a).Agree L h (descend q' is current' a) k fun _ r _ r' => r = r' := by
  induction is generalizing h k current current' a with
  | nil => exact exactCheck_agree hL hq a
  | cons i is ih =>
    rw [descend, descend, hq.direction]
    exact tryDigits_agree hL hq hc
      (fun h' s k' s' a hle hle' hs => ih (hq.mono hle hle') hs a) i a _

/-- The search below leading digits, if these leave anything to search. -/
theorem belowLeading_agree (hL : L.Kept) (hq : q.Mirrors L h k q') (is : List Nat)
    (a : Assignment) {start start' : Option Expr} :
    Option.Rel (InputSolver.Mirrors h · k ·) start start' →
    (match start with
      | none => return none
      | some current => return (← descend q is current a).map .ofAssignment :
      SearchM (Option Solution)).Agree L h
    (match start' with
      | none => return none
      | some current => return (← descend q' is current a).map .ofAssignment) k
    fun _ r _ r' => r = r' := by
  intro hstart
  cases hstart with
  | none => exact agree_pure rfl
  | some hs =>
    exact (descend_agree hL hq hs is a).bind fun _ r _ r' _ _ hr => agree_pure (congrArg _ hr)

/-- The pruned search with leading digits ends alike on copies. -/
theorem searchFrom_agree (hL : L.Kept) (hq : q.Mirrors L h k q') (leading : List Word) :
    (searchFrom q leading).Agree L h (searchFrom q' leading) k fun _ r _ r' => r = r' := by
  rw [searchFrom, searchFrom, hq.expr.inputIndices_eq]
  split
  · exact belowLeading_agree hL hq _ _ (.some hq.expr)
  · exact (narrowed?_agree hL hq hq.expr _).bind
      fun h₁ s? k₁ s'? hle hle' hs => belowLeading_agree hL (hq.mono hle hle') _ _ hs

/-- So does the search from fresh counters, with the same statistics. -/
theorem search_agree (hq : q.Mirrors .same h k q') :
    (search q).Agree .same h (search q') k fun _ r _ r' => r = r' := by
  refine Agree.count_bind (fun _ => rfl)
    ((searchFrom_agree Lockstep.kept_same hq []).bind fun h' r k' r' _ _ hr => ?_)
  refine Agree.get_bind fun p p' hp => agree_pure ?_
  rw [hr, show p.statistics = p'.statistics from hp]

end Backtrack

/-! ## The enumeration -/

namespace Exhaustive

open SearchM Backtrack

variable {q q' : Query} {L : Lockstep}

/-- The digits for one input are tried in turn. -/
theorem tryDigits_agree {below below' : Assignment → SearchM (Option Assignment)}
    (hbelow : ∀ h' k' a, h ≤ h' → k ≤ k' →
      (below a).Agree L h' (below' a) k' fun _ r _ r' => r = r')
    (i : Nat) (a : Assignment) (digits : List Word) :
    (tryDigits below i a digits).Agree L h (tryDigits below' i a digits) k
      fun _ r _ r' => r = r' := by
  induction digits generalizing h k with
  | nil => exact agree_pure rfl
  | cons d digits ih =>
    rw [tryDigits, tryDigits]
    refine (hbelow h k _ h.le_refl k.le_refl).bind fun h₁ r k₁ r' hle hle' hr => ?_
    subst hr
    cases r with
    | some found => exact agree_pure rfl
    | none =>
      exact ih fun h' k' a hle₁ hle₁' => hbelow h' k' a (Heap.le_trans hle hle₁)
        (Heap.le_trans hle' hle₁')

theorem enumerate_agree (hL : L.Kept) (hq : q.Mirrors L h k q') (is : List Nat)
    (a : Assignment) :
    (enumerate q is a).Agree L h (enumerate q' is a) k fun _ r _ r' => r = r' := by
  induction is generalizing h k a with
  | nil => exact Agree.count_bind hL.visit (exactCheck_agree hL hq a)
  | cons i is ih =>
    rw [enumerate, enumerate, hq.direction]
    exact tryDigits_agree (fun h' k' a hle hle' => ih (hq.mono hle hle') a) i a _

/-- The enumeration ends alike on copies, with the same statistics. -/
theorem enumeration_agree (hq : q.Mirrors .same h k q') :
    (Exhaustive.search q).Agree .same h (Exhaustive.search q') k fun _ r _ r' => r = r' := by
  refine Agree.count_bind (fun _ => rfl) ?_
  rw [hq.expr.inputIndices_eq]
  refine (enumerate_agree Lockstep.kept_same hq _ .empty).bind fun h' r k' r' _ _ hr => ?_
  refine Agree.get_bind fun p p' hp => agree_pure ?_
  rw [hr, show p.statistics = p'.statistics from hp]

end Exhaustive

end InputSolver
