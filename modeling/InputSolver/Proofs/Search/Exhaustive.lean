/-
  InputSolver — the search through all assignments.

  `SearchM.Runs` are the runs of a search that end with an answer, rather than
  a fault or a missing input.

  * `enumerate_runs`: the search for some more positions has the outcome that
    leaves nothing out, and counts every full assignment once.
-/
import InputSolver.Proofs.Expr.Inputs
import InputSolver.Proofs.Search.Order
import InputSolver.Search.Exhaustive

namespace InputSolver

/-! ## Runs -/

namespace SearchM

variable {α β : Type}

/-- From `p` a computation ends in `p'` with an answer. -/
def Runs (x : SearchM α) (p : Progress) (a : α) (p' : Progress) : Prop :=
  x.run.run.run p = (.ok (.ok a), p')

theorem run_bind (x : SearchM α) (f : α → SearchM β) (p : Progress) :
    (x >>= f).run.run.run p =
      match x.run.run.run p with
      | (.ok (.ok a), p₁) => (f a).run.run.run p₁
      | (.ok (.error e), p₁) => (.ok (.error e), p₁)
      | (.error fault, p₁) => (.error fault, p₁) := by
  change (ExceptT.bindCont (ExceptT.bindCont f) (x.run.run.run p).1).run (x.run.run.run p).2 = _
  rcases x.run.run.run p with ⟨_ | _ | _, _⟩ <;> rfl

theorem Runs.bind {x : SearchM α} {f : α → SearchM β} {p p₁ p₂ : Progress} {a : α} {b : β}
    (hx : x.Runs p a p₁) (hf : (f a).Runs p₁ b p₂) : (x >>= f).Runs p b p₂ := by
  rw [Runs, run_bind, hx]
  exact hf

/-- A run of two computations is one of the first and one of the second. -/
theorem runs_bind {x : SearchM α} {f : α → SearchM β} {p p₂ : Progress} {b : β}
    (h : (x >>= f).Runs p b p₂) : ∃ a p₁, x.Runs p a p₁ ∧ (f a).Runs p₁ b p₂ := by
  rw [Runs, run_bind] at h
  rcases hx : x.run.run.run p with ⟨_ | _ | a, p₁⟩
  · rw [hx] at h
    cases h
  · rw [hx] at h
    cases h
  · rw [hx] at h
    exact ⟨a, p₁, hx, h⟩

/-- There is only one run. -/
theorem Runs.unique {x : SearchM α} {p p₁ p₂ : Progress} {a b : α} (h₁ : x.Runs p a p₁)
    (h₂ : x.Runs p b p₂) : a = b ∧ p₁ = p₂ := by
  cases h₁.symm.trans h₂
  exact ⟨rfl, rfl⟩

theorem runs_pure (a : α) (p : Progress) : (pure a : SearchM α).Runs p a p := rfl

theorem runs_count (f : Statistics → Statistics) (p : Progress) :
    (count f).Runs p () { p with statistics := f p.statistics } := rfl

end SearchM

open SearchM

namespace Backtrack

/-- An exact check answers if no input is missing. -/
theorem exactCheck_runs {q : Query} {a : Assignment}
    (ha : ∀ i, q.expr.evaluate a ≠ .error (.unboundInput i)) (p : Progress) :
    (exactCheck q a).Runs p (if q.Accepts a then some a else none) { p with
      statistics := { p.statistics with exactChecks := p.statistics.exactChecks + 1 } } := by
  refine (runs_count _ p).bind ?_
  split
  · rename_i value hvalue
    by_cases htarget : value = q.target
    · have haccepts : q.Accepts a := hvalue.trans (congrArg _ htarget)
      rw [if_pos htarget, if_pos haccepts]
      exact runs_pure ..
    · have haccepts : ¬ q.Accepts a := fun h => htarget (Except.ok.inj (hvalue.symm.trans h))
      rw [if_neg htarget, if_neg haccepts]
      exact runs_pure ..
  · rename_i hvalue
    have haccepts : ¬ q.Accepts a := fun h => nomatch hvalue.symm.trans h
    rw [if_neg haccepts]
    exact runs_pure ..
  · rename_i index hvalue
    exact (ha index hvalue).elim

end Backtrack

/-! ## The enumeration -/

namespace Exhaustive

open Backtrack

/-- Some more full assignments were tried. -/
def tried (n : Nat) (p : Progress) : Progress :=
  { p with
    statistics :=
      { p.statistics with
        visited := p.statistics.visited + n
        exactChecks := p.statistics.exactChecks + n } }

theorem tried_add (n m : Nat) (p : Progress) : tried (n + m) p = tried m (tried n p) := by
  simp only [tried, Nat.add_assoc]

/-- The digits for one input are tried in turn. -/
theorem tryDigits_runs {below : Assignment → SearchM (Option Assignment)} {i : Nat} {is : List Nat}
    {a : Assignment} {found : Word → Option (List Word) × Nat} {digits : List Word}
    (hbelow : ∀ d ∈ digits, ∀ p, (below (a.bind i d)).Runs p
      ((found d).1.map ((a.bind i d).bindAll is)) (tried (found d).2 p)) (p : Progress) :
    (tryDigits below i a digits).Runs p ((tally found digits).1.map (a.bindAll (i :: is)))
      (tried (tally found digits).2 p) := by
  induction digits generalizing p with
  | nil => exact runs_pure ..
  | cons d digits ih =>
    have hd := hbelow d List.mem_cons_self p
    rw [tryDigits, tally]
    rcases hres : found d with ⟨_ | ds, n⟩
    · rw [hres] at hd
      refine hd.bind ?_
      rw [tried_add]
      exact ih (fun x hx => hbelow x (List.mem_cons_of_mem _ hx)) _
    · rw [hres] at hd
      exact hd.bind (runs_pure ..)

/-- The enumeration for some more positions has the outcome that leaves
    nothing out. -/
theorem enumerate_runs {q : Query} {is : List Nat} {a : Assignment}
    (hval : ∀ (b : Assignment), (∀ i, q.expr.Mentions i → b.get? i ≠ none) →
      ∀ i, q.expr.evaluate b ≠ .error (.unboundInput i))
    (ha : ∀ i, q.expr.Mentions i → i ∈ is ∨ a.get? i ≠ none) (p : Progress) :
    (enumerate q is a).Runs p ((q.outcome is a).1.map (a.bindAll is))
      (tried (q.outcome is a).2 p) := by
  induction is generalizing a p with
  | nil =>
    rw [enumerate, Query.outcome]
    refine (runs_count _ p).bind ?_
    have hcheck := exactCheck_runs (hval a fun i hi => (ha i hi).resolve_left List.not_mem_nil)
      { p with statistics := { p.statistics with visited := p.statistics.visited + 1 } }
    split
    · rename_i haccepts
      rw [if_pos haccepts] at hcheck
      exact hcheck
    · rename_i haccepts
      rw [if_neg haccepts] at hcheck
      exact hcheck
  | cons i is ih =>
    refine tryDigits_runs (fun d _ p => ih (fun j hj => ?_) p) p
    rw [Assignment.get?_bind]
    split
    · exact .inr (Option.some_ne_none d)
    · rename_i hne
      exact (ha j hj).imp_left fun hmem => (List.mem_cons.1 hmem).resolve_left hne

end Exhaustive

end InputSolver
