/-
  InputSolver — the pruned search.

  What is left of an expression under an assignment has every value of the
  expression under digits that extend the assignment (`Narrowed`).  So where
  the target is out of its range, none of them reaches the target.

  * `descend_meets`: the search for some more positions has the outcome that
    leaves nothing out, and makes no more exact checks.
-/
import InputSolver.Proofs.Expr.Walk
import InputSolver.Proofs.Normal.History
import InputSolver.Proofs.Search.Exhaustive

namespace InputSolver

open InputSolver.Expr

/-! ## Computations of a search -/

namespace SearchM

variable {α β : Type}

/-- On a graph that is sound for the heap `h`, the computation ends with an
    answer as `Q` asks for, on a graph that is sound for a larger heap, after
    at most `n` exact checks. -/
def Meets (x : SearchM α) (h : Heap) (n : Nat) (Q : Heap → α → Prop) : Prop :=
  ∀ p, p.graph.Sound h → ∃ k a p', x.Runs p a p' ∧ h ≤ k ∧ p'.graph.Sound k ∧
    p'.statistics.exactChecks ≤ p.statistics.exactChecks + n ∧ Q k a

variable {x : SearchM α} {f : α → SearchM β} {h : Heap} {n m : Nat} {Q Q' : Heap → α → Prop}
  {R : Heap → β → Prop}

theorem Meets.imp (hx : x.Meets h n Q') (hn : n ≤ m) (hQ : ∀ k a, h ≤ k → Q' k a → Q k a) :
    x.Meets h m Q := by
  intro p hp
  obtain ⟨k, a, p', hrun, hle, hk, hchecks, hq⟩ := hx p hp
  exact ⟨k, a, p', hrun, hle, hk, by omega, hQ k a hle hq⟩

theorem Meets.bind (hx : x.Meets h n Q) (hf : ∀ k a, h ≤ k → Q k a → (f a).Meets k m R) :
    (x >>= f).Meets h (n + m) R := by
  intro p hp
  obtain ⟨k, a, p₁, hrun₁, hle₁, hk, hchecks₁, hq⟩ := hx p hp
  obtain ⟨l, b, p₂, hrun₂, hle₂, hl, hchecks₂, hr⟩ := hf k a hle₁ hq p₁ hk
  exact ⟨l, b, p₂, hrun₁.bind hrun₂, Heap.le_trans hle₁ hle₂, hl, by omega, hr⟩

/-- A computation after one that makes no exact check. -/
theorem Meets.then (hx : x.Meets h 0 Q) (hf : ∀ k a, h ≤ k → Q k a → (f a).Meets k m R) :
    (x >>= f).Meets h m R := by
  have hbind := hx.bind hf
  rwa [Nat.zero_add] at hbind

theorem meets_pure {a : α} (hq : Q h a) : (pure a : SearchM α).Meets h n Q := fun p hp =>
  ⟨h, a, p, rfl, h.le_refl, hp, Nat.le_add_right .., hq⟩

theorem meets_count {f : Statistics → Statistics}
    (hf : ∀ s, (f s).exactChecks = s.exactChecks) :
    (count f).Meets h 0 fun k _ => k = h := fun p hp =>
  ⟨h, (), _, runs_count f p, h.le_refl, hp, Nat.le_of_eq (hf p.statistics), rfl⟩

theorem meets_countVisit : countVisit.Meets h 0 fun k _ => k = h := meets_count fun _ => rfl

theorem meets_countPruned : countPruned.Meets h 0 fun k _ => k = h := meets_count fun _ => rfl

theorem meets_readFlag {stop : StopFlag} (hstop : ∀ i, stop i = false) :
    (readFlag stop).Meets h 0 fun k b => k = h ∧ b = false := fun p hp =>
  ⟨h, stop p.readings, _, rfl, h.le_refl, hp, Nat.le_refl _, rfl, hstop p.readings⟩

theorem meets_faulty {x : Except Fault α} {a : α} (hx : x = .ok a) :
    (faulty x).Meets h 0 fun k b => k = h ∧ b = a := fun p hp =>
  ⟨h, a, p, by rw [hx]; rfl, h.le_refl, hp, Nat.le_refl _, rfl, rfl⟩

theorem onGraph_runs {x : GraphM α} {g g' : Graph} {a : α} (hx : x.run.run g = (.ok a, g'))
    (statistics : Statistics) (readings : Nat) :
    (onGraph x).Runs ⟨g, statistics, readings⟩ a ⟨g', statistics, readings⟩ := by
  have hxg : x g = (.ok a, g') := hx
  simp only [Runs, onGraph, ExceptT.lift, ExceptT.run, ExceptT.mk, Functor.map, ExceptT.map,
    StateT.run, bind, StateT.bind, hxg]
  rfl

theorem meets_onGraph {x : GraphM α} {P : Prop} (hx : x.Meets h P Q) (hP : P) :
    (onGraph x).Meets h 0 Q := by
  rintro ⟨g, statistics, readings⟩ hg
  obtain ⟨k, hle, hk, hq, hok⟩ := hx g hg
  obtain ⟨a, ha⟩ := hok hP
  have hruns := onGraph_runs (Prod.ext ha rfl) statistics readings
  exact ⟨k, a, _, hruns, hle, hk, Nat.le_refl _, hq a ha⟩

end SearchM

namespace Backtrack

open SearchM

/-! ## Narrowing -/

/-- What is left of the expression under `a`. -/
structure Narrowed (q : Query) (h : Heap) (a : Assignment) (e : Expr) : Prop where
  holds : h.Holds e
  bounded : e.Bounded
  value : ∀ b v, b.Digits → a.ExtendedBy b → q.expr.valueOn b = .ok v → e.valueOn b = .ok v

/-- No digits that extend `a` reach the target. -/
def Hopeless (q : Query) (a : Assignment) : Prop :=
  ∀ b : Assignment, b.Digits → a.ExtendedBy b → q.expr.valueOn b ≠ .ok q.target

/-- Something is left of the expression under `a`, or there is no hope. -/
def NarrowsTo (q : Query) (a : Assignment) (h : Heap) : Option Expr → Prop
  | some s => Narrowed q h a s
  | none => Hopeless q a

variable {q : Query} {h : Heap} {a b : Assignment} {current : Expr}

theorem Narrowed.mono {k : Heap} (hc : Narrowed q h a current) (hle : h ≤ k) :
    Narrowed q k a current := ⟨hc.holds.mono hle, hc.bounded, hc.value⟩

/-- Where the target is out of range, there is no hope. -/
theorem hopeless_of_range {r : Range} (hc : Narrowed q h a current) (hr : current.range = .ok r)
    (hout : ¬ r.includes q.target = true) : Hopeless q a := by
  intro b hb hext hvalue
  have hmem := (hc.bounded.of_range hr).2 b _ hb (hc.value b _ hb hext hvalue)
  exact hout (Range.includes_iff.2 hmem)

/-- An expression is narrowed by more digits, or there is no hope for them. -/
theorem narrowed?_meets (hc : Narrowed q h a current) (hext : a.ExtendedBy b) (hb : b.Digits) :
    (narrowed? q current b).Meets h 0 (NarrowsTo q b) := by
  refine meets_countVisit.then fun k _ _ hk => ?_
  subst hk
  refine (meets_onGraph (GraphM.simplify_meets hc.holds) ⟨hc.bounded, hb⟩).then
    fun k s hle hs => ?_
  have hnarrowed : Narrowed q k b s := ⟨hs.holds, hs.bounded ⟨hc.bounded, hb⟩,
    fun c v hc' hext' hv => hs.value ⟨hc.bounded, hb⟩ c v hc'
      ⟨hext', hc.value c v hc' (hext.trans hext') hv⟩⟩
  obtain ⟨r, hr, -⟩ := range_of_bounded hnarrowed.bounded
  refine (meets_faulty hr).then fun l r' _ hl => ?_
  obtain ⟨rfl, rfl⟩ := hl
  split
  · exact meets_pure hnarrowed
  · rename_i hout
    refine meets_countPruned.then fun l _ _ _ => ?_
    exact meets_pure (hopeless_of_range hnarrowed hr hout)

/-! ## The descent -/

/-- Some digits are chosen, and the positions `is` are still open. -/
structure Chosen (q : Query) (is : List Nat) (a : Assignment) : Prop where
  digits : a.Digits
  nodup : is.Nodup
  unbound : ∀ i ∈ is, a.get? i = none
  covers : ∀ i, q.expr.Mentions i → i ∈ is ∨ a.get? i ≠ none

theorem Chosen.bind {i : Nat} {is : List Nat} (ha : Chosen q (i :: is) a) {d : Word}
    (hd : Digit.isDigit d = true) : Chosen q is (a.bind i d) where
  digits := Assignment.digits_bind ha.digits i hd
  nodup := (List.nodup_cons.1 ha.nodup).2
  unbound j hj := by
    have hne : j ≠ i := by
      rintro rfl
      exact (List.nodup_cons.1 ha.nodup).1 hj
    rw [Assignment.get?_bind, if_neg hne]
    exact ha.unbound j (List.mem_cons_of_mem _ hj)
  covers j hj := by
    rw [Assignment.get?_bind]
    split
    · exact .inr nofun
    · rename_i hne
      exact (ha.covers j hj).imp_left fun hmem => (List.mem_cons.1 hmem).resolve_left hne

/-- Without hope, nothing is found. -/
theorem outcome_of_hopeless {is : List Nat} (hval : ∀ b, q.expr.evaluate b = q.expr.valueOn b)
    (ha : Chosen q is a) (hhopeless : Hopeless q a) : (q.outcome is a).1 = none := by
  have hfirst := q.isFirst_outcome is a
  cases hres : (q.outcome is a).1 with
  | none => rfl
  | some ds =>
    rw [hres] at hfirst
    obtain ⟨-, hdigits, haccepts⟩ := hfirst.1
    have hvalue := (hval _).symm.trans haccepts
    exact (hhopeless _ (Assignment.digits_bindAll ha.digits is hdigits)
      (Assignment.extendedBy_bindAll ha.unbound ds) hvalue).elim

/-- The digits for one input are tried in turn. -/
theorem tryDigits_meets {below : Expr → Assignment → SearchM (Option Assignment)} {i : Nat}
    {is : List Nat} {found : Word → Option (List Word) × Nat} {digits : List Word}
    (hstop : ∀ n, q.stop n = false) (hc : Narrowed q h a current) (hi : a.get? i = none)
    (ha : ∀ d ∈ digits, (a.bind i d).Digits)
    (hbelow : ∀ d ∈ digits, ∀ k s, Narrowed q k (a.bind i d) s →
      (below s (a.bind i d)).Meets k (found d).2
        fun _ r => r = (found d).1.map ((a.bind i d).bindAll is))
    (hhopeless : ∀ d ∈ digits, Hopeless q (a.bind i d) → (found d).1 = none) :
    (tryDigits q below i current a digits).Meets h (tally found digits).2
      fun _ r => r = (tally found digits).1.map (a.bindAll (i :: is)) := by
  induction digits generalizing h with
  | nil => exact meets_pure rfl
  | cons d digits ih =>
    have hrest (k : Heap) (hle : h ≤ k) := ih (h := k) (hc.mono hle)
      (fun x hx => ha x (List.mem_cons_of_mem _ hx))
      (fun x hx => hbelow x (List.mem_cons_of_mem _ hx))
      fun x hx => hhopeless x (List.mem_cons_of_mem _ hx)
    rw [tryDigits]
    refine (meets_readFlag hstop).then fun k b _ hk => ?_
    obtain ⟨rfl, rfl⟩ := hk
    refine (narrowed?_meets hc (Assignment.extendedBy_bind hi d) (ha d List.mem_cons_self)).then
      fun k s? hle hs => ?_
    rw [tally]
    cases s? with
    | none =>
      have hnone := hhopeless d List.mem_cons_self hs
      rcases hres : found d with ⟨ds?, n⟩
      rw [hres] at hnone
      obtain rfl : ds? = none := hnone
      exact (hrest k hle).imp (Nat.le_add_left ..) fun _ _ _ hr => hr
    | some s =>
      have hd := hbelow d List.mem_cons_self k s hs
      rcases hres : found d with ⟨_ | ds, n⟩
      · rw [hres] at hd
        refine hd.bind fun l r hle' hr => ?_
        obtain rfl : r = none := hr
        exact hrest l (Heap.le_trans hle hle')
      · rw [hres] at hd
        refine hd.bind (m := 0) fun l r _ hr => ?_
        obtain rfl : r = _ := hr
        exact meets_pure rfl

/-- The search for some more positions has the outcome that leaves nothing
    out. -/
theorem descend_meets {is : List Nat} (hval : ∀ b, q.expr.evaluate b = q.expr.valueOn b)
    (hstop : ∀ n, q.stop n = false) (ha : Chosen q is a) (hc : Narrowed q h a current) :
    (descend q is current a).Meets h (q.outcome is a).2
      fun _ r => r = (q.outcome is a).1.map (a.bindAll is) := by
  induction is generalizing a current h with
  | nil =>
    intro p hp
    have hrun := exactCheck_runs (q := q) (a := a) (fun i => by
      rw [hval]
      exact valueOn_bound (fun j hj => (ha.covers j hj).resolve_left nofun) i) p
    refine ⟨h, _, _, hrun, h.le_refl, hp, Nat.le_refl _, ?_⟩
    rw [Query.outcome]
    split <;> rfl
  | cons i is ih =>
    have hdigits (d : Word) (hd : d ∈ q.direction.digits) : Chosen q is (a.bind i d) :=
      ha.bind (q.direction.mem_digits.1 hd)
    exact tryDigits_meets hstop hc (ha.unbound i List.mem_cons_self)
      (fun d hd => (hdigits d hd).digits) (fun d hd k s hs => ih (hdigits d hd) hs)
      fun d hd hhopeless => outcome_of_hopeless hval (hdigits d hd) hhopeless

end Backtrack

end InputSolver
