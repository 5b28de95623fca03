/-
  InputSolver — attempts at a computation.

  Rewriting decides by the ranges of expressions, and range arithmetic may have
  no answer.  To say that nothing else makes it fault, rewriting is written down
  as a program that reaches what is outside its own rules by requests only: for
  new identities, for normal forms that are known, and for ranges.  An attempt
  is such a program, which may also break off because it goes too deep.

  * `Attempt.answered` answers the requests on a graph; an attempt cannot fault
    by itself;
  * `StopsAt`: on the way of an attempt is an expression whose range has no
    answer; `answered_eq_error_iff`: there is no other way to a fault;
  * `Settles` compares attempts of growing depth with a computation that has
    no depth, and its rules follow the ways computations are put together;
  * `Settles.does`: from some depth on the attempts do what the computation
    does, and it faults where they stop at such an expression.
-/
import InputSolver.Proofs.Normal.Graph

namespace InputSolver

open InputSolver.Normal

variable {α β γ : Type}

theorem Build.liftM_bind (z : Except Fault α) (k : α → Except Fault β) :
    (liftM (z >>= k) : Build β) = liftM z >>= fun a => liftM (k a) := by
  cases z <;> rfl

section Attached

variable {p : α → Prop} {y : Build α} {hy : ∀ next a next', y next = .ok (a, next') → p a}
  {next : Nat}

theorem Build.attach_eq_ok {a : α} {next' : Nat} (h : y next = .ok (a, next')) :
    y.attach hy next = .ok (⟨a, hy next a next' h⟩, next') := by
  unfold Build.attach
  split
  · rename_i hok
    cases hok.symm.trans h
    rfl
  · rename_i herror
    cases herror.symm.trans h

theorem Build.attach_eq_error {fault : Fault} (h : y next = .error fault) :
    y.attach hy next = .error fault := by
  unfold Build.attach
  split
  · rename_i hok
    cases hok.symm.trans h
  · rename_i herror
    cases herror.symm.trans h
    rfl

end Attached

namespace Normal

/-! ## Requests -/

/-- What an attempt may ask for, by the type of the answer. -/
inductive Request : Type → Type where
  /-- an identity that no node has yet -/
  | identity : Request Nat
  /-- the known normal form of a node -/
  | normalForm (id : Nat) : Request (Option Expr)
  /-- that the normal form of a node be known from now on -/
  | record (id : Nat) (normal : Expr) : Request Unit
  /-- the range of an expression -/
  | range (e : Expr) : Request Range
  /-- whether the range of an expression has multiples of a word only -/
  | multiples (e : Expr) (c : Word) : Request Bool

/-- The answer on a graph. -/
def Request.answer : Request α → GraphM α
  | .identity => GraphM.build Build.identity
  | .normalForm id => return (← get).normal[id]?
  | .record id normal => GraphM.record id normal
  | .range e => GraphM.build (liftM e.range)
  | .multiples e c => GraphM.build (liftM do (← e.range).multiplesOf c)

/-- A program that is done, makes a request and goes on with the answer, or
    breaks off. -/
inductive Attempt (α : Type) : Type 1 where
  | done (a : α)
  | ask {β : Type} (request : Request β) (next : β → Attempt α)
  | tooDeep

namespace Attempt

def bind : Attempt α → (α → Attempt β) → Attempt β
  | done a, f => f a
  | ask request next, f => ask request fun b => (next b).bind f
  | tooDeep, _ => tooDeep

instance : Monad Attempt where
  pure := done
  bind := bind

theorem bind_done (x : Attempt α) : x.bind done = x := by
  induction x with
  | done => rfl
  | ask request next ih => exact congrArg (ask request) (funext ih)
  | tooDeep => rfl

theorem bind_bind (x : Attempt α) (f : α → Attempt β) (k : β → Attempt γ) :
    (x.bind f).bind k = x.bind fun a => (f a).bind k := by
  induction x with
  | done => rfl
  | ask request next ih => exact congrArg (ask request) (funext ih)
  | tooDeep => rfl

instance : LawfulMonad Attempt := .mk' Attempt bind_done (fun _ _ => rfl) bind_bind

/-- The attempt with its requests answered.  It has no result if it breaks off. -/
def answered : Attempt α → GraphM (Option α)
  | done a => return some a
  | ask request next => do (next (← request.answer)).answered
  | tooDeep => return none

/-- Run on the graph `g`, an attempt comes to an expression whose range, or the
    question for multiples in it, has no answer but the fault. -/
inductive StopsAt (fault : Fault) : Attempt α → Graph → Prop
  | range {e : Expr} {next : Range → Attempt α} {g : Graph} (h : e.range = .error fault) :
    StopsAt fault (ask (.range e) next) g
  | multiples {e : Expr} {c : Word} {next : Bool → Attempt α} {g : Graph}
    (h : (do (← e.range).multiplesOf c) = .error fault) :
    StopsAt fault (ask (.multiples e c) next) g
  | later {β : Type} {request : Request β} {next : β → Attempt α} {g g' : Graph} {b : β}
    (h : request.answer.run.run g = (.ok b, g')) (hnext : StopsAt fault (next b) g') :
    StopsAt fault (ask request next) g

end Attempt

theorem run_build_liftM (z : Except Fault α) (g : Graph) :
    (GraphM.build (liftM z)).run.run g = (z, g) := by
  cases z <;> rfl

/-- A request without an answer is one about a range. -/
theorem Request.stopsAt_of_answer {request : Request β} {next : β → Attempt α} {fault : Fault}
    {g : Graph} (h : (request.answer.run.run g).1 = .error fault) :
    (Attempt.ask request next).StopsAt fault g := by
  cases request with
  | identity => cases h
  | normalForm id => cases h
  | record id normal => cases h
  | range e =>
    rw [answer, run_build_liftM] at h
    exact .range h
  | multiples e c =>
    rw [answer, run_build_liftM] at h
    exact .multiples h

namespace Attempt

theorem run_ask (request : Request β) (next : β → Attempt α) (g : Graph) :
    (ask request next).answered.run.run g =
      match (request.answer.run.run g).1 with
      | .ok b => (next b).answered.run.run (request.answer.run.run g).2
      | .error fault => (.error fault, (request.answer.run.run g).2) :=
  GraphM.run_bind ..

theorem run_bind (x : Attempt α) (f : α → Attempt β) (g : Graph) :
    (x >>= f).answered.run.run g =
      match (x.answered.run.run g).1 with
      | .ok (some a) => (f a).answered.run.run (x.answered.run.run g).2
      | .ok none => (.ok none, (x.answered.run.run g).2)
      | .error fault => (.error fault, (x.answered.run.run g).2) := by
  induction x generalizing g with
  | done => rfl
  | ask request next ih =>
    change (ask request fun b => next b >>= f).answered.run.run g = _
    rw [run_ask, run_ask]
    cases (request.answer.run.run g).1 with
    | error fault => rfl
    | ok b => exact ih b _
  | tooDeep => rfl

/-- An attempt faults if and only if it comes to an expression whose range has
    no answer. -/
theorem answered_eq_error_iff {x : Attempt α} {fault : Fault} {g : Graph} :
    (x.answered.run.run g).1 = .error fault ↔ x.StopsAt fault g := by
  constructor
  · intro h
    induction x generalizing g with
    | done => cases h
    | tooDeep => cases h
    | ask request next ih =>
      rw [run_ask] at h
      cases hanswer : (request.answer.run.run g).1 with
      | error fault' =>
        rw [hanswer] at h
        cases h
        exact Request.stopsAt_of_answer hanswer
      | ok b =>
        rw [hanswer] at h
        exact .later (Prod.ext hanswer rfl) (ih b h)
  · intro h
    induction h with
    | range h => rw [run_ask, Request.answer, run_build_liftM, h]
    | multiples h => rw [run_ask, Request.answer, run_build_liftM, h]
    | later h _ ih =>
      rw [run_ask, h]
      exact ih

end Attempt

/-! ## Enough depth -/

/-- What an attempt comes to is what a computation comes to: the same result and
    graph, or the same fault after the same normal forms.  A computation that
    faults takes back the identities of the nodes that it was making. -/
inductive SameOutcome : Except Fault (Option α) × Graph → Except Fault α × Graph → Prop
  | result (a : α) (g : Graph) : SameOutcome (.ok (some a), g) (.ok a, g)
  | fault (fault : Fault) {g g' : Graph} (h : g.normal = g'.normal) :
    SameOutcome (.error fault, g) (.error fault, g')

theorem SameOutcome.map_some {o : Except Fault (Option α) × Graph} {o' : Except Fault α × Graph}
    (h : SameOutcome o o') : o.1 = o'.1.map some := by
  cases h <;> rfl

theorem SameOutcome.eq_result {o : Except Fault (Option α) × Graph} {a : α} {g : Graph}
    (h : SameOutcome o (.ok a, g)) : o = (.ok (some a), g) := by
  cases h
  rfl

theorem SameOutcome.eq_fault {o : Except Fault (Option α) × Graph} {fault : Fault} {g : Graph}
    (h : SameOutcome o (.error fault, g)) :
    ∃ g', o = (.error fault, g') ∧ g'.normal = g.normal := by
  cases h with
  | fault _ h => exact ⟨_, rfl, h⟩

/-- From some depth on, run on the graph `g`, the attempts come to one outcome. -/
def Ends (x : Nat → Attempt α) (g : Graph) (outcome : Except Fault α × Graph) : Prop :=
  ∃ depth, ∀ d, depth ≤ d → SameOutcome ((x d).answered.run.run g) outcome

variable {x : Nat → Attempt α} {f : Nat → α → Attempt β} {g g' : Graph} {a : α} {fault : Fault}

theorem Ends.bind_ok {outcome : Except Fault β × Graph} (hx : Ends x g (.ok a, g'))
    (hf : Ends (fun d => f d a) g' outcome) : Ends (fun d => x d >>= f d) g outcome := by
  obtain ⟨depth, hx⟩ := hx
  obtain ⟨depth', hf⟩ := hf
  -- what follows is reached on the same graph at every depth from `depth` on
  refine ⟨max depth depth', fun d hd => ?_⟩
  rw [Attempt.run_bind, (hx d (by omega)).eq_result]
  exact hf d (by omega)

theorem Ends.bind_fault (hx : Ends x g (.error fault, g')) :
    Ends (fun d => x d >>= f d) g (.error fault, g') := by
  obtain ⟨depth, hx⟩ := hx
  refine ⟨depth, fun d hd => ?_⟩
  obtain ⟨k, hk, hnormal⟩ := (hx d hd).eq_fault
  rw [Attempt.run_bind, hk]
  exact .fault fault hnormal

/-- Of the graph after a fault only the normal forms count. -/
theorem Ends.of_normal_eq {k : Graph} (hx : Ends x g (.error fault, g'))
    (h : g'.normal = k.normal) : Ends x g (.error fault, k) := by
  obtain ⟨depth, hx⟩ := hx
  refine ⟨depth, fun d hd => ?_⟩
  obtain ⟨m, hm, hnormal⟩ := (hx d hd).eq_fault
  rw [hm]
  exact .fault fault (hnormal.trans h)

end Normal

namespace GraphM

variable {x : Nat → Attempt α} {y : GraphM α} {f : Nat → α → Attempt β} {k : α → GraphM β}
  {g : Graph}

/-- From some depth on, the attempts do on the graph `g` what `y` does. -/
def Settles (x : Nat → Attempt α) (y : GraphM α) (g : Graph) : Prop := Ends x g (y.run.run g)

theorem Settles.bind (hx : Settles x y g) (hf : ∀ a g, Settles (fun d => f d a) (k a) g) :
    Settles (fun d => x d >>= f d) (y >>= k) g := by
  unfold Settles at hx ⊢
  rw [run_bind]
  rcases hy : y.run.run g with ⟨fault | a, g'⟩
  · rw [hy] at hx
    exact hx.bind_fault
  · rw [hy] at hx
    exact hx.bind_ok (hf a g')

theorem settles_pure (a : α) (g : Graph) : Settles (fun _ => pure a) (pure a) g :=
  ⟨0, fun _ _ => .result a g⟩

theorem settles_request (request : Request α) (g : Graph) :
    Settles (fun _ => .ask request .done) request.answer g := by
  refine ⟨0, fun _ _ => ?_⟩
  rw [Attempt.run_ask]
  obtain ⟨fault | a, g'⟩ := request.answer.run.run g
  · exact .fault fault rfl
  · exact .result a g'

/-- The attempt does on the graph `g` what `y` does, and a fault arises where it
    comes to an expression whose range has no answer. -/
structure Does (x : Attempt α) (y : GraphM α) (g : Graph) : Prop where
  outcome : SameOutcome (x.answered.run.run g) (y.run.run g)
  stops : ∀ fault, (y.run.run g).1 = .error fault ↔ x.StopsAt fault g

theorem Settles.does (h : Settles x y g) : ∃ depth, ∀ d, depth ≤ d → Does (x d) y g := by
  obtain ⟨depth, h⟩ := h
  refine ⟨depth, fun d hd => ⟨h d hd, fun fault => ?_⟩⟩
  rw [← Attempt.answered_eq_error_iff, (h d hd).map_some]
  cases (y.run.run g).1 <;> simp [Except.map]

end GraphM

namespace Normal

/-! ## Making nodes -/

variable {x : Nat → Attempt α} {y : Build α} {z : Build β} {f : Nat → α → Attempt β}
  {k : α → Build β} {g : Graph}

/-- From some depth on, the attempts do on the graph `g` what `y` does there. -/
def Settles (x : Nat → Attempt α) (y : Build α) (g : Graph) : Prop :=
  GraphM.Settles x (GraphM.build y) g

/-- The rule for computations that go on with the result of `y`, in whatever
    way. -/
theorem Settles.followed (hx : Settles x y g)
    (hfault : ∀ fault, y g.next = .error fault → z g.next = .error fault)
    (hresult : ∀ a next, y g.next = .ok (a, next) →
      ∃ k : Build β, z g.next = k next ∧ Settles (fun d => f d a) k { g with next }) :
    Settles (fun d => x d >>= f d) z g := by
  unfold Settles GraphM.Settles at *
  cases hy : y g.next with
  | error fault =>
    rw [GraphM.run_build_of_error hy] at hx
    rw [GraphM.run_build_of_error (hfault fault hy)]
    exact hx.bind_fault
  | ok p =>
    obtain ⟨a, next⟩ := p
    obtain ⟨k, hz, hf⟩ := hresult a next hy
    rw [GraphM.run_build_of_ok hy] at hx
    have hends := hx.bind_ok hf
    cases hk : k next with
    | error fault =>
      -- `z` gives back the identities that the first part has made, `k` does not
      rw [GraphM.run_build_of_error hk] at hends
      rw [GraphM.run_build_of_error (hz.trans hk)]
      exact hends.of_normal_eq rfl
    | ok q =>
      rw [GraphM.run_build_of_ok hk] at hends
      rw [GraphM.run_build_of_ok (hz.trans hk)]
      exact hends

theorem Settles.bind (hx : Settles x y g) (hf : ∀ a g, Settles (fun d => f d a) (k a) g) :
    Settles (fun d => x d >>= f d) (y >>= k) g := by
  have hrun : (y >>= k) g.next = (y g.next).bind fun p => k p.1 p.2 := rfl
  refine hx.followed (fun fault hy => ?_) fun a next hy => ⟨k a, ?_, hf a _⟩
  · rw [hrun, hy]
    rfl
  · rw [hrun, hy]
    rfl

/-- A property that comes with the results makes no difference. -/
theorem Settles.bind_attach {p : α → Prop} {hy : ∀ next a next', y next = .ok (a, next') → p a}
    {k : {a // p a} → Build β} (hx : Settles x y g)
    (hf : ∀ a g, Settles (fun d => f d a.1) (k a) g) :
    Settles (fun d => x d >>= f d) (y.attach hy >>= k) g := by
  have hrun : (y.attach hy >>= k) g.next = (y.attach hy g.next).bind fun p => k p.1 p.2 := rfl
  refine hx.followed (fun fault h => ?_) fun a next h => ⟨k ⟨a, hy _ _ _ h⟩, ?_, hf ⟨a, _⟩ _⟩
  · rw [hrun, Build.attach_eq_error h]
    rfl
  · rw [hrun, Build.attach_eq_ok h]
    rfl

theorem settles_pure (a : α) (g : Graph) : Settles (fun _ => pure a) (pure a) g :=
  GraphM.settles_pure a g

end Normal

end InputSolver
