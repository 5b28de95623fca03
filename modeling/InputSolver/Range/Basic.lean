/-
  InputSolver — value ranges.

  A `Range` is a set of words, given as a list of progressions: none for the
  empty set, one for an unbroken progression, several for a compound set.
  Every operator on expressions has a range operation that contains all its
  values.

  * `ofProgressions` builds a range from any progressions and joins those
    whose union is one again; `ofValues` builds it from single words;
  * `includes`, `min?`, `max?`, `size`, `take` read it.
-/
import InputSolver.Progression.Union

namespace InputSolver

/-- The union of its members. -/
structure Range where
  members : List Progression
  deriving DecidableEq

namespace Range

def empty : Range := ⟨[]⟩

def single (v : Word) : Range := ⟨[.single v]⟩

/-- The range of one progression, built as `Progression.new` does. -/
def progression (a b step : Word) : Range := ⟨[.new a b step]⟩

/-! ## Reading -/

def isEmpty (r : Range) : Bool := r.members.isEmpty

/-- The only value, where the range is a single progression of one value. -/
def singleValue? (r : Range) : Option Word :=
  match r.members with
  | [p] => if p.isSingle then some p.min else none
  | _ => none

def min? (r : Range) : Option Word :=
  (r.members.map (·.min)).min?

def max? (r : Range) : Option Word :=
  (r.members.map (·.max)).max?

/-- The number of values, those common to several members counted for each,
    as far as `2^64 - 1`. -/
def size (r : Range) : Nat :=
  Nat.min (r.members.foldl (fun n p => n + p.size) 0) (Word.countBound - 1)

def includes (r : Range) (v : Word) : Bool := r.members.any (·.includes v)

/-- The first `n` values, member by member. -/
def take (r : Range) (n : Nat) : List Word := go n r.members
where
  go (n : Nat) : List Progression → List Word
    | [] => []
    | p :: ps =>
      let vs := p.take n
      vs ++ go (n - vs.length) ps

/-- All values, member by member. -/
def values (r : Range) : List Word := r.members.flatMap (·.values)

/-- Whether all values lie between two bounds. -/
def within (r : Range) (lo hi : Word) : Bool :=
  match r.min?, r.max? with
  | some a, some b => lo ≤ a && b ≤ hi
  | _, _ => true

def isNonnegative (r : Range) : Bool := r.min?.all (0 ≤ ·)

def isNonpositive (r : Range) : Bool := r.max?.all (· ≤ 0)

/-- Whether all values are multiples of `d`. -/
def multiplesOf (r : Range) (d : Word) : Except Fault Bool := r.members.allM (·.multiplesOf d)

/-! ## Joining members -/

/-- How many members next below a new one are tried for joining. -/
def joinWindow : Nat := 16

/-- Looks through the first `window` members for one whose union with `p` is
    a progression, and gives that union and the members without it. -/
def joinFirst? (p : Progression) :
    (window : Nat) → List Progression → Except Fault (Option (Progression × List Progression))
  | 0, _ => return none
  | _ + 1, [] => return none
  | window + 1, m :: ms => do
    match ← m.union? p with
    | some joined => return some (joined, ms)
    | none => return (← joinFirst? p window ms).map fun (joined, rest) => (joined, m :: rest)

theorem length_of_joinFirst? {p : Progression} {window : Nat} {ms : List Progression}
    {joined : Progression} {rest : List Progression}
    (h : joinFirst? p window ms = .ok (some (joined, rest))) : rest.length < ms.length := by
  induction window generalizing ms rest with
  | zero => simp [joinFirst?, pure, Except.pure] at h
  | succ window ih =>
    cases ms with
    | nil => simp [joinFirst?, pure, Except.pure] at h
    | cons m ms =>
      simp only [joinFirst?, bind, Except.bind, pure, Except.pure] at h
      split at h
      · cases h
      · split at h
        · cases h; simp
        · split at h
          · cases h
          · rename_i found hfound
            obtain _ | ⟨joined', rest'⟩ := found
            · simp at h
            · simp only [Option.map_some, Except.ok.injEq, Option.some.injEq, Prod.mk.injEq] at h
              obtain ⟨rfl, rfl⟩ := h
              simpa using ih hfound

/-- Adds a progression to the members, the most recent first, joining it with
    members for as long as a union is found. -/
def absorb (ms : List Progression) (p : Progression) : Except Fault (List Progression) :=
  match _h : joinFirst? p joinWindow ms with
  | .error f => .error f
  | .ok none => .ok (p :: ms)
  | .ok (some (joined, rest)) => absorb rest joined
termination_by ms.length
decreasing_by exact length_of_joinFirst? _h

/-- The range of all values of some progressions. -/
def ofProgressions (ps : List Progression) : Except Fault Range := do
  let ms ← (ps.mergeSort Progression.boundsLE).foldlM absorb []
  return ⟨ms.reverse.mergeSort Progression.boundsLE⟩

/-- Cuts ascending words into progressions, each as long as the steps agree.
    The run so far goes from `first` to `last`, with step `step?` if it has
    more than one word. -/
def runs (first last : Word) (step? : Option Word) : List Word → Except Fault (List Progression)
  | [] => return [run first last step?]
  | v :: vs => do
    let d ← Word.exactSub v last
    match step? with
    | none => runs first v (some d) vs
    | some step =>
      if d = step then runs first v (some step) vs
      else return run first last step? :: (← runs v v none vs)
where
  run (first last : Word) : Option Word → Progression
    | none => .single first
    | some step => .new first last step

/-- The range of some words, in any order. -/
def ofValues (vs : List Word) : Except Fault Range :=
  match (vs.mergeSort fun a b => a ≤ b).eraseReps with
  | [] => return empty
  | v :: vs => do ofProgressions (← runs v v none vs)

/-! ## Text -/

/-- The members between angle brackets, or a single member as itself. -/
def text (r : Range) : String :=
  match r.members with
  | [p] => p.text
  | ps => "<" ++ String.intercalate "," (ps.map (·.text)) ++ ">"

end Range

end InputSolver
