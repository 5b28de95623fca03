/-
  InputSolver — the first of several answers.

  A search goes through the digits of the inputs in lexicographic order.  What
  it finds if it leaves nothing out is its `outcome`, a list of digits and the
  number of full assignments tried.

  * `lex_map_of_filter`: lists that are in order at some positions are in order
    if nothing comes before them at the others;
  * `isFirst_outcome`: the outcome is the first list that reaches the target,
    and nothing only where no list does.
-/
import InputSolver.Proofs.Assignment
import InputSolver.Search.Backtrack

namespace InputSolver

/-! ## Digits in order -/

namespace Direction

/-- A digit is tried before another. -/
def Before : Direction → Word → Word → Prop
  | largest, a, b => b < a
  | smallest, a, b => a < b

instance (d : Direction) : Std.Asymm d.Before where
  asymm a b := by
    cases d
    · exact Int64.lt_asymm
    · exact Int64.lt_asymm

theorem pairwise_digits (d : Direction) : d.digits.Pairwise d.Before := by
  cases d
  · change Direction.largest.digits.Pairwise fun a b => b < a
    decide
  · change Direction.smallest.digits.Pairwise fun a b => a < b
    decide

theorem length_digits (d : Direction) : d.digits.length = 9 := by
  cases d <;> rfl

theorem digits_length_pos (d : Direction) : 0 < d.digits.length := by
  rw [d.length_digits]
  decide

theorem mem_digits (d : Direction) {v : Word} : v ∈ d.digits ↔ Digit.isDigit v = true := by
  cases d
  · exact List.mem_reverse.trans Digit.mem_ascending
  · exact Digit.mem_ascending

/-- No digit is tried before the preferred one. -/
theorem preferredDigit_first (d : Direction) {v : Word} (hv : Digit.isDigit v = true) :
    d.preferredDigit = v ∨ d.Before d.preferredDigit v := by
  have hcons : d.digits = d.preferredDigit :: d.digits.tail := by cases d <;> rfl
  have hpairwise := d.pairwise_digits
  have hmem := d.mem_digits.2 hv
  rw [hcons] at hpairwise hmem
  rcases List.mem_cons.1 hmem with rfl | hmem
  · exact .inl rfl
  · exact .inr (List.rel_of_pairwise_cons hpairwise hmem)

end Direction

/-! ## The first list -/

/-- Lists of words for some positions are in order if they are in order at
    the positions with a property, and at each other position the first one
    has a word that is no later. -/
theorem lex_map_of_filter {r : Word → Word → Prop} {p : Nat → Bool} {f g : Nat → Word}
    {l : List Nat} (hother : ∀ i ∈ l, p i = false → f i = g i ∨ r (f i) (g i))
    (hlex : (l.filter p).map f = (l.filter p).map g ∨
      List.Lex r ((l.filter p).map f) ((l.filter p).map g)) :
    l.map f = l.map g ∨ List.Lex r (l.map f) (l.map g) := by
  induction l with
  | nil => exact .inl rfl
  | cons i l ih =>
    replace ih := ih fun j hj => hother j (List.mem_cons_of_mem _ hj)
    simp only [List.map_cons]
    cases hp : p i with
    | true =>
      rw [List.filter_cons_of_pos hp] at hlex
      simp only [List.map_cons, List.cons.injEq, List.cons_lex_cons_iff] at hlex
      rcases hlex with ⟨hi, his⟩ | hi | ⟨hi, his⟩
      · rw [hi]
        exact (ih (.inl his)).imp (congrArg _) .cons
      · exact .inr (.rel hi)
      · rw [hi]
        exact (ih (.inr his)).imp (congrArg _) .cons
    | false =>
      rw [List.filter_cons_of_neg (by simp [hp])] at hlex
      rcases hother i List.mem_cons_self hp with hi | hi
      · rw [hi]
        exact (ih hlex).imp (congrArg _) .cons
      · exact .inr (.rel hi)

/-- The first list that has a property, in lexicographic order, or nothing if
    there is none. -/
def IsFirst (before : Word → Word → Prop) (P : List Word → Prop) : Option (List Word) → Prop
  | none => ∀ ds, ¬ P ds
  | some ds => P ds ∧ ∀ es, P es → ds = es ∨ List.Lex before ds es

theorem IsFirst.congr {before : Word → Word → Prop} {P Q : List Word → Prop}
    {ds? : Option (List Word)} (h : IsFirst before P ds?) (hPQ : ∀ ds, P ds ↔ Q ds) :
    IsFirst before Q ds? := by
  obtain rfl : P = Q := funext fun ds => propext (hPQ ds)
  exact h

/-- What is found below digits tried in turn, and after how many tries. -/
def tally (below : Word → Option (List Word) × Nat) : List Word → Option (List Word) × Nat
  | [] => (none, 0)
  | d :: digits =>
    match below d with
    | (some ds, n) => (some (d :: ds), n)
    | (none, n) => ((tally below digits).1, n + (tally below digits).2)

/-- The first list below the first digit that has any is the first of all. -/
theorem isFirst_tally {before : Word → Word → Prop} {below : Word → Option (List Word) × Nat}
    {P : Word → List Word → Prop} {digits : List Word} (hdigits : digits.Pairwise before)
    (hbelow : ∀ d ∈ digits, IsFirst before (P d) (below d).1) :
    IsFirst before (fun ds => ∃ d ∈ digits, ∃ es, ds = d :: es ∧ P d es)
      (tally below digits).1 := by
  induction digits with
  | nil =>
    rintro ds ⟨d, hd, -⟩
    cases hd
  | cons d digits ih =>
    obtain ⟨hd, hdigits⟩ := List.pairwise_cons.1 hdigits
    have hfirst := hbelow d List.mem_cons_self
    have hrest := ih hdigits fun x hx => hbelow x (List.mem_cons_of_mem _ hx)
    rw [tally]
    rcases hres : below d with ⟨_ | ds, n⟩
    · -- nothing begins with `d`
      rw [hres] at hfirst
      refine hrest.congr fun ds => ⟨?_, ?_⟩
      · rintro ⟨x, hx, es, rfl, hes⟩
        exact ⟨x, List.mem_cons_of_mem _ hx, es, rfl, hes⟩
      · rintro ⟨x, hx, es, rfl, hes⟩
        rcases List.mem_cons.1 hx with rfl | hx
        · exact (hfirst es hes).elim
        · exact ⟨x, hx, es, rfl, hes⟩
    · rw [hres] at hfirst
      refine ⟨⟨d, List.mem_cons_self, ds, rfl, hfirst.1⟩, ?_⟩
      rintro _ ⟨x, hx, es, rfl, hes⟩
      rcases List.mem_cons.1 hx with rfl | hx
      · rcases hfirst.2 es hes with rfl | hlex
        · exact .inl rfl
        · exact .inr (.cons hlex)
      · exact .inr (.rel (hd x hx))

/-! ## The outcome of a search -/

namespace Backtrack.Query

/-- The expression evaluates to the target. -/
def Accepts (q : Query) (a : Assignment) : Prop := q.expr.evaluate a = .ok q.target

instance (q : Query) (a : Assignment) : Decidable (q.Accepts a) :=
  inferInstanceAs (Decidable (q.expr.evaluate a = .ok q.target))

/-- What is found for some more positions, and after how many full
    assignments. -/
def outcome (q : Query) : List Nat → Assignment → Option (List Word) × Nat
  | [], a => (if q.Accepts a then some [] else none, 1)
  | i :: is, a => tally (fun d => q.outcome is (a.bind i d)) q.direction.digits

/-- Digits for some more positions that make a full assignment with the
    target. -/
structure Reaches (q : Query) (is : List Nat) (a : Assignment) (ds : List Word) : Prop where
  length : ds.length = is.length
  digits : ∀ d ∈ ds, Digit.isDigit d = true
  accepts : q.Accepts (a.bindAll is ds)

theorem reaches_nil {q : Query} {a : Assignment} {ds : List Word} :
    q.Reaches [] a ds ↔ ds = [] ∧ q.Accepts a := by
  constructor
  · rintro ⟨hlength, -, haccepts⟩
    obtain rfl := List.length_eq_zero_iff.1 hlength
    exact ⟨rfl, haccepts⟩
  · rintro ⟨rfl, haccepts⟩
    exact ⟨rfl, nofun, haccepts⟩

theorem reaches_cons {q : Query} {i : Nat} {is : List Nat} {a : Assignment} {ds : List Word} :
    q.Reaches (i :: is) a ds ↔
      ∃ d ∈ q.direction.digits, ∃ es, ds = d :: es ∧ q.Reaches is (a.bind i d) es := by
  constructor
  · rintro ⟨hlength, hdigits, haccepts⟩
    cases ds with
    | nil => cases hlength
    | cons d ds =>
      obtain ⟨hd, hds⟩ := List.forall_mem_cons.1 hdigits
      exact ⟨d, q.direction.mem_digits.2 hd, ds, rfl, Nat.succ.inj hlength, hds, haccepts⟩
  · rintro ⟨d, hd, ds, rfl, hlength, hdigits, haccepts⟩
    exact ⟨congrArg (· + 1) hlength,
      List.forall_mem_cons.2 ⟨q.direction.mem_digits.1 hd, hdigits⟩, haccepts⟩

/-- The outcome is the first list of digits that reaches the target. -/
theorem isFirst_outcome (q : Query) (is : List Nat) (a : Assignment) :
    IsFirst q.direction.Before (q.Reaches is a) (q.outcome is a).1 := by
  induction is generalizing a with
  | nil =>
    rw [outcome]
    split
    · rename_i haccepts
      refine ⟨reaches_nil.2 ⟨rfl, haccepts⟩, fun es hes => .inl (reaches_nil.1 hes).1.symm⟩
    · rename_i haccepts
      exact fun ds hds => haccepts (reaches_nil.1 hds).2
  | cons i is ih =>
    exact (isFirst_tally q.direction.pairwise_digits fun d _ => ih (a.bind i d)).congr
      fun ds => reaches_cons.symm

end Backtrack.Query

end InputSolver
