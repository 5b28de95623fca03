/-
  InputSolver — rewriting that calls itself.

  The operations on normal forms are recursions of their own: on sums, then on
  products, on quotients and on remainders.  The same rules can be read as one
  rewriting of any operator on any operands, which calls itself for the parts
  of its result: operands are swapped, sums regrouped, factors and divisors
  sent into sums, and every result is rewritten again.

  * the definitions in `Attempt` are what the rules ask for: a literal, a node,
    whether an expression is a multiple, cannot be zero, or cancels;
  * `oneRound` are the rules, given a rewriting for the calls they make, and
    `rewriteWithin` is the rewriting with calls up to some depth;
  * `operation_settles`: from some depth on the rewriting of any operands, in
    normal form or not, does what the operation on normal forms does.
-/
import InputSolver.Proofs.Normal.Attempt

namespace InputSolver.Normal

variable {α β : Type}

/-! ## What the rules ask for -/

namespace Attempt

/-- An identity that no node has yet. -/
def identity : Attempt Nat := ask .identity done

/-- The range of an expression. -/
def range (e : Expr) : Attempt Range := ask (.range e) done

def literal (value : Word) : Attempt Expr := return .literal (← identity) value

/-- The node of an operator and its operands. -/
def node (reuse? : Option Expr) (op : Operator) (l r : Expr) : Attempt Expr :=
  match reuse? with
  | some e =>
    if e.operands.map Expr.id = [l.id, r.id] then return e
    else return .binary (← identity) true op l r
  | none => return .binary (← identity) true op l r

/-- The node of an operator and its operands, or the only value it can have. -/
def finish (reuse? : Option Expr) (op : Operator) (l r : Expr) : Attempt Expr := do
  let e ← node reuse? op l r
  match (← range e).singleValue? with
  | some value => literal value
  | none => return e

/-- Whether a divisor is known not to be zero. -/
def isNonzero (r : Expr) : Attempt Bool := return !(← range r).includes 0

/-- Whether all values of an expression are known to be multiples of `c`. -/
def isMultiple (c : Word) (e : Expr) : Attempt Bool :=
  match e with
  | .literal _ value => return Word.divides c value
  | .binary _ _ .mul _ (.literal _ k) =>
    if Word.divides c k then return true else ask (.multiples e c) done
  | _ => ask (.multiples e c) done

/-- Separates the multiples of `c` from other expressions. -/
def separate (c : Word) : List Expr → Attempt (List Expr × List Expr)
  | [] => return ([], [])
  | t :: ts => do
    let isM ← isMultiple c t
    let (ms, os) ← separate c ts
    return if isM then (t :: ms, os) else (ms, t :: os)

/-- What is left of `l` when the divisor `r` cancels, which it does only if it
    cannot be zero. -/
def cancel? (l r : Expr) : Attempt (Option Expr) := do
  if l.literal? = some 0 then
    if ← isNonzero r then return some (← literal 0) else return none
  else if l.alike r then
    if ← isNonzero r then return some (← literal 1) else return none
  else match l with
    | .binary _ _ .mul _ _ => if ← isNonzero r then return cancelled? l r else return none
    | _ => return none

end Attempt

/-! ## The rules -/

section Rules

variable (rewrite : Operator → Expr → Expr → Attempt Expr)

/-- The sum of some terms, from left to right. -/
def sumRound : List Expr → Attempt Expr
  | [] => .literal 0
  | t :: ts => ts.foldlM (rewrite .add) t

/-- The split of a sum by the divisor `c`, if it has a multiple of `c` as a term
    and both parts agree in sign. -/
def splitRound (sum : Expr) (c : Word) : Attempt (Option Split) := do
  let (multiples, others) ← Attempt.separate c (termsOf sum)
  if multiples.isEmpty then return none
  else
    let multipleSum ← sumRound rewrite multiples
    let rest ← sumRound rewrite others
    if agreeInSign (← Attempt.range multipleSum) (← Attempt.range rest) then
      return some ⟨multiples, rest⟩
    else return none

/-- The sum with a literal that is not zero meets other literals. -/
def addLiteralRound (reuse? : Option Expr) (id : Nat) (c : Word) (l : Expr) : Attempt Expr :=
  if c = 0 then return l
  else match l with
    | .binary _ _ .add x (.literal _ b) => do rewrite .add x (← Attempt.literal (b + c))
    | l => .finish reuse? .add l (.literal id c)

/-- A literal goes to the right, and outermost. -/
def addRound (reuse? : Option Expr) (l r : Expr) : Attempt Expr :=
  if l.literal?.isSome ∧ r.literal? = none then rewrite .add r l
  else match r with
    | .literal id c => addLiteralRound rewrite reuse? id c l
    | .binary _ _ .add y (.literal id c) => do rewrite .add (← rewrite .add l y) (.literal id c)
    | r => .finish reuse? .add l r

/-- The product with a literal meets other literals and goes into a sum. -/
def mulLiteralRound (reuse? : Option Expr) (id : Nat) (c : Word) (l : Expr) : Attempt Expr :=
  if c = 0 then .literal 0
  else if c = 1 then return l
  else match l with
    | .binary _ _ .mul x (.literal _ k) => do rewrite .mul x (← Attempt.literal (k * c))
    | .binary _ _ .add a b => do
      let a ← rewrite .mul a (.literal id c)
      let b ← rewrite .mul b (.literal id c)
      rewrite .add a b
    | l => .finish reuse? .mul l (.literal id c)

/-- A literal goes to the right. -/
def mulRound (reuse? : Option Expr) (l r : Expr) : Attempt Expr :=
  if l.literal?.isSome ∧ r.literal? = none then rewrite .mul r l
  else match r with
    | .literal id c => mulLiteralRound rewrite reuse? id c l
    | r => .finish reuse? .mul l r

/-- The quotient by a literal that does not cancel: it meets other literals and
    goes into a sum that splits. -/
def divLiteralRound (reuse? : Option Expr) (id : Nat) (c : Word) (l : Expr) : Attempt Expr := do
  if c = 1 then return l
  else if c = -1 then rewrite .mul l (← Attempt.literal (-1))
  else if (← Attempt.range l).within (-remainderBound c) (remainderBound c) then .literal 0
  else match l with
    | .binary _ _ .mul x (.literal _ k) =>
      if Word.divides c k then rewrite .mul x (← Attempt.literal (k / c))
      else if Word.divides k c then rewrite .div x (← Attempt.literal (c / k))
      else .finish reuse? .div l (.literal id c)
    | .binary _ _ .div x (.literal _ b) =>
      match positiveProduct? b c with
      | some d => rewrite .div x (← Attempt.literal d)
      | none => .finish reuse? .div l (.literal id c)
    | .binary _ _ .add _ _ =>
      match ← splitRound rewrite l c with
      | some split =>
        let quotients ← split.multiples.mapM fun m => do rewrite .div m (← Attempt.literal c)
        let rest ← rewrite .div split.rest (← Attempt.literal c)
        sumRound rewrite (quotients ++ [rest])
      | none => .finish reuse? .div l (.literal id c)
    | l => .finish reuse? .div l (.literal id c)

/-- What can cancel does, before the rules for literals. -/
def divRound (reuse? : Option Expr) (l r : Expr) : Attempt Expr := do
  match ← Attempt.cancel? l r with
  | some e => return e
  | none => match r with
    | .literal id c => divLiteralRound rewrite reuse? id c l
    | r => .finish reuse? .div l r

/-- The remainder by a literal: a multiple has none, and a sum that splits has
    that of its other terms. -/
def modLiteralRound (reuse? : Option Expr) (id : Nat) (c : Word) (l : Expr) : Attempt Expr := do
  if c = 1 ∨ c = -1 then .literal 0
  else if isOwnRemainder (← Attempt.range l) (remainderBound c) then return l
  else if ← Attempt.isMultiple c l then .literal 0
  else match l with
    | .binary _ _ .mod x (.literal _ b) =>
      if b = c then rewrite .mod x (.literal id c) else .finish reuse? .mod l (.literal id c)
    | .binary _ _ .add _ _ =>
      match ← splitRound rewrite l c with
      | some split => rewrite .mod split.rest (.literal id c)
      | none => .finish reuse? .mod l (.literal id c)
    | l => .finish reuse? .mod l (.literal id c)

/-- Whether a dividend is zero and the divisor cannot be. -/
def isZeroOver (l r : Expr) : Attempt Bool :=
  if l.literal? = some 0 then .isNonzero r else return false

/-- Zero has no remainder, before the rules for literals. -/
def modRound (reuse? : Option Expr) (l r : Expr) : Attempt Expr := do
  if ← isZeroOver l r then .literal 0
  else match r with
    | .literal id c => modLiteralRound rewrite reuse? id c l
    | r => .finish reuse? .mod l r

/-- A literal goes to the right; what cannot be equal is 0, what is alike is
    1. -/
def eqlRound (reuse? : Option Expr) (l r : Expr) : Attempt Expr := do
  if l.literal?.isSome ∧ r.literal? = none then rewrite .eql r l
  else if (← Attempt.range l).meets (← Attempt.range r) then
    if l.alike r then .literal 1 else .finish reuse? .eql l r
  else .literal 0

/-- The value of an operator on two literals, if it has one. -/
def folded? (op : Operator) (l r : Expr) : Option Word :=
  match l, r with
  | .literal _ a, .literal _ b => (op.apply a b).toOption
  | _, _ => none

/-- The rules of an operator. -/
def ruleOf (reuse? : Option Expr) : Operator → Expr → Expr → Attempt Expr
  | .add, l, r => addRound rewrite reuse? l r
  | .mul, l, r => mulRound rewrite reuse? l r
  | .div, l, r => divRound rewrite reuse? l r
  | .mod, l, r => modRound rewrite reuse? l r
  | .eql, l, r => eqlRound rewrite reuse? l r

/-- One round of rewriting.  A quotient or remainder by the literal 0 stays as
    it is, literals are folded, and then the rules of the operator apply. -/
def oneRound (reuse? : Option Expr) (op : Operator) (l r : Expr) : Attempt Expr :=
  if (op = .div ∨ op = .mod) ∧ r.literal? = some 0 then .node reuse? op l r
  else match folded? op l r with
    | some v => .literal v
    | none => ruleOf rewrite reuse? op l r

end Rules

/-- Rewriting with calls up to a depth.  A call is given no node to use again. -/
def rewriteWithin : (depth : Nat) → Option Expr → Operator → Expr → Expr → Attempt Expr
  | 0, _, _, _, _ => .tooDeep
  | depth + 1, reuse?, op, l, r => oneRound (rewriteWithin depth none) reuse? op l r

/-! ## Answers -/

variable {x : Nat → Attempt α} {y : Build α} {f : Nat → α → Attempt β} {g : Graph}

theorem settles_identity (g : Graph) :
    Settles (fun _ => Attempt.identity) Build.identity g :=
  GraphM.settles_request .identity g

theorem settles_range (e : Expr) (g : Graph) :
    Settles (fun _ => Attempt.range e) (liftM e.range) g :=
  GraphM.settles_request (.range e) g

theorem settles_literal (value : Word) (g : Graph) :
    Settles (fun _ => Attempt.literal value) (Build.literal value) g :=
  (settles_identity g).bind fun _ g => settles_pure _ g

theorem settles_node (reuse? : Option Expr) (op : Operator) (l r : Expr) (g : Graph) :
    Settles (fun _ => Attempt.node reuse? op l r) (node reuse? op l r) g := by
  have new : Settles (fun _ => do return .binary (← Attempt.identity) true op l r)
      (Build.settled op l r) g := (settles_identity g).bind fun _ g => settles_pure _ g
  cases reuse? with
  | none => exact new
  | some e =>
    simp only [Attempt.node, node]
    split
    · exact settles_pure e g
    · exact new

theorem settles_finish (reuse? : Option Expr) (op : Operator) (l r : Expr) (g : Graph) :
    Settles (fun _ => Attempt.finish reuse? op l r) (finish reuse? op l r) g := by
  refine (settles_node reuse? op l r g).bind fun e g => (settles_range e g).bind fun range g => ?_
  cases range.singleValue? with
  | some value => exact settles_literal value g
  | none => exact settles_pure e g

theorem settles_isNonzero (r : Expr) (g : Graph) :
    Settles (fun _ => Attempt.isNonzero r) (liftM (isNonzero r)) g := by
  rw [isNonzero, Build.liftM_bind]
  exact (settles_range r g).bind fun _ g => settles_pure _ g

theorem settles_isMultiple (c : Word) (e : Expr) (g : Graph) :
    Settles (fun _ => Attempt.isMultiple c e) (liftM (isMultiple c e)) g := by
  have other : Settles (fun _ => .ask (.multiples e c) .done)
      (liftM do (← e.range).multiplesOf c) g := GraphM.settles_request (.multiples e c) g
  cases e with
  | literal id value => exact settles_pure _ g
  | input id index => exact other
  | binary id settled op l r =>
    cases op with
    | mul =>
      cases r with
      | literal rid k =>
        simp only [Attempt.isMultiple, isMultiple]
        split
        · exact settles_pure true g
        · exact other
      | _ => exact other
    | _ => exact other

theorem settles_separate (c : Word) (ts : List Expr) (g : Graph) :
    Settles (fun _ => Attempt.separate c ts) (liftM (separate c ts)) g := by
  induction ts generalizing g with
  | nil => exact settles_pure _ g
  | cons t ts ih =>
    rw [separate, Build.liftM_bind]
    refine (settles_isMultiple c t g).bind fun isM g => ?_
    rw [Build.liftM_bind]
    exact (ih g).bind fun parts g => settles_pure _ g

theorem settles_cancel? (l r : Expr) (g : Graph) :
    Settles (fun _ => Attempt.cancel? l r) (cancel? l r) g := by
  have ifNonzero {x : Attempt (Option Expr)} {y : Build (Option Expr)}
      (h : ∀ g, Settles (fun _ => x) y g) :
      Settles (fun _ => do if ← Attempt.isNonzero r then x else return none)
        (do if ← isNonzero r then y else return none) g := by
    refine (settles_isNonzero r g).bind fun nonzero g => ?_
    split
    · exact h g
    · exact settles_pure none g
  unfold Attempt.cancel? cancel?
  split
  · exact ifNonzero fun g => (settles_literal 0 g).bind fun _ g => settles_pure _ g
  split
  · exact ifNonzero fun g => (settles_literal 1 g).bind fun _ g => settles_pure _ g
  cases l with
  | binary id settled op x y =>
    cases op with
    | mul => exact ifNonzero fun g => settles_pure _ g
    | _ => exact settles_pure none g
  | _ => exact settles_pure none g

theorem Settles.mapM_attach {as : List α} {k : α → Build β}
    (h : ∀ a ∈ as, ∀ g, Settles (fun d => f d a) (k a) g) (g : Graph) :
    Settles (fun d => as.mapM (f d)) (as.attach.mapM fun a => k a.1) g := by
  rw [List.mapM_subtype (g := k) fun _ _ => rfl, List.unattach_attach]
  induction as generalizing g with
  | nil => exact settles_pure [] g
  | cons a as ih =>
    simp only [List.mapM_cons]
    refine (h a List.mem_cons_self g).bind fun b g => ?_
    exact (ih (fun a ha => h a (List.mem_cons_of_mem _ ha)) g).bind fun bs g =>
      settles_pure (b :: bs) g

/-! ## Rounds -/

/-- A new literal has a new identity. -/
theorem Settles.literal {f : Nat → Expr → Attempt β} {k : Nat → Build β} {v : Word}
    (h : ∀ id g, Settles (fun d => f d (.literal id v)) (k id) g) :
    Settles (fun d => Attempt.literal v >>= f d) (Build.identity >>= k) g :=
  (settles_identity g).bind h

theorem literal?_literal (id : Nat) (value : Word) :
    (Expr.literal id value).literal? = some value := rfl

theorem literal?_eq_none {e : Expr} (h : ∀ id value, e = .literal id value → False) :
    e.literal? = none := by
  cases e with
  | literal id value => exact (h id value rfl).elim
  | _ => rfl

variable {reuse? : Option Expr} {op : Operator} {l r : Expr} {id : Nat} {c v : Word}
  {z : Build Expr}

theorem folded?_eq_none_left (hl : l.literal? = none) : folded? op l r = none := by
  cases l with
  | literal => cases hl
  | _ => rfl

theorem folded?_eq_none_right (hr : r.literal? = none) : folded? op l r = none := by
  cases r with
  | literal => cases hr
  | _ => cases l <;> rfl

/-- One round more. -/
theorem Settles.deeper
    (h : Settles (fun d => oneRound (rewriteWithin d none) reuse? op l r) z g) :
    Settles (fun d => rewriteWithin d reuse? op l r) z g := by
  obtain ⟨depth, h⟩ := h
  refine ⟨depth + 1, fun d hd => ?_⟩
  obtain ⟨d, rfl⟩ := Nat.exists_eq_add_one_of_ne_zero (show d ≠ 0 by omega)
  exact h d (by omega)

theorem Settles.zeroDivisor (hop : op = .div ∨ op = .mod) (hr : r.literal? = some 0) :
    Settles (fun d => rewriteWithin d reuse? op l r) (node reuse? op l r) g := by
  apply Settles.deeper
  simp only [oneRound, if_pos (And.intro hop hr)]
  exact settles_node reuse? op l r g

section Nonzero

variable (h₀ : ¬ ((op = .div ∨ op = .mod) ∧ r.literal? = some 0))
include h₀

theorem Settles.folded (hf : folded? op l r = some v) :
    Settles (fun d => rewriteWithin d reuse? op l r) (Build.literal v) g := by
  apply Settles.deeper
  simp only [oneRound, if_neg h₀, hf]
  exact settles_literal v g

/-- Where nothing is folded, the rules of the operator apply. -/
theorem Settles.rule (hf : folded? op l r = none)
    (h : Settles (fun d => ruleOf (rewriteWithin d none) reuse? op l r) z g) :
    Settles (fun d => rewriteWithin d reuse? op l r) z g := by
  apply Settles.deeper
  simp only [oneRound, if_neg h₀, hf]
  exact h

end Nonzero

theorem not_zeroDivisor (hc : c ≠ 0) :
    ¬ ((op = .div ∨ op = .mod) ∧ (Expr.literal id c).literal? = some 0) := by
  simpa [literal?_literal] using fun _ => hc

/-- A literal on the left goes to the right. -/
theorem swap_settles (hop : op ≠ .div ∧ op ≠ .mod) (hr : r.literal? = none)
    (h : Settles (fun d => rewriteWithin d none op r (.literal id c)) z g) :
    Settles (fun d => rewriteWithin d reuse? op (.literal id c) r) z g := by
  refine .rule (by simp [hop]) (folded?_eq_none_right hr) ?_
  cases op with
  | add => simpa [ruleOf, addRound, literal?_literal, hr] using h
  | mul => simpa [ruleOf, mulRound, literal?_literal, hr] using h
  | eql => simpa [ruleOf, eqlRound, literal?_literal, hr] using h
  | div => cases hop.1 rfl
  | mod => cases hop.2 rfl

/-! ## Sums -/

theorem addLiteralRound_settles (hl : l.literal? = none)
    (h : Settles (fun d => addLiteralRound (rewriteWithin d none) reuse? id c l) z g) :
    Settles (fun d => rewriteWithin d reuse? .add l (.literal id c)) z g :=
  .rule (by simp) (folded?_eq_none_left hl) (by simpa [ruleOf, addRound, hl] using h)

theorem addLiteral_settles (reuse? : Option Expr) (id : Nat) (c : Word) (l : Expr) (g : Graph) :
    Settles (fun d => rewriteWithin d reuse? .add l (.literal id c)) (addLiteral reuse? id c l)
      g := by
  fun_induction addLiteral reuse? id c l generalizing g with
  | case1 => exact .folded (by simp) rfl
  | case2 => exact addLiteralRound_settles rfl (settles_pure _ g)
  | case3 reuse? id c i settled x j b hc ih =>
    refine addLiteralRound_settles rfl ?_
    simp only [addLiteralRound, if_neg hc]
    exact .literal fun id g => ih id g
  | case4 reuse? id l hl h =>
    refine addLiteralRound_settles (literal?_eq_none hl) ?_
    simp only [addLiteralRound, if_true]
    exact settles_pure _ g
  | case5 reuse? id c l hl h hc =>
    refine addLiteralRound_settles (literal?_eq_none hl) ?_
    simp only [addLiteralRound, if_neg hc]
    exact settles_finish ..

theorem add_settles (reuse? : Option Expr) (l r : Expr) (g : Graph) :
    Settles (fun d => rewriteWithin d reuse? .add l r) (add reuse? l r) g := by
  fun_induction add reuse? l r generalizing g with
  | case1 reuse? id c => exact addLiteral_settles reuse? id c _ g
  | case2 reuse? i settled y id c lid a heq =>
    subst heq
    exact swap_settles (by decide) rfl (addLiteral_settles none lid a _ g)
  | case3 reuse? i settled y id c hl ih =>
    replace hl := literal?_eq_none hl
    refine .rule (by simp) (folded?_eq_none_left hl) ?_
    simp only [ruleOf, addRound, hl]
    exact (ih g).bind fun inner g => addLiteral_settles none id c inner g
  | case4 reuse? r hr h lid a heq =>
    subst heq
    exact swap_settles (by decide) (literal?_eq_none hr) (addLiteral_settles none lid a _ g)
  | case5 reuse? r hr h hl =>
    replace hl := literal?_eq_none hl
    refine .rule (by simp) (folded?_eq_none_left hl) ?_
    simp only [ruleOf, addRound, hl]
    exact settles_finish ..

theorem sumRound_settles (ts : List Expr) (g : Graph) :
    Settles (fun d => sumRound (rewriteWithin d none) ts) (sumOf ts) g := by
  have fold (ts : List Expr) (t : Expr) (g : Graph) :
      Settles (fun d => ts.foldlM (rewriteWithin d none .add) t) (ts.foldlM (add none) t) g := by
    induction ts generalizing t g with
    | nil => exact settles_pure t g
    | cons u ts ih =>
      simp only [List.foldlM_cons]
      exact (add_settles none t u g).bind fun s g => ih s g
  cases ts with
  | nil => exact settles_literal 0 g
  | cons t ts => exact fold ts t g

/-! ## Products -/

theorem mulLiteralRound_settles (hl : l.literal? = none)
    (h : Settles (fun d => mulLiteralRound (rewriteWithin d none) reuse? id c l) z g) :
    Settles (fun d => rewriteWithin d reuse? .mul l (.literal id c)) z g :=
  .rule (by simp) (folded?_eq_none_left hl) (by simpa [ruleOf, mulRound, hl] using h)

theorem mulLiteral_settles (reuse? : Option Expr) (id : Nat) (c : Word) (l : Expr) (g : Graph) :
    Settles (fun d => rewriteWithin d reuse? .mul l (.literal id c)) (mulLiteral reuse? id c l)
      g := by
  induction l generalizing reuse? id c g with
  | literal => exact .folded (by simp) rfl
  | input =>
    refine mulLiteralRound_settles rfl ?_
    simp only [mulLiteralRound, mulLiteral]
    split
    · exact settles_literal 0 g
    split
    · exact settles_pure _ g
    · exact settles_finish ..
  | binary i settled op x r ihx ihr =>
    refine mulLiteralRound_settles rfl ?_
    rw [mulLiteral.eq_def]
    simp only [mulLiteralRound]
    split
    · exact settles_literal 0 g
    split
    · exact settles_pure _ g
    have other := settles_finish reuse? .mul (.binary i settled op x r) (.literal id c) g
    cases op with
    | mul =>
      cases r with
      | literal j k => exact .literal fun id g => ihx none id (k * c) g
      | _ => exact other
    | add =>
      refine (ihx none id c g).bind fun a g => ?_
      exact (ihr none id c g).bind fun b g => add_settles none a b g
    | _ => exact other

theorem mul_settles (reuse? : Option Expr) (l r : Expr) (g : Graph) :
    Settles (fun d => rewriteWithin d reuse? .mul l r) (mul reuse? l r) g := by
  fun_cases mul reuse? l r with
  | case1 => exact mulLiteral_settles reuse? _ _ l g
  | case2 id a =>
    rename_i hr
    exact swap_settles (by decide) (literal?_eq_none hr) (mulLiteral_settles none id a r g)
  | case3 =>
    rename_i hl _
    replace hl := literal?_eq_none hl
    refine .rule (by simp) (folded?_eq_none_left hl) ?_
    simp only [ruleOf, mulRound, hl]
    exact settles_finish ..

/-! ## Quotients -/

theorem splitRound_settles (sum : Expr) (c : Word) (g : Graph) :
    Settles (fun d => splitRound (rewriteWithin d none) sum c) (splitSum sum c) g := by
  refine (settles_separate c _ g).bind fun p g => ?_
  obtain ⟨multiples, others⟩ := p
  simp only []
  split
  · exact settles_pure none g
  refine (sumRound_settles multiples g).bind fun multipleSum g => ?_
  refine (sumRound_settles others g).bind fun rest g => ?_
  refine (settles_range multipleSum g).bind fun r g => ?_
  refine (settles_range rest g).bind fun r' g => ?_
  split
  · exact settles_pure _ g
  · exact settles_pure _ g

theorem divLiteral_settles (reuse? : Option Expr) (id : Nat) (c : Word) (l : Expr) (g : Graph) :
    Settles (fun d => rewriteWithin d reuse? .div l (.literal id c)) (divLiteral reuse? id c l)
      g := by
  induction hw : weight l using Nat.strongRecOn generalizing reuse? id c l g with
  | ind n ih =>
  subst hw
  -- the divisor may grow from call to call, but the dividend gets smaller
  have smaller {m : Expr} (hlt : weight m < weight l) (id : Nat) (c : Word) (g : Graph) :
      Settles (fun d => rewriteWithin d none .div m (.literal id c)) (divLiteral none id c m) g :=
    ih (weight m) hlt none id c m g rfl
  rw [divLiteral.eq_def]
  split
  · rename_i hc
    subst hc
    exact .zeroDivisor (.inl rfl) rfl
  rename_i hc
  split
  · rename_i a ha
    obtain ⟨i, rfl⟩ := literal?_eq_some ha
    exact .folded (not_zeroDivisor hc) (by simp [folded?, Operator.apply, hc, Except.toOption])
  rename_i hlit
  replace hlit := literal?_eq_none (not_literal hlit)
  refine .rule (not_zeroDivisor hc) (folded?_eq_none_left hlit) ?_
  refine (settles_cancel? l _ g).bind fun e? g => ?_
  cases e? with
  | some e => exact settles_pure e g
  | none =>
  simp only [divLiteralRound]
  split
  · exact settles_pure l g
  split
  · exact .literal fun id g => mulLiteral_settles none id (-1) l g
  refine (settles_range l g).bind fun range g => ?_
  split
  · exact settles_literal _ g
  -- the two sides match on the dividend in ways of their own, so it is taken apart for both
  have other := settles_finish reuse? .div l (.literal id c) g
  cases l with
  | literal => cases hlit
  | input => exact other
  | binary i settled op x r =>
  cases op with
  | mul =>
    cases r with
    | literal j k =>
      simp only []
      split
      · exact .literal fun id g => mulLiteral_settles none id (k / c) x g
      split
      · exact .literal fun id g => smaller (by simp only [weight]; omega) id (c / k) g
      · exact other
    | _ => exact other
  | div =>
    cases r with
    | literal j b =>
      simp only []
      cases positiveProduct? b c with
      | some d => exact .literal fun id g => smaller (by simp only [weight]; omega) id d g
      | none => exact other
    | _ => exact other
  | add =>
    refine (splitRound_settles _ c g).bind_attach fun s? g => ?_
    obtain ⟨_ | s, below⟩ := s?
    · exact settles_finish ..
    have parts := Settles.mapM_attach
      (f := fun d m => do rewriteWithin d none .div m (← Attempt.literal c))
      (k := fun m => do divLiteral none (← Build.identity) c m)
      (fun m (hm : m ∈ s.multiples) g => .literal fun id g =>
        smaller ((below s rfl).1 m hm) id c g) g
    refine parts.bind fun quotients g => .literal fun id g => ?_
    exact (smaller (below s rfl).2 id c g).bind fun rest g => sumRound_settles _ g
  | _ => exact other

theorem div_settles (reuse? : Option Expr) (l r : Expr) (g : Graph) :
    Settles (fun d => rewriteWithin d reuse? .div l r) (div reuse? l r) g := by
  fun_cases div reuse? l r with
  | case1 id c => exact divLiteral_settles reuse? id c l g
  | case2 =>
    rename_i hr
    have hr' := literal?_eq_none hr
    refine .rule (by simp [hr']) (folded?_eq_none_right hr') ?_
    refine (settles_cancel? l _ g).bind fun e? g => ?_
    cases e? with
    | some e => exact settles_pure e g
    | none =>
      simp only []
      exact settles_finish ..

/-! ## Remainders -/

theorem modRound_of_ne {rewrite : Operator → Expr → Expr → Attempt Expr}
    (hl : l.literal? ≠ some 0) :
    modRound rewrite reuse? l r =
      match r with
      | .literal id c => modLiteralRound rewrite reuse? id c l
      | r => .finish reuse? .mod l r := by
  unfold modRound isZeroOver
  rw [if_neg hl]
  rfl

theorem modLiteral_settles (reuse? : Option Expr) (id : Nat) (c : Word) (l : Expr) (g : Graph) :
    Settles (fun d => rewriteWithin d reuse? .mod l (.literal id c)) (modLiteral reuse? id c l)
      g := by
  induction hw : weight l using Nat.strongRecOn generalizing reuse? l g with
  | ind n ih =>
  subst hw
  have smaller {m : Expr} (hlt : weight m < weight l) (g : Graph) :
      Settles (fun d => rewriteWithin d none .mod m (.literal id c)) (modLiteral none id c m) g :=
    ih (weight m) hlt none m g rfl
  rw [modLiteral.eq_def]
  split
  · rename_i hc
    subst hc
    exact .zeroDivisor (.inr rfl) rfl
  rename_i hc
  split
  · rename_i a ha
    obtain ⟨i, rfl⟩ := literal?_eq_some ha
    exact .folded (not_zeroDivisor hc) (by simp [folded?, Operator.apply, hc, Except.toOption])
  rename_i hlit
  replace hlit := literal?_eq_none (not_literal hlit)
  refine .rule (not_zeroDivisor hc) (folded?_eq_none_left hlit) ?_
  simp only [ruleOf, modRound_of_ne (show l.literal? ≠ some 0 by simp [hlit]), modLiteralRound]
  split
  · exact settles_literal _ g
  refine (settles_range l g).bind fun range g => ?_
  split
  · exact settles_pure l g
  refine (settles_isMultiple c l g).bind fun multiple g => ?_
  split
  · exact settles_literal _ g
  have other := settles_finish reuse? .mod l (.literal id c) g
  cases l with
  | literal => cases hlit
  | input => exact other
  | binary i settled op x r =>
  cases op with
  | mod =>
    cases r with
    | literal j b =>
      simp only []
      split
      · exact smaller (by simp only [weight]; omega) g
      · exact other
    | _ => exact other
  | add =>
    refine (splitRound_settles _ c g).bind_attach fun s? g => ?_
    obtain ⟨_ | s, below⟩ := s?
    · exact settles_finish ..
    · exact smaller (below s rfl).2 g
  | _ => exact other

theorem mod_settles (reuse? : Option Expr) (l r : Expr) (g : Graph) :
    Settles (fun d => rewriteWithin d reuse? .mod l r) (mod reuse? l r) g := by
  unfold mod
  split
  · exact modLiteral_settles reuse? _ _ l g
  rename_i hr
  have hr' := literal?_eq_none hr
  refine .rule (by simp [hr']) (folded?_eq_none_right hr') ?_
  split
  · rename_i hl
    simp only [ruleOf, modRound, isZeroOver, if_pos hl]
    refine (settles_isNonzero r g).bind fun nonzero g => ?_
    split
    · exact settles_literal _ g
    · exact settles_finish ..
  · rename_i hl
    simp only [ruleOf, modRound_of_ne hl]
    exact settles_finish ..

/-! ## Equality tests -/

theorem eqlOrdered_settles (hl : l.literal? = none) (g : Graph) :
    Settles (fun d => rewriteWithin d reuse? .eql l r) (eqlOrdered reuse? l r) g := by
  refine .rule (by simp) (folded?_eq_none_left hl) ?_
  simp only [ruleOf, eqlRound, hl]
  refine (settles_range l g).bind fun s g => (settles_range r g).bind fun s' g => ?_
  split
  · split
    · exact settles_literal _ g
    · exact settles_finish ..
  · exact settles_literal _ g

theorem eql_settles (reuse? : Option Expr) (l r : Expr) (g : Graph) :
    Settles (fun d => rewriteWithin d reuse? .eql l r) (eql reuse? l r) g := by
  fun_cases eql reuse? l r with
  | case1 => exact .folded (by simp) rfl
  | case2 id a =>
    rename_i hr
    replace hr := literal?_eq_none hr
    exact swap_settles (by decide) hr (eqlOrdered_settles hr g)
  | case3 =>
    rename_i hl _
    exact eqlOrdered_settles (literal?_eq_none hl) g

theorem operation_settles (reuse? : Option Expr) (op : Operator) (l r : Expr) (g : Graph) :
    Settles (fun d => rewriteWithin d reuse? op l r) (operation reuse? op l r) g := by
  cases op with
  | add => exact add_settles reuse? l r g
  | mul => exact mul_settles reuse? l r g
  | div => exact div_settles reuse? l r g
  | mod => exact mod_settles reuse? l r g
  | eql => exact eql_settles reuse? l r g

end InputSolver.Normal
