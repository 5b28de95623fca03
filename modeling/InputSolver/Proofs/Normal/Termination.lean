/-
  InputSolver — simplification by rewriting ends.

  `normalizeWithin` and `simplifyWithin` take an expression down to its
  operands and up again, as normalization and simplification do, but every
  operation on the way up is a rewriting that may call itself up to some depth.

  * `normalize_settles`, `simplify_settles`: from some depth on no rewriting
    breaks off, and the outcome is that of `normalize` and `simplify`;
  * `rewriting_ends` puts together the rewriting of one operator and the
    simplification of an expression, and says where a fault comes from: from an
    expression on the way whose range has no answer.
-/
import InputSolver.Proofs.Normal.Rewriting

namespace InputSolver.GraphM

open InputSolver.Normal

/-! ## Simplification by rewriting -/

/-- The normal form of a node, where it is known. -/
def askNormalForm? (e : Expr) : Attempt (Option Expr) :=
  match e with
  | .binary id settled .. => if settled then return some e else .ask (.normalForm id) .done
  | _ => return some e

/-- The normal form of an expression, by rewriting up to a depth. -/
def normalizeWithin (depth : Nat) : Expr → Attempt Expr
  | e@(.binary id _ op l r) => do
    match ← askNormalForm? e with
    | some n => return n
    | none =>
      let l ← normalizeWithin depth l
      let r ← normalizeWithin depth r
      let n ← rewriteWithin depth (some e) op l r
      .ask (.record id n) .done
      return n
  | e => return e

/-- The normal form with bound inputs replaced, by the results so far and by
    rewriting up to a depth. -/
def replaceWithin (depth : Nat) (a : Assignment) : Expr → StateT Memo Attempt Expr
  | e@(.literal ..) => return e
  | e@(.input _ index) =>
    match a.get? index with
    | some value => Attempt.literal value
    | none => return e
  | e@(.binary id _ op l r) => do
    if touches a e then
      match (← get)[id]? with
      | some n => return n
      | none =>
        let l ← replaceWithin depth a l
        let r ← replaceWithin depth a r
        let n ← rewriteWithin depth (some e) op l r
        modify (·.insert id n)
        return n
    else normalizeWithin depth e

/-- The normal form with the inputs that an assignment binds replaced by their
    values, by rewriting up to a depth. -/
def simplifyWithin (depth : Nat) (a : Assignment) (e : Expr) : Attempt Expr :=
  if a.isEmpty then normalizeWithin depth e else (replaceWithin depth a e).run' ∅

/-! ## Enough depth -/

theorem settles_normalForm? (e : Expr) (g : Graph) :
    Settles (fun _ => askNormalForm? e) (normalForm? e) g := by
  cases e with
  | binary id settled =>
    cases settled with
    | true => exact settles_pure _ g
    | false => exact settles_request (.normalForm id) g
  | _ => exact settles_pure _ g

theorem normalize_settles (e : Expr) (g : Graph) :
    Settles (fun d => normalizeWithin d e) (normalize e) g := by
  induction e generalizing g with
  | literal => exact settles_pure _ g
  | input => exact settles_pure _ g
  | binary id settled op l r ihl ihr =>
    simp only [normalizeWithin, normalize]
    refine (settles_normalForm? _ g).bind fun n? g => ?_
    cases n? with
    | some n => exact settles_pure n g
    | none =>
      refine (ihl g).bind fun l' g => (ihr g).bind fun r' g => ?_
      refine Settles.bind (operation_settles _ op l' r' g) fun n g => ?_
      exact (settles_request (.record id n) g).bind fun _ g => settles_pure n g

theorem replaceWithin_input_run (depth : Nat) (p : Assignment) (id index : Nat) (memo : Memo) :
    (replaceWithin depth p (.input id index)).run memo =
      match p.get? index with
      | some value => do
        let e ← Attempt.literal value
        return (e, memo)
      | none => return (.input id index, memo) := by
  rw [replaceWithin]
  cases p.get? index <;> rfl

theorem replaceWithin_binary_run (depth : Nat) (p : Assignment) (id : Nat) (settled : Bool)
    (op : Operator) (l r : Expr) (memo : Memo) :
    (replaceWithin depth p (.binary id settled op l r)).run memo =
      if touches p (.binary id settled op l r) then
        match memo[id]? with
        | some n => return (n, memo)
        | none => do
          let (l', memo) ← (replaceWithin depth p l).run memo
          let (r', memo) ← (replaceWithin depth p r).run memo
          let n ← rewriteWithin depth (some (.binary id settled op l r)) op l' r'
          return (n, memo.insert id n)
      else do
        let n ← normalizeWithin depth (.binary id settled op l r)
        return (n, memo) := by
  rw [replaceWithin]
  split
  · change (match memo[id]? with
      | some n => return n
      | none => _ : StateT Memo Attempt Expr).run memo = _
    cases memo[id]? with
    | some n => rfl
    | none =>
      simp only [StateT.run_bind, StateT.run_monadLift, monadLift_self, bind_assoc, pure_bind,
        StateT.run_pure]
      rfl
  · rfl

theorem replace_settles (p : Assignment) (e : Expr) (memo : Memo) (g : Graph) :
    Settles (fun d => (replaceWithin d p e).run memo) ((simplifyWith p e).run memo) g := by
  induction e generalizing memo g with
  | literal => exact settles_pure _ g
  | input id index =>
    simp only [replaceWithin_input_run, simplifyWith_input_run]
    cases p.get? index with
    | some value => exact Settles.bind (settles_literal value g) fun e g => settles_pure _ g
    | none => exact settles_pure _ g
  | binary id settled op l r ihl ihr =>
    simp only [replaceWithin_binary_run, simplifyWith_binary_run]
    split
    · cases memo[id]? with
      | some n => exact settles_pure _ g
      | none =>
        refine (ihl memo g).bind fun l' g => (ihr l'.2 g).bind fun r' g => ?_
        exact Settles.bind (operation_settles _ op l'.1 r'.1 g) fun n g => settles_pure _ g
    · exact (normalize_settles _ g).bind fun n g => settles_pure _ g

theorem simplify_settles (p : Assignment) (e : Expr) (g : Graph) :
    Settles (fun d => simplifyWithin d p e) (simplify p e) g := by
  unfold simplifyWithin simplify
  split
  · exact normalize_settles e g
  · exact (replace_settles p e ∅ g).bind fun r g => settles_pure r.1 g

/-- Rewriting ends.  On any operands, whatever their form and their literals,
    and on any graph under any assignment, some depth is enough for all calls:
    from that depth on the rewriting comes to one outcome, the one of the
    operation or of the simplification.  It is a result, unless the rewriting
    comes to an expression whose range has no answer. -/
theorem rewriting_ends :
    (∀ reuse? op l r g, ∃ depth, ∀ d, depth ≤ d →
      Does (rewriteWithin d reuse? op l r) (build (operation reuse? op l r)) g) ∧
    ∀ p e g, ∃ depth, ∀ d, depth ≤ d → Does (simplifyWithin d p e) (simplify p e) g :=
  ⟨fun reuse? op l r g => Settles.does (operation_settles reuse? op l r g),
    fun p e g => (simplify_settles p e g).does⟩

end InputSolver.GraphM
