/-
  InputSolver — values of expressions.

  * `evaluate_eq_valueOn`: computing each shared node once gives the value, or
    the error, that recursion along every path gives.
-/
import InputSolver.Expr.Evaluate
import InputSolver.Proofs.Expr.Heap
import InputSolver.Proofs.Expr.Magnitude

namespace InputSolver.Expr

/-- The recorded values are values of the nodes. -/
def Values.Sound (h : Heap) (a : Assignment) (values : Values) : Prop :=
  ∀ (id : Nat) (v : Word), values[id]? = some v → valueOn a (h.node id) = .ok v

theorem Values.Sound.insert {h : Heap} {a : Assignment} {values : Values} (hv : values.Sound h a)
    {e : Expr} (he : h.Holds e) {v : Word} (hval : valueOn a e = .ok v) :
    Values.Sound h a (Std.HashMap.insert values e.id v) := by
  intro id w hw
  rw [Std.HashMap.getElem?_insert] at hw
  split at hw
  · rename_i heq
    cases hw
    rw [← eq_of_beq heq, he.self.2]
    exact hval
  · exact hv id w hw

theorem evaluateWith_binary (a : Assignment) (i : Nat) (settled : Bool) (op : Operator)
    (l r : Expr) (values : Values) :
    evaluateWith a (binary i settled op l r) values =
      match values[i]? with
      | some v => .ok (v, values)
      | none => do
        let (x, values) ← evaluateWith a l values
        let (y, values) ← evaluateWith a r values
        let v ← op.apply x y
        return (v, values.insert i v) := by
  rw [evaluateWith]
  change StateT.run (get >>= _) values = _
  rw [StateT.run_bind, StateT.run_get]
  simp only [pure_bind]
  cases values[i]? with
  | some v => rfl
  | none =>
    simp only [StateT.run_bind, StateT.run_monadLift, bind_assoc, pure_bind, StateT.run_pure,
      monadLift_self]
    rfl

/-- The outcome with recorded values is the value by recursion, and what is
    recorded stays sound. -/
theorem evaluateWith_of_holds {h : Heap} {a : Assignment} {e : Expr} (he : h.Holds e)
    {values : Values} (hv : values.Sound h a) :
    match valueOn a e with
    | .ok v => ∃ values', evaluateWith a e values = .ok (v, values') ∧
        Values.Sound h a values'
    | .error f => evaluateWith a e values = .error f := by
  induction e generalizing values with
  | literal i value => exact ⟨values, rfl, hv⟩
  | input i index =>
    simp only [valueOn, evaluateWith]
    cases a.get? index with
    | none => rfl
    | some value => exact ⟨values, rfl, hv⟩
  | binary i settled op l r ihl ihr =>
    rw [evaluateWith_binary]
    cases hmemo : values[i]? with
    | some v =>
      have hval := hv i v hmemo
      rw [(Heap.holds_binary.1 he).1.2] at hval
      rw [hval]
      exact ⟨values, rfl, hv⟩
    | none =>
      have hl := ihl he.left hv
      simp only [valueOn]
      cases hvl : valueOn a l with
      | error f =>
        simp only [hvl] at hl
        rw [hl]
        rfl
      | ok x =>
        simp only [hvl] at hl
        obtain ⟨values₁, hl, hv₁⟩ := hl
        have hr := ihr he.right hv₁
        rw [hl]
        cases hvr : valueOn a r with
        | error f =>
          simp only [hvr] at hr
          simp only [bind, Except.bind, hr]
        | ok y =>
          simp only [hvr] at hr
          obtain ⟨values₂, hr, hv₂⟩ := hr
          simp only [bind, Except.bind, hr]
          cases hop : op.apply x y with
          | error f => rfl
          | ok v =>
            refine ⟨_, rfl, hv₂.insert he ?_⟩
            exact valueOn_binary.2 ⟨x, y, hvl, hvr, hop⟩

/-- Computing each shared node once gives the same outcome. -/
theorem evaluate_eq_valueOn {h : Heap} {e : Expr} (he : h.Holds e) (a : Assignment) :
    e.evaluate a = valueOn a e := by
  have hempty : Values.Sound h a ∅ := by
    intro id v hv
    rw [Std.HashMap.getElem?_empty] at hv
    cases hv
  have hrun := evaluateWith_of_holds he hempty
  change (fun p : Word × Values => p.1) <$> evaluateWith a e ∅ = valueOn a e
  cases hval : valueOn a e with
  | error f =>
    simp only [hval] at hrun
    rw [hrun]
    rfl
  | ok v =>
    simp only [hval] at hrun
    obtain ⟨values', hrun, -⟩ := hrun
    rw [hrun]
    rfl

end InputSolver.Expr
