/-
  InputSolver — equality of expressions.

  * `alike_of_holds`: expressions of one heap that compare as alike are alike;
  * `Alike.valueOn_eq`: alike expressions have the same value, or the same
    error, under every assignment.
-/
import InputSolver.Expr.Equality
import InputSolver.Expr.Evaluate
import InputSolver.Proofs.Expr.Heap

namespace InputSolver.Expr

theorem Alike.refl (e : Expr) : Alike e e := by
  induction e with
  | literal id value => exact Eq.refl value
  | input id index => exact Eq.refl index
  | binary id settled op l r ihl ihr => exact ⟨Eq.refl op, ihl, ihr⟩

/-- Alike expressions have the same value. -/
theorem Alike.valueOn_eq {e e' : Expr} (h : Alike e e') (a : Assignment) :
    valueOn a e = valueOn a e' := by
  induction e generalizing e' with
  | literal i value =>
    cases e' with
    | literal j value' =>
      obtain rfl : value = value' := h
      rfl
    | _ => exact absurd h not_false
  | input i index =>
    cases e' with
    | input j index' =>
      obtain rfl : index = index' := h
      rfl
    | _ => exact absurd h not_false
  | binary i settled op l r ihl ihr =>
    cases e' with
    | binary j settled' op' l' r' =>
      obtain ⟨rfl, hl, hr⟩ := h
      simp only [valueOn, ihl hl, ihr hr]
    | _ => exact absurd h not_false

/-- The recorded pairs are identities of alike nodes. -/
def Pairs.Sound (h : Heap) (pairs : Pairs) : Prop :=
  ∀ i j, (i, j) ∈ pairs → Alike (h.node i) (h.node j)

theorem Pairs.Sound.insert {h : Heap} {pairs : Pairs} (hp : pairs.Sound h) {e e' : Expr}
    (he : h.Holds e) (he' : h.Holds e') (halike : Alike e e') :
    Pairs.Sound h (Std.HashSet.insert pairs (e.id, e'.id)) := by
  intro i j hij
  rcases Std.HashSet.mem_insert.1 hij with heq | hij
  · obtain ⟨rfl, rfl⟩ := Prod.mk.inj (eq_of_beq heq)
    rw [he.self.2, he'.self.2]
    exact halike
  · exact hp i j hij

theorem compareWith_run_binary (i j : Nat) (settled settled' : Bool) (op op' : Operator)
    (l r l' r' : Expr) (pairs : Pairs) :
    (compareWith (binary i settled op l r) (binary j settled' op' l' r')).run pairs =
      if i = j then (true, pairs)
      else if op ≠ op' ∨ (binary i settled op l r).inputSpan ≠
          (binary j settled' op' l' r').inputSpan then (false, pairs)
      else if pairs.contains (i, j) then (true, pairs)
      else
        let (same, pairs) := (compareWith l l').run pairs
        if same then
          let (same, pairs) := (compareWith r r').run pairs
          if same then (true, pairs.insert (i, j)) else (false, pairs)
        else (false, pairs) := by
  rw [compareWith]
  split
  · rfl
  · split
    · rfl
    · simp only [StateT.run_bind, StateT.run_get, pure_bind]
      split
      · rfl
      · rw [StateT.run_bind]
        rcases (compareWith l l').run pairs with ⟨_ | _, pairs₁⟩
        · rfl
        · simp only [↓reduceIte]
          change (compareWith r r' >>= _).run pairs₁ = _
          rw [StateT.run_bind]
          rcases (compareWith r r').run pairs₁ with ⟨_ | _, pairs₂⟩ <;> rfl

theorem compareWith_of_holds {h : Heap} {e e' : Expr} (he : h.Holds e) (he' : h.Holds e')
    {pairs : Pairs} (hp : pairs.Sound h) :
    Pairs.Sound h ((compareWith e e').run pairs).2 ∧
      (((compareWith e e').run pairs).1 = true → Alike e e') := by
  induction e generalizing e' pairs with
  | literal i value =>
    cases e' with
    | literal j value' => exact ⟨hp, fun h => eq_of_beq h⟩
    | _ => exact ⟨hp, nofun⟩
  | input i index =>
    cases e' with
    | input j index' => exact ⟨hp, fun h => eq_of_beq h⟩
    | _ => exact ⟨hp, nofun⟩
  | binary i settled op l r ihl ihr =>
    cases e' with
    | binary j settled' op' l' r' =>
      rw [compareWith_run_binary]
      split
      · rename_i hid
        refine ⟨hp, fun _ => ?_⟩
        rw [Heap.eq_of_id he he' hid]
        exact Alike.refl _
      · split
        · exact ⟨hp, nofun⟩
        · rename_i hop
          split
          · rename_i hmem
            refine ⟨hp, fun _ => ?_⟩
            have halike := hp i j (Std.HashSet.mem_iff_contains.2 hmem)
            rwa [(Heap.holds_binary.1 he).1.2, (Heap.holds_binary.1 he').1.2] at halike
          · obtain ⟨hpl, hl⟩ := ihl he.left he'.left hp
            cases hcl : (compareWith l l').run pairs with
            | mk same pairs₁ =>
              rw [hcl] at hpl hl
              cases same with
              | false => exact ⟨hpl, nofun⟩
              | true =>
                obtain ⟨hpr, hr⟩ := ihr he.right he'.right hpl
                cases hcr : (compareWith r r').run pairs₁ with
                | mk same pairs₂ =>
                  rw [hcr] at hpr hr
                  cases same with
                  | false =>
                    simp only [hcr, if_true]
                    exact ⟨hpr, nofun⟩
                  | true =>
                    have halike : Alike (binary i settled op l r) (binary j settled' op' l' r') :=
                      ⟨by simpa using fun h => hop (.inl h), hl rfl, hr rfl⟩
                    simp only [hcr, if_true]
                    exact ⟨hpr.insert he he' halike, fun _ => halike⟩
    | _ => exact ⟨hp, nofun⟩

/-- Expressions of one heap that compare as alike are alike. -/
theorem alike_of_holds {h : Heap} {e e' : Expr} (he : h.Holds e) (he' : h.Holds e')
    (halike : e.alike e' = true) : Alike e e' :=
  have hempty : Pairs.Sound h ∅ := fun _ _ hij => absurd hij Std.HashSet.not_mem_empty
  (compareWith_of_holds he he' hempty).2 halike

end InputSolver.Expr
