/-
  InputSolver — normal forms of sums.

  * `addLiteral_meets`, `add_meets`: a sum yields what addition gives, and is
    no larger than its operands together;
  * `sumOf_meets`: so does the sum of some terms.
-/
import InputSolver.Normal.Sum
import InputSolver.Proofs.Normal.Node

namespace InputSolver.Normal

open InputSolver.Expr

variable {S : Nat → Prop} {P : Prop} {h : Heap} {reuse? : Option Expr}

/-- Adding the literal 0 changes nothing. -/
theorem pure_meets_add_zero {l : Expr} (hl : Operand h S P l) {c : Word} (hc : c = 0) :
    (pure l : Build Expr).Meets h P fun k e =>
      Yields k S P (l.extent + c.toInt.natAbs) (l.Image (· + c)) e := by
  subst hc
  exact Build.meets_pure (hl.image_self (fun _ => Nat.le_add_right ..) fun _ _ x _ _ =>
    Int64.add_zero x)

/-- Adding a literal. -/
theorem addLiteral_meets (hreuse : Reusable h .add reuse?) {id : Nat} {c : Word} {l : Expr}
    (hid : h.Holds (.literal id c)) (hl : Operand h S P l)
    (hK : P → l.extent + c.toInt.natAbs < Word.halfBound) :
    (addLiteral reuse? id c l).Meets h P fun k e =>
      Yields k S P (l.extent + c.toInt.natAbs) (l.Image (· + c)) e := by
  fun_induction addLiteral reuse? id c l generalizing h with
  | case1 reuse? id c i a =>
    have hsum (hp : P) : (a + c).toInt = a.toInt + c.toInt :=
      Word.toInt_add (Range.inRange_add (hK hp) (Nat.le_refl _) (Nat.le_refl _))
    refine image_literal_meets (· + c) hK fun hp => ?_
    rw [hsum hp]
    exact Int.natAbs_add_le _ _
  | case2 reuse? id i settled x j b => exact pure_meets_add_zero hl rfl
  | case3 reuse? id c i settled x j b hc ih =>
    -- `(x + b) + c` becomes `x + (b + c)`
    have hsize (hp : P) : x.extent + (b + c).toInt.natAbs ≤
        (Expr.binary i settled .add x (.literal j b)).extent + c.toInt.natAbs := by
      have hK := hK hp
      have hx := x.extent_le_magnitude
      have hb : b.toInt.natAbs ≤ (Expr.literal j b).magnitude := Nat.le_max_right ..
      rw [extent_binary, Operator.magnitude] at hK ⊢
      have hsum : (b + c).toInt = b.toInt + c.toInt :=
        Word.toInt_add (Word.inRange_of_natAbs (by unfold Word.halfBound at hK; omega))
      omega
    refine Build.Meets.identity_bind (b + c) fun k n hle hn => ?_
    refine (ih n (reusable_none k .add) hn (hl.left.mono hle)
      fun hp => Nat.lt_of_le_of_lt (hsize hp) (hK hp)).imp (fun hp => hp) fun m e _ he => ?_
    refine he.image_of_left hsize fun _ a y w _ _ hyw => ?_
    cases hyw
    exact (Int64.add_assoc ..).symm
  | case4 reuse? id l hlit hsum => exact pure_meets_add_zero hl rfl
  | case5 reuse? id c l hlit hsum hc =>
    have hsize : Operator.add.magnitude l.magnitude (Expr.literal id c).magnitude =
        l.extent + c.toInt.natAbs := by
      rw [Operator.magnitude, magnitude_literal_of_ne hc, extent_of_not_literal hlit]
    have hc : Operand h S P (.literal id c) :=
      operand_literal hid fun hp => by have := hK hp; omega
    exact finish_literal_meets (hsize ▸ hK) hreuse hl hc (Nat.le_of_eq hsize) fun _ => rfl

/-- A literal on the left is added to the other operand. -/
theorem addLiteral_meets_left {i : Nat} {a : Word} {r : Expr}
    (hl : Operand h S P (.literal i a)) (hr : Operand h S P r)
    (hK : P → (Expr.literal i a).extent + r.extent < Word.halfBound) :
    (addLiteral none i a r).Meets h P fun k e =>
      Yields k S P ((Expr.literal i a).extent + r.extent)
        (Operator.add.Gives (.literal i a) r) e := by
  rw [Nat.add_comm] at hK ⊢
  refine (addLiteral_meets (reusable_none h .add) hl.holds hr hK).yields_imp
    (fun _ => Nat.le_refl _) ?_
  rintro - a' v - ⟨x, y, hx, hy, hxy⟩
  cases hx
  cases hxy
  exact ⟨y, hy, Int64.add_comm ..⟩

/-- The sum of two expressions. -/
theorem add_meets (hreuse : Reusable h .add reuse?) {l r : Expr} (hl : Operand h S P l)
    (hr : Operand h S P r) (hK : P → l.extent + r.extent < Word.halfBound) :
    (add reuse? l r).Meets h P fun k e =>
      Yields k S P (l.extent + r.extent) (Operator.add.Gives l r) e := by
  fun_induction add reuse? l r generalizing h with
  | case1 reuse? id c =>
    refine (addLiteral_meets hreuse hr.holds hl hK).yields_imp (fun _ => Nat.le_refl _) ?_
    rintro - a' v - ⟨x, y, hx, hy, hxy⟩
    cases hy
    cases hxy
    exact ⟨x, hx, rfl⟩
  | case2 reuse? i settled y id c j a heq =>
    subst heq
    exact addLiteral_meets_left hl hr hK
  | case3 reuse? i settled y id c hlit ih =>
    -- `l + (y + c)` becomes `(l + y) + c`
    have hsize : l.extent + y.extent + c.toInt.natAbs ≤
        l.extent + (Expr.binary i settled .add y (.literal id c)).extent := by
      have hy := y.extent_le_magnitude
      have hc : c.toInt.natAbs ≤ (Expr.literal id c).magnitude := Nat.le_max_right ..
      rw [extent_binary, Operator.magnitude]
      omega
    refine (ih (reusable_none h .add) hl hr.left fun hp => ?_).bind fun k e hle he => ?_
    · have := hK hp
      omega
    · have hK' (hp : P) : e.extent + c.toInt.natAbs < Word.halfBound := by
        have := hK hp
        have := he.extent_le hp
        omega
      refine (addLiteral_meets (reusable_none k .add) (hr.right.mono hle).holds he.toOperand
        hK').yields_imp (fun hp => ?_) ?_
      · have := he.extent_le hp
        omega
      · rintro hp a v ha ⟨x, w, hx, hw, hxw⟩
        obtain ⟨y', c', hy', hc', hyc⟩ := valueOn_binary.1 hw
        cases hc'
        cases hyc
        cases hxw
        exact ⟨x + y', he.value hp a _ ha ⟨x, y', hx, hy', rfl⟩, Int64.add_assoc ..⟩
  | case4 reuse? r hr' hsum j a heq =>
    subst heq
    exact addLiteral_meets_left hl hr hK
  | case5 reuse? r hr' hsum hl' =>
    have hsize : Operator.add.magnitude l.magnitude r.magnitude = l.extent + r.extent := by
      rw [Operator.magnitude, extent_of_not_literal hl', extent_of_not_literal hr']
    rw [← hsize] at hK ⊢
    exact finish_meets hK hreuse hl hr

/-! ## Sums of terms -/

/-- The values of some terms add up to `v`. -/
def SumsTo (a : Assignment) : List Expr → Word → Prop
  | [], v => v = 0
  | t :: ts, v => ∃ x y, t.valueOn a = .ok x ∧ SumsTo a ts y ∧ v = x + y

/-- The extents of some terms together. -/
def totalExtent : List Expr → Nat
  | [] => 0
  | t :: ts => t.extent + totalExtent ts

theorem foldlM_add_meets {ts : List Expr} (hts : ∀ t ∈ ts, Operand h S P t) {t : Expr}
    (ht : Operand h S P t) (hK : P → t.extent + totalExtent ts < Word.halfBound) :
    (ts.foldlM (add none) t).Meets h P fun k e =>
      Yields k S P (t.extent + totalExtent ts) (fun a v => SumsTo a (t :: ts) v) e := by
  induction ts generalizing t h with
  | nil =>
    refine Build.meets_pure (ht.yields (fun _ => Nat.le_refl _) ?_)
    rintro - a v - ⟨x, y, hx, rfl, rfl⟩
    rw [Int64.add_zero]
    exact hx
  | cons u ts ih =>
    rw [List.foldlM_cons]
    simp only [totalExtent] at hK ⊢
    refine (add_meets (reusable_none h .add) ht (hts u List.mem_cons_self) fun hp => ?_).bind
      fun k e hle he => ?_
    · have := hK hp
      omega
    · refine (ih (fun w hw => (hts w (List.mem_cons_of_mem _ hw)).mono hle) he.toOperand
        fun hp => ?_).yields_imp (fun hp => ?_) ?_
      · have := hK hp
        have := he.extent_le hp
        omega
      · have := he.extent_le hp
        omega
      · rintro hp a v ha ⟨x, _, hx, ⟨y, z, hy, hz, rfl⟩, rfl⟩
        exact ⟨x + y, z, he.value hp a _ ha ⟨x, y, hx, hy, rfl⟩, hz, (Int64.add_assoc ..).symm⟩

/-- The sum of some terms. -/
theorem sumOf_meets {ts : List Expr} (hts : ∀ t ∈ ts, Operand h S P t)
    (hK : P → totalExtent ts < Word.halfBound) :
    (sumOf ts).Meets h P fun k e =>
      Yields k S P (totalExtent ts) (fun a v => SumsTo a ts v) e := by
  cases ts with
  | nil =>
    refine literal_meets hK (fun _ => Nat.le_refl 0) ?_
    rintro - a v - rfl
    rfl
  | cons t ts =>
    exact foldlM_add_meets (fun u hu => hts u (List.mem_cons_of_mem _ hu))
      (hts t List.mem_cons_self) hK

end InputSolver.Normal
