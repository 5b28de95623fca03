/-
  InputSolver — normal forms of products.

  * `mulLiteral_meets`, `mul_meets`: a product yields what multiplication
    gives, and is no larger than the product of its operands' sizes.
-/
import InputSolver.Normal.Product
import InputSolver.Proofs.Normal.Sum

namespace InputSolver.Normal

open InputSolver.Expr

variable {S : Nat → Prop} {P : Prop} {h : Heap} {reuse? : Option Expr}

/-- A factor is no larger than a product with something that is not zero. -/
theorem natAbs_lt_of_mul_lt {e : Expr} (he : ∀ id value, e = .literal id value → False) {n K : Nat}
    (hK : e.extent * n < K) : n < K := by
  have hpos : 0 < e.extent := by
    rw [extent_of_not_literal he]
    exact e.magnitude_pos
  exact Nat.lt_of_le_of_lt (Nat.le_mul_of_pos_left n hpos) hK

/-- What multiplying by a literal yields. -/
def Scales (h : Heap) (S : Nat → Prop) (P : Prop) (c : Word) (l : Expr) : Expr → Prop :=
  Yields h S P (l.extent * c.toInt.natAbs) (l.Image (· * c))

theorem extent_of_factor {i j : Nat} {settled : Bool} {x : Expr} {k c : Word}
    (hK : (Expr.binary i settled .mul x (.literal j k)).extent * c.toInt.natAbs <
      Word.halfBound) :
    x.extent * (k * c).toInt.natAbs ≤
      (Expr.binary i settled .mul x (.literal j k)).extent * c.toInt.natAbs := by
  have hk : k.toInt.natAbs ≤ (Expr.literal j k).magnitude := Nat.le_max_right ..
  rw [extent_binary, Operator.magnitude, Nat.mul_assoc] at hK ⊢
  refine Nat.mul_le_mul x.extent_le_magnitude ?_
  have hlt : (Expr.literal j k).magnitude * c.toInt.natAbs < Word.halfBound :=
    Nat.lt_of_le_of_lt (Nat.le_mul_of_pos_left _ x.magnitude_pos) hK
  rw [Word.toInt_mul (Range.inRange_mul hlt hk (Nat.le_refl _))]
  exact Range.natAbs_mul_le hk (Nat.le_refl _)

/-- `(x * k) * c` becomes `x * (k * c)`. -/
theorem scales_of_factor {i j : Nat} {settled : Bool} {x e : Expr} {k c : Word}
    (hK : P → (Expr.binary i settled .mul x (.literal j k)).extent * c.toInt.natAbs <
      Word.halfBound) (he : Scales h S P (k * c) x e) :
    Scales h S P c (.binary i settled .mul x (.literal j k)) e := by
  refine he.image_of_left (fun hp => extent_of_factor (hK hp)) fun _ a y w _ _ hyw => ?_
  cases hyw
  exact (Int64.mul_assoc ..).symm

/-- `(a + b) * c` becomes `a * c + b * c`. -/
theorem scales_of_sum {i : Nat} {settled : Bool} {a b a' b' : Expr} {c : Word}
    (hK : P → (Expr.binary i settled .add a b).extent * c.toInt.natAbs < Word.halfBound)
    (ha : Scales h S P c a a') (hb : Scales h S P c b b') :
    (add none a' b').Meets h P fun k e => Scales k S P c (.binary i settled .add a b) e := by
  have hsize (hp : P) : a'.extent + b'.extent ≤
      (Expr.binary i settled .add a b).extent * c.toInt.natAbs := by
    have ha := ha.extent_le hp
    have hb := hb.extent_le hp
    have hla := Nat.mul_le_mul_right c.toInt.natAbs a.extent_le_magnitude
    have hlb := Nat.mul_le_mul_right c.toInt.natAbs b.extent_le_magnitude
    rw [extent_binary, Operator.magnitude, Nat.add_mul]
    omega
  refine (add_meets (reusable_none h .add) ha.toOperand hb.toOperand
    fun hp => Nat.lt_of_le_of_lt (hsize hp) (hK hp)).yields_imp hsize ?_
  rintro hp w v hw ⟨s, hs, rfl⟩
  obtain ⟨x, y, hx, hy, hxy⟩ := valueOn_binary.1 hs
  cases hxy
  exact ⟨x * c, y * c, ha.value hp w _ hw ⟨x, hx, rfl⟩, hb.value hp w _ hw ⟨y, hy, rfl⟩,
    congrArg Except.ok Int64.add_mul.symm⟩

/-- Multiplying by a literal. -/
theorem mulLiteral_meets (hreuse : Reusable h .mul reuse?) {id : Nat} {c : Word} {l : Expr}
    (hid : h.Holds (.literal id c)) (hl : Operand h S P l)
    (hK : P → l.extent * c.toInt.natAbs < Word.halfBound) :
    (mulLiteral reuse? id c l).Meets h P fun k e => Scales k S P c l e := by
  induction hw : weight l using Nat.strongRecOn generalizing reuse? id c l h with
  | _ n ih =>
  subst hw
  rw [mulLiteral.eq_def]
  split
  · rename_i i a
    have hprod (hp : P) : (a * c).toInt = a.toInt * c.toInt :=
      Word.toInt_mul (Range.inRange_mul (hK hp) (Nat.le_refl _) (Nat.le_refl _))
    refine image_literal_meets (· * c) hK fun hp => ?_
    rw [hprod hp]
    exact Range.natAbs_mul_le (Nat.le_refl _) (Nat.le_refl _)
  · rename_i hlit
    by_cases h0 : c = 0
    · rw [if_pos h0]
      subst h0
      exact image_single_meets hK (fun _ => Nat.zero_le _) fun _ _ _ _ _ => Int64.mul_zero
    by_cases h1 : c = 1
    · rw [if_neg h0, if_pos h1]
      subst h1
      exact Build.meets_pure (hl.image_self (fun _ => Nat.le_of_eq (Nat.mul_one _).symm)
        fun _ _ x _ _ => Int64.mul_one x)
    rw [if_neg h0, if_neg h1]
    split
    · rename_i i settled x j k
      refine Build.Meets.identity_bind (k * c) fun m n hle hn => ?_
      exact (ih (weight x) (by simp only [weight]; omega) (reusable_none m .mul) hn
        (hl.left.mono hle) (fun hp => Nat.lt_of_le_of_lt (extent_of_factor (hK hp)) (hK hp))
        rfl).imp (fun hp => hp) fun m e _ he => scales_of_factor hK he
    · rename_i i settled a b
      have hle (hp : P) : a.extent * c.toInt.natAbs + b.extent * c.toInt.natAbs <
          Word.halfBound := by
        have hK := hK hp
        have hla := Nat.mul_le_mul_right c.toInt.natAbs a.extent_le_magnitude
        have hlb := Nat.mul_le_mul_right c.toInt.natAbs b.extent_le_magnitude
        rw [extent_binary, Operator.magnitude, Nat.add_mul] at hK
        omega
      refine (ih (weight a) (by simp only [weight]; omega) (reusable_none h .mul) hid hl.left
        (fun hp => by have := hle hp; omega) rfl).bind fun k a' hle₁ ha' => ?_
      refine (ih (weight b) (by simp only [weight]; omega) (reusable_none k .mul)
        (hid.mono hle₁) (hl.right.mono hle₁) (fun hp => by have := hle hp; omega) rfl).bind
        fun m b' hle₂ hb' => ?_
      exact scales_of_sum hK (ha'.mono hle₂) hb'
    · rename_i hmul hadd
      have hsize : Operator.mul.magnitude l.magnitude (Expr.literal id c).magnitude =
          l.extent * c.toInt.natAbs := by
        rw [Operator.magnitude, magnitude_literal_of_ne h0, extent_of_not_literal hlit]
      have hc : Operand h S P (.literal id c) :=
        operand_literal hid fun hp => natAbs_lt_of_mul_lt hlit (hK hp)
      exact finish_literal_meets (hsize ▸ hK) hreuse hl hc (Nat.le_of_eq hsize) fun _ => rfl

/-- The product of two expressions. -/
theorem mul_meets (hreuse : Reusable h .mul reuse?) {l r : Expr} (hl : Operand h S P l)
    (hr : Operand h S P r) (hK : P → l.extent * r.extent < Word.halfBound) :
    (mul reuse? l r).Meets h P fun k e =>
      Yields k S P (l.extent * r.extent) (Operator.mul.Gives l r) e := by
  unfold mul
  split
  · rename_i id c
    refine (mulLiteral_meets hreuse hr.holds hl hK).yields_imp (fun _ => Nat.le_refl _) ?_
    rintro - a v - ⟨x, y, hx, hy, hxy⟩
    cases hy
    cases hxy
    exact ⟨x, hx, rfl⟩
  · rename_i id a hr'
    rw [Nat.mul_comm] at hK ⊢
    refine (mulLiteral_meets (reusable_none h .mul) hl.holds hr hK).yields_imp
      (fun _ => Nat.le_refl _) ?_
    rintro - a' v - ⟨x, y, hx, hy, hxy⟩
    cases hx
    cases hxy
    exact ⟨y, hy, Int64.mul_comm ..⟩
  · rename_i hr' hl'
    have hsize : Operator.mul.magnitude l.magnitude r.magnitude = l.extent * r.extent := by
      rw [Operator.magnitude, extent_of_not_literal hl', extent_of_not_literal hr']
    rw [← hsize] at hK ⊢
    exact finish_meets hK hreuse hl hr

end InputSolver.Normal
