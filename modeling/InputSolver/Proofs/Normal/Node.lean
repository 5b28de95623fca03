/-
  InputSolver — normal forms: what an operation must yield.

  The operations on normal forms are specified in one way.  Whatever their
  operands, the result is an expression of the heap over inputs of the
  operands.  If the operands are bounded and the magnitude allowed for the
  result is below `2^62` — the condition `P` below — then the operation does
  not fault, the result is bounded and no larger than allowed, and it has
  every value that the operation gives over digits (`Yields`).

  * `finish_meets`: making a node, or the literal in its place, yields what
    its operator gives.
-/
import InputSolver.Normal.Node
import InputSolver.Proofs.Expr.Equality
import InputSolver.Proofs.Expr.Evaluate

namespace InputSolver

namespace Expr

/-! ## Sizes -/

/-- The magnitude, with a literal 0 counted as 0: adding it changes nothing. -/
def extent : Expr → Nat
  | literal _ value => value.toInt.natAbs
  | e => e.magnitude

theorem extent_le_magnitude (e : Expr) : e.extent ≤ e.magnitude := by
  cases e with
  | literal id value => exact Nat.le_max_right ..
  | _ => exact Nat.le_refl _

theorem magnitude_le_extent (e : Expr) : e.magnitude ≤ max 1 e.extent := by
  cases e with
  | literal id value => exact Nat.le_refl _
  | _ => exact Nat.le_max_right ..

theorem extent_binary (id : Nat) (settled : Bool) (op : Operator) (l r : Expr) :
    (binary id settled op l r).extent = op.magnitude l.magnitude r.magnitude := rfl

theorem magnitude_literal_of_ne {id : Nat} {value : Word} (h : value ≠ 0) :
    (literal id value).magnitude = value.toInt.natAbs := by
  have := Word.ne_zero_iff.1 h
  exact Nat.max_eq_right (by omega)

theorem extent_of_not_literal {e : Expr} (h : ∀ id value, e = literal id value → False) :
    e.extent = e.magnitude := by
  cases e with
  | literal id value => exact (h id value rfl).elim
  | _ => rfl

theorem Bounded.extent_lt {e : Expr} (h : e.Bounded) : e.extent < Word.halfBound :=
  Nat.lt_of_le_of_lt e.extent_le_magnitude h.magnitude_lt

/-- A value of a bounded expression over digits is no larger than its extent. -/
theorem Bounded.natAbs_le_extent {e : Expr} (he : e.Bounded) {a : Assignment} (ha : a.Digits)
    {v : Word} (hv : valueOn a e = .ok v) : v.toInt.natAbs ≤ e.extent := by
  cases e with
  | literal id value =>
    cases hv
    exact Nat.le_refl _
  | _ => exact he.natAbs_le ha hv

end Expr

/-- The value that an operator gives for those of two expressions. -/
def Operator.Gives (op : Operator) (l r : Expr) (a : Assignment) (v : Word) : Prop :=
  ∃ x y, l.valueOn a = .ok x ∧ r.valueOn a = .ok y ∧ op.apply x y = .ok v

/-- The values of an expression under a function of words. -/
def Expr.Image (l : Expr) (f : Word → Word) (a : Assignment) (v : Word) : Prop :=
  ∃ x, l.valueOn a = .ok x ∧ f x = v

namespace Normal

open InputSolver.Expr

/-! ## Operands and results -/

variable {S : Nat → Prop} {P : Prop}

/-- An expression of the heap over inputs of `S`, bounded if `P`. -/
structure Operand (h : Heap) (S : Nat → Prop) (P : Prop) (e : Expr) : Prop where
  holds : h.Holds e
  inputs : e.Over S
  bounded : P → e.Bounded

/-- A result with the values `V`, of extent at most `K`. -/
structure Yields (h : Heap) (S : Nat → Prop) (P : Prop) (K : Nat)
    (V : Assignment → Word → Prop) (e : Expr) : Prop extends Operand h S P e where
  extent_le : P → e.extent ≤ K
  value : P → ∀ a v, a.Digits → V a v → e.valueOn a = .ok v

theorem Operand.mono {h k : Heap} {e : Expr} (he : Operand h S P e) (hle : h ≤ k) :
    Operand k S P e := ⟨he.holds.mono hle, he.inputs, he.bounded⟩

theorem Operand.left {h : Heap} {id : Nat} {settled : Bool} {op : Operator} {l r : Expr}
    (he : Operand h S P (.binary id settled op l r)) : Operand h S P l :=
  ⟨he.holds.left, (over_binary.1 he.inputs).1, fun hp => (he.bounded hp).left⟩

theorem Operand.right {h : Heap} {id : Nat} {settled : Bool} {op : Operator} {l r : Expr}
    (he : Operand h S P (.binary id settled op l r)) : Operand h S P r :=
  ⟨he.holds.right, (over_binary.1 he.inputs).2, fun hp => (he.bounded hp).right⟩

/-- An operand yields itself. -/
theorem Operand.yields {h : Heap} {e : Expr} (he : Operand h S P e) {K : Nat}
    {V : Assignment → Word → Prop} (hK : P → e.extent ≤ K)
    (hV : P → ∀ a v, a.Digits → V a v → e.valueOn a = .ok v) : Yields h S P K V e :=
  ⟨he, hK, hV⟩

theorem Yields.imp {h : Heap} {K K' : Nat} {V V' : Assignment → Word → Prop} {e : Expr}
    (he : Yields h S P K V e) (hK : P → K ≤ K')
    (hV : P → ∀ a v, a.Digits → V' a v → V a v) : Yields h S P K' V' e :=
  ⟨he.toOperand, fun hp => Nat.le_trans (he.extent_le hp) (hK hp),
    fun hp a v ha hv => he.value hp a v ha (hV hp a v ha hv)⟩

theorem Yields.mono {h k : Heap} {K : Nat} {V : Assignment → Word → Prop} {e : Expr}
    (he : Yields h S P K V e) (hle : h ≤ k) : Yields k S P K V e :=
  ⟨he.toOperand.mono hle, he.extent_le, he.value⟩

/-- Operands stay operands over more inputs and under a stronger condition. -/
theorem Operand.weaken {S' : Nat → Prop} {P' : Prop} {h : Heap} {e : Expr} (he : Operand h S P e)
    (hS : ∀ i, S i → S' i) (hP : P' → P) : Operand h S' P' e :=
  ⟨he.holds, he.inputs.imp hS, fun hp => he.bounded (hP hp)⟩

theorem Yields.weaken {S' : Nat → Prop} {P' : Prop} {h : Heap} {K : Nat}
    {V : Assignment → Word → Prop} {e : Expr} (he : Yields h S P K V e) (hS : ∀ i, S i → S' i)
    (hP : P' → P) : Yields h S' P' K V e :=
  ⟨he.toOperand.weaken hS hP, fun hp => he.extent_le (hP hp), fun hp => he.value (hP hp)⟩

end Normal

/-- The result of a computation may be larger and have fewer values. -/
theorem Build.Meets.yields_imp {S : Nat → Prop} {P : Prop} {h : Heap} {K K' : Nat}
    {V V' : Assignment → Word → Prop} {x : Build Expr}
    (hx : x.Meets h P fun k e => Normal.Yields k S P K V e) (hK : P → K ≤ K')
    (hV : P → ∀ a v, a.Digits → V' a v → V a v) :
    x.Meets h P fun k e => Normal.Yields k S P K' V' e :=
  hx.imp (fun hp => hp) fun _ _ _ he => he.imp hK hV

namespace Normal

open InputSolver.Expr

variable {S : Nat → Prop} {P : Prop}

theorem Yields.magnitude_le {h : Heap} {K : Nat} {V : Assignment → Word → Prop} {e : Expr}
    (he : Yields h S P K V e) (hK : 0 < K) (hp : P) : e.magnitude ≤ K := by
  have := e.magnitude_le_extent
  have := he.extent_le hp
  omega

theorem operand_literal {h : Heap} {id : Nat} {value : Word} (hid : h.Holds (.literal id value))
    (hvalue : P → value.toInt.natAbs < Word.halfBound) : Operand h S P (.literal id value) :=
  ⟨hid, over_literal S id value, fun hp => bounded_literal.2 (hvalue hp)⟩

/-- A computation yields a literal. -/
theorem literal_meets {h : Heap} {value : Word} {K : Nat} {V : Assignment → Word → Prop}
    (hK : P → K < Word.halfBound) (hvalue : P → value.toInt.natAbs ≤ K)
    (hV : P → ∀ a v, a.Digits → V a v → value = v) :
    (Build.literal value).Meets h P fun k e => Yields k S P K V e :=
  Build.meets_literal fun _ _ _ hid =>
    (operand_literal hid fun hp => Nat.lt_of_le_of_lt (hvalue hp) (hK hp)).yields hvalue
      fun hp a v ha hv => congrArg Except.ok (hV hp a v ha hv)

/-- A bounded expression has a range. -/
theorem range_meets {h : Heap} {e : Expr} (he : P → e.Bounded) :
    (liftM e.range : Build Range).Meets h P fun k r => k = h ∧ e.range = .ok r :=
  Build.meets_lift (fun hp => (range_of_bounded (he hp)).imp fun _ hr => hr.1)
    fun _ hr => ⟨rfl, hr⟩

/-! ## Making a node -/

/-- The node that may be used again, if one is given, is in the heap and has
    the operator. -/
def Reusable (h : Heap) (op : Operator) (reuse? : Option Expr) : Prop :=
  ∀ e, reuse? = some e → h.Holds e ∧ e.op? = some op

theorem reusable_none (h : Heap) (op : Operator) : Reusable h op none := nofun

theorem Reusable.mono {h k : Heap} {op : Operator} {reuse? : Option Expr}
    (hr : Reusable h op reuse?) (hle : h ≤ k) : Reusable k op reuse? :=
  fun e he => (hr e he).imp_left (·.mono hle)

variable {h : Heap} {op : Operator} {reuse? : Option Expr} {l r : Expr}

/-- A node of the operator and its operands is made or used again. -/
theorem node_eq (hreuse : Reusable h op reuse?) (hl : h.Holds l) (hr : h.Holds r) :
    (node reuse? op l r).Meets h P fun k e =>
      k.Holds e ∧ ∃ id settled, e = .binary id settled op l r := by
  have fresh : (Build.settled op l r).Meets h P fun k e =>
      k.Holds e ∧ ∃ id settled, e = .binary id settled op l r :=
    Build.meets_settled hl hr fun k id _ hk => ⟨hk, id, true, rfl⟩
  unfold node
  split
  · rename_i e
    obtain ⟨he, hop⟩ := hreuse e rfl
    split
    · rename_i hids
      refine Build.meets_pure ⟨he, ?_⟩
      cases e with
      | binary id settled op' l' r' =>
        cases hop
        simp only [operands, List.map_cons, List.map_nil, List.cons.injEq, and_true] at hids
        obtain rfl := Heap.eq_of_id he.left hl hids.1
        obtain rfl := Heap.eq_of_id he.right hr hids.2
        exact ⟨id, settled, rfl⟩
      | _ => cases hop
    · exact fresh
  · exact fresh

section Bounds

variable (hK : P → op.magnitude l.magnitude r.magnitude < Word.halfBound)
include hK

theorem yields_binary (hl : Operand h S P l) (hr : Operand h S P r) {id : Nat} {settled : Bool}
    (he : h.Holds (.binary id settled op l r)) :
    Yields h S P (op.magnitude l.magnitude r.magnitude) (op.Gives l r)
      (.binary id settled op l r) where
  holds := he
  inputs := over_binary.2 ⟨hl.inputs, hr.inputs⟩
  bounded hp := bounded_binary.2 ⟨hK hp, hl.bounded hp, hr.bounded hp⟩
  extent_le _ := Nat.le_refl _
  value _ _ _ _ hv := valueOn_binary.2 hv

theorem node_meets (hreuse : Reusable h op reuse?) (hl : Operand h S P l) (hr : Operand h S P r) :
    (node reuse? op l r).Meets h P fun k e =>
      Yields k S P (op.magnitude l.magnitude r.magnitude) (op.Gives l r) e :=
  (node_eq hreuse hl.holds hr.holds).imp (fun hp => hp) fun k e hle hk => by
    obtain ⟨he, id, settled, rfl⟩ := hk
    exact yields_binary hK (hl.mono hle) (hr.mono hle) he

/-- A node, or the only value it can have, yields what its operator gives. -/
theorem finish_meets (hreuse : Reusable h op reuse?) (hl : Operand h S P l)
    (hr : Operand h S P r) :
    (finish reuse? op l r).Meets h P fun k e =>
      Yields k S P (op.magnitude l.magnitude r.magnitude) (op.Gives l r) e := by
  refine (node_eq hreuse hl.holds hr.holds).bind fun k e hle hk => ?_
  obtain ⟨he, id, settled, rfl⟩ := hk
  have hyields := yields_binary hK (hl.mono hle) (hr.mono hle) he
  refine (range_meets hyields.bounded).bind fun m range _ hm => ?_
  obtain ⟨rfl, hrange⟩ := hm
  split
  · rename_i value hsingle
    -- every value of the node is the only one of its range
    have hvalue (hp : P) : value.toInt.natAbs ≤ op.magnitude l.magnitude r.magnitude ∧
        ∀ a v, a.Digits → op.Gives l r a v → value = v := by
      obtain ⟨hb, hx⟩ := (hyields.bounded hp).of_range hrange
      obtain ⟨hmem, honly⟩ := Range.eq_of_singleValue? hsingle
      exact ⟨hb.of_mem hmem, fun a v ha hv =>
        (Word.eq_of_toInt_eq (honly _ (hx a v ha (hyields.value hp a v ha hv)))).symm⟩
    exact literal_meets hK (fun hp => (hvalue hp).1) fun hp => (hvalue hp).2
  · exact Build.meets_pure hyields

end Bounds

/-! ## Functions of one operand -/

section Image

variable {f g : Word → Word} {K : Nat}

/-- The image of a literal is a literal. -/
theorem image_literal_meets (f : Word → Word) {i : Nat} {value : Word}
    (hK : P → K < Word.halfBound) (hvalue : P → (f value).toInt.natAbs ≤ K) :
    (Build.literal (f value)).Meets h P fun k e =>
      Yields k S P K ((literal i value).Image f) e := by
  refine literal_meets hK hvalue ?_
  rintro - a v - ⟨x, hx, rfl⟩
  cases hx
  rfl

/-- A literal for an expression whose image is a single word. -/
theorem image_single_meets {value : Word} (hK : P → K < Word.halfBound)
    (hvalue : P → value.toInt.natAbs ≤ K)
    (hf : P → ∀ a x, a.Digits → l.valueOn a = .ok x → f x = value) :
    (Build.literal value).Meets h P fun k e => Yields k S P K (l.Image f) e := by
  refine literal_meets hK hvalue ?_
  rintro hp a v ha ⟨x, hx, rfl⟩
  exact (hf hp a x ha hx).symm

/-- An expression whose values are kept is its own image. -/
theorem Operand.image_self (hl : Operand h S P l) (hK : P → l.extent ≤ K)
    (hf : P → ∀ a x, a.Digits → l.valueOn a = .ok x → f x = x) :
    Yields h S P K (l.Image f) l := by
  refine hl.yields hK ?_
  rintro hp a v ha ⟨x, hx, rfl⟩
  rw [hf hp a x ha hx]
  exact hx

/-- A node with a literal on the right is an image of the left operand. -/
theorem finish_literal_meets {id : Nat} {c : Word}
    (hlt : P → op.magnitude l.magnitude (literal id c).magnitude < Word.halfBound)
    (hreuse : Reusable h op reuse?) (hl : Operand h S P l) (hc : Operand h S P (.literal id c))
    (hK : op.magnitude l.magnitude (literal id c).magnitude ≤ K)
    (hf : ∀ x, op.apply x c = .ok (f x)) :
    (finish reuse? op l (.literal id c)).Meets h P fun k e => Yields k S P K (l.Image f) e := by
  refine (finish_meets hlt hreuse hl hc).yields_imp (fun _ => hK) ?_
  rintro - a v - ⟨x, hx, rfl⟩
  exact ⟨x, c, hx, rfl, hf x⟩

/-- An image of the left operand of a node with a literal on the right. -/
theorem Yields.image_of_left {i j : Nat} {settled : Bool} {x e : Expr} {q : Word} {K' : Nat}
    (he : Yields h S P K (x.Image g) e) (hK : P → K ≤ K')
    (hfg : P → ∀ a y w, a.Digits → x.valueOn a = .ok y → op.apply y q = .ok w → g y = f w) :
    Yields h S P K' ((binary i settled op x (literal j q)).Image f) e := by
  refine he.imp hK ?_
  rintro hp a v ha ⟨w, hw, rfl⟩
  obtain ⟨y, q', hy, hq, hyw⟩ := valueOn_binary.1 hw
  cases hq
  exact ⟨y, hy, hfg hp a y w ha hy hyw⟩

end Image

end Normal

end InputSolver
