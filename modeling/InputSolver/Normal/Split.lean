/-
  InputSolver — splitting a sum by a divisor.

  Quotient and remainder by `c` distribute over a sum of two parts if one
  part is a multiple of `c` and the parts have the same sign.

  * `splitSum` separates the terms that are multiples of `c` from the rest,
    if there are any and the signs agree;
  * `weight_splitSum`: both parts are smaller than the sum.
-/
import InputSolver.Normal.Sum

namespace InputSolver.Normal

/-- The terms of a sum, from left to right. -/
def termsOf : Expr → List Expr
  | .binary _ _ .add l r => termsOf l ++ termsOf r
  | e => [e]

/-- Whether all values of an expression are known to be multiples of `c`. -/
def isMultiple (c : Word) (e : Expr) : Except Fault Bool :=
  match e with
  | .literal _ value => return Word.divides c value
  | .binary _ _ .mul _ (.literal _ k) =>
    if Word.divides c k then return true else do (← e.range).multiplesOf c
  | _ => do (← e.range).multiplesOf c

/-- Separates the multiples of `c` from other expressions. -/
def separate (c : Word) : List Expr → Except Fault (List Expr × List Expr)
  | [] => return ([], [])
  | t :: ts => do
    let isM ← isMultiple c t
    let (ms, os) ← separate c ts
    return if isM then (t :: ms, os) else (ms, t :: os)

/-- The terms of a sum that are multiples of a divisor, and the sum of the
    others. -/
structure Split where
  multiples : List Expr
  rest : Expr

/-- Whether the values of two ranges are all at or above zero, or all at or
    below. -/
def agreeInSign (r s : Range) : Bool :=
  (r.isNonnegative && s.isNonnegative) || (r.isNonpositive && s.isNonpositive)

/-- The split of a sum by the divisor `c`, if it has a multiple of `c` as a
    term and both parts agree in sign. -/
def splitSum (sum : Expr) (c : Word) : Build (Option Split) := do
  let (multiples, others) ← separate c (termsOf sum)
  if multiples.isEmpty then return none
  let multipleSum ← sumOf multiples
  let rest ← sumOf others
  if agreeInSign (← multipleSum.range) (← rest.range) then return some ⟨multiples, rest⟩
  else return none

/-! ## Sizes -/

/-- The weight of terms together with the operators between them. -/
def totalWeight : List Expr → Nat
  | [] => 0
  | t :: ts => weight t + 1 + totalWeight ts

theorem totalWeight_append (ts us : List Expr) :
    totalWeight (ts ++ us) = totalWeight ts + totalWeight us := by
  induction ts with
  | nil => simp [totalWeight]
  | cons t ts ih => simp only [List.cons_append, totalWeight, ih]; omega

theorem totalWeight_termsOf (e : Expr) : totalWeight (termsOf e) = weight e + 1 := by
  fun_induction termsOf e with
  | case1 id settled l r ihl ihr =>
    rw [totalWeight_append, ihl, ihr]
    simp only [weight]
    omega
  | case2 => simp [totalWeight]

theorem weight_le_of_mem_termsOf {e t : Expr} (h : t ∈ termsOf e) : weight t ≤ weight e := by
  fun_induction termsOf e with
  | case1 id settled l r ihl ihr =>
    simp only [weight]
    rcases List.mem_append.1 h with h | h
    · have := ihl h; omega
    · have := ihr h; omega
  | case2 => simp only [List.mem_singleton] at h; exact h ▸ Nat.le_refl _

theorem totalWeight_separate {c : Word} {ts ms os : List Expr}
    (h : separate c ts = .ok (ms, os)) : totalWeight ms + totalWeight os = totalWeight ts := by
  induction ts generalizing ms os with
  | nil => cases h; rfl
  | cons t ts ih =>
    simp only [separate, bind, Except.bind, pure, Except.pure] at h
    split at h
    · cases h
    · split at h
      · cases h
      · rename_i p hp
        have := ih hp
        split at h <;> cases h <;> simp only [totalWeight] <;> omega

theorem mem_of_separate {c : Word} {ts ms os : List Expr} (h : separate c ts = .ok (ms, os))
    {m : Expr} (hm : m ∈ ms) : m ∈ ts := by
  induction ts generalizing ms os with
  | nil => cases h; exact hm
  | cons t ts ih =>
    simp only [separate, bind, Except.bind, pure, Except.pure] at h
    split at h
    · cases h
    · split at h
      · cases h
      · rename_i p hp
        split at h <;> cases h
        · rcases List.mem_cons.1 hm with rfl | hm
          · exact List.mem_cons_self
          · exact List.mem_cons_of_mem _ (ih hp hm)
        · exact List.mem_cons_of_mem _ (ih hp hm)

theorem weight_foldlM_add {ts : List Expr} {t e : Expr} {next next' : Nat}
    (h : ts.foldlM (add none) t next = .ok (e, next')) : weight e ≤ weight t + totalWeight ts := by
  induction ts generalizing t next with
  | nil => cases h; simp [totalWeight]
  | cons u ts ih =>
    rw [List.foldlM_cons] at h
    obtain ⟨s, mid, hs, h₁⟩ := Build.bind_eq_ok h
    have := weight_add rfl hs
    have := ih h₁
    simp only [totalWeight]
    omega

theorem weight_sumOf {ts : List Expr} {e : Expr} {next next' : Nat}
    (h : sumOf ts next = .ok (e, next')) :
    weight e + 1 ≤ totalWeight ts ∨ ts = [] ∧ weight e = 1 := by
  cases ts with
  | nil => exact .inr ⟨rfl, weight_literal h⟩
  | cons t ts =>
    have := weight_foldlM_add h
    simp only [totalWeight]
    omega

theorem one_lt_totalWeight {ts : List Expr} (h : ts ≠ []) : 1 < totalWeight ts := by
  cases ts with
  | nil => exact absurd rfl h
  | cons t ts =>
    have := weight_pos t
    simp only [totalWeight]
    omega

/-- Both parts of a split are smaller than the sum. -/
def Split.Below (sum : Expr) (s : Split) : Prop :=
  (∀ m ∈ s.multiples, weight m < weight sum) ∧ weight s.rest < weight sum

theorem weight_splitSum {id : Nat} {settled : Bool} {l r : Expr} {c : Word} {s : Split}
    {next next' : Nat}
    (h : splitSum (.binary id settled .add l r) c next = .ok (some s, next')) :
    s.Below (.binary id settled .add l r) := by
  obtain ⟨⟨multiples, others⟩, mid₁, hsep, h₁⟩ := Build.bind_eq_ok h
  obtain ⟨hsep, -⟩ := Build.lift_eq_ok hsep
  simp only at h₁
  split at h₁
  · cases h₁
  · rename_i hne
    obtain ⟨multipleSum, mid₂, -, h₂⟩ := Build.bind_eq_ok h₁
    obtain ⟨rest, mid₃, hrest, h₃⟩ := Build.bind_eq_ok h₂
    obtain ⟨m, mid₄, -, h₄⟩ := Build.bind_eq_ok h₃
    obtain ⟨o, mid₅, -, h₅⟩ := Build.bind_eq_ok h₄
    split at h₅
    · cases h₅
      have hne : multiples ≠ [] := by simpa using hne
      have h1 := one_lt_totalWeight hne
      have h2 := totalWeight_separate hsep
      rw [totalWeight_termsOf] at h2
      have h3 := weight_sumOf hrest
      have hl := weight_pos l
      have hr := weight_pos r
      refine ⟨fun m hm => ?_, ?_⟩
      · have := mem_of_separate hsep hm
        simp only [termsOf, List.mem_append] at this
        simp only [weight]
        rcases this with h | h
        · have := weight_le_of_mem_termsOf h; omega
        · have := weight_le_of_mem_termsOf h; omega
      · simp only [weight] at h2 ⊢
        rcases h3 with h3 | ⟨-, h3⟩ <;> omega
    · cases h₅

end InputSolver.Normal
