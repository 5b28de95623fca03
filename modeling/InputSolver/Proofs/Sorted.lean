/-
  InputSolver — sorted lists without repetitions.

  Lists of words and of positions are sorted and then lose their repetitions.
  The result has the same members (`mem_sortDistinct`), each once and in strict
  order (`pairwise_sortDistinct`).
-/
namespace InputSolver

variable {α : Type}

theorem eraseReps_loop [BEq α] (a : α) (as acc : List α) :
    List.eraseRepsBy.loop (· == ·) a as acc = acc.reverse ++ (a :: as).eraseReps := by
  induction as generalizing a acc with
  | nil => simp [List.eraseReps, List.eraseRepsBy, List.eraseRepsBy.loop]
  | cons b as ih =>
    simp only [List.eraseReps, List.eraseRepsBy] at ih ⊢
    unfold List.eraseRepsBy.loop
    split
    · exact ih a acc
    · rw [ih b (a :: acc), ih b [a]]
      simp

theorem eraseReps_cons_cons [BEq α] (a b : α) (as : List α) :
    (a :: b :: as).eraseReps =
      if a == b then (a :: as).eraseReps else a :: (b :: as).eraseReps := by
  rw [List.eraseReps, List.eraseRepsBy, List.eraseRepsBy.loop]
  split
  · rename_i h
    rw [h]
    rfl
  · rename_i h
    rw [h, eraseReps_loop]
    rfl

theorem length_eraseReps_le [BEq α] (as : List α) : as.eraseReps.length ≤ as.length := by
  cases as with
  | nil => exact Nat.le_refl 0
  | cons a as =>
    induction as generalizing a with
    | nil => exact Nat.le_refl 1
    | cons b as ih =>
      rw [eraseReps_cons_cons]
      split
      · exact Nat.le_succ_of_le (ih a)
      · exact Nat.succ_le_succ (ih b)

variable [BEq α] [LawfulBEq α]

theorem mem_eraseReps {as : List α} {x : α} : x ∈ as.eraseReps ↔ x ∈ as := by
  cases as with
  | nil => rfl
  | cons a as =>
    induction as generalizing a with
    | nil => rfl
    | cons b as ih =>
      rw [eraseReps_cons_cons]
      split
      · rename_i h
        rw [ih, eq_of_beq h]
        simp
      · rw [List.mem_cons, ih, List.mem_cons (a := x) (b := a)]

/-- A sorted list without its repetitions is strictly sorted. -/
theorem pairwise_eraseReps {le : α → α → Prop} (antisymm : ∀ a b, le a b → le b a → a = b)
    {as : List α} (h : as.Pairwise le) : as.eraseReps.Pairwise fun a b => le a b ∧ a ≠ b := by
  cases as with
  | nil => exact .nil
  | cons a as =>
    induction as generalizing a with
    | nil => exact List.pairwise_singleton ..
    | cons b as ih =>
      obtain ⟨ha, hbs⟩ := List.pairwise_cons.1 h
      rw [eraseReps_cons_cons]
      split
      · exact ih a (List.pairwise_cons.2 ⟨fun x hx => ha x (List.mem_cons_of_mem _ hx),
          (List.pairwise_cons.1 hbs).2⟩)
      · rename_i hab
        refine List.pairwise_cons.2 ⟨fun x hx => ?_, ih b hbs⟩
        rw [mem_eraseReps] at hx
        refine ⟨ha x hx, ?_⟩
        -- `a` is not `b`, and what follows `b` is not below it
        rintro rfl
        rcases List.mem_cons.1 hx with rfl | hx
        · simp at hab
        · have := antisymm _ _ (ha b List.mem_cons_self) ((List.pairwise_cons.1 hbs).1 a hx)
          simp [this] at hab

/-- What is sorted by a total order and loses its repetitions is in strict
    order. -/
theorem pairwise_sortDistinct {le : α → α → Bool} (trans : ∀ a b c, le a b → le b c → le a c)
    (total : ∀ a b, le a b || le b a) (antisymm : ∀ a b, le a b → le b a → a = b) (as : List α) :
    (as.mergeSort le).eraseReps.Pairwise fun a b => le a b ∧ a ≠ b :=
  pairwise_eraseReps antisymm (List.pairwise_mergeSort trans total as)

theorem mem_sortDistinct {le : α → α → Bool} {as : List α} {x : α} :
    x ∈ (as.mergeSort le).eraseReps ↔ x ∈ as := by
  rw [mem_eraseReps, List.mem_mergeSort]

end InputSolver
