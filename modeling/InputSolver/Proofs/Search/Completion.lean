/-
  InputSolver — completing a solution.

  A solution has digits for some inputs; its completion has one for each input
  up to a number, the preferred one where the solution has none.

  * `complete_eq_ok`: the completion exists if the number is greater than every
    position and can be counted;
  * `extendedBy_completion` and `digits_completion`: it keeps the digits of the
    solution, and has nothing but digits;
  * `completion_first`: if the solution comes before another one, so does its
    completion, however the other one is completed.
-/
import Mathlib.Data.List.Sort
import InputSolver.Proofs.Search.Order
import InputSolver.Search.Solution

namespace InputSolver.Solution

variable {s : Solution} {total : Nat} {direction : Direction}

/-- The digits of a solution for the inputs up to a number. -/
def completion (s : Solution) (total : Nat) (direction : Direction) : List Word :=
  (List.range total).map fun i => (s.assignment.get? i).getD direction.preferredDigit

theorem length_completion (s : Solution) (total : Nat) (direction : Direction) :
    (s.completion total direction).length = total := by
  simp [completion]

/-- No more inputs are needed than there are below the number. -/
theorem le_of_referenced {n : Nat} (hs : ∀ i ∈ s.inputs, i < total) (hn : s.referenced = .ok n) :
    n ≤ total := by
  unfold referenced at hn
  cases hlast : s.inputs.getLast? with
  | none =>
    rw [hlast] at hn
    cases hn
    exact Nat.zero_le total
  | some i =>
    simp only [hlast] at hn
    split at hn
    · cases hn
      exact hs i (List.mem_of_getLast? hlast)
    · cases hn

/-- They are counted if the number itself can be. -/
theorem referenced_eq_ok (hs : ∀ i ∈ s.inputs, i < total) (htotal : total < Word.countBound) :
    ∃ n, s.referenced = .ok n := by
  unfold referenced
  cases hlast : s.inputs.getLast? with
  | none => exact ⟨0, rfl⟩
  | some i =>
    have hi : i < total := hs i (List.mem_of_getLast? hlast)
    exact ⟨i + 1, if_pos (Nat.lt_of_le_of_lt hi htotal)⟩

theorem complete_of_referenced (direction : Direction) (hs : ∀ i ∈ s.inputs, i < total) {n : Nat}
    (hn : s.referenced = .ok n) : s.complete total direction =
      .ok ⟨List.range total, s.completion total direction, by simp [completion]⟩ := by
  have hmax : Nat.max total n = total := Nat.max_eq_left (le_of_referenced hs hn)
  unfold complete
  rw [hn]
  change Except.ok (Solution.mk (List.range (Nat.max total n)) _ _) = _
  simp only [hmax]
  rfl

/-- A solution is completed to any number of inputs that is greater than all
    its positions. -/
theorem complete_eq_ok (direction : Direction) (hs : ∀ i ∈ s.inputs, i < total)
    (htotal : total < Word.countBound) :
    ∃ t, s.complete total direction = .ok t ∧ t.inputs = List.range total ∧
      t.digits = s.completion total direction := by
  obtain ⟨n, hn⟩ := referenced_eq_ok hs htotal
  exact ⟨_, complete_of_referenced direction hs hn, rfl, rfl⟩

/-- If it is completed at all, that is what its digits are. -/
theorem digits_of_complete (hs : ∀ i ∈ s.inputs, i < total) {t : Solution}
    (ht : s.complete total direction = .ok t) : t.digits = s.completion total direction := by
  cases hn : s.referenced with
  | error fault =>
    rw [complete, hn] at ht
    cases ht
  | ok n =>
    rw [complete_of_referenced direction hs hn] at ht
    cases ht
    rfl

section Digits

variable (hasc : s.inputs.Pairwise (· < ·))
include hasc

theorem mem_of_get?_assignment {i : Nat} {v : Word} (hv : s.assignment.get? i = some v) :
    i ∈ s.inputs ∧ v ∈ s.digits :=
  List.of_mem_zip ((Assignment.get?_ofPairs_zip hasc).1 hv)

/-- The completion keeps the digits of the solution. -/
theorem extendedBy_completion (direction : Direction) (hs : ∀ i ∈ s.inputs, i < total) :
    s.assignment.ExtendedBy (.ofDigits (s.completion total direction)) := by
  intro i v hv
  have hi : i < total := hs i (mem_of_get?_assignment hasc hv).1
  rw [Assignment.get?_ofDigits, completion, List.getElem?_map, List.getElem?_range hi,
    Option.map_some, hv, Option.getD_some]

/-- The completion has nothing but digits. -/
theorem digits_completion (total : Nat) (direction : Direction)
    (hdigits : ∀ d ∈ s.digits, Digit.isDigit d = true) :
    ∀ d ∈ s.completion total direction, Digit.isDigit d = true := by
  intro d hd
  obtain ⟨i, -, rfl⟩ := List.mem_map.1 hd
  cases hv : s.assignment.get? i with
  | none => cases direction <;> decide
  | some v => exact hdigits v (mem_of_get?_assignment hasc hv).2

/-- The digits of a solution are read back from its assignment. -/
theorem map_of_assignment {f : Nat → Word}
    (hf : ∀ i d, s.assignment.get? i = some d → f i = d) : s.inputs.map f = s.digits := by
  calc s.inputs.map f = ((s.inputs.zip s.digits).map Prod.fst).map f := by
        rw [List.map_fst_zip (Nat.le_of_eq s.length_eq)]
    _ = (s.inputs.zip s.digits).map Prod.snd := by
        rw [List.map_map]
        exact List.map_congr_left fun p hp => hf p.1 p.2 ((Assignment.get?_ofPairs_zip hasc).2 hp)
    _ = s.digits := List.map_snd_zip (Nat.le_of_eq s.length_eq.symm)

/-- Digits for the same inputs are no earlier than a solution, nor are digits
    for more inputs than its completion. -/
theorem completion_first (hs : ∀ i ∈ s.inputs, i < total) {t : Solution}
    (hinputs : t.inputs = s.inputs)
    (hfirst : s = t ∨ List.Lex direction.Before s.digits t.digits) {ds : List Word}
    (hlength : ds.length = total) (hds : ∀ d ∈ ds, Digit.isDigit d = true)
    (hext : t.assignment.ExtendedBy (.ofDigits ds)) :
    s.completion total direction = ds ∨
      List.Lex direction.Before (s.completion total direction) ds := by
  let f := fun i : Nat => (s.assignment.get? i).getD direction.preferredDigit
  let g := fun i : Nat => (ds[i]?).getD direction.preferredDigit
  have hg : (List.range total).map g = ds := by
    refine List.ext_getElem (by simp [hlength]) fun i _ hi => ?_
    simp [g, List.getElem?_eq_getElem hi]
  have hfilter : (List.range total).filter (· ∈ s.inputs) = s.inputs := by
    refine (List.pairwise_lt_range.filter _).eq_of_mem_iff hasc fun i => ?_
    simp only [List.mem_filter, List.mem_range, decide_eq_true_eq, and_iff_right_iff_imp]
    exact hs i
  have hsmap : s.inputs.map f = s.digits :=
    map_of_assignment hasc fun i d hd => by simp only [f, hd, Option.getD_some]
  have htmap : s.inputs.map g = t.digits := by
    rw [← hinputs]
    refine map_of_assignment (hinputs ▸ hasc) fun i d hd => ?_
    have hget := hext i d hd
    rw [Assignment.get?_ofDigits] at hget
    simp only [g, hget, Option.getD_some]
  have hlex := lex_map_of_filter (r := direction.Before) (p := (· ∈ s.inputs)) (f := f)
    (g := g) (l := List.range total) (fun i hi hnot => ?_) ?_
  · rwa [hg] at hlex
  · -- an input that the solution leaves out gets the preferred digit
    have hnone : s.assignment.get? i = none := by
      by_contra hsome
      obtain ⟨d, hd⟩ := Option.ne_none_iff_exists'.1 hsome
      exact absurd (mem_of_get?_assignment hasc hd).1 (by simpa using hnot)
    simp only [f, hnone, Option.getD_none]
    have hi : i < ds.length := hlength ▸ List.mem_range.1 hi
    refine direction.preferredDigit_first ?_
    simp only [g, List.getElem?_eq_getElem hi, Option.getD_some]
    exact hds _ (List.getElem_mem hi)
  · rw [hfilter, hsmap, htmap]
    exact hfirst.imp_left (congrArg Solution.digits)

end Digits

end InputSolver.Solution
