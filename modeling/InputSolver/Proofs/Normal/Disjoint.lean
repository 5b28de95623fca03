/-
  InputSolver — equality tests of disjoint operands.

  * `eql_folds`: an equality test becomes the literal 0 exactly if the ranges
    of its operands do not meet;
  * `disjointness_exact`: they meet exactly if they share a value, and the walk
    that decides it is one over integers.
-/
import InputSolver.Proofs.Normal.Operation
import InputSolver.Proofs.Range.Common

namespace InputSolver.Normal

open InputSolver.Expr

section Folds

variable {h : Heap} {reuse? : Option Expr} {l r : Expr} {rl rr : Range}

/-- A range that is there is read. -/
theorem read_range {e : Expr} {range : Range} (hrange : e.range = .ok range) (k : Heap) :
    (liftM e.range : Build Range).Meets k True fun m found => m = k ∧ found = range :=
  Build.meets_lift (fun _ => ⟨range, hrange⟩) fun _ h' =>
    ⟨rfl, Except.ok.inj (h'.symm.trans hrange)⟩

/-- A node of an equality test has two possible values, so it stays. -/
theorem finish_eql_folds (hreuse : Reusable h .eql reuse?) (hl : h.Holds l) (hr : h.Holds r)
    (hrl : l.range = .ok rl) (hrr : r.range = .ok rr) :
    (finish reuse? .eql l r).Meets h True fun _ e => e.literal? = none := by
  refine (node_eq hreuse hl hr).bind fun k e _ hk => ?_
  obtain ⟨-, id, settled, rfl⟩ := hk
  have hrange : (binary id settled .eql l r).range = .ok (.progression 0 1 1) := by
    rw [range_binary, hrl, hrr]
    rfl
  have hseveral : (Range.progression 0 1 1).singleValue? = none := by decide
  refine (read_range hrange k).bind fun _ _ _ hk => ?_
  obtain ⟨rfl, rfl⟩ := hk
  rw [hseveral]
  exact Build.meets_pure rfl

theorem eqlOrdered_folds (hreuse : Reusable h .eql reuse?) (hl : h.Holds l) (hr : h.Holds r)
    (hrl : l.range = .ok rl) (hrr : r.range = .ok rr) :
    (eqlOrdered reuse? l r).Meets h True fun _ e => e.literal? = some 0 ↔ ¬ rl.meets rr = true := by
  unfold eqlOrdered
  refine (read_range hrl h).bind fun _ _ _ hk => ?_
  obtain ⟨rfl, rfl⟩ := hk
  refine (read_range hrr _).bind fun _ _ _ hk => ?_
  obtain ⟨rfl, rfl⟩ := hk
  split
  · rename_i hmeets
    split
    · exact Build.meets_literal fun _ _ _ _ => iff_of_false nofun (not_not_intro hmeets)
    · refine (finish_eql_folds hreuse hl hr hrl hrr).imp (fun hp => hp) fun _ e _ hnone => ?_
      rw [hnone]
      exact iff_of_false nofun (not_not_intro hmeets)
  · rename_i hmeets
    exact Build.meets_literal fun _ _ _ _ => iff_of_true rfl hmeets

/-- An equality test becomes the literal 0 exactly if the ranges of its
    operands do not meet. -/
theorem eql_folds (hreuse : Reusable h .eql reuse?) (hl : h.Holds l) (hr : h.Holds r)
    (hrl : l.range = .ok rl) (hrr : r.range = .ok rr) :
    (eql reuse? l r).Meets h True fun _ e => e.literal? = some 0 ↔ ¬ rl.meets rr = true := by
  unfold eql
  split
  · rename_i i a j b
    cases hrl
    cases hrr
    refine Build.meets_literal fun _ _ _ _ => ?_
    rw [Range.meets_single]
    split
    · rename_i hab
      exact iff_of_false nofun (not_not_intro hab)
    · rename_i hab
      exact iff_of_true rfl hab
  · rw [Range.meets_comm]
    exact eqlOrdered_folds (reusable_none h .eql) hr hl hrr hrl
  · exact eqlOrdered_folds hreuse hl hr hrl hrr

end Folds

/-- Two ranges meet exactly if a word is in both; the walk that looks for a
    common value does not leave the words, and an equality test becomes the
    literal 0 exactly if there is none. -/
theorem disjointness_exact :
    (∀ r s : Range, r.meets s = true ↔ ∃ v : Word, r.includes v = true ∧ s.includes v = true) ∧
    (∀ (fine coarse : Progression) (hi : Word) (tries : Nat) (c : Word),
      (Progression.firstCommon fine hi coarse.step tries c).map Int64.toInt =
        (Progression.steps c.toInt coarse.step.toInt tries).find?
          fun x => x ≤ hi.toInt ∧ x ∈ fine) ∧
    ∀ {h : Heap} {reuse? : Option Expr} {l r : Expr} {rl rr : Range}, Reusable h .eql reuse? →
      h.Holds l → h.Holds r → l.range = .ok rl → r.range = .ok rr →
        ∃ e next, operation reuse? .eql l r h.next = .ok (e, next) ∧
          (e.literal? = some 0 ↔ ¬ ∃ v : Word, rl.includes v = true ∧ rr.includes v = true) := by
  refine ⟨fun _ _ => Range.meets_iff, fun fine coarse hi tries c =>
    Progression.firstCommon_eq_find fine hi coarse.step_pos tries c, ?_⟩
  intro h reuse? l r rl rr hreuse hl hr hrl hrr
  have hfolds := eql_folds hreuse hl hr hrl hrr
  obtain ⟨e, next, hrun⟩ := hfolds.ok trivial
  obtain ⟨-, -, -, hiff⟩ := hfolds.post hrun
  exact ⟨e, next, hrun, hiff.trans (not_congr Range.meets_iff)⟩

/-- No digit is 10, so testing an input for it gives the literal 0. -/
theorem disjointness_exact_ten : ∃ e next,
    operation none .eql (.input 0 0) (.literal 1 10) 2 = .ok (e, next) ∧ e.literal? = some 0 := by
  let h := (Heap.empty.push (.input 0 0)).push (.literal 1 10)
  have hinput : h.Holds (.input 0 0) := (Heap.empty.holds_push_input 0).mono (Heap.le_push _ _)
  have hten : h.Holds (.literal 1 10) := Heap.holds_push_literal _ 10
  obtain ⟨e, next, hrun, hiff⟩ := disjointness_exact.2.2 (h := h) (reusable_none h .eql) hinput hten
    (range_input 0 0) (range_literal 1 10)
  refine ⟨e, next, hrun, hiff.2 fun hcommon => ?_⟩
  have hmeets : (Range.progression Digit.lowest Digit.highest 1).meets (.single 10) = false := by
    decide
  exact Bool.eq_false_iff.1 hmeets ((disjointness_exact.1 _ _).2 hcommon)

end InputSolver.Normal
