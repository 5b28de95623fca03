/-
  InputSolver — what joining leaves.

  A range is built from progressions by joining each of them with members for
  as long as a union is found.  Only the next 16 members are tried, so members
  that could still be joined may stay apart in a long list, but not in a short
  one.

  * `Apart`: two progressions whose union is no progression, in either order;
  * `absorb_apart`, `ofProgressions_apart`: joining keeps members apart, one
    progression at a time and for a whole list;
  * `joining_exact`: the range of progressions and the range of words have
    exactly the values they are built from.
-/
import InputSolver.Proofs.Range.Exact

namespace InputSolver

/-! ## Progressions that do not join -/

namespace Progression

/-- The union of the two is no progression. -/
def Apart (p q : Progression) : Prop := p.union? q = .ok none

theorem contains_self (p : Progression) : p.contains p = true := by
  simp only [contains, Bool.and_eq_true, decide_eq_true_eq, Bool.or_eq_true, beq_iff_eq]
  exact ⟨⟨⟨Int64.le_refl _, Int64.le_refl _⟩, includes_iff.2 p.min_mem⟩, .inr Int64.mod_self⟩

variable {p q : Progression}

/-- Progressions with the same bounds that are apart have different steps, and
    several values. -/
theorem Apart.step_ne (h : p.Apart q) (hmin : p.min = q.min) (hmax : p.max = q.max) :
    ¬ p.isSingle = true ∧ ¬ q.isSingle = true ∧ p.step ≠ q.step := by
  have hne : p ≠ q := by
    rintro rfl
    simp [Apart, union?, contains_self, pure, Except.pure] at h
  have hstep : p.step ≠ q.step := fun hstep => hne (Progression.ext hmin hmax hstep)
  have hsingle : p.isSingle = q.isSingle := by rw [isSingle, isSingle, hmin, hmax]
  have hp : ¬ p.isSingle = true := by
    intro hp
    have hq := hsingle ▸ hp
    rw [isSingle, beq_iff_eq] at hp hq
    exact hstep ((p.step_of_single hp).trans (q.step_of_single hq).symm)
  exact ⟨hp, hsingle ▸ hp, hstep⟩

/-- Progressions with different bounds are put in order first. -/
theorem union?_comm (h : ¬ p.boundsLE q = true) : p.union? q = q.union? p := by
  have hqp : q.boundsLE p = true := (Bool.or_eq_true _ _ ▸ boundsLE_total p q).resolve_left h
  unfold union?
  rw [if_neg h, if_pos hqp]

/-- Being apart does not depend on the order. -/
theorem Apart.symm (h : p.Apart q) : q.Apart p := by
  by_cases hpq : p.boundsLE q = true
  · by_cases hqp : q.boundsLE p = true
    · -- the bounds are the same, and each call takes its own first argument to be the lower one
      have hbounds : p.min = q.min ∧ p.max = q.max := by
        rw [boundsLE_iff] at hpq hqp
        exact ⟨Word.eq_of_toInt_eq (by omega), Word.eq_of_toInt_eq (by omega)⟩
      obtain ⟨hp, hq, hstep⟩ := h.step_ne hbounds.1 hbounds.2
      simp only [Bool.not_eq_true] at hp hq
      have hjoin : join? q p = .ok none := by
        simp only [join?, commonStride?, hp, hq, if_neg hstep.symm]
        rfl
      unfold Apart union? at h ⊢
      simp only [hpq, hqp, if_true] at h ⊢
      split at h
      · cases h
      · split at h
        · cases h
        · rename_i hcpq hcqp
          rw [if_neg hcqp, if_neg hcpq]
          exact hjoin
    · exact (union?_comm hqp).trans h
  · exact (union?_comm hpq).symm.trans h

end Progression

open Progression

namespace Range

/-! ## Joining keeps members apart -/

variable {ps ms ms' rest : List Progression} {p joined : Progression} {window : Nat}

/-- Where no union is found, the progression is apart from all members in the
    window. -/
theorem apart_of_joinFirst? (h : joinFirst? p window ms = .ok none) (hlength : ms.length ≤ window) :
    ∀ m ∈ ms, m.Apart p := by
  induction window generalizing ms with
  | zero =>
    obtain rfl := List.eq_nil_of_length_eq_zero (Nat.le_zero.1 hlength)
    exact nofun
  | succ window ih =>
    cases ms with
    | nil => exact nofun
    | cons m ms =>
      simp only [joinFirst?, bind, Except.bind, pure, Except.pure] at h
      split at h
      · cases h
      · rename_i u? hu
        cases u? with
        | some u => cases h
        | none =>
          simp only at h
          split at h
          · cases h
          · rename_i found? hfound
            obtain rfl := Option.map_eq_none_iff.1 (Except.ok.inj h)
            intro m' hm'
            rcases List.mem_cons.1 hm' with rfl | hm'
            · exact hu
            · exact ih hfound (Nat.le_of_succ_le_succ hlength) m' hm'

/-- The members that are left after a union was found keep their order. -/
theorem sublist_of_joinFirst? (h : joinFirst? p window ms = .ok (some (joined, rest))) :
    rest.Sublist ms := by
  induction window generalizing ms rest with
  | zero => cases h
  | succ window ih =>
    cases ms with
    | nil => cases h
    | cons m ms =>
      simp only [joinFirst?, bind, Except.bind, pure, Except.pure] at h
      split at h
      · cases h
      · rename_i u? hu
        cases u? with
        | some u =>
          cases h
          exact List.sublist_cons_self m rest
        | none =>
          simp only at h
          split at h
          · cases h
          · rename_i found? hfound
            obtain ⟨⟨joined', rest'⟩, rfl, hpair⟩ := Option.map_eq_some_iff.1 (Except.ok.inj h)
            cases hpair
            exact (ih hfound).cons_cons m

/-- One progression is added to no more members than the window holds: the
    members stay apart. -/
theorem absorb_apart (h : absorb ms p = .ok ms') (hlength : ms.length ≤ joinWindow)
    (hms : ms.Pairwise Apart) : ms'.Pairwise Apart ∧ ms'.length ≤ ms.length + 1 := by
  fun_induction absorb ms p with
  | case1 => cases h
  | case2 ms p hnone =>
    cases h
    exact ⟨List.pairwise_cons.2
      ⟨fun m hm => (apart_of_joinFirst? hnone hlength m hm).symm, hms⟩, Nat.le_refl _⟩
  | case3 ms p joined rest hsome ih =>
    have hsublist := sublist_of_joinFirst? hsome
    have hle := hsublist.length_le
    obtain ⟨hapart, hlength'⟩ := ih h (Nat.le_trans hle hlength) (hms.sublist hsublist)
    exact ⟨hapart, by omega⟩

theorem foldlM_absorb_apart (h : ps.foldlM absorb ms = .ok ms')
    (hlength : ps.length + ms.length ≤ joinWindow) (hms : ms.Pairwise Apart) :
    ms'.Pairwise Apart := by
  induction ps generalizing ms with
  | nil =>
    cases h
    exact hms
  | cons p ps ih =>
    rw [List.foldlM_cons] at h
    cases habsorb : absorb ms p with
    | error fault =>
      rw [habsorb] at h
      cases h
    | ok ms₁ =>
      rw [habsorb] at h
      rw [List.length_cons] at hlength
      obtain ⟨hapart, hle⟩ := absorb_apart habsorb (by omega) hms
      exact ih h (by omega) hapart

/-- No two members of a range of few progressions can be joined. -/
theorem ofProgressions_apart {r : Range} (h : ofProgressions ps = .ok r)
    (hlength : ps.length ≤ joinWindow) : r.members.Pairwise Apart := by
  unfold ofProgressions at h
  cases hms : (ps.mergeSort boundsLE).foldlM absorb [] with
  | error fault =>
    rw [hms] at h
    cases h
  | ok ms =>
    simp only [hms, bind, Except.bind, pure, Except.pure, Except.ok.injEq] at h
    subst h
    have hapart := foldlM_absorb_apart hms (by simpa using hlength) .nil
    have hperm := (List.mergeSort_perm ms.reverse boundsLE).trans ms.reverse_perm
    exact (hperm.pairwise_iff Apart.symm).2 hapart

/-! ## The values of a union -/

/-- `r` is the union of some progressions: it has their values and no others,
    its members are canonical and in order, and no two members of a union of
    few progressions can be joined.  A range without members is the empty one,
    and one with several members is a compound set. -/
structure Joins (ps : List Progression) (r : Range) : Prop where
  includes (v : Word) : r.includes v = true ↔ ∃ p ∈ ps, p.includes v = true
  empty : r = .empty ↔ ps = []
  canonical : ∀ p ∈ r.members, p.min.toInt ≤ p.max.toInt ∧ 1 ≤ p.step.toInt ∧
    p.step.toInt ∣ p.max.toInt - p.min.toInt ∧ (p.min = p.max → p.step = 1)
  sorted : r.members.Pairwise fun p q => p.boundsLE q = true
  apart : ps.length ≤ 16 → r.members.Pairwise fun p q =>
    p.union? q = .ok none ∧ q.union? p = .ok none

theorem eq_empty_iff {r : Range} : r = .empty ↔ ∀ x : Int, ¬ x ∈ r := by
  rw [← isEmpty_iff, isEmpty, List.isEmpty_iff]
  constructor
  · rintro rfl
    rfl
  · intro h
    obtain ⟨_⟩ := r
    exact congrArg Range.mk h

theorem ofProgressions_joins {M : Nat} (hM : M < Word.halfBound) (hps : ∀ p ∈ ps, p.Bounded M) :
    ∃ r, ofProgressions ps = .ok r ∧ Joins ps r := by
  obtain ⟨r, hr, -, hmem⟩ := ofProgressions_of_bounded hM hps
  refine ⟨r, hr, fun v => ?_, ?_, fun p _ => ?_, wellFormed_of_ofProgressions hr, fun hlength => ?_⟩
  · simp only [includes_iff, hmem, Covers, Progression.includes_iff]
  · rw [eq_empty_iff]
    constructor
    · intro hnone
      refine List.eq_nil_iff_forall_not_mem.2 fun p hp => ?_
      exact hnone p.min.toInt ((hmem _).2 ⟨p, hp, p.min_mem⟩)
    · rintro rfl x hx
      obtain ⟨p, hp, -⟩ := (hmem x).1 hx
      exact List.not_mem_nil hp
  · exact ⟨p.toInt_min_le, p.toInt_step_pos, p.step_dvd, p.step_of_single⟩
  · exact (ofProgressions_apart hr hlength).imp fun h => ⟨h, Apart.symm h⟩

theorem ofValues_includes {M : Nat} (hM : M < Word.halfBound) {vs : List Word}
    (hvs : ∀ v ∈ vs, v.toInt.natAbs ≤ M) :
    ∃ r, ofValues vs = .ok r ∧ ∀ v, r.includes v = true ↔ v ∈ vs := by
  obtain ⟨r, hr, -, hmem⟩ := ofValues_of_bounded hM hvs
  refine ⟨r, hr, fun v => ?_⟩
  rw [includes_iff, hmem]
  constructor
  · rintro ⟨w, hw, heq⟩
    rwa [Word.eq_of_toInt_eq heq]
  · exact fun hv => ⟨v, hv, rfl⟩

/-- Building a range from small progressions or words returns, and loses and
    invents no value. -/
theorem joining_exact {M : Nat} (hM : M < Word.halfBound) :
    (∀ ps : List Progression, (∀ p ∈ ps, p.Bounded M) →
      ∃ r, ofProgressions ps = .ok r ∧ Joins ps r) ∧
    ∀ vs : List Word, (∀ v ∈ vs, v.toInt.natAbs ≤ M) →
      ∃ r, ofValues vs = .ok r ∧ ∀ v, r.includes v = true ↔ v ∈ vs :=
  ⟨fun _ hps => ofProgressions_joins hM hps, fun _ hvs => ofValues_includes hM hvs⟩

/-- `2, 5, 8`, `11`, `0, 2, 4` and `14` overlap and touch; the words `9, 1, 5`
    make one run and `6` another. -/
theorem joining_exact_overlapping :
    let ps : List Progression := [.new 2 8 3, .single 11, .new 0 4 2, .single 14]
    let vs : List Word := [9, 1, 6, 5, 1]
    14 < Word.halfBound ∧ (∀ p ∈ ps, p.Bounded 14) ∧ (∀ v ∈ vs, v.toInt.natAbs ≤ 14) ∧
      (∃ r, ofProgressions ps = .ok r ∧ Joins ps r) ∧
      ∃ r, ofValues vs = .ok r ∧ ∀ v, r.includes v = true ↔ v ∈ vs := by
  intro ps vs
  have hps : ∀ p ∈ ps, p.Bounded 14 := by
    simp only [ps, List.forall_mem_cons, List.not_mem_nil, false_implies, implies_true, and_true]
    exact ⟨Progression.bounded_new (by decide) (by decide) 3, Progression.bounded_single (by decide),
      Progression.bounded_new (by decide) (by decide) 2, Progression.bounded_single (by decide)⟩
  have hvs : ∀ v ∈ vs, v.toInt.natAbs ≤ 14 := by
    simp only [vs, List.forall_mem_cons, List.not_mem_nil, false_implies, implies_true, and_true]
    exact ⟨by decide, by decide, by decide, by decide, by decide⟩
  have hM : 14 < Word.halfBound := by
    unfold Word.halfBound
    omega
  obtain ⟨hprogressions, hvalues⟩ := joining_exact hM
  exact ⟨hM, hps, hvs, hprogressions ps hps, hvalues vs hvs⟩

end Range

end InputSolver
