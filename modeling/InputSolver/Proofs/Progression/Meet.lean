/-
  InputSolver — common values of two progressions.

  * `meet?_isSome`: two progressions with a value in common have a progression
    of common values.  The values of the coarser progression are tried in
    turn; their residues modulo the finer step recur, so a common value shows
    up within as many tries as that step.
-/
import Mathlib.Tactic.Ring
import InputSolver.Progression.Meet
import InputSolver.Proofs.Progression.Cut

namespace InputSolver.Progression

/-- A common value is found if it is among the tried words. -/
theorem firstCommon_isSome {fine : Progression} (hi : Word) {d : Word} (hd : 0 < d) {k tries : Nat}
    (hk : k < tries) {c : Word} (hmem : c.toInt + k * d.toInt ∈ fine)
    (hle : c.toInt + k * d.toInt ≤ hi.toInt) : (firstCommon fine hi d tries c).isSome := by
  have hpos : 0 < d.toInt := Int64.lt_iff_toInt_lt.1 hd
  induction tries generalizing k c with
  | zero => omega
  | succ tries ih =>
    have h0 : 0 ≤ (k : Int) * d.toInt := Int.mul_nonneg (by omega) (by omega)
    have hc : ¬ hi < c := by
      rw [Int64.lt_iff_toInt_lt]
      omega
    unfold firstCommon
    rw [if_neg hc]
    split
    · rfl
    · rename_i hnot
      rw [includes_iff] at hnot
      -- the common value is further up, so the next word does not overflow
      obtain ⟨k, rfl⟩ : ∃ j, k = j + 1 := by
        cases k with
        | zero => simp at hmem; exact absurd hmem hnot
        | succ j => exact ⟨j, rfl⟩
      have hsplit : ((k + 1 : Nat) : Int) * d.toInt = k * d.toInt + d.toInt := by
        push_cast
        ring
      have hk0 : 0 ≤ (k : Int) * d.toInt := Int.mul_nonneg (by omega) (by omega)
      have hcd : c ≤ hi := Int64.not_lt.1 hc
      have hdist := Word.distance_eq hcd
      have hstep := Word.toInt_toNat (Int64.le_of_lt hd)
      rw [if_neg (by omega)]
      have hnext : (c + d).toInt = c.toInt + d.toInt := by
        have h₁ := Word.inRange_toInt c
        have h₂ := Word.inRange_toInt hi
        unfold Word.InRange at h₁ h₂
        exact Word.toInt_add ⟨by omega, by omega⟩
      have hsum : c.toInt + ((k + 1 : Nat) : Int) * d.toInt = (c + d).toInt + k * d.toInt := by
        rw [hnext, hsplit]
        ring
      rw [hsum] at hmem hle
      exact ih (by omega) hmem hle

/-- The residues of the tried words modulo the finer step recur, so the first
    common value is among as many words as that step. -/
theorem exists_lt_step {fine : Progression} {c d : Int} (hd : 0 < d) (hc : fine.min.toInt ≤ c)
    {k : Nat} (hmem : c + k * d ∈ fine) :
    ∃ j : Nat, j < fine.step.toNatClampNeg ∧ j ≤ k ∧ c + j * d ∈ fine := by
  have hpos := Word.toNatClampNeg_pos fine.step_pos
  have hstep := Word.toInt_toNat (Int64.le_of_lt fine.step_pos)
  have hjk := Nat.mod_le k fine.step.toNatClampNeg
  have hmul : ((k % fine.step.toNatClampNeg : Nat) : Int) * d ≤ k * d :=
    Int.mul_le_mul_of_nonneg_right (by omega) (by omega)
  have h0 : 0 ≤ ((k % fine.step.toNatClampNeg : Nat) : Int) * d :=
    Int.mul_nonneg (by omega) (by omega)
  refine ⟨k % fine.step.toNatClampNeg, Nat.mod_lt _ hpos, hjk, by omega, ?_, ?_⟩
  · have := hmem.2.1
    omega
  · have hdiff : c + ((k % fine.step.toNatClampNeg : Nat) : Int) * d - fine.min.toInt =
        (c + k * d - fine.min.toInt) -
          fine.step.toInt * ((k / fine.step.toNatClampNeg : Nat) * d) := by
      have hk : (k : Int) = fine.step.toInt * (k / fine.step.toNatClampNeg : Nat) +
          (k % fine.step.toNatClampNeg : Nat) := by
        rw [← hstep]
        exact_mod_cast (Nat.div_add_mod k fine.step.toNatClampNeg).symm
      calc c + ((k % fine.step.toNatClampNeg : Nat) : Int) * d - fine.min.toInt
          = c + ((fine.step.toInt * (k / fine.step.toNatClampNeg : Nat) +
              (k % fine.step.toNatClampNeg : Nat)) * d) - fine.min.toInt -
              fine.step.toInt * ((k / fine.step.toNatClampNeg : Nat) * d) := by ring
        _ = _ := by rw [← hk]
    rw [hdiff]
    exact Int.dvd_sub hmem.2.2 (Int.dvd_mul_right ..)

/-- A value lies a number of steps above any value at or below it. -/
theorem exists_steps_above {p : Progression} {c x : Int} (hc : c ∈ p) (hx : x ∈ p) (hle : c ≤ x) :
    ∃ k : Nat, x = c + k * p.step.toInt := by
  obtain ⟨m, hm⟩ := exists_steps_of_mem hx
  obtain ⟨n, hn⟩ := exists_steps_of_mem hc
  have hnm : n ≤ m := by
    by_contra hlt
    have : (m : Int) * p.step.toInt < n * p.step.toInt :=
      Int.mul_lt_mul_of_pos_right (by omega) p.toInt_step_pos
    omega
  refine ⟨m - n, ?_⟩
  rw [hm, hn, Int.natCast_sub hnm]
  ring

theorem meetStepped?_isSome {coarse fine : Progression} {lo hi : Word}
    (hlo : fine.min.toInt ≤ lo.toInt) {x : Int} (hc : x ∈ coarse) (hf : x ∈ fine)
    (hlox : lo.toInt ≤ x) (hxhi : x ≤ hi.toInt) : (meetStepped? coarse fine lo hi).isSome := by
  unfold meetStepped?
  cases hstart : coarse.firstFrom lo with
  | none =>
    have := firstFrom_eq_none hstart hc
    omega
  | some start =>
    obtain ⟨hmem, hle, hleast⟩ := firstFrom_eq_some hstart
    have hsx := hleast x hc hlox
    have hpos := coarse.toInt_step_pos
    -- `x` lies some steps above the start, and so does one within the tries
    obtain ⟨k, hk⟩ := exists_steps_above hmem hc hsx
    rw [hk] at hf
    obtain ⟨j, hj, hjk, hjmem⟩ := exists_lt_step hpos (hlo.trans hle) hf
    have hjle : (j : Int) * coarse.step.toInt ≤ k * coarse.step.toInt :=
      Int.mul_le_mul_of_nonneg_right (by omega) (by omega)
    obtain ⟨c, hcommon⟩ := Option.isSome_iff_exists.1
      (firstCommon_isSome hi coarse.step_pos hj hjmem (by omega))
    simp [hcommon]

/-- Two progressions with a value in common meet. -/
theorem meet?_isSome {p q : Progression} {x : Int} (hp : x ∈ p) (hq : x ∈ q) :
    (p.meet? q).isSome := by
  have hlo : (if p.min ≤ q.min then q.min else p.min).toInt =
      if p.min.toInt ≤ q.min.toInt then q.min.toInt else p.min.toInt := by
    simp only [Int64.le_iff_toInt_le]
    split <;> rfl
  have hhi : (if p.max ≤ q.max then p.max else q.max).toInt =
      if p.max.toInt ≤ q.max.toInt then p.max.toInt else q.max.toInt := by
    simp only [Int64.le_iff_toInt_le]
    split <;> rfl
  have hlox : (if p.min ≤ q.min then q.min else p.min).toInt ≤ x := by
    have := hp.1
    have := hq.1
    rw [hlo]
    split <;> omega
  have hxhi : x ≤ (if p.max ≤ q.max then p.max else q.max).toInt := by
    have := hp.2.1
    have := hq.2.1
    rw [hhi]
    split <;> omega
  unfold meet?
  rw [if_neg (by rw [Int64.lt_iff_toInt_lt]; omega)]
  split
  · rename_i hs
    rw [(mem_iff_of_isSingle hs).1 hp] at hq
    rw [if_pos (includes_iff.2 hq)]
    rfl
  · split
    · rename_i hs
      rw [(mem_iff_of_isSingle hs).1 hq] at hp
      rw [if_pos (includes_iff.2 hp)]
      rfl
    · split
      · refine meetStepped?_isSome ?_ hp hq hlox hxhi
        rw [hlo]
        split <;> omega
      · refine meetStepped?_isSome ?_ hq hp hlox hxhi
        rw [hlo]
        split <;> omega

end InputSolver.Progression
