/-
  InputSolver — the values of a range.

  `x ∈ r` says that the integer `x` is a value of some member of `r`, and
  `Bounded M` limits the magnitude of all values.

  * `mem_values_of_size`: below the limit of 64 bits the list has all values;
  * `ofProgressions_of_bounded`: joining progressions of small words does not
    fault, and neither loses nor adds a value;
  * `ofValues_of_bounded`: so does the range of a list of words.
-/
import Mathlib.Algebra.Order.BigOperators.Group.List
import InputSolver.Proofs.Progression.Union
import InputSolver.Proofs.Sorted
import InputSolver.Range.Basic

namespace InputSolver.Range

/-- The integers that are values of a range. -/
instance : Membership Int Range where
  mem r x := ∃ p ∈ r.members, x ∈ p

/-- All values are at most `M` in magnitude. -/
def Bounded (M : Nat) (r : Range) : Prop := ∀ p ∈ r.members, p.Bounded M

theorem mem_def {r : Range} {x : Int} : x ∈ r ↔ ∃ p ∈ r.members, x ∈ p := Iff.rfl

theorem Bounded.of_mem {M : Nat} {r : Range} (h : r.Bounded M) {x : Int} (hx : x ∈ r) :
    x.natAbs ≤ M := by
  obtain ⟨p, hp, hx⟩ := hx
  exact (h p hp).of_mem hx

/-- Every value is a word. -/
theorem exists_word_of_mem {r : Range} {x : Int} (hx : x ∈ r) : ∃ v : Word, v.toInt = x := by
  obtain ⟨p, -, hx⟩ := hx
  exact Progression.exists_word_of_mem hx

theorem includes_iff {r : Range} {v : Word} : r.includes v = true ↔ v.toInt ∈ r := by
  simp only [includes, List.any_eq_true, Progression.includes_iff, mem_def]

theorem bounded_empty (M : Nat) : empty.Bounded M := fun _ hp => absurd hp List.not_mem_nil

theorem not_mem_empty (x : Int) : ¬ x ∈ empty := fun ⟨_, hp, _⟩ => absurd hp List.not_mem_nil

theorem mem_single {v : Word} {x : Int} : x ∈ single v ↔ x = v.toInt := by
  simp [single, mem_def, Progression.mem_single]

theorem bounded_single {M : Nat} {v : Word} (h : v.toInt.natAbs ≤ M) : (single v).Bounded M := by
  intro p hp
  obtain rfl := List.mem_singleton.1 hp
  exact Progression.bounded_single h

theorem mem_progression {a b step : Word} {x : Int} :
    x ∈ progression a b step ↔ x ∈ Progression.new a b step := by
  simp [progression, mem_def]

theorem bounded_progression {M : Nat} {a b : Word} (ha : a.toInt.natAbs ≤ M)
    (hb : b.toInt.natAbs ≤ M) (step : Word) : (progression a b step).Bounded M := by
  intro p hp
  obtain rfl := List.mem_singleton.1 hp
  exact Progression.bounded_new ha hb step

theorem isEmpty_iff {r : Range} : r.isEmpty = true ↔ ∀ x : Int, ¬ x ∈ r := by
  obtain ⟨ps⟩ := r
  cases ps with
  | nil => exact ⟨fun _ => not_mem_empty, fun _ => rfl⟩
  | cons p ps =>
    refine ⟨fun h => absurd h (by simp [isEmpty]), fun h => ?_⟩
    exact absurd ⟨p, List.mem_cons_self, p.min_mem⟩ (h p.min.toInt)

theorem exists_mem_of_not_isEmpty {r : Range} (h : ¬ r.isEmpty = true) : ∃ x : Int, x ∈ r := by
  by_contra hnone
  exact h (isEmpty_iff.2 fun x hx => hnone ⟨x, hx⟩)

/-- A range with a single value has no other. -/
theorem eq_of_singleValue? {r : Range} {v : Word} (h : r.singleValue? = some v) :
    v.toInt ∈ r ∧ ∀ x : Int, x ∈ r → x = v.toInt := by
  obtain ⟨ps⟩ := r
  unfold singleValue? at h
  split at h
  · rename_i p hp
    simp only at hp
    subst hp
    split at h
    · rename_i hs
      cases h
      refine ⟨⟨p, List.mem_cons_self, p.min_mem⟩, ?_⟩
      rintro x ⟨q, hq, hx⟩
      obtain rfl := List.mem_singleton.1 hq
      exact (Progression.mem_iff_of_isSingle hs).1 hx
    · cases h
  · cases h

/-! ## The number of values -/

theorem sum_sizes (ps : List Progression) (n : Nat) :
    ps.foldl (fun n p => n + p.size) n = n + (ps.map (·.size)).sum := by
  induction ps generalizing n with
  | nil => rfl
  | cons p ps ih => rw [List.foldl_cons, ih, List.map_cons, List.sum_cons, Nat.add_assoc]

/-- A size below the limit is the sum of those of the members. -/
theorem size_eq_of_lt {r : Range} (h : r.size < Word.countBound - 1) :
    r.size = (r.members.map (·.size)).sum := by
  rw [size, sum_sizes, Nat.zero_add] at h ⊢
  rcases Nat.le_total (r.members.map (·.size)).sum (Word.countBound - 1) with hle | hle
  · exact Nat.min_eq_left hle
  · exact absurd ((Nat.min_eq_right hle).symm.trans_lt h) (Nat.lt_irrefl _)

/-- No member has more values than the range. -/
theorem size_le_of_mem {r : Range} {p : Progression} (hp : p ∈ r.members) : p.size ≤ r.size := by
  have hle := List.single_le_sum (fun _ _ => Nat.zero_le _) _
    (List.mem_map.2 ⟨p, hp, rfl⟩ : p.size ∈ r.members.map (·.size))
  rw [size, sum_sizes, Nat.zero_add]
  exact Nat.le_min.2 ⟨hle, Nat.min_le_right ..⟩

/-! ## The list of values -/

theorem mem_values_of_size {r : Range} (h : r.size < Word.countBound - 1) {v : Word} :
    v ∈ r.values ↔ v.toInt ∈ r := by
  rw [values, List.mem_flatMap, mem_def]
  exact exists_congr fun p => and_congr_right fun hp =>
    Progression.mem_values (Progression.size_eq_of_lt (Nat.lt_of_le_of_lt (size_le_of_mem hp) h))

theorem mem_values_of_bounded {M : Nat} (hM : M < Word.halfBound) {r : Range} (hr : r.Bounded M)
    {v : Word} : v ∈ r.values ↔ v.toInt ∈ r := by
  rw [values, List.mem_flatMap, mem_def]
  exact exists_congr fun p =>
    and_congr_right fun hp => Progression.mem_values_of_bounded hM (hr p hp)

/-- Every value is listed. -/
theorem exists_mem_values {M : Nat} (hM : M < Word.halfBound) {r : Range} (hr : r.Bounded M)
    {x : Int} (hx : x ∈ r) : ∃ v ∈ r.values, v.toInt = x := by
  obtain ⟨v, rfl⟩ := exists_word_of_mem hx
  exact ⟨v, (mem_values_of_bounded hM hr).2 hx, rfl⟩

/-! ## Joining members -/

/-- The values of some progressions. -/
def Covers (ps : List Progression) (x : Int) : Prop := ∃ p ∈ ps, x ∈ p

theorem covers_cons {p : Progression} {ps : List Progression} {x : Int} :
    Covers (p :: ps) x ↔ x ∈ p ∨ Covers ps x := by
  simp [Covers]

theorem covers_append {ps qs : List Progression} {x : Int} :
    Covers (ps ++ qs) x ↔ Covers ps x ∨ Covers qs x := by
  simp only [Covers, List.mem_append, or_and_right, exists_or]

/-- What becomes of a progression depends on the first one that it joins. -/
theorem absorb_eq (ms : List Progression) (p : Progression) :
    absorb ms p =
      match joinFirst? p joinWindow ms with
      | .error fault => .error fault
      | .ok none => .ok (p :: ms)
      | .ok (some (joined, rest)) => absorb rest joined := by
  rw [absorb]
  split
  · rename_i h
    rw [h]
  · rename_i h
    rw [h]
  · rename_i h
    rw [h]

theorem absorb_nil (p : Progression) : absorb [] p = .ok [p] := absorb_eq [] p

/-- One progression is a range by itself. -/
theorem ofProgressions_singleton (p : Progression) : ofProgressions [p] = .ok ⟨[p]⟩ := by
  rw [ofProgressions, List.mergeSort_singleton, List.foldlM_cons, absorb_nil]
  change Except.ok (Range.mk (List.mergeSort [p] _)) = _
  rw [List.mergeSort_singleton]

section Pair

variable {n p : Progression}

theorem joinFirst?_singleton : joinFirst? p joinWindow [n] =
    (n.union? p).map fun u? => u?.map fun u => (u, []) := by
  unfold joinWindow joinFirst? joinFirst?
  cases n.union? p with
  | error fault => rfl
  | ok u? => cases u? <;> rfl

/-- Two progressions in order are joined if their union is a progression. -/
theorem foldlM_absorb_pair (hle : n.boundsLE p = true) :
    ([n, p].mergeSort Progression.boundsLE).foldlM absorb [] =
      (n.union? p).map fun u? => (u?.map fun u => [u]).getD [p, n] := by
  rw [List.mergeSort_of_pairwise (by simpa using hle), List.foldlM_cons, absorb_nil]
  change ([p].foldlM absorb [n] : Except Fault (List Progression)) = _
  rw [List.foldlM_cons, absorb_eq, joinFirst?_singleton]
  cases n.union? p with
  | error fault => rfl
  | ok u? =>
    cases u? with
    | none => rfl
    | some u => exact congrArg (· >>= pure) (absorb_nil u)

theorem ofProgressions_of_union? {u : Progression} (hle : n.boundsLE p = true)
    (h : n.union? p = .ok (some u)) : ofProgressions [n, p] = .ok ⟨[u]⟩ := by
  rw [ofProgressions, foldlM_absorb_pair hle, h]
  change Except.ok (Range.mk (List.mergeSort [u] _)) = _
  rw [List.mergeSort_singleton]

end Pair

variable {M : Nat} (hM : M < Word.halfBound)
include hM

theorem joinFirst?_of_bounded {p : Progression} (hp : p.Bounded M) (window : Nat)
    {ms : List Progression} (hms : ∀ m ∈ ms, m.Bounded M) :
    ∃ found?, joinFirst? p window ms = .ok found? ∧ ∀ joined rest,
      found? = some (joined, rest) → joined.Bounded M ∧ (∀ m ∈ rest, m.Bounded M) ∧
        ∀ x, x ∈ joined ∨ Covers rest x ↔ x ∈ p ∨ Covers ms x := by
  induction window generalizing ms with
  | zero => exact ⟨none, rfl, by rintro _ _ ⟨⟩⟩
  | succ window ih =>
    cases ms with
    | nil => exact ⟨none, rfl, by rintro _ _ ⟨⟩⟩
    | cons m ms =>
      have hm := hms m List.mem_cons_self
      have hms' (q : Progression) (hq : q ∈ ms) := hms q (List.mem_cons_of_mem _ hq)
      obtain ⟨u?, hu?, hu⟩ := Progression.union?_of_bounded hM hm hp
      unfold joinFirst?
      simp only [hu?, bind, Except.bind, pure, Except.pure]
      cases u? with
      | some u =>
        refine ⟨_, rfl, ?_⟩
        rintro _ _ ⟨⟩
        obtain ⟨hub, hux⟩ := hu u rfl
        refine ⟨hub, hms', fun x => ?_⟩
        rw [hux, covers_cons, or_assoc, or_left_comm]
      | none =>
        obtain ⟨found?, hfound?, hfound⟩ := ih hms'
        simp only [hfound?]
        refine ⟨_, rfl, ?_⟩
        rintro joined rest' heq
        obtain ⟨⟨joined', rest⟩, hsome, hpair⟩ := Option.map_eq_some_iff.1 heq
        cases hpair
        obtain ⟨h₁, h₂, h₃⟩ := hfound _ _ hsome
        refine ⟨h₁, ?_, fun x => ?_⟩
        · intro q hq
          rcases List.mem_cons.1 hq with rfl | hq
          · exact hm
          · exact h₂ q hq
        · rw [covers_cons, covers_cons, or_left_comm, h₃, or_left_comm]

theorem absorb_of_bounded {ms : List Progression} (hms : ∀ m ∈ ms, m.Bounded M)
    {p : Progression} (hp : p.Bounded M) :
    ∃ ms', absorb ms p = .ok ms' ∧ (∀ m ∈ ms', m.Bounded M) ∧
      ∀ x, Covers ms' x ↔ x ∈ p ∨ Covers ms x := by
  fun_induction absorb ms p with
  | case1 ms p f h =>
    obtain ⟨_, hok, -⟩ := joinFirst?_of_bounded hM hp joinWindow hms
    rw [h] at hok
    cases hok
  | case2 ms p h =>
    refine ⟨_, rfl, ?_, fun x => covers_cons⟩
    intro q hq
    rcases List.mem_cons.1 hq with rfl | hq
    · exact hp
    · exact hms q hq
  | case3 ms p joined rest h ih =>
    obtain ⟨_, hok, hfound⟩ := joinFirst?_of_bounded hM hp joinWindow hms
    rw [h] at hok
    cases hok
    obtain ⟨h₁, h₂, h₃⟩ := hfound joined rest rfl
    obtain ⟨ms', hms', h₄, h₅⟩ := ih h₂ h₁
    exact ⟨ms', hms', h₄, fun x => (h₅ x).trans (h₃ x)⟩

theorem foldlM_absorb_of_bounded {ps ms : List Progression} (hps : ∀ p ∈ ps, p.Bounded M)
    (hms : ∀ m ∈ ms, m.Bounded M) :
    ∃ ms', ps.foldlM absorb ms = .ok ms' ∧ (∀ m ∈ ms', m.Bounded M) ∧
      ∀ x, Covers ms' x ↔ Covers ps x ∨ Covers ms x := by
  induction ps generalizing ms with
  | nil => exact ⟨ms, rfl, hms, fun x => by simp [Covers]⟩
  | cons p ps ih =>
    obtain ⟨ms₁, h₁, hb₁, hx₁⟩ := absorb_of_bounded hM hms (hps p List.mem_cons_self)
    obtain ⟨ms₂, h₂, hb₂, hx₂⟩ := ih (fun q hq => hps q (List.mem_cons_of_mem _ hq)) hb₁
    refine ⟨ms₂, ?_, hb₂, fun x => ?_⟩
    · rw [List.foldlM_cons, h₁]
      exact h₂
    · rw [hx₂, hx₁, covers_cons, or_left_comm, or_assoc]

/-- Joining neither loses nor adds a value. -/
theorem ofProgressions_of_bounded {ps : List Progression} (hps : ∀ p ∈ ps, p.Bounded M) :
    ∃ r, ofProgressions ps = .ok r ∧ r.Bounded M ∧ ∀ x : Int, x ∈ r ↔ Covers ps x := by
  have hsorted : ∀ p ∈ ps.mergeSort Progression.boundsLE, p.Bounded M :=
    fun p hp => hps p (List.mem_mergeSort.1 hp)
  have hnil : ∀ m ∈ ([] : List Progression), m.Bounded M := by simp
  obtain ⟨ms, h, hb, hx⟩ := foldlM_absorb_of_bounded hM hsorted hnil
  refine ⟨_, by rw [ofProgressions, h]; rfl, ?_, fun x => ?_⟩
  · intro p hp
    exact hb p (List.mem_reverse.1 (List.mem_mergeSort.1 hp))
  · have := hx x
    simp only [Covers, List.mem_mergeSort, List.not_mem_nil, false_and, exists_false,
      or_false] at this
    simpa only [mem_def, List.mem_mergeSort, List.mem_reverse, Covers] using this

omit hM

/-! ## Runs -/

/-- The first and last word and the step of a run. -/
def IsRun (first last : Word) : Option Word → Prop
  | none => first = last
  | some step => first.toInt < last.toInt ∧ 0 < step.toInt ∧ step.toInt ∣ last.toInt - first.toInt

theorem isRun_single (v : Word) : IsRun v v none := rfl

theorem bounded_run {first last : Word} (hfirst : first.toInt.natAbs ≤ M)
    (hlast : last.toInt.natAbs ≤ M) (step? : Option Word) :
    (runs.run first last step?).Bounded M := by
  cases step? with
  | none => exact Progression.bounded_single hfirst
  | some step => exact Progression.bounded_new hfirst hlast step

theorem mem_run_none {first last : Word} {x : Int} :
    x ∈ runs.run first last none ↔ x = first.toInt := Progression.mem_single

theorem mem_run_some {first last step : Word} (hrun : IsRun first last (some step)) {x : Int} :
    x ∈ runs.run first last (some step) ↔
      first.toInt ≤ x ∧ x ≤ last.toInt ∧ step.toInt ∣ x - first.toInt := by
  obtain ⟨hlt, hpos, -⟩ := hrun
  exact Progression.mem_new (Int64.le_iff_toInt_le.2 (by omega)) (Int64.lt_iff_toInt_lt.2 hpos)

section Extend

variable {first last v d : Word} (hlt : last.toInt < v.toInt)
  (hd : d.toInt = v.toInt - last.toInt)
include hlt hd

/-- The distance to a second word is the step of a run. -/
theorem isRun_pair : IsRun last v (some d) := ⟨hlt, by omega, by rw [hd]⟩

theorem mem_run_pair {x : Int} :
    x ∈ runs.run last v (some d) ↔ x = last.toInt ∨ x = v.toInt := by
  rw [mem_run_some (isRun_pair hlt hd)]
  constructor
  · rintro ⟨h₁, h₂, h₃⟩
    by_cases h0 : x = last.toInt
    · exact .inl h0
    · have := Int.le_of_dvd (by omega) h₃
      exact .inr (by omega)
  · rintro (rfl | rfl)
    · exact ⟨Int.le_refl _, by omega, by rw [Int.sub_self]; exact Int.dvd_zero _⟩
    · exact ⟨by omega, Int.le_refl _, by rw [hd]⟩

variable (hrun : IsRun first last (some d))
include hrun

/-- A run goes on for one more step. -/
theorem isRun_extend : IsRun first v (some d) := by
  obtain ⟨hfl, hpos, hdvd⟩ := hrun
  have hsum : v.toInt - first.toInt = d.toInt + (last.toInt - first.toInt) := by omega
  refine ⟨by omega, hpos, ?_⟩
  rw [hsum]
  exact Int.dvd_add (Int.dvd_refl _) hdvd

theorem mem_run_extend {x : Int} :
    x ∈ runs.run first v (some d) ↔ x ∈ runs.run first last (some d) ∨ x = v.toInt := by
  have hnext := isRun_extend hlt hd hrun
  rw [mem_run_some hnext, mem_run_some hrun]
  obtain ⟨hfl, hpos, hdvd⟩ := hrun
  constructor
  · rintro ⟨h₁, h₂, h₃⟩
    by_cases hle : x ≤ last.toInt
    · exact .inl ⟨h₁, hle, h₃⟩
    · -- beyond the old end there is room for one step only
      have hdiff : x - last.toInt = (x - first.toInt) - (last.toInt - first.toInt) := by omega
      have := Int.le_of_dvd (by omega) (hdiff ▸ Int.dvd_sub h₃ hdvd)
      exact .inr (by omega)
  · rintro (⟨h₁, h₂, h₃⟩ | rfl)
    · exact ⟨h₁, by omega, h₃⟩
    · exact ⟨by omega, Int.le_refl _, hnext.2.2⟩

end Extend

include hM

/-- The runs of ascending words have exactly these words as values. -/
theorem runs_of_bounded {first last : Word} {step? : Option Word} {vs : List Word}
    (hfirst : first.toInt.natAbs ≤ M) (hlast : last.toInt.natAbs ≤ M)
    (hvs : ∀ v ∈ vs, v.toInt.natAbs ≤ M)
    (hsorted : (last :: vs).Pairwise fun a b => a.toInt < b.toInt)
    (hrun : IsRun first last step?) :
    ∃ ps, runs first last step? vs = .ok ps ∧ (∀ p ∈ ps, p.Bounded M) ∧
      ∀ x, Covers ps x ↔ x ∈ runs.run first last step? ∨ ∃ v ∈ vs, x = v.toInt := by
  induction vs generalizing first last step? with
  | nil =>
    refine ⟨_, rfl, ?_, fun x => by simp [Covers]⟩
    intro p hp
    obtain rfl := List.mem_singleton.1 hp
    exact bounded_run hfirst hlast step?
  | cons v vs ih =>
    obtain ⟨hlt, hrest⟩ := List.pairwise_cons.1 hsorted
    have hlv := hlt v List.mem_cons_self
    have hv := hvs v List.mem_cons_self
    have hws (w : Word) (hw : w ∈ vs) := hvs w (List.mem_cons_of_mem _ hw)
    obtain ⟨d, hdiff, hd⟩ := Word.exact_of_inRange (i := v.toInt - last.toInt)
      (Word.inRange_of_natAbs (by unfold Word.halfBound at hM; omega))
    have hcons (x : Int) :
        (∃ w ∈ v :: vs, x = w.toInt) ↔ x = v.toInt ∨ ∃ w ∈ vs, x = w.toInt := by
      simp
    unfold runs
    simp only [Word.exactSub, hdiff, bind, Except.bind]
    cases step? with
    | none =>
      obtain rfl : first = last := hrun
      obtain ⟨ps, hps, hb, hx⟩ := ih hfirst hv hws hrest (isRun_pair hlv hd)
      refine ⟨ps, hps, hb, fun x => ?_⟩
      rw [hx, hcons, ← or_assoc, mem_run_none, mem_run_pair hlv hd]
    | some step =>
      simp only
      split
      · rename_i heq
        subst heq
        obtain ⟨ps, hps, hb, hx⟩ := ih hfirst hv hws hrest (isRun_extend hlv hd hrun)
        refine ⟨ps, hps, hb, fun x => ?_⟩
        rw [hx, hcons, ← or_assoc, mem_run_extend hlv hd hrun]
      · -- the run ends, and the next one begins with `v`
        obtain ⟨ps, hps, hb, hx⟩ := ih hv hv hws hrest (isRun_single v)
        refine ⟨_, by rw [hps]; rfl, ?_, fun x => ?_⟩
        · intro p hp
          rcases List.mem_cons.1 hp with rfl | hp
          · exact bounded_run hfirst hlast _
          · exact hb p hp
        · rw [covers_cons, hx, hcons, mem_run_none]

/-! ## Ranges of words -/

/-- The range of some words has exactly these words as values. -/
theorem ofValues_of_bounded {vs : List Word} (hvs : ∀ v ∈ vs, v.toInt.natAbs ≤ M) :
    ∃ r, ofValues vs = .ok r ∧ r.Bounded M ∧ ∀ x : Int, x ∈ r ↔ ∃ v ∈ vs, x = v.toInt := by
  have hsorted : (vs.mergeSort fun a b => a ≤ b).eraseReps.Pairwise
      fun a b => decide (a ≤ b) = true ∧ a ≠ b := by
    refine pairwise_sortDistinct ?_ ?_ ?_ vs
    · simp only [decide_eq_true_eq]
      exact fun _ _ _ => Int64.le_trans
    · simp only [Bool.or_eq_true, decide_eq_true_eq]
      exact Int64.le_total
    · simp only [decide_eq_true_eq]
      exact fun _ _ => Int64.le_antisymm
  have hmem (v : Word) : v ∈ (vs.mergeSort fun a b => a ≤ b).eraseReps ↔ v ∈ vs :=
    mem_sortDistinct
  unfold ofValues
  split
  · rename_i hnil
    rw [hnil] at hmem
    refine ⟨empty, rfl, bounded_empty M, fun x => ⟨fun h => absurd h (not_mem_empty x), ?_⟩⟩
    rintro ⟨v, hv, -⟩
    exact absurd ((hmem v).2 hv) List.not_mem_nil
  · rename_i w ws hcons
    rw [hcons] at hmem hsorted
    have hlt : (w :: ws).Pairwise fun a b => a.toInt < b.toInt := by
      refine hsorted.imp fun {a b} h => ?_
      have h₁ := Int64.le_iff_toInt_le.1 (of_decide_eq_true h.1)
      have h₂ : a.toInt ≠ b.toInt := fun h' => h.2 (Word.eq_of_toInt_eq h')
      omega
    have hw := hvs w ((hmem w).1 List.mem_cons_self)
    obtain ⟨ps, hps, hb, hx⟩ := runs_of_bounded hM hw hw
      (fun v hv => hvs v ((hmem v).1 (List.mem_cons_of_mem _ hv))) hlt (isRun_single w)
    obtain ⟨r, hr, hrb, hrx⟩ := ofProgressions_of_bounded hM hb
    refine ⟨r, by rw [hps]; exact hr, hrb, fun x => ?_⟩
    rw [hrx, hx, mem_run_none]
    simp only [← hmem, List.mem_cons, or_and_right, exists_or, exists_eq_left]

end InputSolver.Range
