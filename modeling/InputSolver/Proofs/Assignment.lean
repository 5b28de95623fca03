/-
  InputSolver — assignments of digits.

  * `Digits`: all values are digits; `ExtendedBy`: another assignment has all
    bindings;
  * `entries_ofPairs`: pairs in ascending order of position are the bindings of
    the assignment they make;
  * `get?_ofDigits`: bindings from position 0 on are read as a list.
-/
import Mathlib.Data.List.Induction
import InputSolver.Assignment
import InputSolver.Digit

namespace InputSolver

theorem Digit.toInt_bounds {v : Word} (hv : isDigit v = true) : 1 ≤ v.toInt ∧ v.toInt ≤ 9 := by
  simp only [isDigit, Bool.and_eq_true, decide_eq_true_eq, Int64.le_iff_toInt_le] at hv
  exact hv

theorem Digit.natAbs_le {v : Word} (hv : isDigit v = true) : v.toInt.natAbs ≤ 9 := by
  have hbounds := toInt_bounds hv
  omega

namespace Assignment

/-- Every value is a digit. -/
def Digits (a : Assignment) : Prop := ∀ i v, a.get? i = some v → Digit.isDigit v = true

/-- Every input bound by `p` has the same value under `a`. -/
def ExtendedBy (p a : Assignment) : Prop := ∀ i v, p.get? i = some v → a.get? i = some v

theorem ExtendedBy.trans {p q a : Assignment} (hpq : p.ExtendedBy q) (hqa : q.ExtendedBy a) :
    p.ExtendedBy a := fun i v h => hqa i v (hpq i v h)

/-! ## Bindings -/

theorem mem_entries_iff {a : Assignment} {i : Nat} {v : Word} :
    (i, v) ∈ a.entries ↔ a.get? i = some v := by
  unfold get?
  have hasc := a.ascending
  generalize a.entries = es at hasc
  induction es with
  | nil => exact ⟨nofun, nofun⟩
  | cons e es ih =>
    obtain ⟨j, w⟩ := e
    obtain ⟨hj, hes⟩ := List.pairwise_cons.1 hasc
    rw [List.lookup_cons, List.mem_cons]
    split
    · rename_i heq
      obtain rfl : i = j := eq_of_beq heq
      constructor
      · rintro (h | h)
        · cases h
          rfl
        · exact absurd (hj _ h) (Nat.lt_irrefl i)
      · rintro ⟨⟩
        exact .inl rfl
    · rename_i hne
      refine Iff.trans ⟨?_, .inr⟩ (ih hes)
      rintro (h | h)
      · cases h
        simp at hne
      · exact h

theorem digits_iff {a : Assignment} : a.Digits ↔ ∀ d ∈ a.digits, Digit.isDigit d = true := by
  constructor
  · intro h d hd
    obtain ⟨⟨i, v⟩, hmem, rfl⟩ := List.mem_map.1 hd
    exact h i v (mem_entries_iff.1 hmem)
  · intro h i v hv
    exact h v (List.mem_map.2 ⟨(i, v), mem_entries_iff.2 hv, rfl⟩)

instance (a : Assignment) : Decidable a.Digits :=
  decidable_of_iff (a.digits.all Digit.isDigit = true) (List.all_eq_true.trans digits_iff.symm)

/-- The bindings of `p` in a list are bindings of `a`. -/
theorem extendedBy_iff {p a : Assignment} :
    p.ExtendedBy a ↔ ∀ e ∈ p.entries, a.get? e.1 = some e.2 :=
  ⟨fun h _ he => h _ _ (mem_entries_iff.1 he), fun h _ _ hv => h _ (mem_entries_iff.2 hv)⟩

instance (p a : Assignment) : Decidable (p.ExtendedBy a) := decidable_of_iff _ extendedBy_iff.symm

theorem extendedBy_bind {a : Assignment} {i : Nat} (hi : a.get? i = none) (v : Word) :
    a.ExtendedBy (a.bind i v) := by
  intro j w hw
  rw [get?_bind]
  split
  · rename_i hj
    rw [hj, hi] at hw
    cases hw
  · exact hw

/-! ## Several bindings -/

/-- Gives the inputs at some positions values, one after the other. -/
def bindAll (a : Assignment) (is : List Nat) (ds : List Word) : Assignment :=
  (is.zip ds).foldl (fun a p => a.bind p.1 p.2) a

theorem bindAll_cons (a : Assignment) (i : Nat) (is : List Nat) (d : Word) (ds : List Word) :
    a.bindAll (i :: is) (d :: ds) = (a.bind i d).bindAll is ds := rfl

theorem get?_bindAll_of_not_mem {is : List Nat} {j : Nat} (hj : j ∉ is) (a : Assignment)
    (ds : List Word) : (a.bindAll is ds).get? j = a.get? j := by
  induction is generalizing a ds with
  | nil => rfl
  | cons i is ih =>
    cases ds with
    | nil => rfl
    | cons d ds =>
      rw [bindAll_cons, ih (List.not_mem_of_not_mem_cons hj), get?_bind,
        if_neg (List.ne_of_not_mem_cons hj)]

/-- Bindings are only added at positions that have none. -/
theorem extendedBy_bindAll {a : Assignment} {is : List Nat} (his : ∀ i ∈ is, a.get? i = none)
    (ds : List Word) : a.ExtendedBy (a.bindAll is ds) := by
  intro j v hv
  rw [get?_bindAll_of_not_mem (fun hj => by rw [his j hj] at hv; cases hv)]
  exact hv

theorem digits_bind {a : Assignment} (ha : a.Digits) (i : Nat) {d : Word}
    (hd : Digit.isDigit d = true) : (a.bind i d).Digits := by
  intro j v hv
  rw [get?_bind] at hv
  split at hv
  · cases hv
    exact hd
  · exact ha j v hv

theorem digits_bindAll {a : Assignment} (ha : a.Digits) (is : List Nat) {ds : List Word}
    (hds : ∀ d ∈ ds, Digit.isDigit d = true) : (a.bindAll is ds).Digits := by
  induction is generalizing a ds with
  | nil => exact ha
  | cons i is ih =>
    cases ds with
    | nil => exact ha
    | cons d ds =>
      exact ih (digits_bind ha i (hds d List.mem_cons_self))
        fun x hx => hds x (List.mem_cons_of_mem _ hx)

/-! ## Pairs in ascending order -/

theorem insertEntry_of_lt {i : Nat} {es : List (Nat × Word)} (h : ∀ e ∈ es, e.1 < i) (v : Word) :
    insertEntry i v es = es ++ [(i, v)] := by
  induction es with
  | nil => rfl
  | cons e es ih =>
    have he := h e List.mem_cons_self
    rw [insertEntry, if_neg (Nat.lt_asymm he), if_neg (Nat.ne_of_gt he),
      ih fun x hx => h x (List.mem_cons_of_mem _ hx)]
    rfl

theorem bindAll_ofPairs (pairs : List (Nat × Word)) (is : List Nat) (ds : List Word) :
    (ofPairs pairs).bindAll is ds = ofPairs (pairs ++ is.zip ds) := List.foldl_append.symm

theorem ofPairs_append (pairs : List (Nat × Word)) (i : Nat) (v : Word) :
    ofPairs (pairs ++ [(i, v)]) = (ofPairs pairs).bind i v := by
  rw [ofPairs, List.foldl_append]
  rfl

/-- Pairs in ascending order are the bindings of the assignment. -/
theorem entries_ofPairs {pairs : List (Nat × Word)} (h : pairs.Pairwise fun a b => a.1 < b.1) :
    (ofPairs pairs).entries = pairs := by
  induction pairs using List.reverseRecOn with
  | nil => rfl
  | append_singleton pairs p ih =>
    obtain ⟨hpairs, -, hlt⟩ := List.pairwise_append.1 h
    rw [ofPairs_append]
    change insertEntry p.1 p.2 (ofPairs pairs).entries = _
    rw [ih hpairs, insertEntry_of_lt fun e he => hlt e he p List.mem_cons_self]

theorem pairwise_zip {is : List Nat} (his : is.Pairwise (· < ·)) (ds : List Word) :
    (is.zip ds).Pairwise fun a b => a.1 < b.1 := by
  induction is generalizing ds with
  | nil => exact .nil
  | cons i is ih =>
    obtain ⟨hi, his⟩ := List.pairwise_cons.1 his
    cases ds with
    | nil => exact .nil
    | cons d ds => exact List.pairwise_cons.2 ⟨fun x hx => hi _ (List.of_mem_zip hx).1, ih his ds⟩

theorem get?_ofPairs_zip {is : List Nat} (his : is.Pairwise (· < ·)) {ds : List Word} {i : Nat}
    {d : Word} : (ofPairs (is.zip ds)).get? i = some d ↔ (i, d) ∈ is.zip ds := by
  rw [← mem_entries_iff, entries_ofPairs (pairwise_zip his ds)]

/-! ## Consecutive positions -/

theorem lookup_number (start i : Nat) (ds : List Word) :
    (number start ds).lookup (start + i) = ds[i]? := by
  induction ds generalizing start i with
  | nil => rfl
  | cons d ds ih =>
    rw [number, List.lookup_cons]
    cases i with
    | zero => simp
    | succ i =>
      have hi : start + (i + 1) = start + 1 + i := by omega
      rw [beq_false_of_ne (by omega), hi]
      exact ih (start + 1) i

theorem get?_ofDigits (ds : List Word) (i : Nat) : (ofDigits ds).get? i = ds[i]? := by
  have h := lookup_number 0 i ds
  rwa [Nat.zero_add] at h

theorem digits_ofDigits {ds : List Word} (hds : ∀ d ∈ ds, Digit.isDigit d = true) :
    (ofDigits ds).Digits := by
  intro i v hv
  rw [get?_ofDigits] at hv
  exact hds v (List.mem_of_getElem? hv)

end Assignment

end InputSolver
