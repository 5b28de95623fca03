/-
  InputSolver — assignments of values to inputs.

  An `Assignment` gives words to some input positions.  It is a list of
  bindings in ascending order of position, which its text shows.

  * `ofDigits` binds the positions from 0 on, `bind` one position;
  * `get?_bind` reads a binding back.
-/
import InputSolver.Word

namespace InputSolver

/-- Values of some inputs, in ascending order of position. -/
structure Assignment where
  entries : List (Nat × Word)
  ascending : entries.Pairwise fun a b => a.1 < b.1
  deriving DecidableEq

namespace Assignment

/-- No input has a value. -/
def empty : Assignment := ⟨[], .nil⟩

/-- The value of the input at a position. -/
def get? (a : Assignment) (index : Nat) : Option Word := a.entries.lookup index

def isEmpty (a : Assignment) : Bool := a.entries.isEmpty

def size (a : Assignment) : Nat := a.entries.length

/-- The values in order of position. -/
def digits (a : Assignment) : List Word := a.entries.map (·.2)

/-- The positions that have a value, in order. -/
def inputs (a : Assignment) : List Nat := a.entries.map (·.1)

/-! ## Binding -/

/-- Puts a binding in its place, instead of the one at that position if there
    is one. -/
def insertEntry (index : Nat) (value : Word) : List (Nat × Word) → List (Nat × Word)
  | [] => [(index, value)]
  | e :: es =>
    if index < e.1 then (index, value) :: e :: es
    else if index = e.1 then (index, value) :: es
    else e :: insertEntry index value es

theorem mem_insertEntry {index : Nat} {value : Word} {es : List (Nat × Word)} {x : Nat × Word}
    (h : x ∈ insertEntry index value es) : x = (index, value) ∨ x ∈ es := by
  induction es with
  | nil => simpa [insertEntry] using h
  | cons e es ih =>
    unfold insertEntry at h
    split at h
    · simpa using h
    · split at h
      · rcases List.mem_cons.1 h with h | h
        · exact .inl h
        · exact .inr (List.mem_cons_of_mem _ h)
      · rcases List.mem_cons.1 h with h | h
        · exact .inr (h ▸ List.mem_cons_self)
        · exact (ih h).imp_right (List.mem_cons_of_mem _)

theorem pairwise_insertEntry (index : Nat) (value : Word) {es : List (Nat × Word)}
    (h : es.Pairwise fun a b => a.1 < b.1) :
    (insertEntry index value es).Pairwise fun a b => a.1 < b.1 := by
  induction es with
  | nil => simp [insertEntry]
  | cons e es ih =>
    obtain ⟨he, hes⟩ := List.pairwise_cons.1 h
    unfold insertEntry
    split
    · rename_i hlt
      refine List.pairwise_cons.2 ⟨fun x hx => ?_, h⟩
      rcases List.mem_cons.1 hx with rfl | hx
      · exact hlt
      · exact Nat.lt_trans hlt (he x hx)
    · split
      · rename_i heq
        exact List.pairwise_cons.2 ⟨fun x hx => heq ▸ he x hx, hes⟩
      · refine List.pairwise_cons.2 ⟨fun x hx => ?_, ih hes⟩
        rcases mem_insertEntry hx with rfl | hx
        · change e.1 < index
          omega
        · exact he x hx

/-- Gives the input at a position a value, whether it had one or not. -/
def bind (a : Assignment) (index : Nat) (value : Word) : Assignment :=
  ⟨insertEntry index value a.entries, pairwise_insertEntry index value a.ascending⟩

/-- Gives inputs values one after the other; a later pair overrides. -/
def ofPairs (pairs : List (Nat × Word)) : Assignment :=
  pairs.foldl (fun a p => a.bind p.1 p.2) empty

/-- Bindings of consecutive positions. -/
def number (start : Nat) : List Word → List (Nat × Word)
  | [] => []
  | d :: ds => (start, d) :: number (start + 1) ds

theorem le_of_mem_number {start : Nat} {ds : List Word} {x : Nat × Word}
    (h : x ∈ number start ds) : start ≤ x.1 := by
  induction ds generalizing start with
  | nil => cases h
  | cons d ds ih =>
    rcases List.mem_cons.1 h with rfl | h
    · exact Nat.le_refl _
    · exact Nat.le_of_succ_le (ih h)

theorem pairwise_number (start : Nat) (ds : List Word) :
    (number start ds).Pairwise fun a b => a.1 < b.1 := by
  induction ds generalizing start with
  | nil => exact .nil
  | cons d ds ih => exact List.pairwise_cons.2 ⟨fun _ hx => le_of_mem_number hx, ih _⟩

/-- Gives the inputs from position 0 on the listed values. -/
def ofDigits (digits : List Word) : Assignment := ⟨number 0 digits, pairwise_number 0 digits⟩

theorem lookup_insertEntry_self (index : Nat) (value : Word) (es : List (Nat × Word)) :
    (insertEntry index value es).lookup index = some value := by
  induction es with
  | nil => simp [insertEntry]
  | cons e es ih =>
    unfold insertEntry
    split
    · simp
    · split
      · simp
      · rename_i hne
        rw [List.lookup_cons, beq_false_of_ne hne]
        exact ih

theorem lookup_insertEntry_of_ne {index j : Nat} (hj : j ≠ index) (value : Word)
    (es : List (Nat × Word)) : (insertEntry index value es).lookup j = es.lookup j := by
  have hb := beq_false_of_ne hj
  induction es with
  | nil => simp only [insertEntry, List.lookup_cons, hb]
  | cons e es ih =>
    obtain ⟨k, v⟩ := e
    unfold insertEntry
    split
    · simp only [List.lookup_cons, hb]
    · split
      · rename_i heq
        obtain rfl : index = k := heq
        simp only [List.lookup_cons, hb]
      · simp only [List.lookup_cons, ih]

theorem get?_bind (a : Assignment) (index : Nat) (value : Word) (j : Nat) :
    (a.bind index value).get? j = if j = index then some value else a.get? j := by
  by_cases hj : j = index
  · rw [if_pos hj, hj]
    exact lookup_insertEntry_self index value a.entries
  · rw [if_neg hj]
    exact lookup_insertEntry_of_ne hj value a.entries

/-! ## Intervals of positions -/

/-- Whether a position from `lo` to `hi` has a value. -/
def bindsWithin (a : Assignment) (lo hi : Nat) : Bool :=
  a.entries.any fun e => lo ≤ e.1 && e.1 ≤ hi

/-- Whether a position from `lo` to `hi` has a value, for callers that may
    give the bounds in the wrong order.  That is a fault as soon as any
    position has a value. -/
def bindsAny (a : Assignment) (lo hi : Nat) : Except Fault Bool :=
  if !a.isEmpty && hi < lo then .error .reversedBounds else .ok (a.bindsWithin lo hi)

/-! ## Text -/

/-- The bindings in braces, such as `\x7bi0=3, i2=7\x7d`. -/
def text (a : Assignment) : String :=
  "\x7b" ++
    String.intercalate ", " (a.entries.map fun e => "i" ++ toString e.1 ++ "=" ++ Word.text e.2) ++
    "\x7d"

end Assignment

end InputSolver
