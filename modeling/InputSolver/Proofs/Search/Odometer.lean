/-
  InputSolver — the search through all assignments as an odometer.

  The search through all assignments goes down the positions.  It can also be
  done in one loop, over choices of one digit for each position that are
  counted up like an odometer.

  * `advance_reading`: one step of the odometer adds 1 to its reading, and
    carries at the end;
  * `countUp_eq`, `enumerate_eq`: the loop and the search check the same
    assignments, one after the other;
  * `search_in_order`: these are all assignments of digits in lexicographic
    order, and the search ends at the first one that reaches the target.
-/
import InputSolver.Proofs.Search.Pruning

namespace InputSolver

/-! ## Lists of letters in order -/

section Words

variable {α : Type}

/-- The lists of a given length over an alphabet, in lexicographic order. -/
def words (alphabet : List α) : Nat → List (List α)
  | 0 => [[]]
  | n + 1 => alphabet.flatMap fun a => (words alphabet n).map (a :: ·)

theorem mem_words {alphabet : List α} {n : Nat} {w : List α} :
    w ∈ words alphabet n ↔ w.length = n ∧ ∀ a ∈ w, a ∈ alphabet := by
  induction n generalizing w with
  | zero =>
    rw [words, List.mem_singleton, List.length_eq_zero_iff]
    exact ⟨fun h => ⟨h, by rw [h]; nofun⟩, And.left⟩
  | succ n ih =>
    simp only [words, List.mem_flatMap, List.mem_map, ih]
    constructor
    · rintro ⟨a, ha, w, ⟨hlength, hw⟩, rfl⟩
      exact ⟨congrArg (· + 1) hlength, List.forall_mem_cons.2 ⟨ha, hw⟩⟩
    · rintro ⟨hlength, hw⟩
      cases w with
      | nil => cases hlength
      | cons a w =>
        obtain ⟨ha, hw⟩ := List.forall_mem_cons.1 hw
        exact ⟨a, ha, w, ⟨Nat.succ.inj hlength, hw⟩, rfl⟩

theorem length_words (alphabet : List α) (n : Nat) :
    (words alphabet n).length = alphabet.length ^ n := by
  induction n with
  | zero => rfl
  | succ n ih => simp [words, List.length_flatMap, ih, Nat.pow_succ, Nat.mul_comm]

theorem pairwise_words {alphabet : List α} {r : α → α → Prop} (h : alphabet.Pairwise r) (n : Nat) :
    (words alphabet n).Pairwise (List.Lex r) := by
  induction n with
  | zero => exact List.pairwise_singleton ..
  | succ n ih =>
    rw [words, List.pairwise_flatMap]
    refine ⟨fun a _ => List.pairwise_map.2 (ih.imp .cons), h.imp fun hab v hv w hw => ?_⟩
    obtain ⟨v, -, rfl⟩ := List.mem_map.1 hv
    obtain ⟨w, -, rfl⟩ := List.mem_map.1 hw
    exact .rel hab

/-- Lists of one length put in a row are found at multiples of it. -/
theorem getElem?_flatMap_of_length {β : Type} {as : List α} {f : α → List β} {m : Nat}
    (hf : ∀ a ∈ as, (f a).length = m) (i : Nat) {k : Nat} (hk : k < m) :
    (as.flatMap f)[i * m + k]? = as[i]?.bind fun a => (f a)[k]? := by
  induction as generalizing i with
  | nil => rfl
  | cons a as ih =>
    obtain ⟨ha, has⟩ := List.forall_mem_cons.1 hf
    rw [List.flatMap_cons]
    cases i with
    | zero =>
      rw [List.getElem?_append_left (by omega)]
      simp
    | succ i =>
      have hsplit : (i + 1) * m + k - (f a).length = i * m + k := by
        rw [ha, Nat.succ_mul]
        omega
      rw [List.getElem?_append_right (by rw [ha, Nat.succ_mul]; omega), hsplit, ih has]
      rfl

end Words

namespace Exhaustive

open Backtrack InputSolver.Expr SearchM

/-! ## The odometer -/

section Odometer

variable {radix : Nat}

/-- Counts choices up, the last one fastest.  The answer tells whether they
    did not wrap around. -/
def advance : List (Fin radix) → Bool × List (Fin radix)
  | [] => (false, [])
  | choice :: choices =>
    match advance choices with
    | (true, choices) => (true, choice :: choices)
    | (false, choices) =>
      if h : choice + 1 < radix then (true, ⟨choice + 1, h⟩ :: choices)
      else (false, ⟨0, choice.pos⟩ :: choices)

/-- The number that choices show, the first one being the highest place. -/
def reading : List (Fin radix) → Nat
  | [] => 0
  | choice :: choices => choice * radix ^ choices.length + reading choices

theorem reading_start (h : 0 < radix) (positions : List Nat) :
    reading (positions.map fun _ => (⟨0, h⟩ : Fin radix)) = 0 := by
  induction positions with
  | nil => rfl
  | cons i positions ih => rw [List.map_cons, reading, Nat.zero_mul, Nat.zero_add, ih]

theorem length_advance (choices : List (Fin radix)) :
    (advance choices).2.length = choices.length := by
  induction choices with
  | nil => rfl
  | cons choice choices ih =>
    rw [advance]
    rcases hadvance : advance choices with ⟨_ | _, rest⟩
    · rw [hadvance] at ih
      dsimp only
      split
      · exact congrArg (· + 1) ih
      · exact congrArg (· + 1) ih
    · rw [hadvance] at ih
      exact congrArg (· + 1) ih

theorem reading_lt (choices : List (Fin radix)) : reading choices < radix ^ choices.length := by
  induction choices with
  | nil => exact Nat.one_pos
  | cons choice choices ih =>
    have hle : (choice + 1) * radix ^ choices.length ≤ radix * radix ^ choices.length :=
      Nat.mul_le_mul_right _ choice.isLt
    rw [Nat.succ_mul] at hle
    rw [reading, List.length_cons, Nat.pow_succ']
    omega

/-- A step adds 1 to the reading, or carries out of the first place. -/
theorem advance_reading (choices : List (Fin radix)) :
    reading choices + 1 = reading (advance choices).2 +
      if (advance choices).1 then 0 else radix ^ choices.length := by
  induction choices with
  | nil => rfl
  | cons choice choices ih =>
    have hlength := length_advance choices
    rw [advance]
    rcases hadvance : advance choices with ⟨_ | _, rest⟩
    · -- the places below carry
      rw [hadvance] at ih hlength
      dsimp only at ih hlength ⊢
      rw [if_neg Bool.false_ne_true] at ih
      split
      · simp only [reading, hlength, if_pos, Nat.succ_mul]
        omega
      · have hradix : choice + 1 = radix := by
          have := choice.isLt
          omega
        have hcarry : radix ^ (choices.length + 1) =
            choice * radix ^ choices.length + radix ^ choices.length := by
          rw [← Nat.succ_mul, Nat.succ_eq_add_one, hradix, Nat.pow_succ']
        simp only [reading, Nat.zero_mul, List.length_cons, Bool.false_eq_true, if_false, hcarry]
        omega
    · rw [hadvance] at ih hlength
      dsimp only at ih hlength ⊢
      rw [if_pos rfl] at ih
      simp only [reading, hlength, if_pos]
      omega

example : advance ([0, 8] : List (Fin 9)) = (true, [1, 0]) ∧
    advance ([8, 8] : List (Fin 9)) = (false, [0, 0]) := by decide

/-- The choices that show a number choose the letters of the word at it. -/
theorem getElem?_words {α : Type} (alphabet : List α) (choices : List (Fin alphabet.length)) :
    (words alphabet choices.length)[reading choices]? = some (choices.map alphabet.get) := by
  induction choices with
  | nil => rfl
  | cons choice choices ih =>
    have hlength (a : α) :
        ((words alphabet choices.length).map (a :: ·)).length =
          alphabet.length ^ choices.length := by
      rw [List.length_map, length_words]
    rw [List.length_cons, words, reading,
      getElem?_flatMap_of_length (fun a _ => hlength a) choice (reading_lt choices),
      List.getElem?_eq_getElem choice.isLt, Option.bind_some, List.getElem?_map, ih]
    rfl

end Odometer

/-! ## The loop -/

/-- Checks one assignment after the other, until one reaches the target. -/
def checkEach (q : Query) : List Assignment → SearchM (Option Assignment)
  | [] => return none
  | a :: as => do
    match ← check q a with
    | some found => return some found
    | none => checkEach q as

/-- Checks the assignments of the digits chosen for some positions, counting
    the choices up until they wrap around. -/
def countUp (q : Query) (positions : List Nat) (choices : List (Fin q.direction.digits.length)) :
    SearchM (Option Assignment) := do
  match ← check q (.ofPairs (positions.zip (choices.map q.direction.digits.get))) with
  | some found => return some found
  | none =>
    if (advance choices).1 then countUp q positions (advance choices).2
    else return none
termination_by q.direction.digits.length ^ choices.length - reading choices
decreasing_by
  rename_i hmoved
  have hreading := advance_reading choices
  have hlt := reading_lt (advance choices).2
  rw [if_pos hmoved] at hreading
  rw [length_advance] at hlt ⊢
  omega

/-- The loop from the first choices on, with fresh counters. -/
def countAll (q : Query) : SearchM SearchResult := do
  reset
  let positions := q.expr.inputIndices
  let found? ← countUp q positions (positions.map fun _ => ⟨0, q.direction.digits_length_pos⟩)
  return ⟨found?.map .ofAssignment, (← get).statistics⟩

theorem checkEach_append (q : Query) (as bs : List Assignment) :
    checkEach q (as ++ bs) = (do
      match ← checkEach q as with
      | some found => return some found
      | none => checkEach q bs) := by
  induction as with
  | nil => simp [checkEach]
  | cons a as ih =>
    rw [List.cons_append, checkEach, checkEach, bind_assoc]
    refine bind_congr fun found? => ?_
    cases found? with
    | none => exact ih
    | some found => simp

/-- The loop checks the assignments from the reading of its choices on. -/
theorem countUp_eq (q : Query) (positions : List Nat)
    (choices : List (Fin q.direction.digits.length)) :
    countUp q positions choices = checkEach q
      (((words q.direction.digits choices.length).drop (reading choices)).map
        fun ds => .ofPairs (positions.zip ds)) := by
  -- by induction on the readings that are left
  induction hleft : q.direction.digits.length ^ choices.length - reading choices using
    Nat.strong_induction_on generalizing choices with
  | _ left ih =>
    obtain ⟨hlt, hword⟩ := List.getElem?_eq_some_iff.1 (getElem?_words _ choices)
    have hreading := advance_reading choices
    rw [List.drop_eq_getElem_cons hlt, hword, List.map_cons, checkEach, countUp]
    refine bind_congr fun found? => ?_
    cases found? with
    | some found => rfl
    | none =>
      dsimp only
      split
      · rename_i hmoved
        rw [if_pos hmoved] at hreading
        rw [length_words] at hlt
        rw [ih _ ?_ (advance choices).2 rfl, length_advance, hreading, Nat.add_zero]
        rw [length_advance]
        omega
      · rename_i hwrapped
        rw [if_neg hwrapped] at hreading
        rw [List.drop_eq_nil_of_le]
        · rfl
        · rw [length_words]
          omega

theorem tryDigits_eq {q : Query} {below : Assignment → SearchM (Option Assignment)} {i : Nat}
    {a : Assignment} {tries : Word → List Assignment}
    (hbelow : ∀ d, below (a.bind i d) = checkEach q (tries d)) (digits : List Word) :
    tryDigits below i a digits = checkEach q (digits.flatMap tries) := by
  induction digits with
  | nil => rfl
  | cons d digits ih =>
    rw [tryDigits, List.flatMap_cons, checkEach_append, hbelow]
    refine bind_congr fun found? => ?_
    cases found? with
    | some found => rfl
    | none => exact ih

/-- Going down the positions checks all assignments in order. -/
theorem enumerate_eq (q : Query) (is : List Nat) (a : Assignment) :
    enumerate q is a =
      checkEach q ((words q.direction.digits is.length).map (a.bindAll is)) := by
  induction is generalizing a with
  | nil =>
    refine (bind_pure (check q a)).symm.trans (bind_congr fun found? => ?_)
    cases found? <;> rfl
  | cons i is ih =>
    rw [enumerate, List.length_cons, words, List.map_flatMap, tryDigits_eq fun d => ih (a.bind i d)]
    simp only [List.map_map]
    rfl

/-! ## The order of the search -/

/-- The digits that are tried for the inputs of an expression, one list after
    the other. -/
def tries (q : Query) : List (List Word) :=
  words q.direction.digits q.expr.inputIndices.length

/-- The assignment of some digits to the inputs of an expression. -/
def attempt (q : Query) (ds : List Word) : Assignment := .ofPairs (q.expr.inputIndices.zip ds)

theorem mem_tries {q : Query} {ds : List Word} :
    ds ∈ tries q ↔ ds.length = q.expr.inputIndices.length ∧ ∀ d ∈ ds, Digit.isDigit d = true := by
  simp only [tries, mem_words, q.direction.mem_digits]

theorem length_tries (q : Query) : (tries q).length = 9 ^ q.expr.inputIndices.length := by
  rw [tries, length_words, q.direction.length_digits]

/-- The solution of an attempt has the inputs of the expression and the digits
    that were tried. -/
theorem ofAssignment_attempt {q : Query} {ds : List Word} (hds : ds ∈ tries q) :
    (Solution.ofAssignment (attempt q ds)).inputs = q.expr.inputIndices ∧
      (Solution.ofAssignment (attempt q ds)).digits = ds :=
  Solution.ofAssignment_zip q.expr.pairwise_inputIndices (mem_tries.1 hds).1.symm

theorem get?_attempt {q : Query} {ds : List Word} (hds : ds ∈ tries q) {i : Nat}
    (hi : i ∈ q.expr.inputIndices) : (attempt q ds).get? i ≠ none := by
  have hlength := (mem_tries.1 hds).1
  obtain ⟨k, hk, rfl⟩ := List.getElem_of_mem hi
  have hpair : (q.expr.inputIndices[k], ds[k]) ∈ q.expr.inputIndices.zip ds := by
    rw [← List.getElem_zip (h := by simpa [hlength] using hk)]
    exact List.getElem_mem _
  rw [attempt, (Assignment.get?_ofPairs_zip q.expr.pairwise_inputIndices).2 hpair]
  exact Option.some_ne_none _

/-- The first element with a property is found after `n` tries; if there is
    none, all are tried. -/
def FoundAfter {α : Type} (P : α → Prop) (as : List α) : Option α → Nat → Prop
  | some a, n => ∃ before after, as = before ++ a :: after ∧ n = before.length + 1 ∧ P a ∧
      ∀ b ∈ before, ¬ P b
  | none, n => n = as.length ∧ ∀ a ∈ as, ¬ P a

/-- No more are tried than there are. -/
theorem FoundAfter.le_length {α : Type} {P : α → Prop} {as : List α} {a? : Option α} {n : Nat}
    (h : FoundAfter P as a? n) : n ≤ as.length := by
  cases a? with
  | none => exact Nat.le_of_eq h.1
  | some a =>
    obtain ⟨before, after, rfl, rfl, -⟩ := h
    rw [List.length_append, List.length_cons]
    omega

theorem FoundAfter.cons {α : Type} {P : α → Prop} {a : α} {as : List α} {a? : Option α} {n : Nat}
    (ha : ¬ P a) (h : FoundAfter P as a? n) : FoundAfter P (a :: as) a? (n + 1) := by
  cases a? with
  | none => exact ⟨congrArg (· + 1) h.1, List.forall_mem_cons.2 ⟨ha, h.2⟩⟩
  | some b =>
    obtain ⟨before, after, rfl, rfl, hb, hbefore⟩ := h
    exact ⟨a :: before, after, rfl, rfl, hb, List.forall_mem_cons.2 ⟨ha, hbefore⟩⟩

/-- The search checks the attempts in their order. -/
theorem search_eq (q : Query) : search q = (do
    reset
    let found? ← checkEach q ((tries q).map (attempt q))
    return ⟨found?.map .ofAssignment, (← get).statistics⟩) := by
  rw [search, enumerate_eq]
  rfl

/-- So does the loop. -/
theorem countAll_eq (q : Query) : countAll q = search q := by
  rw [search_eq, countAll]
  dsimp only
  rw [countUp_eq, reading_start, List.drop_zero, List.length_map]
  rfl

section Runs

variable {q : Query} {h : Heap} (hholds : h.Holds q.expr)
include hholds

theorem check_runs {a : Assignment} (ha : ∀ i, q.expr.Mentions i → a.get? i ≠ none)
    (p : Progress) :
    (check q a).Runs p (if q.Accepts a then some a else none) (tried 1 p) :=
  (runs_count _ p).bind (exactCheck_runs (evaluate_bound hholds ha) _)

/-- Checking one assignment after the other ends at the first one that reaches
    the target. -/
theorem checkEach_runs (f : List Word → Assignment) (dss : List (List Word))
    (hf : ∀ ds ∈ dss, ∀ i, q.expr.Mentions i → (f ds).get? i ≠ none) (p : Progress) :
    ∃ ds? n, FoundAfter (fun ds => q.Accepts (f ds)) dss ds? n ∧
      (checkEach q (dss.map f)).Runs p (ds?.map f) (tried n p) := by
  induction dss generalizing p with
  | nil => exact ⟨none, 0, ⟨rfl, nofun⟩, runs_pure none p⟩
  | cons ds dss ih =>
    obtain ⟨hds, hdss⟩ := List.forall_mem_cons.1 hf
    have hcheck := check_runs hholds hds p
    by_cases haccepts : q.Accepts (f ds)
    · rw [if_pos haccepts] at hcheck
      exact ⟨some ds, 1, ⟨[], dss, rfl, rfl, haccepts, nofun⟩, hcheck.bind (runs_pure ..)⟩
    · rw [if_neg haccepts] at hcheck
      obtain ⟨ds?, n, hfound, hrun⟩ := ih hdss (tried 1 p)
      rw [← tried_add, Nat.add_comm] at hrun
      exact ⟨ds?, n + 1, hfound.cons haccepts, hcheck.bind hrun⟩

/-- The search ends with the first attempt that reaches the target, and counts
    the attempts up to it. -/
theorem search_runs (p : Progress) : ∃ ds? n p',
    FoundAfter (fun ds => q.Accepts (attempt q ds)) (tries q) ds? n ∧
      (search q).Runs p ⟨(ds?.map (attempt q)).map .ofAssignment, p'.statistics⟩ p' ∧
      p'.statistics.visited = n ∧ p'.statistics.exactChecks = n := by
  let start : Progress := { p with statistics := .zero .exhaustive }
  obtain ⟨ds?, n, hfound, hrun⟩ := checkEach_runs hholds (attempt q) (tries q)
    (fun ds hds i hi => get?_attempt hds ((mem_inputIndices hholds).2 hi)) start
  refine ⟨ds?, n, tried n start, hfound, ?_, Nat.zero_add n, Nat.zero_add n⟩
  rw [search_eq]
  exact (runs_count _ p).bind (hrun.bind rfl)

end Runs

/-- The search through all assignments is the odometer loop.  It checks the
    digits for the inputs that occur, in order of position, one list after the
    other: all lists of digits in lexicographic order, each once.  It ends with
    an answer at the first list that reaches the target, or after all of them
    if there is none, and counts every list that it checked.  With 20 inputs the
    counters still have 64 bits. -/
theorem search_in_order {q : Query} (hgraph : Coherent [q.expr])
    (hfew : q.expr.inputIndices.length ≤ 20) (p : Progress) :
    search q = countAll q ∧
    search q = (do
      reset
      let found? ← checkEach q ((tries q).map (attempt q))
      return ⟨found?.map .ofAssignment, (← get).statistics⟩) ∧
    (q.expr.inputIndices.Pairwise (· < ·) ∧
      ∀ i, i ∈ q.expr.inputIndices ↔ q.expr.Mentions i) ∧
    ((tries q).Pairwise (List.Lex q.direction.Before) ∧
      (tries q).length = 9 ^ q.expr.inputIndices.length ∧
      ∀ ds, ds ∈ tries q ↔
        ds.length = q.expr.inputIndices.length ∧ ∀ d ∈ ds, Digit.isDigit d = true) ∧
    ∃ ds? n r p', (search q).Runs p r p' ∧
      FoundAfter (fun ds => q.expr.evaluate (attempt q ds) = .ok q.target) (tries q) ds? n ∧
      r.solution?.map (fun s => (s.inputs, s.digits)) = ds?.map (q.expr.inputIndices, ·) ∧
      r.statistics.visited = n ∧ r.statistics.exactChecks = n ∧ n < Word.countBound := by
  obtain ⟨h, hholds⟩ := Heap.exists_holds_root hgraph
  obtain ⟨ds?, n, p', hfound, hrun, hvisited, hchecks⟩ := search_runs hholds p
  refine ⟨(countAll_eq q).symm, search_eq q,
    ⟨q.expr.pairwise_inputIndices, fun i => mem_inputIndices hholds⟩,
    ⟨pairwise_words q.direction.pairwise_digits _, length_tries q, fun ds => mem_tries⟩,
    ds?, n, _, p', hrun, hfound, ?_, hvisited, hchecks, ?_⟩
  · cases ds? with
    | none => rfl
    | some ds =>
      obtain ⟨before, after, hsplit, -⟩ := hfound
      have hmem : ds ∈ tries q := by simp [hsplit]
      obtain ⟨hinputs, hdigits⟩ := ofAssignment_attempt hmem
      simp only [Option.map_some, hinputs, hdigits]
  · calc n ≤ 9 ^ q.expr.inputIndices.length := length_tries q ▸ hfound.le_length
      _ ≤ 9 ^ 20 := Nat.pow_le_pow_right (by decide) hfew
      _ < Word.countBound := by decide

/-- An equality test of one input, which is not the first one. -/
def thirdIsFour : Query := ⟨.binary 2 false .eql (.input 0 2) (.literal 1 4), 1, .largest,
  .constant false⟩

theorem search_in_order_thirdIsFour : ∃ r p',
    (search thirdIsFour).Runs ⟨.empty, .zero .exhaustive, 0⟩ r p' ∧
      r.solution?.map (fun s => (s.inputs, s.digits)) = some ([2], [4]) ∧
      r.statistics.exactChecks = 6 := by
  have hgraph : Coherent [thirdIsFour.expr] := by simp [Coherent, thirdIsFour, nodes, Expr.id]
  obtain ⟨h, hholds⟩ := Heap.exists_holds_root hgraph
  have hinputs : thirdIsFour.expr.inputIndices = [2] :=
    thirdIsFour.expr.pairwise_inputIndices.eq_of_mem_iff (List.pairwise_singleton ..) fun i => by
      rw [mem_inputIndices hholds]
      simp [thirdIsFour, mentions_binary, mentions_input, not_mentions_literal, eq_comm]
  obtain ⟨-, -, -, -, ds?, n, r, p', hrun, hfound, hs, -, hchecks, -⟩ :=
    search_in_order hgraph (by rw [hinputs]; decide) ⟨.empty, .zero .exhaustive, 0⟩
  have htries : tries thirdIsFour = words Direction.largest.digits 1 := by
    rw [tries, hinputs]
    rfl
  have haccepts (ds : List Word) :
      thirdIsFour.expr.evaluate (attempt thirdIsFour ds) = .ok thirdIsFour.target ↔
        thirdIsFour.expr.valueOn (.ofPairs ([2].zip ds)) = .ok 1 := by
    rw [evaluate_eq_valueOn hholds, attempt, hinputs]
    rfl
  have honly : ∀ ds ∈ words Direction.largest.digits 1,
      thirdIsFour.expr.valueOn (.ofPairs ([2].zip ds)) = .ok 1 ↔ ds = [4] := by decide
  rw [htries] at hfound
  cases ds? with
  | none => exact (hfound.2 [4] (by decide) ((haccepts [4]).2 (by decide))).elim
  | some ds =>
    obtain ⟨before, after, hsplit, hn, hds, hbefore⟩ := hfound
    obtain rfl := (honly ds (by simp [hsplit])).1 ((haccepts ds).1 hds)
    have hindex : (words Direction.largest.digits 1).idxOf [4] = before.length := by
      rw [hsplit, List.idxOf_append_of_notMem fun hmem => hbefore [4] hmem hds]
      simp
    refine ⟨r, p', hrun, by rw [hs, hinputs]; rfl, ?_⟩
    rw [hchecks, hn, ← hindex]
    decide

end Exhaustive

end InputSolver
