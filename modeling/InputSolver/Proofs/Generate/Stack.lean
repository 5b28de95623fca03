/-
  InputSolver — the stack of a program of blocks.

  The register `z` of such a program is a stack of numbers from 1 to 25, the
  top of which is its last digit in base 26.

  * `Block.onStack`: what a block does to the stack;
  * `Block.Fits.exactRun_program`: the instructions of the block do that to
    `z`;
  * `Feasible.sound`: the stack is never lower than the number of pushes that
    are still to be popped, and never higher than the number of all pushes;
  * `Feasible.exactRun`: so up to 13 pushes nothing overflows.
-/
import InputSolver.Generate.Pairs
import InputSolver.Proofs.Assignment
import InputSolver.Proofs.Program.Exact

namespace InputSolver.Generate

open Machine

/-! ## Stacks as numbers -/

/-- The numbers on a stack are digits in base 26 other than 0. -/
def IsStack (s : List Int) : Prop := ∀ a ∈ s, 1 ≤ a ∧ a ≤ 25

/-- A stack as a number, the top being the last digit. -/
def stackValue : List Int → Int
  | [] => 0
  | a :: s => stackValue s * 26 + a

variable {s : List Int}

theorem IsStack.tail (hs : IsStack s) : IsStack s.tail :=
  fun a ha => hs a (List.mem_of_mem_tail ha)

theorem stackValue_nonneg (hs : IsStack s) : 0 ≤ stackValue s := by
  induction s with
  | nil => exact Int.le_refl 0
  | cons a s ih =>
    have ha := hs a List.mem_cons_self
    have := ih hs.tail
    simp only [stackValue]
    omega

theorem stackValue_lt (hs : IsStack s) : stackValue s < 26 ^ s.length := by
  induction s with
  | nil => decide
  | cons a s ih =>
    have ha := hs a List.mem_cons_self
    have := ih hs.tail
    rw [List.length_cons, Int.pow_succ, stackValue]
    omega

/-- The number is 0 if the stack is empty, and only then. -/
theorem stackValue_eq_zero (hs : IsStack s) : stackValue s = 0 ↔ s = [] := by
  cases s with
  | nil => exact ⟨fun _ => rfl, fun _ => rfl⟩
  | cons a s =>
    have ha := hs a List.mem_cons_self
    have := stackValue_nonneg hs.tail
    simp only [List.tail_cons] at this
    simp only [stackValue, reduceCtorEq, iff_false]
    omega

theorem stackValue_mod (hs : IsStack s) : stackValue s % 26 = s.headD 0 := by
  cases s with
  | nil => rfl
  | cons a s =>
    have ha := hs a List.mem_cons_self
    simp only [stackValue, List.headD_cons]
    omega

theorem stackValue_div (hs : IsStack s) : stackValue s / 26 = stackValue s.tail := by
  cases s with
  | nil => rfl
  | cons a s =>
    have ha := hs a List.mem_cons_self
    simp only [stackValue, List.tail_cons]
    omega

/-! ## What a block does -/

namespace Block

variable {b : Block}

/-- The values of a block are those that are drawn. -/
structure Fits (b : Block) : Prop where
  offset : 1 ≤ b.offset.toInt ∧ b.offset.toInt ≤ 16
  push : b.action = .push → 10 ≤ b.check.toInt ∧ b.check.toInt ≤ 15
  pop : b.action = .pop → -16 ≤ b.check.toInt ∧ b.check.toInt ≤ -1

theorem Fits.check (hb : b.Fits) : -16 ≤ b.check.toInt ∧ b.check.toInt ≤ 15 := by
  cases h : b.action with
  | push => have := hb.push h; omega
  | pop => have := hb.pop h; omega

/-- What a block leaves on the stack before it pushes. -/
def rest (b : Block) (s : List Int) : List Int :=
  match b.action with
  | .push => s
  | .pop => s.tail

/-- Compares the top of the stack with a digit and pushes the digit if the
    comparison fails. -/
def onStack (b : Block) (d : Int) (s : List Int) : List Int :=
  if s.headD 0 + b.check.toInt = d then b.rest s else (d + b.offset.toInt) :: b.rest s

theorem isStack_rest (b : Block) (hs : IsStack s) : IsStack (b.rest s) := by
  unfold rest
  split
  · exact hs
  · exact hs.tail

theorem Fits.isStack_onStack (hb : b.Fits) {d : Int} (hd : 1 ≤ d ∧ d ≤ 9) (hs : IsStack s) :
    IsStack (b.onStack d s) := by
  have hoffset := hb.offset
  unfold onStack
  split
  · exact b.isStack_rest hs
  · exact List.forall_mem_cons.2 ⟨by omega, b.isStack_rest hs⟩

/-- The comparison of a push block fails, whatever is on the stack. -/
theorem Fits.onStack_push (hb : b.Fits) (hpush : b.action = .push) {d : Int} (hd : d ≤ 9)
    (hs : IsStack s) : b.onStack d s = (d + b.offset.toInt) :: s := by
  have hcheck := hb.push hpush
  have hhead := stackValue_mod hs
  have hne : ¬s.headD 0 + b.check.toInt = d := by omega
  simp only [onStack, rest, hpush, if_neg hne]

theorem onStack_pop (hpop : b.action = .pop) (d a : Int) (s : List Int) :
    b.onStack d (a :: s) = if a + b.check.toInt = d then s else (d + b.offset.toInt) :: s := by
  simp only [onStack, rest, hpop, List.headD_cons, List.tail_cons]

/-! ## The instructions of a block -/

theorem divisor_toInt (b : Block) : b.divisor.toInt = 1 ∨ b.divisor.toInt = 26 := by
  unfold divisor
  cases b.action with
  | push => exact .inl rfl
  | pop => exact .inr rfl

/-- The division leaves what the block leaves on the stack. -/
theorem stackValue_rest (b : Block) (hs : IsStack s) :
    stackValue (b.rest s) = stackValue s / b.divisor.toInt := by
  unfold rest divisor
  cases b.action with
  | push => exact (Int.ediv_one _).symm
  | pop => exact (stackValue_div hs).symm

/-- The first eight instructions read a digit, take off what the block pops
    and compare. -/
theorem Fits.exactRun_comparison {ds : List Word} {d : Word} {w x y z : Int} {n : Nat}
    (hb : b.Fits) (hread : ds[n]? = some d) (hz : 0 ≤ z) (hmax : z < 0x8000000000000000) :
    (b.program.take 8).foldlM (exactStep ds) ⟨⟨w, x, y, z⟩, n⟩ =
      some ⟨⟨d.toInt, if z % 26 + b.check.toInt = d.toInt then 0 else 1, y,
        z / b.divisor.toInt⟩, n + 1⟩ := by
  have hcheck := hb.check
  have hdivisor := b.divisor_toInt
  have hword {v : Int} (hle : -16 ≤ v) (hlt : v < 0x8000000000000000) : Word.InRange v :=
    ⟨by omega, by omega⟩
  have hzero : Word.InRange 0 := hword (by omega) (by omega)
  have hstack : Word.InRange z := hword (by omega) hmax
  have hquotient : Word.InRange (z / 26) := hword (by omega) (by omega)
  have hpopped : Word.InRange (z / b.divisor.toInt) := by
    rcases hdivisor with h | h <;> rw [h] <;> exact hword (by omega) (by omega)
  have hsum : Word.InRange (z % 26 + b.check.toInt) := hword (by omega) (by omega)
  have hne : b.divisor.toInt ≠ 0 := by omega
  have h0 : (0 : Word).toInt = 0 := rfl
  have h26 : (26 : Word).toInt = 26 := rfl
  simp only [program, List.take_succ_cons, List.take_zero, List.foldlM_cons, List.foldlM_nil]
  simp [exactStep, Operator.exactValue?, operandInt, Registers.get, Registers.set, hread, h0, h26,
    Int.tdiv_eq_ediv_of_nonneg hz, Int.tmod_eq_emod_of_nonneg hz, hne, hzero, hstack, hquotient,
    hpopped, hsum]
  by_cases heq : z % 26 + b.check.toInt = d.toInt
  · simp [heq]
  · simp [heq]

/-- The other ten push the digit if the comparison failed. -/
theorem Fits.exactRun_pushing (hb : b.Fits) (ds : List Word) {d x : Int} (y : Int) {z : Int}
    (n : Nat) (hd : 1 ≤ d ∧ d ≤ 9) (hx : x = 0 ∨ x = 1) (hz : 0 ≤ z)
    (hmax : z * (25 * x + 1) + (d + b.offset.toInt) * x < 0x8000000000000000) :
    ∃ u, (b.program.drop 8).foldlM (exactStep ds) ⟨⟨d, x, y, z⟩, n⟩ =
      some ⟨⟨d, x, u, z * (25 * x + 1) + (d + b.offset.toInt) * x⟩, n⟩ := by
  have hoffset := hb.offset
  have hword {v : Int} (hle : 0 ≤ v) (hlt : v < 0x8000000000000000) : Word.InRange v :=
    ⟨by omega, by omega⟩
  have hzero : Word.InRange 0 := hword (by omega) (by omega)
  have h25 : Word.InRange 25 := hword (by omega) (by omega)
  have hscaled : Word.InRange (25 * x) := hword (by omega) (by omega)
  have hfactor : Word.InRange (25 * x + 1) := hword (by omega) (by omega)
  have hdigit : Word.InRange d := hword (by omega) (by omega)
  have hpushed : Word.InRange (d + b.offset.toInt) := hword (by omega) (by omega)
  have hpart : Word.InRange ((d + b.offset.toInt) * x) := by
    rcases hx with rfl | rfl <;> exact hword (by omega) (by omega)
  have hshifted : Word.InRange (z * (25 * x + 1)) := by
    rcases hx with rfl | rfl <;> exact hword (by omega) (by omega)
  have hresult : Word.InRange (z * (25 * x + 1) + (d + b.offset.toInt) * x) := by
    rcases hx with rfl | rfl <;> exact hword (by omega) hmax
  have toInt_0 : (0 : Word).toInt = 0 := rfl
  have toInt_1 : (1 : Word).toInt = 1 := rfl
  have toInt_25 : (25 : Word).toInt = 25 := rfl
  simp [program, exactStep, Operator.exactValue?, operandInt, Registers.get, Registers.set, toInt_0,
    toInt_1, toInt_25, hzero, h25, hscaled, hfactor, hdigit, hpushed, hpart, hshifted, hresult]

/-- The instructions of a block do to `z` what the block does to the stack. -/
theorem Fits.exactRun_program {ds : List Word} {d : Word} {m : Machine Int} (hb : b.Fits)
    (hread : ds[m.inputsRead]? = some d) (hd : 1 ≤ d.toInt ∧ d.toInt ≤ 9) (hs : IsStack s)
    (hz : m.registers.z = stackValue s) (hmax : stackValue s < 0x8000000000000000)
    (hmax' : stackValue (b.onStack d.toInt s) < 0x8000000000000000) :
    ∃ t, b.program.foldlM (exactStep ds) m = some t ∧
      t.registers.z = stackValue (b.onStack d.toInt s) ∧ t.inputsRead = m.inputsRead + 1 := by
  obtain ⟨⟨w, x, y, z⟩, n⟩ := m
  obtain rfl : z = stackValue s := hz
  have hcompare := hb.exactRun_comparison (w := w) (x := x) (y := y) hread
    (stackValue_nonneg hs) hmax
  rw [stackValue_mod hs, ← b.stackValue_rest hs] at hcompare
  have hrest := stackValue_nonneg (b.isStack_rest hs)
  unfold onStack at hmax' ⊢
  rw [← List.take_append_drop 8 b.program, List.foldlM_append, hcompare]
  by_cases heq : s.headD 0 + b.check.toInt = d.toInt
  · simp only [if_pos heq] at hmax' ⊢
    obtain ⟨u, hu⟩ := hb.exactRun_pushing ds y (n + 1) hd (.inl rfl) hrest
      (by omega)
    exact ⟨_, hu, by simp, rfl⟩
  · simp only [if_neg heq] at hmax' ⊢
    obtain ⟨u, hu⟩ := hb.exactRun_pushing ds y (n + 1) hd (.inr rfl) hrest
      (by simp only [stackValue] at hmax'; omega)
    exact ⟨_, hu, by simp [stackValue], rfl⟩

end Block

/-! ## Lists of blocks -/

/-- What a block does, which is given with a digit. -/
def actionOf (e : Block × Word) : StackAction := e.1.action

/-- The stack after some blocks with their digits. -/
def stackAfter (es : List (Block × Word)) : List Int :=
  es.foldl (fun s e => e.1.onStack e.2.toInt s) []

theorem stackAfter_concat (es : List (Block × Word)) (e : Block × Word) :
    stackAfter (es ++ [e]) = e.1.onStack e.2.toInt (stackAfter es) := List.foldl_append

variable {es : List (Block × Word)} {e : Block × Word}

theorem counts_concat_push (es : List (Block × Word)) (he : e.1.action = .push) :
    ((es ++ [e]).map actionOf).count .push = (es.map actionOf).count .push + 1 ∧
      ((es ++ [e]).map actionOf).count .pop = (es.map actionOf).count .pop := by
  simp [actionOf, he]

theorem counts_concat_pop (es : List (Block × Word)) (he : e.1.action = .pop) :
    ((es ++ [e]).map actionOf).count .push = (es.map actionOf).count .push ∧
      ((es ++ [e]).map actionOf).count .pop = (es.map actionOf).count .pop + 1 := by
  simp [actionOf, he]

/-- Blocks with digits that never pop more often than they push. -/
structure Feasible (es : List (Block × Word)) : Prop where
  fits : ∀ e ∈ es, e.1.Fits
  digits : ∀ e ∈ es, 1 ≤ e.2.toInt ∧ e.2.toInt ≤ 9
  pops_le : ∀ p, p <+: es.map actionOf → p.count .pop ≤ p.count .push

/-- The height of a stack lies between the pushes that are still to be popped
    and all pushes. -/
structure Sound (es : List (Block × Word)) : Prop where
  isStack : IsStack (stackAfter es)
  le_height : (es.map actionOf).count .push ≤ (stackAfter es).length + (es.map actionOf).count .pop
  height_le : (stackAfter es).length ≤ (es.map actionOf).count .push

namespace Feasible

theorem of_concat (h : Feasible (es ++ [e])) : Feasible es where
  fits x hx := h.fits x (List.mem_append_left _ hx)
  digits x hx := h.digits x (List.mem_append_left _ hx)
  pops_le p hp := by
    refine h.pops_le p (hp.trans ?_)
    rw [List.map_append]
    exact List.prefix_append ..

theorem fits_last (h : Feasible (es ++ [e])) : e.1.Fits := h.fits e (by simp)

theorem digit_last (h : Feasible (es ++ [e])) : 1 ≤ e.2.toInt ∧ e.2.toInt ≤ 9 :=
  h.digits e (by simp)

theorem count_le (h : Feasible es) :
    (es.map actionOf).count .pop ≤ (es.map actionOf).count .push :=
  h.pops_le _ (List.prefix_refl _)

/-- A block that pops finds something on the stack. -/
theorem sound (h : Feasible es) : Sound es := by
  induction es using List.reverseRecOn with
  | nil => exact ⟨fun a ha => absurd ha List.not_mem_nil, Nat.le_refl _, Nat.le_refl _⟩
  | append_singleton es e ih =>
    obtain ⟨hstack, hle, hge⟩ := ih h.of_concat
    have hstack' := h.fits_last.isStack_onStack h.digit_last hstack
    have hcount := h.count_le
    rw [← stackAfter_concat] at hstack'
    cases haction : e.1.action with
    | push =>
      have hafter := h.fits_last.onStack_push haction h.digit_last.2 hstack
      obtain ⟨hpushes, hpops⟩ := counts_concat_push es haction
      rw [← stackAfter_concat] at hafter
      have hheight : (stackAfter (es ++ [e])).length = (stackAfter es).length + 1 := by
        rw [hafter, List.length_cons]
      exact ⟨hstack', by omega, by omega⟩
    | pop =>
      -- more was pushed than popped before, so there is something to pop
      obtain ⟨hpushes, hpops⟩ := counts_concat_pop es haction
      rw [hpushes, hpops] at hcount
      obtain ⟨a, s, hs⟩ : ∃ a s, stackAfter es = a :: s :=
        List.exists_cons_of_length_pos (by omega)
      have hafter := Block.onStack_pop haction e.2.toInt a s
      rw [← hs, ← stackAfter_concat] at hafter
      rw [hs, List.length_cons] at hle hge
      have hheight : (stackAfter (es ++ [e])).length = s.length ∨
          (stackAfter (es ++ [e])).length = s.length + 1 := by
        rw [hafter]
        split
        · exact .inl rfl
        · exact .inr rfl
      exact ⟨hstack', by omega, by omega⟩

/-- The stack of up to 13 pushes is a word. -/
theorem stackValue_lt (h : Feasible es) (hmax : (es.map actionOf).count .push ≤ 13) :
    stackValue (stackAfter es) < 0x8000000000000000 := by
  have hsound := h.sound
  have hheight := Nat.le_trans hsound.height_le hmax
  calc stackValue (stackAfter es)
      < 26 ^ (stackAfter es).length := Generate.stackValue_lt hsound.isStack
    _ ≤ 26 ^ 13 := pow_le_pow_right₀ (by decide) hheight
    _ ≤ 0x8000000000000000 := by decide

/-- Up to 13 pushes the program of some blocks runs exactly, and `z` is their
    stack. -/
theorem exactRun (h : Feasible es) (hmax : (es.map actionOf).count .push ≤ 13) {ds : List Word}
    (hds : es.map (·.2) <+: ds) :
    ∃ t, (blocksProgram (es.map (·.1))).exactRun ds = some t ∧
      t.registers.z = stackValue (stackAfter es) ∧ t.inputsRead = es.length := by
  induction es using List.reverseRecOn with
  | nil => exact ⟨_, rfl, rfl, rfl⟩
  | append_singleton es e ih =>
    have hmax' := hmax
    rw [List.map_append, List.count_append] at hmax'
    have hread : ds[es.length]? = some e.2 := by
      obtain ⟨rest, rfl⟩ := hds
      simp
    obtain ⟨t, ht, hz, hcount⟩ := ih h.of_concat (by omega)
      ((List.prefix_append ..).trans (List.map_append ▸ hds))
    rw [← hcount] at hread
    obtain ⟨u, hu, hz', hcount'⟩ := h.fits_last.exactRun_program hread h.digit_last
      h.of_concat.sound.isStack hz (h.of_concat.stackValue_lt (by omega))
      (stackAfter_concat es e ▸ h.stackValue_lt hmax)
    refine ⟨u, ?_, by rw [stackAfter_concat, hz'], by simp [hcount', hcount]⟩
    rw [blocksProgram, List.map_append, List.flatMap_append, Program.exactRun_append]
    change Program.exactRun (blocksProgram (es.map (·.1))) ds >>= _ = _
    rw [ht]
    simpa using hu

end Feasible

end InputSolver.Generate
