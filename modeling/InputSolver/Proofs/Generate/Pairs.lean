/-
  InputSolver — programs of blocks accept matching digits.

  * `draws_randomBlocksFrom`: the blocks that are drawn never pop more often
    than they push and pop, and leave nothing on the stack;
  * `Fulfilled`: the digits of every pair of a push and a pop match;
  * `Feasible.fulfilled_cases`: as long as all digits match, the stack is what
    waits to be popped; after the first ones that do not, it stays higher;
  * `randomBlocks_accept`: so the program leaves 0 in `z` on matching digits,
    and only on those.
-/
import InputSolver.Proofs.Generate.Brackets
import InputSolver.Proofs.Generate.Stack
import InputSolver.Proofs.Random.Fair

namespace InputSolver.Generate

open InputSolver.Random

/-! ## Drawing -/

section Drawing

variable {σ : Type} {s : Source σ}

/-- The words that a source chooses lie between their bounds. -/
def KeepsBounds (s : Source σ) : Prop :=
  ∀ lo hi g, lo ≤ hi → lo ≤ (s.between lo hi g).1 ∧ (s.between lo hi g).1 ≤ hi

theorem keepsBounds_of_fair (hs : s.Fair) : KeepsBounds s :=
  fun lo hi g hle => ⟨hs.le_between lo hi g hle, hs.between_le lo hi g hle⟩

theorem KeepsBounds.draws (hs : KeepsBounds s) {lo hi : Word} (hle : lo ≤ hi) :
    Draws (fun _ => True) (s.between lo hi) fun v =>
      lo.toInt ≤ v.toInt ∧ v.toInt ≤ hi.toInt := by
  intro g _
  simpa only [Int64.le_iff_toInt_le, and_true] using hs lo hi g hle

theorem draws_randomPush (hs : KeepsBounds s) :
    Draws (fun _ => True) (randomPush s) fun b => b.action = .push ∧ b.Fits := by
  refine (hs.draws (by decide)).bind fun check hcheck => ?_
  refine (hs.draws (by decide)).bind fun offset hoffset => draws_pure ⟨rfl, hoffset, ?_, nofun⟩
  exact fun _ => hcheck

theorem draws_randomPop (hs : KeepsBounds s) :
    Draws (fun _ => True) (randomPop s) fun b => b.action = .pop ∧ b.Fits := by
  refine (hs.draws (by decide)).bind fun check hcheck => ?_
  refine (hs.draws (by decide)).bind fun offset hoffset => draws_pure ⟨rfl, hoffset, nofun, ?_⟩
  exact fun _ => hcheck

/-- What blocks do that are drawn for some pushes and a stack of some depth. -/
structure Drawn (pushes depth : Nat) (blocks : List Block) : Prop where
  length : blocks.length = 2 * pushes + depth
  fits : ∀ b ∈ blocks, b.Fits
  pops_le : ∀ p, p <+: blocks.map (·.action) → p.count .pop ≤ p.count .push + depth
  count_push : (blocks.map (·.action)).count .push = pushes
  count_pop : (blocks.map (·.action)).count .pop = pushes + depth

theorem Drawn.cons_push {pushes depth : Nat} {blocks : List Block} {b : Block}
    (h : Drawn pushes (depth + 1) blocks) (hb : b.action = .push ∧ b.Fits) :
    Drawn (pushes + 1) depth (b :: blocks) where
  length := by
    have := h.length
    rw [List.length_cons]
    omega
  fits := List.forall_mem_cons.2 ⟨hb.2, h.fits⟩
  pops_le p hp := by
    rw [List.map_cons, hb.1] at hp
    rcases List.prefix_cons_iff.1 hp with rfl | ⟨q, rfl, hq⟩
    · exact Nat.zero_le _
    · have := h.pops_le q hq
      rw [count_pop_push_cons, List.count_cons_self]
      omega
  count_push := by rw [List.map_cons, hb.1, List.count_cons_self, h.count_push]
  count_pop := by
    rw [List.map_cons, hb.1, count_pop_push_cons, h.count_pop]
    omega

theorem Drawn.cons_pop {pushes depth : Nat} {blocks : List Block} {b : Block}
    (h : Drawn pushes depth blocks) (hb : b.action = .pop ∧ b.Fits) :
    Drawn pushes (depth + 1) (b :: blocks) where
  length := by
    have := h.length
    rw [List.length_cons]
    omega
  fits := List.forall_mem_cons.2 ⟨hb.2, h.fits⟩
  pops_le p hp := by
    rw [List.map_cons, hb.1] at hp
    rcases List.prefix_cons_iff.1 hp with rfl | ⟨q, rfl, hq⟩
    · exact Nat.zero_le _
    · have := h.pops_le q hq
      rw [count_push_pop_cons, List.count_cons_self]
      omega
  count_push := by rw [List.map_cons, hb.1, count_push_pop_cons, h.count_push]
  count_pop := by
    rw [List.map_cons, hb.1, List.count_cons_self, h.count_pop]
    omega

theorem draws_randomBlocksFrom (hs : KeepsBounds s) (pushes depth : Nat) :
    Draws (fun _ => True) (randomBlocksFrom s pushes depth) (Drawn pushes depth) := by
  induction pushes, depth using randomBlocksFrom.induct with
  | case1 =>
    rw [randomBlocksFrom]
    refine draws_pure ⟨rfl, nofun, fun p hp => ?_, rfl, rfl⟩
    rw [List.prefix_nil.1 hp]
    exact Nat.le_refl _
  | case2 pushes ih =>
    rw [randomBlocksFrom]
    exact (draws_randomPush hs).bind fun b hb =>
      ih.bind fun blocks h => draws_pure (h.cons_push hb)
  | case3 depth ih =>
    rw [randomBlocksFrom]
    exact (draws_randomPop hs).bind fun b hb =>
      ih.bind fun blocks h => draws_pure (h.cons_pop hb)
  | case4 pushes depth ihPush ihPop =>
    rw [randomBlocksFrom]
    have hchance : Draws (fun _ => True) (s.chance (.nearest 1 2)) fun _ => True :=
      fun _ _ => ⟨trivial, trivial⟩
    refine hchance.bind fun choice _ => ?_
    cases choice with
    | true =>
      exact (draws_randomPush hs).bind fun b hb =>
        ihPush.bind fun blocks h => draws_pure (h.cons_push hb)
    | false =>
      exact (draws_randomPop hs).bind fun b hb =>
        ihPop.bind fun blocks h => draws_pure (h.cons_pop hb)

end Drawing

/-! ## Matching digits -/

/-- What a block pushes. -/
def pushed (e : Block × Word) : Int := e.2.toInt + e.1.offset.toInt

/-- The digit of every pop is what the push that it is paired with pushes,
    plus the check value. -/
def Fulfilled (es : List (Block × Word)) : Prop :=
  ∀ i j b c, Paired (es.map actionOf) i j → es[i]? = some b → es[j]? = some c →
    c.2.toInt = pushed b + c.1.check.toInt

variable {es ws : List (Block × Word)} {e w : Block × Word}

theorem fulfilled_concat : Fulfilled (es ++ [e]) ↔ Fulfilled es ∧
    ∀ i b, Paired ((es ++ [e]).map actionOf) i es.length → es[i]? = some b →
      e.2.toInt = pushed b + e.1.check.toInt := by
  have hearlier {i j : Nat} (hj : j < es.length) :
      Paired ((es ++ [e]).map actionOf) i j ↔ Paired (es.map actionOf) i j := by
    rw [List.map_append]
    exact paired_concat_of_lt (by rwa [List.length_map])
  constructor
  · intro h
    refine ⟨fun i j b c hpair hb hc => ?_, fun i b hpair hb => ?_⟩
    · have hj := (List.getElem?_eq_some_iff.1 hc).1
      have hi := (List.getElem?_eq_some_iff.1 hb).1
      refine h i j b c ((hearlier hj).2 hpair) ?_ ?_
      · rwa [List.getElem?_append_left hi]
      · rwa [List.getElem?_append_left hj]
    · have hi := (List.getElem?_eq_some_iff.1 hb).1
      refine h i es.length b e hpair ?_ List.getElem?_concat_length
      rwa [List.getElem?_append_left hi]
  · rintro ⟨hes, hlast⟩ i j b c hpair hb hc
    have hj := hpair.lt_length
    rw [List.length_map, List.length_append, List.length_singleton] at hj
    rw [List.getElem?_append_left (Nat.lt_of_lt_of_le hpair.1 (Nat.le_of_lt_succ hj))] at hb
    rcases Nat.lt_succ_iff_lt_or_eq.1 hj with hj | rfl
    · rw [List.getElem?_append_left hj] at hc
      exact hes i j b c ((hearlier hj).1 hpair) hb hc
    · rw [List.getElem?_concat_length] at hc
      cases hc
      exact hlast i b hpair hb

/-- A push has no part in the pairs of a list that it ends. -/
theorem fulfilled_concat_push (he : e.1.action = .push) :
    Fulfilled (es ++ [e]) ↔ Fulfilled es := by
  rw [fulfilled_concat]
  refine and_iff_left fun i b hpair _ => ?_
  have hpop := hpair.2.2.1
  simp [actionOf, he] at hpop

/-- A pop has to match what waits last. -/
theorem fulfilled_concat_pop (hwaiting : Waiting actionOf es (w :: ws))
    (he : e.1.action = .pop) : Fulfilled (es ++ [e]) ↔
      Fulfilled es ∧ pushed w + e.1.check.toInt = e.2.toInt := by
  obtain ⟨k, hk, hpaired⟩ := hwaiting.paired_iff (x := e) he
  rw [fulfilled_concat]
  refine and_congr_right fun _ => ⟨fun h => ?_, fun h i b hpair hb => ?_⟩
  · exact (h k w ((hpaired k).2 rfl) hk).symm
  · obtain rfl := (hpaired i).1 hpair
    rw [hk] at hb
    cases hb
    exact h.symm

namespace Feasible

/-- As long as all digits match, the stack is what waits to be popped.  After
    the first ones that do not, it stays higher. -/
theorem fulfilled_cases (h : Feasible es) : ∃ ws, Waiting actionOf es ws ∧
    (Fulfilled es ∧ stackAfter es = ws.map pushed ∨
      ¬Fulfilled es ∧ ws.length < (stackAfter es).length) := by
  induction es using List.reverseRecOn with
  | nil => exact ⟨[], .none balanced_nil, .inl ⟨nofun, rfl⟩⟩
  | append_singleton es e ih =>
    obtain ⟨ws, hwaiting, hcases⟩ := ih h.of_concat
    rw [stackAfter_concat]
    cases haction : e.1.action with
    | push =>
      refine ⟨e :: ws, hwaiting.concat_push haction, ?_⟩
      rw [fulfilled_concat_push haction,
        h.fits_last.onStack_push haction h.digit_last.2 h.of_concat.sound.isStack]
      rcases hcases with ⟨hfulfilled, hstack⟩ | ⟨hnot, hlt⟩
      · exact .inl ⟨hfulfilled, by rw [hstack]; rfl⟩
      · exact .inr ⟨hnot, Nat.succ_lt_succ hlt⟩
    | pop =>
      have hcount := h.count_le
      have hlength := hwaiting.length_add
      obtain ⟨hpushes, hpops⟩ := counts_concat_pop es haction
      obtain ⟨w, ws, rfl⟩ : ∃ w ws', ws = w :: ws' := List.exists_cons_of_length_pos (by omega)
      refine ⟨ws, hwaiting.concat_pop haction, ?_⟩
      rw [fulfilled_concat_pop hwaiting haction]
      rcases hcases with ⟨hfulfilled, hstack⟩ | ⟨hnot, hlt⟩
      · rw [hstack, List.map_cons, Block.onStack_pop haction]
        by_cases hmatch : pushed w + e.1.check.toInt = e.2.toInt
        · exact .inl ⟨⟨hfulfilled, hmatch⟩, by rw [if_pos hmatch]⟩
        · refine .inr ⟨fun hboth => hmatch hboth.2, ?_⟩
          simp [hmatch]
      · -- the stack is higher than what waits, and loses one number at most
        refine .inr ⟨fun hboth => hnot hboth.1, ?_⟩
        obtain ⟨a, s, hs⟩ : ∃ a s, stackAfter es = a :: s :=
          List.exists_cons_of_length_pos (by omega)
        rw [hs, Block.onStack_pop haction]
        simp only [hs, List.length_cons] at hlt
        by_cases hmatch : a + e.1.check.toInt = e.2.toInt
        · simp only [if_pos hmatch]
          omega
        · simp only [if_neg hmatch, List.length_cons]
          omega

/-- If every push is popped, nothing is left on the stack exactly if all
    digits match. -/
theorem stackAfter_eq_nil (h : Feasible es) (hbalanced : Balanced (es.map actionOf)) :
    stackAfter es = [] ↔ Fulfilled es := by
  obtain ⟨ws, hwaiting, hcases⟩ := h.fulfilled_cases
  have hlength := hwaiting.length_add
  rw [hbalanced.total] at hlength
  obtain rfl : ws = [] := List.eq_nil_of_length_eq_zero (by omega)
  rcases hcases with ⟨hfulfilled, hstack⟩ | ⟨hnot, hlt⟩
  · exact ⟨fun _ => hfulfilled, fun _ => hstack⟩
  · refine ⟨fun hnil => ?_, fun hfulfilled => absurd hfulfilled hnot⟩
    rw [hnil] at hlt
    cases hlt

end Feasible

/-! ## Acceptance -/

section Acceptance

variable {σ : Type} {s : Source σ} {pairs : Nat} {blocks : List Block} {ds : List Word}

/-- Blocks for some pairs are balanced. -/
theorem Drawn.balanced (h : Drawn pairs 0 blocks) : Balanced (blocks.map (·.action)) where
  beginning := h.pops_le
  total := by rw [h.count_push, h.count_pop, Nat.add_zero]

theorem map_actionOf_zip (hlen : blocks.length ≤ ds.length) :
    (blocks.zip ds).map actionOf = blocks.map (·.action) :=
  List.map_map.symm.trans (congrArg _ (List.map_fst_zip hlen))

theorem Drawn.feasible (h : Drawn pairs 0 blocks) (hlen : blocks.length ≤ ds.length)
    (hds : ∀ d ∈ ds, Digit.isDigit d = true) : Feasible (blocks.zip ds) where
  fits e he := h.fits e.1 (List.of_mem_zip he).1
  digits e he := Digit.toInt_bounds (hds e.2 (List.of_mem_zip he).2)
  pops_le := by
    rw [map_actionOf_zip hlen]
    exact h.pops_le

/-- Whatever a source chooses within the bounds, the blocks for up to 13 pairs
    are balanced.  On any digits their program runs without an overflow, and
    it leaves 0 in `z` if the digit of every pop is the digit of the push that
    it is paired with, plus the offset of the push and the check value of the
    pop, and only then. -/
theorem randomBlocks_accept (hs : KeepsBounds s) (hpairs : pairs ≤ 13) (g : σ) :
    let blocks := (randomBlocks s pairs g).1
    blocks.length = 2 * pairs ∧ Balanced (blocks.map (·.action)) ∧
      ∀ ds : List Word, ds.length = 2 * pairs → (∀ d ∈ ds, Digit.isDigit d = true) →
        ∃ t, (blocksProgram blocks).run ds = .ok t ∧
          (blocksProgram blocks).exactRun ds = some t.toInt ∧
          (t.registers.z = 0 ↔ ∀ i j b c d e, Paired (blocks.map (·.action)) i j →
            blocks[i]? = some b → blocks[j]? = some c → ds[i]? = some d → ds[j]? = some e →
              e.toInt = d.toInt + b.offset.toInt + c.check.toInt) := by
  have hdrawn : Drawn pairs 0 (randomBlocks s pairs g).1 :=
    (draws_randomBlocksFrom hs pairs 0 g trivial).1
  generalize (randomBlocks s pairs g).1 = blocks at hdrawn
  refine ⟨hdrawn.length, hdrawn.balanced, fun ds hlen hds => ?_⟩
  have hlength : blocks.length = ds.length := hdrawn.length.trans hlen.symm
  have hactions := map_actionOf_zip (Nat.le_of_eq hlength)
  have hfeasible := hdrawn.feasible (Nat.le_of_eq hlength) hds
  have hcount : ((blocks.zip ds).map actionOf).count .push ≤ 13 := by
    rw [hactions, hdrawn.count_push]
    exact hpairs
  have hdigits : (blocks.zip ds).map (·.2) <+: ds :=
    ⟨[], by rw [List.append_nil, List.map_snd_zip (Nat.le_of_eq hlength.symm)]⟩
  obtain ⟨t, ht, hz, -⟩ := hfeasible.exactRun hcount hdigits
  rw [List.map_fst_zip (Nat.le_of_eq hlength)] at ht
  obtain ⟨m, hm, rfl⟩ := Program.run_of_exactRun ht
  refine ⟨m, hm, ht, ?_⟩
  have hzero : m.registers.z = 0 ↔ Fulfilled (blocks.zip ds) := by
    rw [← hfeasible.stackAfter_eq_nil (hactions ▸ hdrawn.balanced),
      ← stackValue_eq_zero hfeasible.sound.isStack, ← hz]
    exact not_iff_not.1 Word.ne_zero_iff
  rw [hzero, Fulfilled, hactions]
  constructor
  · intro h i j b c d e hpair hb hc hd he
    exact h i j (b, d) (c, e) hpair (List.getElem?_zip_eq_some.2 ⟨hb, hd⟩)
      (List.getElem?_zip_eq_some.2 ⟨hc, he⟩)
  · rintro h i j ⟨b, d⟩ ⟨c, e⟩ hpair hbd hce
    obtain ⟨hb, hd⟩ := List.getElem?_zip_eq_some.1 hbd
    obtain ⟨hc, he⟩ := List.getElem?_zip_eq_some.1 hce
    exact h i j b c d e hpair hb hc hd he

theorem randomBlocks_accept_chaCha :
    let blocks := (randomBlocks chaCha 2 (.ofSeed 1)).1
    KeepsBounds chaCha ∧ blocks.length = 4 ∧ Balanced (blocks.map (·.action)) ∧
      ∃ t, (blocksProgram blocks).run [9, 3, 5, 1] = .ok t ∧
        (blocksProgram blocks).exactRun [9, 3, 5, 1] = some t.toInt := by
  have hs := keepsBounds_of_fair chaCha_fair
  obtain ⟨hlength, hbalanced, hruns⟩ := randomBlocks_accept hs (by decide : 2 ≤ 13) (.ofSeed 1)
  obtain ⟨t, hrun, hexact, -⟩ := hruns [9, 3, 5, 1] rfl (List.all_eq_true.1 (by decide))
  exact ⟨hs, hlength, hbalanced, t, hrun, hexact⟩

end Acceptance

end InputSolver.Generate
