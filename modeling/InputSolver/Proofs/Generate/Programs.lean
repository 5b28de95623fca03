/-
  InputSolver — random programs are safe.

  A random program adds registers and small literals, multiplies by small
  literals and divides by some other ones.  One instruction makes the values
  in the registers at most five times as large.

  * `draws_randomInstructions`: the instructions that are left have the right
    number of inputs among them, whatever the choices are;
  * `notedBy_randomInstructions`: they are the same if the source notes what
    it is asked for;
  * `exactRun_within`: a program of such instructions runs exactly as long as
    its values, five times as large each time, are words;
  * `randomProgram_safe`: what holds of every program that is drawn.
-/
import InputSolver.Generate.Programs
import InputSolver.Proofs.Assignment
import InputSolver.Proofs.Program.Exact
import InputSolver.Proofs.Random.Fair

namespace InputSolver

open InputSolver.Random

/-! ## Growth -/

/-- The operations in random programs. -/
inductive Operator.IsTame : Operator → Operand → Prop
  | sum (r : Register) : IsTame .add (.register r)
  | shift {v : Word} : v.toInt.natAbs ≤ 26 → IsTame .add (.immediate v)
  | multiple {v : Word} : v.toInt.natAbs ≤ 5 → IsTame .mul (.immediate v)
  | quotient {v : Word} : v ∈ Generate.divisors → IsTame .div (.immediate v)
  | remainder {v : Word} : v ∈ Generate.divisors → IsTame .mod (.immediate v)
  | test (rm : Operand) : IsTame .eql rm

/-- An input is read, or the operation is tame. -/
def Instruction.IsTame : Instruction → Prop
  | .inp _ => True
  | .apply op _ rm => op.IsTame rm

/-- All registers have values of magnitude `K` at most. -/
def Machine.Within (K : Nat) (m : Machine Int) : Prop := ∀ r, (m.registers.get r).natAbs ≤ K

theorem Machine.Within.set {K L : Nat} {m : Machine Int} (hm : m.Within K) (hle : K ≤ L) {v : Int}
    (hv : v.natAbs ≤ L) (rd : Register) (n : Nat) : Machine.Within L ⟨m.registers.set rd v, n⟩ := by
  intro r
  rw [Registers.get_set]
  split
  · exact hv
  · exact Nat.le_trans (hm r) hle

theorem Generate.ne_zero_of_mem_divisors {v : Word} (h : v ∈ divisors) : v.toInt ≠ 0 := by
  have hall : divisors.all (·.toInt ≠ 0) = true := by decide
  simpa using List.all_eq_true.1 hall v h

theorem tdiv_within {a b : Int} {K : Nat} (ha : a.natAbs ≤ K) : (a.tdiv b).natAbs ≤ K := by
  rw [Int.natAbs_tdiv]
  exact Nat.le_trans (Nat.div_le_self _ _) ha

/-- A tame operation has an exact result, at most five times as large. -/
theorem Operator.IsTame.exactValue? {op : Operator} {rm : Operand} (h : op.IsTame rm) {K : Nat}
    (hK : 9 ≤ K) (hmax : 5 * K < 0x8000000000000000) {m : Machine Int} (hm : m.Within K)
    (rd : Register) : ∃ v, op.exactValue? (m.registers.get rd) (m.operandInt rm) = some v ∧
      v.natAbs ≤ 5 * K := by
  have ha := hm rd
  generalize m.registers.get rd = a at ha
  have hword {v : Int} (hv : v.natAbs ≤ 5 * K) : Word.InRange v :=
    Word.inRange_of_natAbs (Nat.lt_of_le_of_lt hv hmax)
  cases h with
  | sum r =>
    have hb := hm r
    have hsum : (a + m.registers.get r).natAbs ≤ 5 * K := by omega
    exact ⟨a + m.registers.get r, if_pos (hword hsum), hsum⟩
  | @shift v hv =>
    have hsum : (a + v.toInt).natAbs ≤ 5 * K := by omega
    exact ⟨a + v.toInt, if_pos (hword hsum), hsum⟩
  | @multiple v hv =>
    have hproduct : (a * v.toInt).natAbs ≤ 5 * K := by
      rw [Int.natAbs_mul, Nat.mul_comm]
      exact Nat.mul_le_mul hv ha
    exact ⟨a * v.toInt, if_pos (hword hproduct), hproduct⟩
  | @quotient v hv =>
    have hquotient : (a.tdiv v.toInt).natAbs ≤ 5 * K := tdiv_within (by omega)
    exact ⟨a.tdiv v.toInt, if_pos ⟨Generate.ne_zero_of_mem_divisors hv, hword hquotient⟩,
      hquotient⟩
  | @remainder v hv =>
    have hquotient : (a.tdiv v.toInt).natAbs ≤ 5 * K := tdiv_within (by omega)
    have hremainder : (a.tmod v.toInt).natAbs ≤ 5 * K := by
      rw [Int.natAbs_tmod]
      exact Nat.le_trans (Nat.mod_le _ _) (by omega)
    exact ⟨a.tmod v.toInt, if_pos ⟨Generate.ne_zero_of_mem_divisors hv, hword hquotient⟩,
      hremainder⟩
  | test rm =>
    refine ⟨_, rfl, ?_⟩
    split
    · exact Nat.le_trans (by decide) (Nat.le_trans hK (by omega))
    · exact Nat.zero_le _

/-- One instruction makes values at most five times as large. -/
theorem Machine.Within.exactStep {ds : List Word} (hds : ∀ d ∈ ds, Digit.isDigit d = true)
    {i : Instruction} (hi : i.IsTame) {K : Nat} (hK : 9 ≤ K) (hmax : 5 * K < 0x8000000000000000)
    {m : Machine Int} (hm : m.Within K) (hlen : m.inputsRead + Program.inputCount [i] ≤ ds.length) :
    ∃ t, m.exactStep ds i = some t ∧ t.Within (5 * K) ∧
      t.inputsRead = m.inputsRead + Program.inputCount [i] := by
  cases i with
  | inp rd =>
    have hlt : m.inputsRead < ds.length := hlen
    have hdigit := Digit.natAbs_le (hds _ (List.getElem_mem hlt))
    refine ⟨⟨m.registers.set rd ds[m.inputsRead].toInt, m.inputsRead + 1⟩, ?_, ?_, rfl⟩
    · rw [Machine.exactStep, List.getElem?_eq_getElem hlt]
      rfl
    · exact hm.set (by omega) (by omega) rd _
  | apply op rd rm =>
    obtain ⟨v, hv, hle⟩ := Operator.IsTame.exactValue? hi hK hmax hm rd
    refine ⟨⟨m.registers.set rd v, m.inputsRead⟩, ?_, hm.set (by omega) hle rd _, rfl⟩
    rw [Machine.exactStep, hv]
    rfl

theorem Program.inputCount_cons (i : Instruction) (p : Program) :
    Program.inputCount (i :: p) = Program.inputCount [i] + p.inputCount :=
  (List.countP_append : List.countP _ ([i] ++ p) = _)

/-- Tame instructions run exactly as long as five times the values, and so on,
    are words. -/
theorem exactRun_within {ds : List Word} (hds : ∀ d ∈ ds, Digit.isDigit d = true) {p : Program}
    (hp : ∀ i ∈ p, i.IsTame) {K : Nat} (hK : 9 ≤ K) (hmax : K * 5 ^ p.length < 0x8000000000000000)
    {m : Machine Int} (hm : m.Within K) (hlen : m.inputsRead + p.inputCount ≤ ds.length) :
    ∃ t, p.foldlM (Machine.exactStep ds) m = some t ∧ t.Within (K * 5 ^ p.length) := by
  -- the limit grows with every instruction, so it is part of the induction
  induction p generalizing m K with
  | nil => exact ⟨m, rfl, by simpa using hm⟩
  | cons i p ih =>
    have hcount := Program.inputCount_cons i p
    have hpow : K * 5 ^ (i :: p).length = 5 * K * 5 ^ p.length := by
      rw [List.length_cons, Nat.pow_succ, Nat.mul_comm _ 5, ← Nat.mul_assoc, Nat.mul_comm K]
    have hle : 5 * K ≤ 5 * K * 5 ^ p.length := Nat.le_mul_of_pos_right _ (Nat.pow_pos (by decide))
    obtain ⟨t, ht, hwithin, hread⟩ := hm.exactStep hds (hp i List.mem_cons_self) hK (by omega)
      (by omega)
    obtain ⟨u, hu, hwithin'⟩ := ih (fun j hj => hp j (List.mem_cons_of_mem i hj)) (by omega)
      (by omega) hwithin (by omega)
    refine ⟨u, ?_, hpow ▸ hwithin'⟩
    rw [List.foldlM_cons, ht]
    exact hu

/-! ## Drawing -/

namespace Generate

variable {σ : Type} {s : Source σ} {I : σ → Prop}

theorem draws_element {α : Type} (hs : s.FairOn I) {xs : List α} (hxs : 0 < xs.length)
    (default : α) : Draws I (element s xs default) (· ∈ xs) := by
  refine (hs.index xs.length hxs).bind fun n hn => draws_pure ?_
  rw [List.getElem?_eq_getElem hn]
  exact List.getElem_mem hn

theorem draws_randomRegister (hs : s.FairOn I) : Draws I (randomRegister s) fun _ => True :=
  (draws_element hs (by decide) _).imp fun _ _ => trivial

/-- A literal is one of the words between its bounds. -/
theorem draws_randomImmediate (hs : s.FairOn I) {lo hi : Word} (hle : lo ≤ hi) :
    Draws I (randomImmediate s lo hi) fun rm =>
      ∃ v : Word, rm = .immediate v ∧ lo.toInt ≤ v.toInt ∧ v.toInt ≤ hi.toInt := by
  refine (hs.between lo hi hle).bind fun v hv => draws_pure ⟨v, rfl, ?_⟩
  simpa only [Int64.le_iff_toInt_le] using hv

theorem draws_randomOperand (hs : s.FairOn I) {p : Double} (hp : p.AtMostOne) {lo hi : Word}
    (hle : lo ≤ hi) : Draws I (randomOperand s p lo hi) fun rm =>
      (∃ r, rm = .register r) ∨
        ∃ v : Word, rm = .immediate v ∧ lo.toInt ≤ v.toInt ∧ v.toInt ≤ hi.toInt := by
  refine (hs.chance p hp).bind fun b _ => ?_
  split
  · exact (draws_randomRegister hs).bind fun r _ => draws_pure (.inl ⟨r, rfl⟩)
  · exact (draws_randomImmediate hs hle).imp fun _ => .inr

theorem draws_randomDivisor (hs : s.FairOn I) :
    Draws I (randomDivisor s) fun rm => ∃ v ∈ divisors, rm = .immediate v :=
  (draws_element hs (by decide) _).bind fun v hv => draws_pure ⟨v, hv, rfl⟩

/-- Every operation that is drawn is tame. -/
theorem draws_randomOperation (hs : s.FairOn I) : Draws I (randomOperation s) fun i =>
    ∃ op rd rm, i = .apply op rd rm ∧ op.IsTame rm := by
  refine (draws_randomRegister hs).bind fun rd _ => ?_
  refine (hs.index 10 (by decide)).bind fun kind _ => ?_
  split
  · refine (draws_randomOperand hs (Double.nearest_atMostOne (by decide) (by decide))
      (by decide)).bind fun rm hrm => draws_pure ⟨.add, rd, rm, rfl, ?_⟩
    rcases hrm with ⟨r, rfl⟩ | ⟨v, rfl, hlo, hhi⟩
    · exact .sum r
    · change -10 ≤ v.toInt at hlo
      change v.toInt ≤ 26 at hhi
      exact .shift (by omega)
  split
  · refine (draws_randomImmediate hs (by decide)).bind fun rm hrm =>
      draws_pure ⟨.mul, rd, rm, rfl, ?_⟩
    obtain ⟨v, rfl, hlo, hhi⟩ := hrm
    change -5 ≤ v.toInt at hlo
    change v.toInt ≤ 5 at hhi
    exact .multiple (by omega)
  split
  · refine (draws_randomDivisor hs).bind fun rm hrm => draws_pure ⟨.div, rd, rm, rfl, ?_⟩
    obtain ⟨v, hv, rfl⟩ := hrm
    exact .quotient hv
  split
  · refine (draws_randomDivisor hs).bind fun rm hrm => draws_pure ⟨.mod, rd, rm, rfl, ?_⟩
    obtain ⟨v, hv, rfl⟩ := hrm
    exact .remainder hv
  · exact (draws_randomOperand hs (Double.nearest_atMostOne (by decide) (by decide))
      (by decide)).bind fun rm _ => draws_pure ⟨.eql, rd, rm, rfl, .test rm⟩

/-- An input is read only if one is left, and always if as many are left as
    instructions, or at the first instruction. -/
theorem draws_readsNext (hs : s.FairOn I) (first : Bool) {slots inputs : Nat}
    (hslots : 0 < slots) (hle : inputs ≤ slots) :
    Draws I (readsNext s first slots inputs) fun b =>
      (b = true → 0 < inputs) ∧ (b = false → inputs < slots) ∧
        (first = true → 0 < inputs → b = true) := by
  unfold readsNext
  split
  · rename_i hinputs
    refine draws_pure ⟨fun h => ?_, fun _ => by omega, fun _ _ => by omega⟩
    cases h
  · split
    · refine draws_pure ⟨fun _ => by omega, fun h => ?_, fun _ _ => rfl⟩
      cases h
    · rename_i hfirst
      refine (hs.chance _ (Double.nearest_atMostOne hslots hle)).imp fun b hb => ?_
      refine ⟨fun _ => by omega, fun hfalse => ?_, fun h => absurd h hfirst⟩
      -- with as many inputs left as instructions, the probability is certainty
      refine Nat.lt_of_le_of_ne hle fun heq => ?_
      subst heq
      rw [hb (Double.isCertain_nearest_self hslots)] at hfalse
      cases hfalse

/-- The instructions that are left have all inputs that are left among them,
    and begin with one at the beginning of the program. -/
theorem draws_randomInstructions (hs : s.FairOn I) (first : Bool) {slots inputs : Nat}
    (hle : inputs ≤ slots) : Draws I (randomInstructions s first slots inputs) fun p =>
      p.length = slots ∧ p.inputCount = inputs ∧ (∀ i ∈ p, i.IsTame) ∧
        (first = true → 0 < inputs → ∃ rd q, p = .inp rd :: q) := by
  induction slots generalizing first inputs with
  | zero =>
    obtain rfl := Nat.le_zero.1 hle
    exact draws_pure ⟨rfl, rfl, fun i hi => absurd hi List.not_mem_nil,
      fun _ h => absurd h (Nat.lt_irrefl 0)⟩
  | succ slots ih =>
    refine (draws_readsNext hs first (Nat.succ_pos slots) hle).bind fun b hb => ?_
    obtain ⟨hpos, hlt, hfirst⟩ := hb
    cases b with
    | true =>
      have hinputs := hpos rfl
      refine (draws_randomRegister hs).bind fun rd _ => ?_
      refine (ih false (by omega)).bind fun q hq => draws_pure ?_
      obtain ⟨hlength, hcount, htame, -⟩ := hq
      refine ⟨by rw [List.length_cons, hlength], ?_, ?_, fun _ _ => ⟨rd, q, rfl⟩⟩
      · rw [Program.inputCount_cons, hcount]
        change 1 + (inputs - 1) = inputs
        omega
      · exact List.forall_mem_cons.2 ⟨trivial, htame⟩
    | false =>
      have hslots := hlt rfl
      refine (draws_randomOperation hs).bind fun i hi => ?_
      refine (ih false (by omega)).bind fun q hq => draws_pure ?_
      obtain ⟨op, rd, rm, rfl, hrm⟩ := hi
      obtain ⟨hlength, hcount, htame, -⟩ := hq
      refine ⟨by rw [List.length_cons, hlength], ?_, ?_, fun h hinputs => ?_⟩
      · rw [Program.inputCount_cons, hcount]
        exact Nat.zero_add inputs
      · exact List.forall_mem_cons.2 ⟨hrm, htame⟩
      · cases hfirst h hinputs

/-! ## Drawing with notes -/

theorem notedBy_element {α : Type} (s : Source σ) (xs : List α) (default : α) :
    NotedBy (element s xs default) (element s.noting xs default) :=
  (notedBy_index s xs.length).bind fun _ => notedBy_pure _

theorem notedBy_randomRegister (s : Source σ) :
    NotedBy (randomRegister s) (randomRegister s.noting) := notedBy_element s _ _

theorem notedBy_randomImmediate (s : Source σ) (lo hi : Word) :
    NotedBy (randomImmediate s lo hi) (randomImmediate s.noting lo hi) :=
  (notedBy_between s lo hi).bind fun _ => notedBy_pure _

theorem notedBy_randomOperand (s : Source σ) (p : Double) (lo hi : Word) :
    NotedBy (randomOperand s p lo hi) (randomOperand s.noting p lo hi) := by
  refine (notedBy_chance s p).bind fun b => ?_
  cases b with
  | true => exact (notedBy_randomRegister s).bind fun _ => notedBy_pure _
  | false => exact notedBy_randomImmediate s lo hi

theorem notedBy_randomDivisor (s : Source σ) :
    NotedBy (randomDivisor s) (randomDivisor s.noting) :=
  (notedBy_element s _ _).bind fun _ => notedBy_pure _

theorem notedBy_randomOperation (s : Source σ) :
    NotedBy (randomOperation s) (randomOperation s.noting) := by
  refine (notedBy_randomRegister s).bind fun rd => ?_
  refine (notedBy_index s 10).bind fun kind => ?_
  split
  · exact (notedBy_randomOperand s _ _ _).bind fun _ => notedBy_pure _
  split
  · exact (notedBy_randomImmediate s _ _).bind fun _ => notedBy_pure _
  split
  · exact (notedBy_randomDivisor s).bind fun _ => notedBy_pure _
  split
  · exact (notedBy_randomDivisor s).bind fun _ => notedBy_pure _
  · exact (notedBy_randomOperand s _ _ _).bind fun _ => notedBy_pure _

theorem notedBy_readsNext (s : Source σ) (first : Bool) (slots inputs : Nat) :
    NotedBy (readsNext s first slots inputs) (readsNext s.noting first slots inputs) := by
  unfold readsNext
  split
  · exact notedBy_pure false
  split
  · exact notedBy_pure true
  · exact notedBy_chance s _

theorem notedBy_randomInstructions (s : Source σ) (first : Bool) (slots inputs : Nat) :
    NotedBy (randomInstructions s first slots inputs)
      (randomInstructions s.noting first slots inputs) := by
  induction slots generalizing first inputs with
  | zero => exact notedBy_pure []
  | succ slots ih =>
    refine (notedBy_readsNext s first (slots + 1) inputs).bind fun b => ?_
    cases b with
    | true =>
      exact (notedBy_randomRegister s).bind fun rd =>
        (ih false (inputs - 1)).bind fun q => notedBy_pure _
    | false =>
      exact (notedBy_randomOperation s).bind fun i =>
        (ih false inputs).bind fun q => notedBy_pure _

/-! ## Safety -/

theorem ne_zero_of_isTame {op : Operator} {rm : Operand} (h : op.IsTame rm)
    (hop : op = .div ∨ op = .mod) : ∃ v : Word, rm = .immediate v ∧ v ≠ 0 := by
  cases h with
  | @quotient v hv | @remainder v hv =>
    exact ⟨v, rfl, Word.ne_zero_iff.2 (ne_zero_of_mem_divisors hv)⟩
  | _ => rcases hop with hop | hop <;> cases hop

/-- Every beginning of a program that reads an input first and is tame after
    that runs exactly. -/
theorem exactRun_beginning {ds : List Word} (hds : ∀ d ∈ ds, Digit.isDigit d = true)
    {rd : Register} {rest q : Program} (hrest : ∀ i ∈ rest, i.IsTame)
    (hlen : 1 + rest.inputCount ≤ ds.length)
    (hmax : 9 * 5 ^ rest.length < 0x8000000000000000) (hq : q <+: .inp rd :: rest) :
    ∃ t, q.exactRun ds = some t ∧ t.Within (9 * 5 ^ rest.length) := by
  have hzero : Machine.Within 9 Machine.zero.toInt := by
    intro r
    cases r <;> decide
  have hgrow {n : Nat} (hn : n ≤ rest.length) : 9 * 5 ^ n ≤ 9 * 5 ^ rest.length :=
    Nat.mul_le_mul_left 9 (Nat.pow_le_pow_right (by decide) hn)
  rcases List.prefix_cons_iff.1 hq with rfl | ⟨p, rfl, hbegin⟩
  · exact ⟨_, rfl, fun r => Nat.le_trans (hzero r) (hgrow (Nat.zero_le _))⟩
  · have hcount : Program.inputCount p ≤ rest.inputCount := hbegin.sublist.countP_le
    have hfirst : 0 < ds.length := by omega
    have hdigit := Digit.natAbs_le (hds _ (List.getElem_mem hfirst))
    have hread := hzero.set (Nat.le_refl 9) hdigit rd 1
    obtain ⟨t, ht, hwithin⟩ := exactRun_within hds (fun i hi => hrest i (hbegin.subset hi))
      (Nat.le_refl 9) (Nat.lt_of_le_of_lt (hgrow hbegin.length_le) hmax) hread
      (Nat.le_trans (Nat.add_le_add_left hcount 1) hlen)
    refine ⟨t, ?_, fun r => Nat.le_trans (hwithin r) (hgrow hbegin.length_le)⟩
    rw [Program.exactRun, List.foldlM_cons]
    simp only [Machine.exactStep, Machine.toInt, Machine.zero, List.getElem?_eq_getElem hfirst,
      Option.map_some, Option.bind_eq_bind, Option.bind_some]
    exact ht

/-- Whatever a fair source chooses, a random program has the length and the
    number of inputs of its shape and reads one first.  It is drawn from
    probabilities up to 1.  It divides by literals other than zero only, and
    on any digits nothing overflows: after every instruction, the values in
    the registers are at most 9, five times as large for each instruction but
    the first. -/
theorem randomProgram_safe (hs : s.Fair) (shape : ProgramShape) (g : σ) :
    let p := (randomProgram s shape g).1
    p.length = shape.length ∧ p.inputCount = shape.inputs ∧
      (∃ rd rest, p = .inp rd :: rest) ∧
      (∃ asked, randomProgram s.noting shape (g, []) = (p, (randomProgram s shape g).2, asked) ∧
        ∀ probability ∈ asked, probability.AtMostOne) ∧
      (∀ op rd rm, .apply op rd rm ∈ p → op = .div ∨ op = .mod →
        ∃ v : Word, rm = .immediate v ∧ v ≠ 0) ∧
      ∀ ds : List Word, ds.length = shape.inputs → (∀ d ∈ ds, Digit.isDigit d = true) →
        ∀ q : Program, q <+: p → ∃ t, q.run ds = .ok t ∧ q.exactRun ds = some t.toInt ∧
          ∀ r, (t.registers.get r).toInt.natAbs ≤ 9 * 5 ^ (shape.length - 1) := by
  obtain ⟨⟨hlength, hcount, htame, hfirst⟩, -⟩ :=
    draws_randomInstructions hs.fairOn true shape.inputs_le g trivial
  obtain ⟨asked, hasked⟩ :=
    notedBy_randomInstructions s true shape.length shape.inputs g []
  have hnotes := (draws_randomInstructions hs.noting true shape.inputs_le (g, [])
    fun _ h => absurd h List.not_mem_nil).2
  obtain ⟨rd, rest, hp⟩ := hfirst rfl shape.inputs_pos
  rw [hasked] at hnotes
  refine ⟨hlength, hcount, ⟨rd, rest, hp⟩, ⟨asked, hasked, hnotes⟩,
    fun op rd rm hmem hop => ne_zero_of_isTame (htame _ hmem) hop, ?_⟩
  intro ds hlen hds q hq
  rw [hp] at hlength hcount htame
  have hrest : rest.length = shape.length - 1 := by
    rw [← hlength]
    rfl
  -- the longest programs leave room: 9 * 5 ^ 23 is below 2 ^ 63
  have hmax : 9 * 5 ^ rest.length < 0x8000000000000000 := by
    have hle : rest.length ≤ 23 := by
      have hlengthLe : shape.length ≤ 24 := shape.length_le
      omega
    exact Nat.lt_of_le_of_lt
      (Nat.mul_le_mul_left 9 (Nat.pow_le_pow_right (by decide) hle)) (by decide)
  have hread : 1 + Program.inputCount rest ≤ ds.length := by
    have hcons := Program.inputCount_cons (.inp rd) rest
    rw [hcount] at hcons
    exact Nat.le_of_eq (hcons.symm.trans hlen.symm)
  obtain ⟨t, ht, hwithin⟩ := exactRun_beginning hds
    (fun i hi => htame i (List.mem_cons_of_mem _ hi)) hread hmax (hp ▸ hq)
  obtain ⟨m, hm, rfl⟩ := Program.run_of_exactRun ht
  refine ⟨m, hm, ht, fun r => ?_⟩
  rw [← Machine.get_toInt, ← hrest]
  exact hwithin r

theorem randomProgram_safe_standard :
    let p := (randomProgram chaCha .standard (.ofSeed 1)).1
    chaCha.Fair ∧ p.length = 16 ∧ p.inputCount = 3 ∧
      ∃ t, p.run [4, 8, 3] = .ok t ∧ p.exactRun [4, 8, 3] = some t.toInt ∧
        ∀ r, (t.registers.get r).toInt.natAbs ≤ 9 * 5 ^ 15 := by
  obtain ⟨hlength, hcount, -, -, -, hruns⟩ :=
    randomProgram_safe chaCha_fair .standard (.ofSeed 1)
  exact ⟨chaCha_fair, hlength, hcount, hruns [4, 8, 3] rfl (List.all_eq_true.1 (by decide)) _
    (List.prefix_refl _)⟩

end Generate

end InputSolver
