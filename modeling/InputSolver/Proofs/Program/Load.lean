/-
  InputSolver — loading agrees with running.

  Loading brings the expression of every operation into normal form.  Where
  all of these are bounded (`LoadsBounded`), no range saturates and no rewriting
  wraps around, even if it combines operations that the program keeps apart.

  * `loaded`: what loading leaves, by induction over the program;
  * `loadsBounded_of_fits`: magnitudes that are computed from the instructions
    alone tell that a program is loaded within bounds;
  * `load_agrees`: the registers evaluate to what a run leaves in them.
-/
import InputSolver.Program.Load
import InputSolver.Proofs.Normal.Graph
import InputSolver.Proofs.Program.Run

namespace InputSolver

open InputSolver.Expr GraphM InputSolver.Normal

/-! ## Operations -/

namespace Machine

/-- The expression of an operation, before it is brought into normal form. -/
def operation (m : Machine Expr) (op : Operator) (rd : Register) (rm : Operand) : GraphM Expr := do
  let right ← m.operandExpr rm
  build (Build.binary op (m.registers.get rd) right)

theorem load_apply (m : Machine Expr) (op : Operator) (rd : Register) (rm : Operand) :
    m.load (.apply op rd rm) = m.operation op rd rm >>= fun e => do
      let n ← normalize e
      return ⟨m.registers.set rd n, m.inputsRead⟩ := by
  simp only [load, operation, bind_assoc]

/-- The expression of an operand is that of a register, or a literal. -/
inductive IsOperand (m : Machine Expr) : Operand → Expr → Prop
  | register (r : Register) : IsOperand m (.register r) (m.registers.get r)
  | immediate (id : Nat) (value : Word) : IsOperand m (.immediate value) (.literal id value)

variable {m : Machine Expr} {h : Heap} {P : Prop}

theorem operandExpr_meets (hm : ∀ r, h.Holds (m.registers.get r)) (rm : Operand) :
    (m.operandExpr rm).Meets h P fun k e => k.Holds e ∧ m.IsOperand rm e := by
  cases rm with
  | register r => exact meets_pure ⟨hm r, .register r⟩
  | immediate value =>
    exact meets_build (Build.meets_literal fun k id _ hk => ⟨hk, .immediate id value⟩)

theorem operation_meets (hm : ∀ r, h.Holds (m.registers.get r)) (op : Operator) (rd : Register)
    (rm : Operand) : (m.operation op rd rm).Meets h P fun k e => k.Holds e ∧
      ∃ id right, m.IsOperand rm right ∧ e = .binary id false op (m.registers.get rd) right := by
  refine (operandExpr_meets hm rm).bind fun k right hle hright => ?_
  refine meets_build ((Build.meets_identity (Q := fun k' id =>
    k'.Holds (.binary id false op (m.registers.get rd) right))
    (k.holds_push_binary ((hm rd).mono hle) hright.1 false op)).bind fun _ id _ hk => ?_)
  exact Build.meets_pure ⟨hk, id, right, hright.2, rfl⟩

end Machine

namespace Program

variable {p q : Program} {i : Instruction}

/-! ## What is brought into normal form -/

/-- Loading a program brings this expression into normal form. -/
def Normalizes (p : Program) (e : Expr) : Prop :=
  ∃ (before : Program) (op : Operator) (rd : Register) (rm : Operand) (m : Machine Expr)
    (g g' : Graph), before ++ [.apply op rd rm] <+: p ∧
      before.load.run.run .empty = (.ok m, g) ∧ (m.operation op rd rm).run.run g = (.ok e, g')

/-- Every expression that loading a program brings into normal form is
    bounded. -/
def LoadsBounded (p : Program) : Prop := ∀ e, p.Normalizes e → e.Bounded

theorem LoadsBounded.of_prefix (hq : q.LoadsBounded) (hpq : p <+: q) : p.LoadsBounded := by
  rintro e ⟨before, op, rd, rm, m, g, g', hp, hload, he⟩
  exact hq e ⟨before, op, rd, rm, m, g, g', hp.trans hpq, hload, he⟩

theorem loadsBounded_of_concat (hp : (p ++ [i]).LoadsBounded) : p.LoadsBounded :=
  hp.of_prefix (List.prefix_append ..)

theorem load_concat (p : Program) (i : Instruction) :
    (p ++ [i]).load = p.load >>= fun m => m.load i := by
  simp only [load, List.foldlM_append, List.foldlM_cons, List.foldlM_nil, bind_pure, bind_assoc]

/-! ## Magnitudes -/

end Program

/-- A limit on the values of an operand. -/
def Operand.magnitude (limits : Registers Nat) : Operand → Nat
  | .register r => limits.get r
  | .immediate value => max 1 value.toInt.natAbs

/-- Limits on the values in the registers after an instruction. -/
def Instruction.magnitudes (limits : Registers Nat) : Instruction → Registers Nat
  | .inp rd => limits.set rd 9
  | .apply op rd rm => limits.set rd (op.magnitude (limits.get rd) (rm.magnitude limits))

/-- Within the limits an operation has operands and a result below `2^62`. -/
def Instruction.Fits (limits : Registers Nat) : Instruction → Prop
  | .inp _ => True
  | .apply op rd rm => rm.magnitude limits < Word.halfBound ∧
      op.magnitude (limits.get rd) (rm.magnitude limits) < Word.halfBound

instance (limits : Registers Nat) : (i : Instruction) → Decidable (i.Fits limits)
  | .inp _ => isTrue trivial
  | .apply _ _ _ => inferInstanceAs (Decidable (_ ∧ _))

namespace Program

variable {p : Program} {i : Instruction} {h k : Heap} {m : Machine Expr}

/-- Limits on the values in the registers after a program. -/
def magnitudes (p : Program) : Registers Nat := p.foldl Instruction.magnitudes ⟨1, 1, 1, 1⟩

/-- Every instruction fits within the limits that hold where it stands. -/
def Fits (p : Program) : Prop := ∀ n : Fin p.length, p[n].Fits (magnitudes (p.take n))

instance (p : Program) : Decidable p.Fits :=
  inferInstanceAs (Decidable (∀ n : Fin p.length, p[n].Fits (magnitudes (p.take n))))

theorem magnitudes_concat (p : Program) (i : Instruction) :
    (p ++ [i]).magnitudes = i.magnitudes p.magnitudes := by
  simp only [magnitudes, List.foldl_append, List.foldl_cons, List.foldl_nil]

theorem magnitudes_pos (p : Program) (r : Register) : 0 < p.magnitudes.get r := by
  induction p using List.reverseRecOn generalizing r with
  | nil => cases r <;> exact Nat.one_pos
  | append_singleton p i ih =>
    rw [magnitudes_concat]
    cases i with
    | inp rd =>
      rw [Instruction.magnitudes, Registers.get_set]
      split
      · exact Nat.succ_pos 8
      · exact ih r
    | apply op rd rm =>
      rw [Instruction.magnitudes, Registers.get_set]
      split
      · refine op.magnitude_pos (ih rd) ?_
        cases rm with
        | register r => exact ih r
        | immediate value => exact Nat.lt_of_lt_of_le Nat.one_pos (Nat.le_max_left ..)
      · exact ih r

/-! ## What loading leaves -/

/-- A run on some digits, taken as an assignment, leaves the value in the
    register. -/
def Leaves (p : Program) (r : Register) (a : Assignment) (v : Word) : Prop :=
  ∃ ds s, a = .ofDigits ds ∧ p.run ds = .ok s ∧ s.registers.get r = v

/-- After loading a program the registers hold expressions of the heap over
    the inputs that were read.  If the program is loaded within bounds, they
    are bounded by its magnitudes and have the values that runs leave. -/
structure Loaded (h : Heap) (p : Program) (m : Machine Expr) : Prop where
  inputsRead : m.inputsRead = p.inputCount
  yields : ∀ r, Yields h (· < p.inputCount) p.LoadsBounded (p.magnitudes.get r) (p.Leaves r)
    (m.registers.get r)

theorem Loaded.holds (hm : Loaded h p m) (r : Register) : h.Holds (m.registers.get r) :=
  (hm.yields r).holds

theorem Loaded.magnitude_le (hm : Loaded h p m) (hp : p.LoadsBounded) (r : Register) :
    (m.registers.get r).magnitude ≤ p.magnitudes.get r :=
  (hm.yields r).magnitude_le (p.magnitudes_pos r) hp

/-- The registers hold the literal 0 at first. -/
theorem zeroLiterals_meets {P : Prop} :
    Machine.zeroLiterals.Meets h P fun k m => Loaded k [] m := by
  have hzero {k : Heap} {id : Nat} (hk : k.Holds (.literal id 0)) (r : Register) :
      Yields k (· < inputCount []) (LoadsBounded []) 1 (Leaves [] r) (.literal id 0) := by
    refine (operand_literal hk fun _ => by decide).yields (fun _ => Nat.zero_le 1) ?_
    rintro - a v - ⟨ds, s, -, hrun, rfl⟩
    cases hrun
    cases r <;> rfl
  refine meets_build (Build.Meets.literal_bind fun k₁ w hle₁ hw => ?_)
  refine Build.Meets.literal_bind fun k₂ x hle₂ hx => ?_
  refine Build.Meets.literal_bind fun k₃ y hle₃ hy => ?_
  refine Build.Meets.literal_bind fun k₄ z hle₄ hz => ?_
  refine Build.meets_pure ⟨rfl, fun r => ?_⟩
  cases r with
  | w => exact hzero (((hw.mono hle₂).mono hle₃).mono hle₄) .w
  | x => exact hzero ((hx.mono hle₃).mono hle₄) .x
  | y => exact hzero (hy.mono hle₄) .y
  | z => exact hzero hz .z

/-- A register that an instruction does not write still has the values that
    runs leave in it. -/
theorem Loaded.keep (hm : Loaded h p m) (hle : h ≤ k) {r : Register} (hr : r ≠ i.destination) :
    Yields k (· < (p ++ [i]).inputCount) (p ++ [i]).LoadsBounded (p.magnitudes.get r)
      ((p ++ [i]).Leaves r) (m.registers.get r) := by
  have hcount : p.inputCount ≤ (p ++ [i]).inputCount :=
    inputCount_concat p i ▸ Nat.le_add_right ..
  refine (((hm.yields r).mono hle).weaken (fun j hj => Nat.lt_of_lt_of_le hj hcount)
    loadsBounded_of_concat).imp (fun _ => Nat.le_refl _) ?_
  rintro - a v - ⟨ds, t, rfl, hrun, rfl⟩
  obtain ⟨s, hs, hstep⟩ := run_concat_eq_ok.1 hrun
  exact ⟨ds, s, rfl, hs, (Machine.get_of_step hstep hr).symm⟩

/-- An input has the values that are read into its register. -/
theorem Loaded.inp (hm : Loaded h p m) (hle : h ≤ k) {rd : Register} {id : Nat}
    (hid : k.Holds (.input id m.inputsRead)) :
    Loaded k (p ++ [.inp rd]) ⟨m.registers.set rd (.input id m.inputsRead), m.inputsRead + 1⟩ where
  inputsRead := by
    rw [inputCount_concat, hm.inputsRead]
    rfl
  yields := by
    rw [magnitudes_concat]
    refine Registers.related_set (R := fun r e K => Yields k _ _ K (Leaves _ r) e) ?_
      fun r hr => hm.keep hle hr
    refine (Operand.mk hid (over_input.2 ?_) fun _ => bounded_input id _).yields
      (fun _ => Nat.le_refl 9) ?_
    · rw [inputCount_concat, hm.inputsRead]
      exact Nat.lt_succ_self _
    · rintro - a v - ⟨ds, t, rfl, hrun, rfl⟩
      obtain ⟨s, hs, hstep⟩ := run_concat_eq_ok.1 hrun
      obtain ⟨d, hd, rfl⟩ := Machine.step_inp.1 hstep
      rw [valueOn_input, Assignment.get?_ofDigits, hm.inputsRead, ← inputsRead_of_run hs, hd,
        Registers.get_set, if_pos rfl]

/-- The expression of an operation has the values that are put into its
    register. -/
theorem Loaded.value_operation (hm : Loaded h p m) (hp : p.LoadsBounded) {op : Operator}
    {rd : Register} {rm : Operand} {right : Expr} (hright : m.IsOperand rm right) {id : Nat}
    {a : Assignment} (ha : a.Digits) {v : Word}
    (hv : (p ++ [Instruction.apply op rd rm]).Leaves rd a v) :
    valueOn a (.binary id false op (m.registers.get rd) right) = .ok v := by
  obtain ⟨ds, t, rfl, hrun, rfl⟩ := hv
  obtain ⟨s, hs, hstep⟩ := run_concat_eq_ok.1 hrun
  obtain ⟨v, hv, rfl⟩ := Machine.step_apply.1 hstep
  have hvalue (r : Register) :
      valueOn (.ofDigits ds) (m.registers.get r) = .ok (s.registers.get r) :=
    (hm.yields r).value hp _ _ ha ⟨ds, s, rfl, hs, rfl⟩
  rw [Registers.get_set, if_pos rfl]
  refine valueOn_binary.2 ⟨_, _, hvalue rd, ?_, hv⟩
  cases hright with
  | register r => exact hvalue r
  | immediate id value => rfl

/-- The expression of an operation is no larger than the magnitudes allow. -/
theorem Loaded.magnitude_operation (hm : Loaded h p m) (hp : p.LoadsBounded) {op : Operator}
    {rd : Register} {rm : Operand} {right : Expr} (hright : m.IsOperand rm right) :
    op.magnitude (m.registers.get rd).magnitude right.magnitude ≤
      op.magnitude (p.magnitudes.get rd) (rm.magnitude p.magnitudes) := by
  refine op.magnitude_mono (hm.magnitude_le hp rd) ?_
  cases hright with
  | register r => exact hm.magnitude_le hp r
  | immediate id value => exact Nat.le_refl _

/-- A normal form has the values that are put into its register. -/
theorem Loaded.apply (hm : Loaded h p m) (hle : h ≤ k) {op : Operator} {rd : Register}
    {rm : Operand} {id : Nat} {right n : Expr} (hright : m.IsOperand rm right)
    (hb : (p ++ [Instruction.apply op rd rm]).LoadsBounded →
      (binary id false op (m.registers.get rd) right).Bounded)
    (hn : NormalFor k (.binary id false op (m.registers.get rd) right) n) :
    Loaded k (p ++ [.apply op rd rm]) ⟨m.registers.set rd n, m.inputsRead⟩ where
  inputsRead := by
    rw [inputCount_concat, hm.inputsRead]
    rfl
  yields := by
    rw [magnitudes_concat]
    refine Registers.related_set (R := fun r e K => Yields k _ _ K (Leaves _ r) e) ?_
      fun r hr => hm.keep hle hr
    refine (hn.weaken (fun j hj => ?_) hb).imp (fun hp => ?_) fun hp a v ha hv => ?_
    · -- an input of the operation is one of its operands
      rw [inputCount_concat]
      refine Nat.lt_of_lt_of_le ?_ (Nat.le_add_right ..)
      rcases mentions_binary.1 hj with hleft | hop
      · exact (hm.yields rd).inputs.of_mentions hleft
      · cases hright with
        | register r => exact (hm.yields r).inputs.of_mentions hop
        | immediate id value => exact (not_mentions_literal hop).elim
    · exact hm.magnitude_operation (loadsBounded_of_concat hp) hright
    · exact hm.value_operation (loadsBounded_of_concat hp) hright ha hv

/-- Loading one more instruction, in the graph that loading the others left. -/
theorem load_step {g : Graph} (hload : p.load.run.run .empty = (.ok m, g)) (hg : g.Sound h)
    (hm : Loaded h p m) (i : Instruction) :
    ∃ k, ((m.load i).run.run g).2.Sound k ∧
      (∀ m', ((m.load i).run.run g).1 = .ok m' → Loaded k (p ++ [i]) m') ∧
      ((p ++ [i]).LoadsBounded → ∃ m', ((m.load i).run.run g).1 = .ok m') := by
  cases i with
  | inp rd =>
    have hinput : (m.load (.inp rd)).Meets h (p ++ [Instruction.inp rd]).LoadsBounded
        fun k m' => Loaded k (p ++ [.inp rd]) m' := by
      refine (meets_build ((Build.meets_identity (Q := fun k id => h ≤ k ∧
        k.Holds (.input id m.inputsRead)) ⟨h.le_push _, h.holds_push_input m.inputsRead⟩).bind
        (R := fun k e => ∃ id, h ≤ k ∧ k.Holds (.input id m.inputsRead) ∧
          e = .input id m.inputsRead)
        fun k id _ hk => Build.meets_pure ⟨id, hk.1, hk.2, rfl⟩)).bind ?_
      rintro k _ - ⟨id, hle, hk, rfl⟩
      exact meets_pure (hm.inp hle hk)
    obtain ⟨k, -, hk⟩ := hinput g hg
    exact ⟨k, hk⟩
  | apply op rd rm =>
    obtain ⟨k, hle, hk, hop, hok⟩ :=
      Machine.operation_meets (P := True) (fun r => hm.holds r) op rd rm g hg
    obtain ⟨e, he⟩ := hok trivial
    obtain ⟨hholds, id, right, hright, rfl⟩ := hop e he
    have hb (hp : (p ++ [Instruction.apply op rd rm]).LoadsBounded) := hp _
      ⟨p, op, rd, rm, m, g, _, List.prefix_refl _, hload, Prod.ext he rfl⟩
    have hnormal := ((normalize_meets hholds).imp hb fun _ _ _ hn => hn).bind
      fun k' n hle' hn => meets_pure (P := (p ++ [Instruction.apply op rd rm]).LoadsBounded)
        (Q := fun k m' => Loaded k (p ++ [.apply op rd rm]) m')
        (hm.apply (Heap.le_trans hle hle') hright hb hn)
    obtain ⟨k', -, hk'⟩ := hnormal _ hk
    refine ⟨k', ?_⟩
    rw [Machine.load_apply, run_bind, he]
    exact hk'

/-- What loading a program leaves, and that it does not fault if the program
    is loaded within bounds. -/
theorem loaded (p : Program) : ∃ h, (p.load.run.run .empty).2.Sound h ∧
    (∀ m, (p.load.run.run .empty).1 = .ok m → Loaded h p m) ∧
    (p.LoadsBounded → ∃ m, (p.load.run.run .empty).1 = .ok m) := by
  induction p using List.reverseRecOn with
  | nil =>
    obtain ⟨k, -, hk⟩ := zeroLiterals_meets (P := LoadsBounded []) _ Graph.sound_empty
    exact ⟨k, hk⟩
  | append_singleton p i ih =>
    obtain ⟨h, hg, hm, hok⟩ := ih
    rw [load_concat, run_bind]
    cases hres : (load p).run.run Graph.empty with
    | mk res g =>
      rw [hres] at hg hm hok
      cases res with
      | error fault =>
        refine ⟨h, hg, fun m hm => ?_, fun hp => ?_⟩
        · cases hm
        · obtain ⟨m, hm⟩ := hok (loadsBounded_of_concat hp)
          cases hm
      | ok m => exact load_step hres hg (hm m rfl) i

/-! ## Loading within bounds -/

theorem fits_concat (hp : (p ++ [i]).Fits) : p.Fits ∧ i.Fits p.magnitudes := by
  constructor
  · intro n
    have hn := hp ⟨n, Nat.lt_of_lt_of_le n.2 (List.length_append ▸ Nat.le_add_right ..)⟩
    simpa [List.getElem_append_left, List.take_append_of_le_length (Nat.le_of_lt n.2)] using hn
  · have hlt : p.length < (p ++ [i]).length := by
      rw [List.length_append]
      exact Nat.lt_succ_self _
    simpa using hp ⟨p.length, hlt⟩

/-- The expression of an operation that fits is bounded. -/
theorem Loaded.bounded_operation (hm : Loaded h p m) (hp : p.LoadsBounded) {op : Operator}
    {rd : Register} {rm : Operand} {right : Expr} (hright : m.IsOperand rm right) {id : Nat}
    (hi : (Instruction.apply op rd rm).Fits p.magnitudes) :
    (binary id false op (m.registers.get rd) right).Bounded := by
  obtain ⟨hrm, hop⟩ := hi
  refine bounded_binary.2 ⟨?_, (hm.yields rd).bounded hp, ?_⟩
  · exact Nat.lt_of_le_of_lt (hm.magnitude_operation hp hright) hop
  · cases hright with
    | register r => exact (hm.yields r).bounded hp
    | immediate id value =>
      exact bounded_literal.2 (Nat.lt_of_le_of_lt (Nat.le_max_right ..) hrm)

/-- The magnitudes of the instructions tell that a program is loaded within
    bounds: bringing into normal form only makes them smaller. -/
theorem loadsBounded_of_fits (hp : p.Fits) : p.LoadsBounded := by
  induction p using List.reverseRecOn with
  | nil =>
    rintro e ⟨before, op, rd, rm, m, g, g', hbefore, -⟩
    cases List.append_ne_nil_of_right_ne_nil _ (List.cons_ne_nil _ _) (List.prefix_nil.1 hbefore)
  | append_singleton p i ih =>
    obtain ⟨hp, hi⟩ := fits_concat hp
    have hbounded := ih hp
    rintro e ⟨before, op, rd, rm, m, g, g', hbefore, hload, he⟩
    rcases List.prefix_concat_iff.1 hbefore with heq | hbefore
    · obtain ⟨rfl, hlast⟩ := List.append_inj' heq rfl
      cases hlast
      obtain ⟨h, hg, hm, -⟩ := loaded before
      rw [hload] at hg hm
      obtain ⟨k, -, -, hop, -⟩ :=
        Machine.operation_meets (P := True) (fun r => (hm m rfl).holds r) op rd rm g hg
      rw [he] at hop
      obtain ⟨-, id, right, hright, rfl⟩ := hop e rfl
      exact (hm m rfl).bounded_operation hbounded hright hi
    · exact hbounded e ⟨before, op, rd, rm, m, g, g', hbefore, hload, he⟩

/-! ## Loading and running -/

/-- A program that is loaded within bounds is loaded without a fault, and on
    all digits on which it runs, every register evaluates to what the run
    leaves in it. -/
theorem load_agrees (hp : p.LoadsBounded) : ∃ m g, p.load.run.run .empty = (.ok m, g) ∧
    ∀ (ds : List Word) (s : Machine Word), (∀ d ∈ ds, Digit.isDigit d = true) →
      p.run ds = .ok s → ∀ r,
        (m.registers.get r).evaluate (.ofDigits ds) = .ok (s.registers.get r) := by
  obtain ⟨h, -, hloaded, hok⟩ := loaded p
  obtain ⟨m, hm⟩ := hok hp
  refine ⟨m, _, Prod.ext hm rfl, fun ds s hds hrun r => ?_⟩
  have hyields := (hloaded m hm).yields r
  rw [evaluate_eq_valueOn hyields.holds]
  exact hyields.value hp _ _ (Assignment.digits_ofDigits hds) ⟨ds, s, rfl, hrun, rfl⟩

/-- `(i0 * 26 + i1) / 26` in the register `w`. -/
def leadingInput : Program :=
  [.inp .w, .apply .mul .w (.immediate 26), .inp .x, .apply .add .w (.register .x),
    .apply .div .w (.immediate 26)]

theorem load_agrees_leadingInput : ∃ m g, leadingInput.load.run.run .empty = (.ok m, g) ∧
    (m.registers.get .w).evaluate (.ofDigits [3, 7]) = .ok 3 := by
  obtain ⟨m, g, hload, hagrees⟩ :=
    load_agrees (loadsBounded_of_fits (p := leadingInput) (by decide))
  exact ⟨m, g, hload,
    hagrees [3, 7] ⟨⟨3, 7, 0, 0⟩, 2⟩ (List.all_eq_true.1 (by decide)) (by decide) .w⟩

end Program

end InputSolver
