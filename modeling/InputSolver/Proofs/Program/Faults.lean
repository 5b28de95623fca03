/-
  InputSolver — loading and ranges without a fault.

  * `load_ranges`: a program that is loaded within bounds is loaded without a
    fault, and so are the ranges of its registers, with all that runs leave in
    them;
  * `remainderOfLowest_faults`: loading a program may fault although nothing
    overflows when it runs, since the lowest word has no opposite.
-/
import InputSolver.Program.Parse
import InputSolver.Proofs.Expr.Range
import InputSolver.Proofs.Program.Exact
import InputSolver.Proofs.Program.Load

namespace InputSolver

open InputSolver.Expr GraphM

/-! ## Programs within bounds -/

namespace Program

variable {p : Program}

/-- A program that is loaded within bounds is loaded without a fault, and
    every register has a range, of no more than the magnitude of its
    expression, with all that the program leaves in it on any digits. -/
theorem load_ranges (hp : p.LoadsBounded) : ∃ m g, p.load.run.run .empty = (.ok m, g) ∧
    ∀ r, ∃ range, (m.registers.get r).range = .ok range ∧
      (∀ q ∈ range.members, q.min.toInt.natAbs ≤ (m.registers.get r).magnitude ∧
        q.max.toInt.natAbs ≤ (m.registers.get r).magnitude) ∧
      ∀ (ds : List Word) (t : Machine Word), (∀ d ∈ ds, Digit.isDigit d = true) →
        p.run ds = .ok t → range.includes (t.registers.get r) = true := by
  obtain ⟨h, -, hloaded, hok⟩ := loaded p
  obtain ⟨m, hm⟩ := hok hp
  refine ⟨m, _, Prod.ext hm rfl, fun r => ?_⟩
  have hyields := (hloaded m hm).yields r
  obtain ⟨range, hrange, hbounds, hvalue⟩ := range_of_bounded (hyields.bounded hp)
  refine ⟨range, hrange, hbounds, fun ds t hds hrun => ?_⟩
  have hdigits := Assignment.digits_ofDigits hds
  exact Range.includes_iff.2 (hvalue _ _ hdigits
    (hyields.value hp _ _ hdigits ⟨ds, t, rfl, hrun, rfl⟩))

theorem load_ranges_leadingInput : leadingInput.LoadsBounded ∧
    ∃ m g range, leadingInput.load.run.run .empty = (.ok m, g) ∧
      (m.registers.get .w).range = .ok range ∧ range.includes 3 = true := by
  have hbounded := loadsBounded_of_fits (p := leadingInput) (by decide)
  obtain ⟨m, g, hload, hranges⟩ := load_ranges hbounded
  obtain ⟨range, hrange, -, hincludes⟩ := hranges .w
  exact ⟨hbounded, m, g, range, hload, hrange,
    hincludes [3, 7] ⟨⟨3, 7, 0, 0⟩, 2⟩ (List.all_eq_true.1 (by decide)) (by decide)⟩

end Program

/-! ## Remainders of the lowest word -/

namespace Program

/-- Both operands are known to be leaves, so that they are their own normal
    forms. -/
theorem normalize_leaves {l r : Expr} {id : Nat} {op : Operator} {g : Graph}
    (hl : GraphM.normalize l = pure l) (hr : GraphM.normalize r = pure r)
    (hnew : g.normal[id]? = none) : (GraphM.normalize (.binary id false op l r)).run.run g =
      (build (Normal.operation (some (.binary id false op l r)) op l r) >>= fun n => do
        record id n
        return n).run.run g := by
  have hnone : (normalForm? (.binary id false op l r)).run.run g = (.ok none, g) := by
    change (Except.ok g.normal[id]?, g) = _
    rw [hnew]
  rw [GraphM.normalize, hl, hr, run_bind, hnone]
  rfl

/-- The remainder of the lowest word by a digit. -/
def remainderOfLowest : Program :=
  [.inp .w, .apply .add .x (.immediate Int64.minValue), .apply .mod .x (.register .w)]

theorem load_lowest :
    (load [.inp .w, .apply .add .x (.immediate Int64.minValue)]).run.run .empty =
      (.ok ⟨⟨.input 4 0, .literal 7 Int64.minValue, .literal 2 0, .literal 3 0⟩, 1⟩,
        ⟨8, (∅ : Std.HashMap Nat Expr).insert 6 (.literal 7 Int64.minValue)⟩) := by
  change (load ([.inp .w] ++ [.apply .add .x (.immediate Int64.minValue)])).run.run .empty = _
  rw [load_concat, run_bind]
  change (Machine.load ⟨⟨.input 4 0, .literal 1 0, .literal 2 0, .literal 3 0⟩, 1⟩
    (.apply .add .x (.immediate Int64.minValue))).run.run ⟨5, ∅⟩ = _
  rw [Machine.load_apply, run_bind]
  change (GraphM.normalize (.binary 6 false .add (.literal 1 0) (.literal 5 Int64.minValue)) >>=
    _).run.run ⟨7, ∅⟩ = _
  rw [run_bind, normalize_leaves rfl rfl
    Std.HashMap.getElem?_empty]
  rfl

/-- Loading it faults when it looks for a single value of the remainder. -/
theorem load_remainderOfLowest : ∃ g, remainderOfLowest.load.run.run .empty =
    (.error .overflow, g) := by
  refine ⟨_, Prod.ext ?_ rfl⟩
  change ((load ([.inp .w, .apply .add .x (.immediate Int64.minValue)] ++
    [.apply .mod .x (.register .w)])).run.run .empty).1 = _
  rw [load_concat, run_bind, load_lowest]
  dsimp only
  rw [Machine.load_apply, run_bind]
  change ((GraphM.normalize (.binary 8 false .mod (.literal 7 Int64.minValue) (.input 4 0)) >>=
    _).run.run ⟨9, _⟩).1 = _
  rw [run_bind, normalize_leaves rfl rfl (by simp), run_bind, run_build, Normal.mod_lowest_input rfl]

/-- It is read, and on every digit it runs without an overflow. -/
theorem remainderOfLowest_faults :
    ofText "inp w\nadd x -9223372036854775808\nmod x w" = .ok remainderOfLowest ∧
      (∀ d ∈ Digit.ascending, (remainderOfLowest.exactRun [d]).isSome = true) ∧
      ∃ g, remainderOfLowest.load.run.run .empty = (.error .overflow, g) :=
  ⟨by decide +kernel, List.all_eq_true.1 (by decide +kernel), load_remainderOfLowest⟩

end Program

end InputSolver
