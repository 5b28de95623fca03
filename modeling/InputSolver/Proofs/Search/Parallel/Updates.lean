/-
  InputSolver — several successes at once.

  A call of `tryUpdate` lowers the best rank and learns what it was before,
  compares, and sets the flags of the worse ranks one by one.  Between any two
  of these steps other calls may make theirs.

  * `Updates.Step` are the steps of the calls; one that is left alone does what
    `tryUpdate` does (`Updates.steps_tryUpdate`);
  * `Updates.Kept` is kept by each step.  A flag above the best rank may be
    missing for a while, but then some call still has it before it
    (`Stage.Owes`);
  * `Updates.consistent` says what holds after any number of steps.
-/
import Mathlib.Data.List.Nodup
import Mathlib.Logic.Relation
import InputSolver.Proofs.Search.Parallel.Answers
import InputSolver.Search.Statistics

namespace InputSolver.Parallel

/-! ## The least rank -/

/-- The least of some ranks; of no ranks, the one that stands for none. -/
def leastRank (ranks : List Nat) : Nat := ranks.foldl Nat.min noRank

theorem leastRank_concat (ranks : List Nat) (rank : Nat) :
    leastRank (ranks ++ [rank]) = Nat.min (leastRank ranks) rank :=
  List.foldl_concat ..

theorem lt_leastRank {rank : Nat} {ranks : List Nat} :
    rank < leastRank ranks ↔ rank < noRank ∧ ∀ other ∈ ranks, rank < other := by
  induction ranks using List.reverseRecOn with
  | nil => simp [leastRank]
  | append_singleton ranks last ih =>
    rw [leastRank_concat, show Nat.min _ _ = min _ _ from rfl, lt_min_iff, ih, and_assoc]
    simp only [List.mem_append, List.mem_singleton, or_imp, forall_and, forall_eq]

theorem leastRank_le_noRank (ranks : List Nat) : leastRank ranks ≤ noRank :=
  le_of_not_gt fun hlt => lt_irrefl _ (lt_leastRank.1 hlt).1

theorem leastRank_le {ranks : List Nat} {rank : Nat} (hrank : rank ∈ ranks) :
    leastRank ranks ≤ rank :=
  le_of_not_gt fun hlt => lt_irrefl _ ((lt_leastRank.1 hlt).2 rank hrank)

/-! ## Worse ranks -/

namespace SharedBest

/-- The worse ranks are what is left of all ranks past the first of them. -/
theorem worseRanks_eq_drop (s : SharedBest) (rank : Nat) :
    s.worseRanks rank = (List.range s.cancelled.length).drop (rank + 1) := by
  unfold worseRanks
  induction s.cancelled.length with
  | zero => rfl
  | succ n ih =>
    rw [List.range_succ, List.filter_append, ih, List.drop_append, List.length_range]
    congr 1
    by_cases hlt : rank < n
    · rw [Nat.sub_eq_zero_of_le hlt]
      simp [hlt]
    · obtain ⟨k, hk⟩ := Nat.exists_eq_add_of_le (Nat.le_of_not_lt hlt)
      rw [show rank + 1 - n = k + 1 by omega]
      simp [hlt]

theorem mem_worseRanks {s : SharedBest} {rank r : Nat} :
    r ∈ s.worseRanks rank ↔ r < s.cancelled.length ∧ rank < r := by
  rw [worseRanks, List.mem_filter, List.mem_range, decide_eq_true_iff]

end SharedBest

/-! ## Calls and their steps -/

/-- Where a call stands. -/
inductive Stage where
  /-- it has not begun -/
  | waiting
  /-- it has lowered the best rank, which was `previous` before -/
  | lowered (previous : Nat)
  /-- it is to set the flags of some ranks -/
  | cancelling (ranks : List Nat)
  /-- it has said whether its rank is the best so far -/
  | returned (better : Bool)
  /-- it broke off -/
  | faulted (fault : Fault)

/-- Where a call goes once it knows the best rank before its own.  If its own is
    better, the flags from the next rank on are to be set. -/
def Stage.compare (s : SharedBest) (rank previous : Nat) : Stage :=
  if previous ≤ rank then returned false
  else match Statistics.addCounter rank 1 with
    | .ok next => cancelling ((List.range s.cancelled.length).drop next)
    | .error fault => faulted fault

/-- What the calls share, and where each of them stands.  The calls that have
    lowered the best rank are kept for the record, in order. -/
structure Updates (Call : Type) where
  shared : SharedBest
  stage : Call → Stage
  order : List Call

namespace Updates

variable {Call : Type}

/-- No call has begun. -/
def start (jobs : Nat) : Updates Call := ⟨.new jobs, fun _ => .waiting, []⟩

variable [DecidableEq Call] {rank : Call → Nat}

/-- A call makes a step. -/
inductive Step (rank : Call → Nat) : Updates Call → Updates Call → Prop where
  | lower {u : Updates Call} {c : Call} : u.stage c = .waiting →
      Step rank u ⟨u.shared.lowerTo (rank c), Function.update u.stage c (.lowered u.shared.best),
        u.order ++ [c]⟩
  | compare {u : Updates Call} {c : Call} {previous : Nat} : u.stage c = .lowered previous →
      Step rank u { u with
        stage := Function.update u.stage c (.compare u.shared (rank c) previous) }
  | cancel {u : Updates Call} {c : Call} {r : Nat} {ranks : List Nat} :
      u.stage c = .cancelling (r :: ranks) →
      Step rank u { u with
        shared := u.shared.setFlag r, stage := Function.update u.stage c (.cancelling ranks) }
  | answer {u : Updates Call} {c : Call} : u.stage c = .cancelling [] →
      Step rank u { u with stage := Function.update u.stage c (.returned true) }

/-- Any number of steps, in any order. -/
abbrev Steps (rank : Call → Nat) : Updates Call → Updates Call → Prop :=
  Relation.ReflTransGen (Step rank)

end Updates

/-! ## A call that is left alone -/

/-- A rank that is better than another is not the last of 64 bits. -/
theorem Stage.compare_of_lt {s : SharedBest} {rank previous : Nat} (hlt : rank < previous)
    (hprevious : previous ≤ noRank) :
    compare s rank previous = cancelling (s.worseRanks rank) := by
  have hnext : Statistics.addCounter rank 1 = .ok (rank + 1) :=
    if_pos (show rank + 1 < Word.countBound by
      unfold noRank at hprevious
      unfold Word.countBound
      omega)
  rw [compare, if_neg (Nat.not_le_of_lt hlt), hnext, SharedBest.worseRanks_eq_drop]

namespace Updates

variable {Call : Type} [DecidableEq Call] {rank : Call → Nat}

theorem steps_cancelling {shared : SharedBest} {stage : Call → Stage} {order : List Call} {c : Call}
    {ranks : List Nat} (hstage : stage c = .cancelling ranks) :
    Steps rank ⟨shared, stage, order⟩
      ⟨ranks.foldl SharedBest.setFlag shared, Function.update stage c (.returned true), order⟩ := by
  induction ranks generalizing shared stage with
  | nil => exact .single (.answer hstage)
  | cons r ranks ih =>
    have hrest : Steps rank ⟨shared.setFlag r, Function.update stage c (.cancelling ranks), order⟩
        _ := ih (Function.update_self ..)
    rw [Function.update_idem] at hrest
    exact .head (.cancel hstage) hrest

/-- A call that is left alone does what `tryUpdate` does. -/
theorem steps_tryUpdate {u : Updates Call} {c : Call} (hstage : u.stage c = .waiting)
    (hbest : u.shared.best ≤ noRank) :
    Steps rank u ⟨(u.shared.tryUpdate (rank c)).2,
      Function.update u.stage c (.returned (u.shared.tryUpdate (rank c)).1), u.order ++ [c]⟩ := by
  have hlowered : Steps rank u _ := .single (.lower hstage)
  have hcompared := hlowered.tail (.compare (Function.update_self ..))
  rw [Function.update_idem] at hcompared
  unfold SharedBest.tryUpdate
  by_cases hlt : rank c < u.shared.best
  · rw [Stage.compare_of_lt hlt hbest] at hcompared
    have hcancelled := hcompared.trans (steps_cancelling (Function.update_self ..))
    rw [Function.update_idem] at hcancelled
    rw [if_pos hlt]
    exact hcancelled
  · rw [Stage.compare, if_pos (Nat.le_of_not_lt hlt)] at hcompared
    rw [if_neg hlt]
    exact hcompared

end Updates

/-! ## What each step keeps -/

section Kept

variable {Call : Type} (rank : Call → Nat)

/-- The best rank was `previous` when the call lowered it. -/
def LoweredFrom (order : List Call) (c : Call) (previous : Nat) : Prop :=
  ∃ before after, order = before ++ c :: after ∧ previous = leastRank (before.map rank)

/-- What a call knows of those that came before it. -/
def Stage.Sound (order : List Call) (c : Call) : Stage → Prop
  | waiting => c ∉ order
  | lowered previous => LoweredFrom rank order c previous
  | cancelling ranks => (∃ previous, LoweredFrom rank order c previous ∧ rank c < previous) ∧
    ∀ r ∈ ranks, rank c < r
  | returned better =>
    ∃ previous, LoweredFrom rank order c previous ∧ (better = true ↔ rank c < previous)
  | faulted _ => False

/-- A call of some rank is still to set the flag `r`. -/
def Stage.Owes (rank r : Nat) : Stage → Prop
  | lowered previous => rank < previous ∧ rank < r
  | cancelling ranks => r ∈ ranks
  | waiting | returned _ | faulted _ => False

/-- The best rank is the least on record, flags are set above it only, and those
    that are missing are owed. -/
structure Updates.Kept (jobs : Nat) (u : Updates Call) : Prop where
  size : u.shared.cancelled.length = jobs
  best : u.shared.best = leastRank (u.order.map rank)
  nodup : u.order.Nodup
  stages : ∀ c, (u.stage c).Sound rank u.order c
  flagged : ∀ r, u.shared.flag? r = some true → u.shared.best < r
  owed : ∀ r < jobs, u.shared.best < r →
    u.shared.flag? r = some true ∨ ∃ c, (u.stage c).Owes (rank c) r

end Kept

variable {Call : Type} {rank : Call → Nat} {order : List Call} {c d : Call} {jobs : Nat}

theorem LoweredFrom.concat {previous : Nat} (h : LoweredFrom rank order c previous) :
    LoweredFrom rank (order ++ [d]) c previous := by
  obtain ⟨before, after, rfl, hprevious⟩ := h
  exact ⟨before, after ++ [d], by rw [List.append_assoc, List.cons_append], hprevious⟩

theorem LoweredFrom.mem {previous : Nat} (h : LoweredFrom rank order c previous) : c ∈ order := by
  obtain ⟨before, after, rfl, -⟩ := h
  exact List.mem_append_right _ List.mem_cons_self

theorem LoweredFrom.le_noRank {previous : Nat} (h : LoweredFrom rank order c previous) :
    previous ≤ noRank := by
  obtain ⟨before, -, -, rfl⟩ := h
  exact leastRank_le_noRank _

namespace Stage

/-- Other calls may lower the best rank later. -/
theorem Sound.concat {stage : Stage} (h : stage.Sound rank order c) (hne : c ≠ d) :
    stage.Sound rank (order ++ [d]) c := by
  cases stage with
  | waiting =>
    exact fun hc => (List.mem_append.1 hc).elim h fun hd => hne (List.mem_singleton.1 hd)
  | lowered previous => exact LoweredFrom.concat h
  | cancelling ranks =>
    obtain ⟨⟨previous, hprevious, hlt⟩, hranks⟩ := h
    exact ⟨⟨previous, hprevious.concat, hlt⟩, hranks⟩
  | returned better =>
    obtain ⟨previous, hprevious, hbetter⟩ := h
    exact ⟨previous, hprevious.concat, hbetter⟩
  | faulted => exact h

/-- The calls on record are those that have begun. -/
theorem Sound.mem_iff {stage : Stage} (h : stage.Sound rank order c) :
    c ∈ order ↔ stage ≠ .waiting := by
  cases stage with
  | waiting => exact iff_of_false h (fun hne => hne rfl)
  | lowered previous => exact iff_of_true (LoweredFrom.mem h) nofun
  | cancelling ranks =>
    obtain ⟨⟨previous, hprevious, -⟩, -⟩ := h
    exact iff_of_true hprevious.mem nofun
  | returned better =>
    obtain ⟨previous, hprevious, -⟩ := h
    exact iff_of_true hprevious.mem nofun
  | faulted => exact h.elim

/-- A call that compares does not break off. -/
theorem Sound.compare {previous : Nat} (h : LoweredFrom rank order c previous) (s : SharedBest) :
    (Stage.compare s (rank c) previous).Sound rank order c := by
  by_cases hlt : rank c < previous
  · rw [Stage.compare_of_lt hlt h.le_noRank]
    exact ⟨⟨previous, h, hlt⟩, fun r hr => SharedBest.lt_of_mem_worseRanks hr⟩
  · rw [Stage.compare, if_pos (Nat.le_of_not_lt hlt)]
    exact ⟨previous, h, iff_of_false nofun hlt⟩

theorem Owes.compare {s : SharedBest} {rank previous r : Nat} (hprevious : previous ≤ noRank)
    (h : (lowered previous).Owes rank r) (hr : r < s.cancelled.length) :
    (Stage.compare s rank previous).Owes rank r := by
  rw [Stage.compare_of_lt h.1 hprevious]
  exact SharedBest.mem_worseRanks.2 ⟨hr, h.2⟩

end Stage

namespace Updates

variable {u v : Updates Call}

theorem Kept.sound {stage : Stage} (h : u.Kept rank jobs) (hc : u.stage c = stage) :
    stage.Sound rank u.order c :=
  hc ▸ h.stages c

theorem Kept.start (rank : Call → Nat) (hjobs : jobs ≤ noRank) :
    (start jobs : Updates Call).Kept rank jobs where
  size := List.length_replicate
  best := rfl
  nodup := List.nodup_nil
  stages _ := List.not_mem_nil
  flagged _ hr := absurd hr SharedBest.flag?_new
  owed _ hr hlt := absurd (hr.trans_le hjobs) (Nat.lt_asymm hlt)

variable [DecidableEq Call] {stage : Call → Stage} {s : Stage}

theorem sound_update (hs : s.Sound rank order c)
    (hothers : ∀ d ≠ c, (stage d).Sound rank order d) (d : Call) :
    (Function.update stage c s d).Sound rank order d :=
  (Function.forall_update_iff stage fun d s => Stage.Sound rank order d s).2 ⟨hs, hothers⟩ d

/-- What is owed is still owed after a step of one of the calls, if that call
    did not pay it. -/
theorem owed_update {r : Nat} (howed : ∃ d, (stage d).Owes (rank d) r)
    (hstep : (stage c).Owes (rank c) r → s.Owes (rank c) r) :
    ∃ d, (Function.update stage c s d).Owes (rank d) r := by
  obtain ⟨d, hd⟩ := howed
  by_cases hdc : d = c
  · subst hdc
    exact ⟨d, by rw [Function.update_self]; exact hstep hd⟩
  · exact ⟨d, by rw [Function.update_of_ne hdc]; exact hd⟩

/-- The call is put on record.  If it is the best, it owes all flags above. -/
theorem Kept.lower (h : u.Kept rank jobs) (hc : u.stage c = .waiting) :
    Kept rank jobs ⟨u.shared.lowerTo (rank c),
      Function.update u.stage c (.lowered u.shared.best), u.order ++ [c]⟩ where
  size := h.size
  best := by
    rw [List.map_append, List.map_singleton, leastRank_concat, ← h.best]
    rfl
  nodup := List.concat_eq_append ▸ h.nodup.concat (h.sound hc)
  stages := sound_update ⟨u.order, [], rfl, h.best⟩ fun d hd => (h.stages d).concat hd
  flagged r hr := (min_le_left _ _).trans_lt (h.flagged r hr)
  owed r hr hlt := by
    obtain hbest | hrank := Nat.lt_or_ge (rank c) u.shared.best
    · have howes : (Stage.lowered u.shared.best).Owes (rank c) r :=
        ⟨hbest, (min_eq_right hbest.le).symm.trans_lt hlt⟩
      exact .inr ⟨c, by simpa only [Function.update_self] using howes⟩
    · have hold := h.owed r hr ((min_eq_left hrank).symm.trans_lt hlt)
      refine hold.imp_right fun howed => owed_update howed fun hcall => ?_
      rw [hc] at hcall
      exact hcall.elim

theorem Kept.compare {previous : Nat} (h : u.Kept rank jobs) (hc : u.stage c = .lowered previous) :
    Kept rank jobs { u with
      stage := Function.update u.stage c (.compare u.shared (rank c) previous) } where
  size := h.size
  best := h.best
  nodup := h.nodup
  stages := sound_update (.compare (h.sound hc) _) fun d _ => h.stages d
  flagged := h.flagged
  owed r hr hlt := by
    refine (h.owed r hr hlt).imp_right fun howed => owed_update howed fun hcall => ?_
    rw [hc] at hcall
    exact hcall.compare (LoweredFrom.le_noRank (h.sound hc)) (h.size ▸ hr)

/-- A flag that is set is above the rank of the call, and so above the best. -/
theorem Kept.cancel {r : Nat} {ranks : List Nat} (h : u.Kept rank jobs)
    (hc : u.stage c = .cancelling (r :: ranks)) :
    Kept rank jobs { u with
      shared := u.shared.setFlag r, stage := Function.update u.stage c (.cancelling ranks) } := by
  obtain ⟨⟨previous, hlowered, hlt⟩, hranks⟩ := h.sound hc
  have hbest : u.shared.best ≤ rank c := h.best ▸ leastRank_le (List.mem_map_of_mem hlowered.mem)
  exact {
    size := List.length_set.trans h.size
    best := h.best
    nodup := h.nodup
    stages := sound_update
      ⟨⟨previous, hlowered, hlt⟩, fun r' hr' => hranks r' (List.mem_cons_of_mem _ hr')⟩
      fun d _ => h.stages d
    flagged := fun r' hr' => by
      obtain hr' | rfl := SharedBest.flag?_setFlag hr'
      · exact h.flagged r' hr'
      · exact hbest.trans_lt (hranks r' List.mem_cons_self)
    owed := fun r' hr' hlt' => by
      rw [SharedBest.flag?, SharedBest.setFlag, List.getElem?_set]
      by_cases heq : r = r'
      · exact .inl (by rw [if_pos heq, if_pos (heq ▸ h.size ▸ hr')])
      · rw [if_neg heq]
        refine (h.owed r' hr' hlt').imp_right fun howed => owed_update howed fun hcall => ?_
        rw [hc] at hcall
        exact (List.mem_cons.1 hcall).resolve_left fun heq' => heq heq'.symm }

theorem Kept.answer (h : u.Kept rank jobs) (hc : u.stage c = .cancelling []) :
    Kept rank jobs { u with stage := Function.update u.stage c (.returned true) } := by
  obtain ⟨⟨previous, hlowered, hlt⟩, -⟩ := h.sound hc
  exact {
    size := h.size
    best := h.best
    nodup := h.nodup
    stages := sound_update ⟨previous, hlowered, iff_of_true rfl hlt⟩ fun d _ => h.stages d
    flagged := h.flagged
    owed := fun r hr hlt => by
      refine (h.owed r hr hlt).imp_right fun howed => owed_update howed fun hcall => ?_
      rw [hc] at hcall
      cases hcall }

theorem Step.kept (hstep : Step rank u v) (h : u.Kept rank jobs) : v.Kept rank jobs := by
  cases hstep with
  | lower hc => exact h.lower hc
  | compare hc => exact h.compare hc
  | cancel hc => exact h.cancel hc
  | answer hc => exact h.answer hc

theorem Steps.kept (hsteps : Steps rank u v) (h : u.Kept rank jobs) : v.Kept rank jobs := by
  induction hsteps with
  | refl => exact h
  | tail _ hstep ih => exact hstep.kept ih

end Updates

/-! ## After any number of steps -/

/-- What can be told of the calls at any time. -/
structure Updates.Consistent [DecidableEq Call] (rank : Call → Nat) (jobs : Nat)
    (u : Updates Call) : Prop where
  /-- the calls on record are those that have begun, each once -/
  recorded : u.order.Nodup ∧ ∀ c, c ∈ u.order ↔ u.stage c ≠ .waiting
  /-- the best rank is the least on record -/
  best : u.shared.best = leastRank (u.order.map rank)
  /-- only worse ranks are asked to stop -/
  flagged : ∀ r, u.shared.flag? r = some true → u.shared.best < r
  /-- when all calls have returned, the worse ranks and no others are asked to
      stop, and they are the ones that are superseded -/
  settled : (∀ c, ∃ better, u.stage c = .returned better) → ∀ r < jobs,
    (u.shared.flag? r = some true ↔ u.shared.best < r) ∧
      u.shared.flag? r = some (u.shared.isSuperseded r)
  /-- a call says that its rank is the best so far if it is below all that were
      on record before -/
  answered : ∀ c better, u.stage c = .returned better → ∃ before after,
    u.order = before ++ c :: after ∧
      (better = true ↔ rank c < noRank ∧ ∀ d ∈ before, rank c < rank d)
  /-- no call breaks off -/
  unbroken : ∀ c fault, u.stage c ≠ .faulted fault
  /-- a call that has not begun may do what `tryUpdate` does, if the others let it -/
  alone : ∀ c, u.stage c = .waiting → Steps rank u ⟨(u.shared.tryUpdate (rank c)).2,
    Function.update u.stage c (.returned (u.shared.tryUpdate (rank c)).1), u.order ++ [c]⟩

namespace Updates

variable {u : Updates Call}

/-- When all calls have returned, no flag is owed. -/
theorem Kept.settled (h : u.Kept rank jobs) (hall : ∀ c, ∃ better, u.stage c = .returned better)
    {r : Nat} (hr : r < jobs) : u.shared.flag? r = some true ↔ u.shared.best < r := by
  refine ⟨h.flagged r, fun hlt => (h.owed r hr hlt).resolve_right ?_⟩
  rintro ⟨c, howes⟩
  obtain ⟨better, hc⟩ := hall c
  rw [hc] at howes
  exact howes

theorem Kept.answered {better : Bool} (h : u.Kept rank jobs) (hc : u.stage c = .returned better) :
    ∃ before after, u.order = before ++ c :: after ∧
      (better = true ↔ rank c < noRank ∧ ∀ d ∈ before, rank c < rank d) := by
  obtain ⟨previous, ⟨before, after, horder, rfl⟩, hbetter⟩ := h.sound hc
  rw [lt_leastRank, List.forall_mem_map] at hbetter
  exact ⟨before, after, horder, hbetter⟩

/-- However calls with any ranks take their steps, the best rank and the flags
    agree. -/
theorem consistent [DecidableEq Call] (rank : Call → Nat) (hjobs : jobs ≤ noRank)
    (hu : Steps rank (start jobs) u) : u.Consistent rank jobs := by
  have hkept := hu.kept (Kept.start rank hjobs)
  exact {
    recorded := ⟨hkept.nodup, fun c => (hkept.stages c).mem_iff⟩
    best := hkept.best
    flagged := hkept.flagged
    settled := fun hall r hr => by
      have hflag := hkept.settled hall hr
      refine ⟨hflag, ?_⟩
      have hlength : r < u.shared.cancelled.length := hkept.size ▸ hr
      rw [SharedBest.flag?, List.getElem?_eq_getElem hlength] at hflag ⊢
      rw [Option.some_inj, Bool.eq_iff_iff, SharedBest.isSuperseded, decide_eq_true_iff, ← hflag,
        Option.some_inj]
    answered := fun c better hc => hkept.answered hc
    unbroken := fun c fault hc => hkept.sound hc
    alone := fun c hc => steps_tryUpdate hc (hkept.best ▸ leastRank_le_noRank _) }

/-- Two calls on four flags, with the ranks 2 and 1.  The better one comes
    second, and the other sets its flag while that one sets its own. -/
theorem consistent_twoCalls : ∃ u : Updates Bool,
    Steps (fun c => if c then 1 else 2) (start 4) u ∧ 4 ≤ noRank ∧
      u.shared = ⟨1, [false, false, true, true]⟩ ∧ (∀ c, u.stage c = .returned true) ∧
      u.Consistent (fun c => if c then 1 else 2) 4 := by
  have hsteps : Steps (fun c : Bool => if c then 1 else 2) (start 4) _ := Relation.ReflTransGen.refl
    |>.tail (.lower (c := false) rfl)
    |>.tail (.compare (c := false) rfl)
    |>.tail (.lower (c := true) rfl)
    |>.tail (.compare (c := true) rfl)
    |>.tail (.cancel (c := true) rfl)
    |>.tail (.cancel (c := false) rfl)
    |>.tail (.answer (c := false) rfl)
    |>.tail (.cancel (c := true) rfl)
    |>.tail (.answer (c := true) rfl)
  exact ⟨_, hsteps, by decide, rfl, Bool.forall_bool.2 ⟨rfl, rfl⟩, consistent _ (by decide) hsteps⟩

/-- The rank that stands for none is not the best so far, even if there is none
    before it that it could be compared with. -/
theorem not_better_noRank : ∃ (rank : Unit → Nat) (u : Updates Unit),
    rank () = noRank ∧ Steps rank (start 1) u ∧
      ¬ ∀ c better, u.stage c = .returned better → ∃ before after, u.order = before ++ c :: after ∧
        (better = true ↔ ∀ d ∈ before, rank c < rank d) := by
  have hsteps : Steps (fun _ => noRank) (start 1) _ := Relation.ReflTransGen.refl
    |>.tail (.lower (c := ()) rfl)
    |>.tail (.compare (c := ()) rfl)
  refine ⟨_, _, rfl, hsteps, fun hclaim => ?_⟩
  obtain ⟨before, after, horder, hbetter⟩ := hclaim () false rfl
  rcases before with _ | ⟨b, before⟩
  · exact Bool.false_ne_true (hbetter.2 (List.forall_mem_nil _))
  · simp [start] at horder

end Updates

end InputSolver.Parallel
