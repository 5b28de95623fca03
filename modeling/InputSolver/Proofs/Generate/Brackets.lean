/-
  InputSolver — pushes and pops in pairs.

  Pushes and pops are opening and closing brackets.

  * `Balanced`: no beginning of a list pops more often than it pushes, and the
    list pops as often as it pushes;
  * `Paired`: a push and a pop with a balanced list between them;
  * `Waiting`: what was pushed and is still to be popped, the last one first;
  * `Waiting.paired_iff`: a pop is paired with the push that waits last.
-/
import Mathlib.Data.List.Infix
import InputSolver.Generate.Pairs

namespace InputSolver.Generate

variable {as bs : List StackAction} {a : StackAction} {i j : Nat}

/-! ## Balanced lists -/

@[simp] theorem count_pop_push_cons (as : List StackAction) :
    (StackAction.push :: as).count .pop = as.count .pop := List.count_cons_of_ne (by decide)

@[simp] theorem count_push_pop_cons (as : List StackAction) :
    (StackAction.pop :: as).count .push = as.count .push := List.count_cons_of_ne (by decide)

/-- Every pop takes off what a push before it put on, and nothing stays. -/
structure Balanced (as : List StackAction) : Prop where
  beginning : ∀ p, p <+: as → p.count .pop ≤ p.count .push
  total : as.count .pop = as.count .push

theorem balanced_iff : Balanced as ↔
    (∀ p ∈ as.inits, p.count .pop ≤ p.count .push) ∧ as.count .pop = as.count .push := by
  simp only [List.mem_inits]
  exact ⟨fun h => ⟨h.beginning, h.total⟩, fun h => ⟨h.1, h.2⟩⟩

instance (as : List StackAction) : Decidable (Balanced as) := decidable_of_iff _ balanced_iff.symm

theorem balanced_nil : Balanced [] where
  beginning p hp := by
    rw [List.prefix_nil.1 hp]
    exact Nat.le_refl _
  total := rfl

theorem Balanced.append (ha : Balanced as) (hb : Balanced bs) : Balanced (as ++ bs) where
  beginning p hp := by
    rcases List.prefix_or_prefix_of_prefix hp (List.prefix_append as bs) with h | ⟨q, rfl⟩
    · exact ha.beginning p h
    · have hq := hb.beginning q ((List.prefix_append_right_inj as).1 hp)
      rw [List.count_append, List.count_append, ha.total]
      exact Nat.add_le_add_left hq _
  total := by rw [List.count_append, List.count_append, ha.total, hb.total]

/-- A push before a balanced list and a pop after it. -/
theorem Balanced.wrap (ha : Balanced as) : Balanced (.push :: (as ++ [.pop])) where
  beginning p hp := by
    rcases List.prefix_cons_iff.1 hp with rfl | ⟨q, rfl, hq⟩
    · exact Nat.le_refl _
    · rcases List.prefix_concat_iff.1 hq with rfl | hq
      · simp [ha.total]
      · have := ha.beginning q hq
        simp only [List.count_cons_self, count_pop_push_cons]
        omega
  total := by simp [ha.total]

/-- A balanced list has no push that only a balanced list follows. -/
theorem Balanced.not_push_append (hb : Balanced bs) : ¬Balanced (as ++ .push :: bs) := by
  intro h
  have hbegin := h.beginning as (List.prefix_append ..)
  have htotal := h.total
  simp only [List.count_append, List.count_cons_self, count_pop_push_cons, hb.total] at htotal
  omega

/-! ## Pairs -/

/-- A pop takes off what the push put on. -/
def Paired (as : List StackAction) (i j : Nat) : Prop :=
  i < j ∧ as[i]? = some .push ∧ as[j]? = some .pop ∧ Balanced ((as.take j).drop (i + 1))

instance (as : List StackAction) (i j : Nat) : Decidable (Paired as i j) :=
  inferInstanceAs (Decidable (_ ∧ _ ∧ _ ∧ _))

example : Paired [.push, .push, .pop, .pop] 0 3 ∧ ¬Paired [.push, .push, .pop, .pop] 0 2 := by
  decide

theorem Paired.lt_length (h : Paired as i j) : j < as.length :=
  (List.getElem?_eq_some_iff.1 h.2.2.1).1

/-- Whether two actions are a pair does not depend on later ones. -/
theorem paired_concat_of_lt (hj : j < as.length) : Paired (as ++ [a]) i j ↔ Paired as i j := by
  unfold Paired
  rw [List.getElem?_append_left hj, List.take_append_of_le_length (Nat.le_of_lt hj)]
  refine and_congr_right fun hij => ?_
  rw [List.getElem?_append_left (Nat.lt_trans hij hj)]

/-- The last action is the pop of a pair if only a balanced list lies between
    it and the push. -/
theorem paired_concat_length (as : List StackAction) (a : StackAction) (i : Nat) :
    Paired (as ++ [a]) i as.length ↔
      a = .pop ∧ as[i]? = some .push ∧ Balanced (as.drop (i + 1)) := by
  unfold Paired
  rw [List.getElem?_concat_length, List.take_left, Option.some.injEq]
  constructor
  · rintro ⟨hi, hpush, hpop, hbalanced⟩
    rw [List.getElem?_append_left hi] at hpush
    exact ⟨hpop, hpush, hbalanced⟩
  · rintro ⟨hpop, hpush, hbalanced⟩
    have hi := (List.getElem?_eq_some_iff.1 hpush).1
    exact ⟨hi, by rwa [List.getElem?_append_left hi], hpop, hbalanced⟩

/-- Only one push is followed by a balanced list. -/
theorem push_iff_of_balanced (hb : Balanced bs) (as : List StackAction) (i : Nat) :
    (as ++ .push :: bs)[i]? = some .push ∧ Balanced ((as ++ .push :: bs).drop (i + 1)) ↔
      i = as.length := by
  constructor
  · rintro ⟨hpush, hbalanced⟩
    -- after the earlier one of two such pushes, the later one would stay
    rcases Nat.lt_trichotomy i as.length with hlt | heq | hgt
    · rw [List.drop_append_of_le_length hlt] at hbalanced
      exact absurd hbalanced hb.not_push_append
    · exact heq
    · obtain ⟨k, rfl⟩ := Nat.exists_eq_add_of_lt hgt
      have hk : bs[k]? = some .push := by
        rwa [List.getElem?_append_right (by omega), Nat.add_assoc, Nat.add_sub_cancel_left,
          List.getElem?_cons_succ] at hpush
      have hdrop : (as ++ .push :: bs).drop (as.length + k + 1 + 1) = bs.drop (k + 1) := by
        rw [Nat.add_assoc, Nat.add_assoc, List.drop_length_add_append]
        rfl
      have hsplit : bs.take k ++ .push :: bs.drop (k + 1) = bs := by
        obtain ⟨hlt, hget⟩ := List.getElem?_eq_some_iff.1 hk
        rw [← hget, List.getElem_cons_drop, List.take_append_drop]
      rw [hdrop] at hbalanced
      exact absurd (hsplit.symm ▸ hb) hbalanced.not_push_append
  · rintro rfl
    refine ⟨by simp, ?_⟩
    have hdrop : (as ++ .push :: bs).drop (as.length + 1) = bs := by
      rw [List.drop_length_add_append]
      rfl
    rwa [hdrop]

/-! ## What waits for a pop -/

variable {α : Type} {f : α → StackAction} {xs ws ys : List α} {x w : α}

/-- What a list pushes and does not pop again, the last one first.  Between
    two such pushes, and after the last one, the list is balanced. -/
inductive Waiting (f : α → StackAction) : List α → List α → Prop
  | none {ys : List α} : Balanced (ys.map f) → Waiting f ys []
  | push {xs ws ys : List α} {w : α} : Waiting f xs ws → f w = .push → Balanced (ys.map f) →
      Waiting f (xs ++ w :: ys) (w :: ws)

namespace Waiting

theorem append_balanced (h : Waiting f xs ws) (hys : Balanced (ys.map f)) :
    Waiting f (xs ++ ys) ws := by
  cases h with
  | none hxs =>
    refine .none ?_
    rw [List.map_append]
    exact hxs.append hys
  | push hpre hw hinside =>
    rw [List.append_assoc, List.cons_append]
    refine .push hpre hw ?_
    rw [List.map_append]
    exact hinside.append hys

theorem concat_push (h : Waiting f xs ws) (hx : f x = .push) : Waiting f (xs ++ [x]) (x :: ws) :=
  .push h hx balanced_nil

/-- A pop takes off what waits last. -/
theorem concat_pop (h : Waiting f xs (w :: ws)) (hx : f x = .pop) : Waiting f (xs ++ [x]) ws := by
  cases h with
  | @push pre _ inside _ hpre hw hinside =>
    -- the push, what lies between and the pop are balanced
    rw [List.append_assoc]
    refine hpre.append_balanced ?_
    rw [List.cons_append, List.map_cons, List.map_append, hw, List.map_singleton, hx]
    exact hinside.wrap

/-- As many wait as were pushed and not popped. -/
theorem length_add (h : Waiting f xs ws) :
    ws.length + (xs.map f).count .pop = (xs.map f).count .push := by
  induction h with
  | none hys => rw [hys.total, List.length_nil, Nat.zero_add]
  | push _ hw hys ih =>
    simp only [List.map_append, List.map_cons, List.count_append, hw, List.count_cons_self,
      count_pop_push_cons, hys.total, List.length_cons, ← ih]
    omega

/-- A pop is paired with the push that waits last. -/
theorem paired_iff (h : Waiting f xs (w :: ws)) (hx : f x = .pop) :
    ∃ k, xs[k]? = some w ∧
      ∀ i, Paired ((xs ++ [x]).map f) i xs.length ↔ i = k := by
  cases h with
  | @push pre _ inside _ hpre hw hinside =>
    refine ⟨pre.length, by simp, fun i => ?_⟩
    have hunique := push_iff_of_balanced hinside (pre.map f) i
    rw [List.length_map] at hunique
    rw [← hunique]
    have hconcat := paired_concat_length ((pre ++ w :: inside).map f) (f x) i
    rw [List.length_map] at hconcat
    rw [List.map_append, List.map_singleton, hconcat, hx, List.map_append, List.map_cons, hw]
    exact and_iff_right rfl

end Waiting

end InputSolver.Generate
