/-
  InputSolver — walks over expression graphs.

  A walk that meets an identity again need not descend: the node was left
  already, with all nodes below it, or it is one of the larger nodes above.

  * `walkFrom_induction`: a walk is over at once at a node that was met, leaves
    a leaf, or leaves a node after two walks below it;
  * `mem_uniqueWalk`: the unique walk meets the nodes of the expression;
  * `mem_inputIndices` and `pairwise_inputIndices`: the input positions are
    those that occur, in strict order.
-/
import InputSolver.Expr.Walk
import InputSolver.Proofs.Expr.Heap
import InputSolver.Proofs.Expr.Inputs
import InputSolver.Proofs.Sorted

namespace InputSolver.Expr

/-! ## Steps of a walk -/

theorem walkFrom_seen {w : Walk} {e : Expr} (hseen : e.id ∈ w.seen) : walkFrom w e = w := by
  cases e with
  | binary id settled op l r =>
    rw [walkFrom]
    exact if_pos hseen
  | _ => exact if_pos hseen

theorem walkFrom_leaf {w : Walk} {e : Expr} (hleaf : e.isLeaf = true) (hnew : e.id ∉ w.seen) :
    walkFrom w e = ⟨w.seen.insert e.id, e :: w.left⟩ := by
  cases e with
  | binary id settled op l r => cases hleaf
  | _ => exact if_neg hnew

theorem walkFrom_binary {w : Walk} {id : Nat} {settled : Bool} {op : Operator} {l r : Expr}
    (hnew : id ∉ w.seen) : walkFrom w (binary id settled op l r) =
      { walkFrom (walkFrom { w with seen := w.seen.insert id } l) r with
        left := binary id settled op l r ::
          (walkFrom (walkFrom { w with seen := w.seen.insert id } l) r).left } := by
  rw [walkFrom]
  exact if_neg hnew

/-- What holds of a walk at a node that was met, of one at a leaf, and of one
    at another node if it does below the operands, holds of every walk. -/
theorem walkFrom_induction {motive : Walk → Expr → Walk → Prop}
    (seen : ∀ {w e}, e.id ∈ w.seen → motive w e w)
    (leaf : ∀ {w e}, e.isLeaf = true → e.id ∉ w.seen →
      motive w e ⟨w.seen.insert e.id, e :: w.left⟩)
    (binary : ∀ {w w₁ w₂ id settled op l r}, id ∉ w.seen →
      walkFrom { w with seen := w.seen.insert id } l = w₁ → walkFrom w₁ r = w₂ →
      motive { w with seen := w.seen.insert id } l w₁ → motive w₁ r w₂ →
      motive w (binary id settled op l r) { w₂ with left := binary id settled op l r :: w₂.left })
    (w : Walk) (e : Expr) : motive w e (walkFrom w e) := by
  induction e generalizing w with
  | binary id settled op l r ihl ihr =>
    by_cases hseen : id ∈ w.seen
    · rw [walkFrom_seen hseen]
      exact seen hseen
    · rw [walkFrom_binary hseen]
      exact binary hseen rfl rfl (ihl _) (ihr _)
  | _ =>
    rename_i id x
    by_cases hseen : id ∈ w.seen
    · rw [walkFrom_seen hseen]
      exact seen hseen
    · rw [walkFrom_leaf rfl hseen]
      exact leaf rfl hseen

/-! ## What a walk does -/

/-- A node was left, with all nodes below it. -/
def Walk.Finished (w : Walk) (n : Expr) : Prop := ∀ m ∈ n.nodes, m ∈ w.left

/-- What was met before a walk below `e` is finished or larger than `e`. -/
def Walk.Before (h : Heap) (w : Walk) (e : Expr) : Prop :=
  ∀ id ∈ w.seen, w.Finished (h.node id) ∨ e.nodes.length < (h.node id).nodes.length

/-- A walk below `e` leaves the nodes of `e`, and finishes what it meets. -/
structure Walks (h : Heap) (e : Expr) (w w' : Walk) : Prop where
  kept : ∀ n ∈ w.left, n ∈ w'.left
  only : ∀ n ∈ w'.left, n ∈ w.left ∨ n ∈ e.nodes
  finished : w'.Finished e
  seen : ∀ id ∈ w'.seen, id ∈ w.seen ∨ w'.Finished (h.node id)

variable {h : Heap} {e : Expr} {w : Walk}

/-- There is nothing to do for a node that was met. -/
theorem walks_of_seen (he : h.Holds e) (hw : w.Before h e) (hseen : e.id ∈ w.seen) :
    Walks h e w w where
  kept _ hn := hn
  only _ hn := .inl hn
  finished := by
    have hdone := hw e.id hseen
    rw [he.self.2] at hdone
    exact hdone.resolve_right (Nat.lt_irrefl _)
  seen _ hid := .inl hid

/-- A leaf is left at once. -/
theorem walks_leaf (he : h.Holds e) (hleaf : e.isLeaf = true) :
    Walks h e w ⟨w.seen.insert e.id, e :: w.left⟩ where
  kept _ hn := List.mem_cons_of_mem _ hn
  only n hn := by
    rw [nodes_of_isLeaf hleaf, List.mem_singleton]
    exact (List.mem_cons.1 hn).symm
  finished n hn := by
    rw [nodes_of_isLeaf hleaf, List.mem_singleton] at hn
    exact hn ▸ List.mem_cons_self
  seen id hid := by
    rcases Std.HashSet.mem_insert.1 hid with heq | hid
    · obtain rfl := eq_of_beq heq
      refine .inr fun n hn => ?_
      rw [he.self.2, nodes_of_isLeaf hleaf, List.mem_singleton] at hn
      exact hn ▸ List.mem_cons_self
    · exact .inl hid

/-- A node is left after its operands. -/
theorem walks_binary {id : Nat} {settled : Bool} {op : Operator} {l r : Expr} {w₁ w₂ : Walk}
    (he : h.Holds (binary id settled op l r))
    (hl : Walks h l { w with seen := w.seen.insert id } w₁) (hr : Walks h r w₁ w₂) :
    Walks h (binary id settled op l r) w
      { w₂ with left := binary id settled op l r :: w₂.left } := by
  have hfinished : Walk.Finished { w₂ with left := binary id settled op l r :: w₂.left }
      (binary id settled op l r) := by
    intro n hn
    rcases mem_nodes_binary.1 hn with rfl | hn | hn
    · exact List.mem_cons_self
    · exact List.mem_cons_of_mem _ (hr.kept n (hl.finished n hn))
    · exact List.mem_cons_of_mem _ (hr.finished n hn)
  refine ⟨fun n hn => List.mem_cons_of_mem _ (hr.kept n (hl.kept n hn)), fun n hn => ?_, hfinished,
    fun i hi => ?_⟩
  · rw [mem_nodes_binary]
    rcases List.mem_cons.1 hn with rfl | hn
    · exact .inr (.inl rfl)
    · rcases hr.only n hn with hn | hn
      · exact (hl.only n hn).imp_right fun hn => .inr (.inl hn)
      · exact .inr (.inr (.inr hn))
  · rcases hr.seen i hi with hi | hi
    · rcases hl.seen i hi with hi | hi
      · rcases Std.HashSet.mem_insert.1 hi with heq | hi
        · obtain rfl := eq_of_beq heq
          rw [(Heap.holds_binary.1 he).1.2]
          exact .inr hfinished
        · exact .inl hi
      · exact .inr fun n hn => List.mem_cons_of_mem _ (hr.kept n (hi n hn))
    · exact .inr fun n hn => List.mem_cons_of_mem _ (hi n hn)

section Operands

variable {id : Nat} {settled : Bool} {op : Operator} {l r : Expr}

/-- When a node is entered, it is open itself, and larger than its operands. -/
theorem Walk.Before.left (he : h.Holds (binary id settled op l r))
    (hw : w.Before h (binary id settled op l r)) :
    Walk.Before h { w with seen := w.seen.insert id } l := by
  have hlen := length_nodes_binary id settled op l r
  intro i hi
  rcases Std.HashSet.mem_insert.1 hi with heq | hi
  · obtain rfl := eq_of_beq heq
    rw [(Heap.holds_binary.1 he).1.2]
    exact .inr (by omega)
  · exact (hw i hi).imp_right fun hlt => by omega

/-- It still is when its left operand was walked. -/
theorem Walk.Before.right {w₁ : Walk} (he : h.Holds (binary id settled op l r))
    (hw : w.Before h (binary id settled op l r))
    (hl : Walks h l { w with seen := w.seen.insert id } w₁) : w₁.Before h r := by
  have hlen := length_nodes_binary id settled op l r
  intro i hi
  rcases hl.seen i hi with hi | hi
  · rcases Std.HashSet.mem_insert.1 hi with heq | hi
    · obtain rfl := eq_of_beq heq
      rw [(Heap.holds_binary.1 he).1.2]
      exact .inr (by omega)
    · exact (hw i hi).imp (fun hf n hn => hl.kept n (hf n hn)) fun hlt => by omega
  · exact .inl hi

end Operands

theorem walkFrom_walks (he : h.Holds e) (hw : w.Before h e) : Walks h e w (walkFrom w e) := by
  refine walkFrom_induction (motive := fun w e w' => h.Holds e → w.Before h e → Walks h e w w')
    ?_ ?_ ?_ w e he hw
  · intro w e hseen he hw
    exact walks_of_seen he hw hseen
  · intro w e hleaf _ he _
    exact walks_leaf he hleaf
  · intro w w₁ w₂ id settled op l r _ _ _ hl hr he hw
    have hwl := hl he.left (hw.left he)
    exact walks_binary he hwl (hr he.right (hw.right he hwl))

/-! ## The unique walk -/

/-- The unique walk meets the nodes of the expression. -/
theorem mem_uniqueWalk (he : h.Holds e) {n : Expr} : n ∈ e.uniqueWalk ↔ n ∈ e.nodes := by
  have hwalks := walkFrom_walks (w := ⟨∅, []⟩) he fun id hid => (Std.HashSet.not_mem_empty hid).elim
  rw [uniqueWalk, List.mem_reverse]
  exact ⟨fun hn => (hwalks.only n hn).resolve_left nofun, hwalks.finished n⟩

/-- The input positions are those that occur. -/
theorem mem_inputIndices (he : h.Holds e) {i : Nat} : i ∈ e.inputIndices ↔ e.Mentions i := by
  rw [inputIndices, mem_sortDistinct, List.mem_filterMap]
  exact exists_congr fun n => and_congr_left' (mem_uniqueWalk he)

/-- The input positions ascend. -/
theorem pairwise_inputIndices (e : Expr) : e.inputIndices.Pairwise (· < ·) := by
  refine (pairwise_sortDistinct ?_ ?_ ?_ _).imp fun ⟨hle, hne⟩ => ?_
  · simp only [decide_eq_true_eq]
    exact fun _ _ _ => Nat.le_trans
  · simp only [Bool.or_eq_true, decide_eq_true_eq]
    exact Nat.le_total
  · simp only [decide_eq_true_eq]
    exact fun _ _ => Nat.le_antisymm
  · exact Nat.lt_of_le_of_ne (of_decide_eq_true hle) hne

end InputSolver.Expr
