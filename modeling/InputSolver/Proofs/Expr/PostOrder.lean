/-
  InputSolver — the unique walk as a post-order.

  A walk can be made with a stack of nodes to enter and nodes to leave.  A
  node is marked as met only when it is taken off to be entered, so it may be
  on the stack many times.

  * `Walk.drain_enter`: entering a node with a stack is the walk below it;
  * `Walk.Ordered.walkFrom`: a walk leaves each node once, after its operands;
  * `uniqueWalk_postOrder`: the unique walk is a post-order of the graph below
    its root, and tells the inputs in it.
-/
import Mathlib.Data.List.Sort
import Mathlib.Logic.Relation
import InputSolver.Proofs.Expr.Walk

namespace InputSolver.Expr

/-! ## A walk with a stack -/

/-- A node still to be entered, or to be left. -/
inductive Task where
  | enter (e : Expr)
  | leave (e : Expr)

/-- A bound on the tasks that are taken off a stack, with those they lead to. -/
def stackCost : List Task → Nat
  | [] => 0
  | .enter e :: stack => 2 * e.nodes.length + stackCost stack
  | .leave _ :: stack => 1 + stackCost stack

theorem operands_of_isLeaf {e : Expr} (he : e.isLeaf = true) : e.operands = [] := by
  cases e with
  | binary id settled op l r => cases he
  | _ => rfl

theorem mem_operands_binary {n : Expr} {id : Nat} {settled : Bool} {op : Operator} {l r : Expr} :
    n ∈ (binary id settled op l r).operands ↔ n = l ∨ n = r := by
  simp [operands]

theorem length_nodes_pos (e : Expr) : 0 < e.nodes.length :=
  List.length_pos_of_mem e.self_mem_nodes

/-- What entering a node leads to is less than entering it. -/
theorem stackCost_operands_lt (e : Expr) (stack : List Task) :
    stackCost (e.operands.map .enter ++ .leave e :: stack) < stackCost (.enter e :: stack) := by
  cases e with
  | binary id settled op l r =>
    simp only [operands, List.map_cons, List.map_nil, List.cons_append, List.nil_append, stackCost,
      length_nodes_binary]
    omega
  | _ => simp [operands, stackCost, nodes]

/-- Takes the tasks off a stack, those a node leads to first, until none is
    left. -/
def Walk.drain (w : Walk) : List Task → Walk
  | [] => w
  | .leave e :: stack => drain { w with left := e :: w.left } stack
  | .enter e :: stack =>
    if w.seen.contains e.id then w.drain stack
    else drain { w with seen := w.seen.insert e.id } (e.operands.map .enter ++ .leave e :: stack)
termination_by stack => stackCost stack
decreasing_by
  · exact Nat.lt_add_of_pos_left Nat.one_pos
  · exact Nat.lt_add_of_pos_left (Nat.mul_pos Nat.two_pos e.length_nodes_pos)
  · exact stackCost_operands_lt e stack

namespace Walk

variable {w : Walk} {e : Expr} {stack : List Task}

theorem drain_seen (hseen : e.id ∈ w.seen) : w.drain (.enter e :: stack) = w.drain stack := by
  rw [drain]
  exact if_pos hseen

theorem drain_new (hnew : e.id ∉ w.seen) : w.drain (.enter e :: stack) =
    drain { w with seen := w.seen.insert e.id } (e.operands.map .enter ++ .leave e :: stack) := by
  rw [drain]
  exact if_neg hnew

theorem drain_leave :
    w.drain (.leave e :: stack) = drain { w with left := e :: w.left } stack := by
  rw [drain]

theorem drain_nil : w.drain [] = w := by
  rw [drain]

end Walk

/-- To enter a node with a stack is to walk below it, before the rest of the
    stack. -/
theorem Walk.drain_enter (w : Walk) (e : Expr) (stack : List Task) :
    w.drain (.enter e :: stack) = (walkFrom w e).drain stack := by
  refine walkFrom_induction
    (motive := fun w e w' => ∀ stack, w.drain (.enter e :: stack) = w'.drain stack)
    ?_ ?_ ?_ w e stack
  · intro w e hseen stack
    exact drain_seen hseen
  · intro w e hleaf hnew stack
    rw [drain_new hnew, operands_of_isLeaf hleaf]
    exact drain_leave
  · intro w w₁ w₂ id settled op l r hnew _ _ hl hr stack
    rw [drain_new hnew]
    change drain _ (.enter l :: .enter r :: .leave (binary id settled op l r) :: stack) = _
    rw [Expr.id, hl, hr, drain_leave]

/-! ## Post-orders -/

/-- Each identity once, and each node after its operands. -/
structure PostOrder (ns : List Expr) : Prop where
  once : (ns.map id).Nodup
  after : ∀ before n rest, ns = before ++ n :: rest → ∀ m ∈ n.operands, m ∈ before

theorem postOrder_nil : PostOrder [] where
  once := List.nodup_nil
  after before n rest h := by simp at h

/-- A new node may follow its operands. -/
theorem PostOrder.concat {ns : List Expr} {n : Expr} (hns : PostOrder ns)
    (hnew : ∀ m ∈ ns, m.id ≠ n.id) (hn : ∀ m ∈ n.operands, m ∈ ns) : PostOrder (ns ++ [n]) where
  once := by
    rw [List.map_append, List.nodup_append]
    refine ⟨hns.once, by simp, ?_⟩
    simpa using hnew
  after before k rest h m hm := by
    rcases List.eq_nil_or_concat rest with rfl | ⟨rest, last, rfl⟩
    · obtain ⟨rfl, hk⟩ := List.append_inj' h rfl
      obtain rfl := List.singleton_inj.1 hk
      exact hn m hm
    · rw [List.concat_eq_append, ← List.cons_append, ← List.append_assoc] at h
      exact hns.after before k rest (List.append_inj' h rfl).1 m hm

theorem length_nodes_le {n e : Expr} (hn : n ∈ e.nodes) : n.nodes.length ≤ e.nodes.length := by
  induction e with
  | binary id settled op l r ihl ihr =>
    have hlen := length_nodes_binary id settled op l r
    rcases mem_nodes_binary.1 hn with rfl | hn | hn
    · exact Nat.le_refl _
    · have hle := ihl hn
      omega
    · have hle := ihr hn
      omega
  | _ =>
    obtain rfl := List.mem_singleton.1 hn
    exact Nat.le_refl _

/-- What was left so far is in post-order, and was met. -/
structure Walk.Ordered (w : Walk) : Prop where
  order : PostOrder w.left.reverse
  met : ∀ n ∈ w.left, n.id ∈ w.seen

theorem mem_seen_walkFrom {w : Walk} {i : Nat} (hi : i ∈ w.seen) (e : Expr) :
    i ∈ (walkFrom w e).seen := by
  refine walkFrom_induction (motive := fun w e w' => i ∈ w.seen → i ∈ w'.seen) ?_ ?_ ?_ w e hi
  · intro w e _ hi
    exact hi
  · intro w e _ _ hi
    exact Std.HashSet.mem_insert.2 (.inr hi)
  · intro w w₁ w₂ id settled op l r _ _ _ hl hr hi
    exact hr (hl (Std.HashSet.mem_insert.2 (.inr hi)))

variable {h : Heap} {w : Walk} {e : Expr}

theorem Walk.Ordered.meet (hw : w.Ordered) (i : Nat) :
    Walk.Ordered { w with seen := w.seen.insert i } where
  order := hw.order
  met n hn := Std.HashSet.mem_insert.2 (.inr (hw.met n hn))

theorem Walk.Ordered.id_ne (hw : w.Ordered) {i : Nat} (hnew : i ∉ w.seen) {n : Expr}
    (hn : n ∈ w.left) : n.id ≠ i := by
  rintro rfl
  exact hnew (hw.met n hn)

/-- A node that was met may be left, if its operands were and no node of its
    identity was. -/
theorem Walk.Ordered.leave (hw : w.Ordered) (hmet : e.id ∈ w.seen)
    (hnew : ∀ n ∈ w.left, n.id ≠ e.id) (he : ∀ m ∈ e.operands, m ∈ w.left) :
    Walk.Ordered { w with left := e :: w.left } where
  order := by
    rw [List.reverse_cons]
    exact hw.order.concat (fun n hn => hnew n (List.mem_reverse.1 hn))
      fun m hm => List.mem_reverse.2 (he m hm)
  met n hn := by
    rcases List.mem_cons.1 hn with rfl | hn
    · exact hmet
    · exact hw.met n hn

/-- A node is left after its operands, and no node of its identity was left
    before. -/
theorem Walk.Ordered.leave_binary {id : Nat} {settled : Bool} {op : Operator} {l r : Expr}
    {w₁ w₂ : Walk} (hw : w.Ordered) (he : h.Holds (binary id settled op l r)) (hnew : id ∉ w.seen)
    (hmet : id ∈ w₂.seen) (hw₂ : w₂.Ordered)
    (hl : Walks h l { w with seen := w.seen.insert id } w₁) (hr : Walks h r w₁ w₂) :
    Walk.Ordered { w₂ with left := binary id settled op l r :: w₂.left } := by
  refine hw₂.leave hmet (fun n hn hid => ?_) fun m hm => ?_
  · -- a node of this identity is the node itself, which is not below its operands
    have hlen := length_nodes_binary id settled op l r
    have hsame {k : Expr} (hk : h.Holds k) (hn : n ∈ k.nodes) :
        (binary id settled op l r).nodes.length ≤ k.nodes.length := by
      rw [← he.self.2, ← hid, (hk n hn).2]
      exact length_nodes_le hn
    rcases hr.only n hn with hn | hn
    · rcases hl.only n hn with hn | hn
      · exact hw.id_ne hnew hn hid
      · have hle := hsame he.left hn
        omega
    · have hle := hsame he.right hn
      omega
  · rcases mem_operands_binary.1 hm with rfl | rfl
    · exact hr.kept m (hl.finished m m.self_mem_nodes)
    · exact hr.finished m m.self_mem_nodes

/-- A walk keeps the post-order. -/
theorem Walk.Ordered.walkFrom (he : h.Holds e) (hbefore : w.Before h e) (hw : w.Ordered) :
    (walkFrom w e).Ordered := by
  refine walkFrom_induction
    (motive := fun w e w' => h.Holds e → w.Before h e → w.Ordered → w'.Ordered)
    ?_ ?_ ?_ w e he hbefore hw
  · intro w e _ _ _ hw
    exact hw
  · intro w e hleaf hnew _ _ hw
    refine (hw.meet e.id).leave Std.HashSet.mem_insert_self (fun n hn => hw.id_ne hnew hn)
      fun m hm => ?_
    rw [operands_of_isLeaf hleaf] at hm
    cases hm
  · rintro w _ _ id settled op l r hnew rfl rfl hl hr he hbefore hw
    have hleft := hbefore.left he
    have hwl := walkFrom_walks he.left hleft
    have hright := hbefore.right he hwl
    have hw₁ := hl he.left hleft (hw.meet id)
    refine hw.leave_binary he hnew ?_ (hr he.right hright hw₁) hwl (walkFrom_walks he.right hright)
    exact mem_seen_walkFrom (mem_seen_walkFrom Std.HashSet.mem_insert_self l) r

/-- The unique walk is in post-order. -/
theorem postOrder_uniqueWalk (he : h.Holds e) : PostOrder e.uniqueWalk :=
  (Walk.Ordered.walkFrom (w := ⟨∅, []⟩) he (fun _ hid => (Std.HashSet.not_mem_empty hid).elim)
    ⟨postOrder_nil, nofun⟩).order

/-- It ends with the root. -/
theorem getLast?_uniqueWalk (e : Expr) : e.uniqueWalk.getLast? = some e := by
  rw [uniqueWalk, List.getLast?_reverse]
  cases e with
  | binary id settled op l r =>
    rw [walkFrom_binary Std.HashSet.not_mem_empty]
    rfl
  | _ => rw [walkFrom_leaf rfl Std.HashSet.not_mem_empty, List.head?_cons]

/-! ## What is reached -/

/-- A node that is reached from another one over operands. -/
def Reaches : Expr → Expr → Prop := Relation.ReflTransGen fun e n => n ∈ e.operands

theorem operands_nodes {n m : Expr} (hm : m ∈ n.operands) : m ∈ n.nodes := by
  cases n with
  | binary id settled op l r =>
    rw [mem_nodes_binary]
    rcases mem_operands_binary.1 hm with rfl | rfl
    · exact .inr (.inl m.self_mem_nodes)
    · exact .inr (.inr m.self_mem_nodes)
  | _ => cases hm

/-- The nodes of an expression are what its root reaches. -/
theorem mem_nodes_iff_reaches {n : Expr} : n ∈ e.nodes ↔ e.Reaches n := by
  constructor
  · intro hn
    induction e with
    | binary id settled op l r ihl ihr =>
      rcases mem_nodes_binary.1 hn with rfl | hn | hn
      · exact .refl
      · exact .head (b := l) (mem_operands_binary.2 (.inl rfl)) (ihl hn)
      · exact .head (b := r) (mem_operands_binary.2 (.inr rfl)) (ihr hn)
    | _ =>
      obtain rfl := List.mem_singleton.1 hn
      exact .refl
  · intro hn
    induction hn with
    | refl => exact e.self_mem_nodes
    | tail _ hm ih => exact mem_nodes_trans (operands_nodes hm) ih

/-! ## The inputs -/

/-- Both ends of the span are positions of inputs. -/
theorem mentions_inputSpan {lo hi : Nat} (hspan : e.inputSpan = some (lo, hi)) :
    e.Mentions lo ∧ e.Mentions hi := by
  induction e generalizing lo hi with
  | literal id value => cases hspan
  | input id index =>
    cases hspan
    exact ⟨mentions_input.2 rfl, mentions_input.2 rfl⟩
  | binary id settled op l r ihl ihr =>
    rw [inputSpan_binary] at hspan
    simp only [mentions_binary]
    rcases hl : l.inputSpan with _ | ⟨a, b⟩ <;> rcases hr : r.inputSpan with _ | ⟨c, d⟩ <;>
      rw [hl, hr] at hspan <;> cases hspan
    · exact (ihr hr).imp .inr .inr
    · exact (ihl hl).imp .inl .inl
    · obtain ⟨ha, hb⟩ := ihl hl
      obtain ⟨hc, hd⟩ := ihr hr
      constructor
      · rcases Nat.le_total a c with hle | hle
        · rw [Nat.min_eq_left hle]
          exact .inl ha
        · rw [Nat.min_eq_right hle]
          exact .inr hc
      · rcases Nat.le_total b d with hle | hle
        · rw [Nat.max_eq_right hle]
          exact .inr hd
        · rw [Nat.max_eq_left hle]
          exact .inl hb

/-- The first of ascending positions is the least. -/
theorem head?_of_ascending {is : List Nat} {lo : Nat} (his : is.Pairwise (· < ·)) (hlo : lo ∈ is)
    (hle : ∀ i ∈ is, lo ≤ i) : is.head? = some lo := by
  cases is with
  | nil => cases hlo
  | cons i is =>
    have hfirst := hle i List.mem_cons_self
    rcases List.mem_cons.1 hlo with rfl | hlo
    · rfl
    · have hlt := List.rel_of_pairwise_cons his hlo
      omega

/-- The last of ascending positions is the greatest. -/
theorem getLast?_of_ascending {is : List Nat} {hi : Nat} (his : is.Pairwise (· < ·))
    (hhi : hi ∈ is) (hle : ∀ i ∈ is, i ≤ hi) : is.getLast? = some hi := by
  rcases List.eq_nil_or_concat is with rfl | ⟨is, i, rfl⟩
  · cases hhi
  · rw [List.concat_eq_append] at his hhi hle ⊢
    have hlast := hle i (List.mem_append_right _ List.mem_cons_self)
    rw [List.getLast?_concat]
    rcases List.mem_append.1 hhi with hhi | hhi
    · have hlt := (List.pairwise_append.1 his).2.2 hi hhi i List.mem_cons_self
      omega
    · rw [List.mem_singleton.1 hhi]

/-- The span goes from the first input position to the last one. -/
theorem inputSpan_eq (he : h.Holds e) :
    e.inputSpan = do return (← e.inputIndices.head?, ← e.inputIndices.getLast?) := by
  have hasc := e.pairwise_inputIndices
  have hbetween {i : Nat} (hi : i ∈ e.inputIndices) := mem_inputSpan ((mem_inputIndices he).1 hi)
  rcases hspan : e.inputSpan with _ | ⟨lo, hi⟩
  · cases his : e.inputIndices with
    | nil => rfl
    | cons i is =>
      obtain ⟨lo, hi, hsome, -⟩ := hbetween (i := i) (his ▸ List.mem_cons_self)
      cases hspan.symm.trans hsome
  · obtain ⟨hlo, hhi⟩ := mentions_inputSpan hspan
    have hends (i : Nat) (hi' : i ∈ e.inputIndices) : lo ≤ i ∧ i ≤ hi := by
      obtain ⟨lo', hi', hsome, hends⟩ := hbetween hi'
      cases hspan.symm.trans hsome
      exact hends
    rw [head?_of_ascending hasc ((mem_inputIndices he).2 hlo) fun i hi => (hends i hi).1,
      getLast?_of_ascending hasc ((mem_inputIndices he).2 hhi) fun i hi => (hends i hi).2]
    rfl

/-- The unique walk, made with a stack, meets each node that is reached from
    the root once, after its operands, and the root last.  It meets the nodes
    on the paths from the root; so the input positions are those on a path, in
    strict order, and the span goes from the first to the last of them. -/
theorem uniqueWalk_postOrder (hgraph : Coherent [e]) :
    (Walk.drain ⟨∅, []⟩ [.enter e]).left.reverse = e.uniqueWalk ∧
      PostOrder e.uniqueWalk ∧ e.uniqueWalk.getLast? = some e ∧
      (∀ n, n ∈ e.uniqueWalk ↔ e.Reaches n) ∧ (∀ n, n ∈ e.uniqueWalk ↔ n ∈ e.pathWalk) ∧
      e.inputIndices.Pairwise (· < ·) ∧
      (∀ i, i ∈ e.inputIndices ↔ ∃ n ∈ e.pathWalk, n.input? = some i) ∧
      e.inputSpan = do return (← e.inputIndices.head?, ← e.inputIndices.getLast?) := by
  obtain ⟨h, he⟩ := Heap.exists_holds_root hgraph
  refine ⟨?_, postOrder_uniqueWalk he, getLast?_uniqueWalk e, fun n => ?_,
    fun n => mem_uniqueWalk he, pairwise_inputIndices e, fun i => mem_inputIndices he,
    inputSpan_eq he⟩
  · rw [Walk.drain_enter, Walk.drain_nil, uniqueWalk]
  · rw [mem_uniqueWalk he, mem_nodes_iff_reaches]

/-- The square of a sum, with the sum shared: seven nodes on paths, and four
    that the walk meets. -/
theorem uniqueWalk_postOrder_square :
    let sum := binary 2 false .add (.input 0 0) (.input 1 1)
    let square := binary 3 false .mul sum sum
    Coherent [square] ∧ square.pathWalk.length = 7 ∧
      (square.uniqueWalk.map id).Perm [0, 1, 2, 3] ∧ square.uniqueWalk.getLast? = some square ∧
      square.inputIndices = [0, 1] := by
  intro sum square
  have hgraph : Coherent [square] := by
    simp [square, sum, Coherent, nodes, id]
  obtain ⟨-, horder, hlast, -, hpath, hasc, hinputs, -⟩ := uniqueWalk_postOrder hgraph
  refine ⟨hgraph, rfl, (List.perm_ext_iff_of_nodup horder.once (by decide)).2 fun i => ?_, hlast,
    hasc.eq_of_mem_iff (by decide) fun i => ?_⟩
  · simp only [List.mem_map, hpath]
    simp only [pathWalk, square, sum, nodes, id, List.cons_append, List.nil_append, List.mem_cons,
      List.not_mem_nil, or_false, exists_eq_or_imp, exists_eq_left]
    omega
  · simp only [hinputs, pathWalk, square, sum, nodes, input?, List.cons_append, List.nil_append,
      List.mem_cons, List.not_mem_nil, or_false, exists_eq_or_imp, exists_eq_left,
      Option.some.injEq, reduceCtorEq, false_or]
    omega

end InputSolver.Expr
