/-
  InputSolver — normal forms after any requests and searches.

  What a graph remembers, and which nodes are settled, decides neither whether
  an expression folds to its value nor whether a normal form is one.

  * `simplify_of_evaluate`: under an assignment that gives an expression a value
    the expression is simplified to the literal of that value;
  * `rebuild` makes a new node for every node of an expression, none of them
    known to be in normal form;
  * `normalize_rebuilt`: whatever a simplification leaves is rebuilt to
    something that normalizes to the same shape, and so is every part of it.
-/
import InputSolver.Proofs.Search.History

namespace InputSolver

open InputSolver.Expr GraphM

/-! ## Folding -/

/-- An operator on literals is folded, unless it divides by zero. -/
theorem Tree.operation_literals {op : Operator} {x y v : Word} (h : op.apply x y = .ok v) :
    Tree.operation op (.literal x) (.literal y) = .ok (.literal v) := by
  cases op with
  | add | mul | eql =>
    cases h
    rfl
  | div =>
    obtain ⟨hy, rfl⟩ := Normal.div_eq_ok h
    change ((Normal.divLiteral none 1 y (.literal 0 x) 2).map _) = _
    rw [Normal.divLiteral.eq_def, if_neg hy]
    rfl
  | mod =>
    obtain ⟨hy, rfl⟩ := Normal.mod_eq_ok h
    change ((Normal.modLiteral none 1 y (.literal 0 x) 2).map _) = _
    rw [Normal.modLiteral.eq_def, if_neg hy]
    rfl

/-- With every input bound, what is left of an expression is its value, whatever
    words the inputs are bound to. -/
theorem Expr.simplified_of_valueOn {a : Assignment} {e : Expr} {v : Word}
    (hv : valueOn a e = .ok v) : e.tree.simplified a = .ok (.literal v) := by
  induction e generalizing v with
  | literal id value =>
    cases hv
    rfl
  | input id index =>
    rw [tree_input, Tree.simplified, valueOn_input.1 hv]
  | binary id settled op l r ihl ihr =>
    obtain ⟨x, y, hx, hy, hxy⟩ := valueOn_binary.1 hv
    rw [tree_binary, Tree.simplified, ihl hx, ihr hy]
    exact Tree.operation_literals hxy

/-! ## Rebuilding -/

namespace Expr

/-- The new nodes made so far, by the identity of the node they stand for. -/
abbrev Rebuilt := Std.HashMap Nat Expr

/-- Makes the new node for an identity, unless there is one. -/
def rebuildOnce (id : Nat) (make : StateT Rebuilt Build Expr) : StateT Rebuilt Build Expr := do
  match (← get)[id]? with
  | some c => return c
  | none =>
    let c ← make
    modify (·.insert id c)
    return c

/-- A new node for each node of an expression, by the nodes made so far. -/
def rebuildWith : Expr → StateT Rebuilt Build Expr
  | literal id value => rebuildOnce id (Build.literal value)
  | input id index => rebuildOnce id (Build.input index)
  | binary id _ op l r => rebuildOnce id do
    let l' ← rebuildWith l
    let r' ← rebuildWith r
    Build.binary op l' r'

/-- The expression rebuilt from new nodes, one for each node. -/
def rebuild (e : Expr) : Build Expr := (rebuildWith e).run' ∅

/-- Whether a node was made in normal form. -/
def isSettled : Expr → Bool
  | binary _ settled .. => settled
  | _ => false

/-- All nodes have identities from `first` on, and none was made in normal
    form. -/
def NewFrom (first : Nat) (e : Expr) : Prop :=
  ∀ n ∈ e.nodes, first ≤ n.id ∧ n.isSettled = false

theorem NewFrom.marked {first : Nat} {e : Expr} (he : e.NewFrom first) : e.Marked := by
  induction e with
  | binary id settled op l r ihl ihr =>
    have hself := (he _ (self_mem_nodes _)).2
    refine ⟨fun hsettled => ?_, ihl fun n hn => he n (mem_nodes_binary.2 (.inr (.inl hn))),
      ihr fun n hn => he n (mem_nodes_binary.2 (.inr (.inr hn)))⟩
    cases hself.symm.trans hsettled
  | _ => trivial

/-- `c` is an expression of new nodes with the tree of `e`. -/
structure IsRebuilt (first : Nat) (h : Heap) (e c : Expr) : Prop where
  holds : h.Holds c
  new : c.NewFrom first
  tree : c.tree = e.tree

variable {first : Nat} {h k : Heap} {e c : Expr} {memo : Rebuilt}

theorem IsRebuilt.mono (hc : IsRebuilt first h e c) (hle : h ≤ k) : IsRebuilt first k e c :=
  ⟨hc.holds.mono hle, hc.new, hc.tree⟩

/-- The new nodes stand for the nodes of their identities. -/
def Rebuilt.Sound (first : Nat) (h : Heap) (memo : Rebuilt) : Prop :=
  ∀ (id : Nat) (c : Expr), memo[id]? = some c → id < h.next ∧ IsRebuilt first h (h.node id) c

theorem Rebuilt.Sound.mono (hm : memo.Sound first h) (hle : h ≤ k) : memo.Sound first k := by
  intro id c hc
  obtain ⟨hid, hcopy⟩ := hm id c hc
  rw [hle.2 id hid]
  exact ⟨Nat.lt_of_lt_of_le hid hle.1, hcopy.mono hle⟩

theorem Rebuilt.Sound.insert (hm : memo.Sound first h) (he : h.Holds e)
    (hc : IsRebuilt first h e c) :
    Rebuilt.Sound first h (Std.HashMap.insert memo e.id c) := by
  intro id d hd
  rw [Std.HashMap.getElem?_insert] at hd
  split at hd
  · rename_i heq
    cases hd
    rw [← eq_of_beq heq, he.self.2]
    exact ⟨he.self.1, hc⟩
  · exact hm id d hd

/-- The new node of `e`, and those of the nodes met before. -/
def Rebuilds (first : Nat) (e : Expr) (k : Heap) (r : Expr × Rebuilt) : Prop :=
  r.2.Sound first k ∧ IsRebuilt first k e r.1

theorem rebuildOnce_meets {make : StateT Rebuilt Build Expr} (he : h.Holds e)
    (hm : memo.Sound first h) (hmake : (make.run memo).Meets h True (Rebuilds first e)) :
    ((rebuildOnce e.id make).run memo).Meets h True (Rebuilds first e) := by
  have hrun : (rebuildOnce e.id make).run memo = match memo[e.id]? with
      | some c => return (c, memo)
      | none => do
        let (c, memo) ← make.run memo
        return (c, memo.insert e.id c) := by
    change (match memo[e.id]? with
      | some c => return c
      | none => _ : StateT Rebuilt Build Expr).run memo = _
    cases memo[e.id]? <;> rfl
  rw [hrun]
  cases hmemo : memo[e.id]? with
  | some c =>
    obtain ⟨-, hc⟩ := hm e.id c hmemo
    rw [he.self.2] at hc
    exact Build.meets_pure ⟨hm, hc⟩
  | none =>
    refine hmake.bind fun k r hle hr => Build.meets_pure ?_
    exact ⟨hr.1.insert (he.mono hle) hr.2, hr.2⟩

/-- A node that is made, and no others. -/
theorem rebuilds_of_made {make : Build Expr} (hm : memo.Sound first h)
    (hmake : make.Meets h True (IsRebuilt first · e ·)) :
    ((liftM make : StateT Rebuilt Build Expr).run memo).Meets h True (Rebuilds first e) := by
  change (do return (← make, memo) : Build (Expr × Rebuilt)).Meets h True _
  exact hmake.bind fun k c hle hc => Build.meets_pure ⟨hm.mono hle, hc⟩

theorem rebuildWith_meets (he : h.Holds e) (hfirst : first ≤ h.next) (hm : memo.Sound first h) :
    ((rebuildWith e).run memo).Meets h True (Rebuilds first e) := by
  induction e generalizing h memo with
  | literal id value =>
    refine rebuildOnce_meets he hm (rebuilds_of_made hm ?_)
    refine (Build.meets_identity (Q := fun k i => h.next ≤ i ∧ k.Holds (.literal i value))
      ⟨Nat.le_refl _, h.holds_push_literal value⟩).bind fun k i _ hi => Build.meets_pure ?_
    refine ⟨hi.2, fun n hn => ?_, rfl⟩
    obtain rfl := List.mem_singleton.1 hn
    exact ⟨Nat.le_trans hfirst hi.1, rfl⟩
  | input id index =>
    refine rebuildOnce_meets he hm (rebuilds_of_made hm ?_)
    refine (Build.meets_identity (Q := fun k i => h.next ≤ i ∧ k.Holds (.input i index))
      ⟨Nat.le_refl _, h.holds_push_input index⟩).bind fun k i _ hi => Build.meets_pure ?_
    refine ⟨hi.2, fun n hn => ?_, rfl⟩
    obtain rfl := List.mem_singleton.1 hn
    exact ⟨Nat.le_trans hfirst hi.1, rfl⟩
  | binary id settled op l r ihl ihr =>
    refine rebuildOnce_meets he hm ?_
    change (do
      let p ← (rebuildWith l).run memo
      let q ← (rebuildWith r).run p.2
      (liftM (Build.binary op p.1 q.1) : StateT Rebuilt Build Expr).run q.2).Meets h True _
    refine (ihl he.left hfirst hm).bind fun k₁ p hle₁ hp => ?_
    obtain ⟨hm₁, hl⟩ := hp
    have hfirst₁ := Nat.le_trans hfirst hle₁.1
    refine (ihr (he.right.mono hle₁) hfirst₁ hm₁).bind fun k₂ q hle₂ hq => ?_
    obtain ⟨hm₂, hr⟩ := hq
    replace hl := hl.mono hle₂
    refine rebuilds_of_made hm₂ ?_
    refine (Build.meets_identity
      (Q := fun k i => k₂.next ≤ i ∧ k.Holds (.binary i false op p.1 q.1))
      ⟨Nat.le_refl _, k₂.holds_push_binary hl.holds hr.holds false op⟩).bind
      fun k i _ hi => Build.meets_pure ?_
    refine ⟨hi.2, fun n hn => ?_, by rw [tree_binary, tree_binary, hl.tree, hr.tree]⟩
    rcases mem_nodes_binary.1 hn with rfl | hn | hn
    · exact ⟨Nat.le_trans (Nat.le_trans hfirst₁ hle₂.1) hi.1, rfl⟩
    · exact hl.new n hn
    · exact hr.new n hn

/-- Rebuilding gives an expression of the same tree, all of new nodes. -/
theorem rebuild_meets (he : h.Holds e) :
    e.rebuild.Meets h True (IsRebuilt h.next · e ·) := by
  have hempty : Rebuilt.Sound h.next h ∅ := by
    intro id c hc
    rw [Std.HashMap.getElem?_empty] at hc
    cases hc
  change ((fun r : Expr × Rebuilt => r.1) <$> (rebuildWith e).run ∅ : Build Expr).Meets h True _
  rw [map_eq_pure_bind]
  exact (rebuildWith_meets he (Nat.le_refl _) hempty).bind fun k r _ hr => Build.meets_pure hr.2

end Expr

/-- Every part of a normal expression is normal. -/
theorem Normal.NormalIn.of_mem {h : Heap} {n m : Expr} (hn : NormalIn h n) (hm : m ∈ n.nodes) :
    NormalIn h m := by
  induction n with
  | binary id settled op l r ihl ihr =>
    rcases mem_nodes_binary.1 hm with rfl | hm | hm
    · exact hn
    · exact ihl hn.left hm
    · exact ihr hn.right hm
  | _ =>
    obtain rfl := List.mem_singleton.1 hm
    exact hn

/-! ## After any requests and searches -/

namespace Graph.Used

variable {g g' : Graph} {answers : List Expr} {e : Expr}

/-- Where an expression has a value, the literal of this value is what is left
    of it, whatever words the inputs are bound to and whatever the graph
    remembers. -/
theorem simplify_of_evaluate (hg : g.Used answers) (he : Known answers e) {a : Assignment}
    {v : Word} (hv : e.evaluate a = .ok v) :
    ∃ id g', (simplify a e).run.run g = (.ok (.literal id v), g') := by
  obtain ⟨h, hcanonical, hknown⟩ := hg.canonical
  obtain ⟨hholds, hmarked⟩ := hknown e he
  rw [evaluate_eq_valueOn hholds] at hv
  obtain ⟨k, -, -, hanswer⟩ := simplify_gives (p := a) hholds hmarked g hcanonical
  rw [simplified_of_valueOn hv] at hanswer
  obtain ⟨s, hs, -, htree⟩ := hanswer
  obtain ⟨id, rfl⟩ := tree_eq_literal.1 htree
  exact ⟨id, _, Prod.ext hs rfl⟩

/-- With digits as inputs the example is its leading input, and its graph may
    remember so; the words 1000 and -7 give it the value 999 all the same. -/
theorem simplify_of_evaluate_leadingInput :
    let e := Graph.Reachable.leadingInput
    let g := ((simplify .empty e).run.run ⟨6, ∅⟩).2
    (∃ answers, g.Used answers ∧ Known answers e) ∧
      e.evaluate (.ofDigits [1000, -7]) = .ok 999 ∧
      ∃ id g', (simplify (.ofDigits [1000, -7]) e).run.run g = (.ok (.literal id 999), g') := by
  intro e g
  obtain ⟨answers, hstart, he⟩ := Graph.Reachable.reachable_leadingInput
  obtain ⟨answers', hg, he'⟩ : ∃ answers, g.Used answers ∧ Known answers e := by
    have hsubjects : ∀ f ∈ (Request.simplify .empty e).subjects, Known answers f :=
      List.forall_mem_singleton.2 he
    cases hanswer : ((simplify .empty e).run.run ⟨6, ∅⟩).1 with
    | error fault => exact ⟨_, .failed _ hstart.used hsubjects (Prod.ext hanswer rfl), he⟩
    | ok n =>
      obtain ⟨f, hf, hmem⟩ := he
      exact ⟨_, .answered _ hstart.used hsubjects (Prod.ext hanswer rfl), f,
        List.mem_cons_of_mem _ hf, hmem⟩
  have hvalue : e.evaluate (.ofDigits [1000, -7]) = .ok 999 := by
    obtain ⟨h, -, hknown⟩ := hg.canonical
    rw [evaluate_eq_valueOn (hknown e he').1]
    rfl
  exact ⟨⟨answers', hg, he'⟩, hvalue, simplify_of_evaluate hg he' hvalue⟩

/-- A part of what a simplification left, rebuilt from new nodes that the graph
    knows no normal form of, normalizes to the shape it had. -/
theorem normalize_rebuilt (hg : g.Used answers) (he : Known answers e) {p : Assignment} {n : Expr}
    (hrun : (simplify p e).run.run g = (.ok n, g')) {m : Expr} (hm : m ∈ n.nodes) :
    ∃ c g₁, (build m.rebuild).run.run g' = (.ok c, g₁) ∧ c.tree = m.tree ∧
      (∀ k ∈ c.nodes, g'.next ≤ k.id ∧
        (k.isLeaf = false → (normalForm? k).run.run g₁ = (.ok none, g₁))) ∧
      ∃ n' g₂, (normalize c).run.run g₁ = (.ok n', g₂) ∧ n'.tree = m.tree ∧
        n'.alike m = true := by
  obtain ⟨h, hcanonical, hknown⟩ := hg.canonical
  obtain ⟨hholds, hmarked⟩ := hknown e he
  obtain ⟨h₁, -, hg', hpost⟩ := (simplify_gives (p := p) hholds hmarked).post hcanonical
  rw [hrun] at hg' hpost
  obtain ⟨_, hn, -⟩ := hpost n rfl
  have hnormal := hn.of_mem hm
  obtain ⟨c, next, hc⟩ := (rebuild_meets hnormal.holds).ok trivial
  obtain ⟨h₂, hle, rfl, hrebuilt⟩ := (rebuild_meets hnormal.holds).post hc
  have hg₁ := hg'.extend hle
  refine ⟨c, { g' with next := h₂.next }, ?_, hrebuilt.tree, fun k hk => ?_, ?_⟩
  · rw [run_build, hg'.next, hc]
  · obtain ⟨hfirst, hunsettled⟩ := hrebuilt.new k hk
    refine ⟨hg'.next ▸ hfirst, fun hleaf => ?_⟩
    cases k with
    | binary id settled op l r =>
      obtain rfl : settled = false := hunsettled
      have hnone : g'.normal[id]? = none := by
        by_contra hsome
        obtain ⟨s, hs⟩ := Option.ne_none_iff_exists'.1 hsome
        have := (hg'.normal hs).1
        change h₁.next ≤ id at hfirst
        omega
      change (Except.ok g'.normal[id]?, _) = _
      rw [hnone]
    | _ => cases hleaf
  · obtain ⟨h₃, -, -, hanswer⟩ :=
      normalize_gives hrebuilt.holds hrebuilt.new.marked _ hg₁
    rw [hrebuilt.tree, hnormal.tree.simplified_empty] at hanswer
    obtain ⟨n', hn', -, htree⟩ := hanswer
    exact ⟨n', _, Prod.ext hn' rfl, htree, compareWith_of_tree htree ∅⟩

/-- What the second digit leaves of the dividend of the example. -/
theorem normalize_rebuilt_dividend :
    let e : Expr := .binary 4 false .add (.binary 2 false .mul (.input 0 0) (.literal 1 26))
      (.input 3 1)
    ∃ n g', (simplify (Assignment.empty.bind 1 5) e).run.run ⟨6, ∅⟩ = (.ok n, g') ∧
      ∀ m ∈ n.nodes, ∃ c g₁, (build m.rebuild).run.run g' = (.ok c, g₁) ∧ c.tree = m.tree ∧
        (∀ k ∈ c.nodes, g'.next ≤ k.id ∧
          (k.isLeaf = false → (normalForm? k).run.run g₁ = (.ok none, g₁))) ∧
        ∃ n' g₂, (normalize c).run.run g₁ = (.ok n', g₂) ∧ n'.tree = m.tree ∧
          n'.alike m = true := by
  intro e
  obtain ⟨answers, hg, f, hf, hmem⟩ := Graph.Reachable.reachable_leadingInput
  have he : Known answers e := ⟨f, hf, mem_nodes_trans
    (mem_nodes_binary.2 (.inr (.inl (self_mem_nodes e)))) hmem⟩
  obtain ⟨h, hsound, hknown⟩ := hg.sound
  obtain ⟨-, -, -, -, hok⟩ :=
    simplify_meets (p := Assignment.empty.bind 1 5) (hknown e he) _ hsound
  obtain ⟨n, hn⟩ := hok ⟨by decide, by decide⟩
  exact ⟨n, _, Prod.ext hn rfl, fun m hm => normalize_rebuilt hg.used he (Prod.ext hn rfl) hm⟩

end Graph.Used

end InputSolver
