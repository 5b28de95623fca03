/-
  InputSolver — normal forms of trees.

  `Tree.operation` is the normal form of an operation on trees: the operations
  on normal forms give it for every copy of the operands, however these share
  nodes.  A tree is `Normal` if each node in it is the normal form of its
  operator and operands.

  * `operation_grows`: what an operation does, up to identities;
  * `operation_normal`: an operation on normal operands gives a normal
    expression.
-/
import InputSolver.Proofs.Normal.Sharing

namespace InputSolver

open InputSolver.Expr InputSolver.Build

namespace Tree

/-- A new expression of a tree, in which no nodes are shared. -/
def grow : Tree → Build Expr
  | literal value => Build.literal value
  | input index => Build.input index
  | binary op s t => do Build.binary op (← s.grow) (← t.grow)

theorem grow_meets (t : Tree) (h : Heap) :
    t.grow.Meets h True fun k e => k.Holds e ∧ e.tree = t := by
  induction t generalizing h with
  | literal value => exact meets_literal fun _ _ _ hid => ⟨hid, rfl⟩
  | input index =>
    exact (meets_identity (h.holds_push_input index)).bind fun k id _ hid => meets_pure ⟨hid, rfl⟩
  | binary op s t ihs iht =>
    refine (ihs h).bind fun h₁ l hle₁ hl => ?_
    refine (iht h₁).bind fun h₂ r hle₂ hr => ?_
    obtain ⟨hl, rfl⟩ := hl
    obtain ⟨hr, rfl⟩ := hr
    exact (meets_identity (h₂.holds_push_binary (hl.mono hle₂) hr false op)).bind
      fun k id _ hid => meets_pure ⟨hid, rfl⟩

/-- The normal form of an operator on trees in normal form. -/
def operation (op : Operator) (s t : Tree) : Except Fault Tree :=
  let x : Build Expr := do Normal.operation none op (← s.grow) (← t.grow)
  (x 0).map fun r => r.1.tree

/-- Every node is the normal form of its operator and operands. -/
def Normal : Tree → Prop
  | binary op s t => operation op s t = .ok (binary op s t) ∧ s.Normal ∧ t.Normal
  | _ => True

end Tree

namespace Normal

variable {h k : Heap} {op : Operator} {reuse? : Option Expr} {l r e : Expr}

/-- An operation gives the normal form of the operands' trees. -/
theorem operation_grows (hreuse : Reusable h op reuse?) (hl : h.Holds l) (hr : h.Holds r) :
    (operation reuse? op l r).Grows h (Tree.operation op l.tree r.tree) := by
  obtain ⟨l', k₁, hrun₁, -, hl', htree₁⟩ := (l.tree.grow_meets Heap.empty).grows
  obtain ⟨r', k₂, hrun₂, hle, hr', htree₂⟩ := (r.tree.grow_meets k₁).grows
  have hgrown : Tree.operation op l.tree r.tree =
      (operation none op l' r' k₂.next).map fun r => r.1.tree := by
    have hrun : (do operation none op (← l.tree.grow) (← r.tree.grow) : Build Expr) 0 =
        operation none op l' r' k₂.next := by
      change (l.tree.grow 0 >>= fun p => r.tree.grow p.2 >>= fun q =>
        operation none op p.1 q.1 q.2) = _
      rw [show l.tree.grow 0 = _ from hrun₁]
      change (r.tree.grow k₁.next >>= fun q => operation none op l' q.1 q.2) = _
      rw [hrun₂]
      rfl
    rw [Tree.operation, hrun]
  rw [hgrown]
  exact (operation_agree hreuse (reusable_none k₂ op) ⟨hl, hl'.mono hle, htree₁.symm⟩
    ⟨hr, hr', htree₂.symm⟩).grows

/-- An expression of the heap whose tree is normal. -/
structure NormalIn (h : Heap) (e : Expr) : Prop where
  holds : h.Holds e
  tree : e.tree.Normal

theorem NormalIn.mono (he : NormalIn h e) (hle : h ≤ k) : NormalIn k e :=
  ⟨he.holds.mono hle, he.tree⟩

section Operands

variable {id : Nat} {settled : Bool}

theorem NormalIn.left (he : NormalIn h (.binary id settled op l r)) : NormalIn h l :=
  ⟨he.holds.left, he.tree.2.1⟩

theorem NormalIn.right (he : NormalIn h (.binary id settled op l r)) : NormalIn h r :=
  ⟨he.holds.right, he.tree.2.2⟩

end Operands

theorem normalIn_literal {id : Nat} {value : Word} (hid : h.Holds (.literal id value)) :
    NormalIn h (.literal id value) := ⟨hid, trivial⟩

theorem literal_normal (value : Word) : (literal value).Meets h False NormalIn :=
  meets_literal fun _ _ _ hid => normalIn_literal hid

/-- A normal expression, or the operator on the operands. -/
def Closes (op : Operator) (l r : Expr) (h : Heap) (e : Expr) : Prop :=
  h.Holds e ∧ (e.tree.Normal ∨ e.tree = .binary op l.tree r.tree)

theorem closes_of_normal {x : Build Expr} (hx : x.Meets h False NormalIn) :
    x.Meets h False (Closes op l r) :=
  hx.imp (fun hp => hp) fun _ _ _ he => ⟨he.holds, .inl he.tree⟩

/-- What an operation makes of normal operands is normal, if it is the operator
    on them or normal anyway. -/
theorem normal_of_closes (hreuse : Reusable h op reuse?) (hl : NormalIn h l) (hr : NormalIn h r)
    (hx : (operation reuse? op l r).Meets h False (Closes op l r)) :
    (operation reuse? op l r).Meets h False NormalIn where
  ok := False.elim
  post {e next} hrun := by
    obtain ⟨k, hle, hnext, hk, hnormal | htree⟩ := hx.post hrun
    · exact ⟨k, hle, hnext, hk, hnormal⟩
    · refine ⟨k, hle, hnext, hk, ?_⟩
      have hgrows := operation_grows hreuse hl.holds hr.holds
      cases hop : Tree.operation op l.tree r.tree with
      | error fault =>
        rw [hop] at hgrows
        cases hrun.symm.trans hgrows
      | ok t =>
        rw [hop] at hgrows
        obtain ⟨e', k', hrun', -, -, rfl⟩ := hgrows
        cases hrun.symm.trans hrun'
        rw [htree] at hop ⊢
        exact ⟨hop, hl.tree, hr.tree⟩

theorem node_closes (hreuse : Reusable h op reuse?) (hl : NormalIn h l) (hr : NormalIn h r) :
    (node reuse? op l r).Meets h False (Closes op l r) := by
  refine (node_eq hreuse hl.holds hr.holds).imp (fun hp => hp) ?_
  rintro k e _ ⟨he, _, _, rfl⟩
  exact ⟨he, .inr rfl⟩

theorem finish_closes (hreuse : Reusable h op reuse?) (hl : NormalIn h l) (hr : NormalIn h r) :
    (finish reuse? op l r).Meets h False (Closes op l r) := by
  refine (node_closes hreuse hl hr).bind fun k e _ he => ?_
  refine Meets.lift_bind fun range _ => ?_
  split
  · exact closes_of_normal (literal_normal _)
  · exact meets_pure he

/-! ## Sums -/

/-- A literal that meets no other literal. -/
theorem addOuter_closes (hreuse : Reusable h .add reuse?) {id : Nat} {c : Word}
    (hid : h.Holds (.literal id c)) (hl : NormalIn h l) :
    (if c = 0 then return l else finish reuse? .add l (.literal id c) : Build Expr).Meets h False
      (Closes .add l (.literal id c)) := by
  split
  · exact closes_of_normal (meets_pure hl)
  · exact finish_closes hreuse hl (normalIn_literal hid)

theorem addLiteral_normal (hreuse : Reusable h .add reuse?) {id : Nat} {c : Word}
    (hid : h.Holds (.literal id c)) (hl : NormalIn h l) :
    (addLiteral reuse? id c l).Meets h False NormalIn := by
  induction l generalizing h reuse? id c with
  | literal => exact literal_normal _
  | input =>
    exact normal_of_closes hreuse hl (normalIn_literal hid) (addOuter_closes hreuse hid hl)
  | binary i settled op x r ihx =>
    have outer := addOuter_closes hreuse hid hl
    have closed := normal_of_closes hreuse hl (normalIn_literal hid)
    cases op with
    | add =>
      cases r with
      | literal j b =>
        simp only [addLiteral]
        split
        · exact meets_pure hl
        · exact Meets.identity_bind (b + c) fun k n hle hn =>
            ihx (reusable_none k .add) hn (hl.left.mono hle)
      | _ => exact closed outer
    | _ => exact closed outer

/-- Operands of which none is a literal on the right or a sum with one. -/
theorem addOther_closes (hreuse : Reusable h .add reuse?) :
    NormalIn h l → NormalIn h r → (match l with
      | .literal lid a => addLiteral none lid a r
      | _ => finish reuse? .add l r : Build Expr).Meets h False (Closes .add l r) := by
  intro hl hr
  cases l with
  | literal => exact closes_of_normal (addLiteral_normal (reusable_none h .add) hl.holds hr)
  | _ => exact finish_closes hreuse hl hr

theorem add_normal (hreuse : Reusable h .add reuse?) (hl : NormalIn h l) (hr : NormalIn h r) :
    (add reuse? l r).Meets h False NormalIn := by
  induction r generalizing h reuse? l with
  | literal id c => exact addLiteral_normal hreuse hr.holds hl
  | input => exact normal_of_closes hreuse hl hr (addOther_closes hreuse hl hr)
  | binary i settled op y z ihy =>
    have closed := normal_of_closes hreuse hl hr
    have other := addOther_closes hreuse hl hr
    cases op with
    | add =>
      cases z with
      | literal id c =>
        have inner : (do addLiteral none id c (← add none l y) : Build Expr).Meets h False
            NormalIn :=
          (ihy (reusable_none h .add) hl hr.left).bind fun k e hle he =>
            addLiteral_normal (reusable_none k .add) (hr.right.holds.mono hle) he
        cases l with
        | literal => exact addLiteral_normal (reusable_none h .add) hl.holds hr
        | _ => exact inner
      | _ => exact closed other
    | _ => exact closed other

theorem foldlM_add_normal {ts : List Expr} (hts : ∀ t ∈ ts, NormalIn h t) (hl : NormalIn h l) :
    (ts.foldlM (add none) l).Meets h False NormalIn := by
  induction ts generalizing h l with
  | nil => exact meets_pure hl
  | cons t ts ih =>
    rw [List.foldlM_cons]
    refine (add_normal (reusable_none h .add) hl (hts t List.mem_cons_self)).bind
      fun k e hle he => ?_
    exact ih (fun t ht => (hts t (List.mem_cons_of_mem _ ht)).mono hle) he

theorem sumOf_normal {ts : List Expr} (hts : ∀ t ∈ ts, NormalIn h t) :
    (sumOf ts).Meets h False NormalIn := by
  cases ts with
  | nil => exact literal_normal 0
  | cons t ts =>
    exact foldlM_add_normal (fun t ht => hts t (List.mem_cons_of_mem _ ht))
      (hts t List.mem_cons_self)

/-! ## Products -/

theorem mulLiteral_normal (hreuse : Reusable h .mul reuse?) {id : Nat} {c : Word}
    (hid : h.Holds (.literal id c)) (hl : NormalIn h l) :
    (mulLiteral reuse? id c l).Meets h False NormalIn := by
  induction l generalizing h reuse? id c with
  | literal => exact literal_normal _
  | input =>
    refine normal_of_closes hreuse hl (normalIn_literal hid) ?_
    change (mulLiteral reuse? id c _).Meets h False _
    simp only [mulLiteral]
    split
    · exact closes_of_normal (literal_normal 0)
    split
    · exact closes_of_normal (meets_pure hl)
    · exact finish_closes hreuse hl (normalIn_literal hid)
  | binary i settled op x r ihx ihr =>
    refine normal_of_closes hreuse hl (normalIn_literal hid) ?_
    change (mulLiteral reuse? id c _).Meets h False _
    rw [mulLiteral.eq_def]
    simp only []
    split
    · exact closes_of_normal (literal_normal 0)
    split
    · exact closes_of_normal (meets_pure hl)
    have other := finish_closes hreuse hl (normalIn_literal hid)
    cases op with
    | add =>
      refine closes_of_normal ((ihx (reusable_none h .mul) hid hl.left).bind
        fun h₁ a hle₁ ha => ?_)
      refine (ihr (reusable_none h₁ .mul) (hid.mono hle₁) (hl.right.mono hle₁)).bind
        fun h₂ b hle₂ hb => ?_
      exact add_normal (reusable_none h₂ .add) (ha.mono hle₂) hb
    | mul =>
      cases r with
      | literal j q =>
        exact closes_of_normal (Meets.identity_bind (q * c) fun k n hle hn =>
          ihx (reusable_none k .mul) hn (hl.left.mono hle))
      | _ => exact other
    | _ => exact other

theorem mul_normal (hreuse : Reusable h .mul reuse?) (hl : NormalIn h l) (hr : NormalIn h r) :
    (mul reuse? l r).Meets h False NormalIn := by
  have closed := normal_of_closes hreuse hl hr
  have other := finish_closes hreuse hl hr
  cases r with
  | literal id c =>
    rw [mul]
    exact mulLiteral_normal hreuse hr.holds hl
  | input =>
    cases l with
    | literal => exact mulLiteral_normal (reusable_none h .mul) hl.holds hr
    | _ => exact closed other
  | binary =>
    cases l with
    | literal => exact mulLiteral_normal (reusable_none h .mul) hl.holds hr
    | _ => exact closed other

/-! ## Splitting a sum -/

theorem termsOf_normal (hl : NormalIn h l) {t : Expr} (ht : t ∈ termsOf l) : NormalIn h t := by
  fun_induction termsOf l with
  | case1 id settled l r ihl ihr =>
    rcases List.mem_append.1 ht with ht | ht
    · exact ihl hl.left ht
    · exact ihr hl.right ht
  | case2 =>
    obtain rfl := List.mem_singleton.1 ht
    exact hl

theorem splitSum_normal (hl : NormalIn h l) (c : Word) :
    (splitSum l c).Meets h False fun k s? => ∀ s, s? = some s →
      (∀ m ∈ s.multiples, NormalIn k m) ∧ NormalIn k s.rest := by
  refine Meets.lift_bind fun p hsep => ?_
  obtain ⟨multiples, others⟩ := p
  have hterms (t : Expr) (ht : t ∈ multiples ∨ t ∈ others) : NormalIn h t :=
    termsOf_normal hl ((separate_eq_ok hsep).1 t ht)
  simp only []
  split
  · exact meets_pure nofun
  refine (sumOf_normal fun t ht => hterms t (.inl ht)).bind fun k₁ multipleSum hle₁ _ => ?_
  refine (sumOf_normal fun t ht => (hterms t (.inr ht)).mono hle₁).bind fun k₂ rest hle₂ hrest => ?_
  refine Meets.lift_bind fun r _ => Meets.lift_bind fun r' _ => ?_
  split
  · refine meets_pure ?_
    rintro s ⟨⟩
    exact ⟨fun m hm => (hterms m (.inl hm)).mono (Heap.le_trans hle₁ hle₂), hrest⟩
  · exact meets_pure nofun

theorem splitBelow_normal {i : Nat} {settled : Bool} (hl : NormalIn h (.binary i settled .add l r))
    (c : Word) :
    (splitBelow i settled l r c).Meets h False fun k s? => ∀ s, s?.1 = some s →
      (∀ m ∈ s.multiples, NormalIn k m) ∧ NormalIn k s.rest :=
  (splitSum_normal hl c).attach _

/-! ## Quotients -/

theorem cancelled?_normal (hl : NormalIn h l) (he : cancelled? l r = some e) : NormalIn h e := by
  obtain ⟨i, settled, x, y, rfl, ⟨-, rfl⟩ | ⟨-, rfl⟩⟩ := cancelled?_eq_some he
  · exact hl.left
  · exact hl.right

/-- What is done only where the divisor cannot be zero. -/
theorem ifNonzero_normal {x : Build (Option Expr)}
    (hx : x.Meets h False fun k e? => ∀ e, e? = some e → NormalIn k e) :
    (do if ← isNonzero r then x else return none : Build (Option Expr)).Meets h False
      fun k e? => ∀ e, e? = some e → NormalIn k e := by
  refine Meets.lift_bind fun nonzero _ => ?_
  split
  · exact hx
  · exact meets_pure nofun

theorem cancel?_normal (hl : NormalIn h l) :
    (cancel? l r).Meets h False fun k e? => ∀ e, e? = some e → NormalIn k e := by
  have single (value : Word) : (do return some (← literal value) : Build (Option Expr)).Meets h
      False fun k e? => ∀ e, e? = some e → NormalIn k e := by
    refine (literal_normal value).bind fun k n _ hn => meets_pure ?_
    rintro e ⟨⟩
    exact hn
  unfold cancel?
  split
  · exact ifNonzero_normal (single 0)
  split
  · exact ifNonzero_normal (single 1)
  split
  · exact ifNonzero_normal (meets_pure fun e he => cancelled?_normal hl he)
  · exact meets_pure nofun

theorem mapM_normal {α : Type} {f : α → Build Expr} {as : List α}
    (hf : ∀ k, h ≤ k → ∀ a ∈ as, (f a).Meets k False NormalIn) :
    (as.mapM f).Meets h False fun k es => ∀ e ∈ es, NormalIn k e := by
  induction as generalizing h with
  | nil => exact meets_pure nofun
  | cons a as ih =>
    rw [List.mapM_cons]
    refine (hf h h.le_refl a List.mem_cons_self).bind fun k₁ e hle₁ he => ?_
    refine (ih fun k hle a ha => hf k (Heap.le_trans hle₁ hle) a (List.mem_cons_of_mem _ ha)).bind
      fun k₂ es hle₂ hes => meets_pure fun e' he' => ?_
    rcases List.mem_cons.1 he' with rfl | he'
    · exact he.mono hle₂
    · exact hes e' he'

/-- What is made of the parts of a split, each with a new literal, added up. -/
theorem sumOfParts_normal {s : Split} (hmultiples : ∀ m ∈ s.multiples, NormalIn h m)
    (hrest : NormalIn h s.rest) (c : Word) {f : {m // m ∈ s.multiples} → Nat → Build Expr}
    {x : Nat → Build Expr}
    (hf : ∀ k n m, k.Holds (.literal n c) → NormalIn k m.1 → (f m n).Meets k False NormalIn)
    (hx : ∀ k n, k.Holds (.literal n c) → NormalIn k s.rest → (x n).Meets k False NormalIn) :
    (do
      let parts ← s.multiples.attach.mapM fun m => do f m (← identity)
      let rest ← x (← identity)
      sumOf (parts ++ [rest])).Meets h False NormalIn := by
  refine (mapM_normal fun k hle m _ => Meets.identity_bind c fun k' n hle' hn =>
    hf k' n m hn ((hmultiples m.1 m.2).mono (Heap.le_trans hle hle'))).bind
    fun h₁ parts hle hparts => ?_
  refine Meets.identity_bind c fun h₂ n hle₂ hn => ?_
  refine (hx h₂ n hn (hrest.mono (Heap.le_trans hle hle₂))).bind fun h₃ rest hle₃ hrest => ?_
  refine sumOf_normal fun t ht => ?_
  rcases List.mem_append.1 ht with ht | ht
  · exact (hparts t ht).mono (Heap.le_trans hle₂ hle₃)
  · obtain rfl := List.mem_singleton.1 ht
    exact hrest

theorem divLiteral_normal (hreuse : Reusable h .div reuse?) {id : Nat} {c : Word}
    (hid : h.Holds (.literal id c)) (hl : NormalIn h l) :
    (divLiteral reuse? id c l).Meets h False NormalIn := by
  induction hw : weight l using Nat.strongRecOn generalizing h reuse? id c l with
  | ind n ih =>
  have part {k : Heap} {id : Nat} {d : Word} {m : Expr} (hlt : weight m < n)
      (hid : k.Holds (.literal id d)) (hm : NormalIn k m) :
      (divLiteral none id d m).Meets k False NormalIn :=
    ih (weight m) hlt (reusable_none k .div) hid hm rfl
  subst hw
  refine normal_of_closes hreuse hl (normalIn_literal hid) ?_
  change (divLiteral reuse? id c l).Meets h False _
  rw [divLiteral.eq_def]
  split
  · exact node_closes hreuse hl (normalIn_literal hid)
  split
  · exact closes_of_normal (literal_normal _)
  rename_i hlit
  refine (cancel?_normal hl).bind fun h₁ e? hle he => ?_
  replace hl := hl.mono hle
  replace hid := hid.mono hle
  replace hreuse := hreuse.mono hle
  split
  · exact closes_of_normal (meets_pure (he _ rfl))
  split
  · exact closes_of_normal (meets_pure hl)
  split
  · exact closes_of_normal (Meets.identity_bind (-1) fun k n hle hn =>
      mulLiteral_normal (reusable_none k .mul) hn (hl.mono hle))
  refine Meets.lift_bind fun range _hrange => ?_
  split
  · exact closes_of_normal (literal_normal 0)
  have other := finish_closes hreuse hl (normalIn_literal hid)
  split
  · rename_i i settled x j q
    split
    · exact closes_of_normal (Meets.identity_bind (q / c) fun k n hle hn =>
        mulLiteral_normal (reusable_none k .mul) hn (hl.left.mono hle))
    split
    · exact closes_of_normal (Meets.identity_bind (c / q) fun k n hle hn =>
        part (by simp only [weight]; omega) hn (hl.left.mono hle))
    · exact other
  · rename_i i settled x j b
    split
    · rename_i d _
      exact closes_of_normal (Meets.identity_bind d fun k n hle hn =>
        part (by simp only [weight]; omega) hn (hl.left.mono hle))
    · exact other
  · refine (splitBelow_normal hl c).bind fun h₂ s? hle hs => ?_
    split
    · rename_i s below
      obtain ⟨hmultiples, hrest⟩ := hs s rfl
      exact closes_of_normal (sumOfParts_normal hmultiples hrest c
        (fun k n m hn hm => part ((below s rfl).1 m.1 m.2) hn hm)
        fun k n hn hrest => part (below s rfl).2 hn hrest)
    · exact finish_closes (hreuse.mono hle) (hl.mono hle) (normalIn_literal (hid.mono hle))
  · exact other

/-- A quotient by what is no literal. -/
theorem divOther_normal (hreuse : Reusable h .div reuse?) (hl : NormalIn h l)
    (hr : NormalIn h r) : (do
      match ← cancel? l r with
      | some e => return e
      | none => finish reuse? .div l r : Build Expr).Meets h False (Closes .div l r) := by
  refine (cancel?_normal hl).bind fun k e? hle he => ?_
  cases e? with
  | some e => exact closes_of_normal (meets_pure (he e rfl))
  | none => exact finish_closes (hreuse.mono hle) (hl.mono hle) (hr.mono hle)

theorem div_normal (hreuse : Reusable h .div reuse?) (hl : NormalIn h l) (hr : NormalIn h r) :
    (div reuse? l r).Meets h False NormalIn := by
  have other := divOther_normal hreuse hl hr
  have closed := normal_of_closes hreuse hl hr
  cases r with
  | literal => exact divLiteral_normal hreuse hr.holds hl
  | _ => exact closed other

/-! ## Remainders -/

theorem modLiteral_normal (hreuse : Reusable h .mod reuse?) {id : Nat} {c : Word}
    (hid : h.Holds (.literal id c)) (hl : NormalIn h l) :
    (modLiteral reuse? id c l).Meets h False NormalIn := by
  induction hw : weight l using Nat.strongRecOn generalizing h reuse? l with
  | ind n ih =>
  subst hw
  refine normal_of_closes hreuse hl (normalIn_literal hid) ?_
  change (modLiteral reuse? id c l).Meets h False _
  rw [modLiteral.eq_def]
  have other := finish_closes hreuse hl (normalIn_literal hid)
  split
  · exact node_closes hreuse hl (normalIn_literal hid)
  split
  · exact closes_of_normal (literal_normal _)
  rename_i hlit
  split
  · exact closes_of_normal (literal_normal 0)
  refine Meets.lift_bind fun range _hrange => ?_
  split
  · exact closes_of_normal (meets_pure hl)
  refine Meets.lift_bind fun isM _hmultiple => ?_
  split
  · exact closes_of_normal (literal_normal 0)
  split
  · rename_i i settled x j b
    split
    · exact closes_of_normal (ih (weight x) (by simp only [weight]; omega) (reusable_none h .mod) hid
        hl.left rfl)
    · exact other
  · refine (splitBelow_normal hl c).bind fun h₁ s? hle hs => ?_
    split
    · rename_i s below
      exact closes_of_normal (ih (weight s.rest) (below s rfl).2 (reusable_none h₁ .mod)
        (hid.mono hle) (hs s rfl).2 rfl)
    · exact finish_closes (hreuse.mono hle) (hl.mono hle) (normalIn_literal (hid.mono hle))
  · exact other

theorem mod_normal (hreuse : Reusable h .mod reuse?) (hl : NormalIn h l) (hr : NormalIn h r) :
    (mod reuse? l r).Meets h False NormalIn := by
  have node := finish_closes hreuse hl hr
  have other : (do
        if l.literal? = some 0 then
          if ← isNonzero r then literal 0 else finish reuse? .mod l r
        else finish reuse? .mod l r : Build Expr).Meets h False (Closes .mod l r) := by
    split
    · refine Meets.lift_bind fun nonzero _ => ?_
      split
      · exact closes_of_normal (literal_normal 0)
      · exact node
    · exact node
  have closed := normal_of_closes hreuse hl hr
  cases r with
  | literal => exact modLiteral_normal hreuse hr.holds hl
  | _ => exact closed other

/-! ## Equality tests -/

theorem eqlOrdered_closes (hreuse : Reusable h .eql reuse?) (hl : NormalIn h l)
    (hr : NormalIn h r) : (eqlOrdered reuse? l r).Meets h False (Closes .eql l r) := by
  refine Meets.lift_bind fun s _ => Meets.lift_bind fun t _ => ?_
  split
  · split
    · exact closes_of_normal (literal_normal 1)
    · exact finish_closes hreuse hl hr
  · exact closes_of_normal (literal_normal 0)

theorem eql_normal (hreuse : Reusable h .eql reuse?) (hl : NormalIn h l) (hr : NormalIn h r) :
    (eql reuse? l r).Meets h False NormalIn := by
  have closed := normal_of_closes hreuse hl hr
  have other := eqlOrdered_closes hreuse hl hr
  cases l with
  | literal id a =>
    have swapped := normal_of_closes (reusable_none h .eql) hr hl
    have ordered := eqlOrdered_closes (reusable_none h .eql) hr hl
    cases r with
    | literal => exact literal_normal _
    | _ => exact swapped ordered
  | _ => exact closed other

/-! ## Operations -/

/-- An operation on normal operands gives a normal expression, of the tree that
    the operation gives on their trees. -/
theorem operation_normal (hreuse : Reusable h op reuse?) (hl : NormalIn h l)
    (hr : NormalIn h r) : (operation reuse? op l r).Meets h False NormalIn := by
  cases op with
  | add => exact add_normal hreuse hl hr
  | mul => exact mul_normal hreuse hl hr
  | div => exact div_normal hreuse hl hr
  | mod => exact mod_normal hreuse hl hr
  | eql => exact eql_normal hreuse hl hr

end Normal

end InputSolver
