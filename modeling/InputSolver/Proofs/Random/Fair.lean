/-
  InputSolver — fair choices.

  `Draws I x P` says of a computation that makes choices: from a state with
  `I` it gives a value with `P` and leaves a state with `I`.

  * `Source.FairOn`: what holds of the choices of a source, and what they keep
    of its state; a source is only asked for probabilities up to 1;
  * `Source.noting` is a source that notes the probabilities it is asked for;
    `NotedBy` says that a computation with notes does what it does without;
  * `chaCha_fair`: the choices from a stream of words are fair.
-/
import InputSolver.Proofs.Double

namespace InputSolver.Random

variable {σ α β : Type} {I : σ → Prop}

/-! ## Values that can be drawn -/

/-- From a state with `I` a computation gives a value with `P` and leaves a
    state with `I`. -/
def Draws (I : σ → Prop) (x : StateM σ α) (P : α → Prop) : Prop :=
  ∀ g, I g → P (x g).1 ∧ I (x g).2

theorem draws_pure {P : α → Prop} {a : α} (h : P a) : Draws I (pure a : StateM σ α) P :=
  fun _ hg => ⟨h, hg⟩

theorem Draws.bind {x : StateM σ α} {f : α → StateM σ β} {P : α → Prop} {Q : β → Prop}
    (hx : Draws I x P) (hf : ∀ a, P a → Draws I (f a) Q) : Draws I (x >>= f) Q := by
  intro g hg
  obtain ⟨ha, hg'⟩ := hx g hg
  exact hf _ ha _ hg'

theorem Draws.imp {x : StateM σ α} {P Q : α → Prop} (hx : Draws I x P) (h : ∀ a, P a → Q a) :
    Draws I x Q :=
  fun g hg => ⟨h _ (hx g hg).1, (hx g hg).2⟩

/-! ## Sources -/

/-- The choices of a source are in range and keep `I`.  It must answer for
    probabilities up to 1, and yes to certainty. -/
structure Source.FairOn (s : Source σ) (I : σ → Prop) : Prop where
  index : ∀ n, 0 < n → Draws I (s.index n) (· < n)
  between : ∀ lo hi, lo ≤ hi → Draws I (s.between lo hi) fun v => lo ≤ v ∧ v ≤ hi
  chance : ∀ p : Double, p.AtMostOne →
    Draws I (s.chance p) fun b => isCertain p = true → b = true

/-- A source that notes the probabilities that it is asked for, the last one
    first. -/
def Source.noting (s : Source σ) : Source (σ × List Double) where
  index n := fun (g, asked) => let (i, g) := s.index n g; (i, g, asked)
  between lo hi := fun (g, asked) => let (v, g) := s.between lo hi g; (v, g, asked)
  chance p := fun (g, asked) => let (b, g) := s.chance p g; (b, g, p :: asked)

/-- With notes, a computation does what another one does without them. -/
def NotedBy (x : StateM σ α) (y : StateM (σ × List Double) α) : Prop :=
  ∀ g asked, ∃ asked', y (g, asked) = ((x g).1, (x g).2, asked')

theorem notedBy_pure (a : α) : NotedBy (pure a : StateM σ α) (pure a) :=
  fun _ asked => ⟨asked, rfl⟩

theorem NotedBy.bind {x : StateM σ α} {y : StateM (σ × List Double) α} {f : α → StateM σ β}
    {f' : α → StateM (σ × List Double) β} (hx : NotedBy x y) (hf : ∀ a, NotedBy (f a) (f' a)) :
    NotedBy (x >>= f) (y >>= f') := by
  intro g asked
  obtain ⟨asked', hy⟩ := hx g asked
  obtain ⟨asked'', hf'⟩ := hf (x g).1 (x g).2 asked'
  refine ⟨asked'', ?_⟩
  change f' (y (g, asked)).1 (y (g, asked)).2 = _
  rw [hy]
  exact hf'

theorem notedBy_index (s : Source σ) (n : Nat) : NotedBy (s.index n) (s.noting.index n) :=
  fun _ asked => ⟨asked, rfl⟩

theorem notedBy_between (s : Source σ) (lo hi : Word) :
    NotedBy (s.between lo hi) (s.noting.between lo hi) :=
  fun _ asked => ⟨asked, rfl⟩

theorem notedBy_chance (s : Source σ) (p : Double) : NotedBy (s.chance p) (s.noting.chance p) :=
  fun _ asked => ⟨p :: asked, rfl⟩

theorem Source.Fair.fairOn {s : Source σ} (hs : s.Fair) : s.FairOn fun _ => True where
  index n hn g _ := ⟨hs.index_lt n g hn, trivial⟩
  between lo hi hle g _ := ⟨⟨hs.le_between lo hi g hle, hs.between_le lo hi g hle⟩, trivial⟩
  chance p _ g _ := ⟨hs.chance_certain p g, trivial⟩

/-- What is asked of a source only for probabilities up to 1 leaves no other
    one in its notes. -/
theorem Source.Fair.noting {s : Source σ} (hs : s.Fair) :
    s.noting.FairOn fun g => ∀ p ∈ g.2, p.AtMostOne where
  index n hn g hg := ⟨hs.index_lt n g.1 hn, hg⟩
  between lo hi hle g hg := ⟨⟨hs.le_between lo hi g.1 hle, hs.between_le lo hi g.1 hle⟩, hg⟩
  chance p hp g hg := ⟨hs.chance_certain p g.1, List.forall_mem_cons.2 ⟨hp, hg⟩⟩

/-! ## A stream of words -/

/-- A scaled draw is at most the highest choice, and where it is, the part cut
    off leaves no room for a carry. -/
theorem draws_below {draw : StateM Generator Nat} {bound n : Nat}
    (hdraw : Draws (fun _ => True) draw (· < bound)) (hn : 0 < n) :
    Draws (fun _ => True) (below draw bound n) (· < n) := by
  refine hdraw.bind fun v hv => ?_
  have hscaled : v * n + n ≤ bound * n := by
    rw [← Nat.succ_mul]
    exact Nat.mul_le_mul_right n hv
  have hsplit := Nat.div_add_mod (v * n) bound
  have hlt : v * n / bound < n := Nat.div_lt_of_lt_mul (by omega)
  dsimp only
  split
  · rename_i hcut
    -- a carry past the highest choice would need a cut of at most bound - n
    have hcarry : v * n / bound + 1 < n := by
      refine Nat.lt_of_not_le fun hge => ?_
      have hle := Nat.mul_le_mul_left bound hge
      rw [Nat.mul_succ] at hle
      omega
    refine (hdraw.imp fun _ _ => trivial).bind (P := fun _ => True) fun again _ => draws_pure ?_
    split
    · exact hcarry
    · exact hlt
  · exact draws_pure hlt

theorem draws_draw32 : Draws (fun _ => True) draw32 (· < 0x100000000) :=
  fun _ _ => ⟨UInt32.toNat_lt _, trivial⟩

theorem draws_draw64 : Draws (fun _ => True) draw64 (· < Word.countBound) :=
  fun _ _ => ⟨UInt64.toNat_lt _, trivial⟩

/-- A word between two bounds is so many steps above the lower one. -/
theorem between_chaCha {lo hi : Word} (hle : lo ≤ hi) (g : Generator) :
    lo.toInt ≤ (chaCha.between lo hi g).1.toInt ∧
      (chaCha.between lo hi g).1.toInt ≤ hi.toInt := by
  have hdraws : Draws (fun _ => True) (chaCha.between lo hi) fun v =>
      lo.toInt ≤ v.toInt ∧ v.toInt ≤ hi.toInt := by
    refine (draws_below draws_draw64 (Nat.succ_pos _)).bind fun n hn => draws_pure ?_
    rw [Word.toInt_add_ofNat hle (Nat.le_of_lt_succ hn)]
    have hdistance := Word.distance_eq hle
    omega
  exact (hdraws g trivial).1

/-- The choices from a stream of words are fair. -/
theorem chaCha_fair : chaCha.Fair where
  index_lt n g hn := (draws_below draws_draw32 hn g trivial).1
  le_between lo hi g hle := Int64.le_iff_toInt_le.2 (between_chaCha hle g).1
  between_le lo hi g hle := Int64.le_iff_toInt_le.2 (between_chaCha hle g).2
  chance_certain p g hp := by
    simp only [chaCha, hp, if_true]
    rfl

end InputSolver.Random
