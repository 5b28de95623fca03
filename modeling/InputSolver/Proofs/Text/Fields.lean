/-
  InputSolver — fields and lines that were put together.

  * `fields_eq_splitOnP`: fields are the pieces between white space that are not
    empty;
  * `fields_intercalate`: fields with one space between them are found again;
  * `trim_intercalate`: there is nothing to trim from them;
  * `lines_intercalate`: lines with a line feed between them are found again.
-/
import InputSolver.Text.Blank

namespace InputSolver.Text

variable {f : List Char}

/-! ## Fields -/

/-- A text that can be a field: it is not empty and has no white space. -/
structure IsField (f : List Char) : Prop where
  ne_nil : f ≠ []
  not_blank : ∀ c ∈ f, isBlank c = false

theorem IsField.tail {c d : Char} {f : List Char} (h : IsField (c :: d :: f)) : IsField (d :: f) :=
  ⟨List.cons_ne_nil d f, fun x hx => h.not_blank x (List.mem_cons_of_mem c hx)⟩

/-- A field ends where white space follows, or nothing. -/
theorem fields_append (h : IsField f) {rest : List Char} (hrest : rest.head?.all isBlank = true) :
    fields (f ++ rest) = f :: fields rest := by
  induction f with
  | nil => exact absurd rfl h.ne_nil
  | cons c cs ih =>
    have hc : ¬isBlank c = true := Bool.eq_false_iff.1 (h.not_blank c List.mem_cons_self)
    rw [List.cons_append, fields, if_neg hc]
    cases cs with
    | nil =>
      rw [List.nil_append, if_pos hrest]
    | cons d cs =>
      have hd : ¬(d :: (cs ++ rest)).head?.all isBlank = true :=
        Bool.eq_false_iff.1 (h.tail.not_blank d List.mem_cons_self)
      rw [List.cons_append, if_neg hd, ← List.cons_append, ih h.tail]
      rfl

/-- Fields with a space between them are found again. -/
theorem fields_intercalate {fs : List (List Char)} (h : ∀ f ∈ fs, IsField f) :
    fields ([' '].intercalate fs) = fs := by
  induction fs with
  | nil => rfl
  | cons f fs ih =>
    have hf := h f List.mem_cons_self
    cases fs with
    | nil =>
      have hend : fields (f ++ []) = f :: fields [] := fields_append hf rfl
      rw [List.append_nil] at hend
      rw [List.intercalate_singleton, hend]
      rfl
    | cons g gs =>
      have hblank : fields (' ' :: [' '].intercalate (g :: gs)) =
          fields ([' '].intercalate (g :: gs)) := rfl
      rw [List.intercalate_cons_cons, List.append_assoc, List.singleton_append,
        fields_append hf rfl, hblank, ih fun x hx => h x (List.mem_cons_of_mem f hx)]

theorem mem_intercalate {c d : Char} {fs : List (List Char)} (h : c ∈ [d].intercalate fs) :
    c = d ∨ ∃ f ∈ fs, c ∈ f := by
  induction fs with
  | nil => cases h
  | cons f fs ih =>
    cases fs with
    | nil =>
      rw [List.intercalate_singleton] at h
      exact .inr ⟨f, List.mem_cons_self, h⟩
    | cons g gs =>
      simp only [List.intercalate_cons_cons, List.mem_append, List.mem_singleton] at h
      rcases h with (h | h) | h
      · exact .inr ⟨f, List.mem_cons_self, h⟩
      · exact .inl h
      · rcases ih h with h | ⟨x, hx, hc⟩
        · exact .inl h
        · exact .inr ⟨x, List.mem_cons_of_mem f hx, hc⟩

theorem head?_intercalate {fs : List (List Char)} (h : ∀ f ∈ fs, IsField f) :
    ∀ c ∈ ([' '].intercalate fs).head?, isBlank c = false := by
  intro c hc
  cases fs with
  | nil => cases hc
  | cons f fs =>
    have hf := h f List.mem_cons_self
    have hhead : c ∈ f.head? := by
      cases fs with
      | nil => rwa [List.intercalate_singleton] at hc
      | cons g gs =>
        have hsome := List.isSome_head?.2 hf.ne_nil
        rwa [List.intercalate_cons_cons, List.append_assoc, List.head?_append,
          Option.or_of_isSome hsome] at hc
    exact hf.not_blank c (List.mem_of_mem_head? hhead)

theorem getLast?_intercalate {fs : List (List Char)} (h : ∀ f ∈ fs, IsField f) :
    ∀ c ∈ ([' '].intercalate fs).getLast?, isBlank c = false := by
  intro c hc
  induction fs with
  | nil => cases hc
  | cons f fs ih =>
    have hf := h f List.mem_cons_self
    cases fs with
    | nil =>
      rw [List.intercalate_singleton] at hc
      exact hf.not_blank c (List.mem_of_getLast? hc)
    | cons g gs =>
      have hne : [' '].intercalate (g :: gs) ≠ [] := by
        intro heq
        have hfields := fields_intercalate fun x hx => h x (List.mem_cons_of_mem f hx)
        rw [heq] at hfields
        cases hfields
      rw [List.intercalate_cons_cons, List.getLast?_append,
        Option.or_of_isSome (List.getLast?_isSome.2 hne)] at hc
      exact ih (fun x hx => h x (List.mem_cons_of_mem f hx)) hc

/-- Nothing is trimmed from a text that begins and ends with a character that
    is no white space. -/
theorem trim_eq_self {cs : List Char} (hfirst : ∀ c ∈ cs.head?, isBlank c = false)
    (hlast : ∀ c ∈ cs.getLast?, isBlank c = false) : trim cs = cs := by
  have hdrop {ds : List Char} (h : ∀ c ∈ ds.head?, isBlank c = false) :
      ds.dropWhile isBlank = ds := by
    cases ds with
    | nil => rfl
    | cons d ds => exact List.dropWhile_cons_of_neg (Bool.eq_false_iff.1 (h d rfl))
  rw [trim, hdrop hfirst, hdrop (by rwa [List.head?_reverse]), List.reverse_reverse]

/-- Fields with a space between them have nothing to trim. -/
theorem trim_intercalate {fs : List (List Char)} (h : ∀ f ∈ fs, IsField f) :
    trim ([' '].intercalate fs) = [' '].intercalate fs :=
  trim_eq_self (head?_intercalate h) (getLast?_intercalate h)

/-! ## Pieces -/

/-- Fields are the pieces between characters of white space, without the empty
    ones. -/
theorem fields_eq_splitOnP (cs : List Char) :
    fields cs = (cs.splitOnP isBlank).filter (!·.isEmpty) := by
  induction cs with
  | nil => rfl
  | cons c cs ih =>
    rw [fields, List.splitOnP_cons_eq_if_modifyHead]
    by_cases hc : isBlank c = true
    · rw [if_pos hc, if_pos hc, ih]
      rfl
    · rw [if_neg hc, if_neg hc, ih]
      cases cs with
      | nil => rfl
      | cons d ds =>
        rw [List.splitOnP_cons_eq_if_modifyHead]
        by_cases hd : isBlank d = true
        · rw [if_pos hd, if_pos (show (d :: ds).head?.all isBlank = true from hd)]
          rfl
        · rw [if_neg hd, if_neg (show ¬(d :: ds).head?.all isBlank = true from hd)]
          obtain ⟨p, ps, hp⟩ := List.exists_cons_of_ne_nil (List.splitOnP_ne_nil isBlank ds)
          rw [hp]
          rfl

/-- There are no fields in white space, and only there. -/
theorem fields_eq_nil_iff {cs : List Char} : fields cs = [] ↔ cs.all isBlank = true := by
  have hprepend (c : Char) (ps : List (List Char)) : prepend c ps ≠ [] := by
    cases ps <;> exact List.cons_ne_nil _ _
  induction cs with
  | nil => exact iff_of_true rfl rfl
  | cons c cs ih =>
    rw [fields, List.all_cons, Bool.and_eq_true]
    by_cases hc : isBlank c = true
    · rw [if_pos hc]
      exact ih.trans (and_iff_right hc).symm
    · rw [if_neg hc]
      refine iff_of_false ?_ fun h => hc h.1
      split
      · exact List.cons_ne_nil _ _
      · exact hprepend c _

/-- White space at the end of a text is in no field. -/
theorem fields_append_blank (cs : List Char) {b : Char} (hb : isBlank b = true) :
    fields (cs ++ [b]) = fields cs := by
  induction cs with
  | nil => exact if_pos hb
  | cons c cs ih =>
    have hhead : (cs ++ [b]).head?.all isBlank = cs.head?.all isBlank := by
      cases cs with
      | nil => exact hb
      | cons d ds => rfl
    rw [List.cons_append, fields, fields, ih, hhead]

/-- Nor is it left at the end of a text that is trimmed. -/
theorem trim_append_blank (cs : List Char) {b : Char} (hb : isBlank b = true) :
    trim (cs ++ [b]) = trim cs := by
  unfold trim
  rw [List.dropWhile_append]
  split
  · rename_i hnil
    rw [List.isEmpty_iff.1 hnil, List.dropWhile_cons_of_pos hb]
    rfl
  · rw [List.reverse_append, List.reverse_singleton, List.singleton_append,
      List.dropWhile_cons_of_pos hb]

/-! ## Lines -/

theorem lines_of_not_mem {l : List Char} (hl : l ≠ []) (h : '\n' ∉ l) : lines l = [l] := by
  induction l with
  | nil => exact absurd rfl hl
  | cons c cs ih =>
    simp only [List.mem_cons, not_or] at h
    rw [lines, if_neg (Ne.symm h.1)]
    cases cs with
    | nil => rfl
    | cons d cs =>
      rw [ih (List.cons_ne_nil d cs) h.2]
      rfl

/-- Lines with a line feed between them are found again. -/
theorem lines_intercalate {ls : List (List Char)} (h : ∀ l ∈ ls, l ≠ [] ∧ '\n' ∉ l) :
    lines (['\n'].intercalate ls) = ls := by
  induction ls with
  | nil => rfl
  | cons l ls ih =>
    obtain ⟨hne, hl⟩ := h l List.mem_cons_self
    cases ls with
    | nil => rw [List.intercalate_singleton, lines_of_not_mem hne hl]
    | cons k ks =>
      rw [List.intercalate_cons_cons, List.append_assoc, List.singleton_append, lines_append hl,
        ih fun x hx => h x (List.mem_cons_of_mem l hx)]

end InputSolver.Text
