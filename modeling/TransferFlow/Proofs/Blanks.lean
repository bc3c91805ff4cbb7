import Mathlib.Data.List.TakeWhile
import TransferFlow.Text.Blank
import TransferFlow.Token

namespace TransferFlow.Text

theorem isPlain_of_isBlank {c : Char} (blank : isBlank c = true) : Token.isPlain c = true := by
  have other (d : Char) (solid : isBlank d = false) : c ≠ d := by
    rintro rfl
    rw [blank] at solid
    cases solid
  simp [Token.isPlain, other '(' (by decide), other ')' (by decide), other '&' (by decide),
    other '<' (by decide), other '>' (by decide), other '-' (by decide)]

theorem subset_intercalate {sep piece : List Char} {pieces : List (List Char)} (member : piece ∈ pieces) :
    piece ⊆ sep.intercalate pieces := by
  induction pieces with
  | nil => exact absurd member List.not_mem_nil
  | cons first rest ih =>
    cases rest with
    | nil =>
      rw [List.mem_singleton.mp member, List.intercalate_singleton]
      exact List.Subset.refl _
    | cons next rest =>
      rw [List.intercalate_cons_cons, List.append_assoc]
      rcases List.mem_cons.mp member with rfl | member
      · exact List.subset_append_left _ _
      · exact List.subset_append_of_subset_right _ (List.subset_append_of_subset_right _ (ih member))

theorem isBlankText_append (xs ys : List Char) :
    isBlankText (xs ++ ys) = (isBlankText xs && isBlankText ys) := by
  rw [isBlankText, List.all_append]
  rfl

theorem isBlankText_takeWhile (cs : List Char) : isBlankText (cs.takeWhile isBlank) = true :=
  List.all_takeWhile

theorem dropWhile_eq_nil {cs : List Char} : cs.dropWhile isBlank = [] ↔ isBlankText cs = true := by
  rw [List.dropWhile_eq_nil_iff, isBlankText, List.all_eq_true]

theorem dropWhile_append_left {blanks : List Char} (cs : List Char) (blank : isBlankText blanks = true) :
    (blanks ++ cs).dropWhile isBlank = cs.dropWhile isBlank :=
  List.dropWhile_append_of_pos (List.all_eq_true.mp blank)

theorem trimRight_eq_nil {cs : List Char} : trimRight cs = [] ↔ isBlankText cs = true := by
  rw [trimRight, List.reverse_eq_nil_iff, dropWhile_eq_nil, isBlankText, List.all_reverse]
  rfl

/-- What trimming takes from the right end is blank. -/
theorem trimRight_blanks (cs : List Char) :
    ∃ blanks, cs = trimRight cs ++ blanks ∧ isBlankText blanks = true := by
  refine ⟨(cs.reverse.takeWhile isBlank).reverse, ?_, ?_⟩
  · rw [trimRight, ← List.reverse_append, List.takeWhile_append_dropWhile, List.reverse_reverse]
  · rw [isBlankText, List.all_reverse]
    exact List.all_takeWhile

theorem trimRight_append_right {blanks : List Char} (cs : List Char) (blank : isBlankText blanks = true) :
    trimRight (cs ++ blanks) = trimRight cs := by
  have reversed : isBlankText blanks.reverse = true := by
    rw [isBlankText, List.all_reverse]
    exact blank
  rw [trimRight, List.reverse_append, dropWhile_append_left _ reversed, trimRight]

theorem trimRight_append {xs ys : List Char} (solid : trimRight ys ≠ []) :
    trimRight (xs ++ ys) = xs ++ trimRight ys := by
  have reversed : ys.reverse.dropWhile isBlank ≠ [] := by
    intro none
    rw [trimRight, none] at solid
    exact solid rfl
  rw [trimRight, List.reverse_append, List.dropWhile_append, if_neg (by simpa using reversed),
    List.reverse_append, List.reverse_reverse, trimRight]

/-- Behind a text that ends in no blank all blanks are those of what follows. -/
theorem trimRight_append_of_solid {xs : List Char} (ys : List Char) (solid : trimRight xs = xs) :
    trimRight (xs ++ ys) = xs ++ trimRight ys := by
  cases shape : trimRight ys with
  | nil => rw [trimRight_append_right _ (trimRight_eq_nil.mp shape), solid, List.append_nil]
  | cons c cs => rw [trimRight_append (by rw [shape]; exact List.cons_ne_nil _ _), shape]

/-- Blanks at an end that is trimmed anyway may be trimmed before. -/
theorem trimRight_append_trimRight (xs ys : List Char) : trimRight (xs ++ trimRight ys) = trimRight (xs ++ ys) := by
  obtain ⟨blanks, whole, blank⟩ := trimRight_blanks ys
  have wide : xs ++ ys = xs ++ trimRight ys ++ blanks := by rw [List.append_assoc, ← whole]
  rw [wide, trimRight_append_right _ blank]

theorem trim_append_left {blanks : List Char} (cs : List Char) (blank : isBlankText blanks = true) :
    trim (blanks ++ cs) = trim cs := by
  rw [trim, dropWhile_append_left cs blank, trim]

theorem trim_blank (cs : List Char) : trim (' ' :: cs) = trim cs :=
  @trim_append_left [' '] cs rfl

theorem trim_trimRight (cs : List Char) : trim (trimRight cs) = trim cs := by
  obtain ⟨blanks, whole, blank⟩ := trimRight_blanks cs
  have same : trim cs = trim (trimRight cs ++ blanks) := by rw [← whole]
  rw [same, trim, trim, List.dropWhile_append]
  split
  · rename_i none
    rw [List.isEmpty_iff.mp none, dropWhile_eq_nil.mpr blank]
  · rw [trimRight_append_right _ blank]

theorem trim_append_right {blanks : List Char} (cs : List Char) (blank : isBlankText blanks = true) :
    trim (cs ++ blanks) = trim cs := by
  rw [← trim_trimRight, trimRight_append_right cs blank, trim_trimRight]

theorem trim_dropWhile_append (xs ys : List Char) : trim (xs.dropWhile isBlank ++ ys) = trim (xs ++ ys) := by
  have wide : xs ++ ys = xs.takeWhile isBlank ++ (xs.dropWhile isBlank ++ ys) := by
    rw [← List.append_assoc, List.takeWhile_append_dropWhile]
  rw [wide, trim_append_left _ (isBlankText_takeWhile xs)]

/-- A text is what trimming leaves of it between two blank texts. -/
theorem trim_between (cs : List Char) :
    ∃ before after, cs = before ++ trim cs ++ after ∧ isBlankText before = true ∧ isBlankText after = true := by
  obtain ⟨after, whole, blank⟩ := trimRight_blanks (cs.dropWhile isBlank)
  refine ⟨cs.takeWhile isBlank, after, ?_, isBlankText_takeWhile cs, blank⟩
  rw [List.append_assoc, trim, ← whole, List.takeWhile_append_dropWhile]

theorem trim_isInfix (cs : List Char) : trim cs <:+: cs := by
  obtain ⟨before, after, whole, _, _⟩ := trim_between cs
  exact ⟨before, after, whole.symm⟩

theorem trim_eq_nil {cs : List Char} : trim cs = [] ↔ isBlankText cs = true := by
  constructor
  · intro none
    obtain ⟨before, after, whole, blank, blank'⟩ := trim_between cs
    rw [whole, none, List.append_nil, isBlankText_append, blank, blank']
    rfl
  · intro blank
    rw [trim, dropWhile_eq_nil.mpr blank]
    rfl

theorem solid_iff {cs : List Char} : isBlankText cs = false ↔ trim cs ≠ [] := by
  rw [Ne, trim_eq_nil, Bool.not_eq_true]

/-- Nothing at the end of a trimmed text is blank. -/
theorem Trimmed.solid {xs ys : List Char} (trimmed : Trimmed (xs ++ ys)) (nonempty : ys ≠ []) :
    isBlankText ys = false := by
  have last : (xs ++ ys).getLast? = some (ys.getLast nonempty) := by
    rw [List.getLast?_append, List.getLast?_eq_some_getLast nonempty]
    rfl
  have atEnd := trimmed.last _ last
  cases blank : isBlankText ys with
  | false => rfl
  | true =>
    rw [List.all_eq_true.mp blank _ (List.getLast_mem nonempty)] at atEnd
    cases atEnd

/-- What stands between two trimmed texts does not matter. -/
theorem trimmed_around {xs zs : List Char} (ys : List Char) (nonempty : xs ≠ []) (trimmed : Trimmed xs)
    (nonempty' : zs ≠ []) (trimmed' : Trimmed zs) : Trimmed (xs ++ (ys ++ zs)) where
  head := by
    intro c atHead
    rw [List.head?_append, List.head?_eq_some_head nonempty] at atHead
    exact trimmed.head c (by rw [List.head?_eq_some_head nonempty]; exact atHead)
  last := by
    intro c last
    rw [← List.append_assoc, List.getLast?_append, List.getLast?_eq_some_getLast nonempty'] at last
    exact trimmed'.last c (by rw [List.getLast?_eq_some_getLast nonempty']; exact last)

theorem trimmed_singleton {c : Char} (solid : isBlank c = false) : Trimmed [c] where
  head := by
    rintro _ ⟨⟩
    exact solid
  last := by
    rintro _ ⟨⟩
    exact solid

/-- No blank stands outside the parentheses around a text. -/
theorem trimmed_group (cs : List Char) : Trimmed ('(' :: (cs ++ [')'])) :=
  trimmed_around cs (List.cons_ne_nil '(' []) (trimmed_singleton rfl) (List.cons_ne_nil ')' [])
    (trimmed_singleton rfl)

end TransferFlow.Text
