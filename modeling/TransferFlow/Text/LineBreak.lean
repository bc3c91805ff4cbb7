namespace TransferFlow.Text

/-- Reads one more character in front of a unified text. The flag tells whether the text behind
starts with a line feed of its own, which a carriage return would take the place of. -/
def unifyStep (c : Char) (behind : List Char × Bool) : List Char × Bool :=
  if c = '\r' then (if behind.2 then behind.1 else '\n' :: behind.1, false)
  else (c :: behind.1, c == '\n')

/-- Writes every line break as a single line feed. -/
def unifyLineBreaks (cs : List Char) : List Char :=
  (cs.foldr unifyStep ([], false)).1

/-- A text without carriage returns is kept as it is. -/
theorem unifyLineBreaks_of_not_mem {cs : List Char} (unmarked : '\r' ∉ cs) :
    unifyLineBreaks cs = cs := by
  induction cs with
  | nil => rfl
  | cons c cs ih =>
    have other : c ≠ '\r' := fun same => unmarked (by simp [same])
    have later : '\r' ∉ cs := fun inside => unmarked (by simp [inside])
    have kept : (cs.foldr unifyStep ([], false)).1 = cs := ih later
    simp [unifyLineBreaks, unifyStep, other, kept]

/-- The flag tells how the text behind starts. -/
theorem foldr_unifyStep (cs : List Char) :
    cs.foldr unifyStep ([], false) = (unifyLineBreaks cs, cs.head? == some '\n') := by
  refine Prod.ext rfl ?_
  cases cs with
  | nil => rfl
  | cons c cs =>
    rw [List.foldr_cons, unifyStep]
    split
    · rename_i same
      rw [same]
      rfl
    · simp

theorem unifyLineBreaks_cons_of_ne {c : Char} (other : c ≠ '\r') (cs : List Char) :
    unifyLineBreaks (c :: cs) = c :: unifyLineBreaks cs := by
  rw [unifyLineBreaks, List.foldr_cons, foldr_unifyStep, unifyStep, if_neg other]

/-- A carriage return stands for a line feed, unless one follows. -/
theorem unifyLineBreaks_return (cs : List Char) :
    unifyLineBreaks ('\r' :: cs) =
      if cs.head? = some '\n' then unifyLineBreaks cs else '\n' :: unifyLineBreaks cs := by
  rw [unifyLineBreaks, List.foldr_cons, foldr_unifyStep, unifyStep, if_pos rfl]
  by_cases feed : cs.head? = some '\n' <;> simp [feed]

/-- The second text is the first one with a line feed for each of its line breaks. -/
inductive Unifies : List Char → List Char → Prop
  | nil : Unifies [] []
  | pair {cs ds : List Char} : Unifies cs ds → Unifies ('\r' :: '\n' :: cs) ('\n' :: ds)
  | lone {cs ds : List Char} :
      cs.head? ≠ some '\n' → Unifies cs ds → Unifies ('\r' :: cs) ('\n' :: ds)
  | other {c : Char} {cs ds : List Char} : c ≠ '\r' → Unifies cs ds → Unifies (c :: cs) (c :: ds)

theorem unifies_unifyLineBreaks (cs : List Char) : Unifies cs (unifyLineBreaks cs) := by
  induction cs with
  | nil => exact .nil
  | cons c cs ih =>
    by_cases isReturn : c = '\r'
    · subst isReturn
      rw [unifyLineBreaks_return]
      split
      · rename_i feed
        obtain ⟨rest, rfl⟩ := List.head?_eq_some_iff.mp feed
        rw [unifyLineBreaks_cons_of_ne (by decide)] at ih ⊢
        cases ih with
        | other _ later => exact .pair later
      · rename_i noFeed
        exact .lone noFeed ih
    · rw [unifyLineBreaks_cons_of_ne isReturn]
      exact .other isReturn ih

theorem unifies_iff {cs ds : List Char} : Unifies cs ds ↔ ds = unifyLineBreaks cs := by
  constructor
  · intro unifies
    induction unifies with
    | nil => rfl
    | pair _ ih =>
      rw [unifyLineBreaks_return, List.head?_cons, if_pos rfl, unifyLineBreaks_cons_of_ne (by decide), ih]
    | lone noFeed _ ih => rw [unifyLineBreaks_return, if_neg noFeed, ih]
    | other isOther _ ih => rw [unifyLineBreaks_cons_of_ne isOther, ih]
  · rintro rfl
    exact unifies_unifyLineBreaks cs

end TransferFlow.Text
