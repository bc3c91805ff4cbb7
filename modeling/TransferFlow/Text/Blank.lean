namespace TransferFlow.Text

/-- White space and the information separators. Zero-width marks are no blanks. -/
def isBlank (c : Char) : Bool :=
  let n := c.toNat
  (9 ≤ n && n ≤ 13) || (28 ≤ n && n ≤ 32) || n == 133 || n == 160 || n == 5760 ||
    (8192 ≤ n && n ≤ 8202) || n == 8232 || n == 8233 || n == 8239 || n == 8287 || n == 12288

/-- The text without the blanks at its end. -/
def trimRight (cs : List Char) : List Char :=
  (cs.reverse.dropWhile isBlank).reverse

/-- The text without the blanks at both ends. -/
def trim (cs : List Char) : List Char :=
  trimRight (cs.dropWhile isBlank)

/-- Blank throughout; the empty text is blank too. -/
def isBlankText (cs : List Char) : Bool :=
  cs.all isBlank

/-- No blank stands at either end. -/
structure Trimmed (cs : List Char) : Prop where
  head : ∀ c, cs.head? = some c → isBlank c = false
  last : ∀ c, cs.getLast? = some c → isBlank c = false

theorem dropWhile_of_head {cs : List Char} (solid : ∀ c, cs.head? = some c → isBlank c = false) :
    cs.dropWhile isBlank = cs := by
  cases cs with
  | nil => rfl
  | cons c cs => simp [solid c rfl]

theorem trimRight_of_last {cs : List Char} (solid : ∀ c, cs.getLast? = some c → isBlank c = false) :
    trimRight cs = cs := by
  have reversed : cs.reverse.dropWhile isBlank = cs.reverse :=
    dropWhile_of_head fun c atHead => solid c (by simpa using atHead)
  simp [trimRight, reversed]

theorem Trimmed.trim_eq {cs : List Char} (trimmed : Trimmed cs) : trim cs = cs := by
  rw [trim, dropWhile_of_head trimmed.head, trimRight_of_last trimmed.last]

theorem head_dropWhile (cs : List Char) :
    ∀ c, (cs.dropWhile isBlank).head? = some c → isBlank c = false := by
  intro c atHead
  have solid := List.head?_dropWhile_not isBlank cs
  rw [atHead] at solid
  exact solid

/-- What is left of a text is its beginning. -/
theorem trimRight_isPrefix (cs : List Char) : trimRight cs <+: cs := by
  have suffix := List.dropWhile_suffix isBlank (l := cs.reverse)
  simpa [trimRight] using List.reverse_prefix.mpr suffix

theorem trimmed_trim (cs : List Char) : Trimmed (trim cs) where
  head := by
    intro c atHead
    obtain ⟨blanks, whole⟩ := trimRight_isPrefix (cs.dropWhile isBlank)
    refine head_dropWhile cs c ?_
    rw [← whole, List.head?_append]
    rw [trim] at atHead
    simp [atHead]
  last := by
    intro c atLast
    refine head_dropWhile (cs.dropWhile isBlank).reverse c ?_
    simpa [trim, trimRight] using atLast

/-- Trimming again changes nothing. -/
theorem trim_trim (cs : List Char) : trim (trim cs) = trim cs :=
  (trimmed_trim cs).trim_eq

end TransferFlow.Text
