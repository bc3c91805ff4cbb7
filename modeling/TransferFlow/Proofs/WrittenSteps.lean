import TransferFlow.Pattern.Writer
import TransferFlow.Proofs.Signs
import TransferFlow.Proofs.StepSearch

namespace TransferFlow

namespace Step

open Text (isBlank isBlankText trim trimRight)

section Search

variable {α : Type} {tail? : List Char → Option α}

/-- The search ends at the only place on the line where the tail reads and at no place before does. -/
theorem shortestPrefix_eq_some {cs before : List Char} {found : α} :
    shortestPrefix tail? cs = some (before, found) ↔
      ∃ rest, cs = before ++ rest ∧ before ≠ [] ∧ '\n' ∉ before ∧ tail? rest = some found ∧
        ∀ p q, before = p ++ q → p ≠ [] → q ≠ [] → tail? (q ++ rest) = none := by
  induction cs generalizing before with
  | nil =>
    constructor
    · intro search
      cases search
    · rintro ⟨rest, whole, nonempty, _⟩
      exact absurd (List.append_eq_nil_iff.mp whole.symm).1 nonempty
  | cons c cs ih =>
    rw [shortestPrefix]
    constructor
    · intro search
      split at search
      · cases search
      rename_i inLine
      split at search
      · rename_i atOnce
        cases search
        refine ⟨cs, rfl, List.cons_ne_nil _ _, by simpa using Ne.symm inLine, atOnce, ?_⟩
        intro p q whole nonempty nonempty'
        have length := congrArg List.length whole
        rw [List.length_append, List.length_singleton] at length
        have := List.length_pos_iff.mpr nonempty
        have := List.length_pos_iff.mpr nonempty'
        omega
      · rename_i notYet
        obtain ⟨⟨before', found'⟩, later, same⟩ := Option.map_eq_some_iff.mp search
        cases same
        obtain ⟨rest, whole, nonempty, line, reads, minimal⟩ := ih.mp later
        refine ⟨rest, by rw [whole, List.cons_append], List.cons_ne_nil _ _, ?_, reads, ?_⟩
        · simpa using ⟨Ne.symm inLine, line⟩
        · intro p q split nonempty nonempty'
          cases p with
          | nil => exact absurd rfl nonempty
          | cons d p =>
            obtain ⟨_, behind⟩ := List.cons_eq_cons.mp split
            cases p with
            | nil =>
              obtain rfl : before' = q := behind
              rwa [← whole]
            | cons d' p => exact minimal _ _ behind (List.cons_ne_nil _ _) nonempty'
    · rintro ⟨rest, whole, nonempty, line, reads, minimal⟩
      cases before with
      | nil => exact absurd rfl nonempty
      | cons d before =>
        obtain ⟨rfl, behind⟩ := List.cons_eq_cons.mp whole
        have inLine : c ≠ '\n' := fun same => line (by simp [same])
        rw [if_neg inLine]
        cases before with
        | nil =>
          obtain rfl : cs = rest := behind
          rw [reads]
        | cons d before =>
          have notYet := minimal [c] (d :: before) rfl (List.cons_ne_nil _ _) (List.cons_ne_nil _ _)
          rw [← List.append_eq, ← behind] at notYet
          rw [notYet]
          have later :=
            ih.mpr ⟨rest, behind, List.cons_ne_nil _ _, fun inside => line (List.mem_cons_of_mem _ inside),
            reads, fun p q split nonempty nonempty' =>
              minimal (c :: p) q (by rw [split, List.cons_append]) (List.cons_ne_nil _ _) nonempty'⟩
          rw [later]
          rfl

end Search

section Directions

/-- Behind a text that is not blank, what follows is read only once the text has been. -/
theorem blanksAndDirection?_append_of_solid {cs ys : List Char} (solid : isBlankText cs = false)
    (stops : ∀ c ∈ ys.head?, isDirectionLetter c = false) :
    blanksAndDirection? (cs ++ ys) = (blanksAndDirection? cs).map fun (d, rest) => (d, rest ++ ys) := by
  cases cs with
  | nil => cases solid
  | cons c cs =>
    rw [List.cons_append, blanksAndDirection?, blanksAndDirection?]
    split
    · rename_i blank
      have further : cs.dropWhile isBlank ≠ [] := by
        intro none
        rw [isBlankText, List.all_cons, blank, Bool.true_and, ← isBlankText, Text.dropWhile_eq_nil.mp none] at solid
        cases solid
      rw [List.dropWhile_append, if_neg (by simpa using further), direction?_append stops]
    · rfl

theorem blanksAndDirection?_text (d : Direction) (rest : List Char) :
    blanksAndDirection? (' ' :: (d.text.toList ++ rest)) = some (d, rest) := by
  cases d <;> rfl

/-- A direction stands behind a blank, and no arrow before it. -/
theorem head_of_blanksAndDirection? {cs rest : List Char} {d : Direction}
    (found : blanksAndDirection? cs = some (d, rest)) :
    (∀ c ∈ cs.head?, isBlank c = true) ∧ cs ≠ [] ∧
    ∀ c ∈ (cs.dropWhile isBlank).head?, isDirectionLetter c = true := by
  cases cs with
  | nil => cases found
  | cons c cs =>
    rw [blanksAndDirection?] at found
    split at found
    · rename_i blank
      refine ⟨by simpa using blank, List.cons_ne_nil _ _, ?_⟩
      rw [List.dropWhile_cons, if_pos blank]
      intro c' first
      obtain ⟨_, length, letters⟩ := direction?_spec found
      cases shape : cs.dropWhile isBlank with
      | nil => rw [shape] at first; cases first
      | cons d rest =>
        rw [shape] at first letters
        cases first
        exact letters _ (by rw [List.take_succ_cons]; exact List.mem_cons_self)
    · cases found

theorem isEnd_append_of_long {ys : List Char} (long : 2 ≤ ys.length) (xs : List Char) :
    isEnd (xs ++ ys) = false := by
  have further (zs : List Char) (short : zs.length ≤ 1) : (xs ++ ys == zs) = false := by
    rw [beq_eq_false_iff_ne]
    intro same
    have length := congrArg List.length same
    rw [List.length_append] at length
    omega
  rw [isEnd, further [] (by decide), further ['\n'] (by decide)]
  rfl

/-- No direction ends a text before the direction that ends it. -/
theorem finalDirection?_append_of_solid {cs ys : List Char} (solid : isBlankText cs = false)
    (stops : ∀ c ∈ ys.head?, isDirectionLetter c = false) (long : 2 ≤ ys.length) :
    finalDirection? (cs ++ ys) = none := by
  rw [finalDirection?, blanksAndDirection?_append_of_solid solid stops]
  cases blanksAndDirection? cs with
  | none => rfl
  | some found =>
    rw [Option.map_some]
    dsimp only
    rw [isEnd_append_of_long long, if_neg Bool.false_ne_true]

end Directions

section Heads

theorem arrow?_append {xs ys : List Char} (nonempty : xs ≠ []) (blank : ∀ c ∈ ys.head?, isBlank c = true) :
    arrow? (xs ++ ys) = (arrow? xs).map fun (a, rest) => (a, rest ++ ys) := by
  cases xs with
  | nil => exact absurd rfl nonempty
  | cons c xs =>
    cases xs with
    | nil =>
      have alone : arrow? [c] = none := by unfold arrow?; split <;> simp_all
      rw [alone]
      cases ys with
      | nil => exact alone
      | cons d ys =>
        have solid := blank d rfl
        show arrow? (c :: d :: ys) = none
        unfold arrow?
        split
        · rename_i same
          cases same
          cases solid
        · rename_i same
          cases same
          cases solid
        · rfl
    | cons d xs =>
      show arrow? (c :: d :: (xs ++ ys)) = _
      unfold arrow?
      split <;> simp_all

/-- Reads blanks, a direction and an arrow. -/
def directionAndArrow? (cs : List Char) : Option (Direction × Arrow × List Char) :=
  (blanksAndDirection? cs).bind fun (d, rest) =>
    (arrow? (rest.dropWhile isBlank)).map fun (a, behind) => (d, a, behind)

theorem directionAndOnward?_eq_bind (cs : List Char) :
    directionAndOnward? cs =
      (directionAndArrow? cs).bind fun (d, a, behind) => (onward? behind).map fun line => (d, a, line) := by
  rw [directionAndOnward?_eq, directionAndArrow?]
  cases blanksAndDirection? cs with
  | none => rfl
  | some found =>
    rw [Option.bind_some, Option.bind_some]
    dsimp only
    cases arrow? (found.2.dropWhile isBlank) with
    | none => rfl
    | some behind =>
      rw [Option.bind_some, Option.map_some, Option.bind_some]
      dsimp only
      cases onward? behind.2 <;> rfl

/-- What may follow a protocol: a blank, and no arrow behind blanks. -/
structure Follows (ys : List Char) : Prop where
  nonempty : ys ≠ []
  head : ∀ c ∈ ys.head?, isBlank c = true
  noArrow : arrow? (ys.dropWhile isBlank) = none

theorem isDirectionLetter_of_isBlank {c : Char} (blank : isBlank c = true) : isDirectionLetter c = false := by
  cases letter : isDirectionLetter c with
  | false => rfl
  | true => rw [(isPlain_of_isDirectionLetter letter).2] at blank; cases blank

theorem Follows.stops {ys : List Char} (follows : Follows ys) : ∀ c ∈ ys.head?, isDirectionLetter c = false :=
  fun c first => isDirectionLetter_of_isBlank (follows.head c first)

/-- Whether a direction and an arrow start a text does not depend on what follows it. -/
theorem directionAndArrow?_append {cs ys : List Char} (solid : isBlankText cs = false) (follows : Follows ys) :
    directionAndArrow? (cs ++ ys) = (directionAndArrow? cs).map fun (d, a, behind) => (d, a, behind ++ ys) := by
  rw [directionAndArrow?, directionAndArrow?, blanksAndDirection?_append_of_solid solid follows.stops]
  cases blanksAndDirection? cs with
  | none => rfl
  | some found =>
    obtain ⟨d, rest⟩ := found
    rw [Option.map_some, Option.bind_some, Option.bind_some]
    dsimp only
    rw [List.dropWhile_append]
    split
    · rename_i none
      rw [List.isEmpty_iff.mp none, follows.noArrow]
      rfl
    · rename_i further
      rw [arrow?_append (by simpa using further) follows.head]
      cases arrow? (rest.dropWhile isBlank) <;> rfl

theorem directionAndArrow?_spec {cs behind : List Char} {d : Direction} {a : Arrow}
    (found : directionAndArrow? cs = some (d, a, behind)) :
    ∃ head, cs = head ++ (a.chars ++ behind) ∧ head ≠ [] ∧ ∀ c ∈ head, Token.isPlain c = true := by
  obtain ⟨⟨d', rest⟩, start, found⟩ := Option.bind_eq_some_iff.mp found
  obtain ⟨⟨a', behind'⟩, atArrow, same⟩ := Option.map_eq_some_iff.mp found
  cases same
  obtain ⟨blank, _, _⟩ := head_of_blanksAndDirection? start
  obtain ⟨head, rfl, plain⟩ := blanksAndDirection?_spec start
  refine ⟨head ++ rest.takeWhile isBlank, ?_, ?_, List.forall_mem_append.mpr ⟨plain, ?_⟩⟩
  · rw [← arrow?_spec atArrow, List.append_assoc, List.takeWhile_append_dropWhile]
  · intro none
    obtain ⟨rfl, noBlank⟩ := List.append_eq_nil_iff.mp none
    have whole := List.takeWhile_append_dropWhile (p := isBlank) (l := rest)
    rw [noBlank, arrow?_spec atArrow, List.nil_append] at whole
    rw [List.nil_append, ← whole] at blank
    cases a <;> cases blank _ rfl
  · exact fun c member => Text.isPlain_of_isBlank (List.all_eq_true.mp List.all_takeWhile c member)

/-- A protocol with no direction and arrow inside it. -/
def Unbroken (protocol : List Char) : Prop :=
  ∀ p q, protocol = p ++ q → p ≠ [] → directionAndArrow? q = none

end Heads

section Written

/-- A step whose protocol is a trimmed text on one line. -/
structure Legible (s : Step) : Prop where
  nonempty : s.protocol.toList ≠ []
  trimmed : Text.Trimmed s.protocol.toList
  line : '\n' ∉ s.protocol.toList

theorem write_eq (s : Step) : s.write = s.protocol.toList ++ ' ' :: s.direction.text.toList := by
  simp [write, capability]

theorem length_text (d : Direction) : d.text.toList.length = 4 := by
  cases d <;> rfl

theorem follows_text (d : Direction) (rest : List Char) : Follows (' ' :: (d.text.toList ++ rest)) where
  nonempty := List.cons_ne_nil _ _
  head := by
    intro c first
    cases first
    rfl
  noArrow := by cases d <;> rfl

theorem isPlain_text (d : Direction) : ∀ c ∈ ' ' :: d.text.toList, Token.isPlain c = true := by
  refine List.all_eq_true.mp ?_
  cases d <;> rfl

theorem signs_write (s : Step) : Text.signs s.write = Text.signs s.protocol.toList := by
  rw [write_eq, Text.signs_append_plain _ (isPlain_text s.direction)]

theorem write_ne_nil (s : Step) : s.write ≠ [] := by
  simp [write_eq]

theorem noBreak_write {s : Step} (legible : s.Legible) : '\n' ∉ s.write := by
  rw [write_eq, List.mem_append, not_or]
  exact ⟨legible.line, by cases s.direction <;> decide⟩

theorem trimmed_write {s : Step} (legible : s.Legible) : Text.Trimmed s.write := by
  have trimmed : Text.Trimmed s.direction.text.toList := by
    cases s.direction <;> constructor <;> intro c atEnd <;> cases atEnd <;> rfl
  rw [write_eq]
  exact Text.trimmed_around [' '] legible.nonempty legible.trimmed (by cases s.direction <;> decide) trimmed

/-- A step is read again from its text. -/
theorem read?_write {s : Step} (legible : s.Legible) : read? s.write = some s := by
  have atEnd : finalDirection? (' ' :: s.direction.text.toList) = some s.direction := by
    have start := blanksAndDirection?_text s.direction []
    rw [List.append_nil] at start
    rw [finalDirection?, start]
    rfl
  have search : shortestPrefix finalDirection? s.write = some (s.protocol.toList, s.direction) := by
    refine shortestPrefix_eq_some.mpr ⟨_, write_eq s, legible.nonempty, legible.line, atEnd, ?_⟩
    intro p q split _ nonempty
    have trimmed := legible.trimmed
    rw [split] at trimmed
    have stops : ∀ c ∈ (' ' :: s.direction.text.toList).head?, isDirectionLetter c = false := by
      intro c first
      cases first
      rfl
    exact finalDirection?_append_of_solid (trimmed.solid nonempty) stops
      (by rw [List.length_cons, length_text]; decide)
  rw [read?, search, Option.map_some]
  dsimp only
  rw [legible.trimmed.trim_eq, String.ofList_toList]

/-- A branch is cut behind the step that heads its text. -/
theorem readBranch?_write {s : Step} (legible : s.Legible) (unbroken : Unbroken s.protocol.toList) (a : Arrow)
    {behind : List Char} (nonempty : behind ≠ []) (line : '\n' ∉ behind) :
    readBranch? (s.write ++ ' ' :: (a.chars ++ behind)) = some (s, a, trim behind) := by
  have whole : s.write ++ ' ' :: (a.chars ++ behind) =
      s.protocol.toList ++ ' ' :: (s.direction.text.toList ++ ' ' :: (a.chars ++ behind)) := by
    rw [write_eq, List.append_assoc, List.cons_append]
  have cut : directionAndArrow? (' ' :: (s.direction.text.toList ++ ' ' :: (a.chars ++ behind))) =
      some (s.direction, a, behind) := by
    have sign : (' ' :: (a.chars ++ behind)).dropWhile isBlank = a.chars ++ behind := by cases a <;> rfl
    rw [directionAndArrow?, blanksAndDirection?_text, Option.bind_some]
    dsimp only
    rw [sign, arrow?_chars]
    rfl
  have search : shortestPrefix directionAndOnward? (s.write ++ ' ' :: (a.chars ++ behind)) =
      some (s.protocol.toList, s.direction, a, behind) := by
    refine shortestPrefix_eq_some.mpr ⟨_, whole, legible.nonempty, legible.line, ?_, ?_⟩
    · rw [directionAndOnward?_eq_bind, cut, Option.bind_some]
      dsimp only
      rw [onward?_of_line nonempty line]
      rfl
    · intro p q split nonempty nonempty'
      have trimmed := legible.trimmed
      rw [split] at trimmed
      rw [directionAndOnward?_eq_bind, directionAndArrow?_append (trimmed.solid nonempty') (follows_text _ _),
        unbroken p q split nonempty]
      rfl
  rw [readBranch?, search, Option.map_some]
  dsimp only
  rw [legible.trimmed.trim_eq, String.ofList_toList]

/-- A beginning of a text that starts with no blank, up to the blanks at its end. -/
theorem trim_beginning {before rest : List Char} (trimmed : Text.Trimmed (before ++ rest))
    (nonempty : before ≠ []) :
    trim before ≠ [] ∧ ∃ blanks, before = trim before ++ blanks ∧ isBlankText blanks = true := by
  have head : before.dropWhile isBlank = before := by
    refine Text.dropWhile_of_head fun c first => trimmed.head c ?_
    rw [List.head?_append, first]
    rfl
  have same : trim before = trimRight before := by rw [trim, head]
  obtain ⟨blanks, whole, blank⟩ := Text.trimRight_blanks before
  refine ⟨?_, blanks, by rw [same]; exact whole, blank⟩
  intro none
  have allBlank := Text.trim_eq_nil.mp none
  rw [← Text.dropWhile_eq_nil, head] at allBlank
  exact nonempty allBlank

theorem legible_beginning {before rest : List Char} (d : Direction) (trimmed : Text.Trimmed (before ++ rest))
    (nonempty : before ≠ []) (line : '\n' ∉ before) : Legible ⟨String.ofList (trim before), d⟩ := by
  obtain ⟨kept, blanks, whole, _⟩ := trim_beginning trimmed nonempty
  constructor
  · rwa [String.toList_ofList]
  · rw [String.toList_ofList]
    exact Text.trimmed_trim before
  · rw [String.toList_ofList]
    intro inside
    exact line (by rw [whole]; exact List.mem_append_left _ inside)

/-- A step that stands alone is legible and has the signs of its text. -/
theorem legible_of_read? {cs : List Char} {s : Step} (trimmed : Text.Trimmed cs) (found : read? cs = some s) :
    s.Legible ∧ Text.signs s.write = Text.signs cs := by
  obtain ⟨⟨before, d⟩, search, rfl⟩ := Option.map_eq_some_iff.mp found
  obtain ⟨rest, rfl, nonempty, line, atEnd, _⟩ := shortestPrefix_eq_some.mp search
  refine ⟨legible_beginning d trimmed nonempty line, ?_⟩
  rw [signs_write, String.toList_ofList, Text.signs_trim,
    Text.signs_append_plain _ (isPlain_of_finalDirection? atEnd)]

/-- What the search finds behind a protocol may follow it, with more blanks in front too. -/
theorem Follows.of_directionAndArrow? {rest blanks : List Char} {found : Direction × Arrow × List Char}
    (reads : directionAndArrow? rest = some found) (blank : isBlankText blanks = true) :
    Follows (blanks ++ rest) := by
  obtain ⟨⟨d, more⟩, start, _⟩ := Option.bind_eq_some_iff.mp reads
  obtain ⟨head, nonempty, letter⟩ := head_of_blanksAndDirection? start
  refine ⟨by simp [nonempty], ?_, ?_⟩
  · intro c first
    rw [List.head?_append] at first
    cases blanks with
    | nil => exact head c first
    | cons d blanks =>
      cases first
      exact List.all_eq_true.mp blank _ List.mem_cons_self
  · rw [Text.dropWhile_append_left _ blank]
    cases shape : rest.dropWhile isBlank with
    | nil => rfl
    | cons c more =>
      have isLetter := letter c (by rw [shape]; rfl)
      refine arrow?_of_ne _ ?_ ?_ <;> rintro rfl <;> cases isLetter

/-- A text up to the first place where a branch can be cut is unbroken. -/
theorem unbroken_of_minimal {before rest : List Char} {found : Direction × Arrow × List Char}
    (trimmed : Text.Trimmed (before ++ rest)) (nonempty : before ≠ []) (line : '\n' ∉ before ++ rest)
    (reads : directionAndArrow? rest = some found)
    (minimal : ∀ p q, before = p ++ q → p ≠ [] → q ≠ [] → directionAndOnward? (q ++ rest) = none) :
    Unbroken (trim before) := by
  obtain ⟨_, blanks, whole, blank⟩ := trim_beginning trimmed nonempty
  have follows := Follows.of_directionAndArrow? reads blank
  intro p q split nonempty'
  cases solid : q with
  | nil => rfl
  | cons c q' =>
    rw [← solid]
    have isSolid : isBlankText q = false := by
      have trimmed' := Text.trimmed_trim before
      rw [split] at trimmed'
      exact trimmed'.solid (by simp [solid])
    cases earlier : directionAndArrow? q with
    | none => rfl
    | some found' =>
      obtain ⟨d, a, behind⟩ := found'
      obtain ⟨head, shape, _⟩ := directionAndArrow?_spec earlier
      have none :=
        minimal p (q ++ blanks) (by rw [← List.append_assoc, ← split, ← whole]) nonempty' (by simp [solid])
      rw [List.append_assoc, directionAndOnward?_eq_bind, directionAndArrow?_append isSolid follows, earlier,
        Option.map_some, Option.bind_some] at none
      dsimp only at none
      have noBreak : '\n' ∉ behind ++ (blanks ++ rest) := by
        intro inside
        refine line ?_
        rw [whole, split, shape]
        simp only [List.mem_append] at inside ⊢
        rcases inside with inside | inside | inside <;> simp [inside]
      rw [onward?_of_line (by simp [follows.nonempty]) noBreak] at none
      cases none

/-- The head of a branch is legible and unbroken, since the branch is cut at the first place possible; together
with what follows it has the signs of the branch. -/
theorem legible_of_readBranch? {cs onward : List Char} {s : Step} {a : Arrow} (trimmed : Text.Trimmed cs)
    (line : '\n' ∉ cs) (found : readBranch? cs = some (s, a, onward)) :
    s.Legible ∧ Unbroken s.protocol.toList ∧ '\n' ∉ onward ∧
      Text.signs cs = Text.signs s.write ++ .arrow a :: Text.signs onward := by
  obtain ⟨⟨before, d, b, line'⟩, search, same⟩ := Option.map_eq_some_iff.mp found
  cases same
  obtain ⟨rest, rfl, nonempty, inLine, atTail, minimal⟩ := shortestPrefix_eq_some.mp search
  rw [directionAndOnward?_eq_bind] at atTail
  obtain ⟨⟨d', a', behind⟩, atArrow, atTail⟩ := Option.bind_eq_some_iff.mp atTail
  obtain ⟨line'', atOnward, same⟩ := Option.map_eq_some_iff.mp atTail
  cases same
  refine ⟨legible_beginning d trimmed nonempty inLine, ?_, ?_, ?_⟩
  · rw [String.toList_ofList]
    exact unbroken_of_minimal trimmed nonempty line atArrow minimal
  · intro inside
    obtain ⟨front, back, whole, _, _⟩ := Text.trim_between line'
    obtain ⟨front', back', whole', _, _, _⟩ := onward?_spec atOnward
    obtain ⟨head, shape, _⟩ := directionAndArrow?_spec atArrow
    refine line ?_
    rw [shape, whole', whole]
    simp [inside]
  · obtain ⟨front, back, whole, blank, blank', _⟩ := onward?_spec atOnward
    obtain ⟨head, shape, filled, plain⟩ := directionAndArrow?_spec atArrow
    have plainBlank {cs : List Char} (blank : isBlankText cs = true) : ∀ c ∈ cs, Token.isPlain c = true :=
      fun c member => Text.isPlain_of_isBlank (List.all_eq_true.mp blank c member)
    have onward : Text.signs behind = Text.signs line' := by
      rw [whole, Text.signs_append_plain _ (plainBlank blank'), Text.signs_append_of_plain (plainBlank blank)]
    obtain ⟨init, c, rfl⟩ : ∃ init c, head = init ++ [c] := ⟨_, _, (List.dropLast_concat_getLast filled).symm⟩
    obtain ⟨plainInit, plainLast⟩ := List.forall_mem_append.mp plain
    have regrouped : before ++ rest = (before ++ init) ++ c :: ((Token.arrow a).chars ++ behind) := by
      rw [shape]
      simp [Token.chars]
    rw [regrouped, Text.signs_append_sign (plainLast c (List.mem_singleton_self c)) (by simp [Token.kind]),
      Text.signs_append_plain _ plainInit, onward, Text.signs_trim, signs_write,
        String.toList_ofList, Text.signs_trim]

end Written

end Step

end TransferFlow
