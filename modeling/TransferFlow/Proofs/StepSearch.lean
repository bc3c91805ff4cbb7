import TransferFlow.Step
import TransferFlow.Proofs.Balance

namespace TransferFlow

namespace Step

open Text (isBlank isBlankText trim trimRight parens)

section Search

variable {α β : Type} {tail? : List Char → Option α}

theorem shortestPrefix_spec {cs before : List Char} {found : α}
    (search : shortestPrefix tail? cs = some (before, found)) :
    ∃ rest, cs = before ++ rest ∧ before ≠ [] ∧ tail? rest = some found := by
  induction cs generalizing before with
  | nil => cases search
  | cons c cs ih =>
    rw [shortestPrefix] at search
    split at search
    · cases search
    split at search
    · rename_i atOnce
      cases search
      exact ⟨cs, rfl, List.cons_ne_nil _ _, atOnce⟩
    · obtain ⟨⟨before', found'⟩, later, same⟩ := Option.map_eq_some_iff.mp search
      cases same
      obtain ⟨rest, whole, _, reads⟩ := ih later
      exact ⟨rest, by rw [whole, List.cons_append], List.cons_ne_nil _ _, reads⟩

/-- A search ends where another one does, as long as both tails agree up to there. -/
theorem shortestPrefix_append {other? : List Char → Option β} {xs before : List Char} {found : β} (ys : List Char)
    (f : β → α) (agree : ∀ p q, xs = p ++ q → p ≠ [] → tail? (q ++ ys) = (other? q).map f)
    (search : shortestPrefix other? xs = some (before, found)) :
    shortestPrefix tail? (xs ++ ys) = some (before, f found) := by
  induction xs generalizing before with
  | nil => cases search
  | cons c xs ih =>
    have atOnce := agree [c] xs rfl (List.cons_ne_nil _ _)
    have later : ∀ p q, xs = p ++ q → p ≠ [] → tail? (q ++ ys) = (other? q).map f := by
      intro p q whole _
      exact agree (c :: p) q (by rw [whole, List.cons_append]) (List.cons_ne_nil _ _)
    rw [shortestPrefix] at search
    rw [List.cons_append, shortestPrefix, atOnce]
    split at search
    · cases search
    rename_i inLine
    rw [if_neg inLine]
    cases reads : other? xs with
    | some found' =>
      rw [reads] at search
      cases search
      rfl
    | none =>
      rw [reads] at search
      obtain ⟨⟨before', found'⟩, rest, same⟩ := Option.map_eq_some_iff.mp search
      cases same
      rw [Option.map_none, ih later rest]
      rfl

end Search

section Directions

/-- The letters of the two directions, in any case. -/
def isDirectionLetter (c : Char) : Bool :=
  ['P', 'U', 'L', 'S', 'H'].any fun letter => isLetter letter c

theorem isPlain_of_isDirectionLetter {c : Char} (letter : isDirectionLetter c = true) :
    Token.isPlain c = true ∧ isBlank c = false := by
  simp only [isDirectionLetter, isLetter, List.any_cons, List.any_nil, Bool.or_eq_true, Bool.and_eq_true,
    beq_iff_eq, Bool.or_false] at letter
  have cases' : c = 'P' ∨ c = 'p' ∨ c = 'U' ∨ c = 'u' ∨ c = 'L' ∨ c = 'l' ∨ c = 'S' ∨ c = 's' ∨ c = 'ſ' ∨ c = 'H' ∨
      c = 'h' := by
    rcases letter with ((atP | small) | _) | ((atU | small) | _) | ((atL | small) | _) | ((atS | small) | long) |
      ((atH | small) | _) <;> simp_all
  rcases cases' with rfl | rfl | rfl | rfl | rfl | rfl | rfl | rfl | rfl | rfl | rfl <;> decide

theorem length_of_spells {word cs : List Char} (spelled : spells word cs = true) : word.length = cs.length := by
  rw [spells, Bool.and_eq_true, beq_iff_eq] at spelled
  exact spelled.1

theorem isDirectionLetter_of_spells {word cs : List Char} (letters : word ⊆ ['P', 'U', 'L', 'S', 'H'])
    (spelled : spells word cs = true) : ∀ c ∈ cs, isDirectionLetter c = true := by
  have length := length_of_spells spelled
  rw [spells, Bool.and_eq_true, List.all_eq_true] at spelled
  intro c member
  obtain ⟨i, inside, rfl⟩ := List.getElem_of_mem member
  have pair : (word[i], cs[i]) ∈ word.zip cs := by
    rw [← List.getElem_zip (h := by simpa [length] using inside)]
    exact List.getElem_mem _
  exact List.any_eq_true.mpr ⟨word[i], letters (List.getElem_mem _), spelled.2 _ pair⟩

theorem direction?_spec {cs rest : List Char} {d : Direction} (found : direction? cs = some (d, rest)) :
    cs = cs.take 4 ++ rest ∧ (cs.take 4).length = 4 ∧ ∀ c ∈ cs.take 4, isDirectionLetter c = true := by
  unfold direction? at found
  dsimp only at found
  split at found
  · rename_i spelled
    cases found
    exact ⟨(List.take_append_drop 4 cs).symm, (length_of_spells spelled).symm,
      isDirectionLetter_of_spells (by decide) spelled⟩
  · split at found
    · rename_i spelled
      cases found
      exact ⟨(List.take_append_drop 4 cs).symm, (length_of_spells spelled).symm,
        isDirectionLetter_of_spells (by decide) spelled⟩
    · cases found

/-- A direction ends before anything that is no letter of it. -/
theorem direction?_append {cs ys : List Char} (stops : ∀ c ∈ ys.head?, isDirectionLetter c = false) :
    direction? (cs ++ ys) = (direction? cs).map fun (d, rest) => (d, rest ++ ys) := by
  rcases Nat.lt_or_ge cs.length 4 with short | long
  · have none : direction? cs = none := by
      cases found : direction? cs with
      | none => rfl
      | some result =>
        obtain ⟨d, rest⟩ := result
        have length := (direction?_spec found).2.1
        rw [List.length_take] at length
        omega
    rw [none]
    cases found : direction? (cs ++ ys) with
    | none => rfl
    | some result =>
      obtain ⟨d, rest⟩ := result
      obtain ⟨_, length, letters⟩ := direction?_spec found
      cases ys with
      | nil =>
        rw [List.append_nil, List.length_take] at length
        omega
      | cons c ys =>
        have member : c ∈ (cs ++ c :: ys).take 4 := by
          rw [List.take_append]
          refine List.mem_append_right _ ?_
          obtain ⟨k, more⟩ : ∃ k, 4 - cs.length = k + 1 := ⟨3 - cs.length, by omega⟩
          rw [more, List.take_succ_cons]
          exact List.mem_cons_self
        have letter := letters c member
        rw [stops c rfl] at letter
        cases letter
  · unfold direction?
    dsimp only
    rw [List.take_append_of_le_length long, List.drop_append_of_le_length long]
    split
    · rfl
    · split <;> rfl

theorem blanksAndDirection?_spec {cs rest : List Char} {d : Direction}
    (found : blanksAndDirection? cs = some (d, rest)) :
    ∃ head, cs = head ++ rest ∧ ∀ c ∈ head, Token.isPlain c = true := by
  unfold blanksAndDirection? at found
  split at found
  · rename_i c cs
    split at found
    · rename_i blank
      obtain ⟨whole, _, letters⟩ := direction?_spec found
      refine ⟨c :: (cs.takeWhile isBlank ++ (cs.dropWhile isBlank).take 4), ?_, ?_⟩
      · rw [List.cons_append, List.append_assoc, ← whole, List.takeWhile_append_dropWhile]
      · refine List.forall_mem_cons.mpr ⟨Text.isPlain_of_isBlank blank, List.forall_mem_append.mpr ⟨?_, ?_⟩⟩
        · intro c member
          exact Text.isPlain_of_isBlank (List.all_eq_true.mp List.all_takeWhile c member)
        · exact fun c member => (isPlain_of_isDirectionLetter (letters c member)).1
    · cases found
  · cases found

/-- What stands behind blanks and a direction does not matter, if it starts with neither a letter nor a
blank, or is blank throughout. -/
theorem blanksAndDirection?_append {cs ys : List Char} (stops : ∀ c ∈ ys.head?, isDirectionLetter c = false)
    (solid : ys.dropWhile isBlank = ys ∨ isBlankText ys = true) :
    blanksAndDirection? (cs ++ ys) = (blanksAndDirection? cs).map fun (d, rest) => (d, rest ++ ys) := by
  have noDirection : direction? (ys.dropWhile isBlank) = none := by
    rcases solid with same | blank
    · rw [same]
      exact @direction?_append [] ys stops
    · rw [Text.dropWhile_eq_nil.mpr blank]
      rfl
  cases cs with
  | nil =>
    rw [List.nil_append]
    show _ = none
    cases ys with
    | nil => rfl
    | cons y ys =>
      rw [blanksAndDirection?]
      split
      · rename_i blank
        rwa [List.dropWhile_cons, if_pos blank] at noDirection
      · rfl
  | cons c cs =>
    rw [List.cons_append, blanksAndDirection?, blanksAndDirection?]
    split
    · rw [List.dropWhile_append]
      split
      · rename_i none
        rw [List.isEmpty_iff.mp none, noDirection]
        rfl
      · exact direction?_append stops
    · rfl

theorem isPlain_of_finalDirection? {cs : List Char} {d : Direction} (found : finalDirection? cs = some d) :
    ∀ c ∈ cs, Token.isPlain c = true := by
  unfold finalDirection? at found
  split at found
  · rename_i rest start
    split at found
    · rename_i atEnd
      obtain ⟨head, rfl, plain⟩ := blanksAndDirection?_spec start
      refine List.forall_mem_append.mpr ⟨plain, ?_⟩
      rw [isEnd, Bool.or_eq_true, beq_iff_eq, beq_iff_eq] at atEnd
      rcases atEnd with rfl | rfl
      · simp
      · exact List.forall_mem_singleton.mpr rfl
    · cases found
  · cases found

end Directions

section Onward

theorem arrow?_spec {cs rest : List Char} {a : Arrow} (found : arrow? cs = some (a, rest)) :
    cs = a.chars ++ rest := by
  unfold arrow? at found
  split at found
  · cases found
    rfl
  · cases found
    rfl
  · cases found

theorem arrow?_chars (a : Arrow) (rest : List Char) : arrow? (a.chars ++ rest) = some (a, rest) := by
  cases a <;> rfl

theorem arrow?_of_ne {c : Char} (rest : List Char) (noTail : c ≠ '-') (noHead : c ≠ '<') :
    arrow? (c :: rest) = none := by
  unfold arrow?
  split
  · rename_i same
    cases same
    exact absurd rfl noTail
  · rename_i same
    cases same
    exact absurd rfl noHead
  · rfl

/-- The text, read backwards up to a line feed, is a line behind blank lines. -/
theorem lastLine_eq_some {back line : List Char} :
    (if !(back.takeWhile (· != '\n')).isEmpty && isBlankText (back.dropWhile (· != '\n')) then
      some (back.takeWhile (· != '\n')).reverse else none) = some line ↔
    ∃ before, back = line.reverse ++ before.reverse ∧ isBlankText before = true ∧
      (∀ c ∈ before.getLast?, c = '\n') ∧
      line ≠ [] ∧ '\n' ∉ line := by
  constructor
  · intro found
    split at found
    · rename_i proper
      cases found
      rw [Bool.and_eq_true, Bool.not_eq_true', List.isEmpty_eq_false_iff] at proper
      refine ⟨(back.dropWhile (· != '\n')).reverse, ?_, ?_, ?_, ?_, ?_⟩
      · rw [List.reverse_reverse, List.reverse_reverse, List.takeWhile_append_dropWhile]
      · rw [isBlankText, List.all_reverse]
        exact proper.2
      · intro c last
        rw [List.getLast?_reverse] at last
        have stops := List.head?_dropWhile_not (· != '\n') back
        rw [Option.mem_def.mp last] at stops
        simpa using stops
      · simpa using proper.1
      · intro member
        cases List.mem_takeWhile_imp (List.mem_reverse.mp member)
    · cases found
  · rintro ⟨before, rfl, blank, broken, nonempty, inLine⟩
    have inLine' : ∀ c ∈ line.reverse, (c != '\n') = true := by
      intro c member
      rw [bne_iff_ne]
      rintro rfl
      exact inLine (List.mem_reverse.mp member)
    have stops : before.reverse.takeWhile (· != '\n') = [] ∧
        before.reverse.dropWhile (· != '\n') = before.reverse := by
      cases reversed : before.reverse with
      | nil => exact ⟨rfl, rfl⟩
      | cons c rest =>
        obtain rfl : c = '\n' := broken c (by rw [← List.head?_reverse, reversed]; rfl)
        exact ⟨rfl, rfl⟩
    rw [List.takeWhile_append_of_pos inLine', List.dropWhile_append_of_pos inLine', stops.1,
      stops.2, List.append_nil,
      List.reverse_reverse, isBlankText, List.all_reverse, if_pos]
    rw [Bool.and_eq_true, Bool.not_eq_true', List.isEmpty_eq_false_iff]
    exact ⟨by simpa using nonempty, blank⟩

/-- The last line of a text stands behind blank lines and before no more than a line feed. -/
theorem onward?_eq_some {cs line : List Char} :
    onward? cs = some line ↔ ∃ before after, cs = before ++ line ++ after ∧ isBlankText before = true ∧
      (∀ c ∈ before.getLast?, c = '\n') ∧ line ≠ [] ∧ '\n' ∉ line ∧ (after = [] ∨ after = ['\n']) := by
  have backwards (before after : List Char) :
      cs = before ++ line ++ after ↔ cs.reverse = after.reverse ++ (line.reverse ++ before.reverse) := by
    rw [← List.reverse_inj, List.reverse_append, List.reverse_append]
  simp only [backwards]
  unfold onward?
  dsimp only
  split
  · rename_i rest reversed
    rw [lastLine_eq_some, reversed]
    constructor
    · rintro ⟨before, rfl, blank, broken, nonempty, inLine⟩
      exact ⟨before, ['\n'], rfl, blank, broken, nonempty, inLine, Or.inr rfl⟩
    · rintro ⟨before, after, whole, blank, broken, nonempty, inLine, rfl | rfl⟩
      · have member : '\n' ∈ line.reverse := by
          cases shape : line.reverse with
          | nil => exact absurd (List.reverse_eq_nil_iff.mp shape) nonempty
          | cons c line =>
            rw [shape] at whole
            rw [(List.cons.inj whole).1]
            exact List.mem_cons_self
        exact absurd (List.mem_reverse.mp member) inLine
      · exact ⟨before, (List.cons.inj whole).2, blank, broken, nonempty, inLine⟩
  · rename_i noBreak
    rw [lastLine_eq_some]
    constructor
    · rintro ⟨before, whole, blank, broken, nonempty, inLine⟩
      exact ⟨before, [], whole, blank, broken, nonempty, inLine, Or.inl rfl⟩
    · rintro ⟨before, after, whole, blank, broken, nonempty, inLine, rfl | rfl⟩
      · exact ⟨before, whole, blank, broken, nonempty, inLine⟩
      · exact absurd whole (noBreak _)

theorem onward?_spec {cs line : List Char} (found : onward? cs = some line) :
    ∃ before after, cs = before ++ line ++ after ∧ isBlankText before = true ∧ isBlankText after = true ∧
      line ≠ [] := by
  obtain ⟨before, after, whole, blank, _, nonempty, _, rfl | rfl⟩ := onward?_eq_some.mp found
  · exact ⟨before, [], whole, blank, rfl, nonempty⟩
  · exact ⟨before, ['\n'], whole, blank, rfl, nonempty⟩

theorem onward?_of_line {cs : List Char} (nonempty : cs ≠ []) (line : '\n' ∉ cs) : onward? cs = some cs :=
  onward?_eq_some.mpr ⟨[], [], by simp, rfl, by simp, nonempty, line, Or.inl rfl⟩

theorem directionAndOnward?_spec {cs onward : List Char} {d : Direction} {a : Arrow}
    (found : directionAndOnward? cs = some (d, a, onward)) :
    ∃ head behind, cs = head ++ (a.chars ++ behind) ∧ (∀ c ∈ head, Token.isPlain c = true) ∧
      onward? behind = some onward := by
  obtain ⟨⟨d', rest⟩, atDirection, found⟩ := Option.bind_eq_some_iff.mp found
  obtain ⟨⟨a', behind⟩, atArrow, found⟩ := Option.bind_eq_some_iff.mp found
  obtain ⟨onward', atOnward, same⟩ := Option.bind_eq_some_iff.mp found
  cases same
  obtain ⟨head, rfl, plain⟩ := blanksAndDirection?_spec atDirection
  refine ⟨head ++ rest.takeWhile isBlank, behind, ?_, ?_, atOnward⟩
  · rw [← arrow?_spec atArrow, List.append_assoc, List.takeWhile_append_dropWhile]
  · refine List.forall_mem_append.mpr ⟨plain, ?_⟩
    intro c member
    exact Text.isPlain_of_isBlank (List.all_eq_true.mp List.all_takeWhile c member)

/-- No arrow begins inside a token that is none. -/
theorem arrow?_inside {t : Token} {behind p q : List Char} (ends : t.Ends behind) (noArrow : t.isArrow = false)
    (whole : t.chars = p ++ q) (nonempty : q ≠ []) : arrow? (q ++ behind) = none := by
  cases q with
  | nil => exact absurd rfl nonempty
  | cons c q =>
    have member : c ∈ t.chars := by
      rw [whole]
      simp
    rw [List.cons_append]
    cases t with
    | arrow a => cases noArrow
    | post | opening | closing | ampersand =>
      refine arrow?_of_ne _ ?_ ?_ <;> rintro rfl <;> revert member <;> decide
    | text cs =>
      obtain ⟨isText, free⟩ := ends
      cases isText with
      | run _ plain => refine arrow?_of_ne _ ?_ ?_ <;> rintro rfl <;> cases plain _ member
      | @fragment d fragment =>
        obtain rfl := List.mem_singleton.mp member
        have alone : q = [] := by
          have length := congrArg List.length whole
          simp only [Token.chars, List.length_append, List.length_cons, List.length_nil] at length
          exact List.length_eq_zero_iff.mp (by omega)
        rw [alone, List.nil_append]
        unfold arrow?
        split
        · rename_i same
          cases same
          cases free '-' rfl '>' rfl
        · rename_i same
          cases same
          cases free '<' rfl '-' rfl
        · rfl

/-- No arrow begins inside tokens that are none, whatever follows the last of them. -/
theorem arrow?_within {us : List Token} {behind p q : List Char} (lexed : Token.Lexed us)
    (noArrow : ∀ t ∈ us, t.isArrow = false) (seam : ∀ t ∈ us.getLast?, t.Ends behind)
    (whole : Token.charsOf us = p ++ q) (nonempty : q ≠ []) : arrow? (q ++ behind) = none := by
  induction lexed generalizing p with
  | nil => exact absurd (List.append_eq_nil_iff.mp whole.symm).2 nonempty
  | @cons t us ends rest ih =>
    obtain ⟨atHead, atTail⟩ := List.forall_mem_cons.mp noArrow
    have later : ∀ p, Token.charsOf us = p ++ q → arrow? (q ++ behind) = none := by
      intro p' whole'
      refine ih atTail ?_ whole'
      cases us with
      | nil => simp
      | cons u us => simpa using seam
    have ends' : t.Ends (Token.charsOf us ++ behind) := by
      cases us with
      | nil => exact seam t rfl
      | cons u us => exact ends.mono fun d first => by rwa [rest.head?_append (List.cons_ne_nil _ _)] at first
    rw [Token.charsOf_cons] at whole
    rcases List.append_eq_append_iff.mp whole with ⟨p', _, behindToken⟩ | ⟨q', inToken, rfl⟩
    · exact later p' behindToken
    · cases q' with
      | nil => exact later [] rfl
      | cons c q' =>
        rw [List.append_assoc]
        exact arrow?_inside ends' atHead inToken (List.cons_ne_nil _ _)

theorem directionAndOnward?_eq (cs : List Char) :
    directionAndOnward? cs = (blanksAndDirection? cs).bind fun (d, rest) =>
      (arrow? (rest.dropWhile isBlank)).bind fun (a, behind) =>
        (onward? behind).bind fun onward => some (d, a, onward) := rfl

/-- Behind a step that stands before the first arrow of a line, a branch goes on just where the step ends. -/
theorem directionAndOnward?_append {s blanks behind p q : List Char} {a : Arrow} (trimmed : Text.Trimmed s)
    (line : '\n' ∉ s) (blank : isBlankText blanks = true) (nonempty : behind ≠ []) (line' : '\n' ∉ behind)
    (first : ∀ p q, s = p ++ q → q ≠ [] → arrow? (q ++ (blanks ++ (a.chars ++ behind))) = none)
    (whole : s = p ++ q) :
    directionAndOnward? (q ++ (blanks ++ (a.chars ++ behind))) =
        (finalDirection? q).map fun d => (d, a, behind) := by
  have sign : (a.chars ++ behind).dropWhile isBlank = a.chars ++ behind := by cases a <;> rfl
  have noLetter : ∀ c ∈ (a.chars ++ behind).head?, isDirectionLetter c = false := by
    intro c atHead
    cases a <;> cases atHead <;> decide
  have noLetter' : ∀ c ∈ blanks.head?, isDirectionLetter c = false := by
    intro c atHead
    have isBlank' := List.all_eq_true.mp blank c (List.mem_of_mem_head? atHead)
    cases letter : isDirectionLetter c with
    | false => rfl
    | true => rw [(isPlain_of_isDirectionLetter letter).2] at isBlank'; cases isBlank'
  have start : blanksAndDirection? (q ++ (blanks ++ (a.chars ++ behind))) =
      (blanksAndDirection? q).map fun (d, rest) => (d, rest ++ (blanks ++ (a.chars ++ behind))) := by
    rw [← List.append_assoc, blanksAndDirection?_append noLetter (Or.inl sign),
      blanksAndDirection?_append noLetter' (Or.inr blank), Option.map_map]
    simp only [Function.comp_def, List.append_assoc]
  rw [directionAndOnward?_eq, start, finalDirection?]
  cases reads : blanksAndDirection? q with
  | none => rfl
  | some result =>
    obtain ⟨d, rest⟩ := result
    obtain ⟨head, rfl, _⟩ := blanksAndDirection?_spec reads
    rw [Option.map_some, Option.bind_some]
    dsimp only
    cases rest with
    | nil =>
      rw [List.nil_append, Text.dropWhile_append_left _ blank, sign, arrow?_chars, Option.bind_some,
        onward?_of_line nonempty line']
      rfl
    | cons c rest =>
      rw [← List.append_assoc] at whole
      rw [whole] at trimmed
      have solid : (c :: rest).dropWhile isBlank ≠ [] := by
        intro none
        have blank' := Text.dropWhile_eq_nil.mp none
        rw [trimmed.solid (List.cons_ne_nil _ _)] at blank'
        cases blank'
      have noEnd : isEnd (c :: rest) = false := by
        have noBreak : (c :: rest == ['\n']) = false := by
          rw [beq_eq_false_iff_ne]
          rintro same
          exact line (by rw [whole, same]; simp)
        rw [isEnd, noBreak]
        rfl
      have none := first (p ++ head ++ (c :: rest).takeWhile isBlank) _ (by
        rw [List.append_assoc, List.takeWhile_append_dropWhile, whole]) solid
      rw [List.dropWhile_append, if_neg (by simpa using solid), none, noEnd, if_neg Bool.false_ne_true]
      rfl

/-- A branch that begins with a step before its first arrow is cut there. -/
theorem readBranch?_of_read? {s blanks behind : List Char} {a : Arrow} {step : Step} (trimmed : Text.Trimmed s)
    (line : '\n' ∉ s) (blank : isBlankText blanks = true) (nonempty : behind ≠ []) (line' : '\n' ∉ behind)
    (first : ∀ p q, s = p ++ q → q ≠ [] → arrow? (q ++ (blanks ++ (a.chars ++ behind))) = none)
    (reads : read? s = some step) :
    readBranch? (s ++ (blanks ++ (a.chars ++ behind))) = some (step, a, trim behind) := by
  obtain ⟨⟨before, d⟩, search, rfl⟩ := Option.map_eq_some_iff.mp reads
  have cut := shortestPrefix_append (blanks ++ (a.chars ++ behind)) (fun d => (d, a, behind))
    (fun p q whole _ => directionAndOnward?_append trimmed line blank nonempty line' first whole) search
  rw [readBranch?, cut]
  rfl

/-- Something stands behind the arrow where a branch is cut. -/
theorem arrow_of_readBranch? {cs onward : List Char} {a : Arrow} {step : Step}
    (found : readBranch? cs = some (step, a, onward)) :
    ∃ p behind, cs = p ++ (a.chars ++ behind) ∧ behind ≠ [] := by
  obtain ⟨⟨before, d, b, line⟩, search, same⟩ := Option.map_eq_some_iff.mp found
  cases same
  obtain ⟨rest, rfl, _, reads⟩ := shortestPrefix_spec search
  obtain ⟨head, behind, rfl, _, atOnward⟩ := directionAndOnward?_spec reads
  refine ⟨before ++ head, behind, by rw [List.append_assoc], ?_⟩
  obtain ⟨blanks, after, rfl, _, _, nonempty⟩ := onward?_spec atOnward
  simp [nonempty]

/-- A branch is not cut at an arrow that ends it. -/
theorem readBranch?_at_end {s : List Char} {a : Arrow}
    (first : ∀ p q, s = p ++ q → q ≠ [] → arrow? (q ++ (a.chars ++ [])) = none) :
    readBranch? (s ++ (a.chars ++ [])) = none := by
  cases cut : readBranch? (s ++ (a.chars ++ [])) with
  | none => rfl
  | some found =>
    obtain ⟨step, a', onward⟩ := found
    obtain ⟨p, behind, shape, nonempty⟩ := arrow_of_readBranch? cut
    have noRoom (q : List Char) : a.chars ++ [] ≠ q ++ (a'.chars ++ behind) := by
      intro same
      have lengths := congrArg List.length same
      have two (a : Arrow) : a.chars.length = 2 := by cases a <;> rfl
      have further := List.length_pos_iff.mpr nonempty
      simp only [List.length_append, two, List.length_nil] at lengths
      omega
    rcases List.append_eq_append_iff.mp shape with ⟨q, _, atArrow⟩ | ⟨q, split, atArrow⟩
    · exact absurd atArrow (noRoom q)
    · cases q with
      | nil => exact absurd atArrow.symm (noRoom [])
      | cons c q =>
        have none := first p (c :: q) split (List.cons_ne_nil _ _)
        rw [← atArrow, arrow?_chars] at none
        cases none

end Onward

end Step

end TransferFlow
