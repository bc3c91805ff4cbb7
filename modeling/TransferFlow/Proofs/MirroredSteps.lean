import TransferFlow.Proofs.MirroredTexts

namespace TransferFlow

namespace Step

open Text (Clear isBlank isBlankText mirror)

section Directions

/-- A direction is found where it stands, with the rest of the text turned. -/
theorem direction?_mirror {cs : List Char} (clear : Clear cs) :
    direction? (mirror cs) = (direction? cs).map (Prod.map id mirror) := by
  refine Text.eq_map_of_some ?_ clear
  rintro cs ⟨d, rest⟩ - found
  obtain ⟨_, length, letters⟩ := direction?_spec found
  have kept : mirror cs = cs.take 4 ++ mirror (cs.drop 4) := by
    rw [← Text.mirror_append_left fun c member => (isPlain_of_isDirectionLetter (letters c member)).1,
      List.take_append_drop]
  unfold direction? at found ⊢
  dsimp only at found ⊢
  rw [kept, List.take_left' length, List.drop_left' length]
  split at found
  · rename_i pull
    cases found
    exact if_pos pull
  · rename_i noPull
    split at found
    · rename_i push
      cases found
      rw [if_neg noPull]
      exact if_pos push
    · cases found

theorem blanksAndDirection?_mirror {cs : List Char} (clear : Clear cs) :
    blanksAndDirection? (mirror cs) = (blanksAndDirection? cs).map (Prod.map id mirror) := by
  cases cs using Text.arrow_induction with
  | nil => rfl
  | arrow a cs => rw [Text.mirror_arrow]; cases a <;> rfl
  | cons c cs noArrow =>
    rw [Text.mirror_cons noArrow, blanksAndDirection?, blanksAndDirection?]
    split
    · rw [Text.dropWhile_mirror]
      refine direction?_mirror (clear.of_isInfix ?_)
      exact (List.dropWhile_suffix _).isInfix.trans (List.suffix_cons c cs).isInfix
    · rfl

theorem isEnd_mirror (cs : List Char) : isEnd (mirror cs) = isEnd cs := by
  cases cs using Text.arrow_induction with
  | nil => rfl
  | arrow a cs => rw [Text.mirror_arrow]; cases a <;> rfl
  | cons c cs noArrow =>
    rw [Text.mirror_cons noArrow]
    simp [isEnd, Text.isEmpty_mirror]

theorem finalDirection?_mirror {cs : List Char} (clear : Clear cs) :
    finalDirection? (mirror cs) = finalDirection? cs := by
  rw [finalDirection?, blanksAndDirection?_mirror clear, finalDirection?]
  cases blanksAndDirection? cs with
  | none => rfl
  | some found => simp only [Option.map_some, Prod.map_fst, Prod.map_snd, id, isEnd_mirror]

end Directions

section Onward

theorem onward?_mirror {cs : List Char} (clear : Clear cs) : onward? (mirror cs) = (onward? cs).map mirror := by
  refine Text.eq_map_of_some ?_ clear
  intro cs line _ found
  obtain ⟨before, after, rfl, blank, broken, nonempty, inLine, atEnd⟩ := onward?_eq_some.mp found
  have plain : ∀ c ∈ before, Token.isPlain c = true := fun c member =>
    Text.isPlain_of_isBlank (List.all_eq_true.mp blank c member)
  refine onward?_eq_some.mpr ⟨before, after, ?_, blank, broken, ?_, ?_, atEnd⟩
  · rw [Text.mirror_append, Text.mirror_append_left plain]
    · rcases atEnd with rfl | rfl <;> rfl
    · rcases atEnd with rfl | rfl
      · simp
      · rintro _ ⟨⟩
        decide
  · rwa [Ne, Text.mirror_eq_nil]
  · rwa [Text.mem_mirror (by decide)]

theorem directionAndOnward?_mirror {cs : List Char} (clear : Clear cs) :
    directionAndOnward? (mirror cs) = (directionAndOnward? cs).map (Prod.map id (Prod.map Arrow.flip mirror)) := by
  rw [directionAndOnward?_eq, directionAndOnward?_eq, blanksAndDirection?_mirror clear]
  cases atDirection : blanksAndDirection? cs with
  | none => rfl
  | some found =>
    obtain ⟨d, rest⟩ := found
    obtain ⟨head, rfl, _⟩ := blanksAndDirection?_spec atDirection
    have clear' : Clear (rest.dropWhile isBlank) := clear.tail.of_isInfix (List.dropWhile_suffix _).isInfix
    rw [Option.map_some, Option.bind_some, Option.bind_some, Prod.map_apply]
    dsimp only
    rw [Text.dropWhile_mirror, Text.arrow?_mirror clear']
    cases atArrow : arrow? (rest.dropWhile isBlank) with
    | none => rfl
    | some found =>
      obtain ⟨a, behind⟩ := found
      rw [arrow?_spec atArrow] at clear'
      rw [Option.map_some, Option.bind_some, Option.bind_some, Prod.map_apply]
      dsimp only
      rw [onward?_mirror clear'.tail]
      cases onward? behind <;> rfl

end Onward

section Search

variable {α : Type} {tail? : List Char → Option α} {turn : α → α}

theorem shortestPrefix_of_some {c : Char} {cs : List Char} {found : α} (inLine : c ≠ '\n')
    (reads : tail? cs = some found) : shortestPrefix tail? (c :: cs) = some ([c], found) := by
  rw [shortestPrefix, if_neg inLine, reads]

theorem shortestPrefix_of_none {c : Char} {cs : List Char} (inLine : c ≠ '\n') (none : tail? cs = none) :
    shortestPrefix tail? (c :: cs) = (shortestPrefix tail? cs).map (Prod.map (c :: ·) id) := by
  rw [shortestPrefix, if_neg inLine, none]
  rfl

/-- A search goes on inside an arrow, and may stop behind it. -/
theorem shortestPrefix_arrow (solid : ∀ {c cs}, isBlank c = false → tail? (c :: cs) = none) (a : Arrow)
    (cs : List Char) :
    (∀ found, tail? cs = some found → shortestPrefix tail? (a.chars ++ cs) = some (a.chars, found)) ∧
      (tail? cs = none →
        shortestPrefix tail? (a.chars ++ cs) = (shortestPrefix tail? cs).map (Prod.map (a.chars ++ ·) id)) := by
  obtain ⟨c, d, shape, inLine, inLine', other⟩ :
      ∃ c d, a.chars = [c, d] ∧ c ≠ '\n' ∧ d ≠ '\n' ∧ isBlank d = false := by
    cases a <;> exact ⟨_, _, rfl, by decide, by decide, by decide⟩
  have inside : tail? (d :: cs) = none := solid other
  rw [shape, List.cons_append, List.singleton_append, shortestPrefix_of_none inLine inside]
  constructor
  · intro found reads
    rw [shortestPrefix_of_some inLine' reads]
    rfl
  · intro none
    rw [shortestPrefix_of_none inLine' none, Option.map_map]
    rfl

/-- A search that stops before blanks alone stops at the same place in the mirror. -/
theorem shortestPrefix_mirror (solid : ∀ {c cs}, isBlank c = false → tail? (c :: cs) = none)
    (turned : ∀ {cs}, Clear cs → tail? (mirror cs) = (tail? cs).map turn) {cs : List Char} (clear : Clear cs) :
    shortestPrefix tail? (mirror cs) = (shortestPrefix tail? cs).map (Prod.map mirror turn) := by
  induction cs using Text.arrow_induction with
  | nil => rfl
  | arrow a cs ih =>
    have behind := turned clear.tail
    obtain ⟨stops, passes⟩ := shortestPrefix_arrow solid a cs
    obtain ⟨stops', passes'⟩ := shortestPrefix_arrow solid a.flip (mirror cs)
    rw [Text.mirror_arrow]
    cases reads : tail? cs with
    | some found =>
      have whole := Text.mirror_arrow a []
      rw [List.append_nil, Text.mirror_nil, List.append_nil] at whole
      rw [reads] at behind
      rw [stops found reads, stops' _ behind, Option.map_some, Prod.map_apply, whole]
    | none =>
      rw [reads] at behind
      rw [passes reads, passes' behind, ih clear.tail, Option.map_map, Option.map_map]
      exact Option.map_congr fun result _ => Prod.ext (Text.mirror_arrow a result.1).symm rfl
  | cons c cs noArrow ih =>
    have clear' : Clear cs := clear.of_isInfix (List.suffix_cons c cs).isInfix
    have behind := turned clear'
    have alone {before : List Char} (first : before.head? = cs.head? ∨ before = []) :
        mirror (c :: before) = c :: mirror before := by
      refine Text.mirror_cons ?_
      rw [Text.arrow?_cons_eq_none] at noArrow ⊢
      rcases first with first | rfl
      · rwa [first]
      · simp
    rw [Text.mirror_cons noArrow]
    by_cases inLine : c = '\n'
    · rw [shortestPrefix, shortestPrefix, if_pos inLine, if_pos inLine, Option.map_none]
    cases reads : tail? cs with
    | some found =>
      rw [reads] at behind
      rw [shortestPrefix_of_some inLine reads, shortestPrefix_of_some inLine behind,
        Option.map_some, Prod.map_apply,
        alone (Or.inr rfl), Text.mirror_nil]
    | none =>
      rw [reads] at behind
      rw [shortestPrefix_of_none inLine reads, shortestPrefix_of_none inLine behind, ih clear', Option.map_map,
        Option.map_map]
      refine Option.map_congr fun result search => ?_
      obtain ⟨rest, whole, nonempty, _⟩ := shortestPrefix_spec search
      have first : result.1.head? = cs.head? := by rw [whole, List.head?_append_of_ne_nil _ nonempty]
      exact Prod.ext (alone (Or.inl first)).symm rfl

end Search

end Step

end TransferFlow
