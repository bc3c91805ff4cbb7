import TransferFlow.Part
import TransferFlow.Proofs.Balance

namespace TransferFlow

open Text (isBlankText trimRight trim)

namespace Pieces

variable {isSeparator : Token → Bool}

theorem interleaved_separate (p : Pieces) (t : Token) :
    (p.separate t).interleaved = [] :: t.chars :: p.interleaved := rfl

theorem trim_interleaved {p q : Pieces} (same : p.interleaved.map trimRight = q.interleaved.map trimRight) :
    p.interleaved.map trim = q.interleaved.map trim := by
  have twice := congrArg (List.map trim) same
  simpa only [List.map_map, Function.comp_def, Text.trim_trimRight] using twice

/-- A text in front joins the first piece. -/
theorem cutAt_text (noText : ∀ cs, isSeparator (.text cs) = false) (depth : Nat)
    (cs : List Char) (ts : List Token) :
    cutAt isSeparator depth (PlacedToken.all (.text cs :: ts)) =
      (cutAt isSeparator depth (PlacedToken.all ts)).push (.text cs) := by
  rw [cutAt_other (t := .text cs) (by simp) (by simp), noText, Bool.and_false, if_neg Bool.false_ne_true]

theorem interleaved_trimFront (noText : ∀ cs, isSeparator (.text cs) = false) (depth : Nat) (ts : List Token) :
    (cutAt isSeparator depth (PlacedToken.all (Token.trimFront ts))).interleaved.map trim =
      (cutAt isSeparator depth (PlacedToken.all ts)).interleaved.map trim := by
  fun_cases Token.trimFront ts with
  | case1 cs ts blank =>
    rw [cutAt_text noText]
    simp only [interleaved, push, Token.charsOf_cons, Token.chars, List.map_cons, Text.trim_append_left _ blank]
  | case2 cs ts solid =>
    rw [cutAt_text noText, cutAt_text noText]
    simp only [interleaved, push, Token.charsOf_cons, Token.chars, List.map_cons, Text.trim_dropWhile_append]
  | case3 => rfl

theorem unopened_trimBack (ts : List Token) : Token.unopened (Token.trimBack ts) = Token.unopened ts := by
  fun_induction Token.trimBack ts with
  | case1 | case2 | case3 => rfl
  | case4 t ts further ih => rw [Token.unopened_cons, Token.unopened_cons, ih]

theorem interleaved_trimBack (noText : ∀ cs, isSeparator (.text cs) = false) (depth : Nat) (ts : List Token) :
    (cutAt isSeparator depth (PlacedToken.all (Token.trimBack ts))).interleaved.map trimRight =
      (cutAt isSeparator depth (PlacedToken.all ts)).interleaved.map trimRight := by
  fun_induction Token.trimBack ts generalizing depth with
  | case1 => rfl
  | case2 cs blank =>
    rw [cutAt_text noText]
    have none : trimRight cs = trimRight [] := Text.trimRight_eq_nil.mpr blank
    simp [interleaved, push, cutAt, Token.chars, none]
  | case3 cs solid =>
    rw [cutAt_text noText, cutAt_text noText]
    have twice := Text.trimRight_append_trimRight [] cs
    simp only [List.nil_append] at twice
    simp [interleaved, push, cutAt, Token.chars, twice]
  | case4 t ts further ih =>
    rw [PlacedToken.all_cons, PlacedToken.all_cons, unopened_trimBack, cutAt, cutAt]
    dsimp only
    have deeper := ih (PlacedToken.depthBehind depth ⟨t, Token.unopened ts⟩)
    split
    · rw [interleaved_separate, interleaved_separate]
      simp only [List.map_cons, deeper]
    · simp only [interleaved, List.map_cons, List.cons.injEq] at deeper
      simp only [interleaved, push, List.map_cons, Token.charsOf_cons]
      rw [← Text.trimRight_append_trimRight, deeper.1, Text.trimRight_append_trimRight, deeper.2]

/-- Blanks at the ends of a text are at the ends of its pieces. -/
theorem interleaved_cut_trim (noText : ∀ cs, isSeparator (.text cs) = false) (cs : List Char) :
    (cut isSeparator (trim cs)).interleaved.map trim = (cut isSeparator cs).interleaved.map trim := by
  rw [cut, Token.lex_trim, trim_interleaved (interleaved_trimBack noText _ _), interleaved_trimFront noText, cut]

/-- Puts several tokens in front. -/
def pushAll (ts : List Token) (p : Pieces) : Pieces :=
  { p with first := ts ++ p.first }

/-- Tokens that are no parentheses and no separators join the first piece. -/
theorem cutAt_pushAll {us : List Token} (depth : Nat) (vs : List Token)
    (inert : ∀ t ∈ us, t ≠ .opening ∧ t ≠ .closing ∧ (depth == 0 && isSeparator t) = false) :
    cutAt isSeparator depth (PlacedToken.all (us ++ vs)) =
      (cutAt isSeparator depth (PlacedToken.all vs)).pushAll us := by
  induction us with
  | nil => rfl
  | cons t us ih =>
    obtain ⟨⟨noOpening, noClosing, noSeparator⟩, later⟩ := List.forall_mem_cons.mp inert
    rw [List.cons_append, cutAt_other noOpening noClosing, noSeparator, if_neg Bool.false_ne_true, ih later]
    rfl

end Pieces

namespace Part

/-- The parts that pieces of a chain are. -/
def ofTexts (texts : List (List Char)) : List Part :=
  ((texts.map trim).filter (!·.isEmpty)).map ofChars

theorem split_eq (cs : List Char) : split cs = ofTexts (Pieces.cut Token.isArrow cs).interleaved := rfl

theorem ofTexts_cons (cs : List Char) (texts : List (List Char)) :
    ofTexts (cs :: texts) = if isBlankText cs then ofTexts texts else ofChars (trim cs) :: ofTexts texts := by
  unfold ofTexts
  rw [List.map_cons, List.filter_cons]
  cases blank : isBlankText cs with
  | true => simp [Text.trim_eq_nil.mpr blank]
  | false => simp [Text.solid_iff.mp blank]

theorem split_trim (cs : List Char) : split (trim cs) = split cs := by
  unfold split
  rw [Pieces.interleaved_cut_trim (fun _ => rfl)]

theorem ofChars_of_noArrow {cs : List Char} (noArrow : Token.hasArrow cs = false) : ofChars cs = .text cs := by
  have other (a : Arrow) : cs ≠ a.chars := by
    rintro rfl
    cases a <;> cases noArrow
  rw [ofChars, if_neg (other .forward), if_neg (other .reverse)]

theorem ofTexts_arrow (a : Arrow) (texts : List (List Char)) :
    ofTexts (a.chars :: texts) = .arrow a :: ofTexts texts := by
  cases a <;> rfl

/-- A text in one piece is one part, or none if it is blank. -/
theorem split_of_single {cs : List Char} (single : (Pieces.cut Token.isArrow cs).rest = []) :
    split cs = if isBlankText cs then [] else [ofChars (trim cs)] := by
  rw [split_eq, Pieces.interleaved_of_single single, ofTexts_cons]
  rfl

theorem split_of_noArrow {cs : List Char} (noArrow : Token.hasArrow cs = false) :
    split cs = if isBlankText cs then [] else [.text (trim cs)] := by
  have single : (Pieces.cut Token.isArrow cs).rest = [] := by
    apply Pieces.rest_cut_of_none
    rw [Token.hasArrow, List.any_eq_false] at noArrow
    simpa using noArrow
  rw [split_of_single single, ofChars_of_noArrow (by rwa [Token.hasArrow_trim])]

/-- The parts of a text are those before an arrow outside all groups, the arrow, and those behind it. -/
theorem split_of_arrow {cs : List Char} {us vs : List Token} {a : Arrow}
    (tokens : Token.lex cs = us ++ .arrow a :: vs)
    (inert : ∀ t ∈ us, t ≠ .opening ∧ t ≠ .closing ∧ t.isArrow = false) :
    split cs = (if isBlankText (Token.charsOf us) then [] else [.text (trim (Token.charsOf us))]) ++
      .arrow a :: split (Token.charsOf vs) := by
  have lexed := Token.lexed_lex cs
  rw [tokens] at lexed
  have behind : Token.lex (Token.charsOf vs) = vs :=
    (lexed.of_isInfix ⟨us ++ [.arrow a], [], by simp⟩).lex_charsOf
  have noArrow : Token.hasArrow (trim (Token.charsOf us)) = false := by
    rw [Token.hasArrow_trim, Token.hasArrow, lexed.left.lex_charsOf, List.any_eq_false]
    intro t member
    rw [(inert t member).2.2]
    exact Bool.false_ne_true
  have cut : Pieces.cut Token.isArrow cs =
      ((Pieces.cut Token.isArrow (Token.charsOf vs)).separate (.arrow a)).pushAll us := by
    rw [Pieces.cut, tokens, Pieces.cutAt_pushAll, Pieces.cutAt_other (t := .arrow a)
      (by simp) (by simp), Pieces.cut, behind]
    · rfl
    · intro t member
      obtain ⟨noOpening, noClosing, noArrow⟩ := inert t member
      exact ⟨noOpening, noClosing, by rw [noArrow, Bool.and_false]⟩
  have interleaved : (Pieces.cut Token.isArrow cs).interleaved =
      Token.charsOf us :: a.chars :: (Pieces.cut Token.isArrow (Token.charsOf vs)).interleaved := by
    rw [cut, Pieces.pushAll, Pieces.separate, List.append_nil]
    rfl
  rw [split_eq, interleaved, ofTexts_cons, ofTexts_arrow, ofChars_of_noArrow noArrow, ← split_eq]
  split <;> rfl

theorem eq_of_ofChars {cs part : List Char} (same : ofChars cs = .text part) : cs = part := by
  unfold ofChars at same
  split at same
  · cases same
  · split at same
    · cases same
    · exact Part.text.inj same

/-- Every text among the parts is a piece of the cut, trimmed. -/
theorem piece_of_mem_split {cs part : List Char} (member : .text part ∈ split cs) :
    ∃ piece ∈ (Pieces.cut Token.isArrow cs).parts, part = trim piece := by
  obtain ⟨text, within, same⟩ := List.mem_map.mp member
  obtain ⟨piece, inside, rfl⟩ := List.mem_map.mp (List.mem_filter.mp within).1
  have noArrow (a : Arrow) : Part.ofChars (trim a.chars) ≠ .text part := by
    cases a <;> intro same <;> cases same
  have found : part = trim piece := (eq_of_ofChars same).symm
  rcases List.mem_cons.mp inside with rfl | inside
  · exact ⟨_, List.mem_cons_self, found⟩
  · obtain ⟨next, later, inside⟩ := List.mem_flatMap.mp inside
    rcases List.mem_cons.mp inside with rfl | inside
    · have isArrow := Pieces.isSeparator_cutAt next later
      obtain ⟨t, ts⟩ := next
      cases t with
      | arrow a => exact absurd same (noArrow a)
      | post | opening | closing | ampersand | text => cases isArrow
    · rw [List.mem_singleton.mp inside] at found
      exact ⟨_, List.mem_cons_of_mem _ (List.mem_map.mpr ⟨next, later, rfl⟩), found⟩

/-- Every text among the parts is a stretch of the whole text. -/
theorem isInfix_of_mem_split {cs part : List Char} (member : .text part ∈ split cs) : part <:+: cs := by
  obtain ⟨piece, inside, rfl⟩ := piece_of_mem_split member
  exact (Text.trim_isInfix piece).trans (Pieces.isInfix_of_mem_parts inside)

/-- The parts of a balanced text are balanced. -/
theorem balanced_split {cs : List Char} (balanced : Text.Balanced cs) :
    ∀ part, .text part ∈ split cs → Text.Balanced part := by
  intro part member
  obtain ⟨piece, inside, rfl⟩ := piece_of_mem_split member
  exact Text.balanced_trim.mpr (Pieces.balanced_cut balanced piece inside)

end Part

end TransferFlow
