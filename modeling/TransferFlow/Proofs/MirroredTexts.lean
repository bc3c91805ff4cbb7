import Mathlib.Data.List.Basic
import TransferFlow.Proofs.Parts
import TransferFlow.Proofs.StepSearch

namespace TransferFlow

open Step (arrow?)

namespace Token

/-- The token, turned if it is an arrow. -/
def mirror : Token → Token
  | .arrow a => .arrow a.flip
  | t => t

end Token

namespace Text

/-- The text with all arrows turned, inside groups too. -/
def mirror (cs : List Char) : List Char :=
  Token.charsOf ((Token.lex cs).map Token.mirror)

/-- No `<` stands right before an arrow `<-`. -/
def Clear (cs : List Char) : Prop :=
  ¬ ['<', '<', '-'] <:+: cs

instance (cs : List Char) : Decidable (Clear cs) :=
  inferInstanceAs (Decidable (¬ _))

theorem Clear.of_isInfix {xs ys : List Char} (clear : Clear ys) (inside : xs <:+: ys) : Clear xs :=
  fun here => clear (here.trans inside)

section Characters

/-- A text is empty, begins with an arrow or begins with another character. -/
@[elab_as_elim]
theorem arrow_induction {motive : List Char → Prop} (nil : motive [])
    (arrow : ∀ (a : Arrow) cs, motive cs → motive (a.chars ++ cs))
    (cons : ∀ c cs, arrow? (c :: cs) = none → motive cs → motive (c :: cs)) (cs : List Char) : motive cs := by
  induction size : cs.length using Nat.strongRecOn generalizing cs with
  | ind n ih =>
    subst size
    cases begins : arrow? cs with
    | some found =>
      obtain ⟨a, rest⟩ := found
      rw [Step.arrow?_spec begins]
      refine arrow a rest (ih rest.length ?_ rest rfl)
      rw [Step.arrow?_spec begins, List.length_append]
      cases a <;> exact Nat.lt_add_of_pos_left Nat.zero_lt_two
    | none =>
      cases cs with
      | nil => exact nil
      | cons c cs => exact cons c cs begins (ih cs.length (Nat.lt_succ_self _) cs rfl)

theorem arrow?_cons_eq_none {c : Char} {cs : List Char} :
    arrow? (c :: cs) = none ↔ ¬ (c = '-' ∧ cs.head? = some '>') ∧ ¬ (c = '<' ∧ cs.head? = some '-') := by
  cases cs with
  | nil => simp [arrow?]
  | cons d cs =>
    unfold arrow?
    split
    · simp_all
    · simp_all
    · rename_i noForward noReverse
      simp only [List.head?_cons, Option.some_inj, true_iff]
      constructor
      · rintro ⟨rfl, rfl⟩
        exact noForward cs rfl
      · rintro ⟨rfl, rfl⟩
        exact noReverse cs rfl

theorem mirror_nil : mirror [] = [] := rfl

theorem mirror_token {t : Token} {cs : List Char} (ends : t.Ends cs) :
    mirror (t.chars ++ cs) = t.mirror.chars ++ mirror cs := by
  rw [mirror, Token.lex_append ends, List.map_cons, Token.charsOf_cons, mirror]

theorem mirror_arrow (a : Arrow) (cs : List Char) : mirror (a.chars ++ cs) = a.flip.chars ++ mirror cs :=
  @mirror_token (.arrow a) cs trivial

theorem charsOf_mirror_lexAfter (run cs : List Char) :
    Token.charsOf ((Token.lexAfter run cs).map Token.mirror) = run.reverse ++ mirror cs := by
  have ended (run : List Char) (ts : List Token) :
      Token.charsOf ((Token.endRun run ts).map Token.mirror) =
          run.reverse ++ Token.charsOf (ts.map Token.mirror) := by
    cases run <;> simp [Token.endRun, Token.mirror, Token.chars]
  induction cs generalizing run with
  | nil => exact ended run []
  | cons c cs ih =>
    cases plain : Token.isPlain c with
    | true =>
      rw [mirror, Token.lex, Token.lexAfter_plain _ _ plain, Token.lexAfter_plain _ _ plain, ih, ih]
      simp
    | false =>
      rw [Token.lexAfter_run run (by simpa using plain), ended]
      rfl

theorem mirror_cons_plain {c : Char} (plain : Token.isPlain c = true) (cs : List Char) :
    mirror (c :: cs) = c :: mirror cs := by
  rw [mirror, Token.lex, Token.lexAfter_plain _ _ plain, charsOf_mirror_lexAfter]
  rfl

theorem mirror_cons_fragment {c : Char} {cs : List Char} (fragment : c = '-' ∨ c = '<' ∨ c = '>')
    (free : ∀ d ∈ cs.head?, Token.joins c d = false) : mirror (c :: cs) = c :: mirror cs := by
  refine @mirror_token (.text [c]) cs ⟨.fragment fragment, ?_⟩
  rintro _ ⟨⟩
  exact free

/-- A character that begins no arrow stays as it is. By induction, since marks `>>` are read from the left. -/
theorem mirror_cons {c : Char} {cs : List Char} (noArrow : arrow? (c :: cs) = none) :
    mirror (c :: cs) = c :: mirror cs := by
  induction cs generalizing c with
  | nil =>
    cases plain : Token.isPlain c with
    | true => exact mirror_cons_plain plain []
    | false =>
      simp only [Token.isPlain, Bool.and_eq_false_iff, bne_eq_false_iff_eq] at plain
      rcases plain with ((((rfl | rfl) | rfl) | rfl) | rfl) | rfl <;> rfl
  | cons d cs ih =>
    cases plain : Token.isPlain c with
    | true => exact mirror_cons_plain plain _
    | false =>
      simp only [Token.isPlain, Bool.and_eq_false_iff, bne_eq_false_iff_eq] at plain
      rcases plain with ((((rfl | rfl) | rfl) | rfl) | rfl) | rfl
      · exact @mirror_token .opening _ trivial
      · exact @mirror_token .closing _ trivial
      · exact @mirror_token .ampersand _ trivial
      · have noTail : d ≠ '-' := by
          rintro rfl
          cases noArrow
        refine mirror_cons_fragment (by simp) ?_
        rintro _ ⟨⟩
        simpa [Token.joins, Token.isPlain] using noTail
      · by_cases mark : d = '>'
        · rw [mark, ih (Step.arrow?_of_ne cs (by decide) (by decide))]
          exact @mirror_token .post cs trivial
        · refine mirror_cons_fragment (by simp) ?_
          rintro _ ⟨⟩
          simpa [Token.joins, Token.isPlain] using mark
      · have noHead : d ≠ '>' := by
          rintro rfl
          cases noArrow
        refine mirror_cons_fragment (by simp) ?_
        rintro _ ⟨⟩
        simpa [Token.joins, Token.isPlain] using noHead

/-- Plain characters stay as they are. -/
theorem mirror_append_left {xs : List Char} (plain : ∀ c ∈ xs, Token.isPlain c = true) (ys : List Char) :
    mirror (xs ++ ys) = xs ++ mirror ys := by
  induction xs with
  | nil => rfl
  | cons c xs ih =>
    obtain ⟨atHead, atTail⟩ := List.forall_mem_cons.mp plain
    rw [List.cons_append, mirror_cons_plain atHead, ih atTail, List.cons_append]

theorem mirror_of_isPlain {cs : List Char} (plain : ∀ c ∈ cs, Token.isPlain c = true) : mirror cs = cs := by
  have alone := mirror_append_left plain []
  rwa [List.append_nil, mirror_nil, List.append_nil] at alone

/-- Texts are turned one by one where no arrow lies across them. -/
theorem mirror_append {xs ys : List Char} (seam : ∀ c ∈ ys.head?, c ≠ '>' ∧ c ≠ '-') :
    mirror (xs ++ ys) = mirror xs ++ mirror ys := by
  induction xs using arrow_induction with
  | nil => rfl
  | arrow a xs ih => rw [List.append_assoc, mirror_arrow, ih, mirror_arrow, List.append_assoc]
  | cons c xs noArrow ih =>
    have noArrow' : arrow? (c :: (xs ++ ys)) = none := by
      rw [arrow?_cons_eq_none] at noArrow ⊢
      cases xs with
      | cons d xs => exact noArrow
      | nil => exact ⟨fun both => (seam _ both.2).1 rfl, fun both => (seam _ both.2).2 rfl⟩
    rw [List.cons_append, mirror_cons noArrow', ih, mirror_cons noArrow, List.cons_append]

theorem length_mirror (cs : List Char) : (mirror cs).length = cs.length := by
  induction cs using arrow_induction with
  | nil => rfl
  | arrow a cs ih => rw [mirror_arrow, List.length_append, List.length_append, ih]; cases a <;> rfl
  | cons c cs noArrow ih => rw [mirror_cons noArrow, List.length_cons, List.length_cons, ih]

/-- Characters that belong to no arrow are neither lost nor added. -/
theorem mem_mirror {c : Char} (other : c ≠ '-' ∧ c ≠ '<' ∧ c ≠ '>') {cs : List Char} : c ∈ mirror cs ↔ c ∈ cs := by
  have noArrow (a : Arrow) : c ∉ a.chars := by
    obtain ⟨noTail, noHead, noHead'⟩ := other
    cases a <;> simp [Arrow.chars, noTail, noHead, noHead']
  induction cs using arrow_induction with
  | nil => rfl
  | arrow a cs ih => simp only [mirror_arrow, List.mem_append, noArrow, false_or, ih]
  | cons d cs begins ih =>
    rw [mirror_cons begins, List.mem_cons, List.mem_cons]
    exact or_congr_right ih

theorem mirror_eq_nil {cs : List Char} : mirror cs = [] ↔ cs = [] := by
  rw [← List.length_eq_zero_iff, length_mirror, List.length_eq_zero_iff]

theorem isEmpty_mirror (cs : List Char) : (mirror cs).isEmpty = cs.isEmpty := by
  rw [Bool.eq_iff_iff, List.isEmpty_iff, mirror_eq_nil, List.isEmpty_iff]

/-- Blanks stay where they are. -/
theorem dropWhile_mirror (cs : List Char) : (mirror cs).dropWhile isBlank = mirror (cs.dropWhile isBlank) := by
  induction cs using arrow_induction with
  | nil => rfl
  | arrow a cs _ =>
    rw [mirror_arrow, dropWhile_of_head, dropWhile_of_head, mirror_arrow]
    · cases a <;> rintro _ ⟨⟩ <;> decide
    · cases a <;> rintro _ ⟨⟩ <;> decide
  | cons c cs noArrow ih =>
    rw [mirror_cons noArrow, List.dropWhile_cons, List.dropWhile_cons]
    split
    · exact ih
    · exact (mirror_cons noArrow).symm

theorem isBlankText_mirror (cs : List Char) : isBlankText (mirror cs) = isBlankText cs := by
  rw [Bool.eq_iff_iff, ← dropWhile_eq_nil, dropWhile_mirror, mirror_eq_nil, dropWhile_eq_nil]

/-- No blank comes to stand at the end. -/
theorem getLast?_mirror {cs : List Char} (solid : ∀ c, cs.getLast? = some c → isBlank c = false) :
    ∀ c, (mirror cs).getLast? = some c → isBlank c = false := by
  induction cs using arrow_induction with
  | nil => exact solid
  | arrow a cs ih =>
    intro c last
    rw [mirror_arrow, List.getLast?_append, Option.or_eq_some_iff] at last
    rcases last with last | ⟨_, last⟩
    · refine ih (fun d atEnd => solid d ?_) c last
      rw [List.getLast?_append, atEnd]
      rfl
    · cases a <;> cases last <;> decide
  | cons c cs noArrow ih =>
    rw [mirror_cons noArrow]
    cases cs with
    | nil => exact solid
    | cons d cs =>
      rw [List.getLast?_cons_cons] at solid
      intro e last
      refine ih solid e ?_
      rwa [List.getLast?_cons_of_ne_nil (by rw [Ne, mirror_eq_nil]; exact List.cons_ne_nil d cs)] at last

theorem Trimmed.mirror {cs : List Char} (trimmed : Trimmed cs) : Trimmed (mirror cs) where
  head := by
    have front := dropWhile_mirror cs
    rw [dropWhile_of_head trimmed.head] at front
    rw [← front]
    exact head_dropWhile (Text.mirror cs)
  last := getLast?_mirror trimmed.last

/-- Trimming and turning do not disturb each other. -/
theorem trim_mirror (cs : List Char) : trim (mirror cs) = mirror (trim cs) := by
  obtain ⟨before, after, whole, blank, blank'⟩ := trim_between cs
  have plain {bs : List Char} (blank : isBlankText bs = true) : ∀ c ∈ bs, Token.isPlain c = true := fun c member =>
    isPlain_of_isBlank (List.all_eq_true.mp blank c member)
  have seam : ∀ c ∈ after.head?, c ≠ '>' ∧ c ≠ '-' := by
    intro c first
    have here := plain blank' c (List.mem_of_mem_head? first)
    constructor <;> rintro rfl <;> cases here
  have turned := congrArg mirror whole
  rw [mirror_append seam, mirror_append_left (plain blank), mirror_of_isPlain (plain blank')] at turned
  rw [turned, trim_append_right _ blank', trim_append_left _ blank, (trimmed_trim cs).mirror.trim_eq]

end Characters

section Involution

/-- In a clear text no character comes to begin an arrow. -/
theorem arrow?_cons_mirror {c : Char} {cs : List Char} (clear : Clear (c :: cs))
    (noArrow : arrow? (c :: cs) = none) :
    arrow? (c :: mirror cs) = none := by
  cases begins : arrow? cs with
  | none =>
    cases cs with
    | nil => exact noArrow
    | cons d cs =>
      rw [mirror_cons begins]
      rw [arrow?_cons_eq_none] at noArrow ⊢
      exact noArrow
  | some found =>
    obtain ⟨a, rest⟩ := found
    rw [Step.arrow?_spec begins] at clear ⊢
    rw [mirror_arrow, arrow?_cons_eq_none]
    cases a with
    | forward => exact ⟨by rintro ⟨_, ⟨⟩⟩, by rintro ⟨_, ⟨⟩⟩⟩
    | reverse =>
      refine ⟨by rintro ⟨_, ⟨⟩⟩, ?_⟩
      rintro ⟨rfl, _⟩
      exact clear ⟨[], rest, rfl⟩

theorem arrow?_mirror {cs : List Char} (clear : Clear cs) :
    arrow? (mirror cs) = (arrow? cs).map (Prod.map Arrow.flip mirror) := by
  cases cs using arrow_induction with
  | nil => rfl
  | arrow a cs => rw [mirror_arrow, Step.arrow?_chars, Step.arrow?_chars, Option.map_some, Prod.map_apply]
  | cons c cs noArrow => rw [mirror_cons noArrow, arrow?_cons_mirror clear noArrow, noArrow, Option.map_none]

theorem Clear.tail {xs ys : List Char} (clear : Clear (xs ++ ys)) : Clear ys :=
  clear.of_isInfix (List.suffix_append xs ys).isInfix

/-- Turning the arrows back gives the text again. -/
theorem mirror_mirror {cs : List Char} (clear : Clear cs) : mirror (mirror cs) = cs := by
  induction cs using arrow_induction with
  | nil => rfl
  | arrow a cs ih =>
    rw [mirror_arrow, mirror_arrow, ih clear.tail]
    cases a <;> rfl
  | cons c cs noArrow ih =>
    rw [mirror_cons noArrow, mirror_cons (arrow?_cons_mirror clear noArrow),
      ih (clear.of_isInfix ⟨[c], [], by simp⟩)]

/-- A mark `<<-` could only come from `<->`, which begins with the other arrow. -/
theorem Clear.mirror {cs : List Char} (clear : Clear cs) : Clear (mirror cs) := by
  induction cs using arrow_induction with
  | nil => exact clear
  | arrow a cs ih =>
    have behind := ih clear.tail
    rw [mirror_arrow]
    cases a <;> simpa [Clear, Arrow.flip, Arrow.chars, List.infix_cons_iff, List.cons_prefix_cons] using behind
  | cons c cs noArrow ih =>
    have clear' : Clear cs := clear.of_isInfix ⟨[c], [], by simp⟩
    rw [mirror_cons noArrow, Clear, List.infix_cons_iff, not_or]
    refine ⟨?_, ih clear'⟩
    rintro ⟨rest, here⟩
    obtain ⟨rfl, turned⟩ := List.cons.inj here
    have begins := arrow?_mirror clear'
    rw [← turned] at begins
    obtain ⟨⟨a, rest'⟩, begins', same⟩ := Option.map_eq_some_iff.mp begins.symm
    obtain ⟨reversed, _⟩ := Prod.mk.inj same
    rw [Step.arrow?_spec begins'] at noArrow
    cases a with
    | forward => cases noArrow
    | reverse => cases reversed

/-- A partial function that commutes with turning where it answers does so everywhere. -/
theorem eq_map_of_some {α : Type} {f : List Char → Option α} {turn : α → α}
    (turned : ∀ {cs x}, Clear cs → f cs = some x → f (mirror cs) = some (turn x))
    {cs : List Char} (clear : Clear cs) :
    f (mirror cs) = (f cs).map turn := by
  cases answer : f cs with
  | some x => exact turned clear answer
  | none =>
    cases answer' : f (mirror cs) with
    | none => rfl
    | some y =>
      have back := turned clear.mirror answer'
      rw [mirror_mirror clear, answer] at back
      cases back

end Involution

end Text

namespace Token

theorem chars_mirror {t : Token} (lexed : Lexed [t]) : t.mirror.chars = Text.mirror t.chars := by
  cases lexed with
  | cons ends _ =>
    have alone := Text.mirror_token ends
    rw [charsOf_nil, List.append_nil, Text.mirror_nil, List.append_nil] at alone
    exact alone.symm

theorem charsOf_map_mirror {ts : List Token} (lexed : Lexed ts) :
    charsOf (ts.map mirror) = Text.mirror (charsOf ts) := by
  rw [Text.mirror, lexed.lex_charsOf]

/-- The turned tokens of a clear text are tokens of a text. Only a `<` would take in a turned arrow. -/
theorem Lexed.mirror {ts : List Token} (lexed : Lexed ts) (clear : Text.Clear (charsOf ts)) :
    Lexed (ts.map mirror) := by
  induction lexed with
  | nil => exact .nil
  | @cons t ts ends rest ih =>
    rw [charsOf_cons] at clear
    refine .cons ?_ (ih clear.tail)
    cases t with
    | arrow | post | opening | closing | ampersand => trivial
    | text cs =>
      refine ⟨ends.1, ?_⟩
      intro c last d first
      cases ts with
      | nil => cases first
      | cons u us =>
        cases u with
        | arrow a =>
          cases a with
          | forward =>
            cases first
            simp [joins, isPlain]
          | reverse =>
            cases first
            have apart : c ≠ '<' := by
              rintro rfl
              obtain ⟨init, rfl⟩ := List.getLast?_eq_some_iff.mp last
              exact clear ⟨init, charsOf us, by simp [chars, Arrow.chars]⟩
            simp [joins, isPlain, apart]
        | post | opening | closing | ampersand =>
          cases first
          exact ends.2 c last _ rfl
        | text cs' =>
          cases rest with
          | cons ends' _ =>
            have atHead (behind : List Char) : ((text cs').chars ++ behind).head? = cs'.head? :=
              List.head?_append_of_ne_nil _ ends'.chars_ne_nil
            refine ends.2 c last d ?_
            rw [charsOf_cons, atHead, ← atHead]
            exact first

/-- In a clear text turning the arrows turns the arrow tokens. -/
theorem lex_mirror {cs : List Char} (clear : Text.Clear cs) : lex (Text.mirror cs) = (lex cs).map mirror := by
  refine lex_eq_iff.mpr ⟨rfl, (lexed_lex cs).mirror ?_⟩
  rwa [charsOf_lex]

theorem hasArrow_mirror {cs : List Char} (clear : Text.Clear cs) : hasArrow (Text.mirror cs) = hasArrow cs := by
  rw [hasArrow, lex_mirror clear, List.any_map, hasArrow]
  congr 1
  funext t
  cases t <;> rfl

theorem unopened_map_mirror (ts : List Token) : unopened (ts.map mirror) = unopened ts := by
  induction ts with
  | nil => rfl
  | cons t ts ih =>
    rw [List.map_cons, unopened_cons, unopened_cons, ih]
    cases t <;> rfl

theorem unclosed_map_mirror (ts : List Token) : unclosed (ts.map mirror) = unclosed ts := by
  induction ts with
  | nil => rfl
  | cons t ts ih =>
    rw [List.map_cons, unclosed_cons, unclosed_cons, unopened_map_mirror, ih]
    cases t <;> rfl

theorem isBalanced_map_mirror (ts : List Token) : isBalanced (ts.map mirror) = isBalanced ts := by
  rw [isBalanced, unopened_map_mirror, unclosed_map_mirror, isBalanced]

end Token

namespace Pieces

open Text (Clear)

variable {isSeparator : Token → Bool}

/-- The pieces with all arrows turned. -/
def mirror (p : Pieces) : Pieces where
  first := p.first.map Token.mirror
  rest := p.rest.map fun (sep, ts) => (sep.mirror, ts.map Token.mirror)

theorem cutAt_mirror (same : ∀ t : Token, isSeparator t.mirror = isSeparator t) (depth : Nat) (ts : List Token) :
    cutAt isSeparator depth (PlacedToken.all (ts.map Token.mirror)) =
      (cutAt isSeparator depth (PlacedToken.all ts)).mirror := by
  induction ts generalizing depth with
  | nil => rfl
  | cons t ts ih =>
    have pairs (n : Nat) : PlacedToken.isPaired depth ⟨t.mirror, n⟩ = PlacedToken.isPaired depth ⟨t, n⟩ := by
      cases t <;> rfl
    have deeper (n : Nat) : PlacedToken.depthBehind depth ⟨t.mirror, n⟩ = PlacedToken.depthBehind depth ⟨t, n⟩ := by
      cases t <;> rfl
    rw [List.map_cons, PlacedToken.all_cons, PlacedToken.all_cons, Token.unopened_map_mirror, cutAt, cutAt, pairs,
      deeper, ih, same]
    split <;> rfl

/-- A clear text and its mirror are cut at the same places. -/
theorem cut_mirror (same : ∀ t : Token, isSeparator t.mirror = isSeparator t) {cs : List Char} (clear : Clear cs) :
    cut isSeparator (Text.mirror cs) = (cut isSeparator cs).mirror := by
  rw [cut, Token.lex_mirror clear, cutAt_mirror same, cut]

theorem parts_mirror (same : ∀ t : Token, isSeparator t.mirror = isSeparator t)
    {cs : List Char} (clear : Clear cs) :
    (cut isSeparator (Text.mirror cs)).parts = (cut isSeparator cs).parts.map Text.mirror := by
  rw [cut_mirror same clear, parts, parts, mirror, Token.charsOf_map_mirror (lexed_first cs), List.map_cons,
    List.map_map, List.map_map]
  congr 1
  refine List.map_congr_left fun piece member => ?_
  exact Token.charsOf_map_mirror (lexed_rest member)

theorem interleaved_mirror (same : ∀ t : Token, isSeparator t.mirror = isSeparator t) {cs : List Char}
    (clear : Clear cs) :
    (cut isSeparator (Text.mirror cs)).interleaved = (cut isSeparator cs).interleaved.map Text.mirror := by
  rw [cut_mirror same clear, interleaved, interleaved, mirror, Token.charsOf_map_mirror (lexed_first cs),
    List.map_cons, List.map_flatMap, List.flatMap_map]
  congr 1
  refine List.flatMap_congr fun piece member => ?_
  have lexed : Token.Lexed [piece.1] := by
    have inside : piece.1 ∈ (cut isSeparator cs).tokens :=
      List.mem_append_right _ (List.mem_flatMap.mpr ⟨piece, member, List.mem_cons_self⟩)
    obtain ⟨before, after, whole⟩ := List.append_of_mem inside
    refine (Token.lexed_lex cs).of_isInfix ⟨before, after, ?_⟩
    rw [← @tokens_cut isSeparator cs, whole, List.append_assoc, List.singleton_append]
  rw [List.map_cons, List.map_cons, List.map_nil, ← Token.charsOf_map_mirror (lexed_rest member),
    ← Token.chars_mirror lexed]

end Pieces

open Text (Clear)

theorem groupInside?_mirror {cs : List Char} (clear : Clear cs) :
    groupInside? (Text.mirror cs) = (groupInside? cs).map Text.mirror := by
  refine Text.eq_map_of_some ?_ clear
  intro cs inside clear found
  obtain ⟨body, rfl, balanced, solid, rfl⟩ := groupInside?_eq_some.mp found
  have clear' : Clear body := clear.of_isInfix ⟨['('], [')'], by simp⟩
  have turned : Text.mirror ('(' :: (body ++ [')'])) = '(' :: (Text.mirror body ++ [')']) := by
    rw [Text.mirror_cons (Step.arrow?_of_ne _ (by decide) (by decide)), Text.mirror_append (by simp)]
    rfl
  have balanced' : Text.Balanced (Text.mirror body) := by
    rwa [Text.Balanced, Token.lex_mirror clear', Token.isBalanced_map_mirror]
  rw [turned, groupInside?_group balanced', Text.isBlankText_mirror, solid,
    if_neg Bool.false_ne_true, Text.trim_mirror]

theorem branchesOf_mirror {inside : List Char} (clear : Clear inside) :
    branchesOf (Text.mirror inside) = (branchesOf inside).map Text.mirror := by
  rw [branchesOf, Pieces.parts_mirror (fun t => by cases t <;> rfl) clear, List.map_map, branchesOf, List.map_map]
  exact List.map_congr_left fun part _ => Text.trim_mirror part

namespace Part

/-- The part, with all arrows turned. -/
def mirror : Part → Part
  | .arrow a => .arrow a.flip
  | .text cs => .text (Text.mirror cs)

theorem chars_mirror (p : Part) : p.mirror.chars = Text.mirror p.chars := by
  cases p with
  | arrow a => cases a <;> rfl
  | text cs => rfl

theorem isArrow_mirror (p : Part) : p.mirror.isArrow = p.isArrow := by
  cases p <;> rfl

theorem ofChars_mirror {cs : List Char} (clear : Clear cs) : ofChars (Text.mirror cs) = (ofChars cs).mirror := by
  by_cases arrow : ∃ a : Arrow, cs = a.chars
  · obtain ⟨a, rfl⟩ := arrow
    cases a <;> rfl
  · have other (a : Arrow) : cs ≠ a.chars := fun same => arrow ⟨a, same⟩
    have other' (a : Arrow) : Text.mirror cs ≠ a.chars := by
      intro same
      refine other a.flip ?_
      rw [← Text.mirror_mirror clear, same]
      cases a <;> rfl
    rw [ofChars, if_neg (other' .forward), if_neg (other' .reverse), ofChars, if_neg (other .forward),
      if_neg (other .reverse), mirror]

/-- A clear text and its mirror have the same parts, but for their arrows. -/
theorem split_mirror {cs : List Char} (clear : Clear cs) : split (Text.mirror cs) = (split cs).map mirror := by
  have trims : Text.trim ∘ Text.mirror = Text.mirror ∘ Text.trim := funext Text.trim_mirror
  have solids : (fun cs : List Char => !cs.isEmpty) ∘ Text.mirror = fun cs => !cs.isEmpty :=
    funext fun cs => congrArg (!·) (Text.isEmpty_mirror cs)
  rw [split, Pieces.interleaved_mirror (fun t => by cases t <;> rfl) clear, List.map_map, trims, ← List.map_map,
    List.filter_map, solids, List.map_map, split, List.map_map]
  refine List.map_congr_left fun text member => ofChars_mirror (clear.of_isInfix ?_)
  obtain ⟨piece, inside, rfl⟩ := List.mem_map.mp (List.mem_of_mem_filter member)
  have within := List.infix_of_mem_flatten inside
  rw [Pieces.flatten_cut] at within
  exact (Text.trim_isInfix piece).trans within

end Part

end TransferFlow
