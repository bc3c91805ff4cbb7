import Mathlib.Data.List.Basic
import TransferFlow.Proofs.Blanks

namespace TransferFlow.Token

open Text (isBlank isBlankText trimRight trim)

/-- A text that is one token: a run of plain characters, or an arrow head or tail alone. -/
inductive IsText : List Char → Prop
  | run {cs : List Char} : cs ≠ [] → (∀ c ∈ cs, isPlain c = true) → IsText cs
  | fragment {c : Char} : c = '-' ∨ c = '<' ∨ c = '>' → IsText [c]

/-- Whether a text that ends in `c` takes in `d` behind it, as plain text or as part of a sign. -/
def joins (c d : Char) : Bool :=
  (isPlain c && isPlain d) || (c == '-' && d == '>') || (c == '<' && d == '-') || (c == '>' && d == '>')

/-- Whether a token ends where `behind` begins. Only a text can be longer than it seems. -/
def Ends : Token → List Char → Prop
  | .text cs, behind => IsText cs ∧ ∀ c ∈ cs.getLast?, ∀ d ∈ behind.head?, joins c d = false
  | _, _ => True

/-- Every token ends where the next one begins. -/
inductive Lexed : List Token → Prop
  | nil : Lexed []
  | cons {t : Token} {ts : List Token} : t.Ends (charsOf ts) → Lexed ts → Lexed (t :: ts)

theorem IsText.ne_nil {cs : List Char} (isText : IsText cs) : cs ≠ [] := by
  cases isText with
  | run nonempty _ => exact nonempty
  | fragment _ => exact List.cons_ne_nil _ _

theorem Ends.chars_ne_nil {t : Token} {behind : List Char} (ends : t.Ends behind) : t.chars ≠ [] := by
  cases t with
  | arrow a => cases a <;> exact List.cons_ne_nil _ _
  | text cs => exact ends.1.ne_nil
  | post | opening | closing | ampersand => exact List.cons_ne_nil _ _

/-- A token that ends before a text ends before every beginning of it. -/
theorem Ends.mono {t : Token} {behind behind' : List Char} (ends : t.Ends behind)
    (heads : ∀ d ∈ behind'.head?, d ∈ behind.head?) : t.Ends behind' := by
  cases t with
  | text cs => exact ⟨ends.1, fun c last d first => ends.2 c last d (heads d first)⟩
  | arrow | post | opening | closing | ampersand => trivial

section Lexer

theorem lexAfter_plain {c : Char} (run rest : List Char) (plain : isPlain c = true) :
    lexAfter run (c :: rest) = lexAfter (c :: run) rest := by
  conv => lhs; unfold lexAfter
  split <;> simp_all [isPlain]

/-- A run of plain characters ends where a character follows that is not plain. -/
theorem lexAfter_run {cs : List Char} (run : List Char) (behind : ∀ d ∈ cs.head?, isPlain d = false) :
    lexAfter run cs = endRun run (lex cs) := by
  unfold lex lexAfter
  split <;> simp_all [endRun]

theorem lexAfter_append {cs : List Char} (run rest : List Char) (plain : ∀ c ∈ cs, isPlain c = true) :
    lexAfter run (cs ++ rest) = lexAfter (cs.reverse ++ run) rest := by
  induction cs generalizing run with
  | nil => rfl
  | cons c cs ih =>
    obtain ⟨atHead, atTail⟩ := List.forall_mem_cons.mp plain
    rw [List.cons_append, lexAfter_plain _ _ atHead, ih _ atTail, List.reverse_cons, List.append_assoc]
    rfl

theorem lex_fragment {c : Char} {rest : List Char} (fragment : c = '-' ∨ c = '<' ∨ c = '>')
    (free : ∀ d ∈ rest.head?, joins c d = false) : lex (c :: rest) = .text [c] :: lex rest := by
  unfold lex
  conv => lhs; unfold lexAfter
  rcases fragment with rfl | rfl | rfl <;> split <;> simp_all [endRun, isPlain, joins]
  all_goals
    rename_i same
    obtain ⟨rfl, rfl⟩ := same
    rfl

/-- The lexer takes a token that ends where it should, and goes on behind it. -/
theorem lex_append {t : Token} {behind : List Char} (ends : t.Ends behind) :
    lex (t.chars ++ behind) = t :: lex behind := by
  cases t with
  | arrow a => cases a <;> rfl
  | post | opening | closing | ampersand => rfl
  | text cs =>
    obtain ⟨isText, free⟩ := ends
    cases isText with
    | fragment fragment => exact lex_fragment fragment (free _ rfl)
    | run nonempty plain =>
      have stops : ∀ d ∈ behind.head?, isPlain d = false := by
        intro d first
        have apart := free _ (List.getLast?_eq_some_getLast nonempty) d first
        simp only [joins, Bool.or_eq_false_iff, plain _ (List.getLast_mem nonempty), Bool.true_and] at apart
        exact apart.1.1.1
      have filled : cs.reverse.isEmpty = false := by simpa using nonempty
      rw [lex, chars, lexAfter_append _ _ plain, List.append_nil, lexAfter_run _ stops, endRun, filled,
        List.reverse_reverse]
      rfl

theorem Lexed.lex_charsOf {ts : List Token} (lexed : Lexed ts) : lex (charsOf ts) = ts := by
  induction lexed with
  | nil => rfl
  | cons ends _ ih => rw [charsOf_cons, lex_append ends, ih]

theorem lexed_endRun {run : List Char} {ts : List Token} (plain : ∀ c ∈ run, isPlain c = true)
    (lexed : Lexed ts) (stops : ∀ d ∈ (charsOf ts).head?, isPlain d = false) : Lexed (endRun run ts) := by
  unfold endRun
  split
  · exact lexed
  · rename_i filled
    refine .cons ⟨.run (by simpa using filled) (by simpa using plain), ?_⟩ lexed
    intro c last d first
    have atEnd : isPlain c = true := plain c (by simpa using List.mem_of_getLast? last)
    have other := stops d first
    have signs : c ≠ '-' ∧ c ≠ '<' ∧ c ≠ '>' := by
      refine ⟨?_, ?_, ?_⟩ <;> rintro rfl <;> cases atEnd
    simp [joins, other, signs]

theorem lexed_lexAfter (run cs : List Char) (plain : ∀ c ∈ run, isPlain c = true) :
    Lexed (lexAfter run cs) := by
  fun_induction lexAfter run cs with
  | case1 run => exact lexed_endRun plain .nil (by simp)
  | case2 run rest ih | case3 run rest ih | case4 run rest ih | case5 run rest ih | case6 run rest ih
  | case7 run rest ih =>
    exact lexed_endRun plain (.cons trivial (ih (by simp))) (by simp [chars, Arrow.chars, isPlain])
  | case8 run c rest _ _ _ _ _ _ inRun ih =>
    exact ih (List.forall_mem_cons.mpr ⟨inRun, plain⟩)
  | case9 run c rest noForward noReverse noPost _ _ _ sign ih =>
    have fragment : c = '-' ∨ c = '<' ∨ c = '>' := by
      simp only [isPlain, Bool.and_eq_true, bne_iff_ne] at sign
      grind
    refine lexed_endRun plain (.cons ⟨.fragment fragment, ?_⟩ (ih (by simp))) ?_
    · intro c' last d first
      have spelled := charsOf_lex rest
      rw [lex] at spelled
      rw [spelled] at first
      cases rest with
      | nil => cases first
      | cons d' rest =>
        cases first
        cases last
        rcases fragment with rfl | rfl | rfl <;> simp_all [joins, isPlain]
    · intro d first
      cases first
      simpa using sign

theorem lexed_lex (cs : List Char) : Lexed (lex cs) :=
  lexed_lexAfter [] cs (by simp)

/-- Lexing answers the one list of tokens that spells the text and in which every token ends where the
next one begins. -/
theorem lex_eq_iff {cs : List Char} {ts : List Token} : lex cs = ts ↔ charsOf ts = cs ∧ Lexed ts := by
  constructor
  · rintro rfl
    exact ⟨charsOf_lex cs, lexed_lex cs⟩
  · rintro ⟨rfl, lexed⟩
    exact lexed.lex_charsOf

end Lexer

section Slices

theorem Lexed.left {us vs : List Token} (lexed : Lexed (us ++ vs)) : Lexed us := by
  induction us with
  | nil => exact .nil
  | cons t us ih =>
    rw [List.cons_append] at lexed
    cases lexed with
    | cons ends rest =>
      rw [charsOf_append] at ends
      exact .cons (ends.mono fun _ => List.mem_head?_append_of_mem_head?) (ih rest)

theorem Lexed.right {us vs : List Token} (lexed : Lexed (us ++ vs)) : Lexed vs := by
  induction us with
  | nil => exact lexed
  | cons t us ih =>
    cases lexed with
    | cons _ rest => exact ih rest

/-- What follows tokens does not change where they begin. -/
theorem Lexed.head?_append {ts : List Token} (lexed : Lexed ts) (nonempty : ts ≠ []) (behind : List Char) :
    (charsOf ts ++ behind).head? = (charsOf ts).head? := by
  cases lexed with
  | nil => exact absurd rfl nonempty
  | @cons t ts ends _ =>
    rw [charsOf_cons]
    cases shape : t.chars with
    | nil => exact absurd shape ends.chars_ne_nil
    | cons c cs => rfl

/-- Two lists of tokens fit together where the first one's last token ends. -/
theorem Lexed.append {us vs : List Token} (first : Lexed us) (second : Lexed vs)
    (seam : ∀ t ∈ us.getLast?, t.Ends (charsOf vs)) : Lexed (us ++ vs) := by
  induction first with
  | nil => exact second
  | @cons t us ends rest ih =>
    cases us with
    | nil => exact .cons (seam t rfl) second
    | cons u us =>
      rw [List.cons_append]
      refine .cons (ends.mono ?_) (ih (by simpa using seam))
      intro d atHead
      rwa [charsOf_append, rest.head?_append (List.cons_ne_nil _ _)] at atHead

/-- The last of some tokens ends where those behind them begin. -/
theorem Lexed.seam {us vs : List Token} (lexed : Lexed (us ++ vs)) : ∀ t ∈ us.getLast?, t.Ends (charsOf vs) := by
  induction us with
  | nil => simp
  | cons t us ih =>
    rw [List.cons_append] at lexed
    cases lexed with
    | cons ends rest =>
      cases us with
      | nil =>
        intro u last
        cases last
        exact ends
      | cons u us => simpa using ih rest

theorem Lexed.ends_of_mem {ts : List Token} (lexed : Lexed ts) {t : Token} (member : t ∈ ts) :
    ∃ behind, t.Ends behind := by
  induction lexed with
  | nil => cases member
  | cons ends _ ih =>
    rcases List.mem_cons.mp member with rfl | member
    · exact ⟨_, ends⟩
    · exact ih member

theorem chars_isInfix_charsOf {ts : List Token} {t : Token} (member : t ∈ ts) : t.chars <:+: charsOf ts := by
  obtain ⟨us, vs, rfl⟩ := List.append_of_mem member
  exact ⟨charsOf us, charsOf vs, by rw [charsOf_append, charsOf_cons, List.append_assoc]⟩

theorem Lexed.of_isInfix {ts us : List Token} (lexed : Lexed ts) (inside : us <:+: ts) : Lexed us := by
  obtain ⟨before, after, rfl⟩ := inside
  exact lexed.left.right

/-- A group is its parentheses around the tokens inside. -/
theorem lex_group (cs : List Char) : lex ('(' :: (cs ++ [')'])) = .opening :: (lex cs ++ [.closing]) := by
  have inner : lex (cs ++ [')']) = lex cs ++ [.closing] := by
    refine lex_eq_iff.mpr ⟨by rw [charsOf_append, charsOf_lex]; rfl, ?_⟩
    refine (lexed_lex cs).append (.cons trivial .nil) ?_
    intro t last
    obtain ⟨behind, ends⟩ := (lexed_lex cs).ends_of_mem (List.mem_of_getLast? last)
    cases t with
    | text cs =>
      refine ⟨ends.1, ?_⟩
      intro c _ d first
      cases first
      simp [joins, isPlain]
    | arrow | post | opening | closing | ampersand => trivial
  rw [← inner]
  exact @lex_append .opening (cs ++ [')']) trivial

end Slices

section Trimming

/-- Trims the first token, if it is a text. -/
def trimFront : List Token → List Token
  | .text cs :: ts => if isBlankText cs then ts else .text (cs.dropWhile isBlank) :: ts
  | ts => ts

/-- Trims the last token, if it is a text. -/
def trimBack : List Token → List Token
  | [] => []
  | [.text cs] => if isBlankText cs then [] else [.text (trimRight cs)]
  | t :: ts => t :: trimBack ts

theorem IsText.dropWhile {cs : List Char} (isText : IsText cs) (solid : isBlankText cs = false) :
    IsText (cs.dropWhile isBlank) := by
  cases isText with
  | run _ plain =>
    refine .run ?_ fun c member => plain c ((List.dropWhile_suffix _).subset member)
    intro none
    rw [Text.dropWhile_eq_nil.mp none] at solid
    cases solid
  | @fragment c fragment =>
    have sign : isBlank c = false := by rcases fragment with rfl | rfl | rfl <;> decide
    rw [List.dropWhile_cons, if_neg (by simp [sign])]
    exact .fragment fragment

theorem IsText.trimRight {cs : List Char} (isText : IsText cs) (solid : isBlankText cs = false) :
    IsText (trimRight cs) := by
  cases isText with
  | run _ plain =>
    refine .run ?_ fun c member => plain c ((Text.trimRight_isPrefix cs).subset member)
    intro none
    rw [Text.trimRight_eq_nil.mp none] at solid
    cases solid
  | @fragment c fragment =>
    have sign : isBlank c = false := by rcases fragment with rfl | rfl | rfl <;> decide
    rw [Text.trimRight_of_last (by simpa using sign)]
    exact .fragment fragment

/-- Behind a blank text no plain text follows, so nothing more is to be trimmed. -/
theorem Ends.head_solid {cs behind : List Char} (ends : (Token.text cs).Ends behind)
    (blank : isBlankText cs = true) : ∀ d ∈ behind.head?, isBlank d = false := by
  intro d first
  obtain ⟨isText, free⟩ := ends
  have apart := free _ (List.getLast?_eq_some_getLast isText.ne_nil) d first
  have last := List.all_eq_true.mp blank _ (List.getLast_mem isText.ne_nil)
  simp only [joins, Bool.or_eq_false_iff, Text.isPlain_of_isBlank last, Bool.true_and] at apart
  cases plain : isBlank d with
  | false => rfl
  | true => rw [Text.isPlain_of_isBlank plain] at apart; cases apart.1.1.1

theorem trimFront_spec {ts : List Token} (lexed : Lexed ts) :
    charsOf (trimFront ts) = (charsOf ts).dropWhile isBlank ∧ Lexed (trimFront ts) := by
  fun_cases trimFront ts with
  | case1 cs ts blank =>
    cases lexed with
    | cons ends rest =>
      refine ⟨?_, rest⟩
      rw [charsOf_cons, chars, Text.dropWhile_append_left _ blank,
        Text.dropWhile_of_head (ends.head_solid blank)]
  | case2 cs ts solid =>
    rw [Bool.not_eq_true] at solid
    cases lexed with
    | cons ends rest =>
      have kept : cs.dropWhile isBlank ≠ [] := (ends.1.dropWhile solid).ne_nil
      refine ⟨?_, .cons ⟨ends.1.dropWhile solid, ?_⟩ rest⟩
      · rw [charsOf_cons, charsOf_cons, chars, chars, List.dropWhile_append, if_neg (by simpa using kept)]
      · intro c last
        refine ends.2 c ?_
        have suffix := List.dropWhile_suffix isBlank (l := cs)
        obtain ⟨blanks, whole⟩ := suffix
        rw [← whole, List.getLast?_append, Option.mem_def.mp last]
        rfl
  | case3 ts noText =>
    refine ⟨?_, lexed⟩
    cases lexed with
    | nil => rfl
    | @cons t ts ends _ =>
      refine (Text.dropWhile_of_head ?_).symm
      intro d first
      rw [charsOf_cons] at first
      cases t with
      | text cs => exact absurd rfl (noText cs ts)
      | arrow a => cases a <;> cases first <;> decide
      | post | opening | closing | ampersand => cases first; decide

/-- White space in front of a text is in its first token alone. -/
theorem lex_dropWhile (cs : List Char) : lex (cs.dropWhile isBlank) = trimFront (lex cs) := by
  obtain ⟨spelled, lexed⟩ := trimFront_spec (lexed_lex cs)
  rw [charsOf_lex] at spelled
  exact lex_eq_iff.mpr ⟨spelled, lexed⟩

/-- A token that ends before blanks has no blank at its own end. -/
theorem Ends.trimRight_chars {t : Token} {behind : List Char} (ends : t.Ends behind)
    (blank : isBlankText behind = true) (noText : behind = [] → ∀ cs, t ≠ .text cs) :
    trimRight t.chars = t.chars := by
  cases t with
  | arrow a => cases a <;> rfl
  | post | opening | closing | ampersand => rfl
  | text cs =>
    cases behind with
    | nil => exact absurd rfl (noText rfl cs)
    | cons d behind =>
      have first : isBlank d = true := by
        rw [isBlankText, List.all_cons, Bool.and_eq_true] at blank
        exact blank.1
      refine Text.trimRight_of_last ?_
      intro c last
      have apart := ends.2 c last d rfl
      cases solid : isBlank c with
      | false => rfl
      | true => simp [joins, Text.isPlain_of_isBlank solid, Text.isPlain_of_isBlank first] at apart

theorem trimBack_spec {ts : List Token} (lexed : Lexed ts) :
    charsOf (trimBack ts) = trimRight (charsOf ts) ∧ Lexed (trimBack ts) := by
  fun_induction trimBack ts with
  | case1 => exact ⟨rfl, .nil⟩
  | case2 cs blank =>
    refine ⟨?_, .nil⟩
    rw [charsOf_cons, chars, charsOf_nil, List.append_nil, Text.trimRight_eq_nil.mpr blank]
  | case3 cs solid =>
    rw [Bool.not_eq_true] at solid
    cases lexed with
    | cons ends _ =>
      refine ⟨?_, .cons ⟨ends.1.trimRight solid, by simp⟩ .nil⟩
      rw [charsOf_cons, charsOf_cons, chars, chars, charsOf_nil, List.append_nil, List.append_nil]
  | case4 t ts further ih =>
    cases lexed with
    | cons ends rest =>
      obtain ⟨spelled, lexed⟩ := ih rest
      have kept : t.chars ++ trimRight (charsOf ts) = trimRight (t.chars ++ charsOf ts) := by
        cases none : trimRight (charsOf ts) with
        | cons c cs =>
          rw [Text.trimRight_append (by rw [none]; exact List.cons_ne_nil _ _), none]
        | nil =>
          have blank := Text.trimRight_eq_nil.mp none
          rw [List.append_nil, Text.trimRight_append_right _ blank, ends.trimRight_chars blank]
          rintro empty cs rfl
          cases rest with
          | nil => exact further cs rfl rfl
          | cons ends' _ =>
            rw [charsOf_cons] at empty
            exact ends'.chars_ne_nil (List.append_eq_nil_iff.mp empty).1
      refine ⟨by rw [charsOf_cons, charsOf_cons, spelled, kept], .cons (ends.mono ?_) lexed⟩
      intro d first
      rw [spelled] at first
      obtain ⟨blanks, whole⟩ := Text.trimRight_isPrefix (charsOf ts)
      rw [← whole]
      exact List.mem_head?_append_of_mem_head? first

/-- White space at the end of a text is in its last token alone. -/
theorem lex_trimRight (cs : List Char) : lex (trimRight cs) = trimBack (lex cs) := by
  obtain ⟨spelled, lexed⟩ := trimBack_spec (lexed_lex cs)
  rw [charsOf_lex] at spelled
  exact lex_eq_iff.mpr ⟨spelled, lexed⟩

theorem lex_trim (cs : List Char) : lex (trim cs) = trimBack (trimFront (lex cs)) := by
  rw [trim, lex_trimRight, lex_dropWhile]

/-- The tokens other than text, which trimming leaves alone. -/
def signs (ts : List Token) : List Token :=
  ts.filter (·.kind != .text)

theorem signs_trimFront (ts : List Token) : signs (trimFront ts) = signs ts := by
  fun_cases trimFront ts with
  | case1 cs ts blank => rfl
  | case2 cs ts solid => rfl
  | case3 ts noText => rfl

theorem signs_trimBack (ts : List Token) : signs (trimBack ts) = signs ts := by
  fun_induction trimBack ts with
  | case1 => rfl
  | case2 cs blank => rfl
  | case3 cs solid => rfl
  | case4 t ts further ih =>
    rw [signs, signs] at ih
    rw [signs, signs, List.filter_cons, List.filter_cons, ih]

theorem signs_lex_trim (cs : List Char) : signs (lex (trim cs)) = signs (lex cs) := by
  rw [lex_trim, signs_trimBack, signs_trimFront]

/-- A test that no text passes sees the signs alone. -/
theorem any_signs (p : Token → Bool) (noText : ∀ cs, p (.text cs) = false) (ts : List Token) :
    (signs ts).any p = ts.any p := by
  induction ts with
  | nil => rfl
  | cons t ts ih =>
    rw [signs] at ih
    rw [signs, List.filter_cons, List.any_cons]
    split
    · rw [List.any_cons, ih]
    · rename_i isText
      cases t with
      | text cs => rw [noText, ih, Bool.false_or]
      | arrow | post | opening | closing | ampersand => exact absurd rfl isText

theorem hasArrow_trim (cs : List Char) : hasArrow (trim cs) = hasArrow cs := by
  have noText (cs : List Char) : isArrow (.text cs) = false := rfl
  rw [hasArrow, hasArrow, ← any_signs _ noText, signs_lex_trim, any_signs _ noText]

end Trimming

/-- The tokens of a text spell it, and none of them is empty. Whatever stretch of them is spelled again, it is lexed
to the same tokens, and trimmed to those with the blanks gone from a text in front and from a text at the end. -/
theorem stretches_of_lex (cs : List Char) :
    charsOf (lex cs) = cs ∧ (∀ t ∈ lex cs, t.chars ≠ []) ∧
      ∀ i j, let stretch := ((lex cs).take (j + 1)).drop i
        lex (charsOf stretch) = stretch ∧ lex (trim (charsOf stretch)) = trimBack (trimFront stretch) := by
  refine ⟨charsOf_lex cs, ?_, ?_⟩
  · intro t member
    obtain ⟨behind, ends⟩ := (lexed_lex cs).ends_of_mem member
    exact ends.chars_ne_nil
  · intro i j stretch
    have inside : stretch <:+: lex cs := (List.drop_suffix i _).isInfix.trans (List.take_prefix (j + 1) _).isInfix
    have same : lex (charsOf stretch) = stretch := ((lexed_lex cs).of_isInfix inside).lex_charsOf
    exact ⟨same, by rw [lex_trim, same]⟩

/-- Arrows beside loose heads and tails, and a stretch whose last text is blank. -/
theorem stretches_of_lex_heads :
    .text ['>'] ∈ lex "a <->> >- b & c".toList ∧ chars (.text ['>']) ≠ [] ∧
      lex "a <->> ".toList = [.text "a ".toList, .arrow .reverse, .post, .text [' ']] ∧
      lex (trim "a <->> ".toList) = [.text "a ".toList, .arrow .reverse, .post] := by
  obtain ⟨_, filled, again⟩ := stretches_of_lex "a <->> >- b & c".toList
  have member : .text ['>'] ∈ lex "a <->> >- b & c".toList := by decide
  exact ⟨member, filled _ member, (again 0 3).1, (again 0 3).2⟩

end TransferFlow.Token
