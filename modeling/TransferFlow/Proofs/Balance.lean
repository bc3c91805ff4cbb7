import TransferFlow.Grouping
import TransferFlow.Proofs.Lexing

namespace TransferFlow

namespace Token

/-- Counts a token behind a text in which `n` opening parentheses lack their closing one. -/
def countUnclosed (n : Nat) (t : Token) : Nat :=
  match t with
  | .opening => n + 1
  | .closing => n - 1
  | _ => n

theorem unclosed_eq (ts : List Token) : unclosed ts = ts.foldl countUnclosed 0 := rfl

/-- Groups open before a text are closed by it as far as it has closing parentheses to spare. -/
theorem foldl_countUnclosed (n : Nat) (ts : List Token) :
    ts.foldl countUnclosed n = (n - unopened ts) + unclosed ts := by
  induction ts generalizing n with
  | nil => rfl
  | cons t ts ih =>
    have unopened' : unopened (t :: ts) = t.countUnopened (unopened ts) := rfl
    rw [unclosed_eq, List.foldl_cons, List.foldl_cons, ih, ih (countUnclosed 0 t), unopened']
    cases t with
    | opening | closing | arrow | post | ampersand | text =>
      simp only [countUnopened, countUnclosed]
      omega

theorem unopened_cons (t : Token) (ts : List Token) : unopened (t :: ts) = t.countUnopened (unopened ts) := rfl

theorem unclosed_cons (t : Token) (ts : List Token) :
    unclosed (t :: ts) = (countUnclosed 0 t - unopened ts) + unclosed ts :=
  foldl_countUnclosed _ ts

/-- Tokens other than parentheses do not count. -/
theorem counts_of_ne {t : Token} (noOpening : t ≠ .opening) (noClosing : t ≠ .closing) (ts : List Token) :
    unopened (t :: ts) = unopened ts ∧ unclosed (t :: ts) = unclosed ts := by
  cases t with
  | opening => exact absurd rfl noOpening
  | closing => exact absurd rfl noClosing
  | arrow | post | ampersand | text => exact ⟨rfl, rfl⟩

theorem counts_of_noParen {ts : List Token} (noParen : ∀ t ∈ ts, t ≠ .opening ∧ t ≠ .closing) :
    unopened ts = 0 ∧ unclosed ts = 0 := by
  induction ts with
  | nil => exact ⟨rfl, rfl⟩
  | cons t ts ih =>
    obtain ⟨⟨noOpening, noClosing⟩, later⟩ := List.forall_mem_cons.mp noParen
    obtain ⟨same, same'⟩ := counts_of_ne noOpening noClosing ts
    rw [same, same']
    exact ih later

/-- Closing parentheses of the second text close groups that the first one leaves open. -/
theorem unopened_append (us vs : List Token) :
    unopened (us ++ vs) = unopened us + (unopened vs - unclosed us) := by
  induction us with
  | nil =>
    show unopened vs = 0 + (unopened vs - 0)
    omega
  | cons t us ih =>
    rw [List.cons_append, unopened_cons, unopened_cons, unclosed_cons, ih]
    cases t with
    | opening | closing | arrow | post | ampersand | text =>
      simp only [countUnopened, countUnclosed]
      omega

theorem unclosed_append (us vs : List Token) :
    unclosed (us ++ vs) = (unclosed us - unopened vs) + unclosed vs := by
  rw [unclosed_eq, List.foldl_append]
  exact foldl_countUnclosed _ vs

theorem isBalanced_iff {ts : List Token} : isBalanced ts = true ↔ unopened ts = 0 ∧ unclosed ts = 0 := by
  rw [isBalanced, Bool.and_eq_true, beq_iff_eq, beq_iff_eq]

/-- The parenthesis that a character is. -/
def paren? : Char → Option Token
  | '(' => some .opening
  | ')' => some .closing
  | _ => none

theorem paren?_of_isPlain {c : Char} (plain : isPlain c = true) : paren? c = none := by
  fun_cases paren? c with
  | case1 | case2 => cases plain
  | case3 => rfl

theorem IsText.filterMap_paren? {cs : List Char} (isText : IsText cs) : cs.filterMap paren? = [] := by
  rw [List.filterMap_eq_nil_iff]
  cases isText with
  | run _ plain => exact fun c member => paren?_of_isPlain (plain c member)
  | fragment fragment => rcases fragment with rfl | rfl | rfl <;> simp [paren?]

theorem filterMap_paren?_chars {t : Token} {behind : List Char} (ends : t.Ends behind) :
    t.chars.filterMap paren? = [t] ∨ t.chars.filterMap paren? = [] ∧ t ≠ .opening ∧ t ≠ .closing := by
  cases t with
  | opening | closing => exact Or.inl rfl
  | text cs => exact Or.inr ⟨ends.1.filterMap_paren?, by simp, by simp⟩
  | arrow a => cases a <;> exact Or.inr ⟨rfl, by simp, by simp⟩
  | post | ampersand => exact Or.inr ⟨rfl, by simp, by simp⟩

/-- Parentheses are characters, wherever a text is cut into tokens. -/
theorem counts_filterMap_paren? {ts : List Token} (lexed : Lexed ts) :
    unopened ((charsOf ts).filterMap paren?) = unopened ts ∧
      unclosed ((charsOf ts).filterMap paren?) = unclosed ts := by
  induction lexed with
  | nil => exact ⟨rfl, rfl⟩
  | @cons t ts ends _ ih =>
    obtain ⟨unopened', unclosed'⟩ := ih
    rw [charsOf_cons, List.filterMap_append]
    rcases filterMap_paren?_chars ends with paren | ⟨none, noOpening, noClosing⟩
    · rw [paren, List.singleton_append, unopened_cons, unopened_cons, unclosed_cons, unclosed_cons, unopened',
        unclosed']
      exact ⟨rfl, rfl⟩
    · obtain ⟨same, same'⟩ := counts_of_ne noOpening noClosing ts
      rw [none, List.nil_append, same, same']
      exact ⟨unopened', unclosed'⟩

end Token

namespace Text

open Token (paren? unopened unclosed)

/-- The parentheses of a text, in order. -/
def parens (cs : List Char) : List Token :=
  cs.filterMap paren?

theorem parens_append (xs ys : List Char) : parens (xs ++ ys) = parens xs ++ parens ys :=
  List.filterMap_append

theorem unopened_parens (cs : List Char) : unopened (parens cs) = unopened (Token.lex cs) := by
  have counts := (Token.counts_filterMap_paren? (Token.lexed_lex cs)).1
  rwa [Token.charsOf_lex] at counts

theorem unclosed_parens (cs : List Char) : unclosed (parens cs) = unclosed (Token.lex cs) := by
  have counts := (Token.counts_filterMap_paren? (Token.lexed_lex cs)).2
  rwa [Token.charsOf_lex] at counts

/-- Every parenthesis of the text has its partner in the text. -/
def Balanced (cs : List Char) : Prop :=
  Token.isBalanced (Token.lex cs) = true

theorem balanced_iff {cs : List Char} : Balanced cs ↔ unopened (parens cs) = 0 ∧ unclosed (parens cs) = 0 := by
  rw [unopened_parens, unclosed_parens]
  exact Token.isBalanced_iff

theorem balanced_congr {xs ys : List Char} (same : parens xs = parens ys) : Balanced xs ↔ Balanced ys := by
  rw [balanced_iff, balanced_iff, same]

theorem parens_of_isPlain {cs : List Char} (plain : ∀ c ∈ cs, Token.isPlain c = true) : parens cs = [] := by
  rw [parens, List.filterMap_eq_nil_iff]
  exact fun c member => Token.paren?_of_isPlain (plain c member)

theorem parens_of_isBlankText {cs : List Char} (blank : isBlankText cs = true) : parens cs = [] :=
  parens_of_isPlain fun c member => isPlain_of_isBlank (List.all_eq_true.mp blank c member)

theorem parens_trim (cs : List Char) : parens (trim cs) = parens cs := by
  obtain ⟨before, after, whole, blank, blank'⟩ := trim_between cs
  have split := congrArg parens whole
  rw [parens_append, parens_append, parens_of_isBlankText blank, parens_of_isBlankText blank', List.nil_append,
    List.append_nil] at split
  exact split.symm

theorem balanced_trim {cs : List Char} : Balanced (trim cs) ↔ Balanced cs :=
  balanced_congr (parens_trim cs)

/-- A balanced text may be cut where no group is open, and nowhere else. -/
theorem balanced_charsOf {ts : List Token} (lexed : Token.Lexed ts) :
    Balanced (Token.charsOf ts) ↔ unopened ts = 0 ∧ unclosed ts = 0 := by
  obtain ⟨unopened', unclosed'⟩ := Token.counts_filterMap_paren? lexed
  rw [balanced_iff, parens, unopened', unclosed']

end Text

namespace PlacedToken

theorem isPaired_other {t : Token} (noOpening : t ≠ .opening) (noClosing : t ≠ .closing) (depth n : Nat) :
    isPaired depth ⟨t, n⟩ = false := by
  cases t with
  | opening => exact absurd rfl noOpening
  | closing => exact absurd rfl noClosing
  | arrow | post | ampersand | text => rfl

theorem isPaired_opening {n : Nat} (depth : Nat) (partner : 0 < n) : isPaired depth ⟨.opening, n⟩ = true :=
  decide_eq_true partner

theorem isPaired_closing {depth : Nat} (n : Nat) (partner : 0 < depth) : isPaired depth ⟨.closing, n⟩ = true :=
  decide_eq_true partner

end PlacedToken

namespace Pieces

open Token (unopened unclosed)

variable {isSeparator : Token → Bool}

theorem cutAt_opening {ts : List Token} (depth : Nat) (partner : 0 < unopened ts) :
    cutAt isSeparator depth (PlacedToken.all (.opening :: ts)) =
      (cutAt isSeparator (depth + 1) (PlacedToken.all ts)).push .opening := by
  have paired := PlacedToken.isPaired_opening depth partner
  rw [PlacedToken.all_cons, cutAt, PlacedToken.depthBehind, paired, Bool.not_true, Bool.and_false,
    if_neg Bool.false_ne_true]
  rfl

theorem cutAt_closing (depth : Nat) (ts : List Token) :
    cutAt isSeparator (depth + 1) (PlacedToken.all (.closing :: ts)) =
      (cutAt isSeparator depth (PlacedToken.all ts)).push .closing := by
  have paired := PlacedToken.isPaired_closing (unopened ts) (Nat.succ_pos depth)
  rw [PlacedToken.all_cons, cutAt, PlacedToken.depthBehind, paired, Bool.not_true, Bool.and_false,
    if_neg Bool.false_ne_true]
  rfl

theorem cutAt_other {t : Token} (noOpening : t ≠ .opening) (noClosing : t ≠ .closing)
    (depth : Nat) (ts : List Token) :
    cutAt isSeparator depth (PlacedToken.all (t :: ts)) =
      if depth == 0 && isSeparator t then (cutAt isSeparator depth (PlacedToken.all ts)).separate t
      else (cutAt isSeparator depth (PlacedToken.all ts)).push t := by
  rw [PlacedToken.all_cons, cutAt, PlacedToken.depthBehind, PlacedToken.isPaired_other noOpening noClosing,
    Bool.not_false, Bool.and_true, if_neg Bool.false_ne_true]

/-- Behind `depth` groups that the tokens close, a cut leaves every group whole: the first piece closes
those groups, and the other pieces are balanced. -/
theorem balanced_cutAt {depth : Nat} {ts : List Token} (closes : unopened ts = depth) (noMore : unclosed ts = 0) :
    (unopened (cutAt isSeparator depth (PlacedToken.all ts)).first = depth ∧
      unclosed (cutAt isSeparator depth (PlacedToken.all ts)).first = 0) ∧
    ∀ piece ∈ (cutAt isSeparator depth (PlacedToken.all ts)).rest, unopened piece.2 = 0 ∧ unclosed piece.2 = 0 := by
  induction ts generalizing depth with
  | nil => exact ⟨⟨closes, rfl⟩, by simp [cutAt]⟩
  | cons t ts ih =>
    rw [Token.unopened_cons] at closes
    rw [Token.unclosed_cons] at noMore
    have other (noOpening : t ≠ .opening) (noClosing : t ≠ .closing) :
        (unopened (cutAt isSeparator depth (PlacedToken.all (t :: ts))).first = depth ∧
          unclosed (cutAt isSeparator depth (PlacedToken.all (t :: ts))).first = 0) ∧
        ∀ piece ∈ (cutAt isSeparator depth (PlacedToken.all (t :: ts))).rest,
          unopened piece.2 = 0 ∧ unclosed piece.2 = 0 := by
      obtain ⟨same, same'⟩ := Token.counts_of_ne noOpening noClosing ts
      rw [← Token.unopened_cons, same] at closes
      rw [← Token.unclosed_cons, same'] at noMore
      obtain ⟨⟨first, whole⟩, rest⟩ := ih closes noMore
      rw [cutAt_other noOpening noClosing]
      split
      · rename_i separates
        rw [Bool.and_eq_true, beq_iff_eq] at separates
        rw [separates.1] at first rest whole ⊢
        exact ⟨⟨rfl, rfl⟩, List.forall_mem_cons.mpr ⟨⟨first, whole⟩, rest⟩⟩
      · obtain ⟨same, same'⟩ := Token.counts_of_ne noOpening noClosing
          (cutAt isSeparator depth (PlacedToken.all ts)).first
        exact ⟨⟨same.trans first, same'.trans whole⟩, rest⟩
    cases t with
    | opening =>
      simp only [Token.countUnopened, Token.countUnclosed] at closes noMore
      obtain ⟨⟨first, whole⟩, rest⟩ := @ih (depth + 1) (by omega) (by omega)
      rw [cutAt_opening depth (by omega), push, Token.unopened_cons, Token.unclosed_cons, first, whole]
      simp only [Token.countUnopened, Token.countUnclosed]
      exact ⟨by omega, rest⟩
    | closing =>
      cases depth with
      | zero => cases closes
      | succ depth =>
        simp only [Token.countUnopened, Token.countUnclosed] at closes noMore
        obtain ⟨⟨first, whole⟩, rest⟩ := @ih depth (by omega) (by omega)
        rw [cutAt_closing, push, Token.unopened_cons, Token.unclosed_cons, first, whole]
        simp only [Token.countUnopened, Token.countUnclosed]
        exact ⟨⟨trivial, by omega⟩, rest⟩
    | arrow | post | ampersand | text => exact other (by simp) (by simp)

theorem isSeparator_cutAt {depth : Nat} {ps : List PlacedToken} :
    ∀ piece ∈ (cutAt isSeparator depth ps).rest, isSeparator piece.1 = true := by
  induction ps generalizing depth with
  | nil => simp [cutAt]
  | cons p ps ih =>
    rw [cutAt]
    split
    · rename_i separates
      simp only [Bool.and_eq_true] at separates
      exact List.forall_mem_cons.mpr ⟨separates.1.2, ih⟩
    · exact ih

/-- The pieces of a cut are stretches of the tokens that were cut. -/
theorem first_isInfix (p : Pieces) : p.first <:+: p.tokens :=
  ⟨[], _, by rw [List.nil_append]; rfl⟩

theorem rest_isInfix {p : Pieces} {piece : Token × List Token} (member : piece ∈ p.rest) :
    piece.2 <:+: p.tokens := by
  obtain ⟨before, after, whole⟩ := List.append_of_mem member
  refine ⟨p.first ++ before.flatMap (fun p => p.1 :: p.2) ++ [piece.1],
    after.flatMap fun p => p.1 :: p.2, ?_⟩
  rw [tokens, whole, List.flatMap_append, List.flatMap_cons]
  simp only [List.append_assoc, List.cons_append, List.nil_append]

theorem tokens_cut (cs : List Char) : (cut isSeparator cs).tokens = Token.lex cs := by
  rw [cut, tokens_cutAt, PlacedToken.map_token_all]

theorem lexed_first (cs : List Char) : Token.Lexed (cut isSeparator cs).first := by
  have inside := (cut isSeparator cs).first_isInfix
  rw [tokens_cut] at inside
  exact (Token.lexed_lex cs).of_isInfix inside

theorem lexed_rest {cs : List Char} {piece : Token × List Token} (member : piece ∈ (cut isSeparator cs).rest) :
    Token.Lexed piece.2 := by
  have inside := rest_isInfix member
  rw [tokens_cut] at inside
  exact (Token.lexed_lex cs).of_isInfix inside

/-- Without separators a text is one piece. -/
theorem rest_cut_of_none {cs : List Char} (none : ∀ t ∈ Token.lex cs, isSeparator t = false) :
    (cut isSeparator cs).rest = [] := by
  rw [List.eq_nil_iff_forall_not_mem]
  intro piece member
  have separates := isSeparator_cutAt piece member
  have inside : piece.1 ∈ (cut isSeparator cs).tokens :=
    List.mem_append_right _ (List.mem_flatMap.mpr ⟨piece, member, List.mem_cons_self⟩)
  rw [tokens_cut] at inside
  rw [none _ inside] at separates
  cases separates

theorem charsOf_isInfix {us ts : List Token} (inside : us <:+: ts) : Token.charsOf us <:+: Token.charsOf ts := by
  obtain ⟨before, after, rfl⟩ := inside
  exact ⟨Token.charsOf before, Token.charsOf after, by rw [Token.charsOf_append, Token.charsOf_append]⟩

theorem isInfix_of_mem_parts {cs part : List Char} (member : part ∈ (cut isSeparator cs).parts) : part <:+: cs := by
  have whole : Token.charsOf (cut isSeparator cs).tokens = cs := by rw [tokens_cut, Token.charsOf_lex]
  rcases List.mem_cons.mp member with rfl | member
  · have inside := charsOf_isInfix (cut isSeparator cs).first_isInfix
    rwa [whole] at inside
  · obtain ⟨piece, within, rfl⟩ := List.mem_map.mp member
    have inside := charsOf_isInfix (rest_isInfix within)
    rwa [whole] at inside

/-- A cut of a balanced text leaves every group whole. -/
theorem balanced_cut {cs : List Char} (balanced : Text.Balanced cs) :
    ∀ part ∈ (cut isSeparator cs).parts, Text.Balanced part := by
  obtain ⟨closes, noMore⟩ := Token.isBalanced_iff.mp balanced
  obtain ⟨first, rest⟩ := @balanced_cutAt isSeparator _ _ closes noMore
  refine List.forall_mem_cons.mpr ⟨(Text.balanced_charsOf (lexed_first cs)).mpr first, ?_⟩
  intro part member
  obtain ⟨piece, inside, rfl⟩ := List.mem_map.mp member
  exact (Text.balanced_charsOf (lexed_rest inside)).mpr (rest piece inside)

end Pieces

/-- Balanced text in parentheses is a group, unless it is blank. -/
theorem groupInside?_group {cs : List Char} (balanced : Text.Balanced cs) :
    groupInside? ('(' :: (cs ++ [')'])) = if Text.isBlankText cs then none else some (Text.trim cs) := by
  unfold groupInside?
  rw [Token.lex_group]
  dsimp only
  rw [List.getLast?_concat]
  dsimp only
  rw [List.dropLast_concat, Token.charsOf_lex, balanced, Bool.true_and]
  cases blank : Text.isBlankText cs with
  | true => rw [Text.trim_eq_nil.mpr blank]; rfl
  | false => simp [Text.solid_iff.mp blank]

/-- A group is balanced text in parentheses that is not blank. -/
theorem groupInside?_eq_some {cs inside : List Char} :
    groupInside? cs = some inside ↔
      ∃ body, cs = '(' :: (body ++ [')']) ∧ Text.Balanced body ∧ Text.isBlankText body = false ∧
        inside = Text.trim body := by
  constructor
  · intro found
    unfold groupInside? at found
    split at found
    · rename_i rest tokens
      split at found
      · rename_i last
        dsimp only at found
        split at found
        · rename_i proper
          cases found
          rw [Bool.and_eq_true] at proper
          have lexed := Token.lexed_lex cs
          rw [tokens] at lexed
          have inner := lexed.of_isInfix ((List.dropLast_prefix rest).isInfix.trans (List.suffix_cons _ _).isInfix)
          obtain ⟨init, rfl⟩ := List.getLast?_eq_some_iff.mp last
          rw [List.dropLast_concat] at proper inner ⊢
          refine ⟨Token.charsOf init, ?_, ?_, ?_, rfl⟩
          · rw [← Token.charsOf_lex cs, tokens, Token.charsOf_cons, Token.charsOf_append]
            rfl
          · exact (Text.balanced_charsOf inner).mpr (Token.isBalanced_iff.mp proper.1)
          · exact Text.solid_iff.mpr (by simpa using proper.2)
        · cases found
      · cases found
    · cases found
  · rintro ⟨body, rfl, balanced, solid, rfl⟩
    rw [groupInside?_group balanced, solid]
    rfl

/-- Branches are stretches of the text inside a group, and that text is one of the group. -/
theorem isInfix_of_groupInside? {cs inside : List Char} (found : groupInside? cs = some inside) :
    inside <:+: cs := by
  obtain ⟨body, rfl, _, _, rfl⟩ := groupInside?_eq_some.mp found
  exact (Text.trim_isInfix body).trans ⟨['('], [')'], by simp⟩

theorem isInfix_of_mem_branchesOf {inside branch : List Char} (member : branch ∈ branchesOf inside) :
    branch <:+: inside := by
  obtain ⟨part, within, rfl⟩ := List.mem_map.mp member
  exact (Text.trim_isInfix part).trans (Pieces.isInfix_of_mem_parts within)

/-- The text inside a group has all its parentheses matched, even where the text around it has not. -/
theorem balanced_groupInside? {cs inside : List Char} (found : groupInside? cs = some inside) :
    Text.Balanced inside := by
  obtain ⟨body, _, balanced, _, rfl⟩ := groupInside?_eq_some.mp found
  exact Text.balanced_trim.mpr balanced

theorem balanced_branchesOf {inside : List Char} (balanced : Text.Balanced inside) :
    ∀ branch ∈ branchesOf inside, Text.Balanced branch := by
  intro branch member
  obtain ⟨part, within, rfl⟩ := List.mem_map.mp member
  exact Text.balanced_trim.mpr (Pieces.balanced_cut balanced part within)

/-- A group without ampersands inside has one branch. -/
theorem branchesOf_of_lone {inside : List Char} (lone : ∀ t ∈ Token.lex inside, t ≠ .ampersand) :
    branchesOf inside = [Text.trim inside] := by
  have single : (Pieces.cut (·.kind == .ampersand) inside).rest = [] := by
    apply Pieces.rest_cut_of_none
    intro t member
    have other := lone t member
    cases t with
    | ampersand => exact absurd rfl other
    | arrow | post | opening | closing | text => rfl
  rw [branchesOf, Pieces.parts_of_single single, List.map_singleton]

end TransferFlow
