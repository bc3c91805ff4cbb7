import TransferFlow.Proofs.Parts
import TransferFlow.Proofs.SegmentGrammar
import TransferFlow.Proofs.StepSearch

namespace TransferFlow

open Text (isBlankText trim trimRight)

/-- One line of text without parentheses, ampersands and marks. -/
structure Text.Flat (cs : List Char) : Prop where
  signs : ∀ c ∈ cs, c ≠ '(' ∧ c ≠ ')' ∧ c ≠ '&' ∧ c ≠ '\n'
  noPost : ¬ ['>', '>'] <:+: cs

namespace Text.Flat

theorem of_isInfix {xs ys : List Char} (flat : Flat ys) (inside : xs <:+: ys) : Flat xs where
  signs := fun c member => flat.signs c (inside.subset member)
  noPost := fun post => flat.noPost (post.trans inside)

theorem tokens {cs : List Char} (flat : Flat cs) :
    ∀ t ∈ Token.lex cs, t ≠ .opening ∧ t ≠ .closing ∧ t ≠ .ampersand ∧ t ≠ .post := by
  intro t member
  have inside := Token.chars_isInfix_charsOf member
  rw [Token.charsOf_lex] at inside
  refine ⟨?_, ?_, ?_, ?_⟩
  · rintro rfl
    exact (flat.signs '(' (inside.subset List.mem_cons_self)).1 rfl
  · rintro rfl
    exact (flat.signs ')' (inside.subset List.mem_cons_self)).2.1 rfl
  · rintro rfl
    exact (flat.signs '&' (inside.subset List.mem_cons_self)).2.2.1 rfl
  · rintro rfl
    exact flat.noPost inside

theorem noBreak {cs : List Char} (flat : Flat cs) : '\n' ∉ cs :=
  fun member => (flat.signs '\n' member).2.2.2 rfl

theorem trim {cs : List Char} (flat : Flat cs) : Flat (trim cs) :=
  flat.of_isInfix (trim_isInfix cs)

theorem groupInside? {cs : List Char} (flat : Flat cs) : groupInside? cs = none := by
  unfold TransferFlow.groupInside?
  split
  · rename_i rest tokens
    have opening := (flat.tokens .opening (by rw [tokens]; exact List.mem_cons_self)).1
    exact absurd rfl opening
  · rfl

end Text.Flat

/-- Single hops, read without any group. -/
inductive Legs : List Part → List Leg → Prop
  | nil : Legs [] []
  | cons {a cs step name rest legs} :
      Step.read? cs = some step → Legs rest legs →
      Legs (.arrow a :: .text cs :: .arrow a :: .text name :: rest)
        ({ arrow := a, step, target := String.ofList name } :: legs)

namespace Legs

variable {chain : List Char → Except SyntaxError Chain}

theorem reads {parts : List Part} {legs : List Leg} (found : Legs parts legs)
    (noGroup : ∀ cs, .text cs ∈ parts → groupInside? cs = none) : Hop.Reads chain parts (legs.map .single) := by
  induction found with
  | nil => exact .nil
  | @cons a cs step name rest legs atStep _ ih =>
    have single : Stage.ofChars cs = .single cs := Stage.ofChars_eq_single.mpr ⟨rfl, noGroup cs (by simp)⟩
    exact .single single atStep (ih fun text member => noGroup text (by simp [member]))

theorem of_reads {parts : List Part} {hops : List Hop} (found : Hop.Reads chain parts hops)
    (noGroup : ∀ cs, .text cs ∈ parts → groupInside? cs = none) :
    ∃ legs, hops = legs.map .single ∧ Legs parts legs := by
  induction found with
  | nil => exact ⟨[], rfl, .nil⟩
  | @single a cs text step name rest hops single atStep _ ih =>
    obtain ⟨rfl, _⟩ := Stage.ofChars_eq_single.mp single
    obtain ⟨legs, rfl, later⟩ := ih fun text member => noGroup text (by simp [member])
    exact ⟨_ :: legs, rfl, .cons atStep later⟩
  | @fanIn a cs texts steps name rest hops fanIn =>
    obtain ⟨inside, group, _⟩ := Stage.ofChars_eq_fanIn.mp fanIn
    rw [noGroup cs (by simp)] at group
    cases group
  | @fanOut a cs texts branches rest hops fanOut =>
    obtain ⟨inside, group, _⟩ := Stage.ofChars_eq_fanOut.mp fanOut
    rw [noGroup cs (by simp)] at group
    cases group

end Legs

/-- The text before the first arrow. -/
def Text.beforeArrow (cs : List Char) : List Char :=
  Token.charsOf ((Token.lex cs).takeWhile fun t => !t.isArrow)

namespace Text.Flat

theorem noGroup {cs : List Char} (flat : Flat cs) :
    ∀ part, Part.text part ∈ Part.split cs → TransferFlow.groupInside? part = Option.none :=
  fun _ member => (flat.of_isInfix (Part.isInfix_of_mem_split member)).groupInside?

/-- The tokens around the first arrow. -/
theorem tokens_of_hasArrow {cs : List Char} (hasArrow : Token.hasArrow cs = true) :
    ∃ us a vs, Token.lex cs = us ++ .arrow a :: vs ∧ (∀ t ∈ us, t.isArrow = false) ∧
      Text.beforeArrow cs = Token.charsOf us := by
  have split := List.takeWhile_append_dropWhile (p := fun t => !Token.isArrow t) (l := Token.lex cs)
  have before : ∀ t ∈ (Token.lex cs).takeWhile fun t => !t.isArrow, t.isArrow = false := by
    intro t member
    simpa using List.mem_takeWhile_imp member
  cases behind : (Token.lex cs).dropWhile fun t => !t.isArrow with
  | nil =>
    rw [behind, List.append_nil] at split
    rw [split] at before
    obtain ⟨t, member, isArrow⟩ := List.any_eq_true.mp hasArrow
    rw [before t member] at isArrow
    cases isArrow
  | cons t vs =>
    have isArrow := List.head?_dropWhile_not (fun t => !Token.isArrow t) (Token.lex cs)
    rw [behind] at isArrow split
    cases t with
    | arrow a => exact ⟨_, a, vs, split.symm, before, rfl⟩
    | post | opening | closing | ampersand | text => cases isArrow

theorem inert {cs : List Char} (flat : Flat cs) {us vs : List Token} (tokens : Token.lex cs = us ++ vs)
    (noArrow : ∀ t ∈ us, t.isArrow = false) : ∀ t ∈ us, t ≠ .opening ∧ t ≠ .closing ∧ t.isArrow = false := by
  intro t member
  obtain ⟨noOpening, noClosing, _⟩ := flat.tokens t (by rw [tokens]; exact List.mem_append_left _ member)
  exact ⟨noOpening, noClosing, noArrow t member⟩

end Text.Flat

/-- A name outside all groups: trimmed plain text. -/
structure Text.IsLabel (cs : List Char) : Prop where
  nonempty : cs ≠ []
  trimmed : Text.Trimmed cs
  plain : ∀ c ∈ cs, Token.isPlain c = true

theorem Text.isLabel_singleton {c : Char} (solid : Text.isBlank c = false) (plain : Token.isPlain c = true) :
    Text.IsLabel [c] where
  nonempty := List.cons_ne_nil _ _
  trimmed := by
    constructor <;> intro d atEnd <;> cases atEnd <;> exact solid
  plain := List.forall_mem_singleton.mpr plain

section Lines

variable {entity b : List Char}

theorem lex_line (label : Text.IsLabel entity) (a : Arrow) (cs : List Char) :
    Token.lex (entity ++ ' ' :: (a.chars ++ cs)) = .text (entity ++ [' ']) :: .arrow a :: Token.lex cs := by
  have ends : (Token.text (entity ++ [' '])).Ends (a.chars ++ cs) := by
    refine ⟨.run (by simp) ?_, ?_⟩
    · refine List.forall_mem_append.mpr ⟨label.plain, List.forall_mem_singleton.mpr (by decide)⟩
    · intro c last d first
      rw [List.getLast?_concat] at last
      cases last
      cases a <;> cases first <;> decide
  have whole : entity ++ ' ' :: (a.chars ++ cs) = (Token.text (entity ++ [' '])).chars ++ (a.chars ++ cs) := by
    rw [Token.chars, List.append_assoc]
    rfl
  rw [whole, Token.lex_append ends]
  exact congrArg _ (@Token.lex_append (.arrow a) cs trivial)

/-- The parts of a line are its entity, its first arrow and the parts of the text behind them. -/
theorem split_line (label : Text.IsLabel entity) (a : Arrow) (cs : List Char) :
    Part.split (entity ++ ' ' :: (a.chars ++ cs)) = .text entity :: .arrow a :: Part.split cs := by
  have parts := @Part.split_of_arrow _ [.text (entity ++ [' '])] _ a (lex_line label a cs)
    (by simp [Token.isArrow, Token.kind])
  have chars : Token.charsOf [.text (entity ++ [' '])] = entity ++ [' '] := by
    rw [Token.charsOf_cons, Token.charsOf_nil, List.append_nil, Token.chars]
  have trimmed : trim (entity ++ [' ']) = entity := by
    rw [Text.trim_append_right _ (by decide), label.trimmed.trim_eq]
  have solid : isBlankText (entity ++ [' ']) = false := Text.solid_iff.mpr (by rw [trimmed]; exact label.nonempty)
  rw [parts, chars, solid, trimmed, Token.charsOf_lex]
  rfl

theorem split_blank (cs : List Char) : Part.split (' ' :: cs) = Part.split cs := by
  rw [← Part.split_trim, ← Part.split_trim cs, Text.trim_blank]

theorem Text.Flat.counts (flat : Text.Flat b) :
    Token.unopened (Token.lex b) = 0 ∧ Token.unclosed (Token.lex b) = 0 :=
  Token.counts_of_noParen fun t member => ⟨(flat.tokens t member).1, (flat.tokens t member).2.1⟩

theorem split_group (flat : Text.Flat b) :
    Part.split (' ' :: '(' :: (b ++ [')'])) = [.text ('(' :: (b ++ [')']))] := by
  obtain ⟨unopened, unclosed⟩ := flat.counts
  have partner : 0 < Token.unopened (Token.lex b ++ [.closing]) := by
    rw [Token.unopened_append, unopened, unclosed]
    decide
  have single : (Pieces.cut Token.isArrow ('(' :: (b ++ [')']))).rest = [] := by
    rw [Pieces.cut, Token.lex_group, Pieces.cutAt_opening 0 partner, Pieces.cutAt_pushAll]
    · rw [Pieces.cutAt_closing]
      rfl
    · intro t member
      obtain ⟨noOpening, noClosing, _⟩ := flat.tokens t member
      exact ⟨noOpening, noClosing, rfl⟩
  have noArrow : Part.ofChars ('(' :: (b ++ [')'])) = .text ('(' :: (b ++ [')'])) := rfl
  have solid : isBlankText ('(' :: (b ++ [')'])) = false := rfl
  rw [split_blank, Part.split_of_single single, solid, (Text.trimmed_group b).trim_eq, noArrow]
  rfl

theorem branchesOf_flat (flat : Text.Flat b) : branchesOf (trim b) = [trim b] := by
  rw [branchesOf_of_lone fun t member => (flat.trim.tokens t member).2.2.1, Text.trim_trim]

theorem solid_of_hasArrow {cs : List Char} (arrows : Token.hasArrow cs = true) : isBlankText cs = false := by
  refine Text.solid_iff.mpr ?_
  intro none
  rw [← Token.hasArrow_trim, none] at arrows
  cases arrows

/-- A group without ampersands and groups inside is a fan-out of one branch, as soon as an arrow stands in it. -/
theorem stage_group (flat : Text.Flat b) {texts : List (List Char)} :
    Stage.ofChars ('(' :: (b ++ [')'])) = .fanOut texts ↔ Token.hasArrow b = true ∧ texts = [trim b] := by
  rw [Stage.ofChars_eq_fanOut, groupInside?_group (Token.isBalanced_iff.mpr flat.counts)]
  constructor
  · rintro ⟨inside, group, rfl, arrows⟩
    split at group
    · cases group
    · cases group
      rw [branchesOf_flat flat] at arrows ⊢
      rw [List.any_cons, List.any_nil, Bool.or_false, Token.hasArrow_trim] at arrows
      exact ⟨arrows, rfl⟩
  · rintro ⟨arrows, rfl⟩
    refine ⟨trim b, by rw [solid_of_hasArrow arrows]; rfl, (branchesOf_flat flat).symm, ?_⟩
    rw [List.any_cons, List.any_nil, Bool.or_false, Token.hasArrow_trim]
    exact arrows

/-- The line on which the branch stands without parentheses. -/
def plainLine (entity : List Char) (a : Arrow) (b : List Char) : List Char :=
  entity ++ ' ' :: (a.chars ++ ' ' :: b)

/-- The line on which the branch is a group of its own. -/
def groupedLine (entity : List Char) (a : Arrow) (b : List Char) : List Char :=
  entity ++ ' ' :: (a.chars ++ ' ' :: '(' :: (b ++ [')']))

theorem Text.Flat.blank (flat : Text.Flat b) : Text.Flat (' ' :: b) where
  signs := List.forall_mem_cons.mpr ⟨by decide, flat.signs⟩
  noPost := by
    intro post
    rcases List.infix_cons_iff.mp post with atStart | inside
    · obtain ⟨rest, whole⟩ := atStart
      cases whole
    · exact flat.noPost inside

theorem Text.Flat.noPost_tokens (flat : Text.Flat b) : ∀ t ∈ Token.lex b, (t.kind == .post) = false := by
  intro t member
  have other := (flat.tokens t member).2.2.2
  cases t with
  | post => exact absurd rfl other
  | arrow | opening | closing | ampersand | text => rfl

theorem noPost_plainLine (label : Text.IsLabel entity) (flat : Text.Flat b) (a : Arrow) :
    (Pieces.cut (·.kind == .post) (plainLine entity a b)).rest = [] := by
  apply Pieces.rest_cut_of_none
  rw [plainLine, lex_line label]
  exact List.forall_mem_cons.mpr ⟨rfl, List.forall_mem_cons.mpr ⟨rfl, flat.blank.noPost_tokens⟩⟩

theorem noPost_groupedLine (label : Text.IsLabel entity) (flat : Text.Flat b) (a : Arrow) :
    (Pieces.cut (·.kind == .post) (groupedLine entity a b)).rest = [] := by
  have ends : (Token.text [' ']).Ends ('(' :: (b ++ [')'])) := by
    refine ⟨.run (List.cons_ne_nil _ _) (List.forall_mem_singleton.mpr rfl), ?_⟩
    intro c last d first
    cases last
    cases first
    decide
  have group : Token.lex (' ' :: '(' :: (b ++ [')'])) = .text [' '] :: .opening :: (Token.lex b ++ [.closing]) := by
    rw [← Token.lex_group]
    exact Token.lex_append ends
  apply Pieces.rest_cut_of_none
  rw [groupedLine, lex_line label, group]
  refine List.forall_mem_cons.mpr ⟨rfl, List.forall_mem_cons.mpr ⟨rfl, List.forall_mem_cons.mpr ⟨rfl, ?_⟩⟩⟩
  refine List.forall_mem_cons.mpr ⟨rfl, List.forall_mem_append.mpr ⟨flat.noPost_tokens, ?_⟩⟩
  exact List.forall_mem_singleton.mpr rfl

/-- Without parentheses the line is read just when its parts are single hops. -/
theorem tokenize_plainLine (label : Text.IsLabel entity) (flat : Text.Flat b) (a : Arrow) {segs : List Segment} :
    tokenize (String.ofList (plainLine entity a b)) = .ok segs ↔
      ∃ legs, Legs (.arrow a :: Part.split b) legs ∧
        segs = Chain.segments { entity := String.ofList entity, hops := legs.map .single } := by
  have parts : Part.split (trim (plainLine entity a b)) = .text entity :: .arrow a :: Part.split b := by
    rw [Part.split_trim, plainLine, split_line label, split_blank]
  have noGroup : ∀ cs, .text cs ∈ Part.arrow a :: Part.split b → groupInside? cs = none := by
    intro cs member
    rcases List.mem_cons.mp member with same | member
    · cases same
    · exact flat.noGroup cs member
  rw [tokenize_of_single (by rw [String.toList_ofList]; exact noPost_plainLine label flat a), String.toList_ofList]
  constructor
  · rintro ⟨c, run, rfl⟩
    obtain ⟨name, rest, split, _, found, named⟩ := Chain.read_eq_ok.mp run
    rw [parts] at split
    cases split
    obtain ⟨legs, hops, single⟩ := Legs.of_reads found noGroup
    refine ⟨legs, single, ?_⟩
    rw [← named, ← hops]
  · rintro ⟨legs, single, rfl⟩
    exact ⟨_, Chain.read_eq_ok.mpr ⟨entity, _, parts, List.cons_ne_nil _ _, single.reads noGroup, rfl⟩, rfl⟩

theorem trimmed_groupedLine (label : Text.IsLabel entity) (a : Arrow) : Text.Trimmed (groupedLine entity a b) := by
  have whole : groupedLine entity a b = entity ++ (' ' :: (a.chars ++ [' ']) ++ '(' :: (b ++ [')'])) := by
    simp [groupedLine]
  rw [whole]
  exact Text.trimmed_around _ label.nonempty label.trimmed (List.cons_ne_nil _ _) (Text.trimmed_group b)

/-- With parentheses the line is read just when the branch is. -/
theorem tokenize_groupedLine (label : Text.IsLabel entity) (flat : Text.Flat b) (a : Arrow) :
    ∃ n, ∀ segs, tokenize (String.ofList (groupedLine entity a b)) = .ok segs ↔
      Token.hasArrow b = true ∧ ∃ branch, Branch.Reads (Chain.readWithin .tooShort (n + 1)) a (trim b) branch ∧
        segs = Chain.segments { entity := String.ofList entity, hops := [.fanOut a [branch]] } := by
  have parts : Part.split (groupedLine entity a b) = [.text entity, .arrow a, .text ('(' :: (b ++ [')']))] := by
    rw [groupedLine, split_line label, split_group flat]
  have size : (groupedLine entity a b).length - 1 = (groupedLine entity a b).length - 2 + 1 := by
    simp only [groupedLine, List.length_append, List.length_cons]
    omega
  refine ⟨(groupedLine entity a b).length - 2, fun segs => ?_⟩
  rw [tokenize_of_single (by rw [String.toList_ofList]; exact noPost_groupedLine label flat a),
    String.toList_ofList,
    (trimmed_groupedLine label a).trim_eq]
  constructor
  · rintro ⟨c, run, rfl⟩
    obtain ⟨name, rest, split, _, found, named⟩ := Chain.read_eq_ok.mp run
    rw [parts] at split
    cases split
    rw [size] at found
    obtain ⟨entity', hops⟩ := c
    cases found with
    | @fanOut _ _ texts branches _ hops fanOut all _ later =>
      obtain ⟨arrows, rfl⟩ := (stage_group flat).mp fanOut
      cases later
      cases all with
      | cons reads none =>
        cases none
        refine ⟨arrows, _, reads, ?_⟩
        rw [← named]
  · rintro ⟨arrows, branch, reads, rfl⟩
    refine ⟨_, Chain.read_eq_ok.mpr ⟨entity, _, parts, List.cons_ne_nil _ _, ?_, rfl⟩, rfl⟩
    rw [size]
    have fanOut := (stage_group flat).mpr ⟨arrows, rfl⟩
    exact .fanOut fanOut (.cons reads .nil) (by simp) .nil

theorem trim_around_arrow {xs : List Char} (a : Arrow) (ys : List Char) (solid : isBlankText xs = false) :
    trim (xs ++ (a.chars ++ ys)) = xs.dropWhile Text.isBlank ++ (a.chars ++ trimRight ys) := by
  have kept : xs.dropWhile Text.isBlank ≠ [] := by
    intro none
    rw [Text.dropWhile_eq_nil.mp none] at solid
    cases solid
  have sign : trimRight (xs.dropWhile Text.isBlank ++ a.chars) = xs.dropWhile Text.isBlank ++ a.chars := by
    refine Text.trimRight_of_last ?_
    intro c last
    rw [List.getLast?_append] at last
    cases a <;> cases last <;> decide
  rw [trim, List.dropWhile_append, if_neg (by simpa using kept), ← List.append_assoc,
    Text.trimRight_append_of_solid _ sign, List.append_assoc]

/-- No arrow begins before the first one. -/
theorem arrow?_before_first {us vs : List Token} {a : Arrow} (lexed : Token.Lexed (us ++ .arrow a :: vs))
    (noArrow : ∀ t ∈ us, t.isArrow = false) (behind : List Char) :
    ∀ p q, (Token.charsOf us).dropWhile Text.isBlank = p ++ q → q ≠ [] →
      Step.arrow? (q ++ (a.chars ++ behind)) = none := by
  intro p q split nonempty
  have seam : ∀ t ∈ us.getLast?, t.Ends (a.chars ++ behind) := by
    intro t last
    refine (lexed.seam t last).mono ?_
    intro d atHead
    cases a <;> exact atHead
  refine Step.arrow?_within lexed.left noArrow seam
    (p := (Token.charsOf us).takeWhile Text.isBlank ++ p) ?_ nonempty
  rw [List.append_assoc, ← split, List.takeWhile_append_dropWhile]

/-- The first arrow of a text with a step in front of it is where the parts begin and where a branch is
cut, unless nothing follows it. -/
theorem cut_at_first_arrow (flat : Text.Flat b) (arrows : Token.hasArrow b = true) {step : Step}
    (atStep : Step.read? (trim (Text.beforeArrow b)) = some step) :
    ∃ a behind, Part.split b = .text (trim (Text.beforeArrow b)) :: .arrow a :: Part.split behind ∧
      Step.readBranch? (trim b) = if isBlankText behind then none else some (step, a, trim behind) := by
  obtain ⟨us, a, vs, tokens, noArrow, before⟩ := Text.Flat.tokens_of_hasArrow arrows
  rw [before] at atStep ⊢
  have lexed := Token.lexed_lex b
  rw [tokens] at lexed
  have whole : b = Token.charsOf us ++ (a.chars ++ Token.charsOf vs) := by
    rw [← Token.charsOf_lex b, tokens, Token.charsOf_append, Token.charsOf_cons]
    rfl
  have solid : isBlankText (Token.charsOf us) = false := by
    refine Text.solid_iff.mpr ?_
    intro none
    rw [none] at atStep
    cases atStep
  have trimmed := trim_around_arrow a (Token.charsOf vs) solid
  rw [← whole] at trimmed
  have first := arrow?_before_first lexed noArrow
  refine ⟨a, Token.charsOf vs, ?_, ?_⟩
  · rw [Part.split_of_arrow tokens (flat.inert tokens noArrow), solid]
    rfl
  cases rest : isBlankText (Token.charsOf vs) with
  | true =>
    rw [trimmed, Text.trimRight_eq_nil.mpr rest]
    exact Step.readBranch?_at_end (first [])
  | false =>
    have nonempty : trimRight (Token.charsOf vs) ≠ [] := by
      intro none
      rw [Text.trimRight_eq_nil.mp none] at rest
      cases rest
    obtain ⟨blanks, head, blank⟩ := Text.trimRight_blanks ((Token.charsOf us).dropWhile Text.isBlank)
    have noBreak := flat.trim.noBreak
    rw [trimmed, head] at noBreak
    simp only [List.mem_append, not_or] at noBreak
    have cut := Step.readBranch?_of_read? (Text.trimmed_trim _) noBreak.1.1 blank nonempty noBreak.2.2
      (a := a) ?_ atStep
    · rw [trimmed, head, List.append_assoc]
      rw [trim] at cut
      rw [cut, Text.trim_trimRight]
      rfl
    · intro p q split nonempty'
      have none := first (trimRight (Token.charsOf vs)) p (q ++ blanks)
        (by rw [head, ← List.append_assoc, ← split]; rfl) (by simp [nonempty'])
      rwa [List.append_assoc] at none

/-- Hops without parentheses begin with the step before their first arrow. -/
theorem read?_of_legs (flat : Text.Flat b) {a : Arrow} {legs : List Leg}
    (found : Legs (.arrow a :: Part.split b) legs) :
    Token.hasArrow b = true ∧ (Step.read? (trim (Text.beforeArrow b))).isSome = true := by
  have arrows : Token.hasArrow b = true := by
    cases noArrow : Token.hasArrow b with
    | true => rfl
    | false =>
      rw [Part.split_of_noArrow noArrow] at found
      split at found <;> cases found
  refine ⟨arrows, ?_⟩
  obtain ⟨us, c, vs, tokens, noArrow, before⟩ := Text.Flat.tokens_of_hasArrow arrows
  rw [Part.split_of_arrow tokens (flat.inert tokens noArrow), ← before] at found
  generalize Part.split (Token.charsOf vs) = behind at found
  split at found
  · cases found
  · cases found with
    | cons atStep _ => rw [atStep]; rfl

/-- The hops that a branch along `a` stands for. -/
def Branch.legs (a : Arrow) (branch : Branch) : List Leg :=
  { arrow := a, step := branch.step, target := branch.target } :: branch.onward

/-- With a step before its first arrow, a text reads alike as a branch and as single hops. -/
theorem reads_iff_legs (flat : Text.Flat b) (arrows : Token.hasArrow b = true)
    (atStep : (Step.read? (trim (Text.beforeArrow b))).isSome = true) {a : Arrow} {branch : Branch} {n : Nat} :
    Branch.Reads (Chain.readWithin .tooShort (n + 1)) a (trim b) branch ↔
        Legs (.arrow a :: Part.split b) (branch.legs a) := by
  obtain ⟨step, atStep⟩ := Option.isSome_iff_exists.mp atStep
  obtain ⟨c, behind, parts, cut⟩ := cut_at_first_arrow flat arrows atStep
  have noGroup : ∀ cs, .text cs ∈ Part.split behind → groupInside? cs = none := by
    intro cs member
    exact flat.noGroup cs (by rw [parts]; simp [member])
  have solid (further : Part.split behind ≠ []) : isBlankText behind = false := by
    refine Text.solid_iff.mpr ?_
    intro none
    rw [← Part.split_trim, none] at further
    exact further Chain.split_nil
  rw [← Part.split_trim] at noGroup solid
  rw [parts, ← Part.split_trim behind]
  constructor
  · intro reads
    cases reads with
    | @ending step' onward name atHead alone =>
      rw [cut] at atHead
      split at atHead
      · cases atHead
      · cases atHead
        rw [alone]
        exact .cons atStep .nil
    | @continued step' onward name next more continuation legs atHead further chain simple =>
      rw [cut] at atHead
      split at atHead
      · cases atHead
      · cases atHead
        obtain ⟨entity, rest, split, _, hops, _⟩ := Chain.readWith_eq_ok.mp chain
        rw [split] at further noGroup ⊢
        cases further
        obtain ⟨legs', shape, found⟩ :=
          Legs.of_reads hops fun cs member => noGroup cs (List.mem_cons_of_mem _ member)
        rw [Chain.legs?_eq_some.mpr shape] at simple
        cases simple
        exact .cons atStep found
  · intro found
    obtain ⟨step', target, onward⟩ := branch
    generalize shape : Part.split (trim behind) = texts at found
    generalize hops : Branch.legs a ⟨step', target, onward⟩ = legs at found
    cases found with
    | @cons _ _ read name rest legs atStep' later =>
      simp only [Branch.legs, List.cons.injEq, Leg.mk.injEq] at hops
      obtain ⟨⟨_, rfl, rfl⟩, rfl⟩ := hops
      rw [atStep] at atStep'
      cases atStep'
      rw [shape] at solid noGroup
      rw [solid (List.cons_ne_nil _ _), if_neg Bool.false_ne_true] at cut
      cases rest with
      | nil =>
        cases later
        exact .ending cut shape
      | cons next more =>
        have chain : Chain.readWithin SyntaxError.tooShort (n + 1) (trim behind) = .ok
            { entity := String.ofList name, hops := onward.map .single } := by
          refine Chain.readWith_eq_ok.mpr ⟨name, next :: more, shape, List.cons_ne_nil _ _, ?_, rfl⟩
          exact later.reads fun cs member => noGroup cs (List.mem_cons_of_mem _ member)
        exact .continued cut shape chain (Chain.legs?_eq_some.mpr rfl)

end Lines

/-- The hop that a connection makes, whatever its tags. -/
def Segment.leg? : Segment → Option Leg
  | .entity _ => none
  | .connection c => some
    { arrow := c.arrow, step := { protocol := c.protocol, direction := c.direction }, target := c.target }

/-- The hops of a line, connection by connection; none at all if the line is refused. -/
def readLegs? (line : String) : Option (List Leg) :=
  (tokenize line).toOption.map (·.filterMap Segment.leg?)

theorem legs_segments (legs : List Leg) : (legs.flatMap Leg.segments).filterMap Segment.leg? = legs := by
  induction legs with
  | nil => rfl
  | cons l legs ih =>
    rw [List.flatMap_cons, List.filterMap_append, ih]
    rfl

theorem legs_plainChain (entity : String) (legs : List Leg) :
    (Chain.segments { entity, hops := legs.map .single }).filterMap Segment.leg? = legs := by
  rw [Chain.segments, List.flatMap_map]
  exact legs_segments legs

theorem legs_branch (a : Arrow) (branch : Branch) (position : Int) :
    (branch.segments a position).filterMap Segment.leg? = branch.legs a := by
  have tags : Segment.leg? ∘ Segment.continuing position = Segment.leg? := by
    funext s
    cases s <;> rfl
  have onward : ((branch.onward.flatMap Leg.segments).map (Segment.continuing position)).filterMap Segment.leg? =
      branch.onward := by
    rw [List.filterMap_map, tags, legs_segments]
  rw [Branch.segments, Segment.splice_repeated]
  exact congrArg _ onward

theorem legs_groupedChain (entity : String) (a : Arrow) (branch : Branch) :
    (Chain.segments { entity, hops := [.fanOut a [branch]] }).filterMap Segment.leg? = branch.legs a := by
  have alone : Hop.segments (.fanOut a [branch]) = branch.segments a 1 := List.append_nil _
  rw [Chain.segments, List.flatMap_singleton, alone]
  exact legs_branch a branch 1

theorem readLegs?_eq_some {line : String} {legs : List Leg} :
    readLegs? line = some legs ↔ ∃ segs, tokenize line = .ok segs ∧ segs.filterMap Segment.leg? = legs := by
  unfold readLegs?
  cases tokenize line with
  | error e => simp [Except.toOption]
  | ok segs => simp [Except.toOption]

section Agreement

variable {entity b : List Char}

theorem readLegs?_plainLine (label : Text.IsLabel entity) (flat : Text.Flat b) (a : Arrow) {legs : List Leg} :
    readLegs? (String.ofList (plainLine entity a b)) = some legs ↔ Legs (.arrow a :: Part.split b) legs := by
  rw [readLegs?_eq_some]
  constructor
  · rintro ⟨segs, run, rfl⟩
    obtain ⟨legs, found, rfl⟩ := (tokenize_plainLine label flat a).mp run
    rwa [legs_plainChain]
  · intro found
    exact ⟨_, (tokenize_plainLine label flat a).mpr ⟨legs, found, rfl⟩, legs_plainChain _ legs⟩

theorem readLegs?_groupedLine (label : Text.IsLabel entity) (flat : Text.Flat b) (a : Arrow) :
    ∃ n, ∀ legs, readLegs? (String.ofList (groupedLine entity a b)) = some legs ↔
      Token.hasArrow b = true ∧ ∃ branch, Branch.Reads (Chain.readWithin .tooShort (n + 1)) a (trim b) branch ∧
        branch.legs a = legs := by
  obtain ⟨n, grouped⟩ := tokenize_groupedLine label flat a
  refine ⟨n, fun legs => ?_⟩
  rw [readLegs?_eq_some]
  constructor
  · rintro ⟨segs, run, rfl⟩
    obtain ⟨arrows, branch, reads, rfl⟩ := (grouped _).mp run
    exact ⟨arrows, branch, reads, (legs_groupedChain _ a branch).symm⟩
  · rintro ⟨arrows, branch, reads, rfl⟩
    exact ⟨_, (grouped _).mpr ⟨arrows, branch, reads, rfl⟩, legs_groupedChain _ a branch⟩

/-- What is read without parentheses is read with them. -/
theorem reads_of_legs (flat : Text.Flat b) {a : Arrow} {legs : List Leg} (n : Nat)
    (found : Legs (.arrow a :: Part.split b) legs) :
    ∃ branch, Branch.Reads (Chain.readWithin .tooShort (n + 1)) a (trim b) branch ∧ branch.legs a = legs := by
  obtain ⟨arrows, atStep⟩ := read?_of_legs flat found
  have shape : ∃ branch : Branch, branch.legs a = legs := by
    generalize Part.split b = parts at found
    cases found with
    | @cons _ _ step name rest legs =>
      exact ⟨{ step, target := String.ofList name, onward := legs }, rfl⟩
  obtain ⟨branch, rfl⟩ := shape
  exact ⟨branch, (reads_iff_legs flat arrows atStep).mpr found, rfl⟩

end Agreement

theorem toList_text (a : Arrow) : a.text.toList = a.chars := by
  cases a <;> rfl

/-- A branch alone in its group reads as the same hops without parentheses, or is refused as they are,
just when the text before its first arrow is a step, or when the group is refused. -/
theorem readLegs?_lone_branch {entity b : String} (label : Text.IsLabel entity.toList) (flat : Text.Flat b.toList)
    (a : Arrow) :
    readLegs? (entity ++ " " ++ a.text ++ " (" ++ b ++ ")") = readLegs? (entity ++ " " ++ a.text ++ " " ++ b) ↔
      ((readLegs? (entity ++ " " ++ a.text ++ " (" ++ b ++ ")")).isSome = true →
        (Step.read? (trim (Text.beforeArrow b.toList))).isSome = true) := by
  have plainText : entity ++ " " ++ a.text ++ " " ++ b = String.ofList (plainLine entity.toList a b.toList) := by
    rw [← String.toList_inj, String.toList_ofList]
    simp [plainLine, toList_text]
  have groupedText : entity ++ " " ++ a.text ++ " (" ++ b ++ ")" =
      String.ofList (groupedLine entity.toList a b.toList) := by
    rw [← String.toList_inj, String.toList_ofList]
    simp [groupedLine, toList_text]
  obtain ⟨n, grouped⟩ := readLegs?_groupedLine label flat a
  rw [plainText, groupedText]
  constructor
  · intro same accepted
    obtain ⟨legs, read⟩ := Option.isSome_iff_exists.mp accepted
    rw [same] at read
    exact (read?_of_legs flat ((readLegs?_plainLine label flat a).mp read)).2
  · intro atStep
    apply Option.ext
    intro legs
    rw [grouped, readLegs?_plainLine label flat]
    constructor
    · rintro ⟨arrows, branch, reads, rfl⟩
      have accepted := (grouped _).mpr ⟨arrows, branch, reads, rfl⟩
      exact (reads_iff_legs flat arrows (atStep (by rw [accepted]; rfl))).mp reads
    · intro found
      exact ⟨(read?_of_legs flat found).1, reads_of_legs flat n found⟩

theorem readLegs?_lone_branch_hops :
    Text.IsLabel "A".toList ∧ Text.Flat "FTP PUSH -> B -> SFTP PULL -> C".toList ∧
      readLegs? "A -> (FTP PUSH -> B -> SFTP PULL -> C)" = readLegs? "A -> FTP PUSH -> B -> SFTP PULL -> C" := by
  have label : Text.IsLabel "A".toList := Text.isLabel_singleton (by decide) (by decide)
  have flat : Text.Flat "FTP PUSH -> B -> SFTP PULL -> C".toList := by
    constructor <;> simp [List.infix_cons_iff]
  have atStep : (Step.read? (trim (Text.beforeArrow "FTP PUSH -> B -> SFTP PULL -> C".toList))).isSome = true := by
    cbv
  have agree :=
    (@readLegs?_lone_branch "A" "FTP PUSH -> B -> SFTP PULL -> C" label flat .forward).mpr fun _ => atStep
  exact ⟨label, flat, by simpa [Arrow.text] using agree⟩

/-- The protocol of a branch may run past an arrow, and that of a hop may not. -/
theorem not_readLegs?_lone_branch :
    ¬ ∀ (entity b : String) (a : Arrow), Text.IsLabel entity.toList → Text.Flat b.toList →
      readLegs? (entity ++ " " ++ a.text ++ " (" ++ b ++ ")") =
          readLegs? (entity ++ " " ++ a.text ++ " " ++ b) := by
  intro law
  have label : Text.IsLabel "A".toList := Text.isLabel_singleton (by decide) (by decide)
  have flat : Text.Flat "FTP -> B -> SFTP PUSH -> C".toList := by
    constructor <;> simp [List.infix_cons_iff]
  have same : readLegs? "A -> (FTP -> B -> SFTP PUSH -> C)" = readLegs? "A -> FTP -> B -> SFTP PUSH -> C" := by
    simpa [Arrow.text] using law "A" "FTP -> B -> SFTP PUSH -> C" .forward label flat
  have chain : Chain.read "A -> (FTP -> B -> SFTP PUSH -> C)".toList = .ok {
      entity := "A"
      hops := [.fanOut .forward
        [{ step := { protocol := "FTP -> B -> SFTP", direction := .push }, target := "C", onward := [] }]] } := by
    refine Chain.read_eq_ok.mpr
      ⟨['A'], [.arrow .forward, .text "(FTP -> B -> SFTP PUSH -> C)".toList], by cbv, ?_, ?_, rfl⟩
    · exact List.cons_ne_nil _ _
    · exact Hop.readAll_eq_ok.mp (by cbv)
  have run := @tokenize_of_single "A -> (FTP -> B -> SFTP PUSH -> C)" (by cbv)
  have grouped := readLegs?_eq_some.mpr ⟨_, run.mpr ⟨_, chain, rfl⟩, rfl⟩
  have refused : readLegs? "A -> FTP -> B -> SFTP PUSH -> C" = none := by cbv
  rw [same, refused] at grouped
  cases grouped

end TransferFlow
