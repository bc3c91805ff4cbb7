import TransferFlow.Proofs.Parts
import TransferFlow.Proofs.Signs

namespace TransferFlow

open Text (isBlankText trim)

namespace Pieces

variable {isSeparator : Token → Bool}

/-- The pieces without plain text. -/
def signs (p : Pieces) : Pieces :=
  { first := Token.signs p.first, rest := p.rest.map fun (sep, ts) => (sep, Token.signs ts) }

/-- Cutting the tokens of the pieces gives these pieces. -/
def Settled (isSeparator : Token → Bool) (p : Pieces) : Prop :=
  cutAt isSeparator 0 (PlacedToken.all p.tokens) = p

/-- No separator is plain text. -/
def Marked (p : Pieces) : Prop :=
  ∀ piece ∈ p.rest, piece.1.kind ≠ .text

theorem kind_of_separates (noText : ∀ cs, isSeparator (.text cs) = false) {t : Token}
    (separates : isSeparator t = true) : t.kind ≠ .text := by
  cases t with
  | text cs => rw [noText] at separates; cases separates
  | arrow | post | opening | closing | ampersand => simp [Token.kind]

theorem marked_cutAt (noText : ∀ cs, isSeparator (.text cs) = false) (depth : Nat) (ps : List PlacedToken) :
    (cutAt isSeparator depth ps).Marked :=
  fun piece member => kind_of_separates noText (isSeparator_cutAt piece member)

theorem Settled.separates {p : Pieces} (settled : p.Settled isSeparator) :
    ∀ piece ∈ p.rest, isSeparator piece.1 = true := by
  rw [← settled]
  exact isSeparator_cutAt

/-- The same tokens are cut where no plain text stands. -/
theorem signs_cutAt (noText : ∀ cs, isSeparator (.text cs) = false) (depth : Nat) (ts : List Token) :
    (cutAt isSeparator depth (PlacedToken.all ts)).signs =
      cutAt isSeparator depth (PlacedToken.all (Token.signs ts)) := by
  induction ts generalizing depth with
  | nil => rfl
  | cons t ts ih =>
    cases t with
    | text cs => rw [cutAt_text noText, Token.signs_cons_text, ← ih]; rfl
    | arrow | post | opening | closing | ampersand =>
      rw [Token.signs_cons (by simp [Token.kind]), PlacedToken.all_cons, PlacedToken.all_cons,
        (Token.counts_signs ts).1, cutAt, cutAt]
      dsimp only
      rw [← ih]
      split <;> rfl

theorem tokens_signs {p : Pieces} (marked : p.Marked) : p.signs.tokens = Token.signs p.tokens := by
  obtain ⟨first, rest⟩ := p
  rw [tokens, tokens, Token.signs_append_tokens, signs]
  congr 1
  induction rest with
  | nil => rfl
  | cons piece rest ih =>
    obtain ⟨sign, later⟩ := List.forall_mem_cons.mp marked
    rw [List.map_cons, List.flatMap_cons, List.flatMap_cons, ih later, List.cons_append, List.cons_append,
      Token.signs_cons sign, Token.signs_append_tokens]

/-- Two lists of tokens fall apart at a sign alike, if as many signs stand before it. -/
theorem cons_inj_of_signs {us us' vs vs' : List Token} {t t' : Token} (sign : t.kind ≠ .text)
    (sign' : t'.kind ≠ .text)
    (whole : us ++ t :: vs = us' ++ t' :: vs') (signs : Token.signs us = Token.signs us') :
    us = us' ∧ t = t' ∧ vs = vs' := by
  induction us generalizing us' with
  | nil =>
    cases us' with
    | nil =>
      obtain ⟨same, rest⟩ := List.cons_eq_cons.mp whole
      exact ⟨rfl, same, rest⟩
    | cons u us' =>
      obtain ⟨rfl, _⟩ := List.cons_eq_cons.mp whole
      rw [Token.signs_cons sign] at signs
      cases signs
  | cons u us ih =>
    cases us' with
    | nil =>
      obtain ⟨rfl, _⟩ := List.cons_eq_cons.mp whole
      rw [Token.signs_cons sign'] at signs
      cases signs
    | cons u' us' =>
      obtain ⟨rfl, rest⟩ := List.cons_eq_cons.mp whole
      have later : Token.signs us = Token.signs us' := by
        exact Token.signs_cons_inj signs
      obtain ⟨rfl, same⟩ := ih rest later
      exact ⟨rfl, same⟩

/-- Pieces of the same tokens that have the same signs are the same. -/
theorem eq_of_signs {p q : Pieces} (marked : p.Marked) (marked' : q.Marked) (tokens : p.tokens = q.tokens)
    (signs : p.signs = q.signs) : p = q := by
  obtain ⟨first, rest⟩ := p
  obtain ⟨first', rest'⟩ := q
  induction rest generalizing first first' rest' with
  | nil =>
    cases rest' with
    | nil =>
      rw [Pieces.tokens, Pieces.tokens, List.flatMap_nil, List.append_nil, List.append_nil] at tokens
      exact congrArg (Pieces.mk · []) tokens
    | cons => cases congrArg Pieces.rest signs
  | cons piece rest ih =>
    cases rest' with
    | nil => cases congrArg Pieces.rest signs
    | cons piece' rest' =>
      obtain ⟨sep, ts⟩ := piece
      obtain ⟨sep', ts'⟩ := piece'
      obtain ⟨sign, later⟩ := List.forall_mem_cons.mp marked
      obtain ⟨sign', later'⟩ := List.forall_mem_cons.mp marked'
      have firstSigns : Token.signs first = Token.signs first' := congrArg Pieces.first signs
      have restSigns := congrArg Pieces.rest signs
      simp only [Pieces.signs, List.map_cons, List.cons.injEq, Prod.mk.injEq] at restSigns
      obtain ⟨⟨_, piecesSigns⟩, furtherSigns⟩ := restSigns
      obtain ⟨rfl, rfl, behind⟩ := cons_inj_of_signs sign sign' tokens firstSigns
      have same : Pieces.mk ts rest = Pieces.mk ts' rest' :=
        ih ts later ts' rest' later' behind (by rw [Pieces.signs, Pieces.signs, piecesSigns, furtherSigns])
      cases same
      rfl

/-- Whether pieces are settled is up to their signs. -/
theorem settled_signs {p : Pieces} (noText : ∀ cs, isSeparator (.text cs) = false) (marked : p.Marked) :
    p.signs.Settled isSeparator ↔ p.Settled isSeparator := by
  have cut : (cutAt isSeparator 0 (PlacedToken.all p.tokens)).signs =
      cutAt isSeparator 0 (PlacedToken.all p.signs.tokens) := by rw [signs_cutAt noText, tokens_signs marked]
  constructor
  · intro settled
    refine eq_of_signs (marked_cutAt noText 0 _) marked ?_ (cut.trans settled)
    rw [tokens_cutAt, PlacedToken.map_token_all]
  · intro settled
    rw [settled] at cut
    exact cut.symm

theorem settled_cut (cs : List Char) : (cut isSeparator cs).Settled isSeparator := by
  rw [Settled, tokens_cut, cut]

end Pieces

namespace Text

/-- A text, and each separator with the text behind it. -/
def spaced (first : List Char) (links : List (Token × List Char)) : List Char :=
  first ++ links.flatMap fun (sep, cs) => ' ' :: (sep.chars ++ ' ' :: cs)

theorem spaced_nil (first : List Char) : spaced first [] = first :=
  List.append_nil first

theorem spaced_cons (first cs : List Char) (sep : Token) (links : List (Token × List Char)) :
    spaced first ((sep, cs) :: links) = first ++ ' ' :: (sep.chars ++ spaced (' ' :: cs) links) := by
  simp only [spaced, List.flatMap_cons, List.cons_append, List.append_assoc]

/-- A spaced text has no blank at its ends if none of its texts has. -/
theorem trimmed_spaced {first : List Char} {links : List (Token × List Char)} (nonempty : first ≠ [])
    (trimmed : Trimmed first) (each : ∀ link ∈ links, link.2 ≠ [] ∧ Trimmed link.2) :
    Trimmed (spaced first links) := by
  induction links generalizing first with
  | nil => rwa [spaced_nil]
  | cons link links ih =>
    obtain ⟨⟨nonempty', trimmed'⟩, later⟩ := List.forall_mem_cons.mp each
    have whole :
        spaced first (link :: links) = spaced (first ++ ((' ' :: (link.1.chars ++ [' '])) ++ link.2)) links := by
      simp only [spaced, List.flatMap_cons, List.append_assoc, List.cons_append, List.nil_append]
    rw [whole]
    exact ih (by simp [nonempty]) (trimmed_around _ nonempty trimmed nonempty' trimmed') later

end Text

namespace Pieces

variable {isSeparator : Token → Bool}

/-- The signs of texts, as pieces. -/
def marks (first : List Char) (links : List (Token × List Char)) : Pieces :=
  { first := Text.signs first, rest := links.map fun (sep, cs) => (sep, Text.signs cs) }

/-- The pieces that a spaced text is meant to have. -/
def ofSpaced (first : List Char) : List (Token × List Char) → Pieces
  | [] => { first := Token.lex first, rest := [] }
  | (sep, cs) :: links =>
    let later := ofSpaced (' ' :: cs) links
    { first := Token.lex (first ++ [' ']), rest := (sep, later.first) :: later.rest }

theorem tokens_ofSpaced {first : List Char} {links : List (Token × List Char)}
    (signs : ∀ link ∈ links, link.1.kind ≠ .text) :
    (ofSpaced first links).tokens = Token.lex (Text.spaced first links) := by
  induction links generalizing first with
  | nil => rw [Text.spaced_nil, ofSpaced, tokens, List.flatMap_nil, List.append_nil]
  | cons link links ih =>
    obtain ⟨sep, cs⟩ := link
    obtain ⟨sign, later⟩ := List.forall_mem_cons.mp signs
    have behind := @ih (' ' :: cs) later
    rw [tokens] at behind
    rw [Text.spaced_cons, Token.lex_append_sign (by rfl) sign, ← behind]
    rfl

theorem signs_ofSpaced (first : List Char) (links : List (Token × List Char)) :
    (ofSpaced first links).signs = marks first links := by
  induction links generalizing first with
  | nil => rfl
  | cons link links ih =>
    obtain ⟨sep, cs⟩ := link
    have blank : ∀ c ∈ [' '], Token.isPlain c = true := List.forall_mem_singleton.mpr rfl
    have front : Text.signs (' ' :: cs) = Text.signs cs := Text.signs_append_of_plain blank cs
    have behind := ih (' ' :: cs)
    have atFirst : Token.signs (ofSpaced (' ' :: cs) links).first = Text.signs cs :=
      (congrArg Pieces.first behind).trans front
    have atRest := congrArg Pieces.rest behind
    have back : Token.signs (Token.lex (first ++ [' '])) = Text.signs first := Text.signs_append_plain first blank
    simp only [signs, marks] at atRest
    simp only [ofSpaced, signs, marks, List.map_cons, atFirst, atRest, back]

theorem marked_ofSpaced {first : List Char} {links : List (Token × List Char)}
    (signs : ∀ link ∈ links, link.1.kind ≠ .text) : (ofSpaced first links).Marked := by
  induction links generalizing first with
  | nil => simp [ofSpaced, Marked]
  | cons link links ih =>
    obtain ⟨sign, later⟩ := List.forall_mem_cons.mp signs
    exact List.forall_mem_cons.mpr ⟨sign, ih later⟩

/-- The signs of a spaced text are those of its texts and the separators. -/
theorem signs_spaced {first : List Char} {links : List (Token × List Char)}
    (signs : ∀ link ∈ links, link.1.kind ≠ .text) :
    Text.signs (Text.spaced first links) = (marks first links).tokens := by
  rw [Text.signs, ← tokens_ofSpaced signs, ← tokens_signs (marked_ofSpaced signs), signs_ofSpaced]

theorem Settled.links {first : List Char} {links : List (Token × List Char)}
    (settled : (marks first links).Settled isSeparator) : ∀ link ∈ links, isSeparator link.1 = true :=
  fun link member => settled.separates (link.1, Text.signs link.2) (List.mem_map.mpr ⟨link, member, rfl⟩)

theorem Settled.signs_spaced (noText : ∀ cs, isSeparator (.text cs) = false) {first : List Char}
    {links : List (Token × List Char)} (settled : (marks first links).Settled isSeparator) :
    Text.signs (Text.spaced first links) = (marks first links).tokens :=
  Pieces.signs_spaced fun link member => kind_of_separates noText (settled.links link member)

/-- A spaced text is cut at its separators if the signs say so. -/
theorem cut_spaced (noText : ∀ cs, isSeparator (.text cs) = false) {first : List Char}
    {links : List (Token × List Char)} (settled : (marks first links).Settled isSeparator) :
    cut isSeparator (Text.spaced first links) = ofSpaced first links := by
  have signs : ∀ link ∈ links, link.1.kind ≠ .text := fun link member =>
    kind_of_separates noText (settled.links link member)
  rw [← signs_ofSpaced] at settled
  rw [cut, ← tokens_ofSpaced signs]
  exact (settled_signs noText (marked_ofSpaced signs)).mp settled

theorem trim_interleaved_ofSpaced {first : List Char} {links : List (Token × List Char)} :
    (ofSpaced first links).interleaved.map trim =
      (first :: links.flatMap fun (sep, cs) => [sep.chars, cs]).map trim := by
  induction links generalizing first with
  | nil => simp [ofSpaced, interleaved, Token.charsOf_lex]
  | cons link links ih =>
    obtain ⟨sep, cs⟩ := link
    have behind := @ih (' ' :: cs)
    have front : trim (' ' :: cs) = trim cs := Text.trim_blank cs
    have back : trim (first ++ [' ']) = trim first := Text.trim_append_right first rfl
    simp only [interleaved, List.map_cons, List.cons.injEq, front] at behind
    simp only [ofSpaced, interleaved, List.map_cons, List.flatMap_cons, Token.charsOf_lex, behind, back,
      List.cons_append, List.nil_append]

theorem trim_parts_ofSpaced {first : List Char} {links : List (Token × List Char)} :
    (ofSpaced first links).parts.map trim = trim first :: links.map fun (_, cs) => trim cs := by
  induction links generalizing first with
  | nil => simp [ofSpaced, parts, Token.charsOf_lex]
  | cons link links ih =>
    obtain ⟨sep, cs⟩ := link
    have behind := @ih (' ' :: cs)
    have front : trim (' ' :: cs) = trim cs := Text.trim_blank cs
    have back : trim (first ++ [' ']) = trim first := Text.trim_append_right first rfl
    simp only [parts, List.map_cons, List.cons.injEq, front] at behind
    simp only [ofSpaced, parts, List.map_cons, Token.charsOf_lex, behind, back]

/-- Texts between occurrences of one separator. -/
def linksBy (sep : Token) (texts : List (List Char)) : List (Token × List Char) :=
  texts.map fun cs => (sep, cs)

/-- Texts with the same signs make the same marks. -/
theorem marks_linksBy {sep : Token} {first first' : List Char} {texts texts' : List (List Char)}
    (same : (first :: texts).map Text.signs = (first' :: texts').map Text.signs) :
    marks first (linksBy sep texts) = marks first' (linksBy sep texts') := by
  obtain ⟨atFirst, atRest⟩ := List.cons_eq_cons.mp same
  have rest := congrArg (List.map (Prod.mk sep)) atRest
  simp only [List.map_map, Function.comp_def] at rest
  simp only [marks, linksBy, List.map_map, Function.comp_def, atFirst, rest]

/-- The trimmed pieces of a text at one kind of separator have the signs of the text, and are settled. -/
theorem marks_of_parts {sep : Token} (only : ∀ t, isSeparator t = true → t = sep) (noText : ∀ cs, sep ≠ .text cs)
    {cs first : List Char} {texts : List (List Char)}
    (parts : (cut isSeparator cs).parts.map trim = first :: texts) :
    (marks first (linksBy sep texts)).Settled isSeparator ∧
      Text.signs cs = (marks first (linksBy sep texts)).tokens := by
  have noText' (cs : List Char) : isSeparator (.text cs) = false := by
    cases separates : isSeparator (.text cs) with
    | false => rfl
    | true => exact absurd (only _ separates).symm (noText cs)
  have signs : (cut isSeparator cs).signs = marks first (linksBy sep texts) := by
    rw [Pieces.parts, List.map_cons, List.map_map] at parts
    obtain ⟨rfl, rfl⟩ := List.cons_eq_cons.mp parts
    simp only [Pieces.signs, marks, linksBy, List.map_map, Function.comp_def]
    rw [Text.signs_trim, Text.signs_charsOf (lexed_first cs)]
    congr 1
    refine List.map_congr_left ?_
    rintro ⟨t, ts⟩ member
    rw [Text.signs_trim, Text.signs_charsOf (lexed_rest member), only t (isSeparator_cutAt _ member)]
  have marked : (cut isSeparator cs).Marked := marked_cutAt noText' 0 _
  rw [← signs]
  exact ⟨(settled_signs noText' marked).mpr (settled_cut cs), by rw [tokens_signs marked, tokens_cut]; rfl⟩

/-- Texts written with a separator between them are its pieces. -/
theorem parts_spaced {sep : Token} (noText : ∀ cs, isSeparator (.text cs) = false) {first : List Char}
    {texts : List (List Char)} (settled : (marks first (linksBy sep texts)).Settled isSeparator)
    (trimmed : ∀ cs ∈ first :: texts, Text.Trimmed cs) :
    (cut isSeparator (Text.spaced first (linksBy sep texts))).parts.map trim = first :: texts := by
  obtain ⟨atFirst, atRest⟩ := List.forall_mem_cons.mp trimmed
  have rest : texts.map trim = texts.map id := List.map_congr_left fun cs member => (atRest cs member).trim_eq
  rw [cut_spaced noText settled, trim_parts_ofSpaced, atFirst.trim_eq, linksBy, List.map_map]
  simp only [Function.comp_def, rest, List.map_id]

end Pieces

namespace Part

/-- A text that a chain can have as a part. -/
structure IsText (cs : List Char) : Prop where
  nonempty : cs ≠ []
  trimmed : Text.Trimmed cs
  noArrow : ofChars cs = .text cs

/-- The parts that arrows and the texts behind them are. -/
def ofLinks (links : List (Token × List Char)) : List Part :=
  links.flatMap fun (t, cs) => [ofChars t.chars, .text cs]

theorem ofLinks_arrow (a : Arrow) (cs : List Char) (links : List (Token × List Char)) :
    ofLinks ((.arrow a, cs) :: links) = .arrow a :: .text cs :: ofLinks links := by
  cases a <;> rfl

theorem ofLinks_append (links more : List (Token × List Char)) :
    ofLinks (links ++ more) = ofLinks links ++ ofLinks more :=
  List.flatMap_append

theorem isText_of_mem_split {cs part : List Char} (member : .text part ∈ split cs) : IsText part := by
  obtain ⟨text, within, same⟩ := List.mem_map.mp member
  obtain ⟨inside, nonempty⟩ := List.mem_filter.mp within
  obtain ⟨piece, _, rfl⟩ := List.mem_map.mp inside
  have found : trim piece = part := eq_of_ofChars same
  rw [found] at same nonempty
  exact ⟨by simpa using nonempty, by rw [← found]; exact Text.trimmed_trim piece, same⟩

theorem ofTexts_links {links : List (Token × List Char)} (arrows : ∀ link ∈ links, link.1.isArrow = true)
    (each : ∀ link ∈ links, IsText link.2) :
    ofTexts (links.flatMap fun (t, cs) => [t.chars, cs]) = ofLinks links := by
  induction links with
  | nil => rfl
  | cons link links ih =>
    obtain ⟨t, cs⟩ := link
    obtain ⟨isArrow, later⟩ := List.forall_mem_cons.mp arrows
    obtain ⟨isText, each'⟩ := List.forall_mem_cons.mp each
    cases t with
    | arrow a =>
      have solid : isBlankText cs = false :=
        Text.solid_iff.mpr (by rw [isText.trimmed.trim_eq]; exact isText.nonempty)
      rw [List.flatMap_cons, ofLinks_arrow, ← ih later each']
      simp only [List.cons_append, List.nil_append]
      rw [Token.chars, ofTexts_arrow, ofTexts_cons, solid, isText.trimmed.trim_eq, isText.noArrow]
      rfl
    | post | opening | closing | ampersand | text => cases isArrow

/-- The parts of a spaced text are those of its texts and arrows, one by one. -/
theorem split_spaced_eq {first : List Char} {links : List (Token × List Char)}
    (settled : (Pieces.marks first links).Settled Token.isArrow) :
    split (Text.spaced first links) = ofTexts (first :: links.flatMap fun (t, cs) => [t.chars, cs]) := by
  rw [split, Pieces.cut_spaced (fun _ => rfl) settled, Pieces.trim_interleaved_ofSpaced, ← ofTexts]

/-- Texts written with arrows between them are the parts of a chain. -/
theorem split_spaced {first : List Char} {links : List (Token × List Char)} (isText : IsText first)
    (each : ∀ link ∈ links, IsText link.2) (settled : (Pieces.marks first links).Settled Token.isArrow) :
    split (Text.spaced first links) = .text first :: ofLinks links := by
  have solid : isBlankText first = false :=
    Text.solid_iff.mpr (by rw [isText.trimmed.trim_eq]; exact isText.nonempty)
  rw [split_spaced_eq settled, ofTexts_cons, solid, isText.trimmed.trim_eq, isText.noArrow,
    ofTexts_links settled.links each]
  rfl

/-- A text in front of parts that start with no text is the first part. -/
theorem signs_of_ofTexts_cons {ts : List Token} {first : List Char} {texts : List (List Char)} {later : List Part}
    (lexed : Token.Lexed ts) (noText : ∀ cs more, ofTexts texts ≠ .text cs :: more)
    (parts : ofTexts (Token.charsOf ts :: texts) = .text first :: later) :
    Token.signs ts = Text.signs first ∧ ofTexts texts = later := by
  rw [ofTexts_cons] at parts
  split at parts
  · exact absurd parts (noText first later)
  · obtain ⟨atHead, atTail⟩ := List.cons_eq_cons.mp parts
    rw [← eq_of_ofChars atHead, Text.signs_trim, Text.signs_charsOf lexed]
    exact ⟨rfl, atTail⟩

/-- Where texts and arrows alternate, no piece of the chain is blank, so its parts are its pieces. -/
theorem signs_of_ofTexts {first : List Char} {links : List (Token × List Char)} {ts : List Token}
    {rest : List (Token × List Token)} (arrows : ∀ link ∈ links, link.1.isArrow = true)
    (arrows' : ∀ piece ∈ rest, piece.1.isArrow = true) (lexed : Token.Lexed ts)
    (lexed' : ∀ piece ∈ rest, Token.Lexed piece.2)
    (parts : ofTexts (Token.charsOf ts :: rest.flatMap fun (sep, us) => [sep.chars, Token.charsOf us]) =
      .text first :: ofLinks links) : Pieces.signs ⟨ts, rest⟩ = Pieces.marks first links := by
  induction rest generalizing ts first links with
  | nil =>
    obtain ⟨same, none⟩ := signs_of_ofTexts_cons lexed (fun _ _ starts => by cases starts) parts
    cases links with
    | nil => rw [Pieces.signs, Pieces.marks, same]; rfl
    | cons => cases none
  | cons piece rest ih =>
    obtain ⟨t, us⟩ := piece
    obtain ⟨isArrow, laterArrows⟩ := List.forall_mem_cons.mp arrows'
    obtain ⟨lexedPiece, laterLexed⟩ := List.forall_mem_cons.mp lexed'
    cases t with
    | post | opening | closing | ampersand | text => cases isArrow
    | arrow a =>
      rw [List.flatMap_cons, List.cons_append, List.cons_append, List.nil_append, Token.chars] at parts
      obtain ⟨same, further⟩ := signs_of_ofTexts_cons lexed
        (fun _ _ starts => by rw [ofTexts_arrow] at starts; cases starts) parts
      rw [ofTexts_arrow] at further
      cases links with
      | nil => cases further
      | cons link links =>
        obtain ⟨t', cs⟩ := link
        obtain ⟨isArrow', laterArrows'⟩ := List.forall_mem_cons.mp arrows
        cases t' with
        | post | opening | closing | ampersand | text => cases isArrow'
        | arrow a' =>
          rw [ofLinks_arrow] at further
          obtain ⟨sameArrow, behind⟩ := List.cons_eq_cons.mp further
          cases sameArrow
          have later := ih laterArrows' laterArrows lexedPiece laterLexed behind
          have atFirst : Token.signs us = Text.signs cs := congrArg Pieces.first later
          have atRest := congrArg Pieces.rest later
          simp only [Pieces.signs, Pieces.marks] at atRest
          simp only [Pieces.signs, Pieces.marks, List.map_cons, same, atFirst, atRest]

/-- The parts of a chain where texts and arrows alternate have the signs of the chain, and are settled. -/
theorem marks_of_split {cs first : List Char} {links : List (Token × List Char)}
    (arrows : ∀ link ∈ links, link.1.isArrow = true) (parts : split cs = .text first :: ofLinks links) :
    (Pieces.marks first links).Settled Token.isArrow ∧ Text.signs cs = (Pieces.marks first links).tokens := by
  have marked : (Pieces.cut Token.isArrow cs).Marked := Pieces.marked_cutAt (fun _ => rfl) 0 _
  have signs : (Pieces.cut Token.isArrow cs).signs = Pieces.marks first links :=
    signs_of_ofTexts arrows Pieces.isSeparator_cutAt (Pieces.lexed_first cs) (fun _ => Pieces.lexed_rest) parts
  rw [← signs]
  exact ⟨(Pieces.settled_signs (fun _ => rfl) marked).mpr (Pieces.settled_cut cs), by
    rw [Pieces.tokens_signs marked, Pieces.tokens_cut]; rfl⟩

end Part

end TransferFlow
