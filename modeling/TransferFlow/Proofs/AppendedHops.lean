import TransferFlow.Proofs.Continuations
import TransferFlow.Proofs.Regrouping

namespace TransferFlow

open Text (isBlankText trim)

namespace Pieces

variable {isSeparator : Token → Bool}

/-- The pieces of two texts, one behind the other: the last piece of the first text runs on into the
first piece of the second. -/
def append (p q : Pieces) : Pieces :=
  join p.first p.rest
where
  /-- Puts a piece and the later ones in front of `q`. -/
  join (first : List Token) : List (Token × List Token) → Pieces
    | [] => q.pushAll first
    | (sep, ts) :: rest => ((join ts rest).separate sep).pushAll first

theorem append_push (t : Token) (p q : Pieces) : (p.push t).append q = (p.append q).push t := by
  obtain ⟨first, rest⟩ := p
  cases rest <;> rfl

theorem append_separate (t : Token) (p q : Pieces) : (p.separate t).append q = (p.append q).separate t := rfl

/-- All groups that are open at a token are closed behind it. -/
theorem depthBehind_le {t : Token} {ts : List Token} {depth : Nat} (within : depth ≤ Token.unopened (t :: ts)) :
    PlacedToken.depthBehind depth ⟨t, Token.unopened ts⟩ ≤ Token.unopened ts := by
  rw [Token.unopened_cons] at within
  cases t with
  | opening | closing =>
    simp only [Token.countUnopened] at within
    simp only [PlacedToken.depthBehind, PlacedToken.isPaired, decide_eq_true_eq]
    split <;> omega
  | arrow | post | ampersand | text => exact within

/-- A text that closes no parenthesis of the text before it changes no group there. -/
theorem cutAt_append {ts us : List Token} {depth : Nat} (closesNone : Token.unopened us = 0)
    (within : depth ≤ Token.unopened ts) :
    cutAt isSeparator depth (PlacedToken.all (ts ++ us)) =
      (cutAt isSeparator depth (PlacedToken.all ts)).append (cutAt isSeparator 0 (PlacedToken.all us)) := by
  induction ts generalizing depth with
  | nil =>
    obtain rfl := Nat.le_zero.mp within
    rfl
  | cons t ts ih =>
    have same : Token.unopened (ts ++ us) = Token.unopened ts := by
      rw [Token.unopened_append, closesNone, Nat.zero_sub, Nat.add_zero]
    rw [List.cons_append, PlacedToken.all_cons, PlacedToken.all_cons, same, cutAt, cutAt]
    dsimp only
    rw [ih (depthBehind_le within)]
    split
    · exact (append_separate _ _ _).symm
    · exact (append_push _ _ _).symm

/-- The tokens between the separators. -/
def texts (p : Pieces) : List (List Token) :=
  p.first :: p.rest.map (·.2)

theorem parts_eq_texts (p : Pieces) : p.parts = p.texts.map Token.charsOf := by
  rw [parts, texts, List.map_cons, List.map_map]
  rfl

theorem isInfix_of_mem_texts {p : Pieces} {ts : List Token} (member : ts ∈ p.texts) : ts <:+: p.tokens := by
  rcases List.mem_cons.mp member with rfl | member
  · exact p.first_isInfix
  · obtain ⟨piece, inside, rfl⟩ := List.mem_map.mp member
    exact rest_isInfix inside

/-- A text in one piece goes on where the last piece of the text before it ends. -/
theorem texts_append {p q : Pieces} (single : q.rest = []) :
    ∃ before last, p.texts = before ++ [last] ∧ (p.append q).texts = before ++ [last ++ q.first] := by
  obtain ⟨first, rest⟩ := p
  induction rest generalizing first with
  | nil => exact ⟨[], first, rfl, by simp [append, append.join, pushAll, texts, single]⟩
  | cons piece rest ih =>
    obtain ⟨before, last, shape, joined⟩ := ih piece.2
    refine ⟨first :: before, last, ?_, ?_⟩
    · rw [List.cons_append, ← shape]
      rfl
    · rw [List.cons_append, ← joined]
      simp [append, append.join, pushAll, separate, texts]

/-- A text that starts with a separator leaves the last piece of the text before it as it was. -/
theorem interleaved_append {p q : Pieces} (starts : q.first = []) :
    (p.append q).interleaved = p.interleaved ++ q.rest.flatMap fun (sep, ts) => [sep.chars, Token.charsOf ts] := by
  obtain ⟨first, rest⟩ := p
  induction rest generalizing first with
  | nil => simp [append, append.join, pushAll, interleaved, starts]
  | cons piece rest ih =>
    have later := ih piece.2
    simp only [append, interleaved, List.cons_append, List.cons.injEq] at later
    simp [append, append.join, pushAll, separate, interleaved, later.1, later.2]

end Pieces

/-- The names of a leg are plain. -/
structure Leg.IsPlain (l : Leg) : Prop where
  protocol : Text.IsPlain l.step.protocol.toList
  target : Text.IsPlain l.target.toList

namespace Leg

/-- The pieces of the leg behind the blank that it starts with. -/
def pieces (l : Leg) : Pieces where
  first := []
  rest := [(.arrow l.arrow, Token.lex (' ' :: (l.step.write ++ [' ']))),
    (.arrow l.arrow, Token.lex (' ' :: l.target.toList))]

/-- The blank sets the leg off from any text before it. -/
theorem lex_append_write (cs : List Char) (l : Leg) :
    Token.lex (cs ++ l.write) = Token.lex (cs ++ [' ']) ++ l.pieces.tokens := by
  have sign : (Token.arrow l.arrow).kind ≠ .text := by simp [Token.kind]
  have whole : l.write = ' ' :: ((Token.arrow l.arrow).chars ++
      (' ' :: l.step.write ++ ' ' :: ((Token.arrow l.arrow).chars ++ ' ' :: l.target.toList))) := by
    simp [write, Token.chars]
  rw [whole, Token.lex_append_sign (by rfl) sign, Token.lex_append_sign (by rfl) sign]
  simp [pieces, Pieces.tokens]

variable {l : Leg}

theorem legible (plain : l.IsPlain) : l.Legible where
  step := Step.legible_of_plain plain.protocol
  target := plain.target.isName

/-- Between its arrows a leg is text. -/
theorem text_of_mem_pieces (plain : l.IsPlain) :
    ∀ piece ∈ l.pieces.rest, piece.1 = .arrow l.arrow ∧ ∀ t ∈ piece.2, t.kind = .text := by
  have noSigns {cs : List Char} (none : Text.signs cs = []) : ∀ t ∈ Token.lex cs, t.kind = .text := by
    rw [Text.signs, Token.signs, List.filter_eq_nil_iff] at none
    simpa using none
  have blank : ∀ c ∈ [' '], Token.isPlain c = true := List.forall_mem_singleton.mpr rfl
  refine List.forall_mem_cons.mpr ⟨⟨rfl, noSigns ?_⟩, List.forall_mem_singleton.mpr ⟨rfl, noSigns ?_⟩⟩
  · have step := Text.signs_append_plain l.step.write blank
    rw [Step.signs_of_plain plain.protocol] at step
    exact (Text.signs_append_of_plain blank _).trans step
  · exact (Text.signs_append_of_plain blank _).trans plain.target.signs

theorem skipped_of_text {isSeparator : Token → Bool} (noText : ∀ cs, isSeparator (.text cs) = false)
    {ts : List Token} (text : ∀ t ∈ ts, t.kind = .text) : Pieces.Skipped isSeparator ts := by
  refine Pieces.skipped_of_inert fun t member => ?_
  have isText := text t member
  cases t with
  | text cs => exact ⟨by simp, by simp, noText cs⟩
  | arrow | post | opening | closing | ampersand => cases isText

/-- A leg is cut at its two arrows. -/
theorem cutAt_arrows (plain : l.IsPlain) :
    Pieces.cutAt Token.isArrow 0 (PlacedToken.all l.pieces.tokens) = l.pieces := by
  refine Pieces.settled_of_skipped Pieces.skipped_nil fun piece member => ?_
  obtain ⟨isArrow, text⟩ := text_of_mem_pieces plain piece member
  rw [isArrow]
  exact ⟨by simp, by simp, rfl, skipped_of_text (fun _ => rfl) text⟩

/-- A leg holds no mark. -/
theorem cutAt_post (plain : l.IsPlain) :
    Pieces.cutAt (·.kind == .post) 0 (PlacedToken.all l.pieces.tokens) =
        { first := l.pieces.tokens, rest := [] } := by
  have skipped : Pieces.Skipped (·.kind == .post) l.pieces.tokens := by
    refine Pieces.skipped_tokens Pieces.skipped_nil fun piece member => ?_
    obtain ⟨isArrow, text⟩ := text_of_mem_pieces plain piece member
    rw [isArrow]
    exact ⟨by simp, by simp, rfl, skipped_of_text (fun _ => rfl) text⟩
  have alone := skipped []
  rw [List.append_nil] at alone
  rw [alone, PlacedToken.all_nil, Pieces.cutAt, Pieces.pushAll, List.append_nil]

theorem unopened_tokens (plain : l.IsPlain) : Token.unopened l.pieces.tokens = 0 := by
  refine (Token.counts_of_noParen (List.forall_mem_append.mpr ⟨by simp [pieces], ?_⟩)).1
  refine List.forall_mem_flatMap.mpr fun piece member => ?_
  obtain ⟨isArrow, text⟩ := text_of_mem_pieces plain piece member
  refine List.forall_mem_cons.mpr ⟨by simp [isArrow], fun t within => ?_⟩
  have isText := text t within
  constructor <;> rintro rfl <;> cases isText

/-- The parts of a chain that a leg is added to. -/
theorem split_append (plain : l.IsPlain) {ts : List Token} (lexed : Token.Lexed (ts ++ l.pieces.tokens)) :
    Part.split (Token.charsOf (ts ++ l.pieces.tokens)) = Part.split (Token.charsOf ts) ++ Part.ofLinks l.links := by
  have cut : Pieces.cut Token.isArrow (Token.charsOf (ts ++ l.pieces.tokens)) =
      (Pieces.cut Token.isArrow (Token.charsOf ts)).append l.pieces := by
    rw [Pieces.cut, lexed.lex_charsOf, Pieces.cutAt_append (unopened_tokens plain)
      (Nat.zero_le _), cutAt_arrows plain, Pieces.cut, lexed.left.lex_charsOf]
  have links : Part.ofTexts (l.pieces.rest.flatMap fun (sep, ts) => [sep.chars, Token.charsOf ts]) =
      Part.ofLinks l.links := by
    rw [← Part.ofTexts_links (by simp [Leg.links, Token.isArrow, Token.kind]) (isText_links (legible plain))]
    have front (cs : List Char) : trim (' ' :: cs) = trim cs := Text.trim_blank cs
    have back (cs : List Char) : trim (cs ++ [' ']) = trim cs := Text.trim_append_right cs rfl
    simp [Part.ofTexts, pieces, Leg.links, Token.charsOf_lex, front, back]
  rw [Part.split_eq, cut, Pieces.interleaved_append rfl, Part.split_eq, ← links]
  simp only [Part.ofTexts, List.map_append, List.filter_append]

end Leg

theorem forall₂_concat_left {α β : Type} {R : α → β → Prop} {xs : List α} {x : α} {zs : List β} :
    List.Forall₂ R (xs ++ [x]) zs ↔ ∃ ys y, zs = ys ++ [y] ∧ List.Forall₂ R xs ys ∧ R x y := by
  rw [← List.forall₂_reverse_iff, List.reverse_append, List.reverse_singleton, List.singleton_append,
    List.forall₂_cons_left_iff]
  constructor
  · rintro ⟨y, ys, atLast, atFront, shape⟩
    refine ⟨ys.reverse, y, by rw [← List.reverse_reverse zs, shape, List.reverse_cons], ?_, atLast⟩
    rw [← List.forall₂_reverse_iff, List.reverse_reverse]
    exact atFront
  · rintro ⟨ys, y, rfl, atFront, atLast⟩
    exact ⟨y, ys.reverse, atLast, List.forall₂_reverse_iff.mpr atFront, by simp⟩

theorem Hop.Reads.append {chain : List Char → Except SyntaxError Chain} {parts more : List Part}
    {hops later : List Hop} (first : Hop.Reads chain parts hops) (second : Hop.Reads chain more later) :
    Hop.Reads chain (parts ++ more) (hops ++ later) := by
  induction first with
  | nil => exact second
  | single single atStep _ ih => exact .single single atStep ih
  | fanIn fanIn all _ ih => exact .fanIn fanIn all ih
  | fanOut fanOut all distinct _ ih => exact .fanOut fanOut all distinct ih

namespace Chain

/-- The chain with a leg behind its hops. -/
def extend (c : Chain) (l : Leg) : Chain :=
  { c with hops := c.hops ++ [.single l] }

/-- A chain goes on with the leg that stands behind its text. -/
theorem read_append {l : Leg} (plain : l.IsPlain) {ts : List Token} (lexed : Token.Lexed (ts ++ l.pieces.tokens))
    {c : Chain} (run : Chain.read (trim (Token.charsOf ts)) = .ok c) :
    Chain.read (trim (Token.charsOf (ts ++ l.pieces.tokens))) = .ok (c.extend l) := by
  rw [read_eq_readWith, readWith_eq_ok, Part.split_trim] at *
  obtain ⟨entity, rest, parts, _, found, named⟩ := run
  have leg : Hop.Reads Chain.read (Part.ofLinks l.links) [.single l] := by
    have alone := @Leg.reads_links Chain.read l (Leg.legible plain) [] [] .nil
    rwa [List.append_nil] at alone
  refine ⟨entity, rest ++ Part.ofLinks l.links, ?_, ?_, found.append leg, named⟩
  · rw [Leg.split_append plain lexed, parts]
    rfl
  · simp [Leg.links, Part.ofLinks_arrow]

end Chain

namespace Pattern

/-- The pattern with a leg behind its last chain. -/
def extend (p : Pattern) (l : Leg) : Pattern :=
  match p.post.getLast? with
  | none => { p with main := p.main.extend l }
  | some last => { p with post := p.post.dropLast ++ [last.extend l] }

theorem extend_eq (p : Pattern) (l : Leg) :
    p.post = [] ∧ p.extend l = { p with main := p.main.extend l } ∨
      ∃ early last, p.post = early ++ [last] ∧ p.extend l = { p with post := early ++ [last.extend l] } := by
  rcases List.eq_nil_or_concat p.post with none | ⟨early, last, shape⟩
  · exact Or.inl ⟨none, by rw [extend, none]; rfl⟩
  · rw [List.concat_eq_append] at shape
    refine Or.inr ⟨early, last, shape, ?_⟩
    rw [extend, shape, List.getLast?_concat, List.dropLast_concat]

theorem chains_extend {p : Pattern} {early : List Chain} {last : Chain} (shape : p.chains = early ++ [last])
    (l : Leg) : (p.extend l).chains = early ++ [last.extend l] := by
  rcases p.extend_eq l with ⟨none, extended⟩ | ⟨early', last', post, extended⟩
  · rw [chains, none] at shape
    obtain ⟨rfl, same⟩ := List.append_inj' (show [] ++ [p.main] = early ++ [last] from shape) rfl
    rw [extended, chains, none, List.singleton_inj.mp same]
    rfl
  · rw [chains, post, ← List.cons_append] at shape
    obtain ⟨rfl, same⟩ := List.append_inj' shape rfl
    rw [extended, chains, List.singleton_inj.mp same]
    rfl

/-- A line goes on with the leg that stands behind its text. -/
theorem read_append {cs : List Char} {p : Pattern} (run : Pattern.read (trim cs) = .ok p) {l : Leg}
    (plain : l.IsPlain) : Pattern.read (trim (cs ++ l.write)) = .ok (p.extend l) := by
  have blank : trim (cs ++ [' ']) = trim cs := Text.trim_append_right cs rfl
  rw [← blank] at run
  rw [Pattern.read_eq_ok, Pieces.trim_parts_cut fun _ => rfl] at *
  have grown : Pieces.cut (·.kind == .post) (cs ++ l.write) =
      (Pieces.cut (·.kind == .post) (cs ++ [' '])).append { first := l.pieces.tokens, rest := [] } := by
    rw [Pieces.cut, Leg.lex_append_write, Pieces.cutAt_append (Leg.unopened_tokens plain) (Nat.zero_le _),
      Leg.cutAt_post plain, Pieces.cut]
  obtain ⟨before, last, texts, joined⟩ := Pieces.texts_append (p := Pieces.cut (·.kind == .post) (cs ++ [' ']))
    (q := { first := l.pieces.tokens, rest := [] }) rfl
  rw [← grown] at joined
  have lexed : Token.Lexed (last ++ l.pieces.tokens) := by
    have inside := @Pieces.isInfix_of_mem_texts (Pieces.cut (·.kind == .post) (cs ++ l.write)) _
      (by rw [joined]; exact List.mem_append_right _ (List.mem_singleton_self _))
    rw [Pieces.tokens_cut] at inside
    exact (Token.lexed_lex _).of_isInfix inside
  rw [Pieces.parts_eq_texts, texts, List.map_append, List.map_append] at run
  rw [Pieces.parts_eq_texts, joined, List.map_append, List.map_append]
  obtain ⟨early, c, chains, atFront, atLast⟩ := forall₂_concat_left.mp run
  rw [chains_extend chains]
  exact forall₂_concat_left.mpr ⟨early, _, rfl, atFront, Chain.read_append plain lexed atLast⟩

end Pattern

section Segments

/-- The connection that a leg makes, in the main flow or in post-processing. -/
def Leg.connectionIn (l : Leg) (isPost : Bool) : ConnectionSegment :=
  { l.step.connection l.arrow l.target .none none with isPost }

/-- The segments of a leg behind a line. -/
def Leg.behind (l : Leg) (isPost : Bool) : List Segment :=
  [.connection (l.connectionIn isPost), Segment.plain l.target isPost]

theorem Chain.segments_extend (c : Chain) (l : Leg) : (c.extend l).segments = c.segments ++ l.behind false := by
  simp only [extend, segments, List.flatMap_append, List.flatMap_singleton, List.cons_append]
  rfl

/-- A chain is marked as post-processing at its first connection, so what stands behind it is not marked. -/
theorem Chain.markPost_extend {c : Chain} (wellFormed : c.WellFormed) (l : Leg) :
    Segment.markPost false (c.extend l).segments = Segment.markPost false c.segments ++ l.behind true := by
  obtain ⟨first, rest, hops, shape, _⟩ := segments_cons wellFormed
  rw [segments_extend, shape, List.cons_append, List.cons_append, Segment.plain, Segment.markPost_chain,
    Segment.markPost_chain, ← List.cons_append, ← List.cons_append, List.map_append]
  rfl

/-- A leg behind a line adds its two segments to those of the line. -/
theorem Pattern.segments_extend {p : Pattern} (wellFormed : p.WellFormed) (l : Leg) :
    (p.extend l).segments = p.segments ++ l.behind (!p.post.isEmpty) := by
  rcases p.extend_eq l with ⟨none, extended⟩ | ⟨early, last, post, extended⟩
  · rw [extended, segments, segments, none, Chain.segments_extend]
    simp
  · have inLine : last.WellFormed := wellFormed last (by rw [chains, post]; simp)
    rw [extended, segments, segments, post]
    have inPost : (!(early ++ [last]).isEmpty) = true := by simp
    rw [inPost]
    simp only [List.flatMap_append, List.flatMap_singleton, Chain.markPost_extend inLine, List.append_assoc]

end Segments

end TransferFlow
