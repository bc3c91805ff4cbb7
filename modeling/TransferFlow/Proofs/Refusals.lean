import Mathlib.Data.List.Chain
import TransferFlow.Document
import TransferFlow.Proofs.Continuations
import TransferFlow.Proofs.DocumentLines
import TransferFlow.Proofs.HopLoop

namespace TransferFlow

open Text (isBlankText trim)

namespace Pieces

variable {isSeparator : Token → Bool}

/-- Without parentheses there is no separator among the tokens. -/
def Inert (isSeparator : Token → Bool) (ts : List Token) : Prop :=
  (∀ t ∈ ts, isSeparator t = false) ∨ .opening ∈ ts ∨ .closing ∈ ts

theorem inert_nil : Inert isSeparator [] :=
  .inl (List.forall_mem_nil _)

theorem Inert.cons {t : Token} {ts : List Token} (inert : Inert isSeparator ts)
    (noSeparator : isSeparator t = false) :
    Inert isSeparator (t :: ts) := by
  rcases inert with none | opening | closing
  · exact .inl (List.forall_mem_cons.mpr ⟨noSeparator, none⟩)
  · exact .inr (.inl (List.mem_cons_of_mem _ opening))
  · exact .inr (.inr (List.mem_cons_of_mem _ closing))

/-- Outside all groups a cut leaves no separator in a piece. -/
theorem inert_cutAt (depth : Nat) (ps : List PlacedToken) :
    (depth = 0 → Inert isSeparator (cutAt isSeparator depth ps).first) ∧
      ∀ piece ∈ (cutAt isSeparator depth ps).rest, Inert isSeparator piece.2 := by
  induction ps generalizing depth with
  | nil => exact ⟨fun _ => inert_nil, List.forall_mem_nil _⟩
  | cons p ps ih =>
    obtain ⟨first, rest⟩ := ih (p.depthBehind depth)
    obtain ⟨t, n⟩ := p
    have outside (unpaired : PlacedToken.isPaired depth ⟨t, n⟩ = false) (top : depth = 0) :
        PlacedToken.depthBehind depth ⟨t, n⟩ = 0 := by
      rw [PlacedToken.depthBehind, unpaired, if_neg Bool.false_ne_true, top]
    rw [cutAt]
    split
    · rename_i separates
      simp only [Bool.and_eq_true, beq_iff_eq, Bool.not_eq_true'] at separates
      obtain ⟨⟨top, _⟩, unpaired⟩ := separates
      exact ⟨fun _ => inert_nil, List.forall_mem_cons.mpr ⟨first (outside unpaired top), rest⟩⟩
    · rename_i joins
      refine ⟨fun top => ?_, rest⟩
      by_cases paren : t = .opening ∨ t = .closing
      · rcases paren with rfl | rfl
        · exact .inr (.inl List.mem_cons_self)
        · exact .inr (.inr List.mem_cons_self)
      · rw [not_or] at paren
        have unpaired := PlacedToken.isPaired_other paren.1 paren.2 depth n
        refine (first (outside unpaired top)).cons ?_
        simpa [top, ← unpaired] using joins

end Pieces

namespace Part

/-- A piece of a chain is no arrow, not even when it is trimmed. -/
theorem ofChars_trim_of_inert {ts : List Token} (lexed : Token.Lexed ts) (inert : Pieces.Inert Token.isArrow ts) :
    ofChars (trim (Token.charsOf ts)) = .text (trim (Token.charsOf ts)) := by
  have other (a : Arrow) : trim (Token.charsOf ts) ≠ a.chars := by
    intro same
    have signs := Token.signs_lex_trim (Token.charsOf ts)
    have atArrow : Token.signs (Token.lex a.chars) = [.arrow a] := by cases a <;> rfl
    rw [lexed.lex_charsOf, same, atArrow] at signs
    have paren {t : Token} (sign : (t.kind != .text) = true) (member : t ∈ ts) : t = .arrow a := by
      rw [← List.mem_singleton, signs]
      exact List.mem_filter.mpr ⟨member, sign⟩
    rcases inert with none | opening | closing
    · have member : Token.arrow a ∈ Token.signs ts := by rw [← signs]; exact List.mem_singleton_self _
      cases none _ (List.mem_filter.mp member).1
    · cases paren rfl opening
    · cases paren rfl closing
  rw [ofChars, if_neg (other .forward), if_neg (other .reverse)]

/-- An arrow stands beside every text, or nothing. -/
def Alternates (parts : List Part) : Prop :=
  parts.IsChain fun p q => p.isArrow = true ∨ q.isArrow = true

theorem alternates_ofTexts {ts : List Token} {rest : List (Token × List Token)}
    (text : ofChars (trim (Token.charsOf ts)) = .text (trim (Token.charsOf ts)))
    (arrows : ∀ piece ∈ rest, piece.1.isArrow = true)
    (texts : ∀ piece ∈ rest, ofChars (trim (Token.charsOf piece.2)) = .text (trim (Token.charsOf piece.2))) :
    Alternates (ofTexts (Pieces.interleaved ⟨ts, rest⟩)) := by
  induction rest generalizing ts with
  | nil =>
    rw [Pieces.interleaved, List.flatMap_nil, ofTexts_cons]
    split
    · exact .nil
    · exact .singleton _
  | cons piece rest ih =>
    obtain ⟨t, us⟩ := piece
    obtain ⟨isArrow, laterArrows⟩ := List.forall_mem_cons.mp arrows
    obtain ⟨isText, laterTexts⟩ := List.forall_mem_cons.mp texts
    cases t with
    | post | opening | closing | ampersand | text => cases isArrow
    | arrow a =>
      have later := ih isText laterArrows laterTexts
      have whole : Pieces.interleaved ⟨ts, (.arrow a, us) :: rest⟩ =
          Token.charsOf ts :: a.chars :: Pieces.interleaved ⟨us, rest⟩ := rfl
      have fromArrow : Alternates (.arrow a :: ofTexts (Pieces.interleaved ⟨us, rest⟩)) :=
        List.isChain_cons.mpr ⟨fun _ _ => .inl rfl, later⟩
      rw [whole, ofTexts_cons, ofTexts_arrow]
      split
      · exact fromArrow
      · exact List.isChain_cons.mpr ⟨fun _ atHead => .inr (by cases atHead; rfl), fromArrow⟩

/-- No two texts stand side by side among the parts of a text. -/
theorem alternates_split (cs : List Char) : Alternates (split cs) := by
  obtain ⟨first, rest⟩ := @Pieces.inert_cutAt Token.isArrow 0 (PlacedToken.all (Token.lex cs))
  exact alternates_ofTexts (ofChars_trim_of_inert (Pieces.lexed_first cs) (first rfl)) Pieces.isSeparator_cutAt
    fun piece member => ofChars_trim_of_inert (Pieces.lexed_rest member) (rest piece member)

/-- Nothing, or an arrow and something behind it. -/
def Opens (parts : List Part) : Prop :=
  parts = [] ∨ ∃ a p rest, parts = .arrow a :: p :: rest

/-- Parts that can follow the entities of a chain: an arrow comes first, no two texts stand side by
side, and no arrow comes last. -/
structure Regular (parts : List Part) : Prop where
  first : ∀ p ∈ parts.head?, p.isArrow = true
  alternates : Alternates parts
  last : ∀ p ∈ parts.getLast?, p.isArrow = false

theorem Regular.opens {parts : List Part} (regular : Regular parts) : Opens parts := by
  match parts with
  | [] => exact .inl rfl
  | .text cs :: rest => cases regular.first _ rfl
  | [.arrow a] => cases regular.last _ rfl
  | .arrow a :: p :: rest => exact .inr ⟨a, p, rest, rfl⟩

/-- What stands behind a text. -/
theorem Regular.behind {p : Part} {cs : List Char} {rest : List Part} (regular : Regular (p :: .text cs :: rest)) :
    Regular rest := by
  have fromText := (List.isChain_cons.mp regular.alternates).2
  obtain ⟨first, alternates⟩ := List.isChain_cons.mp fromText
  refine ⟨fun q atHead => (first q atHead).resolve_left Bool.false_ne_true, alternates, fun q atEnd => ?_⟩
  refine regular.last q ?_
  cases rest with
  | nil => cases atEnd
  | cons r rest => simpa using atEnd

/-- The early refusals leave parts that can follow an entity. -/
theorem regular_of_accepted {entity : List Char} {rest : List Part} (alternates : Alternates (.text entity :: rest))
    (accepted : Chain.refusal? (.text entity :: rest) = none) : Regular rest := by
  obtain ⟨first, later⟩ := List.isChain_cons.mp alternates
  refine ⟨fun p atHead => (first p atHead).resolve_left Bool.false_ne_true, later, fun p atEnd => ?_⟩
  cases p with
  | text cs => rfl
  | arrow b =>
    obtain ⟨init, rfl⟩ := List.getLast?_eq_some_iff.mp atEnd
    have noFanOut : (Stage.ofChars b.chars).isFanOut = false := by rw [Hop.stage_of_arrow]; rfl
    match init with
    | [] => cases accepted
    | [q] =>
      have group : Chain.refusal?.endsInFanOut [.text entity, q, .arrow b] = false := noFanOut
      rw [Chain.refusal?, List.singleton_append, group] at accepted
      cases accepted
    | q :: r :: init =>
      have last : (Part.text entity :: (q :: r :: init ++ [.arrow b])).getLast? = some (.arrow b) := by
        rw [← List.cons_append, List.getLast?_concat]
      rw [Chain.refusal?, last, if_pos (by simp [isArrow])] at accepted
      cases accepted

end Part

namespace Hop

variable {chain : List Char → Except SyntaxError Chain} {parts rest behind : List Part}
  {a : Arrow} {wording : String}

theorem Closes.regular (closes : Closes parts a wording behind) (regular : Part.Regular parts) :
    Part.Regular behind := by
  cases closes with
  | @fanIn a stage texts steps behind group readSteps =>
    cases stage with
    | text cs => exact regular.behind
    | arrow b => rw [Part.chars, stage_of_arrow] at group; cases group
  | @single a stage cs step behind alone readStep =>
    cases stage with
    | text cs => exact regular.behind
    | arrow b =>
      rw [Part.chars, stage_of_arrow] at alone
      cases alone
      rw [Step.read_eq_ok, read?_arrow] at readStep
      cases readStep

theorem Takes.regular (taken : Takes chain parts rest) (regular : Part.Regular parts) : Part.Regular rest := by
  cases taken with
  | @fanOut a stage texts branches rest group readBranches =>
    cases stage with
    | text cs => exact regular.behind
    | arrow b => rw [Part.chars, stage_of_arrow] at group; cases group
  | closed closes => exact (closes.regular regular).behind

theorem Visits.regular (visits : Visits chain parts rest) (regular : Part.Regular parts) : Part.Regular rest := by
  induction visits with
  | refl => exact regular
  | tail _ taken ih => exact taken.regular ih

end Hop

/-- One of the errors that lines are reported with. No report says that something else stands in the
place of an arrow, and none has a cause among branches without a target. -/
def SyntaxError.IsOrdinary (e : SyntaxError) : Prop :=
  e.kind ∈ [ErrorKind.structureTooShort, .inconsistentArrows, .unexpectedEnd, .invalidProtocolDirection,
    .invalidParallelBranch] ∧ ∀ branch, e ≠ .blankTarget branch

@[simp] theorem SyntaxError.isOrdinary_iff {e : SyntaxError} :
    e.IsOrdinary ↔ (∀ found, e ≠ .expectedArrow found) ∧ ∀ branch, e ≠ .blankTarget branch := by
  cases e <;> simp [IsOrdinary, kind]

namespace Step

/-- Something stands behind the arrow of a branch that does not end in blanks. -/
theorem solid_of_readBranch? {cs onward : List Char} {s : Step} {a : Arrow} (trimmed : Text.Trimmed cs)
    (found : readBranch? cs = some (s, a, onward)) : isBlankText onward = false := by
  obtain ⟨⟨before, d, b, line⟩, search, same⟩ := Option.map_eq_some_iff.mp found
  cases same
  obtain ⟨rest, rfl, _, reads⟩ := shortestPrefix_spec search
  obtain ⟨head, behind, rfl, _, atOnward⟩ := directionAndOnward?_spec reads
  obtain ⟨blanks, after, rfl, _, blank, nonempty⟩ := onward?_spec atOnward
  have regrouped : before ++ (head ++ (a.chars ++ (blanks ++ line ++ after))) =
      (before ++ head ++ a.chars ++ blanks) ++ (line ++ after) := by simp
  rw [regrouped] at trimmed
  have solid := trimmed.solid (List.append_ne_nil_of_left_ne_nil nonempty after)
  rw [Text.isBlankText_append, blank, Bool.and_true] at solid
  rw [Text.solid_iff, Text.trim_trim, ← Text.solid_iff, solid]

end Step

namespace Part

theorem ofTexts_eq_nil {texts : List (List Char)} (none : ofTexts texts = []) :
    ∀ cs ∈ texts, isBlankText cs = true := by
  induction texts with
  | nil => exact List.forall_mem_nil _
  | cons cs texts ih =>
    rw [ofTexts_cons] at none
    split at none
    · rename_i blank
      exact List.forall_mem_cons.mpr ⟨blank, ih none⟩
    · cases none

/-- A text that is not blank has parts. -/
theorem split_ne_nil {cs : List Char} (solid : isBlankText cs = false) : split cs ≠ [] := by
  intro none
  have blank := ofTexts_eq_nil none
  have whole : isBlankText (Pieces.cut Token.isArrow cs).interleaved.flatten = true := by
    rw [isBlankText, List.all_eq_true]
    intro c member
    obtain ⟨piece, inside, member⟩ := List.mem_flatten.mp member
    exact List.all_eq_true.mp (blank piece inside) c member
  rw [Pieces.flatten_cut, solid] at whole
  cases whole

theorem ordinary_of_closing {a : Arrow} {wording : String} {behind : List Part}
    {e : SyntaxError} (opens : Opens behind)
    (failed : closing a wording behind = .error e) : e.IsOrdinary := by
  rcases opens with rfl | ⟨b, p, rest, rfl⟩
  · cases failed
    simp
  · unfold closing at failed
    dsimp only at failed
    split at failed
    · cases failed
      simp
    · split at failed
      · cases failed
      · cases failed
        simp

end Part

/-- The branches of a group are trimmed, so each that has a head has a target. -/
theorem split_of_branchesOf {inside cs : List Char} (member : cs ∈ branchesOf inside) {s : Step} {a : Arrow}
    {onward : List Char} (found : Step.readBranch? cs = some (s, a, onward)) : Part.split onward ≠ [] := by
  obtain ⟨part, _, rfl⟩ := List.mem_map.mp member
  exact Part.split_ne_nil (Step.solid_of_readBranch? (Text.trimmed_trim part) found)

section Ordinary

variable {chain : List Char → Except SyntaxError Chain} {e : SyntaxError}

theorem Step.ordinary_of_read {wording : StepWording} {cs : List Char} (failed : Step.read wording cs = .error e) :
    e.IsOrdinary := by
  rw [Step.read] at failed
  split at failed
  · cases failed
  · cases failed
    simp

theorem Branch.ordinary_of_read (ordinary : ∀ text e, chain text = .error e → e.IsOrdinary) {a : Arrow}
    {used : List String} {cs : List Char}
    (target : ∀ s b onward, Step.readBranch? cs = some (s, b, onward) → Part.split onward ≠ [])
    (failed : Branch.read chain a used cs = .error e) : e.IsOrdinary := by
  rw [Branch.read] at failed
  dsimp only at failed
  split at failed
  · cases failed
    simp
  rename_i s b onward atHead
  split at failed
  · cases failed
    simp
  split at failed
  · rename_i none
    exact absurd none (target s b onward atHead)
  · cases failed
    simp
  split at failed
  · cases failed
    simp
  split at failed
  · cases failed
  split at failed
  · rename_i onwardFailed
    cases failed
    exact ordinary _ _ onwardFailed
  split at failed
  · cases failed
  · cases failed
    simp

theorem Branch.read_of_readAll {a : Arrow} {used : List String} {texts : List (List Char)}
    (failed : Branch.readAll chain a used texts = .error e) :
    ∃ cs ∈ texts, ∃ used', Branch.read chain a used' cs = .error e := by
  induction texts generalizing used with
  | nil => cases failed
  | cons cs texts ih =>
    rw [Branch.readAll] at failed
    rcases bind_eq_error.mp failed with atHead | ⟨b, _, failed⟩
    · exact ⟨cs, List.mem_cons_self, used, atHead⟩
    rcases bind_eq_error.mp failed with atTail | ⟨later, _, done⟩
    · obtain ⟨cs', member, found⟩ := ih atTail
      exact ⟨cs', List.mem_cons_of_mem _ member, found⟩
    · cases done

/-- A state with an arrow in front and something behind it is refused for an ordinary error. -/
theorem Hop.Fails.ordinary {parts : List Part} (fails : Hop.Fails chain parts e) (regular : Part.Regular parts)
    (ordinary : ∀ text e, chain text = .error e → e.IsOrdinary) : e.IsOrdinary := by
  cases fails with
  | noArrow => cases regular.first _ rfl
  | noStage => cases regular.last _ rfl
  | branches group failed =>
    obtain ⟨inside, _, rfl, _⟩ := Stage.ofChars_eq_fanOut.mp group
    obtain ⟨cs, member, used, failed⟩ := Branch.read_of_readAll failed
    exact Branch.ordinary_of_read ordinary (fun _ _ _ => split_of_branchesOf member) failed
  | steps _ failed =>
    obtain ⟨cs, _, failed⟩ := mapM_eq_error failed
    exact Step.ordinary_of_read failed
  | step _ failed => exact Step.ordinary_of_read failed
  | closing closes failed => exact Part.ordinary_of_closing (closes.regular regular).opens failed

theorem Chain.ordinary_of_refusal? {parts : List Part} (refused : Chain.refusal? parts = some e) :
    e.IsOrdinary := by
  rw [Chain.refusal?] at refused
  split at refused
  · cases refused
    simp
  · split at refused
    · cases refused
      simp
    · cases refused

theorem Chain.ordinary_of_readWith (ordinary : ∀ text e, chain text = .error e → e.IsOrdinary) {cs : List Char}
    (failed : Chain.readWith chain cs = .error e) : e.IsOrdinary := by
  rw [Chain.readWith] at failed
  split at failed
  · rename_i refused
    cases failed
    exact Chain.ordinary_of_refusal? refused
  rename_i accepted
  split at failed
  · rename_i entity rest parts
    rcases bind_eq_error.mp failed with failed | ⟨hops, _, done⟩
    · have alternates := Part.alternates_split cs
      rw [parts] at alternates accepted
      obtain ⟨state, visits, fails⟩ := Hop.readAll_eq_error.mp failed
      exact fails.ordinary (visits.regular (Part.regular_of_accepted alternates accepted)) ordinary
    · cases done
  · cases failed
    simp

theorem Chain.ordinary_of_readWithin (n : Nat) (cs : List Char) (e : SyntaxError)
    (failed : Chain.readWithin .tooShort n cs = .error e) : e.IsOrdinary := by
  induction n generalizing cs e with
  | zero =>
    cases failed
    simp
  | succ n ih => exact Chain.ordinary_of_readWith ih failed

theorem Pattern.ordinary_of_read {cs : List Char} (failed : Pattern.read cs = .error e) : e.IsOrdinary := by
  rw [Pattern.read] at failed
  rcases bind_eq_error.mp failed with main | ⟨_, _, failed⟩
  · exact Chain.ordinary_of_readWithin _ _ _ main
  rcases bind_eq_error.mp failed with post | ⟨_, _, done⟩
  · obtain ⟨piece, _, failed⟩ := mapM_eq_error post
    exact Chain.ordinary_of_readWithin _ _ _ failed
  · cases done

end Ordinary

section Names

/-- The arrow with a name, if there is one. -/
def Arrow.named? (name : List Char) : Option Arrow :=
  [Arrow.forward, .reverse].find? (·.chars == name)

/-- The direction with a name, if there is one. -/
def Direction.named? (name : List Char) : Option Direction :=
  [Direction.push, .pull].find? (·.text.toList == name)

/-- The capital form of a letter. The long s is an S. -/
def Step.capital (c : Char) : Char :=
  if c = 'ſ' then 'S' else c.toUpper

theorem Part.ofChars_eq_arrow {cs : List Char} {a : Arrow} : ofChars cs = .arrow a ↔ Arrow.named? cs = some a := by
  constructor
  · intro same
    have spelled : cs = a.chars := by rw [← chars_ofChars cs, same, chars]
    rw [spelled]
    cases a <;> rfl
  · intro found
    have spelled : a.chars = cs := by simpa using List.find?_some found
    rw [← spelled]
    cases a <;> rfl

theorem Step.capital_of_isLetter {letter c : Char} (member : letter ∈ ['P', 'U', 'L', 'S', 'H'])
    (same : isLetter letter c = true) : capital c = letter := by
  simp only [isLetter, Bool.or_eq_true, Bool.and_eq_true, beq_iff_eq] at same
  simp only [List.mem_cons, List.not_mem_nil, or_false] at member
  rcases same with (rfl | rfl) | ⟨rfl, rfl⟩
  · rcases member with rfl | rfl | rfl | rfl | rfl <;> decide
  · rcases member with rfl | rfl | rfl | rfl | rfl <;> decide
  · decide

theorem Step.map_capital_of_spells {word cs : List Char} (letters : word ⊆ ['P', 'U', 'L', 'S', 'H'])
    (spelled : spells word cs = true) : cs.map capital = word := by
  induction word generalizing cs with
  | nil =>
    have none := length_of_spells spelled
    rw [List.length_eq_zero_iff.mp none.symm, List.map_nil]
  | cons letter word ih =>
    cases cs with
    | nil => cases length_of_spells spelled
    | cons c cs =>
      obtain ⟨atHead, atTail⟩ := List.cons_subset.mp letters
      have both : isLetter letter c = true ∧ spells word cs = true := by
        simp only [spells, List.length_cons, List.zip_cons_cons, List.all_cons, Bool.and_eq_true, beq_iff_eq]
          at spelled ⊢
        exact ⟨spelled.2.1, by omega, spelled.2.2⟩
      rw [List.map_cons, capital_of_isLetter atHead both.1, ih atTail both.2]

theorem Step.named_of_direction? {cs rest : List Char} {d : Direction} (found : direction? cs = some (d, rest)) :
    cs = cs.take 4 ++ rest ∧ Direction.named? ((cs.take 4).map capital) = some d := by
  refine ⟨(direction?_spec found).1, ?_⟩
  unfold direction? at found
  dsimp only at found
  split at found
  · rename_i spelled
    cases found
    rw [map_capital_of_spells (by decide) spelled]
    rfl
  · split at found
    · rename_i spelled
      cases found
      rw [map_capital_of_spells (by decide) spelled]
      rfl
    · cases found

/-- Blanks and a word in front of a text, and the word in capitals is the name of a direction. -/
def Step.Heads (cs : List Char) (d : Direction) (rest : List Char) : Prop :=
  ∃ blanks word, cs = blanks ++ (word ++ rest) ∧ blanks ≠ [] ∧ isBlankText blanks = true ∧
    Direction.named? (word.map capital) = some d

theorem Step.heads_of_blanksAndDirection? {cs rest : List Char} {d : Direction}
    (found : blanksAndDirection? cs = some (d, rest)) : Heads cs d rest := by
  unfold blanksAndDirection? at found
  split at found
  · rename_i c cs
    split at found
    · rename_i blank
      obtain ⟨whole, named⟩ := named_of_direction? found
      refine ⟨c :: cs.takeWhile Text.isBlank, (cs.dropWhile Text.isBlank).take 4, ?_,
        List.cons_ne_nil _ _, ?_, named⟩
      · rw [← whole, List.cons_append, List.takeWhile_append_dropWhile]
      · rw [isBlankText, List.all_cons, blank, Bool.true_and]
        exact Text.isBlankText_takeWhile cs
    · cases found
  · cases found

/-- The direction of a step that stands alone is named by the word at its end. -/
theorem Step.heads_of_read? {cs : List Char} {s : Step} (found : read? cs = some s) :
    ∃ before behind after, cs = before ++ behind ∧ s.protocol = String.ofList (trim before) ∧
      Heads behind s.direction after ∧ isEnd after = true := by
  obtain ⟨⟨before, d⟩, search, rfl⟩ := Option.map_eq_some_iff.mp found
  obtain ⟨behind, rfl, _, reads⟩ := shortestPrefix_spec search
  rw [finalDirection?] at reads
  split at reads
  · rename_i d' after atDirection
    split at reads
    · rename_i atEnd
      cases reads
      exact ⟨before, behind, after, rfl, rfl, heads_of_blanksAndDirection? atDirection, atEnd⟩
    · cases reads
  · cases reads

/-- The direction and the arrow of a branch are named by the word and the sign behind its protocol. -/
theorem Step.heads_of_readBranch? {cs onward : List Char} {s : Step} {a : Arrow}
    (found : readBranch? cs = some (s, a, onward)) :
    ∃ before behind blanks sign after, cs = before ++ behind ∧ s.protocol = String.ofList (trim before) ∧
      Heads behind s.direction (blanks ++ (sign ++ after)) ∧ isBlankText blanks = true ∧
      Arrow.named? sign = some a := by
  obtain ⟨⟨before, d, b, line⟩, search, same⟩ := Option.map_eq_some_iff.mp found
  cases same
  obtain ⟨behind, rfl, _, reads⟩ := shortestPrefix_spec search
  obtain ⟨⟨d', rest⟩, atDirection, reads⟩ := Option.bind_eq_some_iff.mp reads
  obtain ⟨⟨a', after⟩, atArrow, reads⟩ := Option.bind_eq_some_iff.mp reads
  obtain ⟨line', _, same⟩ := Option.bind_eq_some_iff.mp reads
  cases same
  refine ⟨before, behind, rest.takeWhile Text.isBlank, a.chars, after, rfl, rfl, ?_,
    Text.isBlankText_takeWhile rest, ?_⟩
  · rw [← arrow?_spec atArrow, List.takeWhile_append_dropWhile]
    exact heads_of_blanksAndDirection? atDirection
  · cases a <;> rfl

end Names

/-- Every error of a document is the report of an ordinary error. -/
theorem ParseResult.Answers.ordinary {start : Nat} {lines : List (List Char)} {r : ParseResult}
    (answers : Answers start lines r) :
    ∀ report ∈ r.errors, ∃ e : SyntaxError, e.IsOrdinary ∧ report = .ofSyntaxError report.lineNumber e := by
  induction answers with
  | nil => exact List.forall_mem_nil _
  | flow _ _ ih => exact ih
  | error failed _ ih =>
    exact List.forall_mem_cons.mpr ⟨⟨_, Pattern.ordinary_of_read (map_eq_error.mp failed), rfl⟩, ih⟩

/-- What a line can be refused for, and that nothing but its depth keeps it from an answer. Wherever a
chain is begun, in whatever branch it is nested, every round of its loop finds an arrow and something
behind it, and so does the search for the end of a hop, unless nothing is left. Every branch of a group
that has a head has a target. What is taken for an arrow or a direction is the name of one. -/
theorem errors_of_tokenize (room : Nat) :
    (∀ line e, tokenize line = .error e → e.IsOrdinary) ∧
    (∀ chain cs entity rest parts, Part.split cs = .text entity :: rest → Chain.refusal? (Part.split cs) = none →
      Hop.Visits chain rest parts →
      Part.Opens parts ∧ ∀ a wording behind, Hop.Closes parts a wording behind → Part.Opens behind) ∧
    (∀ inside, ∀ cs ∈ branchesOf inside, ∀ s a onward, Step.readBranch? cs = some (s, a, onward) →
      Part.split onward ≠ []) ∧
    (∀ cs a, Part.ofChars cs = .arrow a ↔ Arrow.named? cs = some a) ∧
    (∀ cs s, Step.read? cs = some s → ∃ before behind after, cs = before ++ behind ∧
      s.protocol = String.ofList (trim before) ∧ Step.Heads behind s.direction after ∧ Step.isEnd after = true) ∧
    (∀ cs s a onward, Step.readBranch? cs = some (s, a, onward) → ∃ before behind blanks sign after,
      cs = before ++ behind ∧ s.protocol = String.ofList (trim before) ∧
      Step.Heads behind s.direction (blanks ++ (sign ++ after)) ∧ isBlankText blanks = true ∧
      Arrow.named? sign = some a) ∧
    (∀ text, ∀ report ∈ (parseDocument text).errors, ∃ e : SyntaxError, e.IsOrdinary ∧
      report = .ofSyntaxError report.lineNumber e) ∧
    (∀ line, (∀ e, tokenizeIn room line = .error (.refused e) → e.IsOrdinary) ∧
      (tokenizeIn room line = .error .tooDeep ↔ Pattern.TooDeep room line.toList)) ∧
    ∀ text,
      (parseDocumentIn room text = none ↔ ∃ line ∈ documentLines text.toList, Pattern.TooDeep room line) ∧
      ∀ r, parseDocumentIn room text = some r → ∀ report ∈ r.errors, ∃ e : SyntaxError, e.IsOrdinary ∧
        report = .ofSyntaxError report.lineNumber e := by
  have ordinary (text : String) := (ParseResult.answers_parseLines 1 (documentLines text.toList)).ordinary
  refine ⟨fun line e failed => Pattern.ordinary_of_read (map_eq_error.mp failed), ?_,
    fun inside cs member s a onward => split_of_branchesOf member, fun cs a => Part.ofChars_eq_arrow,
    fun cs s => Step.heads_of_read?, fun cs s a onward => Step.heads_of_readBranch?, ordinary,
    fun line => ?_, fun text => ?_⟩
  · intro chain cs entity rest parts split accepted visits
    have alternates := Part.alternates_split cs
    rw [split] at alternates accepted
    have regular := visits.regular (Part.regular_of_accepted alternates accepted)
    exact ⟨regular.opens, fun a wording behind closes => (closes.regular regular).opens⟩
  · have limited := limited_tokenizeIn room line
    exact ⟨fun e refused => Pattern.ordinary_of_read (map_eq_error.mp (limited.eq_error_of_refused refused)),
      limited.eq_tooDeep_iff⟩
  · rcases parseDocumentIn_cases room text with ⟨deep, stops⟩ | ⟨fit, run⟩
    · rw [stops]
      exact ⟨iff_of_true rfl deep, nofun⟩
    · rw [run]
      refine ⟨iff_of_false nofun fun ⟨line, member, deep⟩ => fit line member deep, ?_⟩
      rintro _ ⟨rfl⟩
      exact ordinary text

/-- An arrow stands where a target should, and a direction is spelled with a long s. -/
theorem errors_of_tokenize_long_s :
    tokenize "A -> FTP PUSH -> -> B" = .error .missingEntity ∧ SyntaxError.missingEntity.IsOrdinary ∧
      Step.read? "FTP puſh".toList = some { protocol := "FTP", direction := .push } ∧
      ∃ before behind after, "FTP puſh".toList = before ++ behind ∧ "FTP" = String.ofList (trim before) ∧
        Step.Heads behind .push after ∧ Step.isEnd after = true := by
  obtain ⟨ordinary, -, -, -, heads, -⟩ := errors_of_tokenize 490
  have failed : tokenize "A -> FTP PUSH -> -> B" = .error .missingEntity := rfl
  have found : Step.read? "FTP puſh".toList = some { protocol := "FTP", direction := .push } := rfl
  exact ⟨failed, ordinary _ _ failed, found, heads _ _ found⟩

/-- A line that is too deep is refused for nothing, and its document has no result. -/
theorem tokenizeIn_deepLine :
    tokenizeIn 490 deepLine = .error .tooDeep ∧ (∀ e, tokenizeIn 490 deepLine ≠ .error (.refused e)) ∧
      parseDocumentIn 490 deepLine = none := by
  have deep : tokenizeIn 490 deepLine = .error .tooDeep :=
    (limited_tokenizeIn 490 deepLine).eq_tooDeep tooDeep_deepLine
  refine ⟨deep, fun e refused => ?_, parseDocumentIn_deepLine⟩
  cases deep.symm.trans refused

end TransferFlow
