import TransferFlow.Proofs.Refusals
import TransferFlow.Proofs.WrittenSteps

namespace TransferFlow

namespace Step

open Text (isBlank isBlankText trim trimRight)

section Words

/-- A letter of a direction is the capital of itself and of its small form only. -/
theorem toUpper_eq {c letter : Char} (member : letter ∈ ['P', 'U', 'L', 'S', 'H']) (same : c.toUpper = letter) :
    c = letter ∨ c = letter.toLower := by
  unfold Char.toUpper at same
  split at same
  · rename_i small
    right
    have code : c.val.toNat = letter.val.toNat + 32 := by
      have upper := UInt32.le_iff_toNat_le.mp small.2
      have lower := UInt32.le_iff_toNat_le.mp small.1
      have shift : ('A'.val - 'a'.val).toNat = 4294967264 := by decide
      have first : 'a'.val.toNat = 97 := by decide
      have last : 'z'.val.toNat = 122 := by decide
      rw [Char.ext_iff] at same
      dsimp only at same
      rw [← same, UInt32.toNat_add, shift]
      omega
    rw [← Char.ofNat_toNat c, Char.toNat, code]
    simp only [List.mem_cons, List.not_mem_nil, or_false] at member
    rcases member with rfl | rfl | rfl | rfl | rfl <;> decide
  · exact .inl same

theorem isLetter_of_capital {letter c : Char} (member : letter ∈ ['P', 'U', 'L', 'S', 'H'])
    (same : capital c = letter) : isLetter letter c = true := by
  unfold capital at same
  split at same
  · rename_i long
    subst same long
    decide
  · rcases toUpper_eq member same with rfl | rfl <;> simp [isLetter]

/-- A word spells its capitals. -/
theorem spells_map_capital {cs : List Char} (letters : cs.map capital ⊆ ['P', 'U', 'L', 'S', 'H']) :
    spells (cs.map capital) cs = true := by
  induction cs with
  | nil => rfl
  | cons c cs ih =>
    obtain ⟨atHead, atTail⟩ := List.cons_subset.mp letters
    have later := ih atTail
    simp only [spells, Bool.and_eq_true, beq_iff_eq] at later
    simp only [spells, List.map_cons, List.length_cons, List.zip_cons_cons, List.all_cons,
      Bool.and_eq_true, beq_iff_eq]
    exact ⟨by rw [later.1], isLetter_of_capital atHead rfl, later.2⟩

theorem named?_eq_some {name : List Char} {d : Direction} :
    Direction.named? name = some d ↔ name = d.text.toList := by
  constructor
  · intro found
    have spelled : d.text.toList = name := by simpa using List.find?_some found
    exact spelled.symm
  · rintro rfl
    cases d <;> rfl

theorem spells_of_named {word : List Char} {d : Direction} (named : word.map capital = d.text.toList) :
    spells d.text.toList word = true := by
  have letters : d.text.toList ⊆ ['P', 'U', 'L', 'S', 'H'] := by cases d <;> decide
  rw [← named] at letters ⊢
  exact spells_map_capital letters

theorem solid_of_named {word : List Char} {d : Direction} (named : word.map capital = d.text.toList) :
    ∀ c ∈ word, Token.isPlain c = true ∧ isBlank c = false := fun c member =>
  isPlain_of_isDirectionLetter
    (isDirectionLetter_of_spells (by cases d <;> decide) (spells_of_named named) c member)

theorem direction?_of_named {word : List Char} {d : Direction} (named : word.map capital = d.text.toList)
    (rest : List Char) : direction? (word ++ rest) = some (d, rest) := by
  have length : word.length = 4 := by rw [← length_text d, ← named, List.length_map]
  have spelled := spells_of_named named
  unfold direction?
  dsimp only
  rw [List.take_left' length, List.drop_left' length]
  cases d with
  | pull => exact if_pos spelled
  | push =>
    have other : ¬spells ['P', 'U', 'L', 'L'] word = true := fun pull => by
      rw [map_capital_of_spells (by decide) pull] at named
      exact absurd named (by decide)
    rw [if_neg other]
    exact if_pos spelled

/-- A direction is found just where blanks and a word for it stand. -/
theorem blanksAndDirection?_eq_some {cs rest : List Char} {d : Direction} :
    blanksAndDirection? cs = some (d, rest) ↔ Heads cs d rest := by
  refine ⟨heads_of_blanksAndDirection?, ?_⟩
  rintro ⟨blanks, word, rfl, nonempty, blank, named⟩
  have named := named?_eq_some.mp named
  obtain ⟨c, blanks, rfl⟩ := List.exists_cons_of_ne_nil nonempty
  rw [isBlankText, List.all_cons, Bool.and_eq_true] at blank
  have solid : (word ++ rest).dropWhile isBlank = word ++ rest := by
    refine Text.dropWhile_of_head fun c first => (solid_of_named named c ?_).2
    cases word with
    | nil => cases d <;> cases named
    | cons c' word =>
      cases first
      exact List.mem_cons_self
  rw [List.cons_append, blanksAndDirection?, if_pos blank.1, Text.dropWhile_append_left _ blank.2, solid,
    direction?_of_named named]

/-- One more blank in front of a direction makes no difference. -/
theorem Heads.cons {c : Char} {cs rest : List Char} {d : Direction} (heads : Heads cs d rest)
    (blank : isBlank c = true) : Heads (c :: cs) d rest := by
  obtain ⟨blanks, word, rfl, -, blank', named⟩ := heads
  refine ⟨c :: blanks, word, rfl, List.cons_ne_nil c blanks, ?_, named⟩
  rw [isBlankText, List.all_cons, blank]
  exact blank'

/-- A direction ends a line just where nothing stands behind its word. -/
theorem finalDirection?_eq_some {cs : List Char} (line : '\n' ∉ cs) {d : Direction} :
    finalDirection? cs = some d ↔ Heads cs d [] := by
  rw [← blanksAndDirection?_eq_some, finalDirection?]
  constructor
  · intro found
    split at found
    · rename_i d' rest start
      split at found
      · rename_i atEnd
        cases found
        rw [isEnd, Bool.or_eq_true, beq_iff_eq, beq_iff_eq] at atEnd
        rcases atEnd with rfl | rfl
        · exact start
        · obtain ⟨head, rfl, -⟩ := blanksAndDirection?_spec start
          exact absurd (List.mem_append_right head List.mem_cons_self) line
      · cases found
    · cases found
  · intro start
    rw [start]
    rfl

end Words

section Search

variable {α : Type} {tail? : List Char → Option α}

/-- A search in a line succeeds if there is any place to end it. -/
theorem isSome_shortestPrefix {before rest : List Char} (line : '\n' ∉ before) (nonempty : before ≠ [])
    (reads : (tail? rest).isSome) : (shortestPrefix tail? (before ++ rest)).isSome := by
  induction before with
  | nil => exact absurd rfl nonempty
  | cons c before ih =>
    rw [List.mem_cons, not_or] at line
    rw [List.cons_append, shortestPrefix, if_neg (Ne.symm line.1)]
    split
    · rfl
    · rename_i notYet
      rw [Option.isSome_map]
      refine ih line.2 ?_
      rintro rfl
      rw [List.nil_append] at notYet
      rw [notYet] at reads
      cases reads

/-- The beginning of a trimmed text is trimmed, if it is not longer for a blank at its end. -/
theorem trimmed_of_shortest {before rest : List Char}
    (trimmed : Text.Trimmed (before ++ rest)) (nonempty : before ≠ [])
    (shortest : ∀ p c, before = p ++ [c] → p ≠ [] → isBlank c = false) : Text.Trimmed before where
  head := fun c first => trimmed.head c (List.mem_head?_append_of_mem_head? first)
  last := by
    intro c last
    obtain ⟨p, rfl⟩ := List.getLast?_eq_some_iff.mp last
    cases p with
    | nil => exact trimmed.head c rfl
    | cons c' p => exact shortest (c' :: p) c rfl (List.cons_ne_nil c' p)

end Search

/-- A protocol, the blanks behind it, and a word for a direction. -/
structure Spelling where
  protocol : List Char
  blanks : List Char
  word : List Char
  deriving DecidableEq

def Spelling.text (f : Spelling) : List Char :=
  f.protocol ++ (f.blanks ++ f.word)

/-- The parts of a spelling, with a word that names the direction in any case. The long s is an S. -/
structure Spelling.Names (f : Spelling) (d : Direction) : Prop where
  nonempty : f.protocol ≠ []
  apart : f.blanks ≠ []
  blank : isBlankText f.blanks = true
  named : f.word.map capital = d.text.toList

/-- The text is the spelling of a step whose protocol does not end in a blank. -/
structure Spelling.Spells (f : Spelling) (d : Direction) (cs : List Char) : Prop extends f.Names d where
  whole : cs = f.text
  solid : ∀ c ∈ f.protocol.getLast?, isBlank c = false

section Spellings

variable {f f' : Spelling} {d d' : Direction} {cs : List Char}

theorem Spelling.Names.heads (names : f.Names d) (rest : List Char) : Heads (f.blanks ++ (f.word ++ rest)) d rest :=
  ⟨f.blanks, f.word, rfl, names.apart, names.blank, named?_eq_some.mpr names.named⟩

theorem Spelling.Names.length_word (names : f.Names d) : f.word.length = 4 := by
  rw [← length_text d, ← names.named, List.length_map]

/-- The word starts where the last four characters do, and the protocol ends where the blanks before them begin. -/
theorem Spelling.Spells.unique (spells : f.Spells d cs) (spells' : f'.Spells d' cs) : f = f' ∧ d = d' := by
  have protocol (g : Spelling) (solid : ∀ c ∈ g.protocol.getLast?, isBlank c = false)
      (blank : isBlankText g.blanks = true) : trimRight (g.protocol ++ g.blanks) = g.protocol := by
    rw [Text.trimRight_append_right _ blank, Text.trimRight_of_last solid]
  have texts : f.protocol ++ f.blanks ++ f.word = f'.protocol ++ f'.blanks ++ f'.word := by
    simpa [Spelling.text] using spells.whole.symm.trans spells'.whole
  obtain ⟨front, words⟩ := List.append_inj' texts (by rw [spells.length_word, spells'.length_word])
  have protocols : f.protocol = f'.protocol := by
    rw [← protocol f spells.solid spells.blank, front, protocol f' spells'.solid spells'.blank]
  have directions : d.text.toList = d'.text.toList := by rw [← spells.named, ← spells'.named, words]
  rw [protocols, List.append_cancel_left_eq] at front
  refine ⟨?_, ?_⟩
  · cases f
    cases f'
    rw [Spelling.mk.injEq]
    exact ⟨protocols, front, words⟩
  · revert directions
    cases d <;> cases d' <;> decide

/-- A step that stands alone is read just when it has a spelling, which gives its protocol. -/
theorem read?_eq_some (trimmed : Text.Trimmed cs) (line : '\n' ∉ cs) {s : Step} :
    read? cs = some s ↔ ∃ f : Spelling, f.Spells s.direction cs ∧ s.protocol = String.ofList f.protocol := by
  constructor
  · intro found
    obtain ⟨⟨before, d⟩, search, rfl⟩ := Option.map_eq_some_iff.mp found
    obtain ⟨rest, rfl, nonempty, -, reads, shortest⟩ := shortestPrefix_eq_some.mp search
    rw [List.mem_append, not_or] at line
    have heads := (finalDirection?_eq_some line.2).mp reads
    have solid : Text.Trimmed before := by
      refine trimmed_of_shortest trimmed nonempty fun p c split further => ?_
      have noBreak : '\n' ∉ c :: rest := by
        rw [List.mem_cons, not_or]
        exact ⟨fun same => line.1 (split ▸ List.mem_append_right p (List.mem_singleton.mpr same)), line.2⟩
      have none := shortest p [c] split further (List.cons_ne_nil _ _)
      cases blank : isBlank c with
      | false => rfl
      | true =>
        rw [List.singleton_append, (finalDirection?_eq_some noBreak).mpr (heads.cons blank)] at none
        cases none
    obtain ⟨blanks, word, rfl, apart, blank, named⟩ := heads
    refine ⟨⟨before, blanks, word⟩, ⟨⟨nonempty, apart, blank, named?_eq_some.mp named⟩, ?_, solid.last⟩, ?_⟩
    · rw [Spelling.text, List.append_nil]
    · dsimp only
      rw [solid.trim_eq]
  · rintro ⟨f, spells, named⟩
    have whole : cs = f.protocol ++ (f.blanks ++ f.word) := spells.whole
    have tailInLine : '\n' ∉ f.blanks ++ f.word := fun inside => line (whole ▸ List.mem_append_right _ inside)
    have protocolInLine : '\n' ∉ f.protocol := fun inside => line (whole ▸ List.mem_append_left _ inside)
    rw [whole] at trimmed
    have solid : Text.Trimmed f.protocol :=
      ⟨fun c first => trimmed.head c (List.mem_head?_append_of_mem_head? first), spells.solid⟩
    have reads : finalDirection? (f.blanks ++ f.word) = some s.direction := by
      have heads := spells.heads []
      rw [List.append_nil] at heads
      exact (finalDirection?_eq_some tailInLine).mpr heads
    have search : shortestPrefix finalDirection? cs = some (f.protocol, s.direction) := by
      refine shortestPrefix_eq_some.mpr ⟨_, whole, spells.nonempty, protocolInLine, reads, ?_⟩
      intro p q split _ nonempty
      rw [split] at solid
      refine finalDirection?_append_of_solid (solid.solid nonempty) ?_ ?_
      · obtain ⟨c, blanks, shape⟩ := List.exists_cons_of_ne_nil spells.apart
        have blank := spells.blank
        rw [shape, isBlankText, List.all_cons, Bool.and_eq_true] at blank
        rw [shape]
        intro c' first
        cases first
        exact isDirectionLetter_of_isBlank blank.1
      · rw [List.length_append, spells.length_word]
        omega
    rw [read?, search, Option.map_some]
    dsimp only
    rw [solid.trim_eq, ← named]

end Spellings

/-- A place where a branch can be cut: the step in front of an arrow, the blanks between them, and the
text behind. -/
structure Cut where
  step : Spelling
  gap : List Char
  arrow : Arrow
  behind : List Char
  deriving DecidableEq

def Cut.ahead (k : Cut) : List Char :=
  k.step.text ++ k.gap

/-- The branch can be cut there, and the step has the direction. -/
structure Cut.Fits (k : Cut) (d : Direction) (cs : List Char) : Prop where
  whole : cs = k.ahead ++ (k.arrow.chars ++ k.behind)
  names : k.step.Names d
  gap : isBlankText k.gap = true
  further : k.behind ≠ []

/-- No other cut fits behind a shorter protocol. -/
def Cut.IsFirst (k : Cut) (cs : List Char) : Prop :=
  ∀ k' d, Cut.Fits k' d cs → k.step.protocol.length ≤ k'.step.protocol.length

section Cuts

variable {k : Cut} {d : Direction} {cs : List Char}

theorem Cut.Fits.reads (fits : k.Fits d cs) (line : '\n' ∉ cs) :
    directionAndOnward? (k.step.blanks ++ (k.step.word ++ (k.gap ++ (k.arrow.chars ++ k.behind)))) =
      some (d, k.arrow, k.behind) := by
  have inLine : '\n' ∉ k.behind := fun inside => line (by rw [fits.whole]; simp [inside])
  have sign : (k.gap ++ (k.arrow.chars ++ k.behind)).dropWhile isBlank = k.arrow.chars ++ k.behind := by
    rw [Text.dropWhile_append_left _ fits.gap]
    cases k.arrow <;> rfl
  rw [directionAndOnward?_eq, blanksAndDirection?_eq_some.mpr (fits.names.heads _), Option.bind_some]
  dsimp only
  rw [sign, arrow?_chars, Option.bind_some]
  dsimp only
  rw [onward?_of_line fits.further inLine, Option.bind_some]

/-- What is read behind a beginning is a cut there. -/
theorem Cut.fits_of_reads {before rest onward : List Char} {a : Arrow} (nonempty : before ≠ []) (line : '\n' ∉ rest)
    (found : directionAndOnward? rest = some (d, a, onward)) :
    ∃ k : Cut, k.Fits d (before ++ rest) ∧ k.step.protocol = before ∧ k.arrow = a ∧ k.behind = onward := by
  rw [directionAndOnward?_eq] at found
  obtain ⟨⟨d', rest'⟩, start, found⟩ := Option.bind_eq_some_iff.mp found
  obtain ⟨⟨a', behind⟩, atArrow, found⟩ := Option.bind_eq_some_iff.mp found
  obtain ⟨onward', atOnward, same⟩ := Option.bind_eq_some_iff.mp found
  cases same
  obtain ⟨blanks, word, rfl, apart, blank, named⟩ := blanksAndDirection?_eq_some.mp start
  have sign : rest' = rest'.takeWhile isBlank ++ (a.chars ++ behind) := by
    rw [← arrow?_spec atArrow, List.takeWhile_append_dropWhile]
  have further : behind ≠ [] := by
    rintro rfl
    cases atOnward
  have inLine : '\n' ∉ behind := fun inside => line (by rw [sign]; simp [inside])
  rw [onward?_of_line further inLine] at atOnward
  obtain rfl : behind = onward := Option.some.inj atOnward
  refine ⟨⟨⟨before, blanks, word⟩, rest'.takeWhile isBlank, a, _⟩,
    ⟨?_, ?_, Text.isBlankText_takeWhile rest', further⟩, rfl, rfl, rfl⟩
  · simpa [ahead, Spelling.text] using sign
  · exact ⟨nonempty, apart, blank, named?_eq_some.mp named⟩

theorem Cut.Fits.whole_eq (fits : k.Fits d cs) :
    cs = k.step.protocol ++ (k.step.blanks ++ (k.step.word ++ (k.gap ++ (k.arrow.chars ++ k.behind)))) := by
  rw [fits.whole, ahead, Spelling.text]
  simp only [List.append_assoc]

/-- A branch that is read is cut at the first place where it can be. -/
theorem first_of_readBranch? (line : '\n' ∉ cs) {s : Step} {a : Arrow} {onward : List Char}
    (found : readBranch? cs = some (s, a, onward)) :
    ∃ k : Cut, k.Fits s.direction cs ∧ k.IsFirst cs ∧ k.arrow = a ∧
      s.protocol = String.ofList (trim k.step.protocol) ∧ onward = trim k.behind := by
  obtain ⟨⟨before, d, b, behind⟩, search, same⟩ := Option.map_eq_some_iff.mp found
  cases same
  obtain ⟨rest, rfl, nonempty, -, reads, shortest⟩ := shortestPrefix_eq_some.mp search
  have inLine : '\n' ∉ rest := fun inside => line (List.mem_append_right before inside)
  obtain ⟨k, fits, rfl, rfl, rfl⟩ := Cut.fits_of_reads nonempty inLine reads
  refine ⟨k, fits, ?_, rfl, rfl, rfl⟩
  intro k' d' fits'
  by_contra shorter
  rw [Nat.not_le] at shorter
  have wholes := fits'.whole_eq
  rcases List.append_eq_append_iff.mp wholes with ⟨q, beyond, -⟩ | ⟨q, within, behind⟩
  · have length := congrArg List.length beyond
    rw [List.length_append] at length
    omega
  · have none := shortest k'.step.protocol q within fits'.names.nonempty ?_
    · rw [← behind, fits'.reads line] at none
      cases none
    · rintro rfl
      rw [List.append_nil] at within
      rw [within] at shorter
      exact absurd shorter (Nat.lt_irrefl _)

theorem isSome_readBranch? (line : '\n' ∉ cs) (fits : k.Fits d cs) : (readBranch? cs).isSome := by
  have whole := fits.whole_eq
  have inLine : '\n' ∉ k.step.protocol := fun inside => line (whole ▸ List.mem_append_left _ inside)
  rw [readBranch?, Option.isSome_map, whole]
  refine isSome_shortestPrefix inLine fits.names.nonempty ?_
  rw [fits.reads line]
  rfl

/-- A blank at the end of the protocol could as well be one of the blanks behind it. -/
theorem Cut.IsFirst.trimmed (first : k.IsFirst cs) (fits : k.Fits d cs) (trimmed : Text.Trimmed cs) :
    Text.Trimmed k.step.protocol := by
  rw [fits.whole_eq] at trimmed
  refine trimmed_of_shortest trimmed fits.names.nonempty fun p c split further => ?_
  cases blank : isBlank c with
  | false => rfl
  | true =>
    have names : Spelling.Names ⟨p, c :: k.step.blanks, k.step.word⟩ d := by
      refine ⟨further, List.cons_ne_nil _ _, ?_, fits.names.named⟩
      rw [isBlankText, List.all_cons, blank]
      exact fits.names.blank
    have whole : cs = Cut.ahead ⟨⟨p, c :: k.step.blanks, k.step.word⟩, k.gap, k.arrow, k.behind⟩ ++
        (k.arrow.chars ++ k.behind) := by
      rw [fits.whole_eq, split]
      simp [ahead, Spelling.text]
    have shorter := first _ d ⟨whole, names, fits.gap, fits.further⟩
    rw [split, List.length_append, List.length_singleton] at shorter
    exact absurd shorter (Nat.not_succ_le_self p.length)

/-- Up to the arrow of the first cut stands a step that can stand alone. -/
theorem Cut.IsFirst.read?_ahead (first : k.IsFirst cs) (fits : k.Fits d cs) (trimmed : Text.Trimmed cs)
    (line : '\n' ∉ cs) :
    read? (trim k.ahead) = some { protocol := String.ofList (trim k.step.protocol), direction := d } := by
  have protocol := first.trimmed fits trimmed
  have spelled : k.step.Spells d k.step.text := { toNames := fits.names, whole := rfl, solid := protocol.last }
  have further : k.step.word ≠ [] := List.ne_nil_of_length_pos (by rw [fits.names.length_word]; decide)
  have word : Text.Trimmed k.step.word :=
    ⟨fun c atHead => (solid_of_named fits.names.named c (List.mem_of_mem_head? atHead)).2,
      fun c last => (solid_of_named fits.names.named c (List.mem_of_getLast? last)).2⟩
  have text : Text.Trimmed k.step.text :=
    Text.trimmed_around k.step.blanks fits.names.nonempty protocol further word
  have inLine : '\n' ∉ k.step.text := fun inside => line (by rw [fits.whole, ahead]; simp [inside])
  rw [ahead, Text.trim_append_right _ fits.gap, text.trim_eq, protocol.trim_eq]
  exact (read?_eq_some text inLine).mpr ⟨k.step, spelled, rfl⟩

/-- The text up to the arrow of a cut ends in a plain character, so no token reaches into the arrow. -/
theorem Cut.Fits.lex_eq (fits : k.Fits d cs) :
    Token.lex cs = Token.lex k.ahead ++ .arrow k.arrow :: Token.lex k.behind := by
  have plain : ∀ c ∈ k.step.blanks ++ (k.step.word ++ k.gap), Token.isPlain c = true := by
    have ofBlank {blanks : List Char} (blank : isBlankText blanks = true) : ∀ c ∈ blanks, Token.isPlain c = true :=
      fun c member => Text.isPlain_of_isBlank (List.all_eq_true.mp blank c member)
    refine List.forall_mem_append.mpr ⟨ofBlank fits.names.blank, List.forall_mem_append.mpr ⟨?_, ofBlank fits.gap⟩⟩
    exact fun c member => (solid_of_named fits.names.named c member).1
  have nonempty : k.step.blanks ++ (k.step.word ++ k.gap) ≠ [] :=
    List.append_ne_nil_of_left_ne_nil fits.names.apart _
  obtain ⟨xs, c, split⟩ := (List.eq_nil_or_concat' _).resolve_left nonempty
  have ahead : k.ahead = k.step.protocol ++ xs ++ [c] := by
    rw [Cut.ahead, Spelling.text, List.append_assoc, List.append_assoc, split, List.append_assoc]
  have sign : (Token.arrow k.arrow).kind ≠ .text := by simp [Token.kind]
  have atArrow :=
    Token.lex_append_sign (plain c (split ▸ List.mem_append_right xs (List.mem_singleton.mpr rfl))) sign
    (k.step.protocol ++ xs) k.behind
  rw [fits.whole, ahead, List.append_assoc, List.singleton_append]
  exact atArrow

theorem Cut.Fits.solid (fits : k.Fits d cs) (trimmed : Text.Trimmed cs) : isBlankText k.behind = false := by
  rw [fits.whole, ← List.append_assoc] at trimmed
  exact trimmed.solid fits.further

/-- A trimmed line is a step just when it has a spelling, and it never has two. As a branch it is read
just when it can be cut somewhere, and then it is cut behind the shortest protocol; the step in front is
the one that the text up to the arrow reads as, the arrow is one of its tokens, and more than blanks
stands behind. -/
theorem forms_of_trimmed (trimmed : Text.Trimmed cs) (line : '\n' ∉ cs) :
    (∀ wording s, Step.read wording cs = .ok s ↔
      ∃ f : Spelling, f.Spells s.direction cs ∧ s.protocol = String.ofList f.protocol) ∧
    (∀ f f' : Spelling, ∀ d d', f.Spells d cs → f'.Spells d' cs → f = f' ∧ d = d') ∧
    ((readBranch? cs).isSome ↔ ∃ (k : Cut) (d : Direction), k.Fits d cs) ∧
    ∀ s a onward, readBranch? cs = some (s, a, onward) →
      ∃ k : Cut, k.Fits s.direction cs ∧ k.IsFirst cs ∧ k.arrow = a ∧
        s.protocol = String.ofList (trim k.step.protocol) ∧ onward = trim k.behind ∧
        (∀ wording, Step.read wording (trim k.ahead) = .ok s) ∧
        (∃ before after, Token.lex cs = before ++ .arrow a :: after ∧ Token.charsOf before = k.ahead) ∧
        isBlankText k.behind = false := by
  refine ⟨fun wording s => Step.read_eq_ok.trans (read?_eq_some trimmed line),
    fun f f' d d' => Spelling.Spells.unique,
    ⟨fun found => ?_, fun ⟨k, d, fits⟩ => isSome_readBranch? line fits⟩, ?_⟩
  · obtain ⟨⟨s, a, onward⟩, found⟩ := Option.isSome_iff_exists.mp found
    obtain ⟨k, fits, -⟩ := first_of_readBranch? line found
    exact ⟨k, _, fits⟩
  · intro s a onward found
    obtain ⟨k, fits, first, rfl, protocol, behind⟩ := first_of_readBranch? line found
    refine ⟨k, fits, first, rfl, protocol, behind, fun wording => ?_, ?_, fits.solid trimmed⟩
    · rw [Step.read_eq_ok, first.read?_ahead fits trimmed line, ← protocol]
    · exact ⟨_, _, fits.lex_eq, Token.charsOf_lex _⟩

/-- A branch whose protocol holds the word for a direction, and whose own direction is spelled with a long s. -/
theorem forms_of_trimmed_twice :
    Text.Trimmed "JMS PUSH x puſh\u00a0<-> B".toList ∧ '\n' ∉ "JMS PUSH x puſh\u00a0<-> B".toList ∧
      readBranch? "JMS PUSH x puſh\u00a0<-> B".toList =
        some ({ protocol := "JMS PUSH x", direction := .push }, .reverse, "> B".toList) ∧
      ∃ k : Cut, k.Fits .push "JMS PUSH x puſh\u00a0<-> B".toList ∧ k.IsFirst "JMS PUSH x puſh\u00a0<-> B".toList ∧
        Step.read .grouped (trim k.ahead) = .ok { protocol := "JMS PUSH x", direction := .push } := by
  have trimmed : Text.Trimmed "JMS PUSH x puſh\u00a0<-> B".toList := by
    constructor <;> intro c atEnd <;> cases atEnd <;> rfl
  have line : '\n' ∉ "JMS PUSH x puſh\u00a0<-> B".toList := by decide
  have found : readBranch? "JMS PUSH x puſh\u00a0<-> B".toList =
      some ({ protocol := "JMS PUSH x", direction := .push }, .reverse, "> B".toList) := rfl
  obtain ⟨-, -, -, cut⟩ := forms_of_trimmed trimmed line
  obtain ⟨k, fits, first, -, -, -, reads, -⟩ := cut _ _ _ found
  exact ⟨trimmed, line, found, k, fits, first, reads .grouped⟩

end Cuts

end Step

end TransferFlow
