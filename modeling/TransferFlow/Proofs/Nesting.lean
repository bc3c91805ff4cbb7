import Mathlib.Data.List.Chain
import Mathlib.Logic.Function.Iterate
import TransferFlow.Proofs.Continuations
import TransferFlow.Proofs.GroupPlaces

namespace TransferFlow

open Function (update)

section Refusing

variable {chain chain' : List Char → Except SyntaxError Chain} {e : SyntaxError} {onward : List Char}

/-- The reader `chain'` answers as `chain` does, but for texts that it refuses for `e`. -/
def Stricter (chain chain' : List Char → Except SyntaxError Chain) (e : SyntaxError) : Prop :=
  ∀ text, chain' text = chain text ∨ chain' text = .error e

theorem stricter_update (chain : List Char → Except SyntaxError Chain) (onward : List Char) (e : SyntaxError) :
    Stricter chain (update chain onward (.error e)) e := by
  intro text
  by_cases same : text = onward
  · exact .inr (by rw [same, Function.update_self])
  · exact .inl (Function.update_of_ne same _ chain)

/-- Where a stricter reader refuses nothing that is asked for, both answer alike. -/
theorem Stricter.agree (stricter : Stricter chain chain' e) {asked : List Char → Prop}
    (read : ¬∃ text, asked text ∧ chain' text = .error e) : ∀ text, asked text → chain text = chain' text :=
  fun text member => ((stricter text).resolve_right fun refuses => read ⟨text, member, refuses⟩).symm

namespace Branch

variable {a : Arrow} {used : List String} {cs : List Char} {texts : List (List Char)}

/-- A branch is refused for what its continuation is refused for. -/
theorem Continues.refused (continues : Continues a used cs onward) (refuses : chain' onward = .error e) :
    read chain' a used cs = .error e := by
  obtain ⟨found, parts, fresh⟩ := continues
  simp [read, found, parts, fresh, refuses]

/-- By induction on the branches before the one with the continuation. One of them may continue with a text that is
refused as well; otherwise they are read as before. -/
theorem Asks.refused (asks : Asks chain a onward used texts) (stricter : Stricter chain chain' e)
    (refuses : chain' onward = .error e) : readAll chain' a used texts = .error e := by
  induction asks with
  | here continues => exact bind_eq_error.mpr (.inl (continues.refused refuses))
  | @later used cs branch rest run _ ih =>
    by_cases first : ∃ text, Continues a used cs text ∧ chain' text = .error e
    · obtain ⟨text, continues, refuses⟩ := first
      exact bind_eq_error.mpr (.inl (continues.refused refuses))
    · have same : read chain a used cs = read chain' a used cs := read_congr (stricter.agree first)
      exact bind_eq_error.mpr (.inr ⟨branch, same.symm.trans run, bind_eq_error.mpr (.inl ih)⟩)

end Branch

namespace Hop

variable {parts rest : List Part}

/-- A round that asks for a refused text is refused with it, and any other round is made as before. -/
theorem Takes.refused_or (taken : Takes chain parts rest) (stricter : Stricter chain chain' e) :
    readAll chain' parts = .error e ∨ Takes chain' parts rest := by
  cases taken with
  | closed closes => exact .inr (.closed closes)
  | @fanOut a stage texts branches rest group readBranches =>
    by_cases asked : ∃ text, Branch.Asks chain a text [] texts ∧ chain' text = .error e
    · obtain ⟨text, asks, refuses⟩ := asked
      exact .inl (Fails.branches group (asks.refused stricter refuses)).run
    · have same : Branch.readAll chain a [] texts = Branch.readAll chain' a [] texts :=
        Branch.readAll_congr (stricter.agree asked)
      exact .inr (.fanOut group (same.symm.trans readBranches))

theorem Asks.refused (asks : Asks chain parts onward) (stricter : Stricter chain chain' e)
    (refuses : chain' onward = .error e) : readAll chain' parts = .error e := by
  obtain ⟨a, stage, behind, texts, visits, group, asks⟩ := asks
  induction visits using Relation.ReflTransGen.head_induction_on with
  | refl => exact (Fails.branches group (asks.refused stricter refuses)).run
  | head taken _ ih =>
    rcases taken.refused_or stricter with refused | taken
    · exact refused
    · obtain ⟨hop, run⟩ := taken.readAll_eq
      rw [run, ih]
      rfl

end Hop

namespace Chain

variable {cs : List Char}

/-- A chain is refused for what some text that it asks for is refused for. -/
theorem Asks.refused (asks : Asks chain cs onward) (stricter : Stricter chain chain' e)
    (refuses : chain' onward = .error e) : readWith chain' cs = .error e := by
  obtain ⟨parts, accepted, asks⟩ := asks
  unfold readWith
  dsimp only
  rw [parts, accepted]
  exact bind_eq_error.mpr (.inl (asks.refused stricter refuses))

/-- A chain asks for a text just when it is refused for whatever that text is refused for. -/
theorem asks_iff : Asks chain cs onward ↔ ∀ e, readWith (update chain onward (.error e)) cs = .error e := by
  constructor
  · exact fun asks e => asks.refused (stricter_update chain onward e) (Function.update_self ..)
  · intro refused
    by_contra unasked
    have same (e : SyntaxError) : readWith chain cs = .error e := by
      refine (readWith_congr fun text asks => ?_).trans (refused e)
      have other : text ≠ onward := by
        rintro rfl
        exact unasked asks
      exact (Function.update_of_ne other _ chain).symm
    have clash := (same .tooShort).symm.trans (same .endAfterArrow)
    cases clash

end Chain

end Refusing

namespace Chain

variable {cs : List Char}

theorem wellFounded_asks : WellFounded fun onward cs => Asks read cs onward := by
  refine Subrelation.wf (fun {onward cs} asks => ?_) (measure List.length).wf
  have shorter := asks.length_le
  show onward.length < cs.length
  omega

/-- Only one reader reads continuations as it reads chains. -/
theorem eq_read_iff {reader : List Char → Except SyntaxError Chain} :
    (∀ cs, reader cs = readWith reader cs) ↔ reader = read := by
  constructor
  · intro recurses
    funext cs
    induction cs using wellFounded_asks.induction with
    | _ cs ih =>
      rw [recurses, read_eq_readWith]
      exact (readWith_congr fun onward asks => (ih onward asks).symm).symm
  · rintro rfl
    exact read_eq_readWith

/-- Every text but the first is shorter than the one before it by thirteen characters. -/
theorem length_of_nested {texts : List (List Char)} (nested : (cs :: texts).IsChain (Asks read)) :
    13 * texts.length ≤ cs.length := by
  induction texts generalizing cs with
  | nil => exact Nat.zero_le _
  | cons onward texts ih =>
    obtain ⟨asks, later⟩ := List.isChain_cons_cons.mp nested
    have shorter := asks.length_le
    have within := ih later
    rw [List.length_cons]
    omega

/-- Readers inside each other never come to the one at the bottom when they are more than the text has room for. -/
theorem iterate_readWith {depth : Nat} (room : cs.length < 13 * depth)
    (bottom : List Char → Except SyntaxError Chain) : (readWith^[depth] bottom) cs = read cs := by
  induction depth generalizing cs with
  | zero => omega
  | succ depth ih =>
    rw [Function.iterate_succ_apply', read_eq_readWith]
    refine (readWith_congr fun onward asks => ?_).symm
    have shorter := asks.length_le
    exact (ih (by omega)).symm

/-- So many more chains are read inside the chain, each inside the one before. -/
def Nests (count : Nat) (cs : List Char) : Prop :=
  ∃ texts, texts.length = count ∧ (cs :: texts).IsChain (Asks read)

theorem nests_zero (cs : List Char) : Nests 0 cs :=
  ⟨[], rfl, .singleton cs⟩

theorem nests_succ {count : Nat} : Nests (count + 1) cs ↔ ∃ onward, Asks read cs onward ∧ Nests count onward := by
  constructor
  · rintro ⟨_ | ⟨onward, texts⟩, size, nested⟩
    · cases size
    · obtain ⟨asks, inner⟩ := List.isChain_cons_cons.mp nested
      exact ⟨onward, asks, texts, Nat.succ.inj size, inner⟩
  · rintro ⟨onward, asks, texts, size, inner⟩
    exact ⟨onward :: texts, congrArg _ size, List.isChain_cons_cons.mpr ⟨asks, inner⟩⟩

theorem Nests.of_le {count fewer : Nat} (nests : Nests count cs) (le : fewer ≤ count) : Nests fewer cs := by
  obtain ⟨texts, rfl, nested⟩ := nests
  have initial : cs :: texts.take fewer <+: cs :: texts :=
    (List.prefix_cons_inj cs).mpr (List.take_prefix fewer texts)
  exact ⟨texts.take fewer, List.length_take_of_le le, nested.prefix initial⟩

section Deepest

/-- A branch that continues with `cs`. -/
def branchTo (cs : List Char) : List Char :=
  ['B', ' ', 'P', 'U', 'S', 'H', '-', '>'] ++ cs

/-- A chain with `cs` nested in it, in as few characters as there can be. -/
def around (cs : List Char) : List Char :=
  ['A', '-', '>'] ++ '(' :: (branchTo cs ++ [')'])

/-- So many chains around each other with `core` inside, such as `A->(B PUSH->A->(B PUSH->core))`. -/
def nest (core : List Char) : Nat → List Char
  | 0 => core
  | depth + 1 => around (nest core depth)

theorem length_nest (core : List Char) (depth : Nat) : (nest core depth).length = 13 * depth + core.length := by
  induction depth with
  | zero => rw [nest, Nat.mul_zero, Nat.zero_add]
  | succ depth ih =>
    simp only [nest, around, branchTo, List.length_append, List.length_cons, List.length_nil, ih]
    omega

/-- A text that is read as a chain behind the head of a lone branch. -/
structure Nestable (cs : List Char) : Prop where
  balanced : Text.Balanced cs
  trimmed : Text.Trimmed cs
  line : '\n' ∉ cs
  lone : '&' ∉ cs
  unmarked : .post ∉ Token.lex cs
  further : ∃ name next more, Part.split cs = .text name :: next :: more

theorem lex_branchTo (cs : List Char) :
    Token.lex (branchTo cs) = .text ['B', ' ', 'P', 'U', 'S', 'H'] :: .arrow .forward :: Token.lex cs := rfl

theorem lex_around (cs : List Char) :
    Token.lex (around cs) = [.text ['A']] ++ .arrow .forward :: Token.lex ('(' :: (branchTo cs ++ [')'])) := rfl

theorem split_balanced_group {body : List Char} (balanced : Text.Balanced body) :
    Part.split ('(' :: (body ++ [')'])) = [.text ('(' :: (body ++ [')']))] := by
  obtain ⟨opened, closed⟩ := Token.isBalanced_iff.mp balanced
  have single : (Pieces.cut Token.isArrow ('(' :: (body ++ [')']))).rest = [] := by
    have whole := @Pieces.cutAt_group Token.isArrow _ opened closed 0 []
    rw [List.append_nil, Token.group, ← Token.lex_group] at whole
    rw [Pieces.cut, whole]
    rfl
  rw [Part.split_of_single single, (Text.trimmed_group body).trim_eq]
  rfl

namespace Nestable

variable (nestable : Nestable cs)
include nestable

theorem ne_nil : cs ≠ [] := by
  rintro rfl
  obtain ⟨_, _, _, parts⟩ := nestable.further
  cases parts

theorem balanced_branchTo : Text.Balanced (branchTo cs) :=
  Text.Balanced.append rfl nestable.balanced

theorem trimmed_branchTo : Text.Trimmed (branchTo cs) := by
  have front : Text.Trimmed ['B'] := Text.trimmed_singleton rfl
  exact Text.trimmed_around [' ', 'P', 'U', 'S', 'H', '-', '>'] (List.cons_ne_nil _ _) front nestable.ne_nil
    nestable.trimmed

theorem split_around :
    Part.split (around cs) = [.text ['A'], .arrow .forward, .text ('(' :: (branchTo cs ++ [')']))] := by
  rw [Part.split_of_arrow (lex_around cs) (by simp [Token.isArrow, Token.kind]), Token.charsOf_lex,
    split_balanced_group nestable.balanced_branchTo]
  rfl

theorem readBranch?_branchTo :
    Step.readBranch? (branchTo cs) = some ({ protocol := "B", direction := .push }, .forward, cs) := by
  have tail : Step.directionAndOnward? ([' ', 'P', 'U', 'S', 'H', '-', '>'] ++ cs) =
      some (.push, .forward, cs) := by
    change (do
      let onward ← Step.onward? cs
      return (Direction.push, Arrow.forward, onward)) = _
    rw [Step.onward?_of_line nestable.ne_nil nestable.line]
    rfl
  have search : Step.shortestPrefix Step.directionAndOnward? (branchTo cs) = some (['B'], .push, .forward, cs) := by
    change Step.shortestPrefix _ ('B' :: ([' ', 'P', 'U', 'S', 'H', '-', '>'] ++ cs)) = _
    rw [Step.shortestPrefix, if_neg (by decide), tail]
  rw [Step.readBranch?, search, Option.map_some]
  dsimp only
  rw [nestable.trimmed.trim_eq]
  rfl

theorem stage_branchTo : Stage.ofChars ('(' :: (branchTo cs ++ [')'])) = .fanOut [branchTo cs] := by
  have lone : ∀ t ∈ Token.lex (branchTo cs), t ≠ .ampersand := by
    rintro t member rfl
    have inside := Token.chars_isInfix_charsOf member
    rw [Token.charsOf_lex] at inside
    have sign : '&' ∈ branchTo cs := inside.subset (List.mem_singleton_self '&')
    simp [branchTo, nestable.lone] at sign
  have branches := branchesOf_of_lone lone
  rw [nestable.trimmed_branchTo.trim_eq] at branches
  refine Stage.ofChars_group_eq_fanOut.mpr ⟨nestable.balanced_branchTo, rfl, branches, ?_⟩
  rw [List.any_cons, Token.hasArrow, lex_branchTo]
  rfl

theorem asks_around (chain : List Char → Except SyntaxError Chain) : Asks chain (around cs) cs := by
  have accepted : refusal? [.text ['A'], .arrow .forward, .text ('(' :: (branchTo cs ++ [')']))] = none := by
    rw [refusal?, refusal?.endsInFanOut, Part.chars, nestable.stage_branchTo]
    rfl
  obtain ⟨name, next, more, parts⟩ := nestable.further
  have continues : Branch.Continues .forward [] (branchTo cs) cs :=
    .intro nestable.readBranch?_branchTo parts List.not_mem_nil
  exact .intro nestable.split_around accepted ⟨_, _, _, _, .refl, nestable.stage_branchTo, .here continues⟩

theorem around : Nestable (around cs) where
  balanced := Text.Balanced.append rfl nestable.balanced_branchTo.group
  trimmed := by
    have front : Text.Trimmed ['A'] := Text.trimmed_singleton rfl
    exact Text.trimmed_around ['-', '>'] (List.cons_ne_nil _ _) front (List.cons_ne_nil _ _) (Text.trimmed_group _)
  line := by simp [Chain.around, branchTo, nestable.line]
  lone := by simp [Chain.around, branchTo, nestable.lone]
  unmarked := by
    rw [lex_around, Token.lex_group, lex_branchTo]
    simp [nestable.unmarked]
  further := ⟨_, _, _, nestable.split_around⟩

end Nestable

theorem nestable_nest {core : List Char} (nestable : Nestable core) (depth : Nat) : Nestable (nest core depth) := by
  induction depth with
  | zero => exact nestable
  | succ depth ih => exact ih.around

theorem nests_nest {core : List Char} (nestable : Nestable core) (depth : Nat) : Nests depth (nest core depth) := by
  induction depth with
  | zero => exact nests_zero core
  | succ depth ih => exact nests_succ.mpr ⟨nest core depth, (nestable_nest nestable depth).asks_around read, ih⟩

/-- An entity and an arrow, the shortest text that is read as a chain behind the head of a branch. -/
theorem nestable_arrow : Nestable ['A', '-', '>'] where
  balanced := rfl
  trimmed :=
    Text.trimmed_around ['-'] (List.cons_ne_nil 'A' []) (Text.trimmed_singleton rfl) (List.cons_ne_nil '>' [])
    (Text.trimmed_singleton rfl)
  line := by decide
  lone := by decide
  unmarked := by decide
  further := ⟨['A'], .arrow .forward, [], rfl⟩

/-- The bound is reached at every depth. -/
theorem exists_nested (depth : Nat) : ∃ cs texts, texts.length = depth ∧ (cs :: texts).IsChain (Asks read) ∧
    (cs :: texts).length = cs.length / 13 + 1 := by
  obtain ⟨texts, count, nested⟩ := nests_nest nestable_arrow depth
  have size := length_nest ['A', '-', '>'] depth
  refine ⟨_, texts, count, nested, ?_⟩
  simp only [List.length_cons, List.length_nil] at size ⊢
  omega

end Deepest

end Chain

open Chain (Asks readWith)

/-- Chains inside chains. A chain asks for a text just when it is refused for whatever that text is
refused for. Such a text is shorter than the chain by at least thirteen characters. Therefore nesting
ends, and only one reader reads continuations as it reads chains. Of texts that are read inside each
other there are at most one and one more for every thirteen characters of the outermost. So many readers
inside each other are enough to read a chain, whatever stands at the bottom. -/
theorem nesting_of_read :
    (∀ chain cs onward, Asks chain cs onward ↔ ∀ e, readWith (update chain onward (.error e)) cs = .error e) ∧
    (∀ chain cs onward, Asks chain cs onward → onward.length + 13 ≤ cs.length) ∧
    (WellFounded fun onward cs => Asks Chain.read cs onward) ∧
    (∀ reader, (∀ cs, reader cs = readWith reader cs) ↔ reader = Chain.read) ∧
    (∀ cs texts, (cs :: texts).IsChain (Asks Chain.read) → (cs :: texts).length ≤ cs.length / 13 + 1) ∧
    ∀ bottom (text : String), tokenizeChain text =
      ((readWith^[text.length / 13 + 1] bottom) text.toList).map Chain.segments := by
  refine ⟨fun _ _ _ => Chain.asks_iff, fun _ _ _ asks => asks.length_le, Chain.wellFounded_asks,
    fun _ => Chain.eq_read_iff, fun cs texts nested => ?_, fun bottom text => ?_⟩
  · have within := Chain.length_of_nested nested
    rw [List.length_cons]
    omega
  · have room : text.toList.length < 13 * (text.length / 13 + 1) := by
      rw [String.length_toList]
      omega
    rw [Chain.iterate_readWith room]
    rfl

/-- A branch in a group continues with a group, and the branch in that one continues as well. -/
theorem nesting_of_read_group :
    Asks Chain.read "A -> (FTP PUSH -> B -> (JMS PULL -> C -> SFTP PUSH -> D))".toList
        "B -> (JMS PULL -> C -> SFTP PUSH -> D)".toList ∧
      Asks Chain.read "B -> (JMS PULL -> C -> SFTP PUSH -> D)".toList "C -> SFTP PUSH -> D".toList ∧
      "C -> SFTP PUSH -> D".toList.length + 13 ≤ "B -> (JMS PULL -> C -> SFTP PUSH -> D)".toList.length ∧
      3 ≤ "A -> (FTP PUSH -> B -> (JMS PULL -> C -> SFTP PUSH -> D))".toList.length / 13 + 1 := by
  obtain ⟨-, shorter, -, -, depth, -⟩ := nesting_of_read
  have outer : Asks Chain.read "A -> (FTP PUSH -> B -> (JMS PULL -> C -> SFTP PUSH -> D))".toList
      "B -> (JMS PULL -> C -> SFTP PUSH -> D)".toList := by
    refine .intro rfl rfl ⟨_, _, _, _, .refl, rfl, .here (.intro rfl rfl List.not_mem_nil)⟩
  have inner : Asks Chain.read "B -> (JMS PULL -> C -> SFTP PUSH -> D)".toList "C -> SFTP PUSH -> D".toList := by
    refine .intro rfl rfl ⟨_, _, _, _, .refl, rfl, .here (.intro rfl rfl List.not_mem_nil)⟩
  have nested := List.isChain_cons_cons.mpr ⟨outer, List.isChain_pair.mpr inner⟩
  exact ⟨outer, inner, shorter _ _ _ inner, depth _ _ nested⟩

end TransferFlow
