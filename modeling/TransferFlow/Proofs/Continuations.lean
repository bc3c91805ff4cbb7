import TransferFlow.Proofs.HopLoop
import TransferFlow.Proofs.Parts
import TransferFlow.Proofs.StepSearch

namespace TransferFlow

theorem Arrow.length_chars (a : Arrow) : a.chars.length = 2 := by
  cases a <;> rfl

namespace Step

variable {cs rest onward : List Char} {d : Direction} {a : Arrow}

theorem length_blanksAndDirection? (found : blanksAndDirection? cs = some (d, rest)) :
    rest.length + 5 ≤ cs.length := by
  unfold blanksAndDirection? at found
  split at found
  · rename_i c cs
    split at found
    · obtain ⟨whole, four, _⟩ := direction?_spec found
      have shorter := List.length_dropWhile_le Text.isBlank cs
      rw [whole, List.length_append, four] at shorter
      rw [List.length_cons]
      omega
    · cases found
  · cases found

theorem length_directionAndOnward? (found : directionAndOnward? cs = some (d, a, onward)) :
    onward.length + 7 ≤ cs.length := by
  obtain ⟨⟨d', rest⟩, atDirection, found⟩ := Option.bind_eq_some_iff.mp found
  obtain ⟨⟨a', behind⟩, atArrow, found⟩ := Option.bind_eq_some_iff.mp found
  obtain ⟨onward', atOnward, same⟩ := Option.bind_eq_some_iff.mp found
  cases same
  obtain ⟨before, after, rfl, _⟩ := onward?_spec atOnward
  have direction := length_blanksAndDirection? atDirection
  have shorter := List.length_dropWhile_le Text.isBlank rest
  rw [arrow?_spec atArrow, List.length_append, Arrow.length_chars, List.length_append,
    List.length_append] at shorter
  omega

/-- The head of a branch has a protocol, a blank, a direction and an arrow. -/
theorem length_readBranch? {s : Step} (found : readBranch? cs = some (s, a, onward)) :
    onward.length + 8 ≤ cs.length := by
  obtain ⟨⟨before, d, b, line⟩, search, same⟩ := Option.map_eq_some_iff.mp found
  cases same
  obtain ⟨rest, rfl, nonempty, reads⟩ := shortestPrefix_spec search
  have protocol := List.length_pos_iff.mpr nonempty
  have shorter := length_directionAndOnward? reads
  have trimmed := (Text.trim_isInfix line).length_le
  rw [List.length_append]
  omega

end Step

/-- The branches of a group stand between its parentheses. -/
theorem length_branchesOf {cs inside : List Char} (group : groupInside? cs = some inside) :
    ∀ branch ∈ branchesOf inside, branch.length + 2 ≤ cs.length := by
  intro branch member
  obtain ⟨body, rfl, _, _, rfl⟩ := groupInside?_eq_some.mp group
  obtain ⟨part, within, rfl⟩ := List.mem_map.mp member
  have inPart := (Text.trim_isInfix part).length_le
  have inGroup := (Pieces.isInfix_of_mem_parts within).length_le
  have inBody := (Text.trim_isInfix body).length_le
  rw [List.length_cons, List.length_append, List.length_singleton]
  omega

namespace Part

theorem chars_ofChars (cs : List Char) : (ofChars cs).chars = cs := by
  unfold ofChars
  split
  · next forward => exact forward.symm
  · split
    · next reverse => exact reverse.symm
    · rfl

theorem length_ofTexts (texts : List (List Char)) :
    ((ofTexts texts).flatMap chars).length ≤ texts.flatten.length := by
  induction texts with
  | nil => exact Nat.le_refl 0
  | cons cs texts ih =>
    have trimmed := (Text.trim_isInfix cs).length_le
    rw [ofTexts_cons, List.flatten_cons, List.length_append]
    split
    · omega
    · rw [List.flatMap_cons, List.length_append, chars_ofChars]
      omega

/-- The parts of a text are no longer than the text, put together. -/
theorem length_split (cs : List Char) : ((split cs).flatMap chars).length ≤ cs.length := by
  have shorter := length_ofTexts (Pieces.cut Token.isArrow cs).interleaved
  rwa [Pieces.flatten_cut] at shorter

theorem chars_ne_nil_of_mem_split {cs : List Char} {p : Part} (member : p ∈ split cs) : p.chars ≠ [] := by
  obtain ⟨text, inside, rfl⟩ := List.mem_map.mp member
  rw [chars_ofChars]
  simpa using (List.mem_filter.mp inside).2

end Part

section Asking

variable {chain chain' : List Char → Except SyntaxError Chain} {onward : List Char}

namespace Branch

/-- More parts follow the target of the branch `cs`, so the text from its target on is read as a chain. -/
inductive Continues (a : Arrow) (used : List String) (cs onward : List Char) : Prop
  | intro {step name next more} :
      Step.readBranch? cs = some (step, a, onward) → Part.split onward = .text name :: next :: more →
      String.ofList name ∉ used → Continues a used cs onward

/-- Reading the branches of a fan-out asks `chain` for the continuation `onward`. All branches before that one are
read. -/
inductive Asks (chain : List Char → Except SyntaxError Chain) (a : Arrow) (onward : List Char) :
    List String → List (List Char) → Prop
  | here {used cs rest} : Continues a used cs onward → Asks chain a onward used (cs :: rest)
  | later {used cs branch rest} :
      read chain a used cs = .ok branch → Asks chain a onward (branch.target :: used) rest →
      Asks chain a onward used (cs :: rest)

variable {a : Arrow} {used : List String} {cs : List Char} {texts : List (List Char)}

theorem Continues.length_le (continues : Continues a used cs onward) : onward.length + 8 ≤ cs.length := by
  obtain ⟨found, _, _⟩ := continues
  exact Step.length_readBranch? found

theorem Asks.continues (asks : Asks chain a onward used texts) :
    ∃ cs ∈ texts, ∃ used', Continues a used' cs onward := by
  induction asks with
  | here continues => exact ⟨_, List.mem_cons_self, _, continues⟩
  | later _ _ ih =>
    obtain ⟨cs, member, found⟩ := ih
    exact ⟨cs, List.mem_cons_of_mem _ member, found⟩

theorem read_congr (agree : ∀ onward, Continues a used cs onward → chain onward = chain' onward) :
    read chain a used cs = read chain' a used cs := by
  unfold read
  dsimp only
  cases found : Step.readBranch? cs with
  | none => rfl
  | some head =>
    obtain ⟨step, b, onward⟩ := head
    dsimp only
    by_cases same : b = a
    · subst same
      match parts : Part.split onward with
      | [] => rfl
      | .arrow _ :: _ => rfl
      | [.text name] => rfl
      | .text name :: next :: more =>
        by_cases known : String.ofList name ∈ used
        · simp only [if_pos known]
        · rw [agree onward (.intro found parts known)]
    · rw [if_pos same, if_pos same]

theorem readAll_congr (agree : ∀ onward, Asks chain a onward used texts → chain onward = chain' onward) :
    readAll chain a used texts = readAll chain' a used texts := by
  induction texts generalizing used with
  | nil => rfl
  | cons cs texts ih =>
    have first : read chain a used cs = read chain' a used cs :=
      read_congr fun onward continues => agree onward (.here continues)
    rw [readAll, readAll, ← first]
    cases run : read chain a used cs with
    | error e => rfl
    | ok branch =>
      have later := ih fun onward asks => agree onward (.later run asks)
      dsimp only [bind, Except.bind]
      rw [later]

end Branch

namespace Hop

/-- Reading hops asks `chain` for a continuation: the loop comes to a fan-out whose branches ask for it. -/
def Asks (chain : List Char → Except SyntaxError Chain) (parts : List Part) (onward : List Char) : Prop :=
  ∃ a stage behind texts, Visits chain parts (.arrow a :: stage :: behind) ∧
    Stage.ofChars stage.chars = .fanOut texts ∧ Branch.Asks chain a onward [] texts

variable {parts rest : List Part}

theorem Asks.head (taken : Takes chain parts rest) (asks : Asks chain rest onward) : Asks chain parts onward := by
  obtain ⟨a, stage, behind, texts, visits, found⟩ := asks
  exact ⟨a, stage, behind, texts, .head taken visits, found⟩

/-- An arrow and two parentheses stand around the branches of a fan-out. -/
theorem Asks.length_le (asks : Asks chain parts onward) :
    onward.length + 12 ≤ (parts.flatMap Part.chars).length := by
  obtain ⟨a, stage, behind, texts, visits, group, asks⟩ := asks
  obtain ⟨before, rfl⟩ := visits.isSuffix
  obtain ⟨inside, found, rfl, _⟩ := Stage.ofChars_eq_fanOut.mp group
  obtain ⟨cs, member, used, continues⟩ := asks.continues
  have inBranch := continues.length_le
  have inGroup := length_branchesOf found cs member
  rw [List.flatMap_append, List.length_append, List.flatMap_cons, List.flatMap_cons, List.length_append,
    List.length_append, Part.chars, Arrow.length_chars]
  omega

/-- By induction on the number of parts, as in `Hop.Reads.of_readAll`. -/
theorem readAll_congr (agree : ∀ onward, Asks chain parts onward → chain onward = chain' onward) :
    readAll chain parts = readAll chain' parts := by
  induction size : parts.length using Nat.strongRecOn generalizing parts with
  | ind n ih =>
    subst size
    match parts with
    | [] => rfl
    | .text found :: rest => rw [readAll, readAll]
    | [.arrow a] => rw [readAll, readAll]
    | .arrow a :: stage :: behind =>
      have later (rest : List Part) (fewer : rest.length ≤ behind.length)
          (taken : Takes chain (.arrow a :: stage :: behind) rest) : readAll chain rest = readAll chain' rest :=
        ih rest.length (by simp only [List.length_cons]; omega)
          (fun onward asks => agree onward (asks.head taken)) rfl
      have closing (wording : String) (closes : Closes (.arrow a :: stage :: behind) a wording behind) :
          readAll chain (.arrow a :: stage :: behind) = readAll chain' (.arrow a :: stage :: behind) := by
        obtain ⟨hop, run⟩ := closes.readAll_eq
        rw [run, run]
        cases found : Part.closing a wording behind with
        | error e => rfl
        | ok target =>
          obtain ⟨name, rest, rfl, _⟩ := Part.closing_eq_ok.mp found
          have onward := later rest (by simp only [List.length_cons]; omega) (.closed closes)
          dsimp only [bind, Except.bind, readAll.behindTarget]
          rw [onward]
      cases group : Stage.ofChars stage.chars with
      | single cs =>
        cases readStep : Step.read .single cs with
        | error e => rw [(Fails.step group readStep).run, (Fails.step group readStep).run]
        | ok step => exact closing _ (.single group readStep)
      | fanIn texts =>
        cases readSteps : texts.mapM (Step.read .grouped) with
        | error e => rw [(Fails.steps group readSteps).run, (Fails.steps group readSteps).run]
        | ok steps => exact closing _ (.fanIn group readSteps)
      | fanOut texts =>
        have branches : Branch.readAll chain a [] texts = Branch.readAll chain' a [] texts :=
          Branch.readAll_congr fun onward asks => agree onward ⟨a, stage, behind, texts, .refl, group, asks⟩
        simp only [readAll, group, ← branches]
        cases readBranches : Branch.readAll chain a [] texts with
        | error e => rfl
        | ok found =>
          dsimp only [bind, Except.bind]
          rw [later behind (Nat.le_refl _) (.fanOut group readBranches)]

end Hop

namespace Chain

/-- Reading the chain `cs` asks `chain` for a continuation: the chain is not refused at once, and its
hops ask for it. -/
inductive Asks (chain : List Char → Except SyntaxError Chain) (cs onward : List Char) : Prop
  | intro {entity rest} :
      Part.split cs = .text entity :: rest → refusal? (.text entity :: rest) = none → Hop.Asks chain rest onward →
      Asks chain cs onward

variable {cs : List Char}

/-- An entity stands in front of the hops, and has a character at least. -/
theorem Asks.length_le (asks : Asks chain cs onward) : onward.length + 13 ≤ cs.length := by
  obtain ⟨parts, _, asks⟩ := asks
  have inHops := asks.length_le
  have shorter := Part.length_split cs
  have nonempty := Part.chars_ne_nil_of_mem_split (parts ▸ List.mem_cons_self)
  rw [← List.length_pos_iff] at nonempty
  rw [parts, List.flatMap_cons, List.length_append] at shorter
  omega

/-- A chain is read alike by readers that agree on what is asked for. -/
theorem readWith_congr (agree : ∀ onward, Asks chain cs onward → chain onward = chain' onward) :
    readWith chain cs = readWith chain' cs := by
  unfold readWith
  dsimp only
  match parts : Part.split cs with
  | [] => rfl
  | .arrow _ :: _ => rfl
  | .text entity :: rest =>
    cases accepted : refusal? (.text entity :: rest) with
    | some e => rfl
    | none =>
      have hops : Hop.readAll chain rest = Hop.readAll chain' rest :=
        Hop.readAll_congr fun onward asks => agree onward (.intro parts accepted asks)
      dsimp only
      rw [hops]

theorem readWith_nil : readWith chain [] = .error .tooShort := by
  rfl

end Chain

end Asking

namespace Chain

/-- Any number that bounds the length of a text is enough to read it. -/
theorem readWithin_eq {n m : Nat} {cs : List Char} (enough : cs.length ≤ n) (enough' : cs.length ≤ m) :
    readWithin SyntaxError.tooShort n cs = readWithin SyntaxError.tooShort m cs := by
  induction n generalizing m cs with
  | zero =>
    obtain rfl := List.length_eq_zero_iff.mp (Nat.le_zero.mp enough)
    cases m with
    | zero => rfl
    | succ m => exact readWith_nil.symm
  | succ n ih =>
    cases m with
    | zero =>
      obtain rfl := List.length_eq_zero_iff.mp (Nat.le_zero.mp enough')
      exact readWith_nil
    | succ m =>
      refine readWith_congr fun onward asks => ?_
      have shorter := asks.length_le
      exact ih (by omega) (by omega)

/-- Continuations are read as chains. -/
theorem read_eq_readWith (cs : List Char) : read cs = readWith read cs := by
  cases cs with
  | nil => exact readWith_nil.symm
  | cons c cs =>
    refine readWith_congr fun onward asks => readWithin_eq ?_ (Nat.le_refl _)
    have shorter := asks.length_le
    rw [List.length_cons] at shorter
    omega

end Chain

end TransferFlow
