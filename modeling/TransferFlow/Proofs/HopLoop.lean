import Mathlib.Logic.Relation
import TransferFlow.Proofs.Reading

namespace TransferFlow

theorem bind_eq_error {ε α β : Type} {x : Except ε α} {f : α → Except ε β} {e : ε} :
    x >>= f = .error e ↔ x = .error e ∨ ∃ a, x = .ok a ∧ f a = .error e := by
  cases x with
  | error e' => simp [bind, Except.bind]
  | ok a => simp [bind, Except.bind]

theorem map_eq_error {ε α β : Type} {x : Except ε α} {f : α → β} {e : ε} : x.map f = .error e ↔ x = .error e := by
  cases x with
  | error e' => simp [Except.map]
  | ok a => simp [Except.map]

theorem mapM_eq_error {ε α β : Type} {f : α → Except ε β} {xs : List α} {e : ε} (failed : xs.mapM f = .error e) :
    ∃ x ∈ xs, f x = .error e := by
  induction xs with
  | nil => cases failed
  | cons x xs ih =>
    rw [List.mapM_cons] at failed
    rcases bind_eq_error.mp failed with atHead | ⟨y, _, rest⟩
    · exact ⟨x, List.mem_cons_self, atHead⟩
    · rcases bind_eq_error.mp rest with atTail | ⟨ys, _, done⟩
      · obtain ⟨x', member, found⟩ := ih atTail
        exact ⟨x', List.mem_cons_of_mem _ member, found⟩
      · cases done

namespace Hop

/-- The step of a state is read, and the arrow and the target that close its hop are looked for in `behind`. -/
inductive Closes : List Part → Arrow → String → List Part → Prop
  | fanIn {a stage texts steps behind} :
      Stage.ofChars stage.chars = .fanIn texts → texts.mapM (Step.read .grouped) = .ok steps →
      Closes (.arrow a :: stage :: behind) a missingArrowAfterGroup behind
  | single {a stage cs step behind} :
      Stage.ofChars stage.chars = .single cs → Step.read .single cs = .ok step →
      Closes (.arrow a :: stage :: behind) a missingArrowAfterStep behind

variable (chain : List Char → Except SyntaxError Chain)

/-- One round: a hop is read, and its parts are taken. -/
inductive Takes : List Part → List Part → Prop
  | fanOut {a stage texts branches rest} :
      Stage.ofChars stage.chars = .fanOut texts → Branch.readAll chain a [] texts = .ok branches →
      Takes (.arrow a :: stage :: rest) rest
  | closed {parts a wording name rest} :
      Closes parts a wording (.arrow a :: .text name :: rest) → Takes parts rest

/-- The states that the loop comes to. -/
abbrev Visits : List Part → List Part → Prop :=
  Relation.ReflTransGen (Takes chain)

/-- What a state is refused for. -/
inductive Fails : List Part → SyntaxError → Prop
  | noArrow {found rest} : Fails (.text found :: rest) (.expectedArrow (String.ofList found))
  | noStage {a} : Fails [.arrow a] .endAfterArrow
  | branches {a stage texts e rest} :
      Stage.ofChars stage.chars = .fanOut texts → Branch.readAll chain a [] texts = .error e →
      Fails (.arrow a :: stage :: rest) e
  | steps {a stage texts e rest} :
      Stage.ofChars stage.chars = .fanIn texts → texts.mapM (Step.read .grouped) = .error e →
      Fails (.arrow a :: stage :: rest) e
  | step {a stage cs e rest} :
      Stage.ofChars stage.chars = .single cs → Step.read .single cs = .error e →
      Fails (.arrow a :: stage :: rest) e
  | closing {parts a wording behind e} :
      Closes parts a wording behind → Part.closing a wording behind = .error e → Fails parts e

variable {chain} {parts rest behind : List Part} {a : Arrow} {wording : String} {e : SyntaxError}

/-- What is read of a hop depends neither on what stands behind its step nor on the reader of continuations. -/
theorem Closes.readAll_eq (closes : Closes parts a wording behind) :
    ∃ hop : String → Hop, ∀ chain, readAll chain parts = do
      let target ← Part.closing a wording behind
      let later ← readAll.behindTarget chain behind
      return hop target :: later := by
  cases closes with
  | @fanIn a stage texts steps behind group readSteps =>
    refine ⟨.fanIn a steps, fun chain => ?_⟩
    rw [readAll, group]
    dsimp only
    rw [readSteps]
    rfl
  | @single a stage cs step behind alone readStep =>
    refine ⟨fun target => .single { arrow := a, step, target }, fun chain => ?_⟩
    rw [readAll, alone]
    dsimp only
    rw [readStep]
    rfl

/-- A round puts one hop in front of what the rest holds. -/
theorem Takes.readAll_eq (taken : Takes chain parts rest) :
    ∃ hop, readAll chain parts = (readAll chain rest).map (hop :: ·) := by
  cases taken with
  | @fanOut a stage texts branches rest group readBranches =>
    refine ⟨.fanOut a branches, ?_⟩
    rw [readAll, group]
    dsimp only
    rw [readBranches]
    cases readAll chain rest <;> rfl
  | @closed parts a wording name rest closes =>
    obtain ⟨hop, run⟩ := closes.readAll_eq
    refine ⟨hop (String.ofList name), ?_⟩
    rw [run, Part.closing_eq_ok.mpr ⟨name, rest, rfl, rfl⟩, readAll.behindTarget]
    cases readAll chain rest <;> rfl

/-- A round takes parts from the front. -/
theorem Takes.isSuffix (taken : Takes chain parts rest) : rest <:+ parts := by
  cases taken with
  | @fanOut a stage _ _ _ _ _ => exact ⟨[.arrow a, stage], rfl⟩
  | @closed _ a _ name _ closes =>
    cases closes with
    | @fanIn _ stage _ _ _ _ _ | @single _ stage _ _ _ _ _ => exact ⟨[.arrow a, stage, .arrow a, .text name], rfl⟩

theorem Visits.isSuffix (visits : Visits chain parts rest) : rest <:+ parts := by
  induction visits with
  | refl => exact List.suffix_refl parts
  | tail _ taken ih => exact taken.isSuffix.trans ih

theorem Fails.run (fails : Fails chain parts e) : readAll chain parts = .error e := by
  cases fails with
  | noArrow => rw [readAll, refuse_eq_error]
  | noStage => rw [readAll, refuse_eq_error]
  | branches group failed =>
    rw [readAll, group]
    exact bind_eq_error.mpr (.inl failed)
  | steps group failed =>
    rw [readAll, group]
    exact bind_eq_error.mpr (.inl failed)
  | step alone failed =>
    rw [readAll, alone]
    exact bind_eq_error.mpr (.inl failed)
  | closing closes failed =>
    obtain ⟨hop, run⟩ := closes.readAll_eq
    rw [run]
    exact bind_eq_error.mpr (.inl failed)

/-- Where the arrow and the target are missing the state is refused, or else the rest behind them is. -/
theorem Closes.fails_or (closes : Closes parts a wording behind) {hop : String → Hop}
    (failed : (do
      let target ← Part.closing a wording behind
      let later ← readAll.behindTarget chain behind
      return hop target :: later) = Except.error e) :
    Fails chain parts e ∨ ∃ rest, Takes chain parts rest ∧ rest.length + 2 = behind.length ∧
      readAll chain rest = .error e := by
  rcases bind_eq_error.mp failed with unclosed | ⟨target, closed, failed⟩
  · exact .inl (.closing closes unclosed)
  obtain ⟨name, rest, rfl, rfl⟩ := Part.closing_eq_ok.mp closed
  rcases bind_eq_error.mp failed with later | ⟨hops, _, done⟩
  · exact .inr ⟨rest, .closed closes, rfl, later⟩
  · cases done

/-- By induction on the number of parts, as in `Reads.of_readAll`. -/
theorem fails_of_readAll (failed : readAll chain parts = .error e) :
    ∃ state, Visits chain parts state ∧ Fails chain state e := by
  induction size : parts.length using Nat.strongRecOn generalizing parts with
  | ind n ih =>
    subst size
    match parts with
    | [] => cases failed
    | .text found :: rest =>
      rw [readAll] at failed
      cases failed
      exact ⟨_, .refl, .noArrow⟩
    | [.arrow a] =>
      rw [readAll] at failed
      cases failed
      exact ⟨_, .refl, .noStage⟩
    | .arrow a :: stage :: behind =>
      have onward : ∀ rest, Takes chain (.arrow a :: stage :: behind) rest → rest.length ≤ behind.length →
          readAll chain rest = .error e → ∃ state, Visits chain (.arrow a :: stage :: behind) state ∧
            Fails chain state e := by
        intro rest taken fewer failed
        obtain ⟨state, visits, fails⟩ := ih rest.length (by simp only [List.length_cons]; omega) failed rfl
        exact ⟨state, .head taken visits, fails⟩
      have closing : ∀ wording, Closes (.arrow a :: stage :: behind) a wording behind →
          ∃ state, Visits chain (.arrow a :: stage :: behind) state ∧ Fails chain state e := by
        intro wording closes
        obtain ⟨hop, run⟩ := closes.readAll_eq
        rcases closes.fails_or ((run chain).symm.trans failed) with fails | ⟨rest, taken, fewer, later⟩
        · exact ⟨_, .refl, fails⟩
        · exact onward rest taken (by omega) later
      rw [readAll] at failed
      split at failed
      · rename_i texts group
        rcases bind_eq_error.mp failed with refused | ⟨branches, readBranches, failed⟩
        · exact ⟨_, .refl, .branches group refused⟩
        rcases bind_eq_error.mp failed with later | ⟨hops, _, done⟩
        · exact onward behind (.fanOut group readBranches) (Nat.le_refl _) later
        · cases done
      · rename_i texts group
        rcases bind_eq_error.mp failed with refused | ⟨steps, readSteps, _⟩
        · exact ⟨_, .refl, .steps group refused⟩
        · exact closing _ (.fanIn group readSteps)
      · rename_i cs alone
        rcases bind_eq_error.mp failed with refused | ⟨step, readStep, _⟩
        · exact ⟨_, .refl, .step alone refused⟩
        · exact closing _ (.single alone readStep)

/-- The parts behind an entity are refused for what a visited state is refused for, and for nothing else. -/
theorem readAll_eq_error :
    readAll chain parts = .error e ↔ ∃ state, Visits chain parts state ∧ Fails chain state e := by
  refine ⟨fails_of_readAll, ?_⟩
  rintro ⟨state, visits, fails⟩
  induction visits using Relation.ReflTransGen.head_induction_on with
  | refl => exact fails.run
  | head taken _ ih =>
    obtain ⟨hop, run⟩ := taken.readAll_eq
    rw [run, ih]
    rfl

end Hop

end TransferFlow
