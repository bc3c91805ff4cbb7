import Mathlib.Logic.Function.Basic
import TransferFlow.Proofs.MirroredSteps
import TransferFlow.Proofs.Reading

namespace TransferFlow

open Text (Clear mirror)

/-- A renaming of labels and protocols that turns the arrows of clear ones and makes no two of them alike. -/
structure Turning where
  rename : String → String
  injective : Function.Injective rename
  mirrors : ∀ {cs : List Char}, Clear cs → rename (String.ofList cs) = String.ofList (mirror cs)

section Turned

variable (rename : String → String)

/-- The step with its protocol renamed. -/
def Step.turn (s : Step) : Step :=
  { s with protocol := rename s.protocol }

/-- The leg with its arrow turned and its texts renamed. -/
def Leg.turn (l : Leg) : Leg :=
  { arrow := l.arrow.flip, step := l.step.turn rename, target := rename l.target }

def Branch.turn (b : Branch) : Branch :=
  { step := b.step.turn rename, target := rename b.target, onward := b.onward.map (Leg.turn rename) }

def Hop.turn : Hop → Hop
  | .single leg => .single (leg.turn rename)
  | .fanIn a steps target => .fanIn a.flip (steps.map (Step.turn rename)) (rename target)
  | .fanOut a branches => .fanOut a.flip (branches.map (Branch.turn rename))

def Chain.turn (c : Chain) : Chain :=
  { entity := rename c.entity, hops := c.hops.map (Hop.turn rename) }

def Pattern.turn (p : Pattern) : Pattern :=
  { main := p.main.turn rename, post := p.post.map (Chain.turn rename) }

theorem Chain.legs?_turn (c : Chain) : (c.turn rename).legs? = c.legs?.map (List.map (Leg.turn rename)) := by
  rw [legs?, legs?, turn]
  induction c.hops with
  | nil => rfl
  | cons h hops ih =>
    rw [List.map_cons, List.mapM_cons, List.mapM_cons, ih]
    cases h with
    | single leg => cases hops.mapM Hop.leg? <;> rfl
    | fanIn | fanOut => rfl

end Turned

/-- The second answer is the first one turned, or both are refusals of one kind. -/
inductive Alike {α β : Type} (turn : α → β) : Except SyntaxError α → Except SyntaxError β → Prop
  | ok (x : α) : Alike turn (.ok x) (.ok (turn x))
  | error {e e' : SyntaxError} : e'.kind = e.kind → Alike turn (.error e) (.error e')

section Answers

variable {α β γ δ : Type} {turn : α → β} {turn' : γ → δ}

theorem Alike.eq_ok {a : α} {y : Except SyntaxError β} (alike : Alike turn (.ok a) y) : y = .ok (turn a) := by
  cases alike
  rfl

theorem Alike.bind {x : Except SyntaxError α} {y : Except SyntaxError β} {f : α → Except SyntaxError γ}
    {g : β → Except SyntaxError δ} (first : Alike turn x y)
    (next : ∀ a, x = .ok a → Alike turn' (f a) (g (turn a))) :
    Alike turn' (x >>= f) (y >>= g) := by
  cases first with
  | ok a => exact next a rfl
  | error same => exact .error same

theorem Alike.map {x : Except SyntaxError α} {y : Except SyntaxError β} {f : α → γ} {g : β → δ}
    (alike : Alike turn x y) (same : ∀ a, x = .ok a → g (turn a) = turn' (f a)) :
    Alike turn' (x.map f) (y.map g) := by
  cases alike with
  | ok a =>
    rw [Except.map, Except.map, same a rfl]
    exact .ok (f a)
  | error kinds => exact .error kinds

theorem Alike.mapM {ι κ : Type} {f : ι → Except SyntaxError α} {g : κ → Except SyntaxError β} {h : ι → κ}
    {xs : List ι} (each : ∀ x ∈ xs, Alike turn (f x) (g (h x))) :
    Alike (List.map turn) (xs.mapM f) ((xs.map h).mapM g) := by
  induction xs with
  | nil => exact .ok []
  | cons x xs ih =>
    obtain ⟨atHead, atTail⟩ := List.forall_mem_cons.mp each
    rw [List.map_cons, List.mapM_cons, List.mapM_cons]
    refine atHead.bind fun a _ => (ih atTail).bind fun as _ => ?_
    exact .ok (a :: as)

end Answers

variable (f : Turning)

namespace Step

/-- The protocol that a search finds is clear. -/
theorem turn_protocol {α : Type} {tail? : List Char → Option α} {cs before : List Char} {found : α}
    (clear : Clear cs) (search : shortestPrefix tail? cs = some (before, found)) (d : Direction) :
    turn f.rename { protocol := String.ofList (Text.trim before), direction := d } =
      { protocol := String.ofList (Text.trim (mirror before)), direction := d } := by
  obtain ⟨rest, rfl, _⟩ := shortestPrefix_spec search
  have inside : Text.trim before <:+: before ++ rest :=
    (Text.trim_isInfix before).trans (List.prefix_append _ _).isInfix
  rw [turn, f.mirrors (clear.of_isInfix inside), Text.trim_mirror]

theorem read?_mirror {cs : List Char} (clear : Clear cs) : read? (mirror cs) = (read? cs).map (turn f.rename) := by
  have search := @shortestPrefix_mirror _ finalDirection? id
    (fun solid => by simp [finalDirection?, blanksAndDirection?, solid])
    (fun clear => by rw [finalDirection?_mirror clear, Option.map_id_apply]) _ clear
  rw [read?, search, Option.map_map, read?, Option.map_map]
  exact Option.map_congr fun found member => (turn_protocol f clear member found.2).symm

theorem readBranch?_mirror {cs : List Char} (clear : Clear cs) :
    readBranch? (mirror cs) = (readBranch? cs).map (Prod.map (turn f.rename) (Prod.map Arrow.flip mirror)) := by
  have search := @shortestPrefix_mirror _ directionAndOnward? (Prod.map id (Prod.map Arrow.flip mirror))
    (fun solid => by simp [directionAndOnward?, blanksAndDirection?, solid]) directionAndOnward?_mirror _ clear
  rw [readBranch?, search, Option.map_map, readBranch?, Option.map_map]
  refine Option.map_congr fun found member => ?_
  simp only [Function.comp_apply, Prod.map_fst, Prod.map_snd, Prod.map_apply, turn_protocol f clear member, id,
    Text.trim_mirror]

theorem isInfix_of_readBranch? {cs onward : List Char} {s : Step} {a : Arrow}
    (found : readBranch? cs = some (s, a, onward)) : onward <:+: cs := by
  obtain ⟨⟨before, d, b, line⟩, search, same⟩ := Option.map_eq_some_iff.mp found
  cases same
  obtain ⟨rest, rfl, _, reads⟩ := shortestPrefix_spec search
  obtain ⟨head, behind, rfl, _, atOnward⟩ := directionAndOnward?_spec reads
  obtain ⟨blanks, after, rfl, _⟩ := onward?_spec atOnward
  refine (Text.trim_isInfix line).trans ⟨before ++ head ++ a.chars ++ blanks, after, ?_⟩
  simp only [List.append_assoc]

theorem alike_read (wording : StepWording) {cs : List Char} (clear : Clear cs) :
    Alike (turn f.rename) (read wording cs) (read wording (mirror cs)) := by
  rw [read, read, read?_mirror f clear]
  cases read? cs with
  | none => exact .error rfl
  | some s => exact .ok s

end Step

namespace Stage

/-- The stage with all arrows turned. -/
def mirror : Stage → Stage
  | .single cs => .single (Text.mirror cs)
  | .fanIn texts => .fanIn (texts.map Text.mirror)
  | .fanOut texts => .fanOut (texts.map Text.mirror)

theorem ofChars_mirror {cs : List Char} (clear : Clear cs) : ofChars (Text.mirror cs) = (ofChars cs).mirror := by
  unfold ofChars
  rw [groupInside?_mirror clear]
  cases group : groupInside? cs with
  | none => rfl
  | some inside =>
    have clear' : Clear inside := clear.of_isInfix (isInfix_of_groupInside? group)
    have arrows : (branchesOf (Text.mirror inside)).any Token.hasArrow =
        (branchesOf inside).any Token.hasArrow := by
      rw [branchesOf_mirror clear', List.any_map]
      rw [Bool.eq_iff_iff, List.any_eq_true, List.any_eq_true]
      refine exists_congr fun branch => and_congr_right fun member => ?_
      rw [Function.comp_apply, Token.hasArrow_mirror (clear'.of_isInfix (isInfix_of_mem_branchesOf member))]
    dsimp only [Option.map_some]
    rw [arrows, branchesOf_mirror clear']
    split <;> rfl

theorem isFanOut_mirror (stage : Stage) : stage.mirror.isFanOut = stage.isFanOut := by
  cases stage <;> rfl

end Stage

/-- What a chain is refused for at once does not depend on its arrows. -/
theorem Chain.refusal?_mirror {parts : List Part} (clear : ∀ p ∈ parts, Clear p.chars) :
    refusal? (parts.map Part.mirror) = refusal? parts := by
  have last : (parts.map Part.mirror).getLast?.any Part.isArrow = parts.getLast?.any Part.isArrow := by
    rw [List.getLast?_map]
    cases parts.getLast? with
    | none => rfl
    | some p => exact p.isArrow_mirror
  have group : refusal?.endsInFanOut (parts.map Part.mirror) = refusal?.endsInFanOut parts := by
    match parts with
    | [] | [_] | [_, _] | _ :: _ :: _ :: _ :: _ => rfl
    | [_, _, group] =>
      have clear' : Clear group.chars := clear group (by simp)
      simp only [List.map_cons, List.map_nil, refusal?.endsInFanOut, Part.chars_mirror, Stage.ofChars_mirror clear',
        Stage.isFanOut_mirror]
  rw [refusal?, refusal?, List.length_map, last, group]

theorem Arrow.flip_inj {a b : Arrow} : a.flip = b.flip ↔ a = b := by
  cases a <;> cases b <;> decide

theorem Part.clear_of_mem_split {cs : List Char} (clear : Clear cs) : ∀ p ∈ split cs, Clear p.chars := by
  intro p member
  cases p with
  | text part => exact clear.of_isInfix (isInfix_of_mem_split member)
  | arrow a => cases a <;> decide

theorem Part.alike_closing {parts : List Part} (clear : ∀ p ∈ parts, Clear p.chars) (a : Arrow) (wording : String) :
    Alike f.rename (closing a wording parts) (closing a.flip wording (parts.map Part.mirror)) := by
  cases parts with
  | nil => exact .error rfl
  | cons p rest =>
    cases p with
    | text found => exact .error rfl
    | arrow b =>
      unfold closing
      simp only [List.map_cons, mirror, ne_eq, Arrow.flip_inj]
      split
      · exact .error rfl
      · cases rest with
        | nil => exact .error rfl
        | cons q rest =>
          cases q with
          | arrow _ => exact .error rfl
          | text target =>
            have named : f.rename (String.ofList target) = String.ofList (Text.mirror target) :=
              f.mirrors (clear (.text target) (by simp))
            simp only [List.map_cons, mirror]
            rw [← named]
            exact .ok _

section Readers

variable {chain chain' : List Char → Except SyntaxError Chain}
  (continued : ∀ {cs}, Clear cs → Alike (Chain.turn f.rename) (chain cs) (chain (mirror cs)))

include continued

theorem Branch.alike_read {cs : List Char} (clear : Clear cs) (a : Arrow) (used : List String) :
    Alike (turn f.rename) (read chain a used cs) (read chain a.flip (used.map f.rename) (mirror cs)) := by
  unfold read
  dsimp only
  rw [Step.readBranch?_mirror f clear]
  cases found : Step.readBranch? cs with
  | none => exact .error rfl
  | some head =>
    obtain ⟨step, b, onward⟩ := head
    have clear' : Clear onward := clear.of_isInfix (Step.isInfix_of_readBranch? found)
    simp only [Option.map_some, Prod.map_apply, ne_eq, Arrow.flip_inj]
    split
    · exact .error rfl
    · rw [Part.split_mirror clear']
      cases parts : Part.split onward with
      | nil => exact .error rfl
      | cons p rest =>
        cases p with
        | arrow a => exact .error rfl
        | text name =>
          have inside : name <:+: onward := Part.isInfix_of_mem_split (by rw [parts]; exact List.mem_cons_self)
          have named := f.mirrors (clear'.of_isInfix inside)
          simp only [List.map_cons, Part.mirror, ← named, List.mem_map_of_injective f.injective, List.isEmpty_map]
          split
          · exact .error rfl
          · split
            · exact .ok (⟨step, String.ofList name, []⟩ : Branch)
            · have alike := continued clear'
              generalize chain onward = answer, chain (mirror onward) = answer' at alike ⊢
              cases alike with
              | error kinds => exact .error kinds
              | ok continuation =>
                simp only [Chain.legs?_turn]
                cases continuation.legs? with
                | some legs => exact .ok (⟨step, String.ofList name, legs⟩ : Branch)
                | none => exact .error rfl

theorem Branch.alike_readAll {texts : List (List Char)} (clear : ∀ cs ∈ texts, Clear cs) (a : Arrow)
    (used : List String) :
    Alike (List.map (turn f.rename)) (readAll chain a used texts)
      (readAll chain a.flip (used.map f.rename) (texts.map mirror)) := by
  induction texts generalizing used with
  | nil => exact .ok []
  | cons cs texts ih =>
    obtain ⟨atHead, atTail⟩ := List.forall_mem_cons.mp clear
    rw [List.map_cons, readAll, readAll]
    refine (alike_read f continued atHead a used).bind fun branch _ => ?_
    refine (ih atTail (branch.target :: used)).bind fun later _ => ?_
    exact .ok (branch :: later)

/-- By induction on the number of parts, as in `Hop.Reads.of_readAll`. -/
theorem Hop.alike_readAll {parts : List Part} (clear : ∀ p ∈ parts, Clear p.chars) :
    Alike (List.map (turn f.rename)) (readAll chain parts) (readAll chain (parts.map Part.mirror)) := by
  induction size : parts.length using Nat.strongRecOn generalizing parts with
  | ind n ih =>
    subst size
    match parts with
    | [] => exact .ok []
    | .text found :: rest => exact .error rfl
    | [.arrow a] => exact .error rfl
    | .arrow a :: stage :: rest =>
      obtain ⟨_, atStage, atRest⟩ := List.forall_mem_cons.mp clear |>.imp_right List.forall_mem_cons.mp
      have onward : Alike (List.map (turn f.rename)) (readAll chain rest) (readAll chain (rest.map Part.mirror)) :=
        ih rest.length (by simp only [List.length_cons]; omega) atRest rfl
      have behind : Alike (List.map (turn f.rename)) (readAll.behindTarget chain rest)
          (readAll.behindTarget chain (rest.map Part.mirror)) := by
        rcases rest with _ | ⟨p, _ | ⟨q, rest⟩⟩
        · exact .ok []
        · exact .ok []
        · have fewer : rest.length < (Part.arrow a :: stage :: p :: q :: rest).length := by
            simp only [List.length_cons]
            omega
          exact ih rest.length fewer (fun p member => atRest p (by simp [member])) rfl
      have turned := Stage.ofChars_mirror atStage
      rw [← Part.chars_mirror] at turned
      rw [List.map_cons, List.map_cons, Part.mirror]
      cases stage' : Stage.ofChars stage.chars with
      | single text =>
        obtain ⟨rfl, _⟩ := Stage.ofChars_eq_single.mp stage'
        rw [stage'] at turned
        simp only [readAll, stage', turned, Stage.mirror]
        refine (Step.alike_read f .single atStage).bind fun step _ => ?_
        refine (Part.alike_closing f atRest a _).bind fun target _ => behind.bind fun later _ => ?_
        exact .ok (.single ⟨a, step, target⟩ :: later)
      | fanIn texts =>
        obtain ⟨inside, group, rfl, _⟩ := Stage.ofChars_eq_fanIn.mp stage'
        rw [stage'] at turned
        have clear' : ∀ cs ∈ branchesOf inside, Clear cs := fun cs member =>
          atStage.of_isInfix ((isInfix_of_mem_branchesOf member).trans (isInfix_of_groupInside? group))
        simp only [readAll, stage', turned, Stage.mirror]
        refine (Alike.mapM fun cs member => Step.alike_read f .grouped (clear' cs member)).bind fun steps _ => ?_
        refine (Part.alike_closing f atRest a _).bind fun target _ => behind.bind fun later _ => ?_
        exact .ok (.fanIn a steps target :: later)
      | fanOut texts =>
        obtain ⟨inside, group, rfl, _⟩ := Stage.ofChars_eq_fanOut.mp stage'
        rw [stage'] at turned
        have clear' : ∀ cs ∈ branchesOf inside, Clear cs := fun cs member =>
          atStage.of_isInfix ((isInfix_of_mem_branchesOf member).trans (isInfix_of_groupInside? group))
        simp only [readAll, stage', turned, Stage.mirror]
        refine (Branch.alike_readAll f continued clear' a []).bind fun branches _ => onward.bind fun later _ => ?_
        exact .ok (.fanOut a branches :: later)

theorem Chain.alike_readWith {cs : List Char} (clear : Clear cs) :
    Alike (turn f.rename) (readWith chain cs) (readWith chain (mirror cs)) := by
  have clear' := Part.clear_of_mem_split clear
  unfold readWith
  simp only [Part.split_mirror clear, refusal?_mirror clear']
  cases refusal? (Part.split cs) with
  | some e => exact .error rfl
  | none =>
    cases parts : Part.split cs with
    | nil => exact .error rfl
    | cons p rest =>
      rw [parts] at clear'
      obtain ⟨atHead, atTail⟩ := List.forall_mem_cons.mp clear'
      cases p with
      | arrow a => exact .error rfl
      | text entity =>
        have named : f.rename (String.ofList entity) = String.ofList (mirror entity) := f.mirrors atHead
        simp only [List.map_cons, Part.mirror, ← named]
        refine (Hop.alike_readAll f continued atTail).bind fun hops _ => ?_
        exact .ok (⟨String.ofList entity, hops⟩ : Chain)

end Readers

theorem Chain.alike_readWithin (n : Nat) {cs : List Char} (clear : Clear cs) :
    Alike (turn f.rename) (readWithin .tooShort n cs) (readWithin .tooShort n (mirror cs)) := by
  induction n generalizing cs with
  | zero => exact .error rfl
  | succ n ih => exact alike_readWith f ih clear

theorem Chain.alike_read {cs : List Char} (clear : Clear cs) :
    Alike (turn f.rename) (read cs) (read (mirror cs)) := by
  rw [read, read, Text.length_mirror]
  exact alike_readWithin f _ clear

theorem Pattern.alike_read {cs : List Char} (clear : Clear cs) :
    Alike (turn f.rename) (read cs) (read (mirror cs)) := by
  have whole : Clear (Token.charsOf (Pieces.cut (·.kind == .post) cs).tokens) := by
    rwa [Pieces.tokens_cut, Token.charsOf_lex]
  have main : Clear (Text.trim (Token.charsOf (Pieces.cut (·.kind == .post) cs).first)) :=
    whole.of_isInfix ((Text.trim_isInfix _).trans (Pieces.charsOf_isInfix (Pieces.first_isInfix _)))
  have each : ∀ piece ∈ (Pieces.cut (·.kind == .post) cs).rest,
      Alike (Chain.turn f.rename) (Chain.read (Text.trim (Token.charsOf piece.2)))
        (Chain.read (Text.trim (Token.charsOf (piece.2.map Token.mirror)))) := by
    intro piece member
    rw [Token.charsOf_map_mirror (Pieces.lexed_rest member), Text.trim_mirror]
    refine Chain.alike_read f (whole.of_isInfix ?_)
    exact (Text.trim_isInfix _).trans (Pieces.charsOf_isInfix (Pieces.rest_isInfix member))
  rw [read, read, readWith, readWith]
  simp only [@Pieces.cut_mirror (·.kind == .post) (fun t => by cases t <;> rfl) _ clear, Pieces.mirror,
    Token.charsOf_map_mirror (Pieces.lexed_first cs), Text.trim_mirror]
  refine (Chain.alike_read f main).bind fun main _ => Alike.bind (Alike.mapM each) fun post _ => ?_
  exact .ok (⟨main, post⟩ : Pattern)

end TransferFlow
