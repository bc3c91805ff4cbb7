import TransferFlow.Part
import TransferFlow.Pattern

namespace TransferFlow

/-- What the part between two arrows holds: one step, the steps of a fan-in, or the branches of a
fan-out. A group is a fan-out as soon as an arrow stands in one of its branches. -/
inductive Stage where
  | single (cs : List Char)
  | fanIn (branches : List (List Char))
  | fanOut (branches : List (List Char))
  deriving DecidableEq, Repr

namespace Stage

def ofChars (cs : List Char) : Stage :=
  match groupInside? cs with
  | none => .single cs
  | some inside =>
    let branches := branchesOf inside
    if branches.any Token.hasArrow then .fanOut branches else .fanIn branches

def isFanOut : Stage → Bool
  | .fanOut _ => true
  | _ => false

end Stage

/-- Reads a step that stands alone; `wording` tells how a refusal reads. -/
def Step.read (wording : StepWording) (cs : List Char) : Except SyntaxError Step :=
  match Step.read? cs with
  | some s => .ok s
  | none => .error (.malformedStep wording (String.ofList cs))

/-- What ends a reading early: a refusal, or chains that stand inside each other deeper than there is
room to read them. -/
inductive Stop where
  | refused (e : SyntaxError)
  | tooDeep
  deriving DecidableEq, Repr

instance : MonadLift (Except SyntaxError) (Except Stop) where
  monadLift x := x.mapError .refused

/-- What reading a text comes to, unless it is too deep. -/
def Stop.answer? {α : Type} : Except Stop α → Option (Except SyntaxError α)
  | .ok a => some (.ok a)
  | .error (.refused e) => some (.error e)
  | .error .tooDeep => none

section Readers

-- Readers pass on whatever ends the reading of a continuation, be it a refusal or not.
variable {ε : Type} [MonadLiftT (Except SyntaxError) (Except ε)]

def refuse {α : Type} (e : SyntaxError) : Except ε α :=
  liftM (Except.error e : Except SyntaxError α)

omit [MonadLiftT (Except SyntaxError) (Except ε)] in
@[simp] theorem liftM_refusal {α : Type} (x : Except SyntaxError α) : (liftM x : Except SyntaxError α) = x := rfl

@[simp] theorem refuse_eq_error {α : Type} (e : SyntaxError) : (refuse e : Except SyntaxError α) = .error e := rfl

namespace Branch

/-- Reads one branch of a fan-out opened by `a`. `used` holds the targets of the branches before it,
and `chain` reads the text of its continuation, which starts with its target. -/
def read (chain : List Char → Except ε Chain) (a : Arrow) (used : List String) (cs : List Char) :
    Except ε Branch :=
  let written := String.ofList cs
  match Step.readBranch? cs with
  | none => refuse (.malformedBranch written)
  | some (step, b, onward) =>
    if b ≠ a then refuse (.inconsistentArrows a b)
    else
      match Part.split onward with
      | [] => refuse (.blankTarget written)
      | .arrow _ :: _ => refuse (.malformedBranch written)
      | .text name :: rest =>
        let target := String.ofList name
        if target ∈ used then refuse (.repeatedTarget written target)
        else if rest.isEmpty then .ok { step, target, onward := [] }
        else
          match chain onward with
          | .error e => .error e
          | .ok continuation =>
            match continuation.legs? with
            | some legs => .ok { step, target, onward := legs }
            | none => refuse (.nestedGroup written)

def readAll (chain : List Char → Except ε Chain) (a : Arrow) (used : List String) :
    List (List Char) → Except ε (List Branch)
  | [] => .ok []
  | cs :: rest => do
    let branch ← read chain a used cs
    let later ← readAll chain a (branch.target :: used) rest
    return branch :: later

end Branch

namespace Hop

def readAll (chain : List Char → Except ε Chain) : List Part → Except ε (List Hop)
  | [] => .ok []
  | .text found :: _ => refuse (.expectedArrow (String.ofList found))
  | [.arrow _] => refuse .endAfterArrow
  | .arrow a :: stage :: rest =>
    match Stage.ofChars stage.chars with
    | .fanOut branches => do
      let branches ← Branch.readAll chain a [] branches
      let later ← readAll chain rest
      return .fanOut a branches :: later
    | .fanIn branches => do
      let steps ← (branches.mapM (Step.read .grouped) : Except SyntaxError (List Step))
      let target ← Part.closing a missingArrowAfterGroup rest
      let later ← behindTarget rest
      return .fanIn a steps target :: later
    | .single cs => do
      let step ← Step.read .single cs
      let target ← Part.closing a missingArrowAfterStep rest
      let later ← behindTarget rest
      return .single { arrow := a, step, target } :: later
where
  behindTarget : List Part → Except ε (List Hop)
    | _ :: _ :: rest => readAll chain rest
    | _ => .ok []

end Hop

namespace Chain

/-- Whether the parts can be no chain because they end too early: a step needs its entity, and only
a fan-out needs none behind it. -/
def refusal? (parts : List Part) : Option SyntaxError :=
  if 4 ≤ parts.length && parts.getLast?.any Part.isArrow then some .endAfterArrow
  else if parts.length < 5 && !endsInFanOut parts then some .tooShort
  else none
where
  endsInFanOut : List Part → Bool
    | [_, _, group] => (Stage.ofChars group.chars).isFanOut
    | _ => false

/-- Reads a chain; `chain` reads the continuations of its branches. -/
def readWith (chain : List Char → Except ε Chain) (cs : List Char) : Except ε Chain :=
  let parts := Part.split cs
  match refusal? parts with
  | some e => refuse e
  | none =>
    match parts with
    | .text entity :: rest => do
      let hops ← Hop.readAll chain rest
      return { entity := String.ofList entity, hops }
    | _ => refuse .tooShort

/-- Reads a chain where `n` chains can be read inside each other. One more ends with `bottom`. -/
def readWithin (bottom : ε) : Nat → List Char → Except ε Chain
  | 0, _ => .error bottom
  | n + 1, cs => readWith (readWithin bottom n) cs

/-- Reads a chain with as much room as it needs. There are never more chains inside each other than
the text has characters, and a text without characters is too short for a chain. -/
def read (cs : List Char) : Except SyntaxError Chain :=
  readWithin .tooShort cs.length cs

/-- Reads a chain where there is room for so many chains inside each other. -/
def readIn (room : Nat) (cs : List Char) : Except Stop Chain :=
  readWithin .tooDeep room cs

end Chain

namespace Pattern

/-- Reads a line with `chain`: a main chain, and behind each mark `>>` a post-processing chain. -/
def readWith (chain : List Char → Except ε Chain) (cs : List Char) : Except ε Pattern := do
  let pieces := Pieces.cut (·.kind == .post) cs
  let main ← chain (Text.trim (Token.charsOf pieces.first))
  let post ← pieces.rest.mapM fun (_, ts) => chain (Text.trim (Token.charsOf ts))
  return { main, post }

def read (cs : List Char) : Except SyntaxError Pattern :=
  readWith Chain.read cs

def readIn (room : Nat) (cs : List Char) : Except Stop Pattern :=
  readWith (Chain.readIn room) cs

end Pattern

end Readers

end TransferFlow
