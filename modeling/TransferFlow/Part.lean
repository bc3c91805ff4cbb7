import TransferFlow.Grouping
import TransferFlow.SyntaxError

namespace TransferFlow

/-- An arrow, or a text between arrows. -/
inductive Part where
  | arrow (a : Arrow)
  | text (cs : List Char)
  deriving DecidableEq, Repr

namespace Part

def chars : Part → List Char
  | .arrow a => a.chars
  | .text cs => cs

def isArrow : Part → Bool
  | .arrow _ => true
  | .text _ => false

/-- The part that a text is: an arrow if it spells one. -/
def ofChars (cs : List Char) : Part :=
  if cs = Arrow.forward.chars then .arrow .forward
  else if cs = Arrow.reverse.chars then .arrow .reverse
  else .text cs

/-- The parts of a chain. Texts that are blank give none. -/
def split (cs : List Char) : List Part :=
  (((Pieces.cut Token.isArrow cs).interleaved.map Text.trim).filter (!·.isEmpty)).map ofChars

/-- Reads the arrow and the entity that close a hop opened by `a`, from the parts behind its step.
They are the first two of these parts. -/
def closing (a : Arrow) (wording : String) : List Part → Except SyntaxError String
  | [] => .error (.missingArrow wording)
  | .text found :: _ => .error (.expectedArrow (String.ofList found))
  | .arrow b :: rest =>
    if b ≠ a then .error (.inconsistentArrows a b)
    else
      match rest with
      | .text target :: _ => .ok (String.ofList target)
      | _ => .error .missingEntity

end Part

end TransferFlow
