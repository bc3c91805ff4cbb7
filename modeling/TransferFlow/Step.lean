import TransferFlow.Text.Blank
import TransferFlow.Token

namespace TransferFlow

/-- Which side of a connection performs the transfer. -/
inductive Direction where
  | push
  | pull
  deriving DecidableEq, Repr

def Direction.text : Direction → String
  | .push => "PUSH"
  | .pull => "PULL"

structure Step where
  protocol : String
  direction : Direction
  deriving DecidableEq, Repr

/-- How a step names what a system must be able to do. -/
def Step.capability (s : Step) : String :=
  s.protocol ++ " " ++ s.direction.text

namespace Step

/-- Whether `c` is the capital letter `letter`, its small form, or the long s in place of an S. -/
def isLetter (letter c : Char) : Bool :=
  c == letter || c == letter.toLower || (letter == 'S' && c == 'ſ')

/-- Whether `cs` spells `word`, given in capitals, in any case. -/
def spells (word cs : List Char) : Bool :=
  word.length == cs.length && (word.zip cs).all fun (letter, c) => isLetter letter c

/-- Reads a direction at the start of a text and returns what follows it. -/
def direction? (cs : List Char) : Option (Direction × List Char) :=
  let word := cs.take 4
  if spells ['P', 'U', 'L', 'L'] word then some (.pull, cs.drop 4)
  else if spells ['P', 'U', 'S', 'H'] word then some (.push, cs.drop 4)
  else none

def blanksAndDirection? (cs : List Char) : Option (Direction × List Char) :=
  match cs with
  | c :: rest => if Text.isBlank c then direction? (rest.dropWhile Text.isBlank) else none
  | [] => none

/-- The end of a text, which one line feed may precede. -/
def isEnd (cs : List Char) : Bool :=
  cs == [] || cs == ['\n']

/-- Splits a text after its shortest nonempty beginning behind which `tail?` can read. The beginning
stays on one line. -/
def shortestPrefix {α : Type} (tail? : List Char → Option α) : List Char → Option (List Char × α)
  | [] => none
  | c :: rest =>
    if c = '\n' then none
    else
      match tail? rest with
      | some found => some ([c], found)
      | none => (shortestPrefix tail? rest).map fun (before, found) => (c :: before, found)

def finalDirection? (cs : List Char) : Option Direction :=
  match blanksAndDirection? cs with
  | some (d, rest) => if isEnd rest then some d else none
  | none => none

def read? (cs : List Char) : Option Step :=
  (shortestPrefix finalDirection? cs).map fun (before, d) =>
    { protocol := String.ofList (Text.trim before), direction := d }

def arrow? : List Char → Option (Arrow × List Char)
  | '-' :: '>' :: rest => some (.forward, rest)
  | '<' :: '-' :: rest => some (.reverse, rest)
  | _ => none

/-- The last line of a text, if it is not empty and the lines before it are blank. A line feed at the
end of the text does not start a new line. -/
def onward? (cs : List Char) : Option (List Char) :=
  let backwards := match cs.reverse with
    | '\n' :: rest => rest
    | rest => rest
  let line := backwards.takeWhile (· != '\n')
  if !line.isEmpty && Text.isBlankText (backwards.dropWhile (· != '\n')) then some line.reverse
  else none

def directionAndOnward? (cs : List Char) : Option (Direction × Arrow × List Char) := do
  let (d, rest) ← blanksAndDirection? cs
  let (a, behind) ← arrow? (rest.dropWhile Text.isBlank)
  let onward ← onward? behind
  return (d, a, onward)

/-- Reads the head of a fan-out branch: its step, its arrow and the trimmed text behind the arrow,
which starts with the target of the branch. -/
def readBranch? (cs : List Char) : Option (Step × Arrow × List Char) :=
  (shortestPrefix directionAndOnward? cs).map fun (before, d, a, onward) =>
    ({ protocol := String.ofList (Text.trim before), direction := d }, a, Text.trim onward)

end Step

end TransferFlow
