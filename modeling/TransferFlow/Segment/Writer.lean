import TransferFlow.Pattern.Writer
import TransferFlow.Segment

namespace TransferFlow

namespace ConnectionSegment

def asLeg (c : ConnectionSegment) : Leg :=
  { arrow := c.arrow, step := { protocol := c.protocol, direction := c.direction }, target := c.target }

end ConnectionSegment

namespace Segment

def continuesFanIn : List Segment → Bool
  | .connection c :: _ => c.branch == .input
  | _ => false

/-- Whether a fan-out goes on with these segments. A branch at position one opens a fan-out of its own. -/
def continuesFanOut : List Segment → Bool
  | .connection c :: _ => c.branch == .continuation || (c.branch == .output && c.step != some 1)
  | .entity e :: _ => e.branch == .continuation || e.branch == .output
  | [] => false

/-- Whether a post-processing chain starts with these segments, right behind its entity. -/
def startsPost : List Segment → Bool
  | .connection c :: _ => c.startsPost
  | _ => false

/-- Writes segments that stand behind the entity of a chain. `inFanIn` tells that the segment before them is a
step of a fan-in. -/
def writeBehind (inFanIn : Bool) : List Segment → List Char
  | [] => []
  | .entity e :: rest =>
    (match e.branch with
      | .output | .continuation => if continuesFanOut rest then [] else [')']
      | _ => if startsPost rest then [' ', '>', '>', ' '] ++ e.label.toList else []) ++
    writeBehind false rest
  | .connection c :: rest =>
    match c.branch with
    | .none => c.asLeg.write ++ writeBehind false rest
    | .continuation =>
      c.asLeg.write ++ (if continuesFanOut rest then [] else [')']) ++ writeBehind false rest
    | .output =>
      (if c.step = some 1 then [' '] ++ c.arrow.chars ++ [' ', '('] else [' ', '&', ' ']) ++
        c.asLeg.step.write ++ [' '] ++ c.arrow.chars ++ [' '] ++ c.target.toList ++
        (if continuesFanOut rest then [] else [')']) ++ writeBehind false rest
    | .input =>
      (if inFanIn then [' ', '&', ' '] else [' '] ++ c.arrow.chars ++ [' ', '(']) ++ c.asLeg.step.write ++
        (if continuesFanIn rest then [] else [')', ' '] ++ c.arrow.chars ++ [' '] ++ c.target.toList) ++
        writeBehind true rest

def writeLine : List Segment → List Char
  | .entity e :: rest => e.label.toList ++ writeBehind false rest
  | segs => writeBehind false segs

end Segment

end TransferFlow
