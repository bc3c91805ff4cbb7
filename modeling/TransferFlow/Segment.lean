import TransferFlow.Step

namespace TransferFlow

/-- The construct that a segment comes from: none, a step of a fan-in, the opening of a fan-out
branch, or what continues such a branch. -/
inductive BranchKind where
  | none
  | input
  | output
  | continuation
  deriving DecidableEq, Repr

def BranchKind.text : BranchKind → String
  | .none => "none"
  | .input => "parallel_input"
  | .output => "parallel_output"
  | .continuation => "continuation"

structure EntitySegment where
  label : String
  branch : BranchKind
  step : Option Int
  isPost : Bool
  deriving DecidableEq, Repr

/-- A step towards the entity `target`. Positions inside a group count from one; what continues a
branch has the position of that branch. -/
structure ConnectionSegment where
  arrow : Arrow
  protocol : String
  direction : Direction
  target : String
  branch : BranchKind
  step : Option Int
  isPost : Bool
  /-- Set on the first connection of a post-processing chain. -/
  startsPost : Bool
  deriving DecidableEq, Repr

/-- One piece of a pattern that is written out flat. -/
inductive Segment where
  | entity (e : EntitySegment)
  | connection (c : ConnectionSegment)
  deriving DecidableEq, Repr

namespace Segment

def text : Segment → String
  | .entity e => e.label
  | .connection c =>
    c.arrow.text ++ " " ++ c.protocol ++ " " ++ c.direction.text ++ " " ++ c.arrow.text

def connection? : Segment → Option ConnectionSegment
  | .entity _ => none
  | .connection c => some c

/-- The same segment as part of the continuation of branch `step`. -/
def continuing (step : Int) : Segment → Segment
  | .entity e => .entity { e with branch := .continuation, step := some step }
  | .connection c => .connection { c with branch := .continuation, step := some step }

/-- Makes a chain the continuation of branch `step`, which ends at `target`. The entity in front is
dropped when it repeats that target. -/
def splice (target : String) (step : Int) : List Segment → List Segment
  | [] => []
  | .entity e :: rest =>
    if e.label = target then rest.map (continuing step)
    else (.entity e :: rest).map (continuing step)
  | segments => segments.map (continuing step)

/-- Flags a chain as post-processing; its first connection starts it. `started` tells that a
connection came before. -/
def markPost (started : Bool) : List Segment → List Segment
  | [] => []
  | .entity e :: rest => .entity { e with isPost := true } :: markPost started rest
  | .connection c :: rest =>
    .connection { c with isPost := true, startsPost := c.startsPost || !started } ::
      markPost true rest

end Segment

end TransferFlow
