import TransferFlow.Pattern.Reader
import TransferFlow.Segment

namespace TransferFlow

/-- An entity outside all fan-out branches. -/
def EntitySegment.plain (label : String) : EntitySegment :=
  { label, branch := .none, step := none, isPost := false }

/-- The connection that a step makes along an arrow. -/
def Step.connection (s : Step) (a : Arrow) (target : String) (branch : BranchKind)
    (step : Option Int) : ConnectionSegment :=
  { arrow := a, protocol := s.protocol, direction := s.direction, target, branch, step,
    isPost := false, startsPost := false }

namespace Leg

def segments (l : Leg) : List Segment :=
  [.connection (l.step.connection l.arrow l.target .none none), .entity (.plain l.target)]

end Leg

namespace Branch

/-- The segments of the branch at `position` of a fan-out: its opening, and the legs behind its
target as a continuation. -/
def segments (a : Arrow) (b : Branch) (position : Int) : List Segment :=
  .connection (b.step.connection a b.target .output (some position)) ::
    .entity { label := b.target, branch := .output, step := some position, isPost := false } ::
      Segment.splice b.target position
        (.entity (.plain b.target) :: b.onward.flatMap Leg.segments)

end Branch

namespace Hop

def segments : Hop → List Segment
  | .single leg => leg.segments
  | .fanIn a steps target =>
    (steps.zipIdx 1).map (fun (s, i) =>
      .connection (s.connection a target .input (some (i : Int)))) ++ [.entity (.plain target)]
  | .fanOut a branches =>
    (branches.zipIdx 1).flatMap fun (b, i) => b.segments a (i : Int)

end Hop

namespace Chain

def segments (c : Chain) : List Segment :=
  .entity (.plain c.entity) :: c.hops.flatMap Hop.segments

end Chain

namespace Pattern

/-- The segments of the main chain, and of each post-processing chain, flagged as such. -/
def segments (p : Pattern) : List Segment :=
  p.main.segments ++ p.post.flatMap fun c => Segment.markPost false c.segments

end Pattern

/-- Reads a line and writes it out as segments. -/
def tokenize (line : String) : Except SyntaxError (List Segment) :=
  (Pattern.read line.toList).map Pattern.segments

/-- Reads one chain and writes it out as segments. The mark `>>` has no meaning here. -/
def tokenizeChain (text : String) : Except SyntaxError (List Segment) :=
  (Chain.read text.toList).map Chain.segments

/-- Reads the branches of a fan-out and writes them out as segments. -/
def tokenizeBranches (a : Arrow) (branches : List String) : Except SyntaxError (List Segment) :=
  (Branch.readAll Chain.read a [] (branches.map String.toList)).map fun bs =>
    (Hop.fanOut a bs).segments

section Room

variable (room : Nat)

def tokenizeIn (line : String) : Except Stop (List Segment) :=
  (Pattern.readIn room line.toList).map Pattern.segments

def tokenizeChainIn (text : String) : Except Stop (List Segment) :=
  (Chain.readIn room text.toList).map Chain.segments

/-- The branches themselves take no room, only the chains that they continue with. -/
def tokenizeBranchesIn (a : Arrow) (branches : List String) : Except Stop (List Segment) :=
  (Branch.readAll (Chain.readIn room) a [] (branches.map String.toList)).map fun bs =>
    (Hop.fanOut a bs).segments

end Room

end TransferFlow
