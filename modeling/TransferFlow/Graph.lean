import TransferFlow.Segment

namespace TransferFlow

/-- The place of a node in its graph. -/
inductive Role where
  | source
  | intermediate
  | target
  deriving DecidableEq, Repr

def Role.text : Role → String
  | .source => "source"
  | .intermediate => "intermediate"
  | .target => "target"

/-- Which end of an edge performs the action. -/
inductive FlowDirection where
  | forward
  | reverse
  deriving DecidableEq, Repr

def FlowDirection.text : FlowDirection → String
  | .forward => "forward"
  | .reverse => "reverse"

def FlowDirection.ofArrow : Arrow → FlowDirection
  | .forward => .forward
  | .reverse => .reverse

/-- An entity. `isPost` tells that it belongs to post-processing alone. -/
structure Node where
  id : String
  label : String
  role : Role
  index : Int
  isPost : Bool
  deriving DecidableEq, Repr

/-- A connection between two nodes. An end without an id is an entity that no node stands for. -/
structure Edge where
  id : String
  fromLabel : Option String
  toLabel : String
  fromId : Option String
  toId : Option String
  protocol : String
  direction : Direction
  arrow : Arrow
  flowDirection : FlowDirection
  branch : BranchKind
  step : Option Int
  isPost : Bool
  startsPost : Bool
  index : Int
  deriving DecidableEq, Repr

namespace Edge

/-- The position of the fan-out branch that the edge belongs to. -/
def outputStep (e : Edge) : Option Int :=
  match e.branch with
  | .output | .continuation => e.step
  | _ => none

/-- Both ends are nodes. -/
def isResolved (e : Edge) : Bool :=
  e.fromId.isSome && e.toId.isSome

def capability (e : Edge) : String :=
  Step.capability { protocol := e.protocol, direction := e.direction }

/-- The edge as a line of a report. -/
def text (e : Edge) : String :=
  e.fromLabel.getD "None" ++ " " ++ e.arrow.text ++ " " ++ e.capability ++ " " ++ e.arrow.text ++
    " " ++ e.toLabel

/-- Whether a node of this id is an end of the edge. -/
def touches (e : Edge) (id : String) : Bool :=
  e.fromId == some id || e.toId == some id

end Edge

/-- Nodes in order of first appearance, and edges in written order. -/
structure Graph where
  nodes : List Node
  edges : List Edge
  deriving DecidableEq, Repr

namespace Graph

def empty : Graph :=
  { nodes := [], edges := [] }

/-- The first node with the role of a source. -/
def source (g : Graph) : Option Node :=
  g.nodes.find? (·.role == .source)

def targets (g : Graph) : List Node :=
  g.nodes.filter (·.role == .target)

def intermediates (g : Graph) : List Node :=
  g.nodes.filter (·.role == .intermediate)

/-- The first node with this label. -/
def nodeByLabel? (g : Graph) (label : String) : Option Node :=
  g.nodes.find? (·.label == label)

/-- The first node with this id. -/
def nodeById? (g : Graph) (id : String) : Option Node :=
  g.nodes.find? (·.id == id)

/-- Main nodes that a post-processing edge touches. -/
def bridges (g : Graph) : List Node :=
  g.nodes.filter fun n => !n.isPost && g.edges.any fun e => e.isPost && e.touches n.id

end Graph

end TransferFlow
