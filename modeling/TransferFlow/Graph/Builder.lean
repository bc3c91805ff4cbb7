import TransferFlow.Graph

namespace TransferFlow

inductive MissingEnd where
  | from
  | to
  deriving DecidableEq, Repr

def MissingEnd.message : MissingEnd → String
  | .from => "Edge missing from node id"
  | .to => "Edge missing to node id"

/-- A note that an edge lacks an end. -/
structure Warning where
  missing : MissingEnd
  fromLabel : Option String
  toLabel : String
  protocol : String
  deriving DecidableEq, Repr

/-- The entity that each fan-out branch has reached, by the position of the branch. -/
structure Reached where
  entries : List (Option Int × String)
  deriving DecidableEq, Repr

namespace Reached

def empty : Reached :=
  { entries := [] }

def get? (r : Reached) (step : Option Int) : Option String :=
  r.entries.lookup step

def set (r : Reached) (step : Option Int) (label : String) : Reached :=
  { entries := (step, label) :: r.entries.filter (·.1 != step) }

/-- Notes an entity for a branch that has reached none yet. -/
def setNew (r : Reached) (step : Option Int) (label : String) : Reached :=
  if (r.get? step).isSome then r else r.set step label

end Reached

/-- What is known while segments are read in order. -/
structure Builder where
  nodes : List Node
  edges : List Edge
  warnings : List Warning
  /-- The entity that the next connection starts from, and whether it is in post-processing. -/
  lastLabel : Option String
  lastIsPost : Bool
  /-- The entity that all branches of the current group start from. -/
  groupSource : Option String
  reached : Reached
  /-- The position of the fan-out branch opened last. -/
  activeOutput : Option Int
  deriving DecidableEq, Repr

namespace Builder

def empty : Builder :=
  { nodes := [], edges := [], warnings := [], lastLabel := none, lastIsPost := false,
    groupSource := none, reached := .empty, activeOutput := none }

def resetGroup (b : Builder) : Builder :=
  { b with groupSource := none, reached := .empty, activeOutput := none }

def node? (b : Builder) (isPost : Bool) (label : String) : Option Node :=
  b.nodes.find? fun n => n.isPost == isPost && n.label == label

/-- The node that a label means. Post-processing has labels of its own; it looks among its own nodes
first and among the main ones then, so a chain that names a main node joins it. -/
def lookup (b : Builder) (label : Option String) (isPost : Bool) : Option Node :=
  match label with
  | none => none
  | some l => if isPost then b.node? true l <|> b.node? false l else b.node? false l

def addNode (b : Builder) (label : String) (isPost : Bool) : Builder :=
  if (b.lookup (some label) isPost).isSome then b
  else
    { b with nodes := b.nodes ++ [{
        id := "node_" ++ toString b.nodes.length
        label
        role := .intermediate
        index := b.nodes.length
        isPost }] }

def markSource (b : Builder) (position : Nat) : Builder :=
  { b with nodes := b.nodes.modify position fun n => { n with role := .source } }

/-- An entity of a branch moves that branch alone. Any other entity is where the next connection
starts, and ends the current group. -/
def visitEntity (b : Builder) (e : EntitySegment) : Builder :=
  match e.branch with
  | .output | .continuation =>
    match (if e.step = some 0 then none else e.step) <|> b.activeOutput with
    | some step => { b with reached := b.reached.set (some step) e.label }
    | none => b
  | _ => { b with lastLabel := some e.label, lastIsPost := e.isPost }.resetGroup

/-- What a connection does to the group it belongs to, before its edge is added: the first one of a
group fixes the group's source, a branch opens, and a connection outside all groups ends the group. -/
def openGroup (b : Builder) (c : ConnectionSegment) : Builder :=
  match c.branch with
  | .input => { b with groupSource := b.groupSource <|> b.lastLabel }
  | .output =>
    { b with
      groupSource := b.groupSource <|> b.lastLabel
      activeOutput := c.step
      reached := b.reached.setNew c.step c.target }
  | .continuation => b
  | .none => b.resetGroup

/-- The label that a connection starts from, once its group is open. -/
def sourceLabel (b : Builder) (c : ConnectionSegment) : Option String :=
  match c.branch with
  | .input | .output => b.groupSource
  | .continuation => b.reached.get? c.step <|> b.lastLabel
  | .none => b.lastLabel

def sourceIsPost (b : Builder) (c : ConnectionSegment) : Bool :=
  match c.branch with
  | .continuation => c.isPost
  | _ => b.lastIsPost

def edge (index : Nat) (c : ConnectionSegment) (fromLabel : Option String)
    (fromNode toNode : Option Node) : Edge :=
  { id := "edge_" ++ toString index
    fromLabel
    toLabel := c.target
    fromId := fromNode.map (·.id)
    toId := toNode.map (·.id)
    protocol := c.protocol
    direction := c.direction
    arrow := c.arrow
    flowDirection := .ofArrow c.arrow
    branch := c.branch
    step := c.step
    isPost := c.isPost
    startsPost := c.startsPost
    index }

def warningsOf (e : Edge) : List Warning :=
  (if e.fromId.isNone then
    [{ missing := .from, fromLabel := e.fromLabel, toLabel := e.toLabel, protocol := e.protocol }]
  else []) ++
  (if e.toId.isNone then
    [{ missing := .to, fromLabel := e.fromLabel, toLabel := e.toLabel, protocol := e.protocol }]
  else [])

def addEdge (b : Builder) (e : Edge) : Builder :=
  { b with edges := b.edges ++ [e], warnings := b.warnings ++ warningsOf e }

/-- Where things stand behind a connection. -/
def moveOn (b : Builder) (c : ConnectionSegment) : Builder :=
  match c.branch with
  | .continuation => { b with reached := b.reached.set c.step c.target }
  | .none => { b with lastLabel := some c.target, lastIsPost := c.isPost }
  | _ => b

/-- A connection adds one edge. Its ends are looked up once its group is open, and the next connection
starts from where it leads. -/
def visitConnection (b : Builder) (c : ConnectionSegment) : Builder :=
  let opened := b.openGroup c
  let fromLabel := opened.sourceLabel c
  let fromNode := opened.lookup fromLabel (opened.sourceIsPost c)
  let toNode := opened.lookup (some c.target) c.isPost
  (opened.addEdge (edge opened.edges.length c fromLabel fromNode toNode)).moveOn c

def visit (b : Builder) : Segment → Builder
  | .entity e => b.visitEntity e
  | .connection c => b.visitConnection c

def introduce (b : Builder) : Segment → Builder
  | .entity e => b.addNode e.label e.isPost
  | .connection _ => b

/-- The role of a node in view of all edges: a source stays one, and a main node that no main edge
leaves is a target. -/
def roleOf (edges : List Edge) (n : Node) : Role :=
  if n.role = .source then .source
  else if n.isPost then .intermediate
  else if edges.any fun e => !e.isPost && e.fromId == some n.id then .intermediate
  else .target

def targetLastPost : List Node → List Node
  | [] => []
  | n :: rest =>
    if n.isPost && !rest.any (·.isPost) then { n with role := .target } :: rest
    else n :: targetLastPost rest

def assignRoles (b : Builder) : Builder :=
  { b with nodes := targetLastPost (b.nodes.map fun n => { n with role := roleOf b.edges n }) }

def firstMain? (b : Builder) : Option Nat :=
  b.nodes.findIdx? (!·.isPost)

/-- The nodes of all entities, the first main one being the source. -/
def withNodes (segments : List Segment) : Builder :=
  let b := segments.foldl introduce empty
  match b.firstMain? with
  | some position => b.markSource position
  | none => b

/-- Reads all segments: nodes first, then edges, then roles. -/
def build (segments : List Segment) : Builder :=
  (segments.foldl visit (withNodes segments)).assignRoles

def graph (b : Builder) : Graph :=
  { nodes := b.nodes, edges := b.edges }

end Builder

def Graph.ofSegments (segments : List Segment) : Graph :=
  (Builder.build segments).graph

end TransferFlow
