import TransferFlow.Graph.Builder

namespace TransferFlow

/-- Where the node of each label stands. -/
structure LabelTable where
  entries : List (String × Nat)
  deriving DecidableEq, Repr

namespace LabelTable

def empty : LabelTable :=
  { entries := [] }

def get? (t : LabelTable) (label : String) : Option Nat :=
  t.entries.lookup label

def set (t : LabelTable) (label : String) (place : Nat) : LabelTable :=
  { entries := (label, place) :: t.entries.filter (·.1 != label) }

end LabelTable

/-- One step of building a graph. -/
inductive BuilderStep where
  | addNode (label : String) (isPost : Bool)
  | lookup (label : Option String) (isPost : Bool)
  | resetGroup
  | markSource (place : Nat)
  | assignRoles
  | visit (s : Segment)
  deriving DecidableEq, Repr

/-- What a step does to a builder. To look a label up changes nothing. -/
def Builder.take (b : Builder) : BuilderStep → Builder
  | .addNode label isPost => b.addNode label isPost
  | .lookup _ _ => b
  | .resetGroup => b.resetGroup
  | .markSource place => b.markSource place
  | .assignRoles => b.assignRoles
  | .visit s => b.visit s

/-- A builder, and the tables of its nodes. -/
structure TabledBuilder where
  builder : Builder
  mainTable : LabelTable
  postTable : LabelTable
  deriving DecidableEq, Repr

namespace TabledBuilder

def empty : TabledBuilder :=
  { builder := .empty, mainTable := .empty, postTable := .empty }

/-- The table of one flow. -/
def table (t : TabledBuilder) (isPost : Bool) : LabelTable :=
  if isPost then t.postTable else t.mainTable

/-- Where the node stands that a label means. In post-processing the main flow is asked last. -/
def place? (t : TabledBuilder) (isPost : Bool) (label : String) : Option Nat :=
  if isPost then t.postTable.get? label <|> t.mainTable.get? label else t.mainTable.get? label

/-- The node that a label means, read off the tables. -/
def lookup (t : TabledBuilder) (label : Option String) (isPost : Bool) : Option Node := do
  let place ← t.place? isPost (← label)
  t.builder.nodes[place]?

/-- Notes in the table of its flow where the node of a label stands. -/
def note (t : TabledBuilder) (label : String) (isPost : Bool) (place : Nat) : TabledBuilder :=
  if isPost then { t with postTable := t.postTable.set label place }
  else { t with mainTable := t.mainTable.set label place }

/-- Adds a node for a label that means none yet, and notes where it stands. -/
def addNode (t : TabledBuilder) (label : String) (isPost : Bool) : TabledBuilder :=
  if (t.lookup (some label) isPost).isSome then t
  else
    let place := t.builder.nodes.length
    { t.note label isPost place with
      builder := { t.builder with nodes := t.builder.nodes ++ [{
        id := "node_" ++ toString place, label, role := .intermediate, index := place, isPost }] } }

/-- A connection adds one edge, whose ends are read off the tables. -/
def visitConnection (t : TabledBuilder) (c : ConnectionSegment) : TabledBuilder :=
  let opened := t.builder.openGroup c
  let fromLabel := opened.sourceLabel c
  let fromNode := t.lookup fromLabel (opened.sourceIsPost c)
  let toNode := t.lookup (some c.target) c.isPost
  { t with
    builder := (opened.addEdge (Builder.edge opened.edges.length c fromLabel fromNode toNode)).moveOn c }

def take (t : TabledBuilder) : BuilderStep → TabledBuilder
  | .addNode label isPost => t.addNode label isPost
  | .lookup _ _ => t
  | .resetGroup => { t with builder := t.builder.resetGroup }
  | .markSource place => { t with builder := t.builder.markSource place }
  | .assignRoles => { t with builder := t.builder.assignRoles }
  | .visit (.entity e) => { t with builder := t.builder.visitEntity e }
  | .visit (.connection c) => t.visitConnection c

/-- Takes steps one after another, from nothing. -/
def run (steps : List BuilderStep) : TabledBuilder :=
  steps.foldl take empty

end TabledBuilder

end TransferFlow
