import TransferFlow.Document

namespace TransferFlow

/-- Puts a text into a strictly ascending list, unless it is there already. -/
def insertSorted (x : String) : List String → List String
  | [] => [x]
  | y :: rest =>
    if x < y then x :: y :: rest
    else if x = y then y :: rest
    else y :: insertSorted x rest

/-- The texts of a list, each once, in ascending order. -/
def sortedSet (xs : List String) : List String :=
  xs.foldr insertSorted []

/-- Counts one more occurrence. Texts stand in order of first occurrence. -/
def bump (x : String) : List (String × Nat) → List (String × Nat)
  | [] => [(x, 1)]
  | (y, n) :: rest => if x = y then (y, n + 1) :: rest else (y, n) :: bump x rest

/-- How often each text occurs, in order of first occurrence. -/
def tally (xs : List String) : List (String × Nat) :=
  xs.foldl (fun counts x => bump x counts) []

/-- An edge as a summary lists it. -/
structure ConnectionSummary where
  fromLabel : Option String
  toLabel : String
  protocol : String
  direction : Direction
  flowDirection : FlowDirection
  deriving DecidableEq, Repr

/-- One flow, counted and listed. -/
structure FlowSummary where
  lineNumber : Int
  pattern : String
  nodeCount : Nat
  edgeCount : Nat
  source : Option String
  intermediates : List String
  targets : List String
  capabilities : List String
  inputCount : Nat
  outputCount : Nat
  continuationCount : Nat
  postCount : Nat
  bridges : List String
  unresolvedEdges : List String
  connections : List ConnectionSummary
  deriving DecidableEq, Repr

/-- A document, counted as a whole and flow by flow. -/
structure DocumentSummary where
  flowCount : Nat
  errorCount : Nat
  nodeCount : Nat
  edgeCount : Nat
  capabilities : List (String × Nat)
  flows : List FlowSummary
  errors : List LineError
  deriving DecidableEq, Repr

def Edge.summary (e : Edge) : ConnectionSummary :=
  { fromLabel := e.fromLabel, toLabel := e.toLabel, protocol := e.protocol,
    direction := e.direction, flowDirection := e.flowDirection }

def Graph.capabilities (g : Graph) : List String :=
  g.edges.map Edge.capability

def Flow.summary (f : Flow) : FlowSummary :=
  { lineNumber := f.lineNumber
    pattern := f.originalText
    nodeCount := f.nodes.length
    edgeCount := f.edges.length
    source := f.source.map (·.label)
    intermediates := f.intermediates.map (·.label)
    targets := f.targets.map (·.label)
    capabilities := sortedSet f.capabilities
    inputCount := f.edges.countP (·.branch == .input)
    outputCount := f.edges.countP (·.branch == .output)
    continuationCount := f.edges.countP (·.branch == .continuation)
    postCount := f.edges.countP (·.isPost)
    bridges := f.bridges.map (·.label)
    unresolvedEdges := (f.edges.filter (!·.isResolved)).map (·.id)
    connections := f.edges.map Edge.summary }

def ParseResult.summary (r : ParseResult) : DocumentSummary :=
  { flowCount := r.flows.length
    errorCount := r.errors.length
    nodeCount := (r.flows.flatMap fun f => f.nodes).length
    edgeCount := (r.flows.flatMap fun f => f.edges).length
    capabilities := tally (r.flows.flatMap fun f => f.capabilities)
    flows := r.flows.map Flow.summary
    errors := r.errors }

end TransferFlow
