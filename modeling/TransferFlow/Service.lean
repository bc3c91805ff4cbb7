import TransferFlow.Access
import TransferFlow.Summary

namespace TransferFlow

def version : String :=
  "0.1.0"

/-- What the validation tool tells about a document. -/
structure Validation where
  isValid : Bool
  errors : List String
  details : List LineError
  flowCount : Nat
  deriving DecidableEq, Repr

/-- What the validation endpoint tells about a document. -/
structure SyntaxCheck where
  isValid : Bool
  flowCount : Nat
  errors : List LineError
  deriving DecidableEq, Repr

def ParseResult.validation (r : ParseResult) : Validation :=
  { isValid := r.isValid, errors := r.errors.map LineError.text, details := r.errors,
    flowCount := r.flows.length }

def ParseResult.syntaxCheck (r : ParseResult) : SyntaxCheck :=
  { isValid := r.isValid, flowCount := r.flows.length, errors := r.errors }

/-- What the service tells about itself. -/
structure ServiceInfo where
  name : String
  version : String
  /-- What each endpoint does, by its name. -/
  endpoints : List (String × String)
  deriving DecidableEq, Repr

def serviceInfo : ServiceInfo :=
  { name := "Flow Pattern API"
    version := version
    endpoints := [
      ("parse", "POST /parse - Parse patterns into flow graphs"),
      ("validate", "POST /validate - Check pattern syntax"),
      ("analyze", "POST /analyze - Summarize flow structure")] }

/-- The answer to a request. -/
inductive Answer where
  | result (r : ParseResult)
  | validation (v : Validation)
  | syntaxCheck (c : SyntaxCheck)
  | summary (s : DocumentSummary)
  | info (i : ServiceInfo)
  | healthy
  deriving Repr

/-- Tools that work on the text of a document. -/
inductive Tool where
  | parseFlows
  | validateFlows
  | getFlowInfo
  deriving DecidableEq, Repr

namespace Tool

def all : List Tool :=
  [.parseFlows, .validateFlows, .getFlowInfo]

def name : Tool → String
  | .parseFlows => "parse_flows"
  | .validateFlows => "validate_flows"
  | .getFlowInfo => "get_flow_info"

def ofName? (name : String) : Option Tool :=
  all.find? (·.name == name)

/-- How a tool that fails tells what came up. -/
def failure (t : Tool) (cause : String) : String :=
  match t with
  | .parseFlows => "Error parsing flows: " ++ cause
  | .validateFlows => "Error validating flows: " ++ cause
  | .getFlowInfo => "Error analyzing flows: " ++ cause

/-- Answers with the document, if it has a result. `deep` is what comes up where it has none. -/
def run (room : Nat) (deep : String) (t : Tool) (text : String) : Except String Answer :=
  match parseDocumentIn room text with
  | none => .error (t.failure deep)
  | some r =>
    .ok <| match t with
      | .parseFlows => .result r
      | .validateFlows => .validation r.validation
      | .getFlowInfo => .summary r.summary

end Tool

/-- What a request can ask for. -/
inductive Endpoint where
  | root
  | health
  | parse
  | validate
  | analyze
  deriving DecidableEq, Repr

namespace Endpoint

def all : List Endpoint :=
  [.root, .health, .parse, .validate, .analyze]

def name : Endpoint → String
  | .root => "root"
  | .health => "health"
  | .parse => "parse"
  | .validate => "validate"
  | .analyze => "analyze"

def ofName? (name : String) : Option Endpoint :=
  all.find? (·.name == name)

/-- Answers with a document, if it has a result. `task` says what was asked for. -/
def ofDocument (room : Nat) (deep task : String) (answer : ParseResult → Answer) (text : String) :
    Except String Answer :=
  match parseDocumentIn room text with
  | none => .error ("Failed to " ++ task ++ " flows: " ++ deep)
  | some r => .ok (answer r)

/-- Answers a request. The endpoints about the service itself take no notice of the text. -/
def respond (room : Nat) (deep : String) (e : Endpoint) (text : String) : Except String Answer :=
  match e with
  | .root => .ok (.info serviceInfo)
  | .health => .ok .healthy
  | .parse => ofDocument room deep "parse" .result text
  | .validate => ofDocument room deep "validate" (.syntaxCheck ·.syntaxCheck) text
  | .analyze => ofDocument room deep "analyze" (.summary ·.summary) text

end Endpoint

/-- A stored document that has been read and parsed. -/
structure DocumentReport where
  path : String
  text : String
  result : ParseResult
  deriving DecidableEq, Repr

/-- What reading a stored document tells on the way, and what comes of it. -/
structure Reading where
  messages : List String
  outcome : Except ReadFailure DocumentReport

/-- The report of a failure. Refusals speak for themselves, `describe` names any other cause. That a
line is too deep shows only after the reading. -/
def ReadFailure.report (describe : ReadFailure → String) (e : ReadFailure) : String :=
  match e with
  | .refused r => r.message
  | .tooDeep => describe .tooDeep
  | other => "Error reading flows: " ++ describe other

/-- Reads and parses a stored document under a configuration, if there is one. -/
def readFlows (room : Nat) (cwd : AbsolutePath) (fs : FileSystem) (feed : Feed)
    (config : Except ConfigError Config) (filepath : String) : Reading :=
  let announced := "Reading flows from " ++ filepath
  match config.mapError ReadFailure.unconfigured >>= (loadDocument cwd fs feed · filepath) with
  | .error e => { messages := [announced], outcome := .error e }
  | .ok text =>
    match parseDocumentIn room text with
    | none => { messages := [announced], outcome := .error .tooDeep }
    | some result =>
      let finished := "✓ Parsed " ++ toString result.flows.length ++ " flows, " ++
        toString result.errors.length ++ " errors"
      { messages := [announced, finished], outcome := .ok { path := filepath, text, result } }

end TransferFlow
