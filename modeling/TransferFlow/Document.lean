import TransferFlow.Pattern.Segments
import TransferFlow.Graph.Builder

namespace TransferFlow

/-- The graph of one line of a document. -/
structure Flow extends Graph where
  lineNumber : Int
  originalText : String
  deriving DecidableEq, Repr

/-- A syntax error and the line that it stands in. -/
structure LineError where
  lineNumber : Int
  kind : ErrorKind
  message : String
  deriving DecidableEq, Repr

namespace LineError

def ofSyntaxError (lineNumber : Int) (e : SyntaxError) : LineError :=
  { lineNumber, kind := e.kind, message := e.message }

def text (e : LineError) : String :=
  "Line " ++ toString e.lineNumber ++ ": " ++ e.message

/-- The entry that the error leaves in the log. -/
def logEntry (e : LineError) : String :=
  "Line " ++ toString e.lineNumber ++ " rejected: " ++ e.message

end LineError

/-- The flows and the errors of a document. -/
structure ParseResult where
  flows : List Flow
  errors : List LineError
  deriving DecidableEq, Repr

namespace ParseResult

def isValid (r : ParseResult) : Bool :=
  r.errors.isEmpty

/-- What has been logged while the document was read. -/
def log (r : ParseResult) : List String :=
  r.errors.map LineError.logEntry

end ParseResult

namespace Flow

/-- The flow of a line that was read as a pattern. -/
def ofPattern (lineNumber : Int) (line : List Char) (p : Pattern) : Flow :=
  { toGraph := .ofSegments p.segments, lineNumber, originalText := String.ofList line }

/-- Reads one trimmed line that is not blank. -/
def ofLine (lineNumber : Int) (line : List Char) : Except SyntaxError Flow :=
  (Pattern.read line).map (ofPattern lineNumber line)

/-- Reads such a line where there is room for so many chains inside each other. -/
def ofLineIn (room : Nat) (lineNumber : Int) (line : List Char) : Except Stop Flow :=
  (Pattern.readIn room line).map (ofPattern lineNumber line)

end Flow

/-- Reads one line; a blank one gives no flow. -/
def parseLine (text : String) (lineNumber : Int) : Except SyntaxError (Option Flow) :=
  if Text.isBlankText text.toList then .ok none
  else (Flow.ofLine lineNumber (Text.trim text.toList)).map some

def parseLineIn (room : Nat) (text : String) (lineNumber : Int) : Except Stop (Option Flow) :=
  if Text.isBlankText text.toList then .ok none
  else (Flow.ofLineIn room lineNumber (Text.trim text.toList)).map some

/-- The lines of a document that are not blank, trimmed. -/
def documentLines (text : List Char) : List (List Char) :=
  ((text.splitOn '\n').map Text.trim).filter (!·.isEmpty)

/-- Puts the answer of one more line in front. A flow without nodes is left out. -/
def ParseResult.push (lineNumber : Int) (answer : Except SyntaxError Flow) (r : ParseResult) :
    ParseResult :=
  match answer with
  | .error e => { r with errors := .ofSyntaxError lineNumber e :: r.errors }
  | .ok flow => if flow.nodes.isEmpty then r else { r with flows := flow :: r.flows }

/-- Reads lines that are numbered from `start`. -/
def parseLines (start : Nat) (lines : List (List Char)) : ParseResult :=
  (lines.zipIdx start).foldr
    (fun (line, n) r => r.push n (Flow.ofLine n line)) { flows := [], errors := [] }

/-- Reads a document. Lines are numbered from one, blank ones not counted. -/
def parseDocument (text : String) : ParseResult :=
  parseLines 1 (documentLines text.toList)

/-- Reads lines one by one where there is room for so many chains inside each other. A refusal is
reported, but a line that is too deep ends the reading without a result. -/
def parseLinesIn (room start : Nat) : List (List Char) → Option ParseResult
  | [] => some { flows := [], errors := [] }
  | line :: rest => do
    let answer ← Stop.answer? (Flow.ofLineIn room start line)
    let r ← parseLinesIn room (start + 1) rest
    return r.push start answer

def parseDocumentIn (room : Nat) (text : String) : Option ParseResult :=
  parseLinesIn room 1 (documentLines text.toList)

end TransferFlow
