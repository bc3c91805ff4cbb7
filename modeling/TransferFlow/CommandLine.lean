import TransferFlow.Service

namespace TransferFlow

inductive Switch where
  | help
  | flowsDir
  | debug
  | version
  deriving DecidableEq, Repr

namespace Switch

def spellings : List (String × Switch) :=
  [("-h", .help), ("--help", .help), ("--flows-dir", .flowsDir), ("--debug", .debug),
    ("--version", .version)]

def spelled? (text : List Char) : Option Switch :=
  spellings.lookup (String.ofList text)

def startingWith (text : List Char) : List Switch :=
  (spellings.filter fun (name, _) => text.isPrefixOf name.toList).map (·.2)

end Switch

/-- What one argument is. -/
inductive Argument where
  | switch (s : Switch) (attached : Option String)
  | value (text : String)
  /-- Two dashes alone, behind which everything is a value. -/
  | separator
  | unknown
  | ambiguous
  deriving DecidableEq, Repr

namespace Argument

def isDigit (c : Char) : Bool :=
  (Text.digitValue? c).isSome

/-- A dash and a decimal number, which one line feed may follow: such an argument is a value. -/
def isNegativeNumber (text : List Char) : Bool :=
  match text with
  | '-' :: rest =>
    let number := if rest.getLast? == some '\n' then rest.dropLast else rest
    let fraction := (number.dropWhile isDigit)
    if fraction.isEmpty then !number.isEmpty
    else
      match fraction with
      | '.' :: digits => !digits.isEmpty && digits.all isDigit
      | _ => false
  | _ => false

/-- Splits an argument at its first equals sign. -/
def splitAttached (text : List Char) : List Char × Option String :=
  match text.dropWhile (· != '=') with
  | _ :: attached => (text.takeWhile (· != '='), some (String.ofList attached))
  | [] => (text, none)

/-- What an argument abbreviates: with two dashes any start of a spelling, with one dash a letter with
its value right behind it. -/
def abbreviated (text : List Char) : List Argument :=
  match text with
  | '-' :: '-' :: _ =>
    let (name, attached) := splitAttached text
    (Switch.startingWith name).map fun s => .switch s attached
  | _ =>
    let short := (Switch.spelled? (text.take 2)).toList.map fun s =>
      .switch s (some (String.ofList (text.drop 2)))
    short ++ (Switch.startingWith text).map fun s => .switch s none

/-- Sorts an argument that starts with a dash and spells no option alone. -/
def ofDashed (arg : String) (text : List Char) : Argument :=
  match splitAttached text with
  | (name, some attached) =>
    match Switch.spelled? name with
    | some s => .switch s (some attached)
    | none => guess
  | _ => guess
where
  guess : Argument :=
    match abbreviated text with
    | [found] => found
    | _ :: _ => .ambiguous
    | [] => if isNegativeNumber text || text.contains ' ' then .value arg else .unknown

def ofString (arg : String) : Argument :=
  match arg.toList with
  | [] => .value arg
  | ['-'] => .value arg
  | ['-', '-'] => .separator
  | '-' :: rest =>
    match Switch.spelled? ('-' :: rest) with
    | some s => .switch s none
    | none => ofDashed arg ('-' :: rest)
  | _ => .value arg

def sortAll : List String → List Argument
  | [] => []
  | arg :: rest =>
    match ofString arg with
    | .separator => .separator :: rest.map .value
    | found => found :: sortAll rest

end Argument

/-- What a command line asks for. -/
inductive Invocation where
  | misuse
  | help
  | version
  /-- To run the service. An empty directory counts as none. -/
  | serve (flowsDir : String) (debug : Bool)
  deriving DecidableEq, Repr

namespace Invocation

/-- The directory that a value attached to its option names. Two dashes alone name none. -/
def attachedDirectory (value : String) : String :=
  if value = "--" then "" else value

/-- Lets arguments take effect from left to right, after `flowsDir` and `debug` were set. `spare`
tells that an argument was left over, which spoils the invocation in the end. -/
def follow (flowsDir : String) (debug spare : Bool) : List Argument → Invocation
  | [] => if spare then .misuse else .serve flowsDir debug
  | .switch .version none :: _ => .version
  | .switch .help none :: _ => .help
  | .switch .debug none :: rest => follow flowsDir true spare rest
  | .switch .flowsDir (some dir) :: rest => follow (attachedDirectory dir) debug spare rest
  | .switch .flowsDir none :: .value dir :: rest => follow dir debug spare rest
  | .switch _ _ :: _ => .misuse
  | _ :: rest => follow flowsDir debug true rest

/-- What these arguments ask for. An ambiguous one spoils the invocation wherever it stands. -/
def ofArguments (args : List String) : Invocation :=
  let sorted := Argument.sortAll args
  if sorted.contains .ambiguous then .misuse else follow "" false false sorted

end Invocation

inductive LogLevel where
  | info
  | debug
  deriving DecidableEq, Repr

def LogLevel.text : LogLevel → String
  | .info => "INFO"
  | .debug => "DEBUG"

inductive RunEnd where
  | returned
  | exited (code : Nat)
  | failed (e : ConfigError)
  deriving DecidableEq, Repr

structure Run where
  ending : RunEnd
  output : String
  served : Bool
  level : Option LogLevel
  config : Option Config
  log : List String
  deriving DecidableEq, Repr

namespace Run

def unserved (ending : RunEnd) (output : String) : Run :=
  { ending, output, served := false, level := none, config := none, log := [] }

/-- A run with these arguments; `interrupted` tells that the user stops the service. A directory on
the command line goes before the one of the environment. -/
def ofArguments (cwd : AbsolutePath) (env : Environment) (args : List String)
    (interrupted : Bool) : Run :=
  match Invocation.ofArguments args with
  | .misuse => unserved (.exited 2) ""
  | .help => unserved (.exited 0) ""
  | .version => unserved (.exited 0) ("flow-mcp " ++ TransferFlow.version ++ "\n")
  | .serve flowsDir debug =>
    match Config.ofEnvironment cwd env with
    | .error e => unserved (.failed e) ""
    | .ok found =>
      let config := if flowsDir = "" then found else { found with flowsDir := .ofString flowsDir }
      let started := ["Starting Flow Pattern MCP Server",
        "Flows directory: " ++ config.flowsDir.text]
      { ending := if interrupted then .exited 0 else .returned
        output := ""
        served := true
        level := some (if debug then .debug else .info)
        config := some config
        log := if interrupted then started ++ ["Flow Pattern MCP Server stopped"] else started }

end Run

end TransferFlow
