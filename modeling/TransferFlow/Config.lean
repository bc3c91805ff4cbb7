import TransferFlow.FilePath
import TransferFlow.Text.LowerCase
import TransferFlow.Text.Numeral

namespace TransferFlow

/-- Which documents may be read: those at or below `flowsDir`, of an allowed kind and size. -/
structure Config where
  flowsDir : FilePath
  allowedExtensions : List String
  /-- The size in bytes that a document may have; without it no size can be judged. -/
  maxFileSize : Option Int
  deriving DecidableEq, Repr

structure Environment where
  flowsDir : Option String
  extensions : Option String
  maxFileSize : Option String
  deriving DecidableEq, Repr

def Environment.empty : Environment :=
  { flowsDir := none, extensions := none, maxFileSize := none }

inductive ConfigError where
  /-- The size limit is no whole number. -/
  | malformedSize (found : String)
  deriving DecidableEq, Repr

namespace Config

def defaultExtensions : List String :=
  [".flow", ".txt"]

def defaultMaxFileSize : Int :=
  1024 * 1024

/-- A configuration whose missing parts have their default: the directory `flows` in the working
directory, and the default extensions. -/
def make (cwd : AbsolutePath) (flowsDir : Option String) (extensions : Option (List String))
    (maxFileSize : Option Int) : Config :=
  { flowsDir := (flowsDir.map FilePath.ofString).getD (cwd.toFilePath.child "flows")
    allowedExtensions := extensions.getD defaultExtensions
    maxFileSize }

/-- Extensions listed with commas between them; blank ones do not count. -/
def listedExtensions (text : String) : List String :=
  (((text.toList.splitOn ',').map Text.trim).filter (!·.isEmpty)).map String.ofList

/-- The configuration that an environment describes. An empty directory or list of extensions counts
as missing, and an empty size limit as malformed. -/
def ofEnvironment (cwd : AbsolutePath) (env : Environment) : Except ConfigError Config :=
  let flowsDir := env.flowsDir.filter (· != "")
  let extensions := (env.extensions.filter (· != "")).map listedExtensions
  match env.maxFileSize with
  | none => .ok (make cwd flowsDir extensions (some defaultMaxFileSize))
  | some text =>
    match Text.integer? text.toList with
    | some size => .ok (make cwd flowsDir extensions (some size))
    | none => .error (.malformedSize text)

/-- Capital and small letters of an extension are the same. -/
def isAllowedFile (c : Config) (p : FilePath) : Bool :=
  (c.allowedExtensions.map fun e => Text.lower e.toList).contains (Text.lower p.suffix)

end Config

/-- A configuration in force. `serial` tells apart configurations put in force at different times,
even if they are equal. -/
structure ActiveConfig where
  config : Config
  serial : Nat
  deriving DecidableEq, Repr

/-- The environment, the configuration in force if there is one, and how many have been put in force. -/
structure Settings where
  environment : Environment
  active : Option ActiveConfig
  issued : Nat
  deriving DecidableEq, Repr

namespace Settings

def initial (env : Environment) : Settings :=
  { environment := env, active := none, issued := 0 }

def set (s : Settings) (config : Option Config) : Settings :=
  match config with
  | some c => { s with active := some { config := c, serial := s.issued }, issued := s.issued + 1 }
  | none => { s with active := none }

/-- The configuration in force. Where there is none, the one that the environment describes is put
in force; a malformed environment changes nothing. -/
def get (cwd : AbsolutePath) (s : Settings) : Except ConfigError ActiveConfig × Settings :=
  match s.active with
  | some a => (.ok a, s)
  | none =>
    match Config.ofEnvironment cwd s.environment with
    | .error e => (.error e, s)
    | .ok c =>
      let a : ActiveConfig := { config := c, serial := s.issued }
      (.ok a, { s with active := some a, issued := s.issued + 1 })

end Settings

end TransferFlow
