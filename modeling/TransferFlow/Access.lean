import TransferFlow.Config
import TransferFlow.Document
import TransferFlow.FileSystem

namespace TransferFlow

/-- Why a document is not handed out. -/
inductive Refusal where
  | outside (filepath : String)
  | notFound (filepath : String)
  | unsupportedFormat (suffix : String)
  | tooLarge (filepath : String) (limit : Int)
  deriving DecidableEq, Repr

def Refusal.message : Refusal → String
  | .outside filepath => "Access denied: " ++ filepath ++ " is outside allowed directory"
  | .notFound filepath => "File not found: " ++ filepath
  | .unsupportedFormat suffix => "Unsupported file format: " ++ suffix
  | .tooLarge filepath limit =>
    "File too large: " ++ filepath ++ " exceeds " ++ toString limit ++ " bytes"

/-- Why a document is not read: it is refused, it cannot be read, its size cannot be judged because
no limit is configured, there is no configuration, or one of its lines is too deep. -/
inductive ReadFailure where
  | refused (r : Refusal)
  | unreadable (f : FileFault)
  | noSizeLimit
  | unconfigured (e : ConfigError)
  | tooDeep
  deriving DecidableEq, Repr

/-- The place that a path leads to, if it is at or below `base`. -/
def validatePath (cwd : AbsolutePath) (filepath : String) (base : FilePath) :
    Except ReadFailure AbsolutePath :=
  if filepath.toList.contains '\x00' then .error (.unreadable .nulInPath)
  else
    let place := (FilePath.ofString filepath).resolve cwd
    let baseHasNoNul := !base.text.toList.contains '\x00'
    if baseHasNoNul && place.isWithin (base.resolve cwd) then .ok place
    else .error (.refused (.outside filepath))

/-- The text of a stored document, after all checks. -/
def loadDocument (cwd : AbsolutePath) (fs : FileSystem) (feed : Feed) (config : Config)
    (filepath : String) : Except ReadFailure String := do
  let place ← validatePath cwd filepath config.flowsDir
  match fs.lookUp place with
  | .error f => .error (.unreadable f)
  | .ok none => .error (.refused (.notFound filepath))
  | .ok (some entry) =>
    if !config.isAllowedFile place.toFilePath then
      .error (.refused (.unsupportedFormat (String.ofList place.toFilePath.suffix)))
    else
      match config.maxFileSize with
      | none => .error .noSizeLimit
      | some limit =>
        if (entry.size : Int) > limit then .error (.refused (.tooLarge filepath limit))
        else (entry.text feed place).mapError .unreadable

/-- Reads a stored document without any check. -/
def parseFile (room : Nat) (cwd : AbsolutePath) (fs : FileSystem) (feed : Feed) (path : String) :
    Except ReadFailure ParseResult := do
  let text ← (fs.read feed cwd path).mapError .unreadable
  (parseDocumentIn room text).elim (.error .tooDeep) .ok

end TransferFlow
