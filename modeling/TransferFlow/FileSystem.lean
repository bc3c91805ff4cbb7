import TransferFlow.FilePath
import TransferFlow.Text.LineBreak

namespace TransferFlow

/-- What can be at a place. The size of what stores no bytes is the one that the system tells; a special
file is a pipe, a device, a socket, or made up as it is read. -/
inductive FileKind where
  | regular (bytes : ByteArray)
  | directory (size : Nat) (searchable : Bool)
  | special (size : Nat)

structure FileEntry where
  kind : FileKind
  readable : Bool

/-- Why a file cannot be used. -/
inductive FileFault where
  | missing
  | isDirectory
  | notDirectory
  | nameTooLong
  | denied
  | unavailable
  | nulInPath
  | notText
  deriving DecidableEq, Repr

def maxNameBytes : Nat := 255

def maxPathBytes : Nat := 4095

/-- What reading the special file at a place yields; some cannot be read at all. -/
abbrev Feed := AbsolutePath → Except FileFault ByteArray

/-- The text that bytes stand for, with every line break as a line feed. -/
def decodeDocument (bytes : ByteArray) : Except FileFault String :=
  match String.fromUTF8? bytes with
  | some text => .ok (String.ofList (Text.unifyLineBreaks text.toList))
  | none => .error .notText

namespace FileEntry

def size (e : FileEntry) : Nat :=
  match e.kind with
  | .regular bytes => bytes.size
  | .directory size _ => size
  | .special size => size

def isDirectory (e : FileEntry) : Bool :=
  match e.kind with
  | .directory _ _ => true
  | _ => false

/-- What keeps a name from being looked up in an entry. The empty name, as it follows a slash at the
end of a path, asks for a directory and no more. -/
def obstacle? (e : FileEntry) (name : String) : Option FileFault :=
  match e.kind with
  | .directory _ searchable =>
    if name = "" then none
    else if !searchable then some .denied
    else if maxNameBytes < name.utf8ByteSize then some .nameTooLong
    else none
  | _ => some .notDirectory

def content (feed : Feed) (p : AbsolutePath) (e : FileEntry) : Except FileFault ByteArray :=
  if !e.readable then .error .denied
  else
    match e.kind with
    | .regular bytes => .ok bytes
    | .directory _ _ => .error .isDirectory
    | .special _ => feed p

def text (feed : Feed) (p : AbsolutePath) (e : FileEntry) : Except FileFault String :=
  e.content feed p >>= decodeDocument

end FileEntry

/-- What exists, links apart. The root is a directory, and whatever else exists has a name and stands
in one. -/
structure FileSystem where
  entryAt? : AbsolutePath → Option FileEntry
  root : (entryAt? ⟨[]⟩).any FileEntry.isDirectory = true
  above {names : List String} {name : String} : (entryAt? ⟨names ++ [name]⟩).isSome = true →
    IsName name ∧ (entryAt? ⟨names⟩).any FileEntry.isDirectory = true

namespace FileSystem

def follow (fs : FileSystem) (names : List String) : List String → Except FileFault AbsolutePath
  | [] => .ok ⟨names⟩
  | piece :: rest =>
    match fs.entryAt? ⟨names⟩ with
    | none => .error .missing
    | some e =>
      match e.obstacle? piece with
      | some f => .error f
      | none => follow fs (FilePath.enter names piece) rest

/-- Finds the place that a path leads to as it is written, going from directory to directory. There
may be nothing at that place. -/
def locate (fs : FileSystem) (cwd : AbsolutePath) (path : String) : Except FileFault AbsolutePath :=
  if path.toList.contains '\x00' then .error .nulInPath
  else if path = "" then .error .missing
  else if maxPathBytes < path.utf8ByteSize then .error .nameTooLong
  else follow fs (if FilePath.startOf path = .relative then cwd.names else []) (FilePath.pieces path)

/-- What is at a place, looked up from the root. A way that breaks off leads to nothing. -/
def lookUp (fs : FileSystem) (p : AbsolutePath) : Except FileFault (Option FileEntry) :=
  if maxPathBytes < p.text.utf8ByteSize then .error .nameTooLong
  else
    match fs.follow [] p.names with
    | .ok place => .ok (fs.entryAt? place)
    | .error .missing => .ok none
    | .error .notDirectory => .ok none
    | .error f => .error f

def read (fs : FileSystem) (feed : Feed) (cwd : AbsolutePath) (path : String) :
    Except FileFault String := do
  let place ← fs.locate cwd path
  match fs.entryAt? place with
  | none => throw .missing
  | some e => e.text feed place

end FileSystem

end TransferFlow
