
namespace TransferFlow

/-- How a path starts: in the working directory, at the root, or at the root written with exactly
two slashes, which stay. -/
inductive PathStart where
  | relative
  | root
  | doubleRoot
  deriving DecidableEq, Repr

def PathStart.text : PathStart → String
  | .relative => ""
  | .root => "/"
  | .doubleRoot => "//"

/-- A path as it is written, without empty parts and parts that are a single dot. -/
structure FilePath where
  start : PathStart
  parts : List String
  deriving DecidableEq, Repr

/-- A place in the file system: the names that lead to it from the root. -/
structure AbsolutePath where
  names : List String
  deriving DecidableEq, Repr

namespace FilePath

def pieces (text : String) : List String :=
  (text.toList.splitOn '/').map String.ofList

def startOf (text : String) : PathStart :=
  match text.toList with
  | '/' :: '/' :: '/' :: _ => .root
  | '/' :: '/' :: _ => .doubleRoot
  | '/' :: _ => .root
  | _ => .relative

def ofString (text : String) : FilePath :=
  { start := startOf text, parts := (pieces text).filter fun part => part != "" && part != "." }

def text (p : FilePath) : String :=
  if p.start = .relative && p.parts.isEmpty then "."
  else p.start.text ++ "/".intercalate p.parts

def child (p : FilePath) (name : String) : FilePath :=
  { p with parts := p.parts ++ [name] }

/-- Goes one part further; two dots lead back, and stay at the root. -/
def stepInto (names : List String) (part : String) : List String :=
  if part = ".." then names.dropLast else names ++ [part]

/-- Goes one piece further; empty pieces and single dots lead nowhere. -/
def enter (names : List String) (piece : String) : List String :=
  if piece != "" && piece != "." then stepInto names piece else names

/-- A piece of a path that leads one directory further down. -/
structure IsOnward (piece : String) : Prop where
  nonempty : piece ≠ ""
  noDot : piece ≠ "."
  noDots : piece ≠ ".."

instance (piece : String) : Decidable (IsOnward piece) :=
  decidable_of_iff (piece ≠ "" ∧ piece ≠ "." ∧ piece ≠ "..")
    ⟨fun ⟨nonempty, noDot, noDots⟩ => ⟨nonempty, noDot, noDots⟩,
      fun onward => ⟨onward.nonempty, onward.noDot, onward.noDots⟩⟩

/-- The place that a path leads to from a working directory. No path is a link, so its parts alone
decide. -/
def resolve (cwd : AbsolutePath) (p : FilePath) : AbsolutePath :=
  { names := p.parts.foldl stepInto (if p.start = .relative then cwd.names else []) }

end FilePath

/-- A name that a directory can list. -/
structure IsName (name : String) : Prop where
  onward : FilePath.IsOnward name
  noSlash : '/' ∉ name.toList
  noNul : '\x00' ∉ name.toList

instance (name : String) : Decidable (IsName name) :=
  decidable_of_iff (FilePath.IsOnward name ∧ '/' ∉ name.toList ∧ '\x00' ∉ name.toList)
    ⟨fun ⟨onward, noSlash, noNul⟩ => ⟨onward, noSlash, noNul⟩,
      fun isName => ⟨isName.onward, isName.noSlash, isName.noNul⟩⟩

namespace AbsolutePath

/-- Every name on the way to the place is one that a directory can list. -/
def IsProper (p : AbsolutePath) : Prop :=
  ∀ name ∈ p.names, IsName name

instance (p : AbsolutePath) : Decidable p.IsProper :=
  inferInstanceAs (Decidable (∀ name ∈ p.names, IsName name))

def toFilePath (p : AbsolutePath) : FilePath :=
  { start := .root, parts := p.names }

def text (p : AbsolutePath) : String :=
  p.toFilePath.text

def isWithin (p base : AbsolutePath) : Bool :=
  base.names.isPrefixOf p.names

end AbsolutePath

/-- The suffix of a file name: its last dot and what follows. A dot at either end of the name starts
no suffix. -/
def suffixOfName (name : List Char) : List Char :=
  let extension := (name.reverse.takeWhile (· != '.')).reverse
  let stem := name.take (name.length - extension.length - 1)
  if extension.isEmpty || stem.isEmpty then [] else '.' :: extension

def FilePath.suffix (p : FilePath) : List Char :=
  suffixOfName (p.parts.getLast?.getD "").toList

end TransferFlow
