/-!
# Files

A `FileTree` is what a working directory holds: files, which have bytes, in directories. A path is
followed from the working directory step by step. It may pass through existing directories only, and
neither the path nor a step of it may be too long.
-/

namespace ModalEdit.CommandLine

/-- Why a file cannot be read. -/
inductive ReadError where
  /-- Nothing has this path. -/
  | notFound
  /-- The path passes through a file. -/
  | notADirectory
  /-- The path names a directory. -/
  | isADirectory
  /-- The path or one of its steps is too long. -/
  | tooLong
  /-- The bytes are no text. -/
  | notText
  /-- Anything else. -/
  | other (reason : String)
deriving DecidableEq, Repr

/-- The error in words. -/
def ReadError.message : ReadError → String
  | notFound => "No such file or directory (os error 2)"
  | notADirectory => "Not a directory (os error 20)"
  | isADirectory => "Is a directory (os error 21)"
  | tooLong => "File name too long (os error 36)"
  | notText => "stream did not contain valid UTF-8"
  | other reason => reason

/-- The text that bytes encode. -/
def decode (bytes : ByteArray) : Except ReadError (List Char) :=
  match String.fromUTF8? bytes with
  | some s => .ok s.toList
  | none => .error .notText

/-- The steps of a path. -/
abbrev Path := List String

/-- The steps that a text names. -/
def Path.ofText (s : String) : Path := s.splitOn "/"

/-- Files by the steps that lead to them. -/
abbrev FileTree := List (Path × ByteArray)

namespace FileTree

variable (t : FileTree)

/-- A directory that holds a file, and the working directory. -/
def isDirectory (p : Path) : Bool := p.isEmpty || t.any fun f => f.1 != p && p.isPrefixOf f.1

/-- The greatest number of bytes of a step. -/
def longestStep : Nat := 255

/-- The greatest number of bytes of a path. -/
def longestPath : Nat := 4095

/-- Follow steps from a place in the tree. -/
def follow (here : Path) : Path → Except ReadError Path
  | [] => .ok here
  | step :: rest =>
    if !t.isDirectory here then .error .notADirectory
    else if step = "" ∨ step = "." then follow here rest
    else if step = ".." then if here.isEmpty then .error .notFound else follow here.dropLast rest
    else if longestStep < step.utf8ByteSize then .error .tooLong
    else
      let next := here ++ [step]
      if t.isDirectory next || (t.lookup next).isSome then follow next rest else .error .notFound

/-- The place in the tree that a path names. -/
def resolve (path : String) : Except ReadError Path :=
  if longestPath < path.utf8ByteSize then .error .tooLong
  else if path.startsWith "/" then .error .notFound
  else t.follow [] (.ofText path)

/-- Something has this path. -/
def contains (path : String) : Bool :=
  match t.resolve path with
  | .ok _ => true
  | .error _ => false

/-- The bytes of a file. -/
def read (path : String) : Except ReadError ByteArray := do
  match t.lookup (← t.resolve path) with
  | some bytes => return bytes
  | none => throw .isADirectory

/-- Put bytes in the place of those of a file. -/
def write (path : String) (bytes : ByteArray) : FileTree :=
  match t.resolve path with
  | .ok p => t.map fun f => if f.1 = p then (p, bytes) else f
  | .error _ => t

end FileTree

end ModalEdit.CommandLine
