import ScalarLang.Ledger

/-!
Files by name: a directory with files and directories below it, and what a path leads to from there.
A path is followed part by part, and the first part that leads nowhere decides the error. Nothing is
known outside of the directory but that there are directories above it.
-/
namespace ScalarLang.Command

inductive ReadError where
  | notFound
  | notDirectory
  | isDirectory
  | nameTooLong
  | nullByte
deriving DecidableEq, Repr

namespace ReadError

def all : List ReadError := [notFound, notDirectory, isDirectory, nameTooLong, nullByte]

def message : ReadError → String
  | notFound => "No such file or directory"
  | notDirectory => "Not a directory"
  | isDirectory => "Is a directory"
  | nameTooLong => "File name too long"
  | nullByte => "embedded null byte"

/-- The number of the error; a name with a null byte does not reach the system. -/
def number? : ReadError → Option Nat
  | notFound => some 2
  | notDirectory => some 20
  | isDirectory => some 21
  | nameTooLong => some 36
  | nullByte => none

end ReadError

/-- What lies at a path: the bytes of a file, or a directory. -/
inductive Entry where
  | file (bytes : List UInt8)
  | directory
deriving DecidableEq, Repr

/-- A directory: what lies in it and below, each entry under the names on the way to it. -/
abbrev Directory := Ledger (List String) Entry

def maxNameBytes : Nat := 255

def maxPathBytes : Nat := 4095

/-- The parts of a path between slashes; `part` is what has been met of the first. -/
def partsOf (part : List Char) : List Char → List String
  | [] => [String.ofList part]
  | c :: rest =>
    if c = '/' then String.ofList part :: partsOf [] rest else partsOf (part ++ [c]) rest

/-- Whether a part of a path leads nowhere else. -/
def staysHere (part : String) : Bool := part == "" || part == "."

namespace Directory

/-- Puts an entry at a path, in place of what lies there. -/
def add (d : Directory) (path : String) (entry : Entry) : Directory :=
  d.put ((partsOf [] path.toList).filter fun part => !staysHere part) entry

/-- What lies under a row of names. There is a directory wherever something lies below. -/
def find? (d : Directory) (names : List String) : Option Entry :=
  match d.get? names with
  | some entry => some entry
  | none => if d.keys.any names.isPrefixOf then some .directory else none

/-- Where a path has led so far: to an entry, or out of the directory. The directory itself is the
entry without a name. -/
inductive Stage where
  | inside (names : List String) (entry : Entry)
  | outside
deriving DecidableEq, Repr

def follow (d : Directory) (stage : Stage) (part : String) : Except ReadError Stage :=
  match stage with
  | .inside _ (.file _) => .error .notDirectory
  | .inside names .directory =>
    if staysHere part then .ok stage
    else if part = ".." then
      .ok (if names.isEmpty then .outside else .inside names.dropLast .directory)
    else if maxNameBytes < part.utf8ByteSize then .error .nameTooLong
    else
      match d.find? (names ++ [part]) with
      | some entry => .ok (.inside (names ++ [part]) entry)
      | none => .error .notFound
  | .outside =>
    if staysHere part ∨ part = ".." then .ok .outside
    else if maxNameBytes < part.utf8ByteSize then .error .nameTooLong
    else .error .notFound

/-- The bytes of the file that a path leads to. A path that starts with a slash starts outside. -/
def read (d : Directory) (path : String) : Except ReadError (List UInt8) := do
  if path.toList.any (·.toNat == 0) then throw .nullByte
  if path.isEmpty then throw .notFound
  if maxPathBytes < path.utf8ByteSize then throw .nameTooLong
  let start := if path.toList.head? = some '/' then .outside else Stage.inside [] .directory
  match ← (partsOf [] path.toList).foldlM d.follow start with
  | .inside _ (.file bytes) => return bytes
  | _ => throw .isDirectory

end Directory
end ScalarLang.Command
