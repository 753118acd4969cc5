import Bytescript.Bytes

/-!
# Directories

A directory of files without folders inside, as a value, and the results of reading and writing at a
path from there.
-/
namespace Bytescript

inductive FileError where
  | notFound
  | notFolder
  | isFolder
  | nameTooLong
  deriving DecidableEq, Repr

def FileError.message : FileError → String
  | .notFound => "No such file or directory (os error 2)"
  | .notFolder => "Not a directory (os error 20)"
  | .isFolder => "Is a directory (os error 21)"
  | .nameTooLong => "File name too long (os error 36)"

structure Directory where
  files : List (String × Bytes)
  deriving DecidableEq, Repr

namespace Directory

def find? (d : Directory) (name : String) : Option Bytes := d.files.lookup name

/-- The directory with a file of the given content in place of one of its name. -/
def insert (d : Directory) (name : String) (content : Bytes) : Directory :=
  ⟨(name, content) :: d.files.filter fun file => file.1 != name⟩

def maxName : Nat := 255

def maxPath : Nat := 4095

/-- Whether a name in a path denotes the current folder or its parent. -/
def isStep (name : String) : Bool := name == "" || name == "." || name == ".."

/-- A path split at its slashes, from the first name that is not a step. -/
def names (path : String) : List String := (path.splitOn "/").dropWhile isStep

def leaves (path : String) : Bool :=
  path.startsWith "/" || ((path.splitOn "/").takeWhile isStep).contains ".."

/-- The files that a path can reach: those of the directory or, outside of it, none. -/
def seenFrom (d : Directory) (path : String) : Directory := if leaves path then ⟨[]⟩ else d

def atSteps (path : String) : FileError := if path = "" then .notFound else .isFolder

def get (d : Directory) (name : String) : Except FileError Bytes :=
  if maxName < name.utf8ByteSize then .error .nameTooLong
  else
    match d.find? name with
    | some content => .ok content
    | none => .error .notFound

def beyond (d : Directory) (name : String) : FileError :=
  match d.get name with
  | .ok _ => .notFolder
  | .error e => e

def read (d : Directory) (path : String) : Except FileError Bytes :=
  if maxPath < path.utf8ByteSize then .error .nameTooLong
  else
    match names path with
    | [] => .error (atSteps path)
    | [name] => (d.seenFrom path).get name
    | name :: _ => .error ((d.seenFrom path).beyond name)

/-- Writes a file. A path with slashes at its end denotes a folder. -/
def write (d : Directory) (path : String) (content : Bytes) : Except FileError Directory :=
  if maxPath < path.utf8ByteSize then .error .nameTooLong
  else
    match names path with
    | [] => .error (atSteps path)
    | [name] =>
      if maxName < name.utf8ByteSize then .error .nameTooLong
      else if leaves path then .error .notFound
      else .ok (d.insert name content)
    | name :: rest =>
      if rest.all (· == "") then .error .isFolder else .error ((d.seenFrom path).beyond name)

end Directory

end Bytescript
