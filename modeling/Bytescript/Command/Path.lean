/-!
# Paths

A path is a list of names with slashes between. Slashes and single points at its end do not count.
Paths are processed from their end, so they are reversed here.
-/
namespace Bytescript.Path

def dropTail : List Char → List Char
  | '/' :: rest => dropTail rest
  | '.' :: '/' :: rest => dropTail rest
  | cs => cs

/-- The file name at the end of a path and the folder before it, both reversed. One point denotes
the folder itself and two points its parent, so neither is a file name. -/
def splitFileName? (path : List Char) : Option (List Char × List Char) :=
  let name := path.takeWhile (· != '/')
  if name = [] ∨ name = ['.'] ∨ name = ['.', '.'] then none
  else some (name, path.dropWhile (· != '/'))

/-- A reversed file name without its extension. A point at the start of a name begins no extension.
-/
def stem (name : List Char) : List Char :=
  match name.dropWhile (· != '.') with
  | _ :: c :: rest => c :: rest
  | _ => name

def cutExtension (path : List Char) : List Char :=
  match splitFileName? path with
  | some (name, folder) => if stem name = name then path else '.' :: stem name ++ folder
  | none => path

/-- The path with the extension of its file name replaced, or with an extension added. The old
extension is removed first: a path that then ends in no file name gets no new one. -/
def withExtension (extension path : String) : String :=
  let cut := cutExtension (dropTail path.toList.reverse)
  match splitFileName? cut with
  | some (name, folder) =>
      String.ofList (folder.reverse ++ (stem name).reverse) ++ "." ++ extension
  | none => String.ofList cut.reverse

example : withExtension "o" "a" = "a.o" := by decide +kernel
example : withExtension "o" "a.b.c" = "a.b.o" := by decide +kernel
example : withExtension "o" ".h" = ".h.o" := by decide +kernel
example : withExtension "o" "d." = "d.o" := by decide +kernel
example : withExtension "o" "./x/" = "./x.o" := by decide +kernel
example : withExtension "o" "x/.." = "x/.." := by decide +kernel
example : withExtension "o" "x/..h" = "x/.." := by decide +kernel
example : withExtension "o" "...h" = "...o" := by decide +kernel

end Bytescript.Path
