import Bytescript.Program.Basic

/-!
# Building programs

Expressions are numbered in the order in which they are built, and every node gets the current
position of the cursor.
-/
namespace Bytescript

/-- The number of the next expression and the place of the next node. -/
structure Cursor where
  nextId : UInt32
  position : Position
  deriving DecidableEq, Repr

namespace Cursor

def start : Cursor := ⟨0, ⟨1, 1⟩⟩

def moveTo (c : Cursor) (line column : Nat) : Cursor :=
  { c with position := ⟨line.toUInt64, column.toUInt64⟩ }

def mark (c : Cursor) : Mark × Cursor :=
  (⟨c.nextId, c.position⟩, { c with nextId := c.nextId + 1 })

end Cursor

def Literal.ofFloatText (text : String) : Literal :=
  match text.toList with
  | '-' :: rest => .float (String.ofList rest) true
  | _ => .float text false

def Place.ofText (text : String) : Place :=
  match text.splitOn "." with
  | name :: path => ⟨name, path⟩
  | [] => ⟨text, []⟩

/-- A record declaration. Its fields have the position of the record. -/
def RecordDecl.make (name : String) (fields : List (String × TypeRef)) (position : Position) :
    RecordDecl :=
  ⟨name, true, fields.map fun (name, ty) => ⟨name, ty, position⟩, position⟩

def Import.make (source item : String) (position : Position) : Import :=
  ⟨source, if item = "*" then none else some item, position⟩

end Bytescript
