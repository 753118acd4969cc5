import Bytescript.Primitive

/-!
# Types

A definition gives a type its name, its home module and its shape. A type is a definition with an
argument for each of its generic parameters. Definitions are compared by home and name alone,
because a module holds at most one type of a name.
-/
namespace Bytescript

structure Modifiers where
  shared : Bool
  writable : Bool
  deriving DecidableEq, Repr

/-- A member of a record, at its offset in bytes. -/
structure Field (τ : Type) where
  name : String
  ty : τ
  offset : Nat

structure Method (τ : Type) where
  name : String
  params : List τ
  result : Option τ
  modifiers : Modifiers

/-- How values of a type are stored: as a primitive, as a handle to something stored elsewhere, or
as fields in a row. -/
inductive Shape (τ : Type) where
  | primitive (p : Primitive)
  | handle
  | record (fields : List (Field τ)) (size : Nat)

structure DefinitionOf (τ : Type) where
  home : String
  name : String
  modifiers : Modifiers
  generics : List String
  methods : List (Method τ)
  shape : Shape τ

structure Ty where
  definition : DefinitionOf Ty
  args : List Ty

abbrev Definition := DefinitionOf Ty

def handleSize : Nat := 8

namespace DefinitionOf

variable {τ : Type}

def size (d : DefinitionOf τ) : Nat :=
  match d.shape with
  | .primitive p => p.size
  | .handle => handleSize
  | .record _ n => n

def primitive? (d : DefinitionOf τ) : Option Primitive :=
  match d.shape with
  | .primitive p => some p
  | _ => none

def isHandle (d : DefinitionOf τ) : Bool :=
  match d.shape with
  | .handle => true
  | _ => false

def fields (d : DefinitionOf τ) : List (Field τ) :=
  match d.shape with
  | .record fields _ => fields
  | _ => []

def qualifiedName (d : DefinitionOf τ) : String :=
  d.home ++ "." ++ d.name

def field? (d : DefinitionOf τ) (name : String) : Option (Field τ) :=
  d.fields.find? fun f => f.name == name

def method? (d : DefinitionOf τ) (name : String) : Option (Method τ) :=
  d.methods.find? fun m => m.name == name

end DefinitionOf

namespace Ty

def of (d : Definition) : Ty := ⟨d, []⟩

def primitive? (t : Ty) : Option Primitive := t.definition.primitive?

def isPrimitive (t : Ty) (p : Primitive) : Bool := t.primitive? == some p

def size (t : Ty) : Nat := t.definition.size

def isHandle (t : Ty) : Bool := t.definition.isHandle

mutual

/-- Whether two types have the same name and home and, one by one, the same arguments. -/
def same : Ty → Ty → Bool
  | ⟨d, as⟩, ⟨e, bs⟩ => d.home == e.home && d.name == e.name && sameAll as bs

def sameAll : List Ty → List Ty → Bool
  | [], [] => true
  | a :: as, b :: bs => same a b && sameAll as bs
  | _, _ => false

end

mutual

def describe : Ty → String
  | ⟨d, []⟩ => d.name
  | ⟨d, a :: as⟩ => d.name ++ "<" ++ ", ".intercalate (describeAll (a :: as)) ++ ">"

def describeAll : List Ty → List String
  | [] => []
  | a :: as => describe a :: describeAll as

end

end Ty

namespace Definition

def ofPrimitive (home : String) (p : Primitive) : Definition where
  home
  name := p.name
  modifiers := ⟨true, false⟩
  generics := []
  methods := []
  shape := .primitive p

def ofHandle (home name : String) : Definition where
  home
  name
  modifiers := ⟨true, false⟩
  generics := []
  methods := []
  shape := .handle

def layFrom (offset : Nat) : List (String × Ty) → List (Field Ty)
  | [] => []
  | (name, ty) :: rest => ⟨name, ty, offset⟩ :: layFrom (offset + ty.size) rest

/-- A record with its fields in a row. -/
def ofFields (home name : String) (modifiers : Modifiers) (fields : List (String × Ty)) :
    Definition where
  home
  name
  modifiers
  generics := []
  methods := []
  shape := .record (layFrom 0 fields) (fields.foldl (fun total f => total + f.2.size) 0)

end Definition

end Bytescript
