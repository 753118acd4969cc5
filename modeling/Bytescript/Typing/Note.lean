import Bytescript.Constant
import Bytescript.Types.Conversion

/-!
# Notes on expressions

The result of typing an expression is a note, filed under the number of the expression. The tree
itself is never changed.
-/
namespace Bytescript

/-- A conversion of the value of an expression that its context requires. -/
structure Coercion where
  target : Ty
  conversion : Conversion

structure Note where
  ty : Ty
  /-- The narrowest signed type that also holds a non-negative integer literal. -/
  secondary : Option Ty
  /-- The value of a literal. -/
  constant : Option Constant
  coercion : Option Coercion

namespace Note

def ofType (ty : Ty) : Note := ⟨ty, none, none, none⟩

def ofConstant (ty : Ty) (constant : Option Constant) : Note := ⟨ty, none, constant, none⟩

/-- The type of the value after its coercion. -/
def finalType (n : Note) : Ty :=
  match n.coercion with
  | some c => c.target
  | none => n.ty

def operand (n : Note) : Operand := ⟨n.ty, n.secondary⟩

end Note

structure Notes where
  entries : List (UInt32 × Note)

namespace Notes

def empty : Notes := ⟨[]⟩

def find? (notes : Notes) (id : UInt32) : Option Note := notes.entries.lookup id

def size (notes : Notes) : Nat := notes.entries.length

def insert (notes : Notes) (id : UInt32) (note : Note) : Notes :=
  ⟨(id, note) :: notes.entries.filter fun entry => entry.1 != id⟩

def coerce (notes : Notes) (id : UInt32) (c : Coercion) : Notes :=
  ⟨notes.entries.map fun entry =>
    if entry.1 = id then (entry.1, { entry.2 with coercion := some c }) else entry⟩

theorem lookup_filter_ne {id other : UInt32} (h : other ≠ id) (entries : List (UInt32 × Note)) :
    (entries.filter fun entry => entry.1 != id).lookup other = entries.lookup other := by
  induction entries with
  | nil => rfl
  | cons entry rest ih =>
    obtain ⟨key, note⟩ := entry
    by_cases hk : key = id
    · simp [hk, ih, List.lookup_cons, beq_eq_false_iff_ne.mpr h]
    · simp [hk, ih, List.lookup_cons]

/-- An insertion affects its own number only. -/
theorem find?_insert (notes : Notes) (id other : UInt32) (note : Note) :
    (notes.insert id note).find? other = if other = id then some note else notes.find? other := by
  by_cases h : other = id
  · simp [find?, insert, h]
  · simp [find?, insert, List.lookup_cons, h, beq_eq_false_iff_ne.mpr h, lookup_filter_ne h]

end Notes

end Bytescript
