import Bytescript.Bytes
import Bytescript.Literal.Basic

/-!
# Constants

A constant is a primitive value, kept as its bits, or a text. Two constants are the same when
they have the same type and the same bits.
-/
namespace Bytescript

inductive Constant where
  | primitive (p : Primitive) (bits : BitVec (8 * p.size))
  | text (value : String)
  deriving DecidableEq

namespace Constant

def ofBool (b : Bool) : Constant := .primitive .bool (BitVec.ofNat _ b.toNat)

def ofUnit (u : UInt16) : Constant := .primitive .char (BitVec.ofNat _ u.toNat)

/-- An integer literal at an integer type. Its bytes are extended to sixteen, and the number in them
is truncated to the width. -/
def ofNumeral (p : Primitive) (n : Numeral) : Option Constant :=
  let stored := n.toBytes p
  let wide := Bytes.toNat (stored ++ List.replicate (16 - stored.length) 0)
  if p.isInteger then some (.primitive p (BitVec.ofNat _ wide)) else none

def ofFloat (p : Primitive) (x : FloatLiteral) : Option Constant :=
  if p.isFloat then some (.primitive p (x.word p)) else none

/-- The stored form. A text is its number of units in four bytes, and then its units. -/
def toBytes : Constant → Bytes
  | .primitive _ bits => Bytes.ofWord bits
  | .text value =>
    let units := Utf16.units value
    Bytes.ofNat 4 units.length ++ Utf16.toBytes units

def size : Constant → Nat
  | .primitive p _ => p.size
  | .text value => 4 + 2 * (Utf16.units value).length

end Constant

end Bytescript
