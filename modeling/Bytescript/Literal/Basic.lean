import Bytescript.Bytes
import Bytescript.Floating.Decimal
import Bytescript.Primitive
import Bytescript.Text.Utf16

/-!
# Literals

Literal texts and their values. An integer literal is read as a number first and then given the
narrowest type that holds it; a float literal gets the narrowest format that holds it exactly; a
character literal is one UTF-16 unit.
-/
namespace Bytescript

inductive LiteralError where
  | malformed
  | tooLarge
  deriving DecidableEq, Repr

structure Numeral where
  magnitude : Nat
  negative : Bool
  deriving DecidableEq, Repr

/-- The type of an integer literal, and the narrowest signed type that also holds it. -/
structure NumeralType where
  primary : Primitive
  secondary : Option Primitive
  deriving DecidableEq, Repr

namespace Numeral

def value (n : Numeral) : Int :=
  if n.negative then -n.magnitude else n.magnitude

def digit? (radix : Nat) (c : Char) : Option Nat :=
  let d? :=
    if '0' ≤ c ∧ c ≤ '9' then some (c.toNat - '0'.toNat)
    else if 'a' ≤ c ∧ c ≤ 'f' then some (c.toNat - 'a'.toNat + 10)
    else if 'A' ≤ c ∧ c ≤ 'F' then some (c.toNat - 'A'.toNat + 10)
    else none
  d?.filter (· < radix)

def splitRadix : List Char → Nat × List Char
  | '0' :: 'x' :: rest => (16, rest)
  | '0' :: 'X' :: rest => (16, rest)
  | '0' :: 'b' :: rest => (2, rest)
  | '0' :: 'B' :: rest => (2, rest)
  | cs => (10, cs)

def limit : Nat := 1 <<< 128 - 1

/-- Reads the digits behind those with the value `total`. Underscores are skipped; reading ends at
the first character that is not a digit, or that takes the number past 128 bits. -/
def readDigits (radix total : Nat) (seen : Bool) : List Char → Except LiteralError Nat
  | [] => if seen then .ok total else .error .malformed
  | c :: cs =>
    if c = '_' then readDigits radix total seen cs
    else
      match digit? radix c with
      | none => .error .malformed
      | some d =>
        if limit < total * radix + d then .error .tooLarge
        else readDigits radix (total * radix + d) true cs

/-- Reads an integer literal whose sign is separate. It must fit in 128 bits, signed. -/
def parse (digits : String) (negative : Bool) : Except LiteralError Numeral :=
  let (radix, body) := splitRadix digits.toList
  match readDigits radix 0 false body with
  | .error e => .error e
  | .ok magnitude =>
    if (if negative then 1 <<< 127 else 1 <<< 127 - 1) < magnitude then .error .tooLarge
    else .ok ⟨magnitude, negative && magnitude != 0⟩

/-- The narrowest type that holds a literal: signed for a negative one, else unsigned. -/
def type (n : Numeral) : NumeralType :=
  if n.negative then
    let fits := Primitive.signedTypes.find? fun p => n.magnitude ≤ 1 <<< (p.bits - 1)
    ⟨fits.getD .i128, none⟩
  else
    let fits := Primitive.unsignedTypes.find? fun p => n.magnitude < 1 <<< p.bits
    ⟨fits.getD .u128, Primitive.signedTypes.find? fun p => n.magnitude < 1 <<< (p.bits - 1)⟩

def bits (n : Numeral) : BitVec 128 :=
  let magnitude := BitVec.ofNat 128 n.magnitude
  if n.negative then -magnitude else magnitude

/-- The literal at the width of `p`: the lowest of its sixteen bytes. -/
def toBytes (n : Numeral) (p : Primitive) : Bytes :=
  (Bytes.ofNat 16 n.bits.toNat).take p.size

end Numeral

structure FloatLiteral where
  bits : UInt64
  primitive : Primitive
  deriving DecidableEq, Repr

namespace FloatLiteral

open Floating

def value (x : FloatLiteral) : Value := double.decode x.bits.toNat

/-- Whether storing a value in `width` bytes keeps it. -/
def survives (width : Nat) (v : Value) : Bool :=
  (load width (store width v)).compare? v == some .eq

def parse (text : String) (negative : Bool) : Except LiteralError FloatLiteral :=
  match parse? (String.ofList (text.toList.filter (· ≠ '_'))) with
  | none => .error .malformed
  | some v =>
    match v with
    | .finite .. =>
      let v := if negative then v.negate else v
      let primitive := if survives 2 v then .f16 else if survives 4 v then .f32 else .f64
      .ok ⟨(double.encode v).toUInt64, primitive⟩
    | _ => .error .tooLarge

def word (x : FloatLiteral) (p : Primitive) : BitVec (8 * p.size) :=
  BitVec.ofNat (8 * p.size) (store p.size x.value)

end FloatLiteral

def parseUnit (text : String) : Except LiteralError UInt16 :=
  match text.toList.map Utf16.unitsOf with
  | [[u]] => .ok u
  | _ => .error .malformed

end Bytescript
