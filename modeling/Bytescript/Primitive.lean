/-!
# Primitive types

The fifteen built-in value types. A primitive belongs to a family and has a size in bytes; within
the two integer families the sizes are 1, 2, 4, 8 and 16.
-/
namespace Bytescript

inductive Family where
  | bool
  | char
  | signed
  | unsigned
  | float
  deriving DecidableEq, Repr

inductive Primitive where
  | bool
  | char
  | i8
  | i16
  | i32
  | i64
  | i128
  | u8
  | u16
  | u32
  | u64
  | u128
  | f16
  | f32
  | f64
  deriving DecidableEq, Repr

namespace Primitive

def all : List Primitive :=
  [bool, char, i8, i16, i32, i64, i128, u8, u16, u32, u64, u128, f16, f32, f64]

def signedTypes : List Primitive := [i8, i16, i32, i64, i128]

def unsignedTypes : List Primitive := [u8, u16, u32, u64, u128]

def ordinal : Primitive → Nat
  | bool => 0
  | char => 1
  | i8 => 2
  | i16 => 3
  | i32 => 4
  | i64 => 5
  | i128 => 6
  | u8 => 7
  | u16 => 8
  | u32 => 9
  | u64 => 10
  | u128 => 11
  | f16 => 12
  | f32 => 13
  | f64 => 14

def size : Primitive → Nat
  | bool | i8 | u8 => 1
  | char | i16 | u16 | f16 => 2
  | i32 | u32 | f32 => 4
  | i64 | u64 | f64 => 8
  | i128 | u128 => 16

def family : Primitive → Family
  | bool => .bool
  | char => .char
  | i8 | i16 | i32 | i64 | i128 => .signed
  | u8 | u16 | u32 | u64 | u128 => .unsigned
  | f16 | f32 | f64 => .float

def name : Primitive → String
  | bool => "bool"
  | char => "char"
  | i8 => "i8"
  | i16 => "i16"
  | i32 => "i32"
  | i64 => "i64"
  | i128 => "i128"
  | u8 => "u8"
  | u16 => "u16"
  | u32 => "u32"
  | u64 => "u64"
  | u128 => "u128"
  | f16 => "f16"
  | f32 => "f32"
  | f64 => "f64"

def bits (p : Primitive) : Nat := 8 * p.size

def isSigned (p : Primitive) : Bool := p.family == .signed

def isFloat (p : Primitive) : Bool := p.family == .float

def isInteger (p : Primitive) : Bool := p.family == .signed || p.family == .unsigned

def isNumeric (p : Primitive) : Bool := p.isInteger || p.isFloat

/-- The narrowest signed type of at least `n` bytes. -/
def signedOfSize? (n : Nat) : Option Primitive :=
  signedTypes.find? fun p => n ≤ p.size

def unsignedOfSize? (n : Nat) : Option Primitive :=
  unsignedTypes.find? fun p => n ≤ p.size

def ofName? (name : String) : Option Primitive :=
  all.find? fun p => p.name == name

theorem mem_all (p : Primitive) : p ∈ all := by
  cases p <;> decide

end Primitive

end Bytescript
