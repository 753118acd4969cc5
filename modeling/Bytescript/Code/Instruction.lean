import Bytescript.Bytes
import Bytescript.Code.Opcode
import Bytescript.Text.Columns

/-!
# Instructions

An instruction is eight bytes: a tag, a 16-bit width, one low byte and a 32-bit word. The second
16-bit field overlaps the low byte and the first byte of the word; no operation reads both the
second field and the word.
-/
namespace Bytescript

structure Instruction where
  tag : UInt8
  width : UInt16
  low : UInt8
  word : UInt32
  deriving DecidableEq, Repr

namespace Instruction

def length : Nat := 8

def toBytes (i : Instruction) : Bytes :=
  i.tag :: Bytes.ofNat 2 i.width.toNat ++ i.low :: Bytes.ofNat 4 i.word.toNat

/-- The instructions stored one after the other; fewer than eight bytes at the end are ignored. -/
def decodeAll : Bytes → List Instruction
  | tag :: w₀ :: w₁ :: low :: v₀ :: v₁ :: v₂ :: v₃ :: rest =>
    { tag
      width := (Bytes.toNat [w₀, w₁]).toUInt16
      low
      word := (Bytes.toNat [v₀, v₁, v₂, v₃]).toUInt32 } :: decodeAll rest
  | _ => []

def ofBytes? (bs : Bytes) : Option Instruction :=
  match decodeAll bs with
  | [i] => if bs.length = length then some i else none
  | _ => none

def opcode? (i : Instruction) : Option Opcode := Opcode.ofTag? i.tag

def second (i : Instruction) : Nat := i.low.toNat + 256 * (i.word.toNat % 256)

def code (i : Instruction) : Int32 := i.word.toInt32

def kind? (i : Instruction) : Option NumberKind := NumberKind.ofCode? i.second

def plain (op : Opcode) : Instruction := ⟨op.tag, 0, 0, 0⟩

def halt (code : Int32) : Instruction := ⟨Opcode.halt.tag, 0, 0, code.toUInt32⟩

/-- An operation that reads the word alone: a target, an address or a count. -/
def worded (op : Opcode) (word : Nat) : Instruction := ⟨op.tag, 0, 0, word.toUInt32⟩

def sized (op : Opcode) (width address : Nat) : Instruction :=
  ⟨op.tag, width.toUInt16, 0, address.toUInt32⟩

/-- An operation that reads the width and the second field. -/
def paired (op : Opcode) (width second : Nat) : Instruction :=
  ⟨op.tag, width.toUInt16, second.toUInt8, (second / 256 % 256).toUInt32⟩

def typed (op : Opcode) (width : Nat) (kind : NumberKind) : Instruction :=
  paired op width kind.code

/-- The number of bytes that an instruction pops and pushes. -/
def stackEffect? (i : Instruction) : Option (Nat × Nat) :=
  let width := i.width.toNat
  i.opcode?.map fun
    | .halt | .debug | .jump => (0, 0)
    | .jumpIfFalse => (1, 0)
    | .pushData | .pushStack => (0, width)
    | .assign => (width, 0)
    | .pushZero => (0, i.word.toNat)
    | .pop => (i.word.toNat, 0)
    | .pushHandle => (0, 8)
    | .floatToFloat | .signedToFloat | .unsignedToFloat | .floatToSigned | .floatToUnsigned
    | .signExtend => (width, i.second)
    | .compare _ => (2 * width, 1)
    | .integerStep _ | .floatStep _ | .not => (width, width)
    | .integer _ | .float _ => (2 * width, width)

def describe (i : Instruction) : String :=
  match i.opcode? with
  | none => "INVALID(" ++ Text.hexMarked 2 i.tag.toNat ++ ")"
  | some op =>
    let name := op.mnemonic
    let width := i.width.toNat
    let word := i.word.toNat
    let second := i.second
    match op.layout with
    | .plain => name
    | .code => name ++ " " ++ toString i.code.toInt
    | .target | .address => s!"{name} @{word}"
    | .sizedAddress => s!"{name} {width}b @{word}"
    | .count => s!"{name} {word}b"
    | .widths => s!"{name} {width}b->{second}b"
    | .typed =>
      match i.kind? with
      | some kind => s!"{name} {width}b Some(" ++ kind.label ++ ")"
      | none => s!"{name} {width}b None"

end Instruction

end Bytescript
