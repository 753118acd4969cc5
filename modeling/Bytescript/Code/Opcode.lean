import Bytescript.Primitive

/-!
# Operations of the machine

Operations are in groups that share their meaning up to one operator, and each has a tag, a mnemonic
and a layout: the way the fields of its instruction are read.
-/
namespace Bytescript

inductive IntegerOp where
  | add
  | sub
  | mul
  | div
  | mod
  | shiftLeft
  | shiftRight
  | and
  | or
  | xor
  deriving DecidableEq, Repr

inductive FloatOp where
  | add
  | sub
  | mul
  | div
  | mod
  deriving DecidableEq, Repr

inductive Relation where
  | eq
  | ne
  | lt
  | le
  | gt
  | ge
  deriving DecidableEq, Repr

inductive StepOp where
  | inc
  | dec
  | neg
  deriving DecidableEq, Repr

inductive Opcode where
  | halt
  | debug
  | jump
  | jumpIfFalse
  | pushData
  | pushStack
  | assign
  | pushZero
  | pop
  | pushHandle
  | floatToFloat
  | signedToFloat
  | unsignedToFloat
  | floatToSigned
  | floatToUnsigned
  | signExtend
  | integer (op : IntegerOp)
  | float (op : FloatOp)
  | compare (relation : Relation)
  | integerStep (op : StepOp)
  | floatStep (op : StepOp)
  | not
  deriving DecidableEq, Repr

/-- The fields of an instruction that an operation reads. -/
inductive Layout where
  /-- None of them. -/
  | plain
  /-- A signed code in the word. -/
  | code
  /-- The index of an instruction in the word. -/
  | target
  /-- A width, and an address in the word. -/
  | sizedAddress
  /-- An address in the word. -/
  | address
  /-- A number of bytes in the word. -/
  | count
  /-- The widths before and after. -/
  | widths
  /-- The width of the operands and their kind. -/
  | typed
  deriving DecidableEq, Repr

/-- How the bytes of an operand are read. -/
inductive NumberKind where
  | unsigned
  | signed
  | float
  deriving DecidableEq, Repr

namespace NumberKind

def code : NumberKind → Nat
  | unsigned => 0
  | signed => 1
  | float => 2

def ofCode? : Nat → Option NumberKind
  | 0 => some unsigned
  | 1 => some signed
  | 2 => some float
  | _ => none

def label : NumberKind → String
  | unsigned => "Unsigned"
  | signed => "Signed"
  | float => "Float"

def ofPrimitive (p : Primitive) : NumberKind :=
  match p.family with
  | .float => float
  | .signed => signed
  | .unsigned | .bool | .char => unsigned

end NumberKind

namespace Opcode

def all : List Opcode := [
  halt, debug, jump, jumpIfFalse,
  pushData, pushStack, assign, pushZero, pop, pushHandle,
  floatToFloat, signedToFloat, unsignedToFloat, floatToSigned, floatToUnsigned, signExtend,
  integer .add, float .add, integer .sub, float .sub, integer .mul, float .mul,
  integer .div, float .div, integer .mod, float .mod,
  integer .shiftLeft, integer .shiftRight, integer .and, integer .or, integer .xor,
  compare .eq, compare .ne, compare .lt, compare .le, compare .gt, compare .ge,
  integerStep .inc, floatStep .inc, integerStep .dec, floatStep .dec,
  integerStep .neg, floatStep .neg, not]

def tag : Opcode → UInt8
  | halt => 0x00
  | debug => 0x01
  | jump => 0x02
  | jumpIfFalse => 0x03
  | pushData => 0x10
  | pushStack => 0x11
  | assign => 0x12
  | pushZero => 0x13
  | pop => 0x14
  | pushHandle => 0x15
  | floatToFloat => 0x20
  | signedToFloat => 0x21
  | unsignedToFloat => 0x22
  | floatToSigned => 0x23
  | floatToUnsigned => 0x24
  | signExtend => 0x25
  | integer .add => 0x30
  | float .add => 0x31
  | integer .sub => 0x32
  | float .sub => 0x33
  | integer .mul => 0x34
  | float .mul => 0x35
  | integer .div => 0x36
  | float .div => 0x37
  | integer .mod => 0x38
  | float .mod => 0x39
  | integer .shiftLeft => 0x40
  | integer .shiftRight => 0x41
  | integer .and => 0x42
  | integer .or => 0x43
  | integer .xor => 0x44
  | compare .eq => 0x50
  | compare .ne => 0x51
  | compare .lt => 0x52
  | compare .le => 0x53
  | compare .gt => 0x54
  | compare .ge => 0x55
  | integerStep .inc => 0x60
  | floatStep .inc => 0x61
  | integerStep .dec => 0x62
  | floatStep .dec => 0x63
  | integerStep .neg => 0x64
  | floatStep .neg => 0x65
  | not => 0x66

def ofTag? (t : UInt8) : Option Opcode :=
  all.find? fun op => op.tag == t

def mnemonic : Opcode → String
  | halt => "HALT"
  | debug => "DEBUG"
  | jump => "JUMP"
  | jumpIfFalse => "JUMP_FALSE"
  | pushData => "PUSH_DATA"
  | pushStack => "PUSH_STACK"
  | assign => "ASSIGN"
  | pushZero => "PUSH_ZERO"
  | pop => "POP"
  | pushHandle => "PUSH_REF"
  | floatToFloat => "F2F"
  | signedToFloat => "S2F"
  | unsignedToFloat => "U2F"
  | floatToSigned => "F2S"
  | floatToUnsigned => "F2U"
  | signExtend => "SEXT"
  | integer .add => "ADD"
  | float .add => "FADD"
  | integer .sub => "SUB"
  | float .sub => "FSUB"
  | integer .mul => "MUL"
  | float .mul => "FMUL"
  | integer .div => "DIV"
  | float .div => "FDIV"
  | integer .mod => "MOD"
  | float .mod => "FMOD"
  | integer .shiftLeft => "SHL"
  | integer .shiftRight => "SHR"
  | integer .and => "AND"
  | integer .or => "OR"
  | integer .xor => "XOR"
  | compare .eq => "EQ"
  | compare .ne => "NEQ"
  | compare .lt => "LT"
  | compare .le => "LTE"
  | compare .gt => "GT"
  | compare .ge => "GTE"
  | integerStep .inc => "INC"
  | floatStep .inc => "FINC"
  | integerStep .dec => "DEC"
  | floatStep .dec => "FDEC"
  | integerStep .neg => "NEG"
  | floatStep .neg => "FNEG"
  | not => "NOT"

def layout : Opcode → Layout
  | halt => .code
  | debug => .plain
  | jump | jumpIfFalse => .target
  | pushData | pushStack | assign => .sizedAddress
  | pushHandle => .address
  | pushZero | pop => .count
  | floatToFloat | signedToFloat | unsignedToFloat | floatToSigned | floatToUnsigned
  | signExtend => .widths
  | integer _ | float _ | compare _ | integerStep _ | floatStep _ | not => .typed

def label : Opcode → String
  | halt => "Halt"
  | debug => "DebugPause"
  | jump => "Jump"
  | jumpIfFalse => "JumpIfFalse"
  | pushData => "PushData"
  | pushStack => "PushStack"
  | assign => "AssignStack"
  | pushZero => "PushZero"
  | pop => "Pop"
  | pushHandle => "PushDataRef"
  | floatToFloat => "CastFloatToFloat"
  | signedToFloat => "CastSignedToFloat"
  | unsignedToFloat => "CastUnsignedToFloat"
  | floatToSigned => "CastFloatToSigned"
  | floatToUnsigned => "CastFloatToUnsigned"
  | signExtend => "SignExtend"
  | integer .add => "AddInt"
  | float .add => "AddFloat"
  | integer .sub => "SubInt"
  | float .sub => "SubFloat"
  | integer .mul => "MulInt"
  | float .mul => "MulFloat"
  | integer .div => "DivInt"
  | float .div => "DivFloat"
  | integer .mod => "ModInt"
  | float .mod => "ModFloat"
  | integer .shiftLeft => "ShiftLeft"
  | integer .shiftRight => "ShiftRight"
  | integer .and => "BitAnd"
  | integer .or => "BitOr"
  | integer .xor => "BitXor"
  | compare .eq => "Eq"
  | compare .ne => "Neq"
  | compare .lt => "Lt"
  | compare .le => "Lte"
  | compare .gt => "Gt"
  | compare .ge => "Gte"
  | integerStep .inc => "IncInt"
  | floatStep .inc => "IncFloat"
  | integerStep .dec => "DecInt"
  | floatStep .dec => "DecFloat"
  | integerStep .neg => "NegInt"
  | floatStep .neg => "NegFloat"
  | not => "Not"

theorem ofTag?_tag (op : Opcode) : ofTag? op.tag = some op := by
  cases op with
  | integer op => cases op <;> rfl
  | float op => cases op <;> rfl
  | compare relation => cases relation <;> rfl
  | integerStep op => cases op <;> rfl
  | floatStep op => cases op <;> rfl
  | _ => rfl

end Opcode

end Bytescript
