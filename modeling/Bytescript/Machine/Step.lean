import Bytescript.Code.Instruction
import Bytescript.Floating.Arithmetic
import Bytescript.Machine.Fault
import Bytescript.Machine.Stack

/-!
# One step of the machine

Integers are words of one to sixteen bytes in two's complement; floats have two, four or eight bytes
and are computed in the 64-bit format. A step that stops leaves the stack as it was then, so an
operand that was popped is gone.
-/
namespace Bytescript

/-- Where a run continues after an instruction. -/
inductive Flow where
  | next
  | goto (target : Nat)
  | halt (code : Int32)
  deriving DecidableEq, Repr

namespace IntegerOp

/-- The amount of a shift: the low 32 bits of the operand, modulo the width. -/
def shiftAmount (signed : Bool) {n : Nat} (y : BitVec n) : Nat :=
  (if signed then y.signExtend 32 else y.setWidth 32).toNat % n

/-- The result of an operator, unless it divides by zero. -/
def apply (op : IntegerOp) (signed : Bool) {n : Nat} (x y : BitVec n) : Option (BitVec n) :=
  match op with
  | .add => some (x + y)
  | .sub => some (x - y)
  | .mul => some (x * y)
  | .div => if y = 0 then none else some (if signed then x.sdiv y else x.udiv y)
  | .mod => if y = 0 then none else some (if signed then x.srem y else x.umod y)
  | .shiftLeft => some (x <<< shiftAmount signed y)
  | .shiftRight =>
    some (if signed then x.sshiftRight (shiftAmount signed y) else x >>> shiftAmount signed y)
  | .and => some (x &&& y)
  | .or => some (x ||| y)
  | .xor => some (x ^^^ y)

end IntegerOp

namespace FloatOp

open Floating

def apply : FloatOp → Value → Value → Value
  | .add => Value.add
  | .sub => Value.sub
  | .mul => Value.mul
  | .div => Value.div
  | .mod => Value.rem

end FloatOp

namespace StepOp

open Floating

def applyWord {n : Nat} (op : StepOp) (x : BitVec n) : BitVec n :=
  match op with
  | .inc => x + 1
  | .dec => x - 1
  | .neg => -x

def applyFloat (op : StepOp) (x : Value) : Value :=
  match op with
  | .inc => x.add (.ofInt 1)
  | .dec => x.sub (.ofInt 1)
  | .neg => x.negate

end StepOp

namespace Relation

def holds : Relation → Option Ordering → Bool
  | .ne, none => true
  | _, none => false
  | .eq, some o => o == .eq
  | .ne, some o => o != .eq
  | .lt, some o => o == .lt
  | .le, some o => o != .gt
  | .gt, some o => o == .gt
  | .ge, some o => o != .lt

end Relation

/-- The reasons why an instruction stops a run. -/
inductive Stop where
  | fault (cause : Fault.Cause)
  | panic (p : Panic)
  deriving DecidableEq, Repr

abbrev Exec := ExceptT Stop (StateM Stack)

namespace Exec

def reserve (capacity n : Nat) : Exec Unit := do
  let s ← get
  if capacity < s.size + n then throw (.fault (.stackOverflow (s.size + n) capacity))

def require (n : Nat) : Exec Unit := do
  let s ← get
  if s.size < n then throw (.fault (.stackUnderflow n s.size))

def push (capacity : Nat) (bs : Bytes) : Exec Unit := do
  reserve capacity bs.length
  modify fun s => s.push bs

def pop (n : Nat) : Exec Bytes := do
  require n
  modifyGet fun s => (s.slice (s.size - n) n, s.keep (s.size - n))

def maxWidth : Nat := 16

def checkWordWidth (w : Nat) : Exec Unit :=
  if w = 0 ∨ maxWidth < w then throw (.fault (.badWidth w)) else pure ()

def checkFloatWidth (w : Nat) : Exec Unit :=
  if w = 2 ∨ w = 4 ∨ w = 8 then pure () else throw (.fault (.badWidth w))

def popWord (w : Nat) : Exec (BitVec (8 * w)) := do
  checkWordWidth w
  return Bytes.toWord w (← pop w)

def pushWord (capacity : Nat) {w : Nat} (x : BitVec (8 * w)) : Exec Unit := do
  checkWordWidth w
  push capacity (Bytes.ofWord x)

def popFloat (w : Nat) : Exec Floating.Value := do
  checkFloatWidth w
  return Floating.load w (Bytes.toNat (← pop w))

def pushFloat (capacity w : Nat) (v : Floating.Value) : Exec Unit := do
  checkFloatWidth w
  push capacity (Bytes.ofNat w (Floating.store w v))

/-- Pops two operands, the right one first, and returns their order. -/
def popOrder (kind : Option NumberKind) (w : Nat) : Exec (Option Ordering) := do
  match kind with
  | some .float =>
    let y ← popFloat w
    let x ← popFloat w
    return x.compare? y
  | some .signed =>
    let y ← popWord w
    let x ← popWord w
    return some (compare x.toInt y.toInt)
  | some .unsigned | none =>
    let y ← popWord w
    let x ← popWord w
    return some (compare x.toNat y.toNat)

end Exec

namespace Instruction

open Exec

def perform (capacity : Nat) (data : Bytes) (i : Instruction) (op : Opcode) : Exec Flow := do
  let width := i.width.toNat
  let second := i.second
  let word := i.word.toNat
  let signed := i.kind? == some .signed
  match op with
  | .halt => return .halt i.code
  | .debug => return .next
  | .jump => return .goto word
  | .jumpIfFalse =>
    let condition ← popWord 1
    return if condition = 0 then .goto word else .next
  | .pushData =>
    match Bytes.slice? data word width with
    | none => throw (.fault (.badAddress (.data word)))
    | some bs => push capacity bs
    return .next
  | .pushStack =>
    let s ← get
    if s.size < word + width then throw (.fault (.badAddress (.stack word)))
    reserve capacity width
    modify fun s => s.push (s.slice word width)
    return .next
  | .assign =>
    require width
    let s ← get
    if s.size - width < word + width then throw (.fault (.badAddress (.stack word)))
    let bs ← pop width
    modify fun s => s.overwrite word bs
    return .next
  | .pushZero =>
    reserve capacity word
    modify fun s => s.push (List.replicate word 0)
    return .next
  | .pop =>
    require word
    modify fun s => s.keep (s.size - word)
    return .next
  | .pushHandle =>
    if data.length ≤ word then throw (.fault (.badAddress (.data word)))
    push capacity (Bytes.ofNat 8 word)
    return .next
  | .floatToFloat =>
    let v ← popFloat width
    pushFloat capacity second v
    return .next
  | .signedToFloat =>
    let x ← popWord width
    pushFloat capacity second (Floating.Value.ofInt x.toInt).round
    return .next
  | .unsignedToFloat =>
    let x ← popWord width
    pushFloat capacity second (Floating.Value.ofInt x.toNat).round
    return .next
  | .floatToSigned =>
    let v ← popFloat width
    -- The bound is computed before the width is checked, from one bit less than the width has.
    if second = 0 then throw (.panic .subtraction)
    checkWordWidth second
    let bound : Int := (1 <<< (8 * second - 1) : Nat)
    pushWord capacity (BitVec.ofInt (8 * second) (v.truncate (-bound) (bound - 1)))
    return .next
  | .floatToUnsigned =>
    let v ← popFloat width
    checkWordWidth second
    pushWord capacity (BitVec.ofInt (8 * second) (v.truncate 0 ((1 <<< (8 * second) : Nat) - 1)))
    return .next
  | .signExtend =>
    let x ← popWord width
    checkWordWidth second
    pushWord capacity (x.signExtend (8 * second))
    return .next
  | .integer op =>
    let y ← popWord width
    let x ← popWord width
    match op.apply signed x y with
    | none => throw (.fault .divisionByZero)
    | some z => pushWord capacity z
    return .next
  | .float op =>
    let y ← popFloat width
    let x ← popFloat width
    pushFloat capacity width (op.apply x y)
    return .next
  | .compare relation =>
    let order ← popOrder i.kind? width
    push capacity [(relation.holds order).toNat.toUInt8]
    return .next
  | .integerStep op =>
    let x ← popWord width
    pushWord capacity (op.applyWord x)
    return .next
  | .floatStep op =>
    let x ← popFloat width
    pushFloat capacity width (op.applyFloat x)
    return .next
  | .not =>
    let x ← popWord width
    pushWord capacity (BitVec.ofNat (8 * width) (x == 0).toNat)
    return .next

/-- Runs one instruction against a data section, on a stack of at most `capacity` bytes. -/
def step (capacity : Nat) (data : Bytes) (i : Instruction) : Exec Flow :=
  match i.opcode? with
  | none => throw (.fault (.invalidOpcode i.tag))
  | some op => perform capacity data i op

end Instruction

end Bytescript
