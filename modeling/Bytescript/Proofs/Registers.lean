import Mathlib
import Bytescript.Machine.Step

/-!
# The machine on registers

The step of the machine on registers of fixed sizes. Integers of every width are computed in
registers of 128 bits, sizes are kept in 64 bits and numbers of bits in 32, and each operation on a
register has its range: sums, differences and products have to fit, shifts have to be shorter than
the register, and slices of byte strings have to be within them. An operation out of range stops the
program or, if arithmetic wraps around, continues with the remaining bits of the result.
-/
namespace Bytescript.Registers

/-- The treatment of a result that does not fit. -/
inductive Arithmetic where
  /-- It stops the program. -/
  | checked
  /-- It drops what does not fit. -/
  | wrapping
  deriving DecidableEq, Repr

/-- The reasons why a program stops at an operation. -/
inductive Defect where
  | overflow
  | shift
  | slice
  | divisor
  | bounds
  deriving DecidableEq, Repr

/-- Work on the stack that may end in a fault, or stop at a defect. -/
abbrev Guarded := ExceptT Fault.Cause (StateT Stack (Except Defect))

section

variable {α : Type}

def stop (d : Defect) : Guarded α := ExceptT.mk fun _ => .error d

/-- How work of the machine ends, with a panic as a defect. -/
def outcome : Except Stop α × Stack → Except Defect (Except Fault.Cause α × Stack)
  | (.ok a, t) => .ok (.ok a, t)
  | (.error (.fault cause), t) => .ok (.error cause, t)
  | (.error (.panic _), _) => .error .overflow

def plainly (x : Exec α) : Guarded α := ExceptT.mk fun s => outcome (x.run.run s)

def ensure (c : Prop) [Decidable c] (d : Defect) : Guarded Unit :=
  if c then pure () else stop d

/-- The result of an operation in its range, and out of range the result that the arithmetic gives.
-/
def settle (mode : Arithmetic) (c : Prop) [Decidable c] (d : Defect) (result rest : α) :
    Guarded α :=
  if c then pure result
  else
    match mode with
    | .checked => stop d
    | .wrapping => pure rest

end

variable (mode : Arithmetic)

def add (bits a b : Nat) : Guarded Nat :=
  settle mode (a + b < 2 ^ bits) .overflow (a + b) ((a + b) % 2 ^ bits)

def sub (bits a b : Nat) : Guarded Nat :=
  settle mode (b ≤ a) .overflow (a - b) (2 ^ bits + a - b)

def mul (bits a b : Nat) : Guarded Nat :=
  settle mode (a * b < 2 ^ bits) .overflow (a * b) (a * b % 2 ^ bits)

def distance (bits k : Nat) : Guarded Nat :=
  settle mode (k < bits) .shift k (k % bits)

def subSigned {n : Nat} (x y : BitVec n) : Guarded (BitVec n) :=
  settle mode (x.ssubOverflow y = false) .overflow (x - y) (x - y)

def negSigned {n : Nat} (x : BitVec n) : Guarded (BitVec n) :=
  settle mode (x.negOverflow = false) .overflow (-x) (-x)

def remainder (a b : Nat) : Guarded Nat := do
  ensure (b ≠ 0) .divisor
  return a % b

def clamp {n : Nat} (low high x : BitVec n) : Guarded (BitVec n) := do
  ensure (low.toInt ≤ high.toInt) .bounds
  return if x.toInt < low.toInt then low else if high.toInt < x.toInt then high else x

def fill (w : Nat) (bs : Bytes) : Guarded (BitVec 128) := do
  ensure (w ≤ 16 ∧ bs.length = w) .slice
  return BitVec.ofNat 128 (Bytes.toNat (bs ++ List.replicate (16 - w) 0))

def lowest (w : Nat) (x : BitVec 128) : Guarded Bytes := do
  ensure (w ≤ 16) .slice
  return (Bytes.ofNat 16 x.toNat).take w

def reserve (capacity n : Nat) : Guarded Unit := do
  let s ← get
  let needed ← add mode 64 s.size n
  if capacity < needed then throw (.stackOverflow needed capacity)

def startOfTop (n : Nat) : Guarded Nat := do
  let s ← get
  if s.size < n then throw (.stackUnderflow n s.size) else return s.size - n

def bytesFrom (start : Nat) : Guarded Bytes := do
  let s ← get
  ensure (start ≤ s.size) .slice
  return s.slice start (s.size - start)

/-- Pops an integer of `w` bytes into a register; a signed one is shifted to the top of the register
and back, which repeats its sign. -/
def popInteger (w : Nat) (signed : Bool) : Guarded (BitVec 128) := do
  plainly (Exec.checkWordWidth w)
  let start ← startOfTop w
  let bs ← bytesFrom start
  let x ← fill w bs
  modify fun s => s.keep start
  if signed ∧ w < 16 then
    let bits ← mul mode 32 8 w
    let room ← sub mode 32 128 bits
    let left ← distance mode 128 room
    let right ← distance mode 128 room
    return (x <<< left).sshiftRight right
  else return x

def pushInteger (capacity : Nat) (x : BitVec 128) (w : Nat) : Guarded Unit := do
  plainly (Exec.checkWordWidth w)
  reserve mode capacity w
  let bs ← lowest w x
  modify fun s => s.push bs

def popFloat (w : Nat) : Guarded Floating.Value := do
  plainly (Exec.checkFloatWidth w)
  let start ← startOfTop w
  let bs ← bytesFrom start
  ensure (if w = 8 then bs.length = w else w ≤ bs.length) .slice
  modify fun s => s.keep start
  return Floating.load w (Bytes.toNat (bs.take w))

def pushFloat (capacity w : Nat) (v : Floating.Value) : Guarded Unit := do
  plainly (Exec.checkFloatWidth w)
  reserve mode capacity w
  modify fun s => s.push (Bytes.ofNat w (Floating.store w v))

def operate (op : IntegerOp) (signed : Bool) (w : Nat) (x y : BitVec 128) :
    Guarded (Option (BitVec 128)) := do
  let bits ← mul mode 32 8 w
  match op with
  | .add => return some (x + y)
  | .sub => return some (x - y)
  | .mul => return some (x * y)
  | .div =>
    if y = 0 then return none
    else
      ensure (y ≠ 0) .divisor
      return some (if signed then x.sdiv y else x.udiv y)
  | .mod =>
    if y = 0 then return none
    else
      ensure (y ≠ 0) .divisor
      return some (if signed then x.srem y else x.umod y)
  | .shiftLeft =>
    let k ← remainder (y.setWidth 32).toNat bits
    let k ← distance mode 128 k
    return some (x <<< k)
  | .shiftRight =>
    let k ← remainder (y.setWidth 32).toNat bits
    let k ← distance mode 128 k
    return some (if signed then x.sshiftRight k else x >>> k)
  | .and => return some (x &&& y)
  | .or => return some (x ||| y)
  | .xor => return some (x ^^^ y)

/-- The truncated value, clamped to the bounds of the signed integers of `w` bytes. -/
def saturateSigned (v : Floating.Value) (w : Nat) : Guarded (BitVec 128) := do
  let bits ← mul mode 32 8 w
  let x := BitVec.ofInt 128 (v.truncate (-2 ^ 127) (2 ^ 127 - 1))
  if 128 ≤ bits then return x
  else
    let below ← sub mode 32 bits 1
    let k ← distance mode 128 below
    let high ← subSigned mode (1 <<< k) 1
    let opposite ← negSigned mode high
    let low ← subSigned mode opposite 1
    clamp low high x

def saturateUnsigned (v : Floating.Value) (w : Nat) : Guarded (BitVec 128) := do
  let bits ← mul mode 32 8 w
  let x := BitVec.ofInt 128 (v.truncate 0 (2 ^ 128 - 1))
  if 128 ≤ bits then return x
  else
    let k ← distance mode 128 bits
    let high ← sub mode 128 (1#128 <<< k).toNat 1
    return BitVec.ofNat 128 (min x.toNat high)

def popOrder (kind : Option NumberKind) (w : Nat) : Guarded (Option Ordering) := do
  match kind with
  | some .float =>
    let y ← popFloat w
    let x ← popFloat w
    return x.compare? y
  | some .signed =>
    let y ← popInteger mode w true
    let x ← popInteger mode w true
    return some (compare x.toInt y.toInt)
  | some .unsigned | none =>
    let y ← popInteger mode w false
    let x ← popInteger mode w false
    return some (compare x.toNat y.toNat)

def stepOperate (op : StepOp) (x : BitVec 128) : BitVec 128 :=
  match op with
  | .inc => x + 1
  | .dec => x - 1
  | .neg => -x

def perform (capacity : Nat) (data : Bytes) (i : Instruction) (op : Opcode) : Guarded Flow := do
  let width := i.width.toNat
  let second := i.second
  let word := i.word.toNat
  let signed := i.kind? == some .signed
  match op with
  | .halt => return .halt i.code
  | .debug => return .next
  | .jump => return .goto word
  | .jumpIfFalse =>
    let condition ← popInteger mode 1 false
    return if condition = 0 then .goto word else .next
  | .pushData =>
    let stop ← add mode 64 word width
    match Bytes.slice? data word (stop - word) with
    | none => throw (.badAddress (.data word))
    | some bs =>
      reserve mode capacity width
      modify fun s => s.push bs
      return .next
  | .pushStack =>
    let s ← get
    let stop ← add mode 64 word width
    if s.size < stop then throw (.badAddress (.stack word))
    else
      reserve mode capacity width
      let stop ← add mode 64 word width
      ensure (word ≤ stop ∧ stop ≤ s.size) .slice
      modify fun s => s.push (s.slice word (stop - word))
      return .next
  | .assign =>
    let start ← startOfTop width
    let stop ← add mode 64 word width
    if start < stop then throw (.badAddress (.stack word))
    else
      let bs ← bytesFrom start
      let s ← get
      ensure (word + bs.length ≤ s.size) .slice
      modify fun s => (s.overwrite word bs).keep start
      return .next
  | .pushZero =>
    reserve mode capacity word
    let s ← get
    let size ← add mode 64 s.size word
    modify fun s => s.push (List.replicate (size - s.size) 0)
    return .next
  | .pop =>
    let start ← startOfTop word
    modify fun s => s.keep start
    return .next
  | .pushHandle =>
    if data.length ≤ word then throw (.badAddress (.data word))
    else
      reserve mode capacity 8
      modify fun s => s.push (Bytes.ofNat 8 word)
      return .next
  | .floatToFloat =>
    let v ← popFloat width
    pushFloat mode capacity second v
    return .next
  | .signedToFloat =>
    let x ← popInteger mode width true
    pushFloat mode capacity second (Floating.Value.ofInt x.toInt).round
    return .next
  | .unsignedToFloat =>
    let x ← popInteger mode width false
    pushFloat mode capacity second (Floating.Value.ofInt x.toNat).round
    return .next
  | .floatToSigned =>
    let v ← popFloat width
    let x ← saturateSigned mode v second
    pushInteger mode capacity x second
    return .next
  | .floatToUnsigned =>
    let v ← popFloat width
    let x ← saturateUnsigned mode v second
    pushInteger mode capacity x second
    return .next
  | .signExtend =>
    let x ← popInteger mode width true
    pushInteger mode capacity x second
    return .next
  | .integer op =>
    let y ← popInteger mode width signed
    let x ← popInteger mode width signed
    match ← operate mode op signed width x y with
    | none => throw .divisionByZero
    | some z =>
      pushInteger mode capacity z width
      return .next
  | .float op =>
    let y ← popFloat width
    let x ← popFloat width
    pushFloat mode capacity width (op.apply x y)
    return .next
  | .compare relation =>
    let order ← popOrder mode i.kind? width
    pushInteger mode capacity (BitVec.ofNat 128 (relation.holds order).toNat) 1
    return .next
  | .integerStep op =>
    let x ← popInteger mode width signed
    pushInteger mode capacity (stepOperate op x) width
    return .next
  | .floatStep op =>
    let x ← popFloat width
    pushFloat mode capacity width (op.applyFloat x)
    return .next
  | .not =>
    let x ← popInteger mode width false
    pushInteger mode capacity (BitVec.ofNat 128 (x == 0).toNat) width
    return .next

/-- Runs one instruction against a data section, on a stack of at most `capacity` bytes. -/
def step (capacity : Nat) (data : Bytes) (i : Instruction) : Guarded Flow :=
  match i.opcode? with
  | none => throw (.invalidOpcode i.tag)
  | some op => perform mode capacity data i op

end Bytescript.Registers
