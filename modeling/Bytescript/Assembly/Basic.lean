import Bytescript.Address
import Bytescript.Code.Instruction
import Bytescript.Pool
import Bytescript.Program.Basic
import Bytescript.Types.Conversion

/-!
# Code under construction

An assembly collects instructions and constants, and counts the bytes that the machine will have on
its stack at this point of the code. Variables are stack slots; they belong to frames, and closing a
frame pops what was pushed since it was opened.
-/
namespace Bytescript

structure Variable where
  name : String
  ty : Ty
  offset : Nat

/-- The variables of one scope, in the order of declaration, and the size of the stack when the
scope was opened. -/
structure Frame where
  entrySize : Nat
  declared : List Variable

namespace Frame

def find? (f : Frame) (name : String) : Option Variable :=
  f.declared.find? fun v => v.name == name

end Frame

/-- A jump with one end open: a slot in the code that will jump to a later place, or a place that a
later jump will go back to. -/
inductive Jump where
  | forward (slot : Nat)
  | back (target : Nat)
  deriving DecidableEq, Repr

/-- The value of an expression: its address, its type, and the instructions that are still to be
applied to it. -/
structure Slot where
  address : Address
  ty : Ty
  pending : List Instruction

namespace Slot

def size (s : Slot) : Nat := s.ty.size

def defer (s : Slot) (i : Instruction) : Slot := { s with pending := s.pending ++ [i] }

end Slot

inductive DefineError where
  | duplicate (name : String)
  | noScope
  deriving DecidableEq, Repr

def DefineError.message : DefineError → String
  | .duplicate name => s!"variable '{name}' is already defined in this scope"
  | .noScope => "no open scope"

/-- The instruction that converts a value on top of the stack, unless its bytes are unchanged. -/
def Conversion.instruction? (c : Conversion) (source target : Primitive) : Option Instruction :=
  let before := source.size
  let after := target.size
  match c with
  | .unneeded | .impossible => none
  | .widenInteger | .resizeInteger =>
    some <|
      if before < after then
        if source.isSigned then .paired .signExtend before after
        else .worded .pushZero (after - before)
      else .worded .pop (before - after)
  | .widenFloat | .narrowFloat => some (.paired .floatToFloat before after)
  | .integerToFloat =>
    some (.paired (if source.isSigned then .signedToFloat else .unsignedToFloat) before after)
  | .floatToInteger =>
    some (.paired (if target.isSigned then .floatToSigned else .floatToUnsigned) before after)

structure Assembly where
  code : Array Instruction
  stackSize : Nat
  frames : List Frame
  pool : Pool

namespace Assembly

def start : Assembly := ⟨#[], 0, [⟨0, []⟩], .empty⟩

def position (a : Assembly) : Nat := a.code.size

def depth (a : Assembly) : Nat := a.frames.length

/-- Appends an instruction, which must not pop more than the counted size. -/
def emit (a : Assembly) (i : Instruction) : Checked Assembly :=
  let (popped, pushed) := i.stackEffect?.getD (0, 0)
  let size := a.stackSize
  if size < popped then .error (.assertion (i.describe ++ s!" pops {popped} of {size} bytes"))
  else do
    let stackSize ← Checked.add (size - popped) pushed
    return { a with code := a.code.push i, stackSize }

def emitAll (a : Assembly) (is : List Instruction) : Checked Assembly := is.foldlM emit a

def openFrame (a : Assembly) : Assembly :=
  { a with frames := ⟨a.stackSize, []⟩ :: a.frames }

def pop (a : Assembly) (count : Nat) : Checked Assembly := a.emit (.worded .pop count)

/-- Closes the innermost frame and pops what was pushed since it was opened. Returns the number of
bytes popped. -/
def closeFrame (a : Assembly) : Checked (Nat × Assembly) :=
  match a.frames with
  | [] => .ok (0, a)
  | frame :: rest => do
    let a := { a with frames := rest }
    let excess := a.stackSize - frame.entrySize
    return (excess, ← if excess = 0 then .ok a else a.pop excess)

def find? (a : Assembly) (name : String) : Option Variable :=
  a.frames.findSome? fun f => f.find? name

/-- Names the value on top of the stack. Returns the variable that had the name before. -/
def define (a : Assembly) (name : String) (ty : Ty) :
    Except DefineError (Option Variable × Assembly) :=
  match a.frames with
  | [] => .error .noScope
  | frame :: rest =>
    if (frame.find? name).isSome then .error (.duplicate name)
    else
      let v : Variable := ⟨name, ty, a.stackSize - ty.size⟩
      .ok (a.find? name,
        { a with frames := { frame with declared := frame.declared ++ [v] } :: rest })

def followPath (offset : Nat) (ty : Ty) : List String → Option (Nat × Ty)
  | [] => some (offset, ty)
  | name :: rest =>
    match ty.definition.field? name with
    | some field => followPath (offset + field.offset) field.ty rest
    | none => none

def place? (a : Assembly) (p : Place) : Option (Nat × Ty) :=
  (a.find? p.name).bind fun v => followPath v.offset v.ty p.path

def slotAt (offset : Nat) (ty : Ty) : Slot := ⟨.stack offset, ty, []⟩

/-- Stores a constant and pushes it, or for a handle type pushes its address. -/
def pushConstant (a : Assembly) (c : Constant) (ty : Ty) : Checked (Slot × Assembly) := do
  let (offset, pool) ← a.pool.add c
  let i := if ty.isHandle then .worded .pushHandle offset else .sized .pushData ty.size offset
  return (slotAt a.stackSize ty, ← { a with pool }.emit i)

def pushStack (a : Assembly) (offset : Nat) (ty : Ty) : Checked (Slot × Assembly) := do
  return (slotAt a.stackSize ty, ← a.emit (.sized .pushStack ty.size offset))

def pushZero (a : Assembly) (ty : Ty) : Checked (Slot × Assembly) := do
  return (slotAt a.stackSize ty, ← a.emit (.worded .pushZero ty.size))

def assign (a : Assembly) (offset size : Nat) : Checked Assembly :=
  a.emit (.sized .assign size offset)

def discard (a : Assembly) (s : Slot) : Checked Assembly :=
  if s.size = 0 then .ok a else a.pop s.size

def flush (a : Assembly) (s : Slot) : Checked (Slot × Assembly) := do
  return ({ s with pending := [] }, ← a.emitAll s.pending)

def operate (a : Assembly) (operands : Nat) (op : Opcode) (operand : Primitive) (result : Ty) :
    Checked (Slot × Assembly) := do
  return (slotAt (a.stackSize - operands * operand.size) result,
    ← a.emit (.typed op operand.size (.ofPrimitive operand)))

def binary (a : Assembly) (op : Opcode) (operand : Primitive) (result : Ty) :
    Checked (Slot × Assembly) :=
  a.operate 2 op operand result

def unary (a : Assembly) (op : Opcode) (operand : Primitive) (result : Ty) :
    Checked (Slot × Assembly) :=
  a.operate 1 op operand result

def convert (a : Assembly) (source target : Primitive) (c : Conversion) :
    Checked (Bool × Assembly) := do
  match c.instruction? source target with
  | some i => return (true, ← a.emit i)
  | none => return (false, a)

def jumpOpcode (conditional : Bool) : Opcode := if conditional then .jumpIfFalse else .jump

def noTarget : Nat := 0xFFFFFFFF

/-- Reserves a slot for a jump to a later place. A conditional jump pops its condition here. -/
def openJump (a : Assembly) (conditional : Bool) : Checked (Jump × Assembly) := do
  return (.forward a.position, ← a.emit (.worded (jumpOpcode conditional) noTarget))

def label (a : Assembly) : Jump := .back a.position

def shown : Option Opcode → String
  | some op => "Some(" ++ op.label ++ ")"
  | none => "None"

/-- Directs an open jump to this place, or appends the jump back to a label. An open jump must have
the operation that it was opened with. -/
def closeJump (a : Assembly) (j : Jump) (conditional : Bool) : Checked Assembly :=
  let op := jumpOpcode conditional
  match j with
  | .forward slot =>
    match a.code[slot]? with
    | none => .error (.index slot a.code.size)
    | some i =>
      if i.opcode? = some op then
        .ok { a with code := a.code.setIfInBounds slot (.worded op a.position) }
      else
        .error (.assertion ("assertion `left == right` failed\n  left: " ++ shown i.opcode? ++
          "\n right: " ++ shown (some op)))
  | .back target => a.emit (.worded op target)

def halt (a : Assembly) (code : Int32) : Checked Assembly := a.emit (.halt code)

def debug (a : Assembly) : Checked Assembly := a.emit (.plain .debug)

end Assembly

end Bytescript
