import Bytescript.Assembly.Basic
import Bytescript.Environment
import Bytescript.Typing.Note

/-!
# Generating code

Code for the statements of a program, from the notes on its expressions. Each expression leaves one
value on top of the stack. Generation fails where the notes and the tree disagree, and panics where
an instruction cannot be counted.
-/
namespace Bytescript.Generate

def binaryOpcode (op : BinaryOp) (operand : Primitive) : Opcode :=
  match op with
  | .add => if operand.isFloat then .float .add else .integer .add
  | .sub => if operand.isFloat then .float .sub else .integer .sub
  | .mul => if operand.isFloat then .float .mul else .integer .mul
  | .div => if operand.isFloat then .float .div else .integer .div
  | .mod => if operand.isFloat then .float .mod else .integer .mod
  | .shiftLeft => .integer .shiftLeft
  | .shiftRight => .integer .shiftRight
  | .bitAnd | .and => .integer .and
  | .bitOr | .or => .integer .or
  | .bitXor => .integer .xor
  | .eq => .compare .eq
  | .ne => .compare .ne
  | .lt => .compare .lt
  | .le => .compare .le
  | .gt => .compare .gt
  | .ge => .compare .ge

def unaryOpcode (op : UnaryOp) (operand : Primitive) : Opcode :=
  let step := fun op => if operand.isFloat then Opcode.floatStep op else Opcode.integerStep op
  match op with
  | .neg => step .neg
  | .not => .not
  | .inc => step .inc
  | .dec => step .dec

/-- The reasons why there is no code: the notes and the tree disagree, or an assembly panics. -/
inductive Failure where
  | disagreement
  | panic (p : Panic)
  deriving DecidableEq, Repr

abbrev Gen := StateT Assembly (Except Failure)

/-- A value that exists if the notes and the tree agree. -/
def need {α : Type} : Option α → Gen α
  | some x => pure x
  | none => throw .disagreement

def act {α : Type} (work : Assembly → Checked (α × Assembly)) : Gen α := fun a =>
  (work a).mapError .panic

def change (work : Assembly → Checked Assembly) : Gen Unit :=
  act fun a => (work a).map fun b => ((), b)

def settle (note : Note) (slot : Slot) : Gen Slot := do
  match note.coercion with
  | none => return slot
  | some c =>
    let source ← need note.ty.primitive?
    let target ← need c.target.primitive?
    let slot :=
      match c.conversion.instruction? source target with
      | some i => slot.defer i
      | none => slot
    let slot ← act fun a => a.flush slot
    return { slot with ty := c.target }

def read (p : Place) : Gen Slot := do
  let (offset, ty) ← need ((← get).place? p)
  act fun a => a.pushStack offset ty

def expression (notes : Notes) : Expr → Gen Slot
  | .literal mark _ => do
    let note ← need (notes.find? mark.id)
    let constant ← need note.constant
    let slot ← act fun a => a.pushConstant constant note.ty
    settle note slot
  | .variable mark name => do
    let note ← need (notes.find? mark.id)
    let slot ← read ⟨name, []⟩
    settle note slot
  | e@(.field mark _ _) => do
    let note ← need (notes.find? mark.id)
    let place ← need e.place?
    let slot ← read place
    settle note slot
  | .binary mark op left right => do
    let note ← need (notes.find? mark.id)
    let leftSlot ← expression notes left
    let _ ← expression notes right
    let operand ← need leftSlot.ty.primitive?
    let slot ← act fun a => a.binary (binaryOpcode op operand) operand note.ty
    settle note slot
  | .unary mark op inner => do
    let note ← need (notes.find? mark.id)
    let innerSlot ← expression notes inner
    let operand ← need innerSlot.ty.primitive?
    let slot ← act fun a => a.unary (unaryOpcode op operand) operand note.ty
    settle note slot
  | .cast mark inner _ => do
    let note ← need (notes.find? mark.id)
    let slot ← expression notes inner
    settle note { slot with ty := note.ty }

def define (name : String) (ty : Ty) : Gen Unit := fun a =>
  match a.define name ty with
  | .ok (_, a) => .ok ((), a)
  | .error _ => .error .disagreement

/-- Code for the value of a new variable, and the type of the variable. A written type takes
precedence over that of the value. -/
def initial (env : Environment) (notes : Notes) : Option TypeRef → Option Expr → Gen Ty
  | some written, value => do
    let ty ← need (env.types.resolve written).toOption
    match value with
    | some value =>
      let _ ← expression notes value
      return ty
    | none =>
      let _ ← act fun a => a.pushZero ty
      return ty
  | none, some value => do
    let slot ← expression notes value
    return slot.ty
  | none, none => throw .disagreement

def closeFrame : Gen Unit := do
  let _ ← act Assembly.closeFrame

mutual

def statement (env : Environment) (notes : Notes) : Stmt → Gen Unit
  | .declare _ name ty value => do
    let ty ← initial env notes ty value
    define name ty
  | .assign _ target value => do
    let _ ← expression notes value
    let (offset, ty) ← need ((← get).place? target)
    change fun a => a.assign offset ty.size
  | .discard _ value => do
    let slot ← expression notes value
    change fun a => a.discard slot
  | .block _ body => do
    modify Assembly.openFrame
    statements env notes body
    closeFrame
  | .branch _ condition body otherwise => do
    let _ ← expression notes condition
    let skip ← act fun a => a.openJump true
    modify Assembly.openFrame
    statements env notes body
    closeFrame
    match otherwise with
    | none => change fun a => a.closeJump skip true
    | some body =>
      let leave ← act fun a => a.openJump false
      change fun a => a.closeJump skip true
      modify Assembly.openFrame
      statements env notes body
      closeFrame
      change fun a => a.closeJump leave false
  | .loop _ condition body => do
    let top := (← get).label
    let _ ← expression notes condition
    let leave ← act fun a => a.openJump true
    modify Assembly.openFrame
    statements env notes body
    closeFrame
    change fun a => a.closeJump top false
    change fun a => a.closeJump leave true
  | .halt _ code => change fun a => a.halt code
  | .debug _ => change Assembly.debug

def statements (env : Environment) (notes : Notes) : List Stmt → Gen Unit
  | [] => return ()
  | s :: rest => do
    statement env notes s
    statements env notes rest

end

/-- The code and the constants of a program. -/
def ofProgram (env : Environment) (notes : Notes) (p : Program) : Except Failure Assembly :=
  ((statements env notes p.body).run .start).map Prod.snd

end Bytescript.Generate
