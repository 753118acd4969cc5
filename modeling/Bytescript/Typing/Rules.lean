import Bytescript.Environment
import Bytescript.Typing.Note

/-!
# Typing rules

The type of each form of expression from the types of its parts, or the problem with it.
-/
namespace Bytescript.Typing

abbrev Scopes := List (List (String × Ty))

def Scopes.find? (scopes : Scopes) (name : String) : Option Ty :=
  scopes.findSome? fun scope => scope.lookup name

def literalProblem (text : String) : LiteralError → Problem
  | .tooLarge => .integerTooLarge text
  | .malformed => .malformedLiteral text

def literalNote (core : CoreTypes) : Literal → Except Problem Note
  | .integer digits negative =>
    match Numeral.parse digits negative with
    | .error e => .error (literalProblem digits e)
    | .ok n =>
      .ok {
        ty := core.primitive n.type.primary
        secondary := n.type.secondary.map core.primitive
        constant := Constant.ofNumeral n.type.primary n
        coercion := none }
  | .float text negative =>
    match FloatLiteral.parse text negative with
    | .error e => .error (literalProblem text e)
    | .ok x => .ok (.ofConstant (core.primitive x.primitive) (Constant.ofFloat x.primitive x))
  | .bool value => .ok (.ofConstant core.bool (some (.ofBool value)))
  | .char text =>
    match parseUnit text with
    | .error e => .error (literalProblem text e)
    | .ok u => .ok (.ofConstant (core.primitive .char) (some (.ofUnit u)))
  | .text value => .ok (.ofConstant core.text (some (.text value)))

def fieldType (owner : Ty) (name : String) : Except Problem Ty :=
  match owner.definition.field? name with
  | some field => .ok field.ty
  | none => .error (.unknownField owner name)

/-- The type at the end of a path of fields that is assigned. -/
def pathType (ty : Ty) : List String → Except Problem Ty
  | [] => .ok ty
  | name :: rest =>
    let owner := ty.definition
    if !owner.fields.isEmpty && !owner.modifiers.writable then .error (.notAssignable owner.name)
    else
      match fieldType ty name with
      | .error e => .error e
      | .ok ty => pathType ty rest

def placeType (scopes : Scopes) (place : Place) : Except Problem Ty :=
  match scopes.find? place.name with
  | none => .error (.unknownVariable place.name)
  | some ty => pathType ty place.path

/-- Whether a binary operator works on operands of a primitive type. -/
def accepts (op : BinaryOp) (p : Primitive) : Bool :=
  match op.opClass with
  | .arithmetic => p.isNumeric
  | .bitwise => p.isInteger || (p == .bool && (op == .bitAnd || op == .bitOr || op == .bitXor))
  | .equality => true
  | .ordering => p.isNumeric || p == .char
  | .logical => p == .bool

def binaryOperands (op : BinaryOp) (left right : Note) : Except Problem Unified :=
  let unsuited := Problem.binaryOperator op left.ty right.ty
  match left.ty.primitive?, right.ty.primitive? with
  | some _, some _ =>
    match left.operand.unify right.operand with
    | .error .incompatible => .error unsuited
    | .error (.needsCast conversion) =>
      .error (.operandsNeedCast op left.ty right.ty conversion)
    | .ok unified =>
      match unified.result.primitive? with
      | some p => if accepts op p then .ok unified else .error unsuited
      | none => .error unsuited
  | _, _ => .error unsuited

/-- The type of a binary operation on operands of a common type. -/
def binaryType (core : CoreTypes) (op : BinaryOp) (operand : Ty) : Ty :=
  match op.opClass with
  | .equality | .ordering => core.bool
  | .arithmetic | .bitwise | .logical => operand

def acceptsUnary : UnaryOp → Primitive → Bool
  | .neg, p => p.isSigned || p.isFloat
  | .not, p => p == .bool
  | .inc, p | .dec, p => p.isNumeric

def unaryType (op : UnaryOp) (operand : Ty) : Except Problem Ty :=
  match operand.primitive? with
  | some p => if acceptsUnary op p then .ok operand else .error (.unaryOperator op operand)
  | none => .error (.unaryOperator op operand)

/-- The coercion of a value to a given type, if it needs one. -/
def coercionTo (note : Note) (target : Ty) : Except Problem (Option Coercion) :=
  let conversion := note.operand.conversionTo target
  if conversion = .unneeded then .ok none
  else if conversion.isImplicit then .ok (some ⟨target, conversion⟩)
  else if conversion.isPossible then .error (.valueNeedsCast note.ty target)
  else .error (.typeMismatch target.describe note.ty.describe)

end Bytescript.Typing
