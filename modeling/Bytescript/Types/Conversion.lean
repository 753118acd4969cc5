import Bytescript.Types.Basic

/-!
# Conversions

The conversion of a value of one type to another. Conversions are ordered by cost, and a binary
operator uses the cheaper direction between the types of its operands. A non-negative integer
literal has a second type, the narrowest signed one that holds it, and may be converted to a signed
type through that.
-/
namespace Bytescript

inductive Conversion where
  | unneeded
  | widenInteger
  | widenFloat
  | integerToFloat
  | resizeInteger
  | narrowFloat
  | floatToInteger
  | impossible
  deriving DecidableEq, Repr

namespace Conversion

def all : List Conversion :=
  [unneeded, widenInteger, widenFloat, integerToFloat, resizeInteger, narrowFloat, floatToInteger,
    impossible]

def cost : Conversion → Nat
  | unneeded => 0
  | widenInteger => 1
  | widenFloat => 2
  | integerToFloat => 3
  | resizeInteger => 4
  | narrowFloat => 5
  | floatToInteger => 6
  | impossible => 7

/-- Whether a conversion needs no cast in the program. -/
def isImplicit (c : Conversion) : Bool := c.cost ≤ integerToFloat.cost

def isPossible (c : Conversion) : Bool := c != impossible

def cheaper (c d : Conversion) : Conversion := if c.cost ≤ d.cost then c else d

def dearer (c d : Conversion) : Conversion := if c.cost ≤ d.cost then d else c

def label : Conversion → String
  | unneeded => "NotRequired"
  | widenInteger => "ImplicitResize"
  | widenFloat => "ImplicitFloatWiden"
  | integerToFloat => "ImplicitIntToFloat"
  | resizeInteger => "ExplicitResize"
  | narrowFloat => "ExplicitFloatNarrow"
  | floatToInteger => "ExplicitFloatToInt"
  | impossible => "None"

/-- Integers widen within their family and convert to a float when 64 bits hold them; every other
conversion between numbers is explicit. -/
def ofPrimitives (source target : Primitive) : Conversion :=
  if source = target then unneeded
  else
    match source.family, target.family with
    | .signed, .signed | .unsigned, .unsigned =>
      if source.size < target.size then widenInteger else resizeInteger
    | .signed, .unsigned | .unsigned, .signed => resizeInteger
    | .signed, .float | .unsigned, .float =>
      if source.size ≤ 8 then integerToFloat else impossible
    | .float, .signed | .float, .unsigned => floatToInteger
    | .float, .float => if source.size < target.size then widenFloat else narrowFloat
    | _, _ => impossible

def between (source target : Ty) : Conversion :=
  if source.same target then unneeded
  else
    match source.primitive?, target.primitive? with
    | some p, some q => ofPrimitives p q
    | _, _ => impossible

end Conversion

structure Operand where
  ty : Ty
  secondary : Option Ty

structure Unified where
  result : Ty
  left : Conversion
  right : Conversion

inductive UnifyError where
  | incompatible
  | needsCast (conversion : Conversion)
  deriving DecidableEq, Repr

namespace Operand

/-- The conversion of a literal to a signed type through its second type. A type as wide as the
literal's own reinterprets the bits of the literal. -/
def conversionVia (x : Operand) (secondary target : Ty) : Conversion :=
  let direct :=
    if secondary.size ≤ target.size then Conversion.between secondary target
    else if x.ty.size ≤ target.size then .widenInteger
    else .resizeInteger
  if direct = .unneeded ∧ x.ty.same target = false then .widenInteger else direct

def conversionTo (x : Operand) (target : Ty) : Conversion :=
  let direct := Conversion.between x.ty target
  match x.secondary, target.primitive? with
  | some secondary, some p =>
    if p.isSigned then direct.cheaper (x.conversionVia secondary target) else direct
  | _, _ => direct

/-- The common type of two operands. The cheaper direction is chosen, and the left type if both cost
the same; the conversion must be implicit. -/
def unify (left right : Operand) : Except UnifyError Unified :=
  let toLeft := right.conversionTo left.ty
  let toRight := left.conversionTo right.ty
  if toLeft = .impossible ∧ toRight = .impossible then .error .incompatible
  else
    let unified : Unified :=
      if toLeft.cost ≤ toRight.cost then ⟨left.ty, .unneeded, toLeft⟩
      else ⟨right.ty, toRight, .unneeded⟩
    let needed := unified.left.dearer unified.right
    if needed.isImplicit then .ok unified else .error (.needsCast needed)

end Operand

end Bytescript
