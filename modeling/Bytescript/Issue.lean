import Bytescript.Program.Wire
import Bytescript.Text.Columns
import Bytescript.Types.Conversion

/-!
# Issues

The findings of a compilation about a program. A problem is a cause with its particulars; an issue
is the message of a problem, at its position in the source text.
-/
namespace Bytescript

inductive Severity where
  | hint
  | warning
  | error
  deriving DecidableEq, Repr

namespace Severity

def rank : Severity → Nat
  | hint => 0
  | warning => 1
  | error => 2

def label : Severity → String
  | hint => "hint"
  | warning => "warning"
  | error => "error"

end Severity

/-- The kinds of issues. Each has a number that does not change. -/
inductive IssueKind where
  | parseFailure
  | unknownModule
  | unknownType
  | duplicateType
  | circularRecord
  | genericArity
  | unknownVariable
  | duplicateVariable
  | unknownField
  | invalidOperator
  | castNeeded
  | invalidCast
  | typeMismatch
  | integerTooLarge
  | invalidLiteral
  | conditionNotBool
  | notAssignable
  | duplicateImport
  | shadowedVariable
  | redundantCast
  deriving DecidableEq, Repr

namespace IssueKind

def all : List IssueKind :=
  [parseFailure, unknownModule, unknownType, duplicateType, circularRecord, genericArity,
    unknownVariable, duplicateVariable, unknownField, invalidOperator, castNeeded, invalidCast,
    typeMismatch, integerTooLarge, invalidLiteral, conditionNotBool, notAssignable,
    duplicateImport, shadowedVariable, redundantCast]

def code : IssueKind → Nat
  | parseFailure => 1
  | unknownModule => 2
  | unknownType => 3
  | duplicateType => 4
  | circularRecord => 5
  | genericArity => 6
  | unknownVariable => 7
  | duplicateVariable => 8
  | unknownField => 9
  | invalidOperator => 10
  | castNeeded => 11
  | invalidCast => 12
  | typeMismatch => 13
  | integerTooLarge => 14
  | invalidLiteral => 15
  | conditionNotBool => 16
  | notAssignable => 17
  | duplicateImport => 101
  | shadowedVariable => 102
  | redundantCast => 201

/-- Errors have numbers below 100 and warnings below 200. -/
def severity (k : IssueKind) : Severity :=
  if k.code < 100 then .error else if k.code < 200 then .warning else .hint

end IssueKind

structure Issue where
  kind : IssueKind
  position : Position
  message : String
  deriving DecidableEq, Repr

namespace Issue

def severity (i : Issue) : Severity := i.kind.severity

def describe (i : Issue) : String :=
  s!"{i.position.line}:{i.position.column}: " ++ i.severity.label ++ "[" ++
    Text.decimal 4 i.kind.code ++ "]: " ++ i.message

def anyAtLeast (threshold : Severity) (issues : List Issue) : Bool :=
  issues.any fun i => threshold.rank ≤ i.severity.rank

def count (severity : Severity) (issues : List Issue) : Nat :=
  issues.countP fun i => i.severity == severity

end Issue

/-- The problems that a program can have. -/
inductive Problem where
  | undecodable (cause : WireError)
  | noCoreModule
  | unknownModule (name : String)
  | unknownType (name : String)
  | typeNotInModule (source name : String)
  | untypedVariable (name : String)
  | duplicateType (name : String)
  | circularRecord (name : String)
  | genericArity (name : String) (expected found : Nat)
  | unknownVariable (name : String)
  | duplicateVariable (name : String)
  | duplicateField (name : String)
  | unknownField (owner : Ty) (name : String)
  | fieldOfValue
  | binaryOperator (op : BinaryOp) (left right : Ty)
  | unaryOperator (op : UnaryOp) (operand : Ty)
  | operandsNeedCast (op : BinaryOp) (left right : Ty) (conversion : Conversion)
  | valueNeedsCast (found target : Ty)
  | invalidCast (source target : Ty)
  | typeMismatch (expected found : String)
  | integerTooLarge (text : String)
  | malformedLiteral (text : String)
  | conditionNotBool (found : Ty)
  | notAssignable (owner : String)
  | importedAgain (name : String)
  | importedAgainAll (count : Nat) (source : String)
  | shadowedVariable (name : String)
  | redundantCast (target : Ty)

namespace Problem

def kind : Problem → IssueKind
  | undecodable _ => .parseFailure
  | noCoreModule | unknownModule _ => .unknownModule
  | unknownType _ | typeNotInModule .. | untypedVariable _ => .unknownType
  | duplicateType _ => .duplicateType
  | circularRecord _ => .circularRecord
  | genericArity .. => .genericArity
  | unknownVariable _ => .unknownVariable
  | duplicateVariable _ | duplicateField _ => .duplicateVariable
  | unknownField .. => .unknownField
  | fieldOfValue | binaryOperator .. | unaryOperator .. => .invalidOperator
  | operandsNeedCast .. | valueNeedsCast .. => .castNeeded
  | invalidCast .. => .invalidCast
  | typeMismatch .. => .typeMismatch
  | integerTooLarge _ => .integerTooLarge
  | malformedLiteral _ => .invalidLiteral
  | conditionNotBool _ => .conditionNotBool
  | notAssignable _ => .notAssignable
  | importedAgain _ | importedAgainAll .. => .duplicateImport
  | shadowedVariable _ => .shadowedVariable
  | redundantCast _ => .redundantCast

def message : Problem → String
  | undecodable cause => "could not decode syntax tree: " ++ cause.message
  | noCoreModule => "module catalog has no 'core' module"
  | unknownModule name => s!"unknown module '{name}'"
  | unknownType name => s!"unknown type '{name}'"
  | typeNotInModule source name => s!"module '{source}' has no type '{name}'"
  | untypedVariable name => s!"cannot tell the type of '{name}'"
  | duplicateType name => s!"type '{name}' is already defined"
  | circularRecord name => s!"struct '{name}' contains itself"
  | genericArity name expected found =>
    s!"type '{name}' takes {expected} generic argument(s), found {found}"
  | unknownVariable name => s!"unknown variable '{name}'"
  | duplicateVariable name => s!"variable '{name}' is already defined in this scope"
  | duplicateField name => s!"field '{name}' is declared twice"
  | unknownField owner name => "type '" ++ owner.describe ++ s!"' has no field '{name}'"
  | fieldOfValue => "field access needs a variable"
  | binaryOperator op left right =>
    "operator '" ++ op.symbol ++ "' cannot be applied to '" ++ left.describe ++ "' and '" ++
      right.describe ++ "'"
  | unaryOperator op operand =>
    "operator '" ++ op.symbol ++ "' cannot be applied to '" ++ operand.describe ++ "'"
  | operandsNeedCast op left right conversion =>
    "'" ++ left.describe ++ "' and '" ++ right.describe ++
      "' need an explicit cast to combine with '" ++ op.symbol ++ "' (" ++ conversion.label ++ ")"
  | valueNeedsCast found target =>
    "'" ++ found.describe ++ "' converts to '" ++ target.describe ++
      "' only with an explicit cast"
  | invalidCast source target =>
    "'" ++ source.describe ++ "' cannot be cast to '" ++ target.describe ++ "'"
  | typeMismatch expected found => s!"expected '{expected}', found '{found}'"
  | integerTooLarge text => s!"'{text}' does not fit in 128 bits"
  | malformedLiteral text => s!"malformed literal '{text}'"
  | conditionNotBool found => "condition must be 'bool', found '" ++ found.describe ++ "'"
  | notAssignable owner => s!"fields of '{owner}' cannot be assigned"
  | importedAgain name => s!"'{name}' is already imported"
  | importedAgainAll count source => s!"{count} type(s) of '{source}' were already imported"
  | shadowedVariable name => s!"'{name}' shadows an outer variable"
  | redundantCast target => "value is already '" ++ target.describe ++ "'"

def issueAt (p : Problem) (position : Position) : Issue := ⟨p.kind, position, p.message⟩

end Problem

end Bytescript
