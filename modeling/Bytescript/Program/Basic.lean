/-!
# Source programs

A source program is a tree: imports, record declarations and statements. Every node has a position
in the source text, and every expression also has a number, under which the results of typing are
filed.
-/
namespace Bytescript

structure Position where
  line : UInt64
  column : UInt64
  deriving DecidableEq, Repr

/-- A type as it is written: a name and its arguments. -/
structure TypeRef where
  name : String
  args : List TypeRef
  position : Position

/-- The text of a literal, its sign apart from the digits. -/
inductive Literal where
  | integer (digits : String) (negative : Bool)
  | float (text : String) (negative : Bool)
  | bool (value : Bool)
  | char (text : String)
  | text (value : String)
  deriving DecidableEq, Repr

inductive BinaryOp where
  | add
  | sub
  | mul
  | div
  | mod
  | shiftLeft
  | shiftRight
  | bitAnd
  | bitOr
  | bitXor
  | eq
  | ne
  | lt
  | le
  | gt
  | ge
  | and
  | or
  deriving DecidableEq, Repr

/-- What binary operators require of their operands. -/
inductive OperatorClass where
  | arithmetic
  | bitwise
  | equality
  | ordering
  | logical
  deriving DecidableEq, Repr

inductive UnaryOp where
  | neg
  | not
  | inc
  | dec
  deriving DecidableEq, Repr

structure Mark where
  id : UInt32
  position : Position
  deriving DecidableEq, Repr

inductive Expr where
  | literal (mark : Mark) (value : Literal)
  | variable (mark : Mark) (name : String)
  | field (mark : Mark) (target : Expr) (name : String)
  | binary (mark : Mark) (op : BinaryOp) (left right : Expr)
  | unary (mark : Mark) (op : UnaryOp) (operand : Expr)
  | cast (mark : Mark) (operand : Expr) (ty : TypeRef)

/-- A variable, or a field inside one, that can be assigned. -/
structure Place where
  name : String
  path : List String
  deriving DecidableEq, Repr

inductive Stmt where
  /-- A new variable. Without a value it starts as zero. -/
  | declare (position : Position) (name : String) (ty : Option TypeRef) (value : Option Expr)
  | assign (position : Position) (target : Place) (value : Expr)
  /-- An expression whose value is dropped. -/
  | discard (position : Position) (value : Expr)
  | block (position : Position) (body : List Stmt)
  | branch (position : Position) (condition : Expr) (body : List Stmt)
      (otherwise : Option (List Stmt))
  | loop (position : Position) (condition : Expr) (body : List Stmt)
  | halt (position : Position) (code : Int32)
  | debug (position : Position)

structure Import where
  source : String
  /-- One type by name, or all types of the module. -/
  item : Option String
  position : Position
  deriving DecidableEq, Repr

structure FieldDecl where
  name : String
  ty : TypeRef
  position : Position

structure RecordDecl where
  name : String
  shared : Bool
  fields : List FieldDecl
  position : Position

structure Program where
  name : Option String
  imports : List Import
  records : List RecordDecl
  body : List Stmt

namespace BinaryOp

def all : List BinaryOp :=
  [add, sub, mul, div, mod, shiftLeft, shiftRight, bitAnd, bitOr, bitXor, eq, ne, lt, le, gt, ge,
    and, or]

def symbol : BinaryOp → String
  | add => "+"
  | sub => "-"
  | mul => "*"
  | div => "/"
  | mod => "%"
  | shiftLeft => "<<"
  | shiftRight => ">>"
  | bitAnd => "&"
  | bitOr => "|"
  | bitXor => "^"
  | eq => "=="
  | ne => "!="
  | lt => "<"
  | le => "<="
  | gt => ">"
  | ge => ">="
  | and => "&&"
  | or => "||"

def opClass : BinaryOp → OperatorClass
  | add | sub | mul | div | mod => .arithmetic
  | shiftLeft | shiftRight | bitAnd | bitOr | bitXor => .bitwise
  | eq | ne => .equality
  | lt | le | gt | ge => .ordering
  | and | or => .logical

end BinaryOp

namespace UnaryOp

def all : List UnaryOp := [neg, not, inc, dec]

def symbol : UnaryOp → String
  | neg => "-"
  | not => "!"
  | inc => "++"
  | dec => "--"

end UnaryOp

namespace Expr

def mark : Expr → Mark
  | .literal m _ | .variable m _ | .field m _ _ | .binary m _ _ _ | .unary m _ _ | .cast m _ _ => m

def id (e : Expr) : UInt32 := e.mark.id

def position (e : Expr) : Position := e.mark.position

def isPlace : Expr → Bool
  | .variable .. => true
  | .field _ target _ => target.isPlace
  | _ => false

def place? : Expr → Option Place
  | .variable _ name => some ⟨name, []⟩
  | .field _ target name => target.place?.map fun p => { p with path := p.path ++ [name] }
  | _ => none

/-- An expression and all inside it, the inner ones first. -/
def nodes : Expr → List Expr
  | e@(.literal ..) | e@(.variable ..) => [e]
  | e@(.field _ target _) => target.nodes ++ [e]
  | e@(.binary _ _ left right) => left.nodes ++ right.nodes ++ [e]
  | e@(.unary _ _ operand) => operand.nodes ++ [e]
  | e@(.cast _ operand _) => operand.nodes ++ [e]

end Expr

namespace Stmt

def position : Stmt → Position
  | .declare p .. | .assign p .. | .discard p .. | .block p .. | .branch p .. | .loop p ..
  | .halt p .. | .debug p => p

mutual

def nodes : Stmt → List Expr
  | .declare _ _ _ value => (value.map Expr.nodes).getD []
  | .assign _ _ value => value.nodes
  | .discard _ value => value.nodes
  | .block _ body => nodesAll body
  | .branch _ condition body otherwise =>
    condition.nodes ++ nodesAll body ++
      (match otherwise with
      | some body => nodesAll body
      | none => [])
  | .loop _ condition body => condition.nodes ++ nodesAll body
  | .halt .. | .debug _ => []

def nodesAll : List Stmt → List Expr
  | [] => []
  | s :: rest => s.nodes ++ nodesAll rest

end

end Stmt

end Bytescript
