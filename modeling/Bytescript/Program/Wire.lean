import Bytescript.Bytes
import Bytescript.Program.Basic

/-!
# The wire form of programs

Programs are stored as bytes with nothing between the parts of a node. Numbers are written in groups
of seven bits, lowest group first, each but the last with its top bit set; a list or a text is its
length and then its elements; a choice is its number and then its parts. Reading stops at the first
error, and ignores what follows the program.
-/
namespace Bytescript

inductive WireError where
  | endOfInput
  | badNumber
  | badFlag
  | badOption
  | badText
  | badChoice
  deriving DecidableEq, Repr

def WireError.message : WireError → String
  | .endOfInput => "Hit the end of buffer, expected more data"
  | .badNumber => "Found a varint that didn't terminate. Is the usize too big for this platform?"
  | .badFlag => "Found a bool that wasn't 0 or 1"
  | .badOption => "Found an Option discriminant that wasn't 0 or 1"
  | .badText => "Tried to parse invalid utf-8"
  | .badChoice => "Serde Deserialization Error"

namespace Wire

def number (n : Nat) : Bytes :=
  if n < 128 then [n.toUInt8] else (n % 128 + 128).toUInt8 :: number (n / 128)
termination_by n
decreasing_by omega

/-- A signed number, as twice its size, or one less than that for a negative one. -/
def signed (n : Int32) : Bytes :=
  number (if 0 ≤ n.toInt then 2 * n.toInt else -2 * n.toInt - 1).toNat

def flag (b : Bool) : Bytes := [b.toNat.toUInt8]

def text (s : String) : Bytes :=
  let bytes := s.toUTF8.data.toList
  number bytes.length ++ bytes

def option {α : Type} (write : α → Bytes) : Option α → Bytes
  | none => [0]
  | some a => 1 :: write a

def many {α : Type} (write : α → Bytes) (as : List α) : Bytes :=
  number as.length ++ as.flatMap write

def position (p : Position) : Bytes := number p.line.toNat ++ number p.column.toNat

mutual

def typeRef : TypeRef → Bytes
  | ⟨name, args, p⟩ => text name ++ (number args.length ++ typeRefs args) ++ position p

def typeRefs : List TypeRef → Bytes
  | [] => []
  | t :: ts => typeRef t ++ typeRefs ts

end

def literal : Literal → Bytes
  | .integer digits negative => number 0 ++ text digits ++ flag negative
  | .float value negative => number 1 ++ text value ++ flag negative
  | .bool value => number 2 ++ flag value
  | .char value => number 3 ++ text value
  | .text value => number 4 ++ text value

def binaryOp (op : BinaryOp) : Bytes := number (BinaryOp.all.idxOf op)

def unaryOp (op : UnaryOp) : Bytes := number (UnaryOp.all.idxOf op)

def expr : Expr → Bytes
  | .literal m value => number m.id.toNat ++ (number 0 ++ literal value) ++ position m.position
  | .variable m name => number m.id.toNat ++ (number 1 ++ text name) ++ position m.position
  | .field m target name =>
    number m.id.toNat ++ (number 2 ++ expr target ++ text name) ++ position m.position
  | .binary m op left right =>
    number m.id.toNat ++ (number 3 ++ binaryOp op ++ expr left ++ expr right) ++
      position m.position
  | .unary m op operand =>
    number m.id.toNat ++ (number 4 ++ unaryOp op ++ expr operand) ++ position m.position
  | .cast m operand ty =>
    number m.id.toNat ++ (number 5 ++ expr operand ++ typeRef ty) ++ position m.position

def place (p : Place) : Bytes := text p.name ++ many text p.path

mutual

def stmt : Stmt → Bytes
  | .declare p name ty value =>
    number 0 ++ text name ++ option typeRef ty ++ option expr value ++ position p
  | .assign p target value => number 1 ++ place target ++ expr value ++ position p
  | .discard p value => number 2 ++ expr value ++ position p
  | .block p body => number 3 ++ (number body.length ++ stmts body) ++ position p
  | .branch p condition body otherwise =>
    number 4 ++ expr condition ++ (number body.length ++ stmts body) ++
      (match otherwise with
      | none => [0]
      | some body => 1 :: (number body.length ++ stmts body)) ++ position p
  | .loop p condition body =>
    number 5 ++ expr condition ++ (number body.length ++ stmts body) ++ position p
  | .halt p code => number 6 ++ signed code ++ position p
  | .debug p => number 7 ++ position p

def stmts : List Stmt → Bytes
  | [] => []
  | s :: rest => stmt s ++ stmts rest

end

def importItem : Option String → Bytes
  | some name => number 0 ++ text name
  | none => number 1

def importDecl (i : Import) : Bytes := text i.source ++ importItem i.item ++ position i.position

def fieldDecl (f : FieldDecl) : Bytes := text f.name ++ typeRef f.ty ++ position f.position

def recordDecl (r : RecordDecl) : Bytes :=
  text r.name ++ flag r.shared ++ many fieldDecl r.fields ++ position r.position

def program (p : Program) : Bytes :=
  option text p.name ++ many importDecl p.imports ++ many recordDecl p.records ++
    many stmt p.body

abbrev Reader := StateT Bytes (Except WireError)

def byte : Reader UInt8 := fun
  | [] => .error .endOfInput
  | b :: rest => .ok (b, rest)

/-- A number of at most `n` groups, the last of which, if they are all used, is at most `top`. -/
def groups (top : Nat) : Nat → Reader Nat
  | 0 => throw .badNumber
  | n + 1 => do
    let b ← byte
    if b.toNat < 128 then
      if n = 0 ∧ top < b.toNat then throw .badNumber else return b.toNat
    else
      let rest ← groups top n
      return b.toNat - 128 + 128 * rest

def readLong : Reader Nat := groups 1 10

def readShort : Reader Nat := groups 15 5

def readSigned : Reader Int32 := do
  let n ← readShort
  return Int32.ofInt (if n % 2 = 0 then (n / 2 : Nat) else -((n / 2 : Nat) : Int) - 1)

def readFlag : Reader Bool := do
  let b ← byte
  if b = 0 then return false else if b = 1 then return true else throw .badFlag

def bytes (n : Nat) : Reader Bytes := fun input =>
  if n ≤ input.length then .ok (input.take n, input.drop n) else .error .endOfInput

def readText : Reader String := do
  let n ← readLong
  let bs ← bytes n
  match String.fromUTF8? ⟨bs.toArray⟩ with
  | some s => return s
  | none => throw .badText

def readOption {α : Type} (read : Reader α) : Reader (Option α) := do
  let b ← byte
  if b = 0 then return none else if b = 1 then return some (← read) else throw .badOption

def times {α : Type} (read : Reader α) : Nat → Reader (List α)
  | 0 => return []
  | n + 1 => do
    let a ← read
    let as ← times read n
    return a :: as

def readMany {α : Type} (read : Reader α) : Reader (List α) := do
  let n ← readLong
  times read n

def readChoice {α : Type} (choices : List α) : Reader α := do
  let n ← readShort
  match choices[n]? with
  | some a => return a
  | none => throw .badChoice

def readPosition : Reader Position := do
  let line ← readLong
  let column ← readLong
  return ⟨line.toUInt64, column.toUInt64⟩

def typeRefWithin : Nat → Reader TypeRef
  | 0 => throw .endOfInput
  | depth + 1 => do
    let name ← readText
    let args ← readMany (typeRefWithin depth)
    let position ← readPosition
    return ⟨name, args, position⟩

/-- Runs a reader that bounds the nesting of what it reads. Each level takes at least one byte, so
the length of the input is a sufficient bound. -/
def nested {α : Type} (read : Nat → Reader α) : Reader α := do
  let input ← get
  read input.length

def readTypeRef : Reader TypeRef := nested typeRefWithin

def readLiteral : Reader Literal := do
  match ← readShort with
  | 0 => return .integer (← readText) (← readFlag)
  | 1 => return .float (← readText) (← readFlag)
  | 2 => return .bool (← readFlag)
  | 3 => return .char (← readText)
  | 4 => return .text (← readText)
  | _ => throw .badChoice

/-- The parts of an expression, as a function of its mark. -/
def exprParts (inner : Reader Expr) : Reader (Mark → Expr) := do
  match ← readShort with
  | 0 =>
    let value ← readLiteral
    return fun m => .literal m value
  | 1 =>
    let name ← readText
    return fun m => .variable m name
  | 2 =>
    let target ← inner
    let name ← readText
    return fun m => .field m target name
  | 3 =>
    let op ← readChoice BinaryOp.all
    let left ← inner
    let right ← inner
    return fun m => .binary m op left right
  | 4 =>
    let op ← readChoice UnaryOp.all
    let operand ← inner
    return fun m => .unary m op operand
  | 5 =>
    let operand ← inner
    let ty ← readTypeRef
    return fun m => .cast m operand ty
  | _ => throw .badChoice

def exprWithin : Nat → Reader Expr
  | 0 => throw .endOfInput
  | depth + 1 => do
    let id ← readShort
    let make ← exprParts (exprWithin depth)
    let position ← readPosition
    return make ⟨id.toUInt32, position⟩

def readExpr : Reader Expr := nested exprWithin

def readPlace : Reader Place := do
  let name ← readText
  let path ← readMany readText
  return ⟨name, path⟩

/-- The parts of a statement, as a function of its position. -/
def stmtParts (inner : Reader Stmt) : Reader (Position → Stmt) := do
  match ← readShort with
  | 0 =>
    let name ← readText
    let ty ← readOption readTypeRef
    let value ← readOption readExpr
    return fun p => .declare p name ty value
  | 1 =>
    let target ← readPlace
    let value ← readExpr
    return fun p => .assign p target value
  | 2 =>
    let value ← readExpr
    return fun p => .discard p value
  | 3 =>
    let body ← readMany inner
    return fun p => .block p body
  | 4 =>
    let condition ← readExpr
    let body ← readMany inner
    let otherwise ← readOption (readMany inner)
    return fun p => .branch p condition body otherwise
  | 5 =>
    let condition ← readExpr
    let body ← readMany inner
    return fun p => .loop p condition body
  | 6 =>
    let code ← readSigned
    return fun p => .halt p code
  | 7 => return fun p => .debug p
  | _ => throw .badChoice

def stmtWithin : Nat → Reader Stmt
  | 0 => throw .endOfInput
  | depth + 1 => do
    let make ← stmtParts (stmtWithin depth)
    let position ← readPosition
    return make position

def readStmt : Reader Stmt := nested stmtWithin

def readImportItem : Reader (Option String) := do
  match ← readShort with
  | 0 => return some (← readText)
  | 1 => return none
  | _ => throw .badChoice

def readImport : Reader Import := do
  let source ← readText
  let item ← readImportItem
  let position ← readPosition
  return ⟨source, item, position⟩

def readFieldDecl : Reader FieldDecl := do
  let name ← readText
  let ty ← readTypeRef
  let position ← readPosition
  return ⟨name, ty, position⟩

def readRecordDecl : Reader RecordDecl := do
  let name ← readText
  let shared ← readFlag
  let fields ← readMany readFieldDecl
  let position ← readPosition
  return ⟨name, shared, fields, position⟩

def readProgram : Reader Program := do
  let name ← readOption readText
  let imports ← readMany readImport
  let records ← readMany readRecordDecl
  let body ← readMany readStmt
  return ⟨name, imports, records, body⟩

end Wire

namespace Program

def toBytes (p : Program) : Bytes := Wire.program p

def ofBytes (bs : Bytes) : Except WireError Program :=
  (Wire.readProgram.run bs).map Prod.fst

end Program

end Bytescript
