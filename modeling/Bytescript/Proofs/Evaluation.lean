import Mathlib
import Bytescript.Environment
import Bytescript.Floating.Arithmetic
import Bytescript.Typing.Note

/-!
# Evaluation of programs

The meaning of a program, defined by recursion on its tree with the notes on its expressions.
Variables are in nested scopes and hold their bytes; there is no code, no stack and no jump. A loop
may run a given number of rounds, and an evaluation that needs more is exhausted.
-/
namespace Bytescript.Evaluation

structure Binding where
  name : String
  ty : Ty
  value : Bytes

/-- The variables of nested scopes, the innermost scope first, each in the order of declaration. -/
abbrev Store := List (List Binding)

/-- The reasons why an evaluation stops. It is stuck where the notes do not fit the tree. -/
inductive Ending where
  | halted (code : Int32) (store : Store)
  | divisionByZero
  | stuck
  | exhausted

/-- What is known of a program besides its tree: the types that can be named, the notes on the
expressions, and where texts are stored. -/
structure Annotations where
  types : TypeScope
  notes : Notes
  texts : String → Option Nat

def word (p : Primitive) (x : Bytes) : BitVec (8 * p.size) := Bytes.toWord p.size x

def float (p : Primitive) (x : Bytes) : Floating.Value := Floating.load p.size (Bytes.toNat x)

def ofFloat (p : Primitive) (v : Floating.Value) : Bytes :=
  Bytes.ofNat p.size (Floating.store p.size v)

def number (p : Primitive) (x : Bytes) : Int :=
  if p.isSigned then (word p x).toInt else (word p x).toNat

def truth (b : Bool) : Bytes := [if b then 1 else 0]

def order (p : Primitive) (x y : Bytes) : Option Ordering :=
  if p.isFloat then (float p x).compare? (float p y)
  else some (compare (number p x) (number p y))

def numeric (p : Primitive) (onFloats : Floating.Value → Floating.Value → Floating.Value)
    (onWords : BitVec (8 * p.size) → BitVec (8 * p.size) → BitVec (8 * p.size)) (x y : Bytes) :
    Bytes :=
  if p.isFloat then ofFloat p (onFloats (float p x) (float p y))
  else Bytes.ofWord (onWords (word p x) (word p y))

def divided (p : Primitive) (onFloats : Floating.Value → Floating.Value → Floating.Value)
    (onWords : BitVec (8 * p.size) → BitVec (8 * p.size) → BitVec (8 * p.size)) (x y : Bytes) :
    Except Ending Bytes :=
  if p.isFloat = false ∧ word p y = 0 then .error .divisionByZero
  else .ok (numeric p onFloats onWords x y)

/-- How far a word is shifted: by the right operand, modulo the number of bits. -/
def distance (p : Primitive) (y : Bytes) : Nat := (word p y).toNat % (8 * p.size)

def binary (op : BinaryOp) (p : Primitive) (x y : Bytes) : Except Ending Bytes :=
  match op with
  | .add => .ok (numeric p Floating.Value.add (· + ·) x y)
  | .sub => .ok (numeric p Floating.Value.sub (· - ·) x y)
  | .mul => .ok (numeric p Floating.Value.mul (· * ·) x y)
  | .div => divided p Floating.Value.div (if p.isSigned then BitVec.sdiv else BitVec.udiv) x y
  | .mod => divided p Floating.Value.rem (if p.isSigned then BitVec.srem else BitVec.umod) x y
  | .shiftLeft => .ok (Bytes.ofWord (word p x <<< distance p y))
  | .shiftRight =>
    .ok (Bytes.ofWord
      (if p.isSigned then (word p x).sshiftRight (distance p y) else word p x >>> distance p y))
  | .bitAnd | .and => .ok (Bytes.ofWord (word p x &&& word p y))
  | .bitOr | .or => .ok (Bytes.ofWord (word p x ||| word p y))
  | .bitXor => .ok (Bytes.ofWord (word p x ^^^ word p y))
  | .eq => .ok (truth (order p x y == some .eq))
  | .ne => .ok (truth (order p x y != some .eq))
  | .lt => .ok (truth (order p x y == some .lt))
  | .le => .ok (truth (order p x y == some .lt || order p x y == some .eq))
  | .gt => .ok (truth (order p x y == some .gt))
  | .ge => .ok (truth (order p x y == some .gt || order p x y == some .eq))

def unary (op : UnaryOp) (p : Primitive) (x : Bytes) : Bytes :=
  let one := Floating.Value.ofInt 1
  match op with
  | .neg =>
    if p.isFloat then ofFloat p (float p x).negate else Bytes.ofWord (-word p x)
  | .not => Bytes.ofWord (if word p x = 0 then (1 : BitVec (8 * p.size)) else 0)
  | .inc =>
    if p.isFloat then ofFloat p ((float p x).add one) else Bytes.ofWord (word p x + 1)
  | .dec =>
    if p.isFloat then ofFloat p ((float p x).sub one) else Bytes.ofWord (word p x - 1)

/-- A value of one primitive type as one of another. Integers keep their value modulo the width;
floats are truncated and clamped to the bounds of the integer type. -/
def convert (c : Conversion) (source target : Primitive) (x : Bytes) : Bytes :=
  match c with
  | .unneeded | .impossible => x
  | .widenInteger | .resizeInteger =>
    Bytes.ofWord (w := target.size)
      (if source.isSigned then (word source x).signExtend _ else (word source x).setWidth _)
  | .widenFloat | .narrowFloat => ofFloat target (float source x)
  | .integerToFloat => ofFloat target (Floating.Value.ofInt (number source x)).round
  | .floatToInteger =>
    let bound : Int := (1 <<< (8 * target.size - 1) : Nat)
    let v :=
      if target.isSigned then (float source x).truncate (-bound) (bound - 1)
      else (float source x).truncate 0 (2 * bound - 1)
    Bytes.ofWord (w := target.size) (BitVec.ofInt _ v)

def constant (texts : String → Option Nat) : Constant → Option Bytes
  | .primitive _ bits => some (Bytes.ofWord bits)
  | .text value => (texts value).map (Bytes.ofNat handleSize)

def part (bs : Bytes) (start n : Nat) : Bytes := (bs.drop start).take n

def require {α : Type} : Option α → Except Ending α
  | some a => .ok a
  | none => .error .stuck

/-- A value after the coercion in its note. -/
def coerced (note : Note) (x : Bytes) : Except Ending Bytes :=
  match note.coercion with
  | none => .ok x
  | some c => do
    let source ← require note.ty.primitive?
    let target ← require c.target.primitive?
    return convert c.conversion source target x

def Binding.updated (name : String) (value : Bytes) (b : Binding) : Binding :=
  if b.name = name then { b with value } else b

namespace Store

def find? (store : Store) (name : String) : Option Binding :=
  store.findSome? fun scope => scope.find? fun b => b.name == name

def set (store : Store) (name : String) (value : Bytes) : Store :=
  match store with
  | [] => []
  | scope :: rest =>
    if scope.any fun b => b.name == name then
      scope.map (Binding.updated name value) :: rest
    else scope :: set rest name value

def declare (store : Store) (b : Binding) : Store :=
  match store with
  | [] => [[b]]
  | scope :: rest => (scope ++ [b]) :: rest

def bytes : Store → Bytes
  | [] => []
  | scope :: rest => bytes rest ++ scope.flatMap Binding.value

end Store

def expression (known : Annotations) (store : Store) : Expr → Except Ending Bytes
  | .literal mark _ => do
    let note ← require (known.notes.find? mark.id)
    let c ← require note.constant
    let x ← require (constant known.texts c)
    coerced note x
  | .variable mark name => do
    let note ← require (known.notes.find? mark.id)
    let b ← require (Store.find? store name)
    coerced note b.value
  | .field mark target name => do
    let note ← require (known.notes.find? mark.id)
    let owner ← require (known.notes.find? target.id)
    let x ← expression known store target
    let field ← require (owner.ty.definition.field? name)
    coerced note (part x field.offset field.ty.size)
  | .binary mark op left right => do
    let note ← require (known.notes.find? mark.id)
    let leftNote ← require (known.notes.find? left.id)
    let x ← expression known store left
    let y ← expression known store right
    let p ← require leftNote.finalType.primitive?
    let z ← binary op p x y
    coerced note z
  | .unary mark op operand => do
    let note ← require (known.notes.find? mark.id)
    let operandNote ← require (known.notes.find? operand.id)
    let x ← expression known store operand
    let p ← require operandNote.finalType.primitive?
    coerced note (unary op p x)
  | .cast mark operand _ => do
    let note ← require (known.notes.find? mark.id)
    let x ← expression known store operand
    coerced note x

/-- The value of a place with the part at the end of a path replaced. -/
def replaced (ty : Ty) : List String → Bytes → Bytes → Option Bytes
  | [], _, new => some new
  | name :: rest, old, new =>
    (ty.definition.field? name).bind fun field =>
      (replaced field.ty rest (part old field.offset field.ty.size) new).map fun inner =>
        Bytes.overwrite old field.offset inner

/-- The type and the first value of a new variable. A written type takes precedence over that of the
value; without a value the variable starts as zero. -/
def initial (known : Annotations) (store : Store) :
    Option TypeRef → Option Expr → Except Ending (Ty × Bytes)
  | some written, value => do
    let ty ← require (known.types.resolve written).toOption
    match value with
    | some e => return (ty, ← expression known store e)
    | none => return (ty, List.replicate ty.size 0)
  | none, some e => do
    let note ← require (known.notes.find? e.id)
    return (note.finalType, ← expression known store e)
  | none, none => .error .stuck

/-- Repeats a loop up to a given number of rounds. A round that gives nothing was the last. -/
def iterate (round : Store → Except Ending (Option Store)) : Nat → Store → Except Ending Store
  | 0, _ => .error .exhausted
  | n + 1, store =>
    match round store with
    | .error e => .error e
    | .ok none => .ok store
    | .ok (some store) => iterate round n store

def isTrue (x : Bytes) : Bool := Bytes.toNat x != 0

mutual

/-- The variables after a statement, each of whose loops runs at most `fuel` rounds. -/
def statement (known : Annotations) (fuel : Nat) (store : Store) : Stmt → Except Ending Store
  | .declare _ name ty value => do
    let (ty, x) ← initial known store ty value
    return Store.declare store ⟨name, ty, x⟩
  | .assign _ target value => do
    let x ← expression known store value
    let b ← require (Store.find? store target.name)
    let whole ← require (replaced b.ty target.path b.value x)
    return Store.set store target.name whole
  | .discard _ value => do
    let _ ← expression known store value
    return store
  | .block _ body => do
    let store ← statements known fuel ([] :: store) body
    return store.tail
  | .branch _ condition body otherwise => do
    let x ← expression known store condition
    if isTrue x then
      let store ← statements known fuel ([] :: store) body
      return store.tail
    else
      match otherwise with
      | some body =>
        let store ← statements known fuel ([] :: store) body
        return store.tail
      | none => return store
  | .loop _ condition body =>
    iterate (fun store => do
      let x ← expression known store condition
      if isTrue x then
        let store ← statements known fuel ([] :: store) body
        return some store.tail
      else return none) fuel store
  | .halt _ code => .error (.halted code store)
  | .debug _ => return store

def statements (known : Annotations) (fuel : Nat) (store : Store) :
    List Stmt → Except Ending Store
  | [] => return store
  | s :: rest => do
    let store ← statement known fuel store s
    statements known fuel store rest

end

def program (known : Annotations) (fuel : Nat) (p : Program) : Except Ending Store :=
  statements known fuel [[]] p.body

end Bytescript.Evaluation
