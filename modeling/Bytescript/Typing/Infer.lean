import Bytescript.Typing.Rules

/-!
# Typing programs

Every expression gets a note, unless there is an issue with it or with a part of it. Expressions
leave the variables unchanged; statements declare them, and the variables of a block end with it.
-/
namespace Bytescript.Typing

structure Findings where
  notes : Notes
  issues : List Issue

def Findings.empty : Findings := ⟨.empty, []⟩

abbrev Typed := StateM Findings

def report (p : Problem) (position : Position) : Typed Unit :=
  modify fun f => { f with issues := f.issues ++ [p.issueAt position] }

def giveUp {α : Type} (p : Problem) (position : Position) : Typed (Option α) := do
  report p position
  return none

def file (mark : Mark) (note : Note) : Typed (Option Note) := do
  modify fun f => { f with notes := f.notes.insert mark.id note }
  return some note

/-- Adds a conversion of the value of an expression, unless none is needed. -/
def convert (id : UInt32) (target : Ty) (conversion : Conversion) : Typed Unit :=
  if conversion = .unneeded then return ()
  else modify fun f => { f with notes := f.notes.coerce id ⟨target, conversion⟩ }

def expression (env : Environment) (scopes : Scopes) : Expr → Typed (Option Note)
  | .literal mark value => do
    match literalNote env.core value with
    | .error p => giveUp p mark.position
    | .ok note => file mark note
  | .variable mark name => do
    match scopes.find? name with
    | none => giveUp (.unknownVariable name) mark.position
    | some ty => file mark (.ofType ty)
  | .field mark target name => do
    if target.isPlace then
      match ← expression env scopes target with
      | none => return none
      | some owner =>
        match fieldType owner.ty name with
        | .error p => giveUp p mark.position
        | .ok ty => file mark (.ofType ty)
    else giveUp .fieldOfValue mark.position
  | .binary mark op left right => do
    let leftNote ← expression env scopes left
    let rightNote ← expression env scopes right
    match leftNote, rightNote with
    | some leftNote, some rightNote =>
      match binaryOperands op leftNote rightNote with
      | .error p => giveUp p mark.position
      | .ok unified =>
        convert left.id unified.result unified.left
        convert right.id unified.result unified.right
        file mark (.ofType (binaryType env.core op unified.result))
    | _, _ => return none
  | .unary mark op operand => do
    match ← expression env scopes operand with
    | none => return none
    | some note =>
      match unaryType op note.ty with
      | .error p => giveUp p mark.position
      | .ok ty => file mark (.ofType ty)
  | .cast mark operand written => do
    match ← expression env scopes operand with
    | none => return none
    | some note =>
      match env.types.resolve written with
      | .error issue =>
        modify fun f => { f with issues := f.issues ++ [issue] }
        return none
      | .ok target =>
        match Conversion.between note.ty target with
        | .impossible => giveUp (.invalidCast note.ty target) mark.position
        | .unneeded =>
          report (.redundantCast target) mark.position
          file mark (.ofType target)
        | conversion =>
          convert operand.id target conversion
          file mark (.ofType target)

/-- Converts the value of an expression to a given type. -/
def fit (value : Expr) (target : Ty) : Typed Unit := do
  match (← get).notes.find? value.id with
  | none => return ()
  | some note =>
    match coercionTo note target with
    | .error p => report p value.position
    | .ok none => return ()
    | .ok (some c) => convert value.id c.target c.conversion

def declare (scopes : Scopes) (name : String) (ty : Ty) (position : Position) : Typed Scopes := do
  match scopes with
  | [] => return [[(name, ty)]]
  | inner :: outer =>
    if (inner.lookup name).isSome then
      report (.duplicateVariable name) position
      return scopes
    else
      if (Scopes.find? outer name).isSome then report (.shadowedVariable name) position
      return ((name, ty) :: inner) :: outer

def condition (env : Environment) (scopes : Scopes) (e : Expr) : Typed Unit := do
  match ← expression env scopes e with
  | none => return ()
  | some note =>
    if note.ty.isPrimitive .bool then return ()
    else report (.conditionNotBool note.ty) e.position

/-- The type of a new variable, if it is known. The value of a variable of a written type is
converted to that. -/
def declaredType (env : Environment) (scopes : Scopes) (position : Position) (name : String) :
    Option TypeRef → Option Expr → Typed (Option Ty)
  | some written, value => do
    match env.types.resolve written with
    | .error issue =>
      modify fun f => { f with issues := f.issues ++ [issue] }
      return none
    | .ok ty =>
      match value with
      | some value =>
        let _ ← expression env scopes value
        fit value ty
        return some ty
      | none => return some ty
  | none, some value => do
    return (← expression env scopes value).map (·.ty)
  | none, none => giveUp (.untypedVariable name) position

mutual

/-- Types a statement and returns the variables after it. -/
def statement (env : Environment) (scopes : Scopes) : Stmt → Typed Scopes
  | .declare position name ty value => do
    match ← declaredType env scopes position name ty value with
    | some ty => declare scopes name ty position
    | none => return scopes
  | .assign position target value => do
    match placeType scopes target with
    | .error p =>
      report p position
      let _ ← expression env scopes value
      return scopes
    | .ok ty =>
      let _ ← expression env scopes value
      fit value ty
      return scopes
  | .discard _ value => do
    let _ ← expression env scopes value
    return scopes
  | .block _ body => do
    let _ ← statements env ([] :: scopes) body
    return scopes
  | .branch _ e body otherwise => do
    condition env scopes e
    let _ ← statements env ([] :: scopes) body
    match otherwise with
    | some body =>
      let _ ← statements env ([] :: scopes) body
      return scopes
    | none => return scopes
  | .loop _ e body => do
    condition env scopes e
    let _ ← statements env ([] :: scopes) body
    return scopes
  | .halt .. | .debug _ => return scopes

def statements (env : Environment) (scopes : Scopes) : List Stmt → Typed Scopes
  | [] => return scopes
  | s :: rest => do
    let scopes ← statement env scopes s
    statements env scopes rest

end

def ofProgram (env : Environment) (p : Program) : Findings :=
  ((statements env [[]] p.body).run .empty).2

end Bytescript.Typing
