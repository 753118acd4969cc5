import Bytescript.Issue
import Bytescript.Panic
import Bytescript.Types.Catalog

/-!
# The types that a program sees

Automatic modules come first, then the imports of the program, then its own records. A record can be
laid out once the types of its fields are known, so the records inside a record come before it; a
record that contains itself has no layout.
-/
namespace Bytescript

structure Environment where
  home : String
  types : TypeScope
  core : CoreTypes

mutual

/-- The type that a written type denotes, or the issue that there is none. -/
def TypeScope.resolve (scope : TypeScope) : TypeRef → Except Issue Ty
  | ⟨name, args, position⟩ =>
    match scope.find? name with
    | none => .error ((Problem.unknownType name).issueAt position)
    | some d =>
      if d.generics.length ≠ args.length then
        .error ((Problem.genericArity name d.generics.length args.length).issueAt position)
      else (scope.resolveAll args).map fun tys => ⟨d, tys⟩

def TypeScope.resolveAll (scope : TypeScope) : List TypeRef → Except Issue (List Ty)
  | [] => .ok []
  | t :: ts =>
    match scope.resolve t with
    | .error e => .error e
    | .ok ty => (scope.resolveAll ts).map (ty :: ·)

end

namespace Environment

def defaultHome : String := "main"

def addImport (catalog : Catalog) (scope : TypeScope) (i : Import) : TypeScope × List Issue :=
  match catalog.find? i.source with
  | none => (scope, [(Problem.unknownModule i.source).issueAt i.position])
  | some m =>
    match i.item with
    | some name =>
      match m.find? name with
      | none => (scope, [(Problem.typeNotInModule i.source name).issueAt i.position])
      | some d =>
        (scope.add d,
          if scope.contains d.name then [(Problem.importedAgain name).issueAt i.position] else [])
    | none =>
      let again := (scope.clashes m.types).length
      (scope.addAll m.types,
        if again = 0 then [] else [(Problem.importedAgainAll again i.source).issueAt i.position])

def addImports (catalog : Catalog) (scope : TypeScope) : List Import → TypeScope × List Issue
  | [] => (scope, [])
  | i :: rest =>
    let (scope, issues) := addImport catalog scope i
    let (scope, more) := addImports catalog scope rest
    (scope, issues ++ more)

inductive Progress where
  | pending
  | underway
  | done
  | failed
  deriving DecidableEq, Repr

/-- The records of a program and the progress of their layouts. -/
structure Drafts where
  progress : List (String × Progress)
  types : TypeScope
  issues : List Issue

namespace Drafts

def progress? (d : Drafts) (name : String) : Option Progress := d.progress.lookup name

def mark (d : Drafts) (name : String) (p : Progress) : Drafts :=
  { d with progress := d.progress.map fun (n, q) => if n = name then (n, p) else (n, q) }

def report (d : Drafts) (p : Problem) (position : Position) : Drafts :=
  { d with issues := d.issues ++ [p.issueAt position] }

end Drafts

structure Gathered where
  fields : List (String × Ty)
  good : Bool
  drafts : Drafts

/-- Adds a field whose type, if it is a record of the program, has been laid out. -/
def gatherField (g : Gathered) (field : FieldDecl) : Gathered :=
  if g.fields.any fun (name, _) => name == field.name then
    { g with
      good := false
      drafts := g.drafts.report (.duplicateField field.name) field.position }
  else
    match g.drafts.types.resolve field.ty with
    | .ok ty => { g with fields := g.fields ++ [(field.name, ty)] }
    | .error issue =>
      { g with good := false, drafts := { g.drafts with issues := g.drafts.issues ++ [issue] } }

/-- Lays out a record, and the records inside it first, with records nested at most `depth` deep.
Returns whether there is a layout. -/
def layOutWithin (home : String) (records : List RecordDecl) :
    (depth : Nat) → RecordDecl → Drafts → Bool × Drafts
  | 0, _, drafts => (false, drafts)
  | depth + 1, record, drafts =>
    match drafts.progress? record.name with
    | some .done => (true, drafts)
    | some .failed => (false, drafts)
    | some .underway =>
      (false, (drafts.report (.circularRecord record.name) record.position).mark record.name
        .failed)
    | some .pending | none =>
      let gathered := record.fields.foldl (fun (g : Gathered) field =>
        match records.find? fun r => r.name == field.ty.name with
        | none => gatherField g field
        | some inner =>
          match layOutWithin home records depth inner g.drafts with
          | (true, drafts) => gatherField { g with drafts } field
          | (false, drafts) => { g with good := false, drafts })
        ⟨[], true, drafts.mark record.name .underway⟩
      let drafts := gathered.drafts
      if gathered.good ∧ drafts.progress? record.name ≠ some .failed then
        let definition := Definition.ofFields home record.name ⟨record.shared, true⟩
          gathered.fields
        (true, { drafts with types := drafts.types.add definition }.mark record.name .done)
      else (false, drafts.mark record.name .failed)

/-- Lays out a record. Every level of nesting starts another record, so one level more than there
are records is enough. -/
def layOut (home : String) (records : List RecordDecl) (record : RecordDecl) (drafts : Drafts) :
    Drafts :=
  (layOutWithin home records (records.length + 1) record drafts).2

def draft (scope : TypeScope) (records : List RecordDecl) : List RecordDecl × List Issue :=
  records.foldl (fun (kept, issues) record =>
    if scope.contains record.name || kept.any fun r => r.name == record.name then
      (kept, issues ++ [(Problem.duplicateType record.name).issueAt record.position])
    else (kept ++ [record], issues)) ([], [])

def addRecords (home : String) (scope : TypeScope) (records : List RecordDecl) :
    TypeScope × List Issue :=
  let (kept, issues) := draft scope records
  let drafts := kept.foldl (fun drafts record =>
    if drafts.progress? record.name = some .pending then layOut home kept record drafts
    else drafts) ⟨kept.map fun r => (r.name, .pending), scope, issues⟩
  (drafts.types, drafts.issues)

/-- The environment of a program, with the issues. There is none when the catalog lacks the types of
literals. -/
def ofProgram (catalog : Catalog) (automatic : Bool) (p : Program) :
    Option Environment × List Issue :=
  match catalog.coreTypes? with
  | none => (none, [Problem.noCoreModule.issueAt ⟨0, 0⟩])
  | some core =>
    let home := p.name.getD defaultHome
    let scope :=
      if automatic then
        catalog.automatic.foldl (fun scope m => scope.addAll m.types) TypeScope.empty
      else TypeScope.empty
    let (scope, importIssues) := addImports catalog scope p.imports
    let (types, recordIssues) := addRecords home scope p.records
    (some ⟨home, types, core⟩, importIssues ++ recordIssues)

/-- The panic of laying out a record whose size does not fit in 32 bits. -/
def panic? (env : Environment) : Option Panic :=
  env.types.types.findSome? fun d =>
    match Checked.sum (d.fields.map fun f => f.ty.size) with
    | .ok _ => none
    | .error q => some q

end Environment

end Bytescript
