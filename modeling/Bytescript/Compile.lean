import Bytescript.Assembly.Generate
import Bytescript.Script.Basic
import Bytescript.Typing.Infer

/-!
# Compiling programs

A program is compiled in three stages: its types are made visible, its expressions are typed, and
code is generated. After each of the first two, an issue at or above the threshold ends the
compilation without a script.
-/
namespace Bytescript

structure CompileOptions where
  /-- Warnings end a compilation too. -/
  strict : Bool
  /-- The types of automatic modules are visible. -/
  automatic : Bool
  deriving DecidableEq, Repr

namespace CompileOptions

def default : CompileOptions := ⟨false, true⟩

/-- The least severity that ends a compilation. -/
def threshold (o : CompileOptions) : Severity := if o.strict then .warning else .error

end CompileOptions

/-- The result of a compilation. There is no script if an issue reached the threshold or something
panicked. -/
structure Compilation where
  script : Option Script
  issues : List Issue
  panic : Option Panic

namespace Compilation

def succeeded (c : Compilation) : Bool := c.script.isSome

end Compilation

namespace Program

def link (env : Environment) (notes : Notes) (time : Int64) (p : Program) :
    Except Generate.Failure Script := do
  let a ← Generate.ofProgram env notes p
  (Script.assemble a.pool a.code (some env.home) time).mapError .panic

/-- Compiles a program into a script with a given time. -/
def compile (options : CompileOptions) (catalog : Catalog) (time : Int64) (p : Program) :
    Compilation :=
  match Environment.ofProgram catalog options.automatic p with
  | (none, issues) => ⟨none, issues, none⟩
  | (some env, issues) =>
    if env.panic?.isSome then ⟨none, issues, env.panic?⟩
    else if Issue.anyAtLeast options.threshold issues then ⟨none, issues, none⟩
    else
      let findings := Typing.ofProgram env p
      let issues := issues ++ findings.issues
      if Issue.anyAtLeast options.threshold issues then ⟨none, issues, none⟩
      else
        match p.link env findings.notes time with
        | .ok script => ⟨some script, issues, none⟩
        | .error .disagreement => ⟨none, issues, none⟩
        | .error (.panic q) => ⟨none, issues, some q⟩

def compileBytes (options : CompileOptions) (catalog : Catalog) (time : Int64) (bs : Bytes) :
    Compilation :=
  match ofBytes bs with
  | .ok p => p.compile options catalog time
  | .error e => ⟨none, [(Problem.undecodable e).issueAt ⟨0, 0⟩], none⟩

end Program

end Bytescript
