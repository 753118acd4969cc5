import Bytescript.Command.Directory
import Bytescript.Command.Path
import Bytescript.Compile
import Bytescript.Machine.Run
import Bytescript.Script.Listing

/-!
# The command line

Commands that build, run and list scripts. A command touches files only through `Files`, so that
it can be performed on the file system as well as on a `Directory`.
-/
namespace Bytescript

inductive Command where
  | build (input : String) (output : Option String) (strict : Bool)
  | run (input : String)
  | list (input : String) (statistics : Bool)
  | help
  /-- Arguments that make no command. -/
  | misuse
  deriving DecidableEq, Repr

namespace Command

def output? : List String → Option String
  | [] => none
  | arg :: rest => if arg = "-o" then rest.head? else output? rest

/-- The arguments that are neither options nor directly behind a `-o`, where `behind` says whether
the first one is. -/
def positional (behind : Bool) : List String → List String
  | [] => []
  | arg :: rest =>
    let others := positional (arg == "-o") rest
    if behind || arg.startsWith "-" then others else arg :: others

def ofArgs (args : List String) : Command :=
  match positional false args with
  | "build" :: input :: _ => build input (output? args) (args.contains "--Werror")
  | "run" :: input :: _ => run input
  | "disasm" :: input :: _ => list input (args.contains "--stats")
  | [] | "help" :: _ => help
  | _ => misuse

def usage : String :=
  "KEEL - typed bytecode compiler and VM\n" ++
  "\n" ++
  "Usage:\n" ++
  "  keel build <tree.kt> [-o out.kbc] [--Werror]   Compile a syntax tree\n" ++
  "  keel run <file.kbc>                             Run a compiled script\n" ++
  "  keel disasm <file.kbc> [--stats]                Show the instructions\n" ++
  "  keel help                                       Show this help\n"

end Command

/-- The output of a command, and its exit code. -/
structure Report where
  output : String
  errors : String
  code : Int32
  deriving DecidableEq, Repr

namespace Report

def status (r : Report) : UInt8 := r.code.toInt8.toUInt8

def ok (output : String) : Report := ⟨output, "", 0⟩

def failed (lines : List String) : Report := ⟨"", String.join (lines.map (· ++ "\n")), 1⟩

def panicked (p : Panic) : Report := { failed [p.message] with code := 101 }

end Report

/-- Reading and writing files, with the texts of errors. -/
structure Files (m : Type → Type) where
  read : String → m (Except String Bytes)
  write : String → Bytes → m (Except String Unit)

def Files.ofDirectory : Files (StateM Directory) where
  read path := fun d => ((d.read path).mapError FileError.message, d)
  write path content := fun d =>
    match d.write path content with
    | .ok d => (.ok (), d)
    | .error e => (.error e.message, d)

namespace Command

variable {m : Type → Type} [Monad m]

def withFile (files : Files m) (path : String) (next : Bytes → m Report) : m Report := do
  match ← files.read path with
  | .ok content => next content
  | .error e => return .failed [s!"Failed to read '{path}': {e}"]

def withScript (files : Files m) (path : String) (next : View → Report) : m Report :=
  withFile files path fun content =>
    match Image.load content with
    | .ok image => return next image.view
    | .error e => return .failed [s!"Load error in '{path}': " ++ e.message]

def issueLines (input : String) (issues : List Issue) : List String :=
  issues.map fun i => s!"{input}: " ++ i.describe

def performBuild (files : Files m) (time : Int64) (input : String) (output : Option String)
    (strict : Bool) : m Report :=
  withFile files input fun content => do
    let options := { CompileOptions.default with strict }
    let compilation := Program.compileBytes options .standard time content
    let lines := issueLines input compilation.issues
    match compilation.panic, compilation.script with
    | some p, _ => return .panicked p
    | none, none =>
      let count := Issue.count .warning compilation.issues + Issue.count .error compilation.issues
      return .failed (lines ++ [s!"Compile error: build failed with {count} problem(s)"])
    | none, some script =>
      let path := output.getD (Path.withExtension "kbc" input)
      match ← files.write path script.toBytes with
      | .ok () => return { Report.failed lines with code := 0 }
      | .error e => return .failed (lines ++ [s!"Failed to write '{path}': {e}"])

def runReport (script : View) : Report :=
  match Machine.launch Machine.defaultCapacity script with
  | .ended exit s =>
    let code := exit.code.toInt
    let size := s.stack.size
    ⟨s!"exit {code} with {size} byte(s) on the stack\n", "", exit.code⟩
  | .faulted fault _ => .failed ["Runtime error: " ++ fault.message]
  | .panicked p _ => .panicked p
  | .running _ => .failed ["Runtime error: step limit reached"]

def listReport (statistics : Bool) (script : View) : Report :=
  .ok (Listing.script script ++
    if statistics then "\n" ++ Listing.statistics script else "")

/-- Performs a command at a given time, in seconds since 1970. -/
def perform (files : Files m) (time : Int64) : Command → m Report
  | build input output strict => performBuild files time input output strict
  | run input => withScript files input runReport
  | list input statistics => withScript files input (listReport statistics)
  | help => return .ok usage
  | misuse => return { Report.ok usage with code := 1 }

end Command

end Bytescript
