import Bytescript.Floating.Decimal
import Bytescript.Script.Image
import Bytescript.Text.Quoted

/-!
# Listings

The readable form of a script: a box with its name, its version and its sizes, and then one line for
each instruction, with the targets of jumps marked, followed on request by the number of uses of
each operation.
-/
namespace Bytescript.Listing

/-- The text stored at an offset of a data section: a unit count of four bytes and the units. -/
def text? (data : Bytes) (start : Nat) : Option String := do
  let count ← Bytes.natAt? data start 4
  let stored ← Bytes.slice? data (start + 4) (2 * count)
  Utf16.text? (Utf16.ofBytes stored)

def bracketed (bs : Bytes) : String :=
  "[" ++ " ".intercalate (Text.hexBytes bs) ++ "]"

def remarked (text remark : String) : String :=
  Text.padRight 28 text ++ " ; " ++ remark

/-- One instruction at an index, with what it refers to in the data section. -/
def line (data : Bytes) (index : Nat) (i : Instruction) : String :=
  match i.opcode? with
  | none => "??          tag " ++ Text.hexMarked 2 i.tag.toNat
  | some op =>
    let name := Text.padRight 11 op.mnemonic
    let width := i.width.toNat
    let word := i.word.toNat
    let second := i.second
    match op.layout with
    | .plain => op.mnemonic
    | .code => name ++ " " ++ toString i.code.toInt
    | .target =>
      let arrow := if index < word then "↓" else "↑"
      s!"{name} {arrow} (→ " ++ Text.decimal 4 word ++ ")"
    | .sizedAddress =>
      let shown := s!"{name} {width}b @" ++ Text.hexMarked 4 word
      if op = .pushData then
        match Bytes.slice? data word width with
        | some bs => remarked shown (bracketed bs)
        | none => remarked shown "out of range"
      else shown
    | .address =>
      let shown := s!"{name} @" ++ Text.hexMarked 4 word
      match text? data word with
      | some text => remarked shown (Text.quoted text)
      | none => shown
    | .count => s!"{name} {word}b"
    | .widths => s!"{name} {width}b -> {second}b"
    | .typed =>
      match i.kind? with
      | some kind => s!"{name} {width}b " ++ kind.label
      | none => s!"{name} {width}b kind?{second}"

def targets (code : List Instruction) : List Nat :=
  (code.filter fun i => i.opcode?.map Opcode.layout == some .target).map fun i => i.word.toNat

def code (v : View) : String :=
  let instructions := v.instructions
  let marked := targets instructions
  String.join <| instructions.zipIdx.map fun (i, index) =>
    let shown := line v.data index i
    if index ∈ marked then
      "      ┌──────────────────────────────────\n" ++ Text.decimal 4 index ++ " ► " ++ shown ++ "\n"
    else Text.decimal 4 index ++ "   " ++ shown ++ "\n"

def box (v : View) : String :=
  let name := v.moduleName?.getD "<anonymous>"
  let version := v.header.version.describe
  let length := v.length
  let size := v.data.length
  "╔══════════════════════════════════════\n" ++
  s!"║ module {name}\n" ++
  s!"║ version {version}\n" ++
  s!"║ {length} instruction(s), {size} data byte(s)\n" ++
  "╚══════════════════════════════════════\n"

def script (v : View) : String := box v ++ code v

def tally (v : View) : List (String × Nat) :=
  let names := v.instructions.map fun i => (i.opcode?.map Opcode.mnemonic).getD "??"
  names.eraseDups.map fun name => (name, names.count name)

def ranked (entries : List (String × Nat)) : List (String × Nat) :=
  entries.mergeSort fun a b => b.2 < a.2 || (a.2 = b.2 && a.1 ≤ b.1)

/-- The percentage of `part` in `total`, computed in 64-bit floating point, with one decimal. -/
def percent (part total : Nat) : String :=
  match ((Floating.Value.ofInt part).div (.ofInt total)).mul (.ofInt 100) with
  | .finite _ m e => Floating.oneplace m e
  | _ => ""

def statistics (v : View) : String :=
  let length := v.length
  let size := v.data.length
  let entries := tally v
  let head := "=== SCRIPT STATISTICS ===\n\n" ++
    s!"Instructions:     {length}\n" ++
    s!"Data bytes:       {size}\n" ++
    "\n"
  if entries.isEmpty then head
  else
    head ++ "Op frequency:\n" ++ String.join ((ranked entries).take 10 |>.map fun (name, count) =>
      "  " ++ Text.padRight 14 name ++ " " ++ Text.padLeft ' ' 4 (toString count) ++
        " (" ++ Text.padLeft ' ' 5 (percent count length) ++ "%)\n")

end Bytescript.Listing
