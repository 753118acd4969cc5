import Bytescript.Script.Basic

/-!
# Loading script files

`Image.load` accepts a file when its signature, its offsets, the length of its code section and
its version are right. The checks are made in a fixed order and the first that fails is reported.
-/
namespace Bytescript

inductive LoadError where
  | tooShort (length : Nat)
  | badSignature (found : Nat)
  | badOffsets (dataStart codeStart : Int32) (length : Nat)
  | raggedCode (length : Nat)
  | versionMismatch (found : Version)
  deriving DecidableEq, Repr

namespace LoadError

def message : LoadError → String
  | tooShort length => s!"file is {length} bytes, too short for a header"
  | badSignature found => "bad signature " ++ Text.hexMarked 16 found
  | badOffsets dataStart codeStart length =>
    let data := dataStart.toInt
    let code := codeStart.toInt
    s!"inconsistent offsets: data at {data}, code at {code}, file is {length} bytes"
  | raggedCode length => s!"code section of {length} bytes is not a whole number of instructions"
  | versionMismatch found =>
    "bytecode version " ++ found.describe ++ " does not match " ++ Version.current.describe

end LoadError

/-- A checked file: its header, its data section and its code section, not decoded. -/
structure Image where
  header : Header
  data : Bytes
  code : Bytes
  deriving DecidableEq, Repr

namespace Image

def cut (file : Bytes) : Except LoadError Image :=
  let header := Header.read file
  let dataStart := header.dataStart.toInt
  let codeStart := header.codeStart.toInt
  if dataStart < Header.length ∨ codeStart < dataStart ∨ file.length < codeStart then
    .error (.badOffsets header.dataStart header.codeStart file.length)
  else
    let code := file.drop codeStart.toNat
    if code.length % Instruction.length ≠ 0 then .error (.raggedCode code.length)
    else if header.version ≠ .current then .error (.versionMismatch header.version)
    else .ok ⟨header, (file.take codeStart.toNat).drop dataStart.toNat, code⟩

def load (file : Bytes) : Except LoadError Image :=
  match Bytes.slice? file 0 Header.signature.length with
  | none => .error (.tooShort file.length)
  | some found =>
    if found ≠ Header.signature then .error (.badSignature (Bytes.toNat found))
    else if file.length < Header.length then .error (.tooShort file.length)
    else cut file

def fetch (image : Image) (index : Nat) : Option Instruction :=
  (Bytes.slice? image.code (Instruction.length * index) Instruction.length).bind
    Instruction.ofBytes?

/-- Reads one instruction in place, at any index of 64 bits. The start of the instruction is a
checked product, and its end an unchecked sum. -/
def instruction? (image : Image) (index : UInt64) : Checked (Option Instruction) :=
  let start := index.toNat * Instruction.length
  if start < UInt64.size then
    if start + Instruction.length < UInt64.size then
      .ok ((Bytes.slice? image.code start Instruction.length).bind Instruction.ofBytes?)
    else .error .addition
  else .ok none

def view (image : Image) : View where
  header := image.header
  data := image.data
  length := image.code.length / Instruction.length
  fetch := image.fetch
  instruction? := image.instruction?

def toScript (image : Image) : Script :=
  ⟨image.header, image.data, (Instruction.decodeAll image.code).toArray⟩

end Image

def Script.ofBytes (file : Bytes) : Except LoadError Script :=
  (Image.load file).map Image.toScript

end Bytescript
