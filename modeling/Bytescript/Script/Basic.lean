import Bytescript.Code.Instruction
import Bytescript.Pool

/-!
# Script files

A compiled program is stored as a header of 36 bytes, a data section and a code section:

* 8 bytes of signature, 8 bytes of version, 8 bytes of time (seconds since 1970),
* three 4-byte numbers: where the data starts, where the code starts, and the data offset of the
  module's name, which is -1 when there is none,
* the data, up to the start of the code,
* instructions of eight bytes each, up to the end of the file.

A `Script` is such a program taken apart. An `Image` is a file that was checked and is read in
place. A `View` is what a reader of either sees.
-/
namespace Bytescript

structure Version where
  major : UInt16
  minor : UInt16
  build : UInt16
  revision : UInt16
  deriving DecidableEq, Repr

namespace Version

def current : Version := ⟨0, 1, 0, 0⟩

def pack (v : Version) : Nat :=
  v.major.toNat <<< 48 + v.minor.toNat <<< 32 + v.build.toNat <<< 16 + v.revision.toNat

def unpack (n : Nat) : Version where
  major := (n >>> 48).toUInt16
  minor := (n >>> 32).toUInt16
  build := (n >>> 16).toUInt16
  revision := n.toUInt16

/-- Versions are ordered by their first numbers that differ. -/
def order (v w : Version) : Ordering := compare v.pack w.pack

def describe (v : Version) : String :=
  s!"{v.major}.{v.minor}.{v.build}.{v.revision}"

end Version

structure Header where
  version : Version
  compiledAt : Int64
  dataStart : Int32
  codeStart : Int32
  moduleName : Int32
  deriving DecidableEq, Repr

namespace Header

def length : Nat := 36

def signature : Bytes := [0x4B, 0x45, 0x45, 0x4C, 0x42, 0x43, 0x00, 0x01]

def unnamed : Int32 := -1

def toBytes (h : Header) : Bytes :=
  signature ++ Bytes.ofNat 8 h.version.pack ++ Bytes.ofInt 8 h.compiledAt.toInt ++
    Bytes.ofInt 4 h.dataStart.toInt ++ Bytes.ofInt 4 h.codeStart.toInt ++
    Bytes.ofInt 4 h.moduleName.toInt

def read (file : Bytes) : Header :=
  let number := fun start width => (Bytes.natAt? file start width).getD 0
  { version := .unpack (number 8 8)
    compiledAt := (number 16 8).toUInt64.toInt64
    dataStart := (number 24 4).toUInt32.toInt32
    codeStart := (number 28 4).toUInt32.toInt32
    moduleName := (number 32 4).toUInt32.toInt32 }

end Header

/-- The interface to a script. The instructions of a run are fetched; `instruction?` reads at any
index of 64 bits. -/
structure View where
  header : Header
  data : Bytes
  length : Nat
  fetch : Nat → Option Instruction
  instruction? : UInt64 → Checked (Option Instruction)

namespace View

def instructions (v : View) : List Instruction :=
  (List.range v.length).filterMap v.fetch

/-- The name of the script's module, read unit by unit from the data section. A count with its top
bit set is more units than any section holds. -/
def moduleName? (v : View) : Option String :=
  let start := v.header.moduleName.toInt
  if start < 0 then none
  else do
    let count ← Bytes.natAt? v.data start.toNat 4
    let count := if count < 0x80000000 then count else 0xFFFFFFFF00000000 + count
    let units ← Utf16.take? count (v.data.drop (start.toNat + 4))
    Utf16.text? units

end View

structure Script where
  header : Header
  data : Bytes
  code : Array Instruction
  deriving DecidableEq, Repr

namespace Script

def toBytes (s : Script) : Bytes :=
  s.header.toBytes ++ s.data ++ s.code.toList.flatMap Instruction.toBytes

def view (s : Script) : View where
  header := s.header
  data := s.data
  length := s.code.size
  fetch := fun i => s.code[i]?
  instruction? := fun i => .ok s.code[i.toNat]?

def addName (pool : Pool) : Option String → Checked (Int32 × Pool)
  | some name => do
    let (offset, pool) ← pool.add (.text name)
    return (Int32.ofNat offset, pool)
  | none => .ok (Header.unnamed, pool)

/-- Assembles a script. The name of the module, if there is one, is added to the constants. -/
def assemble (pool : Pool) (code : Array Instruction) (name : Option String)
    (compiledAt : Int64) : Checked Script := do
  let (moduleName, pool) ← addName pool name
  let data ← pool.toBytes
  return {
    header := {
      version := .current
      compiledAt
      dataStart := Int32.ofNat Header.length
      codeStart := Int32.ofNat (Header.length + data.length)
      moduleName }
    data
    code }

end Script

end Bytescript
