import Bytescript.Constant
import Bytescript.Panic

/-!
# The constant pool

Constants are placed on a grid of eight bytes. A constant that ends between two grid lines leaves a
hole up to the next line, and a constant of less than eight bytes is placed in the first hole that
is long enough. A constant that is stored already is not placed again.
-/
namespace Bytescript

structure Hole where
  start : Nat
  length : Nat
  deriving DecidableEq, Repr

structure Placed where
  constant : Constant
  offset : Nat

/-- The size of a constant as a 32-bit number. -/
def Constant.cell (c : Constant) : Nat := c.size % wordLimit

structure Pool where
  mark : Nat
  holes : List Hole
  placed : List Placed

namespace Pool

def grid : Nat := 8

def blockSize : Nat := 16

def empty : Pool := ⟨0, [], []⟩

def roundUp (n unit : Nat) : Checked Nat := Checked.mul ((n + unit - 1) / unit) unit

/-- Cuts `size` bytes off the front of the first hole that has them. -/
def takeHole (size : Nat) : List Hole → Option (Nat × List Hole)
  | [] => none
  | h :: rest =>
    if size ≤ h.length then
      some (h.start, if h.length = size then rest else ⟨h.start + size, h.length - size⟩ :: rest)
    else (takeHole size rest).map fun (start, holes) => (start, h :: holes)

/-- Places `size` bytes at the end, followed by a hole up to the next grid line. -/
def extend (pool : Pool) (size : Nat) : Checked (Nat × Pool) := do
  let rounded ← roundUp size grid
  let mark ← Checked.add pool.mark rounded
  let hole := ⟨pool.mark + size, rounded - size⟩
  return (pool.mark, { pool with mark, holes := pool.holes ++ [hole] })

def allocate (pool : Pool) (size : Nat) : Checked (Nat × Pool) :=
  if size % grid = 0 then do
    let mark ← Checked.add pool.mark size
    return (pool.mark, { pool with mark })
  else if size < grid then
    match takeHole size pool.holes with
    | some (start, holes) => .ok (start, { pool with holes })
    | none => pool.extend size
  else pool.extend size

def find? (pool : Pool) (c : Constant) : Option Nat :=
  (pool.placed.find? fun p => p.constant = c).map (·.offset)

/-- Stores a constant and returns its offset. -/
def add (pool : Pool) (c : Constant) : Checked (Nat × Pool) :=
  match pool.find? c with
  | some offset => .ok (offset, pool)
  | none => do
    let (offset, pool) ← pool.allocate c.cell
    return (offset, { pool with placed := pool.placed ++ [⟨c, offset⟩] })

def isEmpty (pool : Pool) : Bool := pool.placed.isEmpty

def write (bs : Bytes) (p : Placed) : Checked Bytes :=
  let stop := p.offset + p.constant.size
  if stop ≤ bs.length then .ok (Bytes.overwrite bs p.offset p.constant.toBytes)
  else .error (.range stop bs.length)

/-- The pool as one string of bytes, zero where nothing is placed. -/
def toBytes (pool : Pool) : Checked Bytes := do
  let length ← roundUp pool.mark blockSize
  pool.placed.foldlM write (List.replicate length 0)

end Pool

end Bytescript
