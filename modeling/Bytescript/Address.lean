import Bytescript.Text.Columns

/-!
# Addresses

The location of a value: in the data section, on the operand stack counted from its bottom, or
behind a handle. Handle zero is the null handle.
-/
namespace Bytescript

inductive Address where
  | data (offset : Nat)
  | stack (offset : Nat)
  | heap (handle : Nat)
  deriving DecidableEq, Repr

namespace Address

def null : Address := .heap 0

def offset : Address → Nat
  | .data n | .stack n | .heap n => n

def describe : Address → String
  | .data n => "data+" ++ Text.hexMarked 4 n
  | .stack n => s!"stack+{n}"
  | .heap 0 => "null"
  | .heap n => s!"heap#{n}"

end Address

end Bytescript
