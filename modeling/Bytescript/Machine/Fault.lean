import Bytescript.Address
import Bytescript.Panic

/-!
# Faults

The errors that stop a run.
-/
namespace Bytescript

namespace Fault

inductive Cause where
  | stackOverflow (needed capacity : Nat)
  | stackUnderflow (wanted available : Nat)
  | divisionByZero
  | invalidOpcode (tag : UInt8)
  | badAddress (address : Address)
  | badWidth (width : Nat)
  | badJump (target : Nat)
  deriving DecidableEq, Repr

end Fault

/-- A fault of the instruction at index `ip`. -/
structure Fault where
  ip : Nat
  cause : Fault.Cause
  deriving DecidableEq, Repr

namespace Fault

def message (f : Fault) : String :=
  let ip := f.ip
  match f.cause with
  | .stackOverflow needed capacity =>
    s!"stack overflow at {ip}: {needed} bytes needed, capacity {capacity}"
  | .stackUnderflow wanted available =>
    s!"stack underflow at {ip}: popped {wanted} bytes with {available} on the stack"
  | .divisionByZero => s!"division by zero at {ip}"
  | .invalidOpcode tag => "invalid opcode " ++ Text.hexMarked 2 tag.toNat ++ s!" at {ip}"
  | .badAddress address => address.describe ++ s!" is out of range at {ip}"
  | .badWidth width => s!"unsupported operand width {width} at {ip}"
  | .badJump target => s!"jump to {target} outside the code at {ip}"

end Fault

end Bytescript
