import Bytescript.Floating.Format
import Bytescript.Floating.Half

/-!
# Arithmetic on floating-point values

`Value.sum` and its companions are exact. The operations of the machine (`add`, `sub`, `mul`,
`div`, `rem`) take and give values of the 64-bit format: the exact result, rounded.
-/
namespace Bytescript.Floating

namespace Value

def round (v : Value) : Value :=
  double.decode (double.encode v)

def invalid : Value := .nan false Format.quiet

def ofInt (n : Int) : Value :=
  .finite (n < 0) n.natAbs 0

def negate : Value → Value
  | .nan negative payload => .nan (!negative) payload
  | .infinite negative => .infinite (!negative)
  | .finite negative m e => .finite (!negative) m e

def signedUnits (negative : Bool) (m : Nat) (e place : Int) : Int :=
  let units : Int := (m <<< (e - place).toNat : Nat)
  if negative then -units else units

/-- The exact sum. Opposite numbers add up to the positive zero. -/
def sum : Value → Value → Value
  | .nan .., _ => invalid
  | _, .nan .. => invalid
  | .infinite a, .infinite b => if a = b then .infinite a else invalid
  | .infinite a, .finite .. => .infinite a
  | .finite .., .infinite b => .infinite b
  | .finite a m d, .finite b n e =>
    let place := min d e
    let total := signedUnits a m d place + signedUnits b n e place
    if total = 0 then .finite (a && b) 0 place
    else .finite (total < 0) total.natAbs place

def product : Value → Value → Value
  | .nan .., _ => invalid
  | _, .nan .. => invalid
  | .infinite a, .infinite b => .infinite (a != b)
  | .infinite a, .finite b n _ => if n = 0 then invalid else .infinite (a != b)
  | .finite a m _, .infinite b => if m = 0 then invalid else .infinite (a != b)
  | .finite a m d, .finite b n e => .finite (a != b) (m * n) (d + e)

/-- `m / n * 2 ^ e` to so many places that rounding it rounds the exact quotient: the last place
only says whether there is a remainder. -/
def ratio (negative : Bool) (m n : Nat) (e : Int) : Value :=
  let extra := double.fractionBits + 4 + n.log2
  let quotient := m <<< extra / n
  let leftOver := if m <<< extra % n = 0 then 0 else 1
  .finite negative (2 * quotient + leftOver) (e - extra - 1)

def quotient : Value → Value → Value
  | .nan .., _ => invalid
  | _, .nan .. => invalid
  | .infinite _, .infinite _ => invalid
  | .infinite a, .finite b _ _ => .infinite (a != b)
  | .finite a _ _, .infinite b => .finite (a != b) 0 0
  | .finite a m d, .finite b n e =>
    if n = 0 then if m = 0 then invalid else .infinite (a != b)
    else ratio (a != b) m n (d - e)

/-- The remainder of a division with a truncated quotient. It has the sign of the first number. -/
def remainder : Value → Value → Value
  | .nan .., _ => invalid
  | _, .nan .. => invalid
  | .infinite _, _ => invalid
  | v@(.finite ..), .infinite _ => v
  | .finite a m d, .finite _ n e =>
    if n = 0 then invalid
    else
      let place := min d e
      .finite a (m <<< (d - place).toNat % (n <<< (e - place).toNat)) place

def add (x y : Value) : Value := (x.sum y).round

def sub (x y : Value) : Value := (x.sum y.negate).round

def mul (x y : Value) : Value := (x.product y).round

def div (x y : Value) : Value := (x.quotient y).round

def rem (x y : Value) : Value := (x.remainder y).round

/-- The order of two values. The two zeros are equal; an invalid result is unordered. -/
def compare? : Value → Value → Option Ordering
  | .nan .., _ => none
  | _, .nan .. => none
  | .infinite a, .infinite b => some (if a = b then .eq else if a then .lt else .gt)
  | .infinite a, .finite .. => some (if a then .lt else .gt)
  | .finite .., .infinite b => some (if b then .gt else .lt)
  | .finite a m d, .finite b n e =>
    let place := min d e
    some (compare (signedUnits a m d place) (signedUnits b n e place))

/-- The value truncated towards zero and clamped between `low` and `high`. An invalid result counts
as zero. -/
def truncate (low high : Int) : Value → Int
  | .nan .. => 0
  | .infinite negative => if negative then low else high
  | .finite negative m e =>
    let whole : Nat := if 0 ≤ e then m <<< e.toNat else m >>> (-e).toNat
    max low (min high (if negative then -(whole : Int) else whole))

end Value

def load (width bits : Nat) : Value :=
  if width = 2 then single.decode (Half.toSingle bits.toUInt16).toNat
  else if width = 4 then single.decode bits
  else double.decode bits

def store (width : Nat) (v : Value) : Nat :=
  if width = 2 then (Half.ofSingle (single.encode v).toUInt32).toNat
  else if width = 4 then single.encode v
  else double.encode v

end Bytescript.Floating
