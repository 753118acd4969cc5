/-!
# Binary floating-point formats

A format stores a sign, an exponent field and a fraction field. `Format.decode` gives the exact
value of a bit pattern; `Format.encode` gives the pattern nearest to an exact value, the even one
of two that are equally near. An operation on stored numbers is the exact operation on their
values, encoded again.
-/
namespace Bytescript.Floating

structure Format where
  exponentBits : Nat
  fractionBits : Nat
  deriving DecidableEq, Repr

/-- A number, an infinity or an invalid result. A finite value is
`significand * 2 ^ exponent` with a sign, so that there are two zeros. The payload of an invalid
result is kept as the fraction field of the widest format. -/
inductive Value where
  | nan (negative : Bool) (payload : Nat)
  | infinite (negative : Bool)
  | finite (negative : Bool) (significand : Nat) (exponent : Int)
  deriving DecidableEq, Repr

def single : Format := ⟨8, 23⟩

def double : Format := ⟨11, 52⟩

namespace Format

def leastExponent (f : Format) : Int :=
  2 - (1 <<< (f.exponentBits - 1) : Nat) - f.fractionBits

def topField (f : Format) : Nat :=
  1 <<< f.exponentBits - 1

def infinity (f : Format) : Nat :=
  f.topField <<< f.fractionBits

def signBit (f : Format) : Nat :=
  1 <<< (f.exponentBits + f.fractionBits)

def quiet : Nat :=
  1 <<< (double.fractionBits - 1)

/-- Moving an invalid result between formats sets the top bit of its payload. -/
def settle (f : Format) (payload : Nat) : Nat :=
  if f.fractionBits = double.fractionBits then payload
  else payload ||| quiet

def decode (f : Format) (bits : Nat) : Value :=
  let negative := bits / f.signBit % 2 == 1
  let field := bits >>> f.fractionBits % (1 <<< f.exponentBits)
  let fraction := bits % (1 <<< f.fractionBits)
  if field = f.topField then
    if fraction = 0 then .infinite negative
    else .nan negative (f.settle (fraction <<< (double.fractionBits - f.fractionBits)))
  else if field = 0 then .finite negative fraction f.leastExponent
  else .finite negative (1 <<< f.fractionBits + fraction) (f.leastExponent + (field - 1))

end Format

/-- `m / 2 ^ k` rounded to the nearest number, and to the even one of two. -/
def roundedShift (m k : Nat) : Nat :=
  let unit := 1 <<< k
  let quotient := m / unit
  let remainder := m % unit
  if unit < 2 * remainder ∨ (2 * remainder = unit ∧ quotient % 2 = 1) then quotient + 1
  else quotient

namespace Format

/-- The pattern, without a sign, nearest to `m * 2 ^ e`. With the last place at `place`, a rounded
significand that carries into the next power of two increments the exponent field. -/
def magnitude (f : Format) (m : Nat) (e : Int) : Nat :=
  if m = 0 then 0
  else
    let place := max (e + m.log2 - f.fractionBits) f.leastExponent
    let significand :=
      if place ≤ e then m <<< (e - place).toNat else roundedShift m (place - e).toNat
    min f.infinity ((place - f.leastExponent).toNat <<< f.fractionBits + significand)

def encode (f : Format) : Value → Nat
  | .nan negative payload =>
    negative.toNat * f.signBit + f.infinity +
      f.settle payload >>> (double.fractionBits - f.fractionBits)
  | .infinite negative => negative.toNat * f.signBit + f.infinity
  | .finite negative m e => negative.toNat * f.signBit + f.magnitude m e

end Format

end Bytescript.Floating
