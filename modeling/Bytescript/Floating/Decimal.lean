import Bytescript.Floating.Arithmetic
import Bytescript.Text.Columns

/-!
# Decimal text of floating-point values

Reading takes an optional sign and then a word for infinity or an invalid result, or digits with
an optional point and an optional exponent; the value is the nearest one in the 64-bit format.
Writing gives a fixed number of places.
-/
namespace Bytescript.Floating

def digit? (c : Char) : Option Nat :=
  if '0' ≤ c ∧ c ≤ '9' then some (c.toNat - '0'.toNat) else none

def spanDigits : List Char → List Nat × List Char
  | [] => ([], [])
  | c :: cs =>
    match digit? c with
    | some d => let (ds, rest) := spanDigits cs; (d :: ds, rest)
    | none => ([], c :: cs)

def ofDigits (ds : List Nat) : Nat :=
  ds.foldl (fun n d => 10 * n + d) 0

def exponent? : List Char → Option Int
  | [] => some 0
  | c :: cs =>
    if c = 'e' ∨ c = 'E' then
      let (negative, cs) := match cs with
        | '-' :: cs => (true, cs)
        | '+' :: cs => (false, cs)
        | cs => (false, cs)
      match spanDigits cs with
      | (d :: ds, []) =>
        let n : Int := ofDigits (d :: ds)
        some (if negative then -n else n)
      | _ => none
    else none

/-- The value nearest to `digits * 10 ^ exponent`. Where the power of ten alone decides the result,
as it does far outside the range of the format, it is not computed. -/
def ofScientific (negative : Bool) (digits : List Nat) (exponent : Int) : Value :=
  let digits := digits.dropWhile (· = 0)
  let m := ofDigits digits
  let top := digits.length + exponent
  if m = 0 then .finite negative 0 0
  else if top > 400 then .infinite negative
  else if top < -400 then .finite negative 0 0
  else if 0 ≤ exponent then .round (.finite negative (m * Nat.pow 10 exponent.toNat) 0)
  else .round (.ratio negative m (Nat.pow 10 (-exponent).toNat) 0)

def unsigned? (negative : Bool) (cs : List Char) : Option Value :=
  let word := String.ofList (cs.map Char.toLower)
  if word = "inf" ∨ word = "infinity" then some (.infinite negative)
  else if word = "nan" then some (.nan negative Format.quiet)
  else
    let (whole, rest) := spanDigits cs
    let (fraction, rest) := match rest with
      | '.' :: rest => spanDigits rest
      | rest => ([], rest)
    if whole.isEmpty ∧ fraction.isEmpty then none
    else (exponent? rest).map fun e =>
      ofScientific negative (whole ++ fraction) (e - fraction.length)

/-- The value of a decimal text, if the whole text is one. -/
def parse? (text : String) : Option Value :=
  match text.toList with
  | '-' :: cs => unsigned? true cs
  | '+' :: cs => unsigned? false cs
  | cs => unsigned? false cs

def oneplace (m : Nat) (e : Int) : String :=
  let tenths :=
    if 0 ≤ e then (10 * m) <<< e.toNat else roundedShift (10 * m) (-e).toNat
  let whole := tenths / 10
  let place := tenths % 10
  s!"{whole}.{place}"

end Bytescript.Floating
