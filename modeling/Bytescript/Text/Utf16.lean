import Bytescript.Bytes

/-!
# UTF-16 code units

Stored text is a sequence of 16-bit units: one unit for a character below 0x10000, a surrogate
pair for any other. Decoding refuses a surrogate that is not part of a pair.
-/
namespace Bytescript.Utf16

def unitsOf (c : Char) : List UInt16 :=
  if c.toNat < 0x10000 then [c.toNat.toUInt16]
  else
    let rest := c.toNat - 0x10000
    [(0xD800 + rest / 0x400).toUInt16, (0xDC00 + rest % 0x400).toUInt16]

def units (text : String) : List UInt16 :=
  text.toList.flatMap unitsOf

def isHigh (u : UInt16) : Bool := 0xD800 ≤ u && u < 0xDC00

def isLow (u : UInt16) : Bool := 0xDC00 ≤ u && u < 0xE000

/-- The characters that the units encode, if every surrogate is in a pair. -/
def decode : List UInt16 → Option (List Char)
  | [] => some []
  | [u] => if isHigh u || isLow u then none else some [Char.ofNat u.toNat]
  | u :: v :: rest =>
    if isLow u then none
    else if isHigh u then
      if isLow v then
        let code := 0x10000 + (u.toNat - 0xD800) * 0x400 + (v.toNat - 0xDC00)
        (decode rest).map (Char.ofNat code :: ·)
      else none
    else (decode (v :: rest)).map (Char.ofNat u.toNat :: ·)

def text? (us : List UInt16) : Option String :=
  (decode us).map String.ofList

def toBytes (us : List UInt16) : Bytes :=
  us.flatMap fun u => Bytes.ofNat 2 u.toNat

/-- The units stored in a byte string; a single byte at the end is ignored. -/
def ofBytes : Bytes → List UInt16
  | low :: high :: rest => (low.toNat + 256 * high.toNat).toUInt16 :: ofBytes rest
  | _ => []

def take? : Nat → Bytes → Option (List UInt16)
  | 0, _ => some []
  | n + 1, low :: high :: rest =>
    (take? n rest).map ((low.toNat + 256 * high.toNat).toUInt16 :: ·)
  | _ + 1, _ => none

end Bytescript.Utf16
