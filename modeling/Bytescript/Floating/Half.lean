/-!
# The 16-bit format

Half-precision numbers exist only in storage. They are widened to the 32-bit format exactly, and a
32-bit pattern is narrowed by truncating its fraction: numbers that are too small become zero, and
those that are too large become infinite.
-/
namespace Bytescript.Floating.Half

def ofSingle (bits : UInt32) : UInt16 :=
  let sign := bits.toNat >>> 31
  let exponent := bits.toNat >>> 23 % 0x100
  let fraction := bits.toNat % 0x800000
  let magnitude :=
    if exponent = 255 then if fraction = 0 then 0x7C00 else 0x7E00
    else if exponent ≤ 112 then 0
    else if 143 ≤ exponent then 0x7C00
    else (exponent - 112) <<< 10 + fraction >>> 13
  (sign <<< 15 + magnitude).toUInt16

def toSingle (bits : UInt16) : UInt32 :=
  let sign := bits.toNat >>> 15
  let exponent := bits.toNat >>> 10 % 0x20
  let fraction := bits.toNat % 0x400
  let magnitude :=
    if exponent = 31 then 255 <<< 23 + fraction <<< 13
    else if 0 < exponent then (exponent + 112) <<< 23 + fraction <<< 13
    else if fraction = 0 then 0
    else (fraction.log2 + 103) <<< 23 + fraction <<< (23 - fraction.log2) % 0x800000
  (sign <<< 31 + magnitude).toUInt32

end Bytescript.Floating.Half
