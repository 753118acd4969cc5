import Mathlib
import Bytescript.Text.Utf16

/-!
# Text in storage

A text can be read back from its units, and the units from their bytes. So different texts have
different units, and different bytes.
-/
namespace Bytescript.Utf16

theorem ofBytes_toBytes (us : List UInt16) : ofBytes (toBytes us) = us := by
  induction us with
  | nil => rfl
  | cons u us ih =>
    have hu := u.toNat_lt
    have split : toBytes (u :: us) =
        u.toNat.toUInt8 :: (u.toNat / 256).toUInt8 :: toBytes us := rfl
    rw [split, ofBytes, ih]
    congr 1
    apply UInt16.toNat_inj.mp
    simp only [UInt8.toNat_ofNat', UInt16.toNat_ofNat', Nat.toUInt8_eq, Nat.toUInt16_eq]
    omega

section

variable {u v : UInt16}

theorem isHigh_iff : isHigh u = true ↔ 0xD800 ≤ u.toNat ∧ u.toNat < 0xDC00 := by
  simp [isHigh, UInt16.le_iff_toNat_le, UInt16.lt_iff_toNat_lt]

theorem isLow_iff : isLow u = true ↔ 0xDC00 ≤ u.toNat ∧ u.toNat < 0xE000 := by
  simp [isLow, UInt16.le_iff_toNat_le, UInt16.lt_iff_toNat_lt]

theorem decode_cons (high : isHigh u = false) (low : isLow u = false) (rest : List UInt16) :
    decode (u :: rest) = (decode rest).map (Char.ofNat u.toNat :: ·) := by
  cases rest with
  | nil => simp [decode, high, low]
  | cons v rest => simp [decode, high, low]

theorem decode_pair (high : isHigh u = true) (low : isLow v = true) (rest : List UInt16) :
    decode (u :: v :: rest) = (decode rest).map
      (Char.ofNat (0x10000 + (u.toNat - 0xD800) * 0x400 + (v.toNat - 0xDC00)) :: ·) := by
  have first : isLow u = false := by
    rw [isHigh_iff] at high
    rw [Bool.eq_false_iff, ne_eq, isLow_iff]
    omega
  simp [decode, high, low, first]

end

theorem toNat_char (c : Char) : c.toNat < 0xD800 ∨ 0xDFFF < c.toNat ∧ c.toNat < 0x110000 := c.valid

/-- The units of a character, in front of others, are decoded to the character first. -/
theorem decode_unitsOf_append (c : Char) (rest : List UInt16) :
    decode (unitsOf c ++ rest) = (decode rest).map (c :: ·) := by
  have hc := toNat_char c
  unfold unitsOf
  split
  · next small =>
    have value : c.toNat.toUInt16.toNat = c.toNat := UInt16.toNat_ofNat_of_lt' small
    have high : isHigh c.toNat.toUInt16 = false := by
      rw [Bool.eq_false_iff, ne_eq, isHigh_iff, value]
      omega
    have low : isLow c.toNat.toUInt16 = false := by
      rw [Bool.eq_false_iff, ne_eq, isLow_iff, value]
      omega
    rw [List.singleton_append, decode_cons high low, value, Char.ofNat_toNat]
  · next large =>
    -- The two surrogates carry ten bits each of what lies above the first 0x10000 code points.
    have first : (0xD800 + (c.toNat - 0x10000) / 0x400).toUInt16.toNat =
        0xD800 + (c.toNat - 0x10000) / 0x400 :=
      UInt16.toNat_ofNat_of_lt' (show _ < 0x10000 by omega)
    have second : (0xDC00 + (c.toNat - 0x10000) % 0x400).toUInt16.toNat =
        0xDC00 + (c.toNat - 0x10000) % 0x400 :=
      UInt16.toNat_ofNat_of_lt' (show _ < 0x10000 by omega)
    have code : 0x10000 + (0xD800 + (c.toNat - 0x10000) / 0x400 - 0xD800) * 0x400 +
        (0xDC00 + (c.toNat - 0x10000) % 0x400 - 0xDC00) = c.toNat := by omega
    dsimp only [List.cons_append, List.nil_append]
    rw [decode_pair (isHigh_iff.mpr (by omega)) (isLow_iff.mpr (by omega)), first, second, code,
      Char.ofNat_toNat]

theorem decode_units (text : String) : decode (units text) = some text.toList := by
  unfold units
  induction text.toList with
  | nil => rfl
  | cons c cs ih => rw [List.flatMap_cons, decode_unitsOf_append, ih, Option.map_some]

theorem text?_units (text : String) : text? (units text) = some text := by
  rw [text?, decode_units, Option.map_some, String.ofList_toList]

end Bytescript.Utf16
