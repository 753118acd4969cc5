import Mathlib
import Bytescript.Script.Basic

/-!
# Stored numbers, headers and instructions

What is written can be read back, and what was read is written as it was: for signed numbers and
versions, for the header of a script file, and for instructions one after the other.
-/
namespace Bytescript

namespace Bytes

theorem eq_of_toNat_eq {xs ys : Bytes} (hl : xs.length = ys.length)
    (h : xs.toNat = ys.toNat) : xs = ys := by
  rw [← ofNat_toNat xs, ← ofNat_toNat ys, hl, h]

theorem ofNat_mod (w n : Nat) : ofNat w (n % 2 ^ (8 * w)) = ofNat w n := by
  refine eq_of_toNat_eq (by simp) ?_
  rw [toNat_ofNat, toNat_ofNat, Nat.one_shiftLeft, Nat.mod_mod]

theorem toNat_append_zeros (x : Bytes) (n : Nat) :
    toNat (x ++ List.replicate n 0) = toNat x := by
  induction x with
  | nil =>
    induction n with
    | zero => rfl
    | succ n ih => simpa [List.replicate_succ, toNat] using ih
  | cons b x ih => simpa [toNat] using ih

theorem take_ofNat {m w : Nat} (h : m ≤ w) (n : Nat) : (ofNat w n).take m = ofNat m n := by
  induction m generalizing w n with
  | zero => rfl
  | succ m ih =>
    obtain ⟨w, rfl⟩ : ∃ v, w = v + 1 := ⟨w - 1, by omega⟩
    simp [ofNat, ih (Nat.le_of_succ_le_succ h)]

theorem natAt?_eq_some {file part : Bytes} {start w : Nat} (front back : Bytes)
    (h : file = front ++ part ++ back) (hs : front.length = start) (hw : part.length = w) :
    natAt? file start w = some (toNat part) := by
  subst h hs hw
  have found : slice? (front ++ part ++ back) front.length part.length = some part := by
    refine slice?_eq_some_iff.mpr ⟨?_, ?_⟩
    · simp
    · rw [List.append_assoc, List.drop_left, List.take_left]
  rw [natAt?, found]
  rfl

theorem natAt?_of_le {file : Bytes} {start w : Nat} (h : start + w ≤ file.length) :
    (natAt? file start w).getD 0 = toNat ((file.drop start).take w) ∧
      ((file.drop start).take w).length = w := by
  have found : slice? file start w = some ((file.drop start).take w) :=
    slice?_eq_some_iff.mpr ⟨h, rfl⟩
  constructor
  · rw [natAt?, found, Option.map_some, Option.getD_some]
  · rw [List.length_take, List.length_drop]
    omega

theorem ofNat_natAt? {file : Bytes} {start w : Nat} (h : start + w ≤ file.length) :
    ofNat w ((natAt? file start w).getD 0) = (file.drop start).take w := by
  obtain ⟨number, length⟩ := natAt?_of_le h
  have written := ofNat_toNat ((file.drop start).take w)
  rw [length] at written
  rw [number, written]

theorem natAt?_lt {file : Bytes} {start w : Nat} (h : start + w ≤ file.length) :
    (natAt? file start w).getD 0 < 1 <<< (8 * w) := by
  obtain ⟨number, length⟩ := natAt?_of_le h
  have small := toNat_lt ((file.drop start).take w)
  rw [length] at small
  rw [number]
  exact small

/-- A signed number is stored as the unsigned number with the same bits. -/
theorem ofInt_int32 (x : Int32) : ofInt 4 x.toInt = ofNat 4 x.toUInt32.toNat := by
  have bits := BitVec.toNat_ofInt (n := 32) x.toBitVec.toInt
  rw [BitVec.ofInt_toInt, ← Int32.toBitVec_toUInt32, UInt32.toNat_toBitVec,
    Int32.toBitVec_toUInt32, Int32.toInt_toBitVec] at bits
  rw [bits]
  rfl

theorem ofInt_int64 (x : Int64) : ofInt 8 x.toInt = ofNat 8 x.toUInt64.toNat := by
  have bits := BitVec.toNat_ofInt (n := 64) x.toBitVec.toInt
  rw [BitVec.ofInt_toInt, ← Int64.toBitVec_toUInt64, UInt64.toNat_toBitVec,
    Int64.toBitVec_toUInt64, Int64.toInt_toBitVec] at bits
  rw [bits]
  rfl

theorem toNat_ofInt_int32 (x : Int32) : (toNat (ofInt 4 x.toInt)).toUInt32.toInt32 = x := by
  rw [ofInt_int32, toNat_ofNat]
  have small := x.toUInt32.toNat_lt
  have same : (x.toUInt32.toNat % 1 <<< (8 * 4)).toUInt32 = x.toUInt32 := by
    apply UInt32.toNat_inj.mp
    simp only [Nat.toUInt32_eq, UInt32.toNat_ofNat', Nat.shiftLeft_eq]
    omega
  rw [same, Int32.toInt32_toUInt32]

theorem toNat_ofInt_int64 (x : Int64) : (toNat (ofInt 8 x.toInt)).toUInt64.toInt64 = x := by
  rw [ofInt_int64, toNat_ofNat]
  have small := x.toUInt64.toNat_lt
  have same : (x.toUInt64.toNat % 1 <<< (8 * 8)).toUInt64 = x.toUInt64 := by
    apply UInt64.toNat_inj.mp
    simp only [Nat.toUInt64_eq, UInt64.toNat_ofNat', Nat.shiftLeft_eq]
    omega
  rw [same, Int64.toInt64_toUInt64]

theorem ofInt_toInt32 {n : Nat} (h : n < 1 <<< 32) :
    ofInt 4 n.toUInt32.toInt32.toInt = ofNat 4 n := by
  rw [ofInt_int32, UInt32.toUInt32_toInt32]
  congr 1
  simp only [Nat.toUInt32_eq, UInt32.toNat_ofNat']
  exact Nat.mod_eq_of_lt h

theorem ofInt_toInt64 {n : Nat} (h : n < 1 <<< 64) :
    ofInt 8 n.toUInt64.toInt64.toInt = ofNat 8 n := by
  rw [ofInt_int64, UInt64.toUInt64_toInt64]
  congr 1
  simp only [Nat.toUInt64_eq, UInt64.toNat_ofNat']
  exact Nat.mod_eq_of_lt h

end Bytes

namespace Version

/-- The four numbers of a version are the base-65536 digits of the packed one. -/
theorem pack_eq (v : Version) : v.pack =
    v.major.toNat * 281474976710656 + v.minor.toNat * 4294967296 + v.build.toNat * 65536 +
      v.revision.toNat := by
  simp [pack, Nat.shiftLeft_eq]

theorem pack_lt (v : Version) : v.pack < 1 <<< 64 := by
  have := v.major.toNat_lt
  have := v.minor.toNat_lt
  have := v.build.toNat_lt
  have := v.revision.toNat_lt
  rw [pack_eq]
  simp only [Nat.shiftLeft_eq]
  omega

theorem unpack_pack (v : Version) : unpack v.pack = v := by
  obtain ⟨major, minor, build, revision⟩ := v
  have := major.toNat_lt
  have := minor.toNat_lt
  have := build.toNat_lt
  have := revision.toNat_lt
  simp only [unpack, pack_eq, Nat.shiftRight_eq_div_pow, mk.injEq]
  refine ⟨?_, ?_, ?_, ?_⟩
  all_goals
    apply UInt16.toNat_inj.mp
    simp only [Nat.toUInt16_eq, UInt16.toNat_ofNat']
    omega

theorem pack_unpack {n : Nat} (h : n < 1 <<< 64) : (unpack n).pack = n := by
  simp only [Nat.shiftLeft_eq] at h
  simp only [pack_eq, unpack, Nat.toUInt16_eq, UInt16.toNat_ofNat', Nat.shiftRight_eq_div_pow]
  omega

end Version

namespace Header

@[simp] theorem length_signature : signature.length = 8 := rfl

@[simp] theorem length_toBytes (h : Header) : h.toBytes.length = length := by
  simp [toBytes, length]

/-- The header in front of a file is read back. -/
theorem read_toBytes_append (h : Header) (rest : Bytes) : read (h.toBytes ++ rest) = h := by
  obtain ⟨version, compiledAt, dataStart, codeStart, moduleName⟩ := h
  generalize hv : Bytes.ofNat 8 version.pack = v
  generalize ht : Bytes.ofInt 8 compiledAt.toInt = t
  generalize hd : Bytes.ofInt 4 dataStart.toInt = d
  generalize hc : Bytes.ofInt 4 codeStart.toInt = c
  generalize hn : Bytes.ofInt 4 moduleName.toInt = n
  have lv : v.length = 8 := by rw [← hv, Bytes.length_ofNat]
  have lt : t.length = 8 := by rw [← ht, Bytes.length_ofInt]
  have ld : d.length = 4 := by rw [← hd, Bytes.length_ofInt]
  have lc : c.length = 4 := by rw [← hc, Bytes.length_ofInt]
  have ln : n.length = 4 := by rw [← hn, Bytes.length_ofInt]
  -- The file with each field in turn between what is before and behind it.
  have file : toBytes ⟨version, compiledAt, dataStart, codeStart, moduleName⟩ ++ rest =
      signature ++ v ++ t ++ d ++ c ++ n ++ rest := by
    simp [toBytes, hv, ht, hd, hc, hn]
  have atVersion : Bytes.natAt? (signature ++ v ++ t ++ d ++ c ++ n ++ rest) 8 8 =
      some (Bytes.toNat v) :=
    Bytes.natAt?_eq_some signature (t ++ d ++ c ++ n ++ rest) (by simp) (by simp) lv
  have atTime : Bytes.natAt? (signature ++ v ++ t ++ d ++ c ++ n ++ rest) 16 8 =
      some (Bytes.toNat t) :=
    Bytes.natAt?_eq_some (signature ++ v) (d ++ c ++ n ++ rest) (by simp) (by simp [lv]) lt
  have atData : Bytes.natAt? (signature ++ v ++ t ++ d ++ c ++ n ++ rest) 24 4 =
      some (Bytes.toNat d) :=
    Bytes.natAt?_eq_some (signature ++ v ++ t) (c ++ n ++ rest) (by simp) (by simp [lv, lt]) ld
  have atCode : Bytes.natAt? (signature ++ v ++ t ++ d ++ c ++ n ++ rest) 28 4 =
      some (Bytes.toNat c) :=
    Bytes.natAt?_eq_some (signature ++ v ++ t ++ d) (n ++ rest) (by simp) (by simp [lv, lt, ld]) lc
  have atName : Bytes.natAt? (signature ++ v ++ t ++ d ++ c ++ n ++ rest) 32 4 =
      some (Bytes.toNat n) :=
    Bytes.natAt?_eq_some (signature ++ v ++ t ++ d ++ c) rest (by simp)
      (by simp [lv, lt, ld, lc]) ln
  have packed : Bytes.toNat v = version.pack := by
    rw [← hv, Bytes.toNat_ofNat, Nat.mod_eq_of_lt version.pack_lt]
  simp only [read, file, atVersion, atTime, atData, atCode, atName, Option.getD_some, packed,
    Version.unpack_pack]
  rw [← ht, ← hd, ← hc, ← hn, Bytes.toNat_ofInt_int64, Bytes.toNat_ofInt_int32,
    Bytes.toNat_ofInt_int32, Bytes.toNat_ofInt_int32]

/-- Writing the header that was read gives the front of the file. -/
theorem toBytes_read {file : Bytes} (long : length ≤ file.length)
    (signed : file.take 8 = signature) : (read file).toBytes = file.take length := by
  unfold length at long
  have split : file.take length = file.take 8 ++ (file.drop 8).take 8 ++ (file.drop 16).take 8 ++
      (file.drop 24).take 4 ++ (file.drop 28).take 4 ++ (file.drop 32).take 4 := by
    rw [← List.take_add, ← List.take_add, ← List.take_add, ← List.take_add, ← List.take_add]
    rfl
  rw [split, signed]
  simp only [toBytes, read]
  rw [Version.pack_unpack (Bytes.natAt?_lt (by omega)),
    Bytes.ofInt_toInt64 (Bytes.natAt?_lt (by omega)),
    Bytes.ofInt_toInt32 (Bytes.natAt?_lt (by omega)),
    Bytes.ofInt_toInt32 (Bytes.natAt?_lt (by omega)),
    Bytes.ofInt_toInt32 (Bytes.natAt?_lt (by omega)),
    Bytes.ofNat_natAt? (by omega), Bytes.ofNat_natAt? (by omega), Bytes.ofNat_natAt? (by omega),
    Bytes.ofNat_natAt? (by omega), Bytes.ofNat_natAt? (by omega)]

end Header

namespace Instruction

@[simp] theorem length_toBytes (i : Instruction) : i.toBytes.length = length := by
  simp [toBytes, length]

theorem decodeAll_toBytes_append (i : Instruction) (rest : Bytes) :
    decodeAll (i.toBytes ++ rest) = i :: decodeAll rest := by
  obtain ⟨tag, width, low, word⟩ := i
  have hwidth := Bytes.toNat_ofNat 2 width.toNat
  have hword := Bytes.toNat_ofNat 4 word.toNat
  have widthSmall := width.toNat_lt
  have wordSmall := word.toNat_lt
  have sameWidth : (Bytes.toNat (Bytes.ofNat 2 width.toNat)).toUInt16 = width := by
    apply UInt16.toNat_inj.mp
    simp only [hwidth, Nat.toUInt16_eq, UInt16.toNat_ofNat', Nat.shiftLeft_eq]
    omega
  have sameWord : (Bytes.toNat (Bytes.ofNat 4 word.toNat)).toUInt32 = word := by
    apply UInt32.toNat_inj.mp
    simp only [hword, Nat.toUInt32_eq, UInt32.toNat_ofNat', Nat.shiftLeft_eq]
    omega
  change Instruction.mk tag (Bytes.toNat (Bytes.ofNat 2 width.toNat)).toUInt16 low
    (Bytes.toNat (Bytes.ofNat 4 word.toNat)).toUInt32 :: decodeAll rest = _
  rw [sameWidth, sameWord]

theorem decodeAll_flatMap_toBytes (is : List Instruction) :
    decodeAll (is.flatMap toBytes) = is := by
  induction is with
  | nil => rfl
  | cons i is ih => rw [List.flatMap_cons, decodeAll_toBytes_append, ih]

theorem length_flatMap_toBytes (is : List Instruction) :
    (is.flatMap toBytes).length = length * is.length := by
  induction is with
  | nil => rfl
  | cons i is ih =>
    rw [List.flatMap_cons, List.length_append, ih, length_toBytes, List.length_cons]
    ring

theorem toBytes_of_bytes (tag w₀ w₁ low v₀ v₁ v₂ v₃ : UInt8) :
    toBytes ⟨tag, (Bytes.toNat [w₀, w₁]).toUInt16, low, (Bytes.toNat [v₀, v₁, v₂, v₃]).toUInt32⟩ =
      [tag, w₀, w₁, low, v₀, v₁, v₂, v₃] := by
  have width := Bytes.toNat_lt [w₀, w₁]
  have word := Bytes.toNat_lt [v₀, v₁, v₂, v₃]
  have sameWidth : (Bytes.toNat [w₀, w₁]).toUInt16.toNat = Bytes.toNat [w₀, w₁] := by
    simp only [Nat.toUInt16_eq, UInt16.toNat_ofNat']
    exact Nat.mod_eq_of_lt width
  have sameWord : (Bytes.toNat [v₀, v₁, v₂, v₃]).toUInt32.toNat =
      Bytes.toNat [v₀, v₁, v₂, v₃] := by
    simp only [Nat.toUInt32_eq, UInt32.toNat_ofNat']
    exact Nat.mod_eq_of_lt word
  have written : Bytes.ofNat 2 (Bytes.toNat [w₀, w₁]) = [w₀, w₁] := Bytes.ofNat_toNat [w₀, w₁]
  have writtenWord : Bytes.ofNat 4 (Bytes.toNat [v₀, v₁, v₂, v₃]) = [v₀, v₁, v₂, v₃] :=
    Bytes.ofNat_toNat [v₀, v₁, v₂, v₃]
  simp only [toBytes, sameWidth, sameWord, written, writtenWord]
  rfl

/-- A whole number of instructions is written as it was read. -/
theorem flatMap_decodeAll {bs : Bytes} (h : length ∣ bs.length) :
    (decodeAll bs).flatMap toBytes = bs := by
  induction bs using decodeAll.induct with
  | case1 tag w₀ w₁ low v₀ v₁ v₂ v₃ rest ih =>
    have hr : length ∣ rest.length := by
      simp only [List.length_cons, length] at h ⊢
      omega
    rw [decodeAll, List.flatMap_cons, ih hr, toBytes_of_bytes]
    rfl
  | case2 bs short =>
    -- Fewer than eight bytes are a whole number of instructions only if there are none.
    match bs, short with
    | [], _ => rfl
    | [_], _ | [_, _], _ | [_, _, _], _ | [_, _, _, _], _ | [_, _, _, _, _], _
    | [_, _, _, _, _, _], _ | [_, _, _, _, _, _, _], _ => simp [length] at h
    | tag :: w₀ :: w₁ :: low :: v₀ :: v₁ :: v₂ :: v₃ :: rest, short =>
      exact (short _ _ _ _ _ _ _ _ _ rfl).elim

end Instruction

end Bytescript
