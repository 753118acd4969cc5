import Mathlib
import Bytescript.Script.Image
import Bytescript.Proofs.Encoding
import Bytescript.Proofs.Partition

/-!
# Saving and loading scripts

A file that loads consists of a header, some bytes that nothing refers to, the data and the code.
Saving writes no such bytes, and it writes the header unchanged. So a script is read back from its
file exactly when its offsets leave no gap behind the header: this holds for every assembled program
with offsets in range, and for a loaded file if its data starts at byte 36.
-/
namespace Bytescript

namespace Image

/-- The file with these sections, and with `gap` between the header and the data. -/
structure Lies (image : Image) (gap file : Bytes) : Prop where
  file_eq : file = image.header.toBytes ++ gap ++ image.data ++ image.code
  dataStart : image.header.dataStart.toInt = Header.length + gap.length
  codeStart : image.header.codeStart.toInt = Header.length + gap.length + image.data.length
  whole : Instruction.length ∣ image.code.length
  version : image.header.version = .current

theorem slice?_signature {file : Bytes} :
    Bytes.slice? file 0 Header.signature.length = some Header.signature ↔
      file.take 8 = Header.signature := by
  rw [Bytes.slice?_eq_some_iff, Header.length_signature, List.drop_zero]
  constructor
  · exact fun h => h.2.symm
  · intro h
    have length := congrArg List.length h
    rw [List.length_take, Header.length_signature] at length
    exact ⟨by omega, h.symm⟩

theorem load_eq_ok {file : Bytes} {image : Image} (h : load file = .ok image) :
    file.take 8 = Header.signature ∧ Header.length ≤ file.length ∧
      image.header = Header.read file ∧
      (Header.length : Int) ≤ image.header.dataStart.toInt ∧
      image.header.dataStart.toInt ≤ image.header.codeStart.toInt ∧
      image.header.codeStart.toInt ≤ file.length ∧
      image.data = (file.take image.header.codeStart.toInt.toNat).drop
        image.header.dataStart.toInt.toNat ∧
      image.code = file.drop image.header.codeStart.toInt.toNat ∧
      Instruction.length ∣ image.code.length ∧ image.header.version = .current := by
  unfold load at h
  split at h
  · exact nomatch h
  next found hfound =>
    split at h
    · exact nomatch h
    next signed =>
      rw [not_not] at signed
      subst signed
      split at h
      · exact nomatch h
      next long =>
        unfold cut at h
        simp only at h
        split at h
        · exact nomatch h
        next offsets =>
          split at h
          · exact nomatch h
          next whole =>
            split at h
            · exact nomatch h
            next version =>
              cases h
              rw [not_or, not_or, not_lt, not_lt, not_lt] at offsets
              obtain ⟨atData, atCode, atEnd⟩ := offsets
              exact ⟨slice?_signature.mp hfound, Nat.le_of_not_lt long, rfl, atData, atCode, atEnd,
                rfl, rfl, Nat.dvd_of_mod_eq_zero (not_not.mp whole), not_not.mp version⟩

theorem take_append_drop_take {α : Type} {m n : Nat} (l : List α) (h : m ≤ n) :
    l.take m ++ (l.take n).drop m = l.take n := by
  have split := List.take_append_drop m (l.take n)
  rwa [List.take_take, Nat.min_eq_left h] at split

theorem Lies.of_load {file : Bytes} {image : Image} (h : load file = .ok image) :
    ∃ gap, image.Lies gap file := by
  obtain ⟨signed, long, header, atData, atCode, atEnd, data, code, whole, version⟩ := load_eq_ok h
  obtain ⟨start, hstart⟩ := Int.eq_ofNat_of_zero_le (a := image.header.dataStart.toInt) (by omega)
  obtain ⟨stop, hstop⟩ := Int.eq_ofNat_of_zero_le (a := image.header.codeStart.toInt) (by omega)
  rw [hstart, hstop] at data
  rw [hstop] at code
  simp only [Int.toNat_natCast] at data code
  have gapLength : ((file.take start).drop Header.length).length = start - Header.length := by
    rw [List.length_drop, List.length_take]
    omega
  have dataLength : image.data.length = stop - start := by
    rw [data, List.length_drop, List.length_take]
    omega
  refine ⟨(file.take start).drop Header.length, ?_, ?_, ?_, whole, version⟩
  · have written : image.header.toBytes = file.take Header.length := by
      rw [header, Header.toBytes_read long signed]
    rw [written, data, code, take_append_drop_take file (by omega),
      take_append_drop_take file (by omega), List.take_append_drop]
  · omega
  · omega

theorem Lies.load {file gap : Bytes} {image : Image} (h : image.Lies gap file) :
    load file = .ok image := by
  obtain ⟨file_eq, dataStart, codeStart, whole, version⟩ := h
  have toData : (image.header.toBytes ++ gap).length = Header.length + gap.length := by
    rw [List.length_append, Header.length_toBytes]
  have toCode : (image.header.toBytes ++ gap ++ image.data).length =
      Header.length + gap.length + image.data.length := by
    rw [List.length_append, toData]
  have total : file.length =
      Header.length + gap.length + image.data.length + image.code.length := by
    rw [file_eq, List.length_append, toCode]
  have read : Header.read file = image.header := by
    rw [file_eq, List.append_assoc, List.append_assoc, Header.read_toBytes_append]
  have signed : Bytes.slice? file 0 Header.signature.length = some Header.signature := by
    rw [slice?_signature, file_eq]
    simp only [Header.toBytes, List.append_assoc]
    exact List.take_left' Header.length_signature
  have toStart : image.header.dataStart.toInt.toNat = Header.length + gap.length := by omega
  have toStop : image.header.codeStart.toInt.toNat =
      Header.length + gap.length + image.data.length := by omega
  have code : file.drop (Header.length + gap.length + image.data.length) = image.code := by
    rw [file_eq]
    exact List.drop_left' toCode
  have data : (file.take (Header.length + gap.length + image.data.length)).drop
      (Header.length + gap.length) = image.data := by
    rw [file_eq, List.take_left' toCode]
    exact List.drop_left' toData
  have offsets : ¬(image.header.dataStart.toInt < Header.length ∨
      image.header.codeStart.toInt < image.header.dataStart.toInt ∨
      (file.length : Int) < image.header.codeStart.toInt) := by omega
  have long : ¬file.length < Header.length := by omega
  simp only [Image.load, signed, ne_eq, not_true_eq_false, if_false, if_neg long, cut, read,
    if_neg offsets, toStart, toStop, code, data, Nat.mod_eq_zero_of_dvd whole, version]

theorem load_eq_ok_iff {file : Bytes} {image : Image} :
    Image.load file = .ok image ↔ ∃ gap, image.Lies gap file :=
  ⟨Lies.of_load, fun ⟨_, h⟩ => h.load⟩

end Image

namespace Script

def toBytesWith (s : Script) (gap : Bytes) : Bytes :=
  s.header.toBytes ++ gap ++ s.data ++ s.code.toList.flatMap Instruction.toBytes

theorem toBytesWith_nil (s : Script) : s.toBytesWith [] = s.toBytes := by
  simp [toBytesWith, toBytes]

theorem toBytesWith_inj {s : Script} {gap gap' : Bytes} :
    s.toBytesWith gap = s.toBytesWith gap' ↔ gap = gap' := by
  simp [toBytesWith, List.append_assoc]

/-- The offsets of a script agree with its sections behind a gap of `n` bytes. -/
structure Spaced (s : Script) (n : Nat) : Prop where
  dataStart : s.header.dataStart.toInt = Header.length + n
  codeStart : s.header.codeStart.toInt = Header.length + n + s.data.length
  version : s.header.version = .current

/-- A script is loaded from exactly the files that its offsets describe. -/
theorem ofBytes_eq_ok_iff {file : Bytes} {s : Script} :
    ofBytes file = .ok s ↔ ∃ gap, file = s.toBytesWith gap ∧ s.Spaced gap.length := by
  constructor
  · intro h
    unfold ofBytes at h
    cases hload : Image.load file with
    | error e => rw [hload] at h; exact nomatch h
    | ok image =>
      rw [hload] at h
      cases h
      obtain ⟨gap, file_eq, dataStart, codeStart, whole, version⟩ := Image.load_eq_ok_iff.mp hload
      refine ⟨gap, ?_, dataStart, codeStart, version⟩
      simp only [toBytesWith, Image.toScript, Instruction.flatMap_decodeAll whole]
      exact file_eq
  · rintro ⟨gap, rfl, dataStart, codeStart, version⟩
    have lies : Image.Lies ⟨s.header, s.data, s.code.toList.flatMap Instruction.toBytes⟩ gap
        (s.toBytesWith gap) :=
      { file_eq := rfl
        dataStart := dataStart
        codeStart := codeStart
        whole := by
          rw [Instruction.length_flatMap_toBytes]
          exact Nat.dvd_mul_right _ _
        version := version }
    rw [ofBytes, lies.load]
    change Except.ok _ = Except.ok s
    simp only [Image.toScript, Instruction.decodeAll_flatMap_toBytes, Array.toArray_toList]

/-- A script is read back from its file exactly if its offsets leave no gap. -/
theorem ofBytes_toBytes_iff (s : Script) : ofBytes s.toBytes = .ok s ↔ s.Spaced 0 := by
  rw [ofBytes_eq_ok_iff, ← toBytesWith_nil]
  constructor
  · rintro ⟨gap, same, spaced⟩
    rw [toBytesWith_inj] at same
    subst same
    exact spaced
  · intro spaced
    exact ⟨[], rfl, spaced⟩

theorem fields_of_assemble {pool : Pool} {code : Array Instruction} {name : Option String}
    {compiledAt : Int64} {s : Script} (h : assemble pool code name compiledAt = .ok s) :
    s.code = code ∧ s.header.compiledAt = compiledAt ∧ s.header.version = .current ∧
      s.header.dataStart = Int32.ofNat Header.length ∧
      s.header.codeStart = Int32.ofNat (Header.length + s.data.length) := by
  obtain ⟨_, -, h⟩ := bind_eq_ok_iff.mp h
  obtain ⟨_, -, h⟩ := bind_eq_ok_iff.mp h
  cases h
  exact ⟨rfl, rfl, rfl, rfl, rfl⟩

theorem spaced_iff_of_assemble {pool : Pool} {code : Array Instruction} {name : Option String}
    {compiledAt : Int64} {s : Script} (h : assemble pool code name compiledAt = .ok s) :
    s.Spaced 0 ↔ Header.length + s.data.length < 2 ^ 31 := by
  obtain ⟨-, -, version, dataStart, codeStart⟩ := fields_of_assemble h
  constructor
  · intro spaced
    have small := s.header.codeStart.toInt_lt
    have stop := spaced.codeStart
    omega
  · intro small
    refine ⟨congrArg Int32.toInt dataStart, ?_, version⟩
    rw [codeStart, Int32.toInt_ofNat_of_lt small]
    push_cast
    omega

theorem named_storeAll (pool : Pool) (cs : List Constant) (name : Option String) :
    (named (pool.storeAll cs).2 name).2 =
      (pool.storeAll (cs ++ name.toList.map Constant.text)).2 := by
  rw [Pool.storeAll_append]
  cases name <;> rfl

/-- A program can be assembled from constants exactly if the size of each of them, the name
included, and the length of the data section fit in 32 bits. -/
theorem assemble_storeAll_eq_ok_iff {cs : List Constant}
    (low : (Pool.empty.storeAll cs).2.mark < wordLimit) {code : Array Instruction}
    {name : Option String} {compiledAt : Int64} {s : Script} :
    assemble (Pool.empty.storeAll cs).2 code name compiledAt = .ok s ↔
      ((∀ c ∈ cs ++ name.toList.map Constant.text, c.size < wordLimit) ∧
        Pool.ceil (Pool.empty.storeAll (cs ++ name.toList.map Constant.text)).2.mark
          Pool.blockSize < wordLimit) ∧
      s = assembled (Pool.empty.storeAll cs).2 code name compiledAt := by
  have tidy := (Pool.ordered_storeAll (cs ++ name.toList.map Constant.text)).tidy
  rw [assemble_eq_ok_iff low, named_storeAll, Pool.short_storeAll_iff.symm]
  generalize (Pool.empty.storeAll (cs ++ name.toList.map Constant.text)).2 = pool at tidy ⊢
  refine and_congr_left fun _ => ⟨fun finished => ?_, fun fits => ?_⟩
  · exact ⟨Pool.short_of_toBytes finished.2, (Pool.toBytes_eq_ok_iff.mp finished.2).1⟩
  · have block := Pool.le_ceil pool.mark Pool.blockSize (by decide)
    exact ⟨by omega, tidy.toBytes_eq_ok fits.1 fits.2⟩

theorem length_data_assembled {cs : List Constant} (code : Array Instruction)
    (name : Option String) (compiledAt : Int64)
    (sizes : ∀ c ∈ cs ++ name.toList.map Constant.text, c.size < wordLimit) :
    (assembled (Pool.empty.storeAll cs).2 code name compiledAt).data.length =
      Pool.ceil (Pool.empty.storeAll (cs ++ name.toList.map Constant.text)).2.mark
        Pool.blockSize := by
  change (named _ name).2.blob.length = _
  rw [named_storeAll]
  exact (Pool.ordered_storeAll _).tidy.length_blob (Pool.short_storeAll_iff.mpr sizes)

/-- With any instructions, name and time: from stored constants a program can be assembled exactly
if the sizes of the constants, the name included, and the length of the data section fit in 32 bits.
From any pool, it keeps its instructions and its time, and it is read back unchanged from its file
exactly if its code starts below 2 ^ 31. -/
theorem ofBytes_toBytes_assemble (code : Array Instruction) (name : Option String)
    (compiledAt : Int64) :
    (∀ (cs : List Constant) (offsets : List Nat) (pool : Pool),
      Pool.empty.addAll cs = .ok (offsets, pool) →
        ((∃ s, assemble pool code name compiledAt = .ok s) ↔
          (∀ c ∈ cs ++ name.toList.map Constant.text, c.size < 2 ^ 32) ∧
            Pool.ceil (Pool.empty.storeAll (cs ++ name.toList.map Constant.text)).2.mark 16 <
              2 ^ 32)) ∧
    ∀ (pool : Pool) (s : Script), assemble pool code name compiledAt = .ok s →
      s.code = code ∧ s.header.compiledAt = compiledAt ∧
        (ofBytes s.toBytes = .ok s ↔ Header.length + s.data.length < 2 ^ 31) := by
  refine ⟨fun cs offsets pool stored => ?_, fun pool s put => ?_⟩
  · obtain ⟨low, same⟩ := (Pool.addAll_eq_ok_iff (by decide)).mp stored
    obtain ⟨rfl, rfl⟩ := Prod.ext_iff.mp same
    simp only [assemble_storeAll_eq_ok_iff low, exists_and_left, exists_eq,
      and_true]
    rfl
  · obtain ⟨kept, time, -⟩ := fields_of_assemble put
    exact ⟨kept, time, (ofBytes_toBytes_iff s).trans (spaced_iff_of_assemble put)⟩

/-- Saving a loaded file drops the bytes between its header and its data, and nothing else. The
script is read back, and the file is unchanged, exactly if there are no such bytes. -/
theorem resaved_iff {file : Bytes} {s : Script} (h : ofBytes file = .ok s) :
    s.toBytes = file.take Header.length ++ file.drop s.header.dataStart.toInt.toNat ∧
      (s.toBytes = file ↔ s.header.dataStart.toInt = Header.length) ∧
      (ofBytes s.toBytes = .ok s ↔ s.header.dataStart.toInt = Header.length) := by
  obtain ⟨gap, rfl, spaced⟩ := ofBytes_eq_ok_iff.mp h
  have dataStart := spaced.dataStart
  have empty : s.header.dataStart.toInt = Header.length ↔ gap = [] := by
    rw [← List.length_eq_zero_iff]
    omega
  refine ⟨?_, ?_, ?_⟩
  · have toStart : s.header.dataStart.toInt.toNat = Header.length + gap.length := by omega
    have front : (s.toBytesWith gap).take Header.length = s.header.toBytes := by
      simp only [toBytesWith, List.append_assoc]
      exact List.take_left' s.header.length_toBytes
    have back : (s.toBytesWith gap).drop (Header.length + gap.length) =
        s.data ++ s.code.toList.flatMap Instruction.toBytes := by
      simp only [toBytesWith, List.append_assoc (_ ++ gap)]
      exact List.drop_left' (by simp)
    rw [toStart, front, back, toBytes, List.append_assoc]
  · rw [← toBytesWith_nil, toBytesWith_inj, empty, eq_comm]
  · rw [ofBytes_toBytes_iff, empty]
    constructor
    · intro packed
      exact empty.mp (by simpa using packed.dataStart)
    · rintro rfl
      exact spaced

def gapped : Script where
  header := ⟨.current, 0, 44, 44, Header.unnamed⟩
  data := []
  code := #[.halt 7]

theorem gapped_resaved :
    ofBytes (gapped.toBytesWith (List.replicate 8 0)) = .ok gapped ∧
      ofBytes gapped.toBytes ≠ .ok gapped ∧
      ofBytes gapped.toBytes = .ok { gapped with code := #[] } := by
  have loaded : ofBytes (gapped.toBytesWith (List.replicate 8 0)) = .ok gapped :=
    ofBytes_eq_ok_iff.mpr ⟨List.replicate 8 0, rfl, rfl, rfl, rfl⟩
  refine ⟨loaded, ?_, ?_⟩
  · rw [ne_eq, (resaved_iff loaded).2.2]
    decide
  · exact ofBytes_eq_ok_iff.mpr ⟨(Instruction.halt 7).toBytes, rfl, rfl, rfl, rfl⟩

end Script

end Bytescript
