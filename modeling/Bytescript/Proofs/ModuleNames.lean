import Mathlib
import Bytescript.Script.Listing
import Bytescript.Proofs.InPlace
import Bytescript.Proofs.ScriptFile
import Bytescript.Proofs.SharedConstants

/-!
# The name of a module

The name of a program is stored among its constants. It is read back from the program and from its
file, whatever else is stored. There are two readers of stored text: the one for the name reads unit
by unit and takes the count as a signed number, the one for listings slices all units at once. In
sections of a size that files can have they agree on any bytes.
-/
namespace Bytescript

namespace Utf16

theorem take?_eq (n : Nat) (bs : Bytes) :
    take? n bs = if 2 * n ≤ bs.length then some (ofBytes (bs.take (2 * n))) else none := by
  induction n generalizing bs with
  | zero => simp [take?, ofBytes]
  | succ n ih =>
    rcases bs with _ | ⟨low, _ | ⟨high, rest⟩⟩
    · simp [take?]
    · simp [take?, Nat.mul_succ]
    · have front : (low :: high :: rest).take (2 * (n + 1)) =
          low :: high :: rest.take (2 * n) := rfl
      rw [take?, ih, front, ofBytes]
      by_cases enough : 2 * n ≤ rest.length
      · have all : 2 * (n + 1) ≤ (low :: high :: rest).length := by
          simp only [List.length_cons]
          omega
        rw [if_pos enough, if_pos all, Option.map_some]
      · have few : ¬2 * (n + 1) ≤ (low :: high :: rest).length := by
          simp only [List.length_cons]
          omega
        rw [if_neg enough, if_neg few, Option.map_none]

theorem take?_drop {data : Bytes} {start : Nat} (h : start ≤ data.length) (count : Nat) :
    take? count (data.drop start) = (Bytes.slice? data start (2 * count)).map ofBytes := by
  rw [take?_eq, List.length_drop, Bytes.slice?]
  by_cases enough : start + 2 * count ≤ data.length
  · rw [if_pos (by omega), if_pos enough, Option.map_some]
  · rw [if_neg (by omega), if_neg enough, Option.map_none]

end Utf16

namespace Bytes

theorem slice?_append {data front back : Bytes} {start : Nat}
    (h : slice? data start (front.length + back.length) = some (front ++ back)) :
    slice? data start front.length = some front ∧
      slice? data (start + front.length) back.length = some back := by
  obtain ⟨inside, whole⟩ := slice?_eq_some_iff.mp h
  refine ⟨slice?_eq_some_iff.mpr ⟨by omega, ?_⟩, slice?_eq_some_iff.mpr ⟨by omega, ?_⟩⟩
  · have part := congrArg (List.take front.length) whole
    rwa [List.take_left, List.take_take, Nat.min_eq_left (Nat.le_add_right ..)] at part
  · have part := congrArg (List.drop front.length) whole
    rwa [List.drop_left, List.drop_take, Nat.add_sub_cancel_left, List.drop_drop] at part

theorem add_le_of_natAt? {data : Bytes} {start w n : Nat} (h : natAt? data start w = some n) :
    start + w ≤ data.length := by
  obtain ⟨part, found, -⟩ := Option.map_eq_some_iff.mp h
  exact (slice?_eq_some_iff.mp found).1

end Bytes

/-- A text is read back where it is stored. -/
theorem Listing.text?_of_stored {data : Bytes} {offset : Nat} {name : String}
    (stored : Bytes.slice? data offset (Constant.text name).size =
      some (Constant.text name).toBytes)
    (short : (Utf16.units name).length < 2 ^ 32) : text? data offset = some name := by
  have length := (Constant.text name).length_toBytes
  simp only [Constant.toBytes, List.length_append, Bytes.length_ofNat, Constant.size] at length
  have units : (Utf16.toBytes (Utf16.units name)).length = 2 * (Utf16.units name).length := by omega
  rw [← (Constant.text name).length_toBytes, Constant.toBytes, List.length_append] at stored
  obtain ⟨count, behind⟩ := Bytes.slice?_append stored
  rw [Bytes.length_ofNat] at count behind
  have number : Bytes.natAt? data offset 4 = some (Utf16.units name).length := by
    rw [Bytes.natAt?, count, Option.map_some, Bytes.toNat_ofNat]
    exact congrArg some (Nat.mod_eq_of_lt short)
  rw [units] at behind
  simp only [text?, number, Option.bind_eq_bind, Option.bind_some, behind, Utf16.ofBytes_toBytes,
    Utf16.text?_units]

theorem toInt_eq_toUInt32 (x : Int32) :
    x.toInt = if x.toUInt32.toNat < 2 ^ 31 then (x.toUInt32.toNat : Int)
      else x.toUInt32.toNat - 2 ^ 32 := by
  have value := BitVec.toInt_eq_toNat_cond x.toBitVec
  rw [Int32.toInt_toBitVec, ← Int32.toBitVec_toUInt32, UInt32.toNat_toBitVec] at value
  split_ifs at value ⊢ <;> omega

/-- The two readers agree where the address of a text and the number of its units are below 2 ^ 31,
and where there is no text. Elsewhere there is a text but no name. -/
theorem View.moduleName?_eq (v : View) (held : v.data.length < 2 ^ 63) :
    v.moduleName? = if v.header.moduleName.toUInt32.toNat < 2 ^ 31 ∧
        ∀ count ∈ Bytes.natAt? v.data v.header.moduleName.toUInt32.toNat 4, count < 2 ^ 31 then
      Listing.text? v.data v.header.moduleName.toUInt32.toNat
    else none := by
  have value := toInt_eq_toUInt32 v.header.moduleName
  have bound := v.header.moduleName.toUInt32.toNat_lt
  unfold moduleName? Listing.text?
  generalize v.header.moduleName.toUInt32.toNat = start at value bound ⊢
  rw [value]
  by_cases positive : start < 2 ^ 31
  · have natural : ¬((start : Int) < 0) := by omega
    simp only [positive, if_true, natural, if_false, Int.toNat_natCast, true_and]
    cases found : Bytes.natAt? v.data start 4 with
    | none => simp
    | some count =>
      have inside := Bytes.add_le_of_natAt? found
      simp only [Option.bind_eq_bind, Option.bind_some, Utf16.take?_drop inside,
        Option.mem_some_iff, forall_eq']
      by_cases low : count < 2147483648
      · rw [if_pos low, if_pos (show count < 2 ^ 31 from low), Option.bind_map]
        rfl
      · -- with its top bit set the count of a name stands for more units than there can be
        have far : Bytes.slice? v.data (start + 4) (2 * (0xFFFFFFFF00000000 + count)) = none :=
          if_neg (by omega)
        rw [if_neg low, if_neg (show ¬count < 2 ^ 31 from low), far]
        rfl
  · -- a negative offset is none of a name
    have negative : (start : Int) - 2 ^ 32 < 0 := by omega
    rw [if_neg positive, if_pos negative, if_neg fun h => positive h.1]

theorem View.moduleName?_eq_text? (v : View) (small : v.data.length < 2 ^ 31) :
    v.moduleName? = Listing.text? v.data v.header.moduleName.toUInt32.toNat := by
  rw [v.moduleName?_eq (by omega)]
  split
  · rfl
  · next beyond =>
    -- an address or a count beyond the signed numbers leads out of the section
    cases found : Bytes.natAt? v.data v.header.moduleName.toUInt32.toNat 4 with
    | none => simp [Listing.text?, found]
    | some count =>
      have inside := Bytes.add_le_of_natAt? found
      have many : ¬count < 2 ^ 31 := fun low => beyond ⟨by omega, by simpa [found] using low⟩
      have far : Bytes.slice? v.data (v.header.moduleName.toUInt32.toNat + 4) (2 * count) = none :=
        if_neg (by omega)
      simp [Listing.text?, found, far]

theorem Image.length_data_lt {file : Bytes} {image : Image} (loaded : load file = .ok image) :
    image.data.length < 2 ^ 31 := by
  obtain ⟨gap, lies⟩ := Lies.of_load loaded
  have stop := lies.codeStart
  have small := image.header.codeStart.toInt_lt
  omega

namespace Script

theorem moduleName?_assembled {pool : Pool} (tidy : pool.Tidy) (code : Array Instruction)
    (name : String) (time : Int64) (short : (pool.store (.text name)).2.Short)
    (small : (assembled pool code (some name) time).data.length < 2 ^ 31) :
    (assembled pool code (some name) time).view.moduleName? = some name := by
  have stored := (tidy.store (.text name)).slice?_blob short
    (Pool.find?_store_self pool (.text name))
  have inside : (pool.store (.text name)).1 + (Constant.text name).size ≤
      (assembled pool code (some name) time).data.length := (Bytes.slice?_eq_some_iff.mp stored).1
  have few : (Utf16.units name).length < 2 ^ 32 := by
    simp only [Constant.size] at inside
    omega
  have start : (assembled pool code (some name) time).view.header.moduleName.toUInt32.toNat =
      (pool.store (.text name)).1 := by
    change (Int32.ofNat (pool.store (.text name)).1).toUInt32.toNat = _
    rw [Int32.toUInt32_ofNat', UInt32.toNat_ofNat_of_lt' (show _ < 4294967296 by omega)]
  rw [View.moduleName?_eq_text? _ small, start]
  exact Listing.text?_of_stored stored few

theorem exists_load_of_ofBytes {file : Bytes} {s : Script} (h : ofBytes file = .ok s) :
    ∃ image, Image.load file = .ok image ∧ image.toScript = s := by
  unfold ofBytes at h
  cases loaded : Image.load file with
  | error e =>
    rw [loaded] at h
    cases h
  | ok image =>
    rw [loaded] at h
    exact ⟨image, rfl, Except.ok.inj h⟩

/-- The file of a program loads exactly if the start of its code is below 2 ^ 31. -/
theorem loads_iff_of_assemble {pool : Pool} {code : Array Instruction} {name : Option String}
    {time : Int64} {s : Script} (put : assemble pool code name time = .ok s)
    (small : s.data.length < 2 ^ 31) :
    (∃ image, Image.load s.toBytes = .ok image) ↔ Header.length + s.data.length < 2 ^ 31 := by
  obtain ⟨-, -, -, dataStart, codeStart⟩ := fields_of_assemble put
  constructor
  · rintro ⟨image, loaded⟩
    obtain ⟨-, -, header, atData, atCode, -⟩ := Image.load_eq_ok loaded
    rw [toBytes, List.append_assoc, Header.read_toBytes_append] at header
    have stop := toInt_eq_toUInt32 image.header.codeStart
    rw [header, codeStart, Int32.toUInt32_ofNat',
      UInt32.toNat_ofNat_of_lt' (show _ < 4294967296 by simp only [Header.length]; omega)] at stop
    rw [header, codeStart, dataStart] at atCode
    rw [header, dataStart] at atData
    -- a start that is no signed number turns negative, in front of the data
    by_contra large
    rw [if_neg large] at stop
    simp only [Header.length] at *
    omega
  · intro fits
    obtain ⟨image, loaded, -⟩ := exists_load_of_ofBytes
      ((ofBytes_toBytes_iff _).mpr ((spaced_iff_of_assemble put).mpr fits))
    exact ⟨image, loaded⟩

/-- A named program can be assembled from any stored constants, the name possibly among them, if
their sizes fit in 32 bits and the data section is shorter than 2 ^ 31 bytes. Its name is read back
from it and from its file, which loads exactly if the section is shorter than 2 ^ 31 - 36 bytes. In
every data section and at every address, the name is the text that a listing shows if the address
and the number of units are below 2 ^ 31, and there is none otherwise. In sections shorter than 2 ^
31 bytes, as in all files that load, the two readers always agree. -/
theorem name_read_back :
    (∀ (cs : List Constant) (offsets : List Nat) (pool : Pool) (code : Array Instruction)
        (name : String) (time : Int64), Pool.empty.addAll cs = .ok (offsets, pool) →
      ((∀ c ∈ cs ++ [.text name], c.size < 2 ^ 32) →
        Pool.ceil (Pool.empty.storeAll (cs ++ [.text name])).2.mark 16 < 2 ^ 31 →
          ∃ s, assemble pool code (some name) time = .ok s ∧ s.data.length < 2 ^ 31) ∧
      ∀ s, assemble pool code (some name) time = .ok s → s.data.length < 2 ^ 31 →
        s.view.moduleName? = some name ∧
        ((∃ image, Image.load s.toBytes = .ok image) ↔ s.data.length < 2 ^ 31 - 36) ∧
        ∀ image, Image.load s.toBytes = .ok image → image.view.moduleName? = some name) ∧
    (∀ (v : View) (a : Int32), v.header.moduleName = a → v.data.length < 2 ^ 63 →
      (v.moduleName? = if a.toUInt32.toNat < 2 ^ 31 ∧
          ∀ count ∈ Bytes.natAt? v.data a.toUInt32.toNat 4, count < 2 ^ 31 then
        Listing.text? v.data a.toUInt32.toNat else none) ∧
      (v.data.length < 2 ^ 31 → v.moduleName? = Listing.text? v.data a.toUInt32.toNat)) ∧
    ∀ (file : Bytes) (image : Image), Image.load file = .ok image → image.data.length < 2 ^ 31 := by
  refine ⟨fun cs offsets pool code name time stored => ?_, ?_, fun file image =>
    Image.length_data_lt⟩
  · obtain ⟨low, same⟩ := (Pool.addAll_eq_ok_iff (by decide)).mp stored
    obtain ⟨rfl, rfl⟩ := Prod.ext_iff.mp same
    refine ⟨fun sizes small => ?_, fun s put small => ?_⟩
    · refine ⟨_, (assemble_storeAll_eq_ok_iff low).mpr
        ⟨⟨sizes, Nat.lt_trans small (by decide)⟩, rfl⟩, ?_⟩
      rw [length_data_assembled code (some name) time sizes]
      exact small
    · obtain ⟨⟨sizes, -⟩, rfl⟩ := (assemble_storeAll_eq_ok_iff low).mp put
      have short : (named (Pool.empty.storeAll cs).2 (some name)).2.Short := by
        rw [named_storeAll]
        exact Pool.short_storeAll_iff.mpr sizes
      have named := moduleName?_assembled (Pool.ordered_storeAll cs).tidy code name time short small
      have loads := loads_iff_of_assemble put small
      refine ⟨named, loads.trans ?_, fun image loaded => ?_⟩
      · simp only [Header.length]
        omega
      · have spaced := (spaced_iff_of_assemble put).mpr (loads.mp ⟨image, loaded⟩)
        obtain ⟨other, again, whole⟩ :=
          exists_load_of_ofBytes ((ofBytes_toBytes_iff _).mpr spaced)
        cases loaded.symm.trans again
        rw [image.view_eq_reading, whole]
        exact named
  · rintro v _ rfl held
    exact ⟨v.moduleName?_eq held, v.moduleName?_eq_text?⟩

def sharedName : Checked Script := do
  let (_, pool) ← Pool.empty.addAll [.primitive .u8 1, .text "a😀"]
  assemble pool #[.worded .pushHandle 8] (some "a😀") 0

theorem sharedName_read_back : ∃ s, sharedName = .ok s ∧
    s.data.length = 32 ∧ s.header.moduleName = 8 ∧ s.view.moduleName? = some "a😀" ∧
      (∃ image, Image.load s.toBytes = .ok image ∧ image.view.moduleName? = some "a😀") ∧
      Listing.text? s.data 8 = some "a😀" := by
  obtain ⟨named, same, -⟩ := name_read_back
  have facts : ∀ s ∈ sharedName.toOption, s.data.length = 32 ∧ s.header.moduleName = 8 := by
    decide +kernel
  obtain ⟨s, found⟩ := Option.isSome_iff_exists.mp
    (show sharedName.toOption.isSome by decide +kernel)
  have made := toOption_eq_some_iff.mp found
  obtain ⟨length, start⟩ := facts s found
  obtain ⟨⟨offsets, pool⟩, stored, put⟩ := bind_eq_ok_iff.mp made
  have small : s.data.length < 2 ^ 31 := length.trans_lt (by decide)
  obtain ⟨here, loads, there⟩ := (named _ _ _ _ _ _ stored).2 s put small
  obtain ⟨image, loaded⟩ := loads.mpr (length.trans_lt (by decide))
  have shown := (same s.view 8 start (small.trans (by decide))).2 small
  exact ⟨s, made, length, start, here, ⟨image, loaded, there image loaded⟩, shown.symm.trans here⟩

def lettered (n : Nat) : String := .ofList (List.replicate n 'a')

theorem length_units_lettered (n : Nat) : (Utf16.units (lettered n)).length = n := by
  simp [lettered, Utf16.units, List.length_flatMap, Utf16.unitsOf]

theorem mark_store_empty (c : Constant) :
    (Pool.empty.store c).2.mark = Pool.ceil c.cell Pool.grid := by
  simp only [Pool.store, Pool.find?, Pool.empty, List.find?_nil, Option.map_none, Pool.placing,
    Pool.allocated, Pool.takeHole, ite_self, Pool.extended, Nat.zero_add]

def zeros (n : Nat) (a : Int32) : View where
  header := ⟨.current, 0, 36, 36, a⟩
  data := List.replicate n 0
  length := 0
  fetch := fun _ => none
  instruction? := fun _ => .ok none

theorem text?_zeros {n start : Nat} (inside : start + 4 ≤ n) :
    Listing.text? (List.replicate n 0) start = some "" := by
  have cut (a w : Nat) (h : a + w ≤ n) :
      Bytes.slice? (List.replicate n 0) a w = some (List.replicate w 0) := by
    rw [Bytes.slice?, List.length_replicate, if_pos h, List.drop_replicate, List.take_replicate,
      Nat.min_eq_left (by omega)]
  have count : Bytes.natAt? (List.replicate n 0) start 4 = some 0 := by
    rw [Bytes.natAt?, cut start 4 inside]
    rfl
  simp only [Listing.text?, count, Option.bind_eq_bind, Option.bind_some, Nat.mul_zero,
    cut (start + 4) 0 (by omega)]
  rfl

/-- A program whose name takes nearly 2 ^ 31 bytes: the name is read from the program, but the file
does not load, since its code starts beyond 2 ^ 31. In a section of more than 2 ^ 31 zeros there is
an empty text at the address 2 ^ 31, but no name. -/
theorem lettered_not_loaded :
    (∃ s, assemble .empty #[] (some (lettered 1073741814)) 0 = .ok s ∧
      s.data.length = 2 ^ 31 - 16 ∧ s.view.moduleName? = some (lettered 1073741814) ∧
      ¬∃ image, Image.load s.toBytes = .ok image) ∧
    (zeros 2147483652 (-2147483648)).moduleName? = none ∧
      Listing.text? (zeros 2147483652 (-2147483648)).data
        (zeros 2147483652 (-2147483648)).header.moduleName.toUInt32.toNat = some "" := by
  refine ⟨?_, rfl, text?_zeros (show 2147483648 + 4 ≤ 2147483652 by decide)⟩
  have size : (Constant.text (lettered 1073741814)).size = 2147483632 := by
    rw [Constant.size, length_units_lettered]
  generalize lettered 1073741814 = name at size ⊢
  have sizes : ∀ c ∈ [] ++ (some name).toList.map Constant.text, c.size < wordLimit := by
    intro c hc
    obtain rfl : c = .text name := by simpa using hc
    rw [size]
    decide
  have stop : Pool.ceil (Pool.empty.storeAll ([] ++ (some name).toList.map .text)).2.mark
      Pool.blockSize = 2147483632 := by
    change Pool.ceil (Pool.empty.store (.text name)).2.mark Pool.blockSize = _
    rw [mark_store_empty, Constant.cell, size]
    decide
  have put := (assemble_storeAll_eq_ok_iff (show (Pool.empty.storeAll []).2.mark < wordLimit by
    decide)).mpr ⟨⟨sizes, stop.trans_lt (by decide)⟩,
      (rfl : _ = assembled (Pool.empty.storeAll []).2 #[] (some name) 0)⟩
  have length : (assembled (Pool.empty.storeAll []).2 #[] (some name) 0).data.length = 2147483632 :=
    (length_data_assembled #[] (some name) 0 sizes).trans stop
  have small := length.trans_lt (show 2147483632 < 2 ^ 31 by decide)
  have short : (named (Pool.empty.storeAll []).2 (some name)).2.Short := by
    rw [named_storeAll]
    exact Pool.short_storeAll_iff.mpr sizes
  refine ⟨_, put, length, moduleName?_assembled Pool.tidy_empty #[] name 0 short small,
    fun loads => ?_⟩
  have fits := (loads_iff_of_assemble put small).mp loads
  rw [length] at fits
  exact absurd fits (by decide)

end Script

end Bytescript
