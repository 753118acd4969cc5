import Mathlib
import Bytescript.Proofs.ScriptFile

/-!
# What the loader accepts

A file is accepted when six checks hold of it, and otherwise the first check that fails is reported.
The checks are stated on the bytes of the file alone. The image of an accepted file has its header
from the first 36 bytes, its data and its code from the two sections that the header gives, and the
eight-byte pieces of the code as its instructions.
-/
namespace Bytescript

def Bytes.signedAt (bs : Bytes) (start w : Nat) : Int :=
  (toWord w ((bs.drop start).take w)).toInt

namespace Instruction

theorem ofBytes?_of_length {bs : Bytes} (h : bs.length = length) :
    ∃ i, ofBytes? bs = some i ∧ i.toBytes = bs := by
  match bs, h with
  | [tag, w₀, w₁, low, v₀, v₁, v₂, v₃], _ =>
    exact ⟨_, rfl, toBytes_of_bytes tag w₀ w₁ low v₀ v₁ v₂ v₃⟩

end Instruction

namespace Image

theorem fetch_of_lt (image : Image) {k : Nat} (h : k < image.view.length) :
    ∃ i, image.fetch k = some i ∧
      i.toBytes = (image.code.drop (Instruction.length * k)).take Instruction.length := by
  have fits : Instruction.length * k + Instruction.length ≤ image.code.length := by
    simp only [view, Instruction.length] at h ⊢
    omega
  have found := Bytes.slice?_eq_some_iff.mpr ⟨fits, rfl⟩
  have eight : ((image.code.drop (Instruction.length * k)).take Instruction.length).length =
      Instruction.length := by
    rw [List.length_take, List.length_drop]
    omega
  obtain ⟨i, read, written⟩ := Instruction.ofBytes?_of_length eight
  refine ⟨i, ?_, written⟩
  rw [fetch, found, Option.bind_some, read]

theorem fetch_of_ge (image : Image) {k : Nat} (h : image.view.length ≤ k) :
    image.fetch k = none := by
  have outside : ¬Instruction.length * k + Instruction.length ≤ image.code.length := by
    simp only [view, Instruction.length] at h ⊢
    omega
  rw [fetch, Bytes.slice?, if_neg outside, Option.bind_none]

theorem flatMap_toBytes_range (image : Image) {n : Nat} (h : n ≤ image.view.length) :
    ((List.range n).filterMap image.view.fetch).flatMap Instruction.toBytes =
      image.code.take (Instruction.length * n) := by
  induction n with
  | zero => rfl
  | succ n ih =>
    obtain ⟨i, read, written⟩ := image.fetch_of_lt (Nat.lt_of_succ_le h)
    have last : [n].filterMap image.view.fetch = [i] := by
      simp only [view, List.filterMap_cons, read, List.filterMap_nil]
    rw [List.range_succ, List.filterMap_append, List.flatMap_append, ih (Nat.le_of_succ_le h), last,
      List.flatMap_singleton, written, ← List.take_add, Nat.mul_succ]

theorem flatMap_toBytes_instructions (image : Image)
    (whole : Instruction.length ∣ image.code.length) :
    image.view.instructions.flatMap Instruction.toBytes = image.code := by
  have all : Instruction.length * image.view.length = image.code.length := Nat.mul_div_cancel' whole
  rw [View.instructions, image.flatMap_toBytes_range le_rfl, all, List.take_length]

def dataStart (file : Bytes) : Int := Bytes.signedAt file 24 4

def codeStart (file : Bytes) : Int := Bytes.signedAt file 28 4

def versionField (file : Bytes) : Bytes := (file.drop 8).take 8

/-- A condition on files, and the error for a file that does not meet it. -/
structure Check where
  holds : Bytes → Bool
  report : Bytes → LoadError

/-- The checks in the order in which they are made. -/
def checks : List Check := [
  ⟨fun file => 8 ≤ file.length, fun file => .tooShort file.length⟩,
  ⟨fun file => file.take 8 = Header.signature,
    fun file => .badSignature (Bytes.toNat (file.take 8))⟩,
  ⟨fun file => 36 ≤ file.length, fun file => .tooShort file.length⟩,
  ⟨fun file => 36 ≤ dataStart file ∧ dataStart file ≤ codeStart file ∧
      codeStart file ≤ file.length,
    fun file => .badOffsets (.ofInt (dataStart file)) (.ofInt (codeStart file)) file.length⟩,
  ⟨fun file => 8 ∣ file.length - (codeStart file).toNat,
    fun file => .raggedCode (file.length - (codeStart file).toNat)⟩,
  ⟨fun file => versionField file = Bytes.ofNat 8 (Version.mk 0 1 0 0).pack,
    fun file => .versionMismatch (.unpack (Bytes.toNat (versionField file)))⟩]

/-- The conditions of the format on a file. -/
structure WellFormed (file : Bytes) : Prop where
  length : 36 ≤ file.length
  signature : file.take 8 = Header.signature
  data : 36 ≤ dataStart file
  order : dataStart file ≤ codeStart file
  code : codeStart file ≤ file.length
  whole : 8 ∣ file.length - (codeStart file).toNat
  version : versionField file = Bytes.ofNat 8 (Version.mk 0 1 0 0).pack

/-- The header, data and code of an image are those of a file, and its instructions are the
eight-byte pieces of the code from its start to the end of the file. -/
structure Shows (image : Image) (file : Bytes) : Prop where
  header : image.header.toBytes = file.take 36
  data : image.data =
    (file.drop (dataStart file).toNat).take ((codeStart file).toNat - (dataStart file).toNat)
  code : image.code = file.drop (codeStart file).toNat
  length : (codeStart file).toNat + 8 * image.view.length = file.length
  piece : ∀ k, k < image.view.length → ∃ i, image.view.fetch k = some i ∧
    i.toBytes = (file.drop ((codeStart file).toNat + 8 * k)).take 8
  beyond : ∀ k, image.view.length ≤ k → image.view.fetch k = none
  instructions : image.view.instructions.flatMap Instruction.toBytes =
    file.drop (codeStart file).toNat

section Fields

variable {file : Bytes} (long : 36 ≤ file.length)
include long

theorem toInt_dataStart_read : (Header.read file).dataStart.toInt = dataStart file := by
  have field := (Bytes.natAt?_of_le (show 24 + 4 ≤ file.length by omega)).1
  simp only [Header.read, field]
  rfl

theorem toInt_codeStart_read : (Header.read file).codeStart.toInt = codeStart file := by
  have field := (Bytes.natAt?_of_le (show 28 + 4 ≤ file.length by omega)).1
  simp only [Header.read, field]
  rfl

theorem version_read :
    (Header.read file).version = .unpack (Bytes.toNat (versionField file)) := by
  have field := (Bytes.natAt?_of_le (show 8 + 8 ≤ file.length by omega)).1
  simp only [Header.read, field]
  rfl

theorem version_read_eq_current_iff :
    (Header.read file).version = .current ↔
      versionField file = Bytes.ofNat 8 (Version.mk 0 1 0 0).pack := by
  have eight : (versionField file).length = 8 := by
    rw [versionField, List.length_take, List.length_drop]
    omega
  have small : Bytes.toNat (versionField file) < 1 <<< 64 := by
    have bound := Bytes.toNat_lt (versionField file)
    rwa [eight] at bound
  rw [version_read long]
  constructor
  · intro current
    have packed := Version.pack_unpack small
    rw [current] at packed
    change versionField file = Bytes.ofNat 8 Version.current.pack
    rw [packed, ← eight, Bytes.ofNat_toNat]
  · intro written
    rw [written, Bytes.toNat_ofNat, Nat.mod_eq_of_lt (Version.pack_lt _), Version.unpack_pack]
    rfl

end Fields

/-- The error of the first check that fails. -/
def refusal? (file : Bytes) : Option LoadError :=
  (checks.find? fun check => !check.holds file).map fun check => check.report file

def sections (file : Bytes) : Image where
  header := .read file
  data := (file.take (codeStart file).toNat).drop (dataStart file).toNat
  code := file.drop (codeStart file).toNat

theorem cut_eq {file : Bytes} (long : 36 ≤ file.length) :
    cut file =
      if 36 ≤ dataStart file ∧ dataStart file ≤ codeStart file ∧ codeStart file ≤ file.length then
        if 8 ∣ file.length - (codeStart file).toNat then
          if versionField file = Bytes.ofNat 8 (Version.mk 0 1 0 0).pack then .ok (sections file)
          else .error (.versionMismatch (.unpack (Bytes.toNat (versionField file))))
        else .error (.raggedCode (file.length - (codeStart file).toNat))
      else
        .error (.badOffsets (.ofInt (dataStart file)) (.ofInt (codeStart file)) file.length) := by
  have data := toInt_dataStart_read long
  have code := toInt_codeStart_read long
  have atData : (Header.read file).dataStart = .ofInt (dataStart file) := by
    rw [← data, Int32.ofInt_toInt]
  have atCode : (Header.read file).codeStart = .ofInt (codeStart file) := by
    rw [← code, Int32.ofInt_toInt]
  have offsets : (dataStart file < Header.length ∨ codeStart file < dataStart file ∨
      (file.length : Int) < codeStart file) ↔
      ¬(36 ≤ dataStart file ∧ dataStart file ≤ codeStart file ∧
        codeStart file ≤ file.length) := by
    rw [Header.length]
    omega
  simp only [cut, offsets, version_read_eq_current_iff long, List.length_drop, code, data,
    Instruction.length, ← Nat.dvd_iff_mod_eq_zero, ne_eq, ite_not, sections]
  rw [version_read long, atData, atCode]

theorem load_eq (file : Bytes) :
    load file =
      match refusal? file with
      | some e => .error e
      | none => .ok (sections file) := by
  have front : Bytes.slice? file 0 Header.signature.length =
      if 8 ≤ file.length then some (file.take 8) else none := by
    simp [Bytes.slice?]
  simp only [load, front, refusal?, checks, List.find?_cons]
  by_cases readable : 8 ≤ file.length
  · by_cases signed : file.take 8 = Header.signature
    · by_cases long : 36 ≤ file.length
      · have short : ¬file.length < Header.length := Nat.not_lt.mpr long
        simp only [readable, signed, short, long, cut_eq long, if_true, if_false, ne_eq,
          not_true_eq_false, decide_true, Bool.not_true]
        split_ifs with offsets whole version
        · simp [offsets, whole, version]
        · simp [offsets, whole, version]
        · simp [offsets, whole]
        · simp [offsets]
      · have short : file.length < Header.length := Nat.lt_of_not_le long
        simp [readable, signed, short, long]
    · simp [readable, signed]
  · simp [readable]

theorem refusal?_eq_none_iff {file : Bytes} : refusal? file = none ↔ WellFormed file := by
  simp only [refusal?, Option.map_eq_none_iff, List.find?_eq_none, checks, List.forall_mem_cons,
    Bool.not_eq_true', Bool.not_eq_false, decide_eq_true_eq]
  constructor
  · rintro ⟨-, signature, length, ⟨data, order, code⟩, whole, version, -⟩
    exact ⟨length, signature, data, order, code, whole, version⟩
  · intro wf
    have length := wf.length
    exact ⟨by omega, wf.signature, length, ⟨wf.data, wf.order, wf.code⟩, wf.whole, wf.version,
      List.forall_mem_nil _⟩

theorem shows_sections {file : Bytes} (wf : WellFormed file) : (sections file).Shows file := by
  have whole : Instruction.length ∣ (sections file).code.length := by
    rw [sections, List.length_drop]
    exact wf.whole
  have stop : (codeStart file).toNat ≤ file.length := by
    have code := wf.code
    omega
  have length : 8 * (sections file).view.length = file.length - (codeStart file).toNat := by
    rw [← List.length_drop]
    exact Nat.mul_div_cancel' whole
  refine
    { header := Header.toBytes_read wf.length wf.signature
      data := List.drop_take
      code := rfl
      length := by omega
      piece := ?_
      beyond := fun k hk => (sections file).fetch_of_ge hk
      instructions := (sections file).flatMap_toBytes_instructions whole }
  intro k hk
  obtain ⟨i, read, written⟩ := (sections file).fetch_of_lt hk
  refine ⟨i, read, ?_⟩
  rw [written, sections, List.drop_drop]
  rfl

theorem Shows.eq_sections {file : Bytes} {image : Image} (wf : WellFormed file)
    (shows : image.Shows file) : image = sections file := by
  have header : image.header = Header.read file := by
    have written : image.header.toBytes = (Header.read file).toBytes := by
      rw [shows.header]
      exact (Header.toBytes_read wf.length wf.signature).symm
    have read := image.header.read_toBytes_append []
    rwa [written, Header.read_toBytes_append, eq_comm] at read
  obtain ⟨h, data, code⟩ := image
  rw [sections, List.drop_take]
  exact congr (congrArg₂ _ header shows.data) shows.code

/-- A file loads exactly if it is well-formed, and then as the image that shows it. Otherwise the
error is that of the first check that fails. -/
theorem load_verdict (file : Bytes) :
    ((∃ image, load file = .ok image) ↔ WellFormed file) ∧
      (∀ image, load file = .ok image ↔ WellFormed file ∧ image.Shows file) ∧
      ∀ e, load file = .error e ↔ refusal? file = some e := by
  have none_iff : refusal? file = none ↔ WellFormed file := refusal?_eq_none_iff
  rw [load_eq]
  cases verdict : refusal? file with
  | none =>
    have wf := none_iff.mp verdict
    refine ⟨⟨fun _ => wf, fun _ => ⟨_, rfl⟩⟩, fun image => ?_, fun e => by simp⟩
    constructor
    · intro loaded
      cases loaded
      exact ⟨wf, shows_sections wf⟩
    · rintro ⟨-, shows⟩
      rw [shows.eq_sections wf]
  | some refused =>
    have malformed : ¬WellFormed file := by
      rw [← none_iff, verdict]
      exact Option.some_ne_none _
    refine ⟨?_, fun image => ?_, fun e => by simp⟩
    · exact ⟨fun ⟨_, loaded⟩ => (nomatch loaded), fun wf => absurd wf malformed⟩
    · exact ⟨fun loaded => (nomatch loaded), fun h => absurd h.1 malformed⟩

/-- Crossed offsets are reported before a ragged code section and a wrong version. -/
example : load (Header.signature ++ List.replicate 16 1 ++ [40, 0, 0, 0] ++ [36, 0, 0, 0] ++
    List.replicate 7 0) = .error (.badOffsets 40 36 39) := by
  decide

end Image

end Bytescript
