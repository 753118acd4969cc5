import Mathlib
import Bytescript.Constant
import Bytescript.Proofs.Encoding

/-!
# The values of integer literals

A text selects a radix and has digits, which give its positional value. A literal that is read has
this value, with its sign, and gets the narrowest type that holds it: among the signed types if it
is negative, and else among the unsigned ones.
-/
namespace Bytescript

namespace Primitive

theorem family_of_isInteger {p : Primitive} (h : p.isInteger) :
    p.family = .signed ∨ p.family = .unsigned := by
  simpa [isInteger] using h

/-- A value is in the range of an integer type. -/
def Holds (p : Primitive) (v : Int) : Prop :=
  match p.family with
  | .signed => -2 ^ (p.bits - 1) ≤ v ∧ v < 2 ^ (p.bits - 1)
  | .unsigned => 0 ≤ v ∧ v < 2 ^ p.bits
  | .bool | .char | .float => False

theorem holds_signed {p : Primitive} (h : p.isSigned) (v : Int) :
    p.Holds v ↔ -2 ^ (p.bits - 1) ≤ v ∧ v < 2 ^ (p.bits - 1) := by
  have hf : p.family = .signed := by simpa [isSigned] using h
  simp only [Holds, hf]

theorem holds_unsigned {p : Primitive} (hi : p.isInteger) (hs : p.isSigned = false) (v : Int) :
    p.Holds v ↔ 0 ≤ v ∧ v < 2 ^ p.bits := by
  have hf : p.family = .unsigned := by
    refine (family_of_isInteger hi).resolve_left fun h => ?_
    simp [isSigned, h] at hs
  simp only [Holds, hf]

theorem mem_signedTypes (p : Primitive) : p ∈ signedTypes ↔ p.family = .signed := by
  cases p <;> decide

theorem mem_unsignedTypes (p : Primitive) : p ∈ unsignedTypes ↔ p.family = .unsigned := by
  cases p <;> decide

theorem size_le_of_find? {ps : List Primitive} (sorted : ps.Pairwise fun p q => p.size ≤ q.size)
    {good : Primitive → Bool} {p q : Primitive} (hp : ps.find? good = some p) (hq : q ∈ ps)
    (h : good q) : p.size ≤ q.size := by
  obtain ⟨-, before, behind, rfl, bad⟩ := List.find?_eq_some_iff_append.mp hp
  rcases List.mem_append.mp hq with hq | hq
  · exact absurd h (by simpa using bad q hq)
  · rcases List.mem_cons.mp hq with rfl | hq
    · exact Nat.le_refl _
    · exact (List.pairwise_cons.mp (List.pairwise_append.mp sorted).2.1).1 q hq

/-- A type is the narrowest of a family that holds a value. -/
structure Narrowest (family : Family) (v : Int) (p : Primitive) : Prop where
  member : p.family = family
  holds : p.Holds v
  le : ∀ q : Primitive, q.family = family → q.Holds v → p.size ≤ q.size

/-- A search through the types of a family, from the narrowest on, for one that holds a value ends
at the narrowest, if the widest holds it. -/
theorem exists_narrowest {family : Family} {ps : List Primitive} {v : Int}
    (members : ∀ q, q ∈ ps ↔ q.family = family)
    (sorted : ps.Pairwise fun p q => p.size ≤ q.size) {good : Primitive → Bool}
    (fits : ∀ q, q.family = family → (good q = true ↔ q.Holds v)) {widest : Primitive}
    (hw : widest.family = family) (holds : widest.Holds v) :
    ∃ p, ps.find? good = some p ∧ Narrowest family v p := by
  obtain ⟨p, found⟩ := Option.isSome_iff_exists.mp
    (List.find?_isSome.mpr ⟨widest, (members widest).mpr hw, (fits widest hw).mpr holds⟩)
  have own := (members p).mp (List.mem_of_find?_eq_some found)
  refine ⟨p, found, own, (fits p own).mp (List.find?_some found), fun q hq held => ?_⟩
  exact size_le_of_find? sorted found ((members q).mpr hq) ((fits q hq).mpr held)

end Primitive

namespace Numeral

def digits (radix : Nat) (cs : List Char) : List Nat :=
  (cs.filter (· ≠ '_')).filterMap (digit? radix)

/-- The positional value of a text in the radix that its front selects. -/
def positional (text : String) : Nat :=
  let (radix, body) := splitRadix text.toList
  Nat.ofDigits radix (digits radix body).reverse

def meaning (text : String) (negative : Bool) : Int :=
  if negative then -positional text else positional text

theorem readDigits_ok {radix total m : Nat} {seen : Bool} {cs : List Char}
    (h : readDigits radix total seen cs = .ok m) :
    m = (digits radix cs).foldl (fun total d => total * radix + d) total := by
  induction cs generalizing total seen with
  | nil =>
    rw [readDigits] at h
    split at h
    · exact (Except.ok.inj h).symm
    · cases h
  | cons c cs ih =>
    rw [readDigits] at h
    split at h
    · next hc =>
      rw [ih h]
      simp [digits, hc]
    · next hc =>
      split at h
      · cases h
      · next d hd =>
        split at h
        · cases h
        · rw [ih h]
          simp [digits, hc, hd]

theorem foldl_eq_ofDigits (radix : Nat) (ds : List Nat) :
    ds.foldl (fun total d => total * radix + d) 0 = Nat.ofDigits radix ds.reverse := by
  rw [Nat.ofDigits_eq_foldr, List.foldr_reverse]
  congr 1
  funext total d
  simp [Nat.mul_comm, Nat.add_comm]

/-- A literal fits in 128 bits, signed, and zero has no sign. -/
structure Valid (n : Numeral) : Prop where
  negative : n.negative = true → 0 < n.magnitude ∧ n.magnitude ≤ 2 ^ 127
  nonnegative : n.negative = false → n.magnitude < 2 ^ 127

/-- A literal that is read has the value of its text. -/
theorem parse_ok {text : String} {negative : Bool} {n : Numeral}
    (h : parse text negative = .ok n) : n.value = meaning text negative ∧ n.Valid := by
  unfold parse at h
  dsimp only at h
  split at h
  · cases h
  · next m hm =>
    have hv : m = positional text := (readDigits_ok hm).trans (foldl_eq_ofDigits ..)
    cases negative with
    | false =>
      simp only [Bool.false_eq_true, if_false] at h
      split at h
      · cases h
      · next hle =>
        cases h
        refine ⟨by simp [value, meaning, hv], ⟨nofun, fun _ => ?_⟩⟩
        dsimp only
        omega
    | true =>
      simp only [if_true] at h
      split at h
      · cases h
      · next hle =>
        cases h
        refine ⟨?_, ⟨fun hn => ?_, fun hn => ?_⟩⟩
        · by_cases hz : m = 0 <;> simp [value, meaning, ← hv, hz]
        · have hz : m ≠ 0 := by simpa using hn
          dsimp only
          omega
        · have hz : m = 0 := by simpa using hn
          dsimp only
          omega

def signedWidth (v : Int) : Nat :=
  ([1, 2, 4, 8, 16].find? fun w => -2 ^ (8 * w - 1) ≤ v).getD 16

section

open Primitive

variable {n : Numeral} {p : Primitive}

theorem value_of_negative (h : n.negative = true) : n.value = -n.magnitude := by
  rw [value, if_pos h]

theorem value_of_nonnegative (h : n.negative = false) : n.value = n.magnitude := by
  rw [value, h, if_neg Bool.false_ne_true]

theorem magnitude_le_iff (h : n.negative = true) (hp : p.family = .signed) :
    n.magnitude ≤ 1 <<< (p.bits - 1) ↔ p.Holds n.value := by
  have half : (0 : Int) < 2 ^ (p.bits - 1) := by positivity
  rw [holds_signed (by simp [isSigned, hp]), value_of_negative h, neg_le_neg_iff, Nat.one_shiftLeft]
  constructor
  · intro le
    exact ⟨by exact_mod_cast le, by omega⟩
  · intro holds
    exact_mod_cast holds.1

theorem magnitude_lt_signed_iff (h : n.negative = false) (hp : p.family = .signed) :
    n.magnitude < 1 <<< (p.bits - 1) ↔ p.Holds n.value := by
  have half : (0 : Int) < 2 ^ (p.bits - 1) := by positivity
  rw [holds_signed (by simp [isSigned, hp]), value_of_nonnegative h, Nat.one_shiftLeft]
  constructor
  · intro lt
    exact ⟨by omega, by exact_mod_cast lt⟩
  · intro holds
    exact_mod_cast holds.2

theorem magnitude_lt_unsigned_iff (h : n.negative = false) (hp : p.family = .unsigned) :
    n.magnitude < 1 <<< p.bits ↔ p.Holds n.value := by
  rw [holds_unsigned (by simp [isInteger, hp]) (by simp [isSigned, hp]), value_of_nonnegative h,
    Nat.one_shiftLeft]
  constructor
  · intro lt
    exact ⟨by omega, by exact_mod_cast lt⟩
  · intro holds
    exact_mod_cast holds.2

theorem Valid.holds_i128 (valid : n.Valid) : Primitive.i128.Holds n.value := by
  cases h : n.negative with
  | true => exact (magnitude_le_iff h rfl).mp (valid.negative h).2
  | false => exact (magnitude_lt_signed_iff h rfl).mp (valid.nonnegative h)

theorem Valid.value_neg_iff (valid : n.Valid) : n.value < 0 ↔ n.negative = true := by
  unfold value
  cases h : n.negative with
  | true =>
    have := (valid.negative h).1
    simpa using this
  | false => simp

theorem Valid.type_negative (valid : n.Valid) (h : n.negative = true) :
    Narrowest .signed n.value n.type.primary ∧ n.type.secondary = none := by
  obtain ⟨p, found, narrowest⟩ := exists_narrowest mem_signedTypes (by decide)
    (fun q hq => decide_eq_true_iff.trans (magnitude_le_iff h hq)) rfl valid.holds_i128
  have own : n.type = ⟨p, none⟩ := by
    simp only [type, h, if_true, found, Option.getD_some]
  rw [own]
  exact ⟨narrowest, rfl⟩

theorem Valid.type_nonnegative (valid : n.Valid) (h : n.negative = false) :
    Narrowest .unsigned n.value n.type.primary ∧
      ∃ s, n.type.secondary = some s ∧ Narrowest .signed n.value s := by
  have wide : Primitive.u128.Holds n.value :=
    (magnitude_lt_unsigned_iff h rfl).mp ((valid.nonnegative h).trans (by decide))
  obtain ⟨p, found, narrowest⟩ := exists_narrowest mem_unsignedTypes (by decide)
    (fun q hq => decide_eq_true_iff.trans (magnitude_lt_unsigned_iff h hq)) rfl wide
  obtain ⟨s, found', narrowest'⟩ := exists_narrowest mem_signedTypes (by decide)
    (fun q hq => decide_eq_true_iff.trans (magnitude_lt_signed_iff h hq)) rfl valid.holds_i128
  have own : n.type = ⟨p, some s⟩ := by
    simp only [type, h, Bool.false_eq_true, if_false, found, found', Option.getD_some]
  rw [own]
  exact ⟨narrowest, s, rfl, narrowest'⟩

theorem signedWidth_eq {v : Int} (below : v < 0) (h : Narrowest .signed v p) :
    signedWidth v = p.size := by
  have widths : [1, 2, 4, 8, 16] = signedTypes.map size := rfl
  have fits : ∀ q : Primitive, q.family = .signed →
      (decide (-2 ^ (8 * q.size - 1) ≤ v) = true ↔ q.Holds v) := by
    intro q hq
    have half : (0 : Int) < 2 ^ (q.bits - 1) := by positivity
    rw [holds_signed (by simp [isSigned, hq]), decide_eq_true_iff]
    exact ⟨fun le => ⟨le, below.trans half⟩, And.left⟩
  obtain ⟨q, found, narrowest⟩ := exists_narrowest mem_signedTypes (by decide) fits h.member h.holds
  rw [signedWidth, widths, List.find?_map, Function.comp_def, found]
  exact (narrowest.le p h.member h.holds).antisymm (h.le q narrowest.member narrowest.holds)

/-- A negative literal has the narrowest signed type that holds it, and no second type. -/
theorem type_of_negative (valid : n.Valid) (h : n.negative = true) :
    n.type.primary.isSigned ∧ n.type.primary.Holds n.value ∧
      n.type.primary.size = signedWidth n.value ∧ n.type.secondary = none := by
  obtain ⟨narrowest, none⟩ := valid.type_negative h
  have signed : n.type.primary.isSigned := by simp [isSigned, narrowest.member]
  have width := signedWidth_eq (valid.value_neg_iff.mpr h) narrowest
  exact ⟨signed, narrowest.holds, width.symm, none⟩

/-- A literal that is not negative has an unsigned type that holds it, and a signed type, which is
no narrower. -/
theorem type_of_nonnegative (valid : n.Valid) (h : n.negative = false) :
    n.type.primary.isInteger ∧ n.type.primary.isSigned = false ∧
      n.type.primary.Holds n.value ∧ ∃ s, n.type.secondary = some s ∧ s.isSigned ∧
        n.type.primary.size ≤ s.size := by
  obtain ⟨narrowest, s, second, signed⟩ := valid.type_nonnegative h
  -- The unsigned type of the same width has one bit more.
  obtain ⟨u, hu, same⟩ : ∃ u ∈ unsignedTypes, u.size = s.size := by
    have member := signed.member
    revert member
    cases s <;> decide
  rw [mem_unsignedTypes] at hu
  have held : u.Holds n.value := by
    have lt := (magnitude_lt_signed_iff h signed.member).mpr signed.holds
    rw [Nat.one_shiftLeft] at lt
    rw [← magnitude_lt_unsigned_iff h hu, Nat.one_shiftLeft, Primitive.bits, same]
    exact lt.trans_le (Nat.pow_le_pow_right (by decide) (Nat.sub_le ..))
  refine ⟨by simp [isInteger, narrowest.member], by simp [isSigned, narrowest.member],
    narrowest.holds, s, second, by simp [isSigned, signed.member], ?_⟩
  exact same ▸ narrowest.le u hu held

theorem Valid.holds (valid : n.Valid) : n.type.primary.Holds n.value := by
  cases h : n.negative with
  | true => exact (type_of_negative valid h).2.1
  | false => exact (type_of_nonnegative valid h).2.2.1

theorem Valid.isSigned_primary (valid : n.Valid) : n.type.primary.isSigned = n.negative := by
  cases h : n.negative with
  | true => exact (type_of_negative valid h).1
  | false => exact (type_of_nonnegative valid h).2.1

end

/-- The literal in two's complement at the width of `p`. -/
def word (n : Numeral) (p : Primitive) : BitVec (8 * p.size) := BitVec.ofInt (8 * p.size) n.value

theorem size_le_sixteen (p : Primitive) : p.size ≤ 16 := by
  cases p <;> decide

theorem bits_eq (n : Numeral) : n.bits = BitVec.ofInt 128 n.value := by
  unfold bits value
  split
  · rw [BitVec.ofInt_neg, BitVec.ofInt_natCast]
  · exact (BitVec.ofInt_natCast ..).symm

theorem toBytes_eq_ofWord (n : Numeral) (p : Primitive) :
    n.toBytes p = Bytes.ofWord (n.word p) := by
  have narrower : (2 : Int) ^ (8 * p.size) ∣ 2 ^ 128 :=
    pow_dvd_pow 2 (by have := size_le_sixteen p; omega)
  have cut : n.bits.toNat % 2 ^ (8 * p.size) = (n.word p).toNat := by
    rw [bits_eq, word, BitVec.toNat_ofInt, BitVec.toNat_ofInt]
    zify
    rw [Int.toNat_of_nonneg (Int.emod_nonneg _ (by positivity)),
      Int.toNat_of_nonneg (Int.emod_nonneg _ (by positivity))]
    exact Int.emod_emod_of_dvd _ narrower
  rw [toBytes, Bytes.take_ofNat (size_le_sixteen p), Bytes.ofWord, ← Bytes.ofNat_mod, cut]

end Numeral

theorem Constant.ofNumeral_eq (p : Primitive) (n : Numeral) :
    Constant.ofNumeral p n = if p.isInteger then some (.primitive p (n.word p)) else none := by
  have cut : BitVec.ofNat (8 * p.size)
      (Bytes.toNat (n.toBytes p ++ List.replicate (16 - (n.toBytes p).length) 0)) = n.word p := by
    rw [Bytes.toNat_append_zeros, n.toBytes_eq_ofWord]
    exact Bytes.toWord_ofWord _
  rw [ofNumeral, cut]

end Bytescript
