import Mathlib
import Bytescript.Proofs.IntegerOperations

/-!
# Casts between integer types

A cast from one integer type to another is one instruction: it repeats the sign, adds zeros or drops
bytes. Which of them it is depends on the two types only, and it leaves the value modulo the width
of the new type. The new type reads this as the old value if that is in its range, which is always
so for an implicit cast.
-/
namespace Bytescript

namespace Primitive

open Evaluation

variable {p : Primitive} {x : Bytes} {v : Int}

theorem number_eq_value (hx : x.length = p.size) : number p x = x.value p.isSigned := by
  unfold number word
  cases hs : p.isSigned with
  | true => exact Bytes.toInt_toWord hx
  | false =>
    rw [if_neg Bool.false_ne_true, Bytes.toNat_toWord_of_length hx, Bytes.value_unsigned]

theorem holds_value (hi : p.isInteger) (hx : x.length = p.size) : p.Holds (x.value p.isSigned) := by
  have bits : p.bits = 8 * p.size := rfl
  cases hs : p.isSigned with
  | true =>
    rw [holds_signed hs, ← Bytes.toInt_toWord hx, bits]
    exact ⟨BitVec.le_toInt _, BitVec.toInt_lt⟩
  | false =>
    have below := Bytes.toNat_lt x
    rw [Nat.one_shiftLeft, hx] at below
    rw [holds_unsigned hi hs, Bytes.value_unsigned, bits]
    exact ⟨by omega, by exact_mod_cast below⟩

theorem value_ofInt_iff (hi : p.isInteger) :
    (Bytes.ofInt p.size v).value p.isSigned = v ↔ p.Holds v := by
  have length : (Bytes.ofInt p.size v).length = p.size := Bytes.length_ofInt ..
  constructor
  · intro same
    rw [← same]
    exact holds_value hi length
  · intro holds
    rw [← number_eq_value length]
    exact number_ofInt hi holds

/-- A type to which an integer type converts implicitly holds all of its values. -/
theorem Holds.implicit {q : Primitive} (holds : p.Holds v) (hp : p.isInteger) (hq : q.isInteger)
    (h : (Conversion.ofPrimitives p q).isImplicit) : q.Holds v := by
  have widens : p.Widens q := (Conversion.ofPrimitives_implicit hp hq h).1
  rcases holds.widened widens with holds | ⟨signed, large, -⟩
  · exact holds
  · -- The old type is signed, too, and has no values of this size.
    have signs : p.isSigned := by
      by_contra unsigned
      have distinct : p ≠ q := by
        rintro rfl
        exact unsigned signed
      have fp : p.family = .unsigned :=
        (family_of_isInteger hp).resolve_left fun f => unsigned (by simp [isSigned, f])
      have fq : q.family = .signed := by simpa [isSigned] using signed
      simp only [Conversion.ofPrimitives, distinct, if_false, fp, fq] at h
      exact absurd h (by decide)
    obtain ⟨-, upper⟩ := (holds_signed signs v).mp holds
    have half : (2 : Int) ^ (p.bits - 1) ≤ 2 ^ (q.bits - 1) :=
      pow_le_pow_right₀ (by decide) (Nat.sub_le_sub_right (Nat.mul_le_mul_left 8 widens.size) 1)
    linarith

end Primitive

namespace Instruction

open Exec

theorem yields_of_flows {capacity : Nat} {data : Bytes} {i : Instruction} {op : Opcode}
    (h : i.opcode? = some op) (fine : op = .floatToSigned → i.second ≠ 0) {before after : Bytes}
    {flow : Flow} (flows : i.Flows capacity data before flow after)
    (room : before.length - i.effect.1 + i.effect.2 ≤ capacity) :
    i.Yields capacity data before (.ok flow, .ofList after) := by
  apply yields_of_perform h fine
  rw [← step_of_opcode? h]
  unfold Flows Meets at flows
  split at flows
  · next run =>
    obtain ⟨rfl, rfl⟩ := flows
    exact run
  · next run =>
    have full := lt_of_step_overflow run flows
    rw [Stack.size_ofList] at full
    omega

end Instruction

namespace Conversion

variable {p q : Primitive}

theorem ofPrimitives_integer (hp : p.isInteger) (hq : q.isInteger) (h : p ≠ q) :
    ofPrimitives p q = .widenInteger ∨ ofPrimitives p q = .resizeInteger := by
  simp only [ofPrimitives, h, if_false]
  rcases Primitive.family_of_isInteger hp with fp | fp <;>
    rcases Primitive.family_of_isInteger hq with fq | fq <;>
    simp only [fp, fq]
  · split_ifs <;> simp
  · simp
  · simp
  · split_ifs <;> simp

theorem exists_resize (p q : Primitive) :
    ∃ i op, Conversion.widenInteger.instruction? p q = some i ∧ i.opcode? = some op ∧
      op ≠ .floatToSigned := by
  simp only [instruction?]
  split_ifs
  · exact ⟨_, _, rfl, Instruction.opcode?_paired .., by decide⟩
  · exact ⟨_, _, rfl, Instruction.opcode?_worded .., by decide⟩
  · exact ⟨_, _, rfl, Instruction.opcode?_worded .., by decide⟩

/-- The cast between two integer types replaces the bytes of a value on top of the stack by those of
the value modulo the width of the new type. These represent the value itself if it is in the range
of the new type, and every value of the old type is if the cast is implicit. -/
theorem integer_cast (p q : Primitive) (hp : p.isInteger) (hq : q.isInteger) (distinct : p ≠ q)
    (v : Int) (holds : p.Holds v) (capacity : Nat) (data below : Bytes)
    (room : below.length + q.size ≤ capacity) :
    ∃ i, (ofPrimitives p q).instruction? p q = some i ∧
      i.Yields capacity data (below ++ Bytes.ofInt p.size v)
        (.ok .next, .ofList (below ++ Bytes.ofInt q.size v)) ∧
      ((Bytes.ofInt q.size v).toNat : Int) = v % 2 ^ (8 * q.size) ∧
      ((Bytes.ofInt q.size v).value q.isSigned = v ↔ q.Holds v) ∧
      ((ofPrimitives p q).isImplicit → (Bytes.ofInt q.size v).value q.isSigned = v) := by
  obtain ⟨i, op, resize, hop, integral⟩ := exists_resize p q
  have instruction : (ofPrimitives p q).instruction? p q = some i := by
    rcases ofPrimitives_integer hp hq distinct with h | h <;> rw [h] <;> exact resize
  have length : (Bytes.ofInt p.size v).length = p.size := Bytes.length_ofInt ..
  have turns : i.Turns capacity data (below ++ Bytes.ofInt p.size v)
      (below ++ Bytes.ofInt q.size v) := by
    rw [← Primitive.convert_widenInteger hp holds q]
    exact turns_resize resize length
  have depth : (below ++ Bytes.ofInt p.size v).length - i.effect.1 + i.effect.2 =
      below.length + q.size := by
    rw [List.length_append, length]
    exact depthAfter_instruction resize below.length
  refine ⟨i, instruction, ?_, ?_, Primitive.value_ofInt_iff hq, ?_⟩
  · exact Instruction.yields_of_flows hop (fun h => absurd h integral) turns (by omega)
  · have nonneg : 0 ≤ v % 2 ^ (8 * q.size) := Int.emod_nonneg _ (by positivity)
    rw [Bytes.ofInt, Bytes.toNat_ofNat, Nat.one_shiftLeft]
    push_cast
    rw [Int.toNat_of_nonneg nonneg, Int.emod_emod]
  · intro implicit
    exact (Primitive.value_ofInt_iff hq).mpr (holds.implicit hp hq implicit)

theorem integer_cast_minus_two :
    Primitive.i8.Holds (-2) ∧ ∃ i, (ofPrimitives .i8 .u32).instruction? .i8 .u32 = some i ∧
      i.Yields 64 [] [7, 254] (.ok .next, .ofList [7, 254, 255, 255, 255]) ∧
      (Bytes.ofInt 4 (-2)).value false ≠ -2 := by
  have holds : Primitive.i8.Holds (-2) := (Primitive.holds_signed rfl _).mpr (by decide)
  have outside : ¬ Primitive.u32.Holds (-2) :=
    (Primitive.holds_unsigned rfl rfl _).not.mpr (by decide)
  obtain ⟨i, instruction, yields, -, exact_iff, -⟩ := integer_cast .i8 .u32 (by decide) (by decide)
    (by decide) (-2) holds 64 [] [7] (by decide)
  exact ⟨holds, i, instruction, yields, fun same => outside (exact_iff.mp same)⟩

end Conversion

end Bytescript
