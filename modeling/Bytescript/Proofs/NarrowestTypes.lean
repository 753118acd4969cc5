import Mathlib
import Bytescript.Proofs.IntegerCasts
import Bytescript.Proofs.SharedConstants

/-!
# The types of integer literals

A literal gets the narrowest type that holds it, signed if it is negative and unsigned if not, and
in the second case also the narrowest signed type that does. At every integer type its bytes
represent its value exactly if the value is in the range of the type.
-/
namespace Bytescript.Numeral

open Primitive

theorem value_toBytes_iff {p : Primitive} (n : Numeral) (hp : p.isInteger) :
    (n.toBytes p).value p.isSigned = n.value ↔ p.Holds n.value := by
  rw [toBytes_eq_ofWord, word, Bytes.ofWord_ofInt]
  exact value_ofInt_iff hp

/-- A literal that is read has the narrowest signed type if it is negative, and no other; else it
has the narrowest unsigned type, and the narrowest signed type as its second. Its bytes at an
integer type, and those of its constant there, represent its value exactly if the type holds it, as
its own types do. -/
theorem type_narrowest {text : String} {negative : Bool} {n : Numeral}
    (h : parse text negative = .ok n) :
    (n.value < 0 → Narrowest .signed n.value n.type.primary ∧ n.type.secondary = none) ∧
    (0 ≤ n.value → Narrowest .unsigned n.value n.type.primary ∧
      ∃ s, n.type.secondary = some s ∧ Narrowest .signed n.value s) ∧
    (n.toBytes n.type.primary).value n.type.primary.isSigned = n.value ∧
    ∀ p : Primitive, p.isInteger → ∃ c, Constant.ofNumeral p n = some c ∧ c.variant = some p ∧
      c.toBytes = n.toBytes p ∧
      (c.toBytes.value p.isSigned = n.value ↔ p.Holds n.value) := by
  have valid := (parse_ok h).2
  refine ⟨fun below => ?_, fun above => ?_, ?_, fun p hp => ?_⟩
  · exact valid.type_negative (valid.value_neg_iff.mp below)
  · refine valid.type_nonnegative (Bool.eq_false_iff.mpr fun negative => ?_)
    exact above.not_gt (valid.value_neg_iff.mpr negative)
  · exact (value_toBytes_iff n (Typing.isInteger_primary n)).mpr valid.holds
  · have bytes : (Constant.primitive p (n.word p)).toBytes = n.toBytes p :=
      (toBytes_eq_ofWord n p).symm
    refine ⟨.primitive p (n.word p), ?_, rfl, bytes, ?_⟩
    · rw [Constant.ofNumeral_eq, if_pos hp]
    · rw [bytes]
      exact value_toBytes_iff n hp

theorem lowest_narrowest :
    (∃ n, parse "0x80000000_00000000_00000000_00000000" true = .ok n ∧ n.value < 0 ∧
      Narrowest .signed n.value n.type.primary) ∧
    ∃ n c, parse "200" false = .ok n ∧ n.type = ⟨.u8, some .i16⟩ ∧
      Constant.ofNumeral .i8 n = some c ∧ c.toBytes.value true ≠ n.value := by
  have lowest : parse "0x80000000_00000000_00000000_00000000" true = .ok ⟨2 ^ 127, true⟩ := by
    decide
  have small : parse "200" false = .ok ⟨200, false⟩ := by decide
  obtain ⟨below, -⟩ := type_narrowest lowest
  obtain ⟨-, -, -, bytes⟩ := type_narrowest small
  obtain ⟨c, made, -, -, reads_iff⟩ := bytes .i8 (by decide)
  refine ⟨⟨_, lowest, by decide, (below (by decide)).1⟩, _, c, small, by decide, made, ?_⟩
  intro same
  have held := (holds_signed (by decide) _).mp (reads_iff.mp same)
  exact absurd held.2 (by decide)

end Bytescript.Numeral
