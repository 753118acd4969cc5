import Mathlib
import Bytescript.Proofs.Numerals
import Bytescript.Proofs.Variables

/-!
# Values of integer literals at other types

An integer literal converts without a cast to a type that is as wide as its own and signed if its
own is. Its bits there are those of its value. Read at that type they give the value again, unless
the value is not negative, the type is signed, and the highest bit is one.
-/
namespace Bytescript

open Evaluation

theorem Bytes.ofWord_ofInt (w : Nat) (v : Int) :
    ofWord (BitVec.ofInt (8 * w) v) = ofInt w v := by
  simp [ofWord, ofInt, Nat.one_shiftLeft]

namespace Primitive

variable {p q : Primitive} {v : Int}

theorem bits_pos (p : Primitive) : 0 < p.bits := by
  cases p <;> decide

theorem pow_bits (p : Primitive) : (2 : Int) ^ p.bits = 2 * 2 ^ (p.bits - 1) := by
  rw [← pow_succ', Nat.sub_add_cancel p.bits_pos]

theorem word_ofInt (p : Primitive) (v : Int) :
    word p (Bytes.ofInt p.size v) = BitVec.ofInt (8 * p.size) v := by
  rw [word, ← Bytes.ofWord_ofInt, Bytes.toWord_ofWord]

theorem toInt_ofInt (h : p.isSigned) (holds : p.Holds v) :
    (BitVec.ofInt p.bits v).toInt = v := by
  have hp := p.pow_bits
  obtain ⟨lower, upper⟩ := (holds_signed h v).mp holds
  rw [BitVec.toInt_ofInt]
  exact Int.bmod_eq_of_le_mul_two (by push_cast; omega) (by push_cast; omega)

theorem toNat_ofInt (hi : p.isInteger) (h : p.isSigned = false) (holds : p.Holds v) :
    ((BitVec.ofInt p.bits v).toNat : Int) = v := by
  obtain ⟨lower, upper⟩ := (holds_unsigned hi h v).mp holds
  rw [BitVec.toNat_ofInt]
  push_cast
  rw [Int.toNat_of_nonneg (Int.emod_nonneg _ (by positivity)), Int.emod_eq_of_lt lower upper]

theorem number_ofInt (hi : p.isInteger) (holds : p.Holds v) :
    number p (Bytes.ofInt p.size v) = v := by
  rw [number, word_ofInt]
  split
  · next h => exact toInt_ofInt h holds
  · next h => exact toNat_ofInt hi (by simpa using h) holds

/-- An integer type is at least as wide as another, and signed if the other is. -/
structure Widens (p q : Primitive) : Prop where
  integer : p.isInteger
  target : q.isInteger
  size : p.size ≤ q.size
  signed : p.isSigned → q.isSigned

/-- A value stays in range at a wider type, except that a value of an unsigned type may be too large
for a signed type by one bit. -/
theorem Holds.widened (holds : p.Holds v) (h : p.Widens q) :
    q.Holds v ∨ q.isSigned ∧ 2 ^ (q.bits - 1) ≤ v ∧ v < 2 ^ q.bits := by
  have bits : p.bits ≤ q.bits := Nat.mul_le_mul_left 8 h.size
  have half : (2 : Int) ^ (p.bits - 1) ≤ 2 ^ (q.bits - 1) :=
    pow_le_pow_right₀ (by decide) (Nat.sub_le_sub_right bits 1)
  have whole : (2 : Int) ^ p.bits ≤ 2 ^ q.bits := pow_le_pow_right₀ (by decide) bits
  by_cases hp : p.isSigned
  · rw [holds_signed hp] at holds
    rw [holds_signed (h.signed hp)]
    exact Or.inl ⟨by linarith, by linarith⟩
  · rw [holds_unsigned h.integer (by simpa using hp)] at holds
    by_cases hq : q.isSigned
    · by_cases hv : v < 2 ^ (q.bits - 1)
      · rw [holds_signed hq]
        have : (0 : Int) < 2 ^ (q.bits - 1) := by positivity
        exact Or.inl ⟨by linarith, hv⟩
      · exact Or.inr ⟨hq, by linarith, by linarith⟩
    · rw [holds_unsigned h.target (by simpa using hq)]
      exact Or.inl ⟨holds.1, by linarith⟩

/-- The bits of a value represent it at a wider type, except that a value of an unsigned type that
is too large for a signed type is read as a negative number. -/
theorem number_widened (holds : p.Holds v) (h : p.Widens q) :
    q.Holds v ∧ number q (Bytes.ofInt q.size v) = v ∨
      q.isSigned ∧ 2 ^ (q.bits - 1) ≤ v ∧ v < 2 ^ q.bits ∧
        number q (Bytes.ofInt q.size v) = v - 2 ^ q.bits := by
  rcases holds.widened h with holds | ⟨signed, lower, upper⟩
  · exact Or.inl ⟨holds, number_ofInt h.target holds⟩
  · -- A multiple of the modulus makes no difference to the bits.
    have same : Bytes.ofInt q.size v = Bytes.ofInt q.size (v - 2 ^ q.bits) := by
      simp [Bytes.ofInt, Nat.one_shiftLeft, bits]
    have below : q.Holds (v - 2 ^ q.bits) := by
      rw [holds_signed signed]
      have := q.pow_bits
      constructor <;> linarith
    rw [same, number_ofInt h.target below]
    exact Or.inr ⟨signed, lower, upper, rfl⟩

theorem convert_widenInteger (hi : p.isInteger) (holds : p.Holds v) (q : Primitive) :
    convert .widenInteger p q (Bytes.ofInt p.size v) = Bytes.ofInt q.size v := by
  rw [← Bytes.ofWord_ofInt q.size, convert, word_ofInt]
  congr 1
  split
  · next h =>
    have value : (BitVec.ofInt (8 * p.size) v).toInt = v := toInt_ofInt h holds
    rw [BitVec.signExtend, value]
  · next h =>
    have value : ((BitVec.ofInt (8 * p.size) v).toNat : Int) = v :=
      toNat_ofInt hi (by simpa using h) holds
    rw [← BitVec.ofNat_toNat, ← BitVec.ofInt_natCast, value]

end Primitive

theorem Conversion.ofPrimitives_implicit {p q : Primitive} (hp : p.isInteger) (hq : q.isInteger)
    (h : (ofPrimitives p q).isImplicit) :
    p.Widens q ∧ (ofPrimitives p q = .unneeded ∧ p = q ∨ ofPrimitives p q = .widenInteger) := by
  by_cases hpq : p = q
  · subst hpq
    exact ⟨⟨hp, hp, Nat.le_refl _, id⟩, Or.inl ⟨by simp [ofPrimitives], rfl⟩⟩
  · simp only [ofPrimitives, hpq, if_false] at h ⊢
    rcases Primitive.family_of_isInteger hp with fp | fp <;>
      rcases Primitive.family_of_isInteger hq with fq | fq <;>
      simp only [fp, fq] at h ⊢
    · split_ifs at h ⊢ with hs
      · exact ⟨⟨hp, hq, hs.le, fun _ => by simp [Primitive.isSigned, fq]⟩, Or.inr rfl⟩
      · exact absurd h (by decide)
    · exact absurd h (by decide)
    · exact absurd h (by decide)
    · split_ifs at h ⊢ with hs
      · exact ⟨⟨hp, hq, hs.le, fun hs => by simp [Primitive.isSigned, fp] at hs⟩, Or.inr rfl⟩
      · exact absurd h (by decide)

namespace Environment.Sound

variable {env : Environment}

theorem same_primitive (sound : env.Sound) (p q : Primitive) :
    (env.core.primitive p).same (env.core.primitive q) = decide (p = q) := by
  rw [sound.primitive, sound.primitive]
  cases p <;> cases q <;> rfl

theorem primitive?_primitive (sound : env.Sound) (p : Primitive) :
    (env.core.primitive p).primitive? = some p := by
  rw [sound.primitive]
  rfl

theorem size_primitive (sound : env.Sound) (p : Primitive) :
    (env.core.primitive p).size = p.size :=
  Ty.size_of_primitive (sound.primitive?_primitive p)

theorem between_primitive (sound : env.Sound) (p q : Primitive) :
    Conversion.between (env.core.primitive p) (env.core.primitive q) =
      Conversion.ofPrimitives p q := by
  simp only [Conversion.between, sound.same_primitive, sound.primitive?_primitive]
  by_cases h : p = q <;> simp [h, Conversion.ofPrimitives]

end Environment.Sound

def Numeral.operand (core : CoreTypes) (n : Numeral) : Operand :=
  ⟨core.primitive n.type.primary, n.type.secondary.map core.primitive⟩

/-- A literal converts without a cast only to a type that is wide enough for its bits. -/
theorem Numeral.conversionTo_implicit {env : Environment} (sound : env.Sound) {n : Numeral}
    (valid : n.Valid) {q : Primitive} (hq : q.isInteger)
    (h : ((n.operand env.core).conversionTo (env.core.primitive q)).isImplicit) :
    n.type.primary.Widens q ∧
      ((n.operand env.core).conversionTo (env.core.primitive q) = .unneeded ∧ n.type.primary = q ∨
        (n.operand env.core).conversionTo (env.core.primitive q) = .widenInteger) := by
  have hp := Typing.isInteger_primary n
  rcases (n.operand env.core).conversionTo_cases (env.core.primitive q) with
    hd | ⟨t, r, ht, hr, signed, hv⟩
  · rw [hd] at h ⊢
    simp only [operand, sound.between_primitive] at h ⊢
    exact Conversion.ofPrimitives_implicit hp hq h
  · rw [sound.primitive?_primitive] at hr
    cases hr
    -- Only a literal that is not negative has a second type, which is no narrower than the first.
    have nonnegative : n.negative = false := by
      by_contra hn
      have none := (type_of_negative valid (by simpa using hn)).2.2.2
      simp [operand, none] at ht
    obtain ⟨-, unsigned, -, s, hs, signedSecond, narrow⟩ := type_of_nonnegative valid nonnegative
    obtain rfl : env.core.primitive s = t := by simpa [operand, hs] using ht
    have hne : n.type.primary ≠ q := by
      rintro rfl
      cases unsigned.symm.trans signed
    have widens : n.type.primary.size ≤ q.size → n.type.primary.Widens q :=
      fun size => ⟨hp, hq, size, fun _ => signed⟩
    rw [hv] at h ⊢
    simp only [Operand.conversionVia, operand, sound.size_primitive, sound.same_primitive, hne,
      decide_false, and_true] at h ⊢
    by_cases hsize : s.size ≤ q.size
    · refine ⟨widens (by omega), Or.inr ?_⟩
      simp only [hsize, if_true, sound.between_primitive] at h ⊢
      split_ifs at h ⊢ with hu
      · rfl
      · have integer : s.isInteger := Bool.or_eq_true_iff.mpr (Or.inl signedSecond)
        rcases (Conversion.ofPrimitives_implicit integer hq h).2 with ⟨hu', -⟩ | hw
        · exact absurd hu' hu
        · exact hw
    · simp only [hsize, if_false] at h ⊢
      by_cases hp : n.type.primary.size ≤ q.size
      · exact ⟨widens hp, Or.inr (by simp [hp])⟩
      · simp [hp, Conversion.isImplicit, Conversion.cost] at h

theorem Operand.conversionTo_self (x : Operand) (same : x.ty.same x.ty) :
    x.conversionTo x.ty = .unneeded := by
  have direct : Conversion.between x.ty x.ty = .unneeded := by simp [Conversion.between, same]
  unfold conversionTo
  rw [direct]
  dsimp only
  split
  · split
    · exact if_pos (Nat.zero_le _)
    · rfl
  · rfl

theorem Conversion.isImplicit_of_dearer {c d : Conversion} (h : (c.dearer d).isImplicit) :
    c.isImplicit ∧ d.isImplicit := by
  unfold dearer at h
  simp only [isImplicit, decide_eq_true_eq] at h ⊢
  split at h <;> omega

/-- Operands with a common type have the type of one of them in common, and convert to it without a
cast. -/
theorem Operand.unify_implicit {l r : Operand} {u : Unified} (hl : l.ty.same l.ty)
    (hr : r.ty.same r.ty) (h : l.unify r = .ok u) :
    (u.result = l.ty ∨ u.result = r.ty) ∧
      (u.left = l.conversionTo u.result ∧ u.left.isImplicit) ∧
      u.right = r.conversionTo u.result ∧ u.right.isImplicit := by
  unfold unify at h
  dsimp only at h
  split at h
  · cases h
  · split at h <;> split at h
    · next hi =>
      cases h
      exact ⟨Or.inl rfl, ⟨(l.conversionTo_self hl).symm, rfl⟩, rfl,
        (Conversion.isImplicit_of_dearer hi).2⟩
    · cases h
    · next hi =>
      cases h
      exact ⟨Or.inr rfl, ⟨rfl, (Conversion.isImplicit_of_dearer hi).1⟩,
        (r.conversionTo_self hr).symm, rfl⟩
    · cases h

namespace Typing

def numeralNote (core : CoreTypes) (n : Numeral) (coercion : Option Coercion) : Note where
  ty := core.primitive n.type.primary
  secondary := n.type.secondary.map core.primitive
  constant := some (.primitive n.type.primary (n.word n.type.primary))
  coercion

theorem literalNote_integer {core : CoreTypes} {text : String} {negative : Bool} {note : Note}
    (h : literalNote core (.integer text negative) = .ok note) :
    ∃ n : Numeral, n.value = Numeral.meaning text negative ∧ n.Valid ∧
      note = numeralNote core n none := by
  simp only [literalNote] at h
  split at h
  · cases h
  · next n hn =>
    cases h
    obtain ⟨value, valid⟩ := Numeral.parse_ok hn
    refine ⟨n, value, valid, ?_⟩
    simp [numeralNote, Constant.ofNumeral_eq, isInteger_primary n]

theorem coercionTo_asked {note : Note} {target : Ty} {c : Option Coercion}
    (h : coercionTo note target = .ok c) :
    c = asked target (note.operand.conversionTo target) ∧
      (note.operand.conversionTo target).isImplicit := by
  unfold coercionTo at h
  unfold asked
  dsimp only at h
  split at h
  · next hu =>
    cases h
    rw [if_pos hu, hu]
    exact ⟨rfl, rfl⟩
  · next hu =>
    split at h
    · next hi =>
      cases h
      rw [if_neg hu]
      exact ⟨rfl, hi⟩
    · split at h <;> cases h

end Typing

open Typing

theorem Typing.finalType_numeral {env : Environment} (sound : env.Sound) {n : Numeral}
    (valid : n.Valid) {q : Primitive} (hq : q.isInteger)
    (implicit : ((n.operand env.core).conversionTo (env.core.primitive q)).isImplicit) :
    (numeralNote env.core n (asked (env.core.primitive q)
      ((n.operand env.core).conversionTo (env.core.primitive q)))).finalType.primitive? =
        some q := by
  rcases (n.conversionTo_implicit sound valid hq implicit).2 with ⟨hu, rfl⟩ | hw
  · rw [hu]
    exact sound.primitive?_primitive _
  · rw [hw]
    exact sound.primitive?_primitive q

/-- A literal that is converted to a type has the bits of its value there. -/
theorem Evaluation.expression_integer {env : Environment} (sound : env.Sound) {n : Numeral}
    (valid : n.Valid) {q : Primitive} (hq : q.isInteger)
    (implicit : ((n.operand env.core).conversionTo (env.core.primitive q)).isImplicit)
    {known : Annotations} {mark : Mark}
    (filed : known.notes.find? mark.id = some (numeralNote env.core n
      (asked (env.core.primitive q)
        ((n.operand env.core).conversionTo (env.core.primitive q)))))
    (store : Store) (value : Literal) :
    expression known store (.literal mark value) = .ok (Bytes.ofInt q.size n.value) := by
  have integer := isInteger_primary n
  have stored : Bytes.ofWord (n.word n.type.primary) = Bytes.ofInt n.type.primary.size n.value :=
    Bytes.ofWord_ofInt ..
  simp only [expression, filed, numeralNote, Evaluation.constant, require_some, ok_bind, stored]
  rcases (n.conversionTo_implicit sound valid hq implicit).2 with ⟨hu, rfl⟩ | hw
  · simp only [hu, asked, if_true, coerced]
  · have needed : Conversion.widenInteger ≠ .unneeded := by decide
    simp only [hw, asked, needed, if_false, coerced, sound.primitive?_primitive, require_some,
      ok_bind]
    rw [Primitive.convert_widenInteger integer valid.holds]
    rfl

end Bytescript
