import Mathlib
import Bytescript.Floating.Arithmetic

/-!
# Numbers stored in 16 bits

A 32-bit pattern that is stored in 16 bits and read again has lost the end of its fraction. Without
their signs, patterns have the order of the numbers that they represent, up to the pattern of
infinity. So storing is described as a function on patterns without a sign, `cut`, and what holds of
`cut` as a function of natural numbers is transferred to the numbers.
-/
namespace Bytescript.Floating

/-- The number that a value represents, zero for an invalid result. -/
noncomputable def Value.toEReal : Value → EReal
  | .nan .. => 0
  | .infinite negative => if negative then ⊥ else ⊤
  | .finite negative m e => ((if negative then -(m * 2 ^ e) else m * 2 ^ e : ℝ) : EReal)

namespace Single

def negative (x : UInt32) : Bool := x.toNat >>> 31 == 1

def exponent (x : UInt32) : Nat := x.toNat >>> 23 % 0x100

def fraction (x : UInt32) : Nat := x.toNat % 0x800000

/-- A pattern without its sign. -/
def rank (x : UInt32) : Nat := x.toNat % 0x80000000

def isNan (x : UInt32) : Bool := exponent x == 255 && fraction x != 0

noncomputable def number (x : UInt32) : EReal := (single.decode x.toNat).toEReal

theorem rank_eq (x : UInt32) :
    rank x = exponent x * 0x800000 + fraction x ∧ exponent x < 256 ∧ fraction x < 0x800000 := by
  have := x.toNat_lt
  simp only [rank, exponent, fraction, Nat.shiftRight_eq_div_pow]
  omega

theorem isNan_eq_false_iff {x : UInt32} : isNan x = false ↔ rank x ≤ 0x7F800000 := by
  obtain ⟨parts, he, hf⟩ := rank_eq x
  simp only [isNan, Bool.and_eq_false_iff, beq_eq_false_iff_ne, bne_eq_false_iff_eq]
  omega

theorem decode_toNat (x : UInt32) : single.decode x.toNat =
    if exponent x = 255 then
      if fraction x = 0 then .infinite (negative x)
      else .nan (negative x) (single.settle (fraction x <<< 29))
    else if exponent x = 0 then .finite (negative x) (fraction x) (-149)
    else .finite (negative x) (0x800000 + fraction x) (-149 + (exponent x - 1)) := by
  have := x.toNat_lt
  have sign : x.toNat / 2147483648 % 2 = x.toNat >>> 31 := by
    rw [Nat.shiftRight_eq_div_pow]
    omega
  unfold negative
  rw [← sign]
  rfl

/-- The number of a pattern without a sign, as a multiple of the smallest one. -/
def units (n : Nat) : Nat :=
  if n < 0x800000 then n else (0x800000 + n % 0x800000) * 2 ^ (n / 0x800000 - 1)

theorem units_strictMono : StrictMono units := by
  refine strictMono_nat_of_lt_succ fun n => ?_
  unfold units
  by_cases subnormal : n + 1 < 0x800000
  · rw [if_pos subnormal, if_pos (Nat.lt_of_succ_lt subnormal)]
    exact Nat.lt_succ_self n
  rw [if_neg subnormal]
  by_cases last : n < 0x800000
  · obtain rfl : n = 0x7FFFFF := by omega
    decide
  rw [if_neg last]
  by_cases carry : n % 0x800000 = 0x7FFFFF
  · obtain ⟨k, hk⟩ : ∃ k, n / 0x800000 = k + 1 := ⟨n / 0x800000 - 1, by omega⟩
    have next : (n + 1) / 0x800000 = k + 2 := by omega
    have zero : (n + 1) % 0x800000 = 0 := by omega
    rw [hk, next, zero, carry]
    simp only [Nat.add_sub_cancel, Nat.reduceSubDiff, pow_succ]
    have := Nat.two_pow_pos k
    omega
  · have same : (n + 1) / 0x800000 = n / 0x800000 := by omega
    have more : (n + 1) % 0x800000 = n % 0x800000 + 1 := by omega
    rw [same, more]
    exact Nat.mul_lt_mul_of_pos_right (by omega) (Nat.two_pow_pos _)

noncomputable def size (n : Nat) : EReal :=
  if n < 0x7F800000 then ((units n * 2 ^ (-149 : ℤ) : ℝ) : EReal) else ⊤

@[simp] theorem size_zero : size 0 = 0 := by simp [size, units]

theorem size_nonneg (n : Nat) : 0 ≤ size n := by
  unfold size
  split
  · exact_mod_cast (by positivity : (0 : ℝ) ≤ units n * 2 ^ (-149 : ℤ))
  · exact le_top

theorem size_strictMonoOn : StrictMonoOn size (Set.Iic 0x7F800000) := by
  intro m _ n hn less
  rw [Set.mem_Iic] at hn
  rw [size, if_pos (by omega), size]
  split
  · have : (units m : ℝ) < units n := by exact_mod_cast units_strictMono less
    exact_mod_cast mul_lt_mul_of_pos_right this (by positivity)
  · exact EReal.coe_lt_top _

/-- The position of a pattern in the order of the numbers, the same for the two zeros. -/
def signedRank (x : UInt32) : Int := if negative x then -rank x else rank x

noncomputable def level (k : Int) : EReal := if k < 0 then -size k.natAbs else size k.natAbs

theorem level_signedRank (x : UInt32) :
    level (signedRank x) = if negative x then -size (rank x) else size (rank x) := by
  unfold signedRank level
  cases negative x with
  | false => simp
  | true => rcases Nat.eq_zero_or_pos (rank x) with zero | positive <;> simp [*]

theorem level_strictMonoOn : StrictMonoOn level (Set.Icc (-0x7F800000) 0x7F800000) := by
  rintro k ⟨low, -⟩ l ⟨-, high⟩ less
  have grows {m n : Nat} (small : n ≤ 0x7F800000) (less : m < n) : size m < size n :=
    size_strictMonoOn (Set.mem_Iic.mpr (less.le.trans small)) (Set.mem_Iic.mpr small) less
  unfold level
  by_cases hl : l < 0
  · rw [if_pos (less.trans hl), if_pos hl, EReal.neg_lt_neg_iff]
    exact grows (by omega) (by omega)
  rw [if_neg hl]
  by_cases hk : k < 0
  · have positive : 0 < size k.natAbs := size_zero ▸ grows (by omega) (by omega)
    rw [if_pos hk]
    exact lt_of_lt_of_le (by simpa using EReal.neg_lt_neg_iff.mpr positive) (size_nonneg _)
  · rw [if_neg hk]
    exact grows (by omega) (by omega)

variable {x y : UInt32}

theorem number_eq_level (hx : isNan x = false) : number x = level (signedRank x) := by
  obtain ⟨parts, he, hf⟩ := rank_eq x
  rw [isNan_eq_false_iff] at hx
  have finite (m : Nat) (e : Int) (below : rank x < 0x7F800000)
      (same : (m * 2 ^ e : ℝ) = units (rank x) * 2 ^ (-149 : ℤ)) :
      (Value.finite (negative x) m e).toEReal = level (signedRank x) := by
    rw [level_signedRank, size, if_pos below, ← same]
    cases negative x <;> simp [Value.toEReal]
  rw [number, decode_toNat]
  split
  · have top : ¬ rank x < 0x7F800000 := by omega
    rw [if_pos (by omega), level_signedRank, size, if_neg top]
    cases negative x <;> rfl
  split
  · refine finite _ _ (by omega) ?_
    have whole : fraction x = rank x := by omega
    rw [units, if_pos (by omega), whole]
  · refine finite _ _ (by omega) ?_
    have low : rank x % 0x800000 = fraction x := by omega
    obtain ⟨k, hk⟩ : ∃ k, exponent x = k + 1 := ⟨exponent x - 1, by omega⟩
    have high : rank x / 0x800000 = k + 1 := by omega
    rw [units, if_neg (by omega), low, high, hk]
    push_cast
    rw [add_sub_cancel_right, add_comm (-149 : ℤ), zpow_add₀ two_ne_zero]
    simp [mul_assoc]

theorem signedRank_mem (hx : isNan x = false) :
    signedRank x ∈ Set.Icc (-0x7F800000) 0x7F800000 := by
  rw [isNan_eq_false_iff] at hx
  rw [Set.mem_Icc]
  unfold signedRank
  split <;> omega

/-- Patterns of numbers have the order of the numbers. -/
theorem number_le_iff (hx : isNan x = false) (hy : isNan y = false) :
    number x ≤ number y ↔ signedRank x ≤ signedRank y := by
  rw [number_eq_level hx, number_eq_level hy]
  exact level_strictMonoOn.le_iff_le (signedRank_mem hx) (signedRank_mem hy)

theorem abs_number (hx : isNan x = false) : ((number x).abs : EReal) = size (rank x) := by
  have abs_size (n : Nat) : ((size n).abs : EReal) = size n := by
    unfold size
    split
    · rw [EReal.coe_abs, abs_of_nonneg (by positivity)]
    · rfl
  rw [number_eq_level hx, level_signedRank]
  split
  · rw [EReal.abs_neg, abs_size]
  · exact abs_size _

theorem abs_number_le_iff (hx : isNan x = false) (hy : isNan y = false) :
    (number x).abs ≤ (number y).abs ↔ rank x ≤ rank y := by
  rw [← EReal.coe_ennreal_le_coe_ennreal_iff, abs_number hx, abs_number hy]
  rw [isNan_eq_false_iff] at hx hy
  exact size_strictMonoOn.le_iff_le (Set.mem_Iic.mpr hx) (Set.mem_Iic.mpr hy)

theorem abs_number_lt_iff (hx : isNan x = false) :
    (number x).abs < 65536 ↔ rank x < 0x47800000 := by
  have pattern : (number 0x47800000).abs = 65536 := by
    have exact : (units 0x47800000 * 2 ^ (-149 : ℤ) : ℝ) = 65536 := by norm_num [units]
    rw [← EReal.coe_ennreal_eq_coe_ennreal_iff, abs_number (by decide)]
    change size 0x47800000 = _
    rw [size, if_pos (by decide), exact]
    rfl
  rw [← pattern, ← not_le, abs_number_le_iff (by decide) hx, not_le]
  rfl

theorem toNat_and_mask (x : UInt32) {mask : UInt32} {k : Nat}
    (high : mask.toNat = (2 ^ (32 - k) - 1) <<< k) :
    (x &&& mask).toNat = x.toNat / 2 ^ k * 2 ^ k := by
  rw [UInt32.toNat_and, high, ← Nat.shiftRight_eq_div_pow, ← Nat.shiftLeft_eq]
  apply Nat.eq_of_testBit_eq
  intro i
  simp only [Nat.testBit_and, Nat.testBit_shiftLeft, Nat.testBit_two_pow_sub_one,
    Nat.testBit_shiftRight]
  by_cases kept : k ≤ i
  case neg => simp [kept]
  rw [Nat.add_sub_cancel' kept]
  by_cases inside : i < 32
  · simp [kept, show i - k < 32 - k by omega]
  · have beyond : x.toNat.testBit i = false :=
      Nat.testBit_lt_two_pow (x.toNat_lt.trans_le (Nat.pow_le_pow_right two_pos (by omega)))
    simp [beyond]

theorem toNat_and_sign (x : UInt32) :
    (x &&& 0x80000000 : UInt32).toNat = x.toNat / 0x80000000 * 0x80000000 :=
  toNat_and_mask (k := 31) x (by decide)

theorem toNat_sign_or (x : UInt32) {n : UInt32} (unsigned : n.toNat < 0x80000000) :
    (x &&& 0x80000000 ||| n : UInt32).toNat = x.toNat / 0x80000000 * 0x80000000 + n.toNat := by
  have disjoint := Nat.shiftLeft_add_eq_or_of_lt (i := 31) unsigned (x.toNat / 0x80000000)
  rw [Nat.shiftLeft_eq] at disjoint
  rw [UInt32.toNat_or, toNat_and_sign]
  exact disjoint.symm

end Single

namespace Half

open Single

/-- Storing a pattern without its sign. -/
def narrow (n : Nat) : Nat :=
  if 0x7F800000 < n then 0x7E00
  else if 0x47800000 ≤ n then 0x7C00
  else if 0x38800000 ≤ n then (n - 0x38000000) / 0x2000
  else 0

def widen (n : Nat) : Nat :=
  if n = 0 then 0
  else if n < 0x7C00 then n * 0x2000 + 0x38000000
  else 0x7F800000 + (n - 0x7C00) * 0x2000

/-- The result of storing and reading a pattern without its sign. -/
def cut (n : Nat) : Nat :=
  if 0x7F800000 < n then 0x7FC00000
  else if 0x47800000 ≤ n then 0x7F800000
  else if 0x38800000 ≤ n then n / 0x2000 * 0x2000
  else 0

theorem widen_narrow (n : Nat) : widen (narrow n) = cut n := by
  unfold narrow cut
  split_ifs <;> unfold widen <;> split_ifs <;> omega

theorem narrow_cut (n : Nat) : narrow (cut n) = narrow n := by
  unfold cut
  split_ifs <;> unfold narrow <;> split_ifs <;> omega

theorem cut_mono : Monotone cut := by
  intro m n le
  unfold cut
  split_ifs <;> omega

theorem cut_le {n : Nat} (below : n < 0x47800000) : cut n ≤ n := by
  unfold cut
  split_ifs <;> omega

theorem cut_eq_infinity {n : Nat} (above : 0x47800000 ≤ n) (number : n ≤ 0x7F800000) :
    cut n = 0x7F800000 := by
  rw [cut, if_neg number.not_gt, if_pos above]

theorem cut_lt (n : Nat) : cut n < 0x80000000 := by
  unfold cut
  split_ifs <;> omega

/-- Storing leaves no number between zero and the smallest normal number. -/
theorem narrow_normal (n : Nat) : (narrow n = 0 ∨ 0x400 ≤ narrow n) ∧ narrow n < 0x8000 := by
  unfold narrow
  split_ifs <;> omega

theorem ofSingle_eq (x : UInt32) :
    ofSingle x = (x.toNat >>> 31 <<< 15 + narrow (rank x)).toUInt16 := by
  obtain ⟨parts, he, hf⟩ := rank_eq x
  unfold ofSingle
  change (x.toNat >>> 31 <<< 15 +
    if exponent x = 255 then if fraction x = 0 then 0x7C00 else 0x7E00
    else if exponent x ≤ 112 then 0
    else if 143 ≤ exponent x then 0x7C00
    else (exponent x - 112) <<< 10 + fraction x >>> 13).toUInt16 = _
  simp only [narrow, Nat.shiftRight_eq_div_pow, Nat.shiftLeft_eq]
  congr 2
  split_ifs <;> omega

theorem toNat_ofSingle (x : UInt32) :
    (ofSingle x).toNat = x.toNat / 0x80000000 * 0x8000 + narrow (rank x) := by
  have small := x.toNat_lt
  have bound := (narrow_normal (rank x)).2
  rw [ofSingle_eq, Nat.toUInt16_eq, UInt16.toNat_ofNat', Nat.shiftRight_eq_div_pow,
    Nat.shiftLeft_eq]
  omega

/-- Reading a zero, a normal number, an infinity or an invalid result. -/
theorem toNat_toSingle {h : UInt16}
    (normal : h.toNat % 0x8000 = 0 ∨ 0x400 ≤ h.toNat % 0x8000) :
    (toSingle h).toNat = h.toNat / 0x8000 * 0x80000000 + widen (h.toNat % 0x8000) := by
  have small := h.toNat_lt
  simp only [toSingle, widen, Nat.shiftRight_eq_div_pow, Nat.shiftLeft_eq, Nat.toUInt32_eq,
    UInt32.toNat_ofNat']
  split_ifs <;> omega

/-- A 32-bit pattern after it was stored in 16 bits and read again. -/
def stored (x : UInt32) : UInt32 := toSingle (ofSingle x)

theorem toNat_stored (x : UInt32) :
    (stored x).toNat = x.toNat / 0x80000000 * 0x80000000 + cut (rank x) := by
  obtain ⟨normal, bound⟩ := narrow_normal (rank x)
  have half := toNat_ofSingle x
  have low : (ofSingle x).toNat % 0x8000 = narrow (rank x) := by omega
  have high : (ofSingle x).toNat / 0x8000 = x.toNat / 0x80000000 := by omega
  rw [stored, toNat_toSingle (by rwa [low]), low, high, widen_narrow]

theorem rank_stored (x : UInt32) : rank (stored x) = cut (rank x) := by
  have bound := cut_lt (rank x)
  rw [rank, toNat_stored]
  omega

theorem sign_stored (x : UInt32) : (stored x).toNat / 0x80000000 = x.toNat / 0x80000000 := by
  have bound := cut_lt (rank x)
  rw [toNat_stored]
  omega

theorem negative_stored (x : UInt32) : negative (stored x) = negative x := by
  simp only [negative, Nat.shiftRight_eq_div_pow]
  exact congrArg (· == 1) (sign_stored x)

theorem isNan_stored {x : UInt32} (hx : isNan x = false) : isNan (stored x) = false := by
  rw [isNan_eq_false_iff] at hx ⊢
  rw [rank_stored, cut]
  split_ifs <;> omega

theorem stored_eq (x : UInt32) : stored x =
    if isNan x then x &&& 0x80000000 ||| 0x7FC00000
    else if 143 ≤ exponent x then x &&& 0x80000000 ||| 0x7F800000
    else if 113 ≤ exponent x then x &&& 0xFFFFE000
    else x &&& 0x80000000 := by
  obtain ⟨parts, he, hf⟩ := rank_eq x
  have nan : isNan x = true ↔ 0x7F800000 < rank x := by
    rw [← not_le, ← isNan_eq_false_iff, Bool.not_eq_false]
  rw [← UInt32.toNat_inj, toNat_stored, cut]
  by_cases invalid : 0x7F800000 < rank x
  · rw [if_pos invalid, if_pos (nan.mpr invalid), toNat_sign_or x (by decide)]
    rfl
  rw [if_neg invalid, if_neg (mt nan.mp invalid)]
  by_cases large : 143 ≤ exponent x
  · rw [if_pos (by omega), if_pos large, toNat_sign_or x (by decide)]
    rfl
  rw [if_neg (by omega), if_neg large]
  by_cases normal : 113 ≤ exponent x
  · rw [if_pos (by omega), if_pos normal, toNat_and_mask (k := 13) x (by decide)]
    rw [rank]
    omega
  · rw [if_neg (by omega), if_neg normal, toNat_and_sign, Nat.add_zero]

theorem ofSingle_stored (x : UInt32) : ofSingle (stored x) = ofSingle x := by
  rw [← UInt16.toNat_inj, toNat_ofSingle, toNat_ofSingle, rank_stored, narrow_cut, sign_stored]

theorem signedRank_stored_mono {x y : UInt32} (le : signedRank x ≤ signedRank y) :
    signedRank (stored x) ≤ signedRank (stored y) := by
  simp only [signedRank, negative_stored, rank_stored] at le ⊢
  cases hx : negative x <;> cases hy : negative y <;>
    simp only [hx, hy, if_true, if_false, Bool.false_eq_true] at le ⊢
  · exact_mod_cast cut_mono (by omega : rank x ≤ rank y)
  · -- a positive number below a negative one: both are zero
    rw [show rank x = 0 by omega, show rank y = 0 by omega]
    decide
  · omega
  · have := cut_mono (by omega : rank y ≤ rank x)
    omega

/-- A 32-bit pattern that is stored in 16 bits and read again is truncated after the tenth bit of
its fraction. Numbers below the normal range of 16 bits become zero and those above it infinite,
with the same sign, and the invalid results of one sign become equal. Storing the result gives the
same 16 bits. The order of numbers is preserved, and no number becomes larger in magnitude except
those from 65536 on, which become infinite. -/
theorem stored_truncates (x : UInt32) :
    stored x =
      (if isNan x then x &&& 0x80000000 ||| 0x7FC00000
      else if 143 ≤ exponent x then x &&& 0x80000000 ||| 0x7F800000
      else if 113 ≤ exponent x then x &&& 0xFFFFE000
      else x &&& 0x80000000) ∧
    ofSingle (stored x) = ofSingle x ∧
    (isNan x = false →
      (∀ y, isNan y = false → number x ≤ number y → number (stored x) ≤ number (stored y)) ∧
      ((number x).abs < 65536 → (number (stored x)).abs ≤ (number x).abs) ∧
      (65536 ≤ (number x).abs → number (stored x) = if negative x then ⊥ else ⊤)) := by
  refine ⟨stored_eq x, ofSingle_stored x, fun hx => ⟨fun y hy le => ?_, fun below => ?_, ?_⟩⟩
  · rw [number_le_iff hx hy] at le
    rw [number_le_iff (isNan_stored hx) (isNan_stored hy)]
    exact signedRank_stored_mono le
  · rw [abs_number_lt_iff hx] at below
    rw [abs_number_le_iff (isNan_stored hx) hx, rank_stored]
    exact cut_le below
  · intro above
    rw [← not_lt, abs_number_lt_iff hx, not_lt] at above
    have top : size (cut (rank x)) = ⊤ := by
      rw [cut_eq_infinity above (isNan_eq_false_iff.mp hx)]
      exact if_neg (lt_irrefl _)
    rw [number_eq_level (isNan_stored hx), level_signedRank, rank_stored, negative_stored, top,
      EReal.neg_top]

theorem stored_below_limit :
    isNan 0xC77FFFFF = false ∧ stored 0xC77FFFFF = 0xC77FE000 ∧
      number (stored 0xC7800000) ≤ number (stored 0xC77FFFFF) ∧
      (number (stored 0xC77FFFFF)).abs ≤ (number 0xC77FFFFF).abs ∧
      number (stored 0xC7800000) = ⊥ := by
  obtain ⟨cut, -, kept⟩ := stored_truncates 0xC77FFFFF
  obtain ⟨-, -, beyond⟩ := stored_truncates 0xC7800000
  obtain ⟨-, smaller, -⟩ := kept (by decide)
  obtain ⟨order, -, infinite⟩ := beyond (by decide)
  refine ⟨by decide, cut.trans (by decide), order _ (by decide) ?_, smaller ?_, infinite ?_⟩
  · exact (number_le_iff (by decide) (by decide)).mpr (by decide)
  · exact (abs_number_lt_iff (by decide)).mpr (by decide)
  · exact not_lt.mp (mt (abs_number_lt_iff (by decide)).mp (by decide))

end Half

end Bytescript.Floating
