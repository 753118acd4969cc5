import Mathlib
import Bytescript.Proofs.Registers

/-!
# Words in registers

A word of its own width is kept in the low bits of a register, with zeros or its sign above. The low
bits of an operator's result on registers are its result on words, and no part of the computation is
out of range. The bounds to which a float is clamped are computed in range for every width but zero.
-/
namespace Bytescript.Registers

variable {α : Type} {mode : Arithmetic}

theorem settle_of {c : Prop} [Decidable c] (h : c) (d : Defect) (result rest : α) :
    settle mode c d result rest = pure result :=
  if_pos h

theorem ensure_of {c : Prop} [Decidable c] (h : c) (d : Defect) : ensure c d = pure () := if_pos h

theorem mul_eight {w : Nat} (h : w < 65536) : mul mode 32 8 w = pure (8 * w) :=
  settle_of (by omega) _ _ _

/-- An integer of its own width, extended to a register. -/
def widen (signed : Bool) {n : Nat} (x : BitVec n) : BitVec 128 :=
  if signed then x.signExtend 128 else x.setWidth 128

section Words

variable {n m : Nat}

theorem setWidth_eq_ofInt (hm : m ≤ 128) (x : BitVec 128) :
    x.setWidth m = BitVec.ofInt m x.toInt :=
  (BitVec.signExtend_eq_setWidth_of_le x hm).symm

theorem ofInt_bmod (hm : m ≤ 128) (k : Int) :
    BitVec.ofInt m (k.bmod (2 ^ 128)) = BitVec.ofInt m k := by
  rw [← BitVec.toInt_inj, BitVec.toInt_ofInt, BitVec.toInt_ofInt]
  exact Int.bmod_bmod_of_dvd (by exact_mod_cast Nat.pow_dvd_pow 2 hm)

variable (hn : n ≤ 128)
include hn

theorem toInt_widen (x : BitVec n) : (widen true x).toInt = x.toInt :=
  BitVec.toInt_signExtend_of_le hn

theorem toNat_widen (x : BitVec n) : (widen false x).toNat = x.toNat := by
  have small := x.isLt
  have larger : 2 ^ n ≤ 2 ^ 128 := Nat.pow_le_pow_right (by decide) hn
  change (x.setWidth 128).toNat = _
  rw [BitVec.toNat_setWidth, Nat.mod_eq_of_lt (by omega)]

theorem setWidth_widen_true (hm : m ≤ 128) (x : BitVec n) :
    (widen true x).setWidth m = x.signExtend m := by
  rw [setWidth_eq_ofInt hm, toInt_widen hn]
  rfl

theorem setWidth_widen (signed : Bool) (x : BitVec n) : (widen signed x).setWidth n = x := by
  cases signed with
  | true => rw [setWidth_widen_true hn hn, BitVec.signExtend_eq]
  | false =>
    change (x.setWidth 128).setWidth n = x
    rw [BitVec.setWidth_setWidth_of_le _ hn, BitVec.setWidth_eq]

theorem widen_eq_zero_iff (signed : Bool) {x : BitVec n} : widen signed x = 0 ↔ x = 0 := by
  constructor
  · intro zero
    rw [← setWidth_widen hn signed x, zero]
    exact BitVec.setWidth_zero n 128
  · rintro rfl
    cases signed with
    | true =>
      rw [← BitVec.toInt_inj, toInt_widen hn]
      simp
    | false =>
      rw [← BitVec.toNat_inj, toNat_widen hn]
      simp

/-- Shifting a number to the top of a register and back repeats its sign. -/
theorem sshiftRight_shiftLeft (x : BitVec n) (positive : 0 < n) :
    ((x.setWidth 128) <<< (128 - n)).sshiftRight (128 - n) = widen true x := by
  have moved : ∀ j, j < n →
      ((x.setWidth 128) <<< (128 - n)).getLsbD (128 - n + j) = x.getLsbD j := by
    intro j hj
    rw [BitVec.getLsbD_shiftLeft, BitVec.getLsbD_setWidth]
    simp [show 128 - n + j < 128 by omega, show j < 128 by omega]
  have top : ((x.setWidth 128) <<< (128 - n)).msb = x.msb := by
    rw [BitVec.msb_eq_getLsbD_last, BitVec.msb_eq_getLsbD_last, ← moved (n - 1) (by omega)]
    congr 1
    omega
  apply BitVec.eq_of_getLsbD_eq
  intro i hi
  change _ = (x.signExtend 128).getLsbD i
  rw [BitVec.getLsbD_sshiftRight, BitVec.getLsbD_signExtend, top]
  by_cases low : i < n
  · rw [moved i low]
    simp [hi, low, show 128 - n + i < 128 by omega]
  · simp [hi, low, show ¬128 - n + i < 128 by omega]

theorem setWidth_sub_widen (signed : Bool) (x y : BitVec n) :
    (widen signed x - widen signed y).setWidth n = x - y := by
  rw [BitVec.sub_eq_add_neg, BitVec.setWidth_add _ _ hn, BitVec.setWidth_neg_of_le hn,
    setWidth_widen hn, setWidth_widen hn, BitVec.sub_eq_add_neg]

theorem setWidth_div_widen (signed : Bool) (x y : BitVec n) :
    (if signed then (widen signed x).sdiv (widen signed y)
      else (widen signed x).udiv (widen signed y)).setWidth n =
      if signed then x.sdiv y else x.udiv y := by
  cases signed with
  | true =>
    change ((widen true x).sdiv (widen true y)).setWidth n = x.sdiv y
    rw [setWidth_eq_ofInt hn, BitVec.toInt_sdiv, toInt_widen hn, toInt_widen hn, ofInt_bmod hn,
      ← BitVec.toInt_inj, BitVec.toInt_ofInt, BitVec.toInt_sdiv]
  | false =>
    change ((widen false x).udiv (widen false y)).setWidth n = x.udiv y
    rw [← BitVec.toNat_inj, BitVec.toNat_setWidth, BitVec.udiv_eq, BitVec.udiv_eq,
      BitVec.toNat_udiv, BitVec.toNat_udiv, toNat_widen hn, toNat_widen hn]
    exact Nat.mod_eq_of_lt (Nat.lt_of_le_of_lt (Nat.div_le_self _ _) x.isLt)

theorem setWidth_mod_widen (signed : Bool) (x y : BitVec n) :
    (if signed then (widen signed x).srem (widen signed y)
      else (widen signed x).umod (widen signed y)).setWidth n =
      if signed then x.srem y else x.umod y := by
  cases signed with
  | true =>
    change ((widen true x).srem (widen true y)).setWidth n = x.srem y
    rw [setWidth_eq_ofInt hn, BitVec.toInt_srem, toInt_widen hn, toInt_widen hn,
      ← BitVec.toInt_srem, BitVec.ofInt_toInt]
  | false =>
    change ((widen false x).umod (widen false y)).setWidth n = x.umod y
    rw [← BitVec.toNat_inj, BitVec.toNat_setWidth, BitVec.umod_eq, BitVec.umod_eq,
      BitVec.toNat_umod, BitVec.toNat_umod, toNat_widen hn, toNat_widen hn]
    exact Nat.mod_eq_of_lt (Nat.lt_of_le_of_lt (Nat.mod_le _ _) x.isLt)

theorem setWidth_shiftRight_widen (signed : Bool) (x : BitVec n) (k : Nat) :
    (if signed then (widen signed x).sshiftRight k else widen signed x >>> k).setWidth n =
      if signed then x.sshiftRight k else x >>> k := by
  cases signed with
  | true =>
    change ((widen true x).sshiftRight k).setWidth n = x.sshiftRight k
    rw [setWidth_eq_ofInt hn, BitVec.toInt_sshiftRight, toInt_widen hn,
      ← BitVec.toInt_sshiftRight, BitVec.ofInt_toInt]
  | false =>
    change (widen false x >>> k).setWidth n = x >>> k
    rw [← BitVec.toNat_inj, BitVec.toNat_setWidth, BitVec.toNat_ushiftRight,
      BitVec.toNat_ushiftRight, toNat_widen hn]
    exact Nat.mod_eq_of_lt (Nat.lt_of_le_of_lt (Nat.shiftRight_le _ _) x.isLt)

theorem shiftAmount_widen (signed : Bool) (y : BitVec n) :
    ((widen signed y).setWidth 32).toNat % n = IntegerOp.shiftAmount signed y := by
  cases signed with
  | true =>
    rw [setWidth_widen_true hn (by decide)]
    rfl
  | false =>
    change ((y.setWidth 128).setWidth 32).toNat % n = _
    rw [BitVec.setWidth_setWidth_of_le _ (by decide)]
    rfl

end Words

section Operators

variable {w : Nat}

theorem remainder_distance (valid : 0 < w ∧ w ≤ 16) (a : Nat) (k : Nat → Guarded α) :
    (do
      let n ← remainder a (8 * w)
      let n ← distance mode 128 n
      k n) = k (a % (8 * w)) := by
  have positive : 8 * w ≠ 0 := by omega
  have short : a % (8 * w) < 128 := Nat.lt_of_lt_of_le (Nat.mod_lt _ (by omega)) (by omega)
  simp only [remainder, distance, ensure_of positive, settle_of short, pure_bind]

/-- A division that is not by zero is within its range. -/
theorem divide_widen {signed : Bool} (valid : 0 < w ∧ w ≤ 16) {y result : BitVec (8 * w)}
    {z : BitVec 128} (h : z.setWidth (8 * w) = result) :
    ∃ r, (if widen signed y = 0 then return none
        else do
          ensure (widen signed y ≠ 0) .divisor
          return some z : Guarded (Option (BitVec 128))) = pure r ∧
      r.map (BitVec.setWidth (8 * w)) = if y = 0 then none else some result := by
  have zero : widen signed y = 0 ↔ y = 0 := widen_eq_zero_iff (by omega) signed
  by_cases divisor : y = 0
  · rw [if_pos (zero.mpr divisor), if_pos divisor]
    exact ⟨none, rfl, rfl⟩
  · rw [if_neg (zero.not.mpr divisor), if_neg divisor, ensure_of (zero.not.mpr divisor)]
    exact ⟨some z, rfl, congrArg some h⟩

/-- The low bits of an operator's result on registers are its result on words. -/
theorem operate_widen (op : IntegerOp) (signed : Bool) (valid : 0 < w ∧ w ≤ 16)
    (x y : BitVec (8 * w)) :
    ∃ r, operate mode op signed w (widen signed x) (widen signed y) = pure r ∧
      r.map (BitVec.setWidth (8 * w)) = op.apply signed x y := by
  have hn : 8 * w ≤ 128 := by omega
  unfold operate
  simp only [mul_eight (show w < 65536 by omega), pure_bind]
  cases op with
  | add =>
    refine ⟨_, rfl, congrArg some ?_⟩
    rw [BitVec.setWidth_add _ _ hn, setWidth_widen hn, setWidth_widen hn]
  | sub => exact ⟨_, rfl, congrArg some (setWidth_sub_widen hn signed x y)⟩
  | mul =>
    refine ⟨_, rfl, congrArg some ?_⟩
    rw [BitVec.setWidth_mul _ _ hn, setWidth_widen hn, setWidth_widen hn]
  | div => exact divide_widen valid (setWidth_div_widen hn signed x y)
  | mod => exact divide_widen valid (setWidth_mod_widen hn signed x y)
  | shiftLeft =>
    refine ⟨_, remainder_distance valid _ _, congrArg some ?_⟩
    rw [BitVec.setWidth_shiftLeft_of_le hn, setWidth_widen hn, shiftAmount_widen hn]
  | shiftRight =>
    refine ⟨_, remainder_distance valid _ _, congrArg some ?_⟩
    rw [setWidth_shiftRight_widen hn, shiftAmount_widen hn]
  | and =>
    refine ⟨_, rfl, congrArg some ?_⟩
    rw [BitVec.setWidth_and, setWidth_widen hn, setWidth_widen hn]
  | or =>
    refine ⟨_, rfl, congrArg some ?_⟩
    rw [BitVec.setWidth_or, setWidth_widen hn, setWidth_widen hn]
  | xor =>
    refine ⟨_, rfl, congrArg some ?_⟩
    rw [BitVec.setWidth_xor, setWidth_widen hn, setWidth_widen hn]

theorem setWidth_stepOperate (op : StepOp) (signed : Bool) (valid : 0 < w ∧ w ≤ 16)
    (x : BitVec (8 * w)) :
    (stepOperate op (widen signed x)).setWidth (8 * w) = op.applyWord x := by
  have hn : 8 * w ≤ 128 := by omega
  have one : (1 : BitVec 128).setWidth (8 * w) = 1 := BitVec.setWidth_ofNat_of_le hn 1
  cases op with
  | inc =>
    change (widen signed x + 1).setWidth (8 * w) = x + 1
    rw [BitVec.setWidth_add _ _ hn, setWidth_widen hn, one]
  | dec =>
    change (widen signed x - 1).setWidth (8 * w) = x - 1
    rw [BitVec.sub_eq_add_neg, BitVec.setWidth_add _ _ hn, BitVec.setWidth_neg_of_le hn,
      setWidth_widen hn, one, BitVec.sub_eq_add_neg]
  | neg =>
    change (-widen signed x).setWidth (8 * w) = -x
    rw [BitVec.setWidth_neg_of_le hn, setWidth_widen hn]

theorem truncate_truncate (v : Floating.Value) {low low' high high' : Int} (hl : low' ≤ low)
    (h0 : low ≤ 0) (h1 : 0 ≤ high) (hh : high ≤ high') :
    max low (min high (v.truncate low' high')) = v.truncate low high := by
  cases v with
  | nan => simp only [Floating.Value.truncate]; omega
  | infinite negative => cases negative <;> simp [Floating.Value.truncate] <;> omega
  | finite negative m e => simp only [Floating.Value.truncate]; omega

theorem setWidth_ofInt {m : Nat} (hm : m ≤ 128) (k : Int) :
    (BitVec.ofInt 128 k).setWidth m = BitVec.ofInt m k := by
  rw [setWidth_eq_ofInt hm, BitVec.toInt_ofInt, ofInt_bmod hm]

/-- The bounds of the signed integers of fewer than sixteen bytes, as they are computed. -/
theorem signed_bounds : ∀ w < 16, 0 < w →
    let bound : BitVec 128 := 1 <<< (8 * w - 1)
    bound.ssubOverflow 1 = false ∧ (bound - 1).negOverflow = false ∧
      (-(bound - 1)).ssubOverflow 1 = false ∧
      (bound - 1).toInt = ((1 <<< (8 * w - 1) : Nat) : Int) - 1 ∧
      (-(bound - 1) - 1).toInt = -((1 <<< (8 * w - 1) : Nat) : Int) := by
  decide +kernel

theorem truncate_bounds (v : Floating.Value) {low high : Int} (h0 : low ≤ 0) (h1 : 0 ≤ high) :
    low ≤ v.truncate low high ∧ v.truncate low high ≤ high := by
  have kept := truncate_truncate v le_rfl h0 h1 le_rfl
  omega

theorem clamp_of (v : Floating.Value) {low high : BitVec 128} (h0 : low.toInt ≤ 0)
    (h1 : 0 ≤ high.toInt) :
    clamp low high (.ofInt 128 (v.truncate (-2 ^ 127) (2 ^ 127 - 1))) =
      pure (.ofInt 128 (v.truncate low.toInt high.toInt)) := by
  have bounds : -2 ^ 127 ≤ v.truncate (-2 ^ 127) (2 ^ 127 - 1) ∧
      v.truncate (-2 ^ 127) (2 ^ 127 - 1) ≤ 2 ^ 127 - 1 :=
    truncate_bounds v (by decide) (by decide)
  have closer : max low.toInt (min high.toInt (v.truncate (-2 ^ 127) (2 ^ 127 - 1))) =
      v.truncate low.toInt high.toInt :=
    truncate_truncate v low.le_toInt h0 h1 (Int.le_sub_one_of_lt high.toInt_lt)
  rw [← closer]
  generalize v.truncate (-2 ^ 127) (2 ^ 127 - 1) = whole at bounds
  have held : (BitVec.ofInt 128 whole).toInt = whole :=
    BitVec.toInt_ofInt_eq_self (by decide) bounds.1 (Int.lt_of_le_sub_one bounds.2)
  unfold clamp
  rw [ensure_of (h0.trans h1), pure_bind, held]
  congr 1
  split_ifs with below above
  · rw [max_eq_left (by omega), BitVec.ofInt_toInt]
  · rw [min_eq_left (by omega), max_eq_right (by omega), BitVec.ofInt_toInt]
  · rw [min_eq_right (by omega), max_eq_right (by omega)]

theorem saturateSigned_of_large (v : Floating.Value) (h : 16 ≤ w) (field : w < 65536) :
    saturateSigned mode v w = pure (.ofInt 128 (v.truncate (-2 ^ 127) (2 ^ 127 - 1))) := by
  unfold saturateSigned
  rw [mul_eight field, pure_bind]
  exact if_pos (by omega)

theorem saturateSigned_of (v : Floating.Value) (valid : 0 < w ∧ w ≤ 16) :
    saturateSigned mode v w = pure (.ofInt 128
      (v.truncate (-((1 <<< (8 * w - 1) : Nat) : Int)) ((1 <<< (8 * w - 1) : Nat) - 1))) := by
  obtain widest | narrow := Nat.lt_or_ge 15 w
  · obtain rfl : w = 16 := by omega
    exact saturateSigned_of_large v le_rfl (by decide)
  · obtain ⟨fits, fitsNeg, fitsLow, high, low⟩ := signed_bounds w (by omega) valid.1
    have positive : 0 < 1 <<< (8 * w - 1) := by
      rw [Nat.one_shiftLeft]
      exact Nat.two_pow_pos _
    have below : 8 * w - 1 < 128 := by omega
    unfold saturateSigned
    rw [mul_eight (by omega), pure_bind, if_neg (by omega)]
    simp only [sub, settle_of (show 1 ≤ 8 * w by omega), distance, settle_of below, subSigned,
      negSigned, settle_of fits, settle_of fitsNeg, settle_of fitsLow, pure_bind]
    rw [clamp_of v (by rw [low]; omega) (by rw [high]; omega), low, high]

theorem saturateSigned_zero_wrapping (v : Floating.Value) :
    ∃ z, saturateSigned .wrapping v 0 = pure z := by
  have bounds : saturateSigned .wrapping v 0 =
      clamp (.intMin 128) (.intMax 128) (.ofInt 128 (v.truncate (-2 ^ 127) (2 ^ 127 - 1))) :=
    rfl
  exact ⟨_, bounds.trans (clamp_of v (by decide) (by decide))⟩

theorem saturateUnsigned_of_large (v : Floating.Value) (h : 16 ≤ w) (field : w < 65536) :
    saturateUnsigned mode v w = pure (.ofInt 128 (v.truncate 0 (2 ^ 128 - 1))) := by
  unfold saturateUnsigned
  rw [mul_eight field, pure_bind]
  exact if_pos (by omega)

theorem saturateUnsigned_of (v : Floating.Value) (h : w ≤ 16) :
    saturateUnsigned mode v w =
      pure (.ofInt 128 (v.truncate 0 ((1 <<< (8 * w) : Nat) - 1))) := by
  obtain widest | narrow := Nat.lt_or_ge 15 w
  · obtain rfl : w = 16 := by omega
    exact saturateUnsigned_of_large v le_rfl (by decide)
  · have positive : 0 < 1 <<< (8 * w) := by
      rw [Nat.one_shiftLeft]
      exact Nat.two_pow_pos _
    have small : 1 <<< (8 * w) < 2 ^ 128 := by
      rw [Nat.one_shiftLeft]
      exact Nat.pow_lt_pow_right (by decide) (by omega)
    have bound : (1#128 <<< (8 * w)).toNat = 1 <<< (8 * w) := by
      rw [BitVec.toNat_shiftLeft]
      exact Nat.mod_eq_of_lt small
    have enough : 1 ≤ (1#128 <<< (8 * w)).toNat := bound ▸ positive
    have bounds : 0 ≤ v.truncate 0 (2 ^ 128 - 1) ∧ v.truncate 0 (2 ^ 128 - 1) ≤ 2 ^ 128 - 1 :=
      truncate_bounds v le_rfl (by decide)
    have closer : max (0 : Int) (min ((1 <<< (8 * w) : Nat) - 1) (v.truncate 0 (2 ^ 128 - 1))) =
        v.truncate 0 ((1 <<< (8 * w) : Nat) - 1) :=
      truncate_truncate v le_rfl le_rfl (by omega) (by omega)
    unfold saturateUnsigned
    rw [mul_eight (by omega), pure_bind, if_neg (by omega)]
    simp only [distance, settle_of (show 8 * w < 128 by omega), pure_bind, sub, settle_of enough]
    rw [bound, ← closer, ← BitVec.ofInt_natCast, BitVec.toNat_ofInt]
    congr 2
    generalize v.truncate 0 (2 ^ 128 - 1) = whole at bounds
    omega

theorem saturateSigned_eq (v : Floating.Value) (field : w < 65536)
    (fine : w = 0 → mode = .wrapping) :
    ∃ z, saturateSigned mode v w = pure z ∧ (0 < w ∧ w ≤ 16 → z.setWidth (8 * w) =
      .ofInt (8 * w)
        (v.truncate (-((1 <<< (8 * w - 1) : Nat) : Int)) ((1 <<< (8 * w - 1) : Nat) - 1))) := by
  by_cases valid : 0 < w ∧ w ≤ 16
  · exact ⟨_, saturateSigned_of v valid, fun _ => setWidth_ofInt (by omega) _⟩
  · obtain rfl | large : w = 0 ∨ 16 ≤ w := by omega
    · obtain ⟨z, hz⟩ := saturateSigned_zero_wrapping v
      exact ⟨z, fine rfl ▸ hz, fun h => absurd h valid⟩
    · exact ⟨_, saturateSigned_of_large v large field, fun h => absurd h valid⟩

theorem saturateUnsigned_eq (v : Floating.Value) (field : w < 65536) :
    ∃ z, saturateUnsigned mode v w = pure z ∧ (0 < w ∧ w ≤ 16 → z.setWidth (8 * w) =
      .ofInt (8 * w) (v.truncate 0 ((1 <<< (8 * w) : Nat) - 1))) := by
  obtain narrow | large := Nat.le_total w 16
  · exact ⟨_, saturateUnsigned_of v narrow, fun _ => setWidth_ofInt (by omega) _⟩
  · refine ⟨_, saturateUnsigned_of_large v large field, fun valid => ?_⟩
    obtain rfl : w = 16 := by omega
    exact setWidth_ofInt (by decide) _

end Operators

end Bytescript.Registers
