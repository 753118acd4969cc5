/-!
# Byte strings

Numbers are stored as bytes with the lowest byte first. `Bytes.toNat` reads such a string and
`Bytes.ofNat` writes one of a given length; each is the inverse of the other as far as the length
allows.
-/
namespace Bytescript

abbrev Bytes := List UInt8

namespace Bytes

def toNat : Bytes → Nat
  | [] => 0
  | b :: bs => b.toNat + 256 * toNat bs

def ofNat : (w n : Nat) → Bytes
  | 0, _ => []
  | w + 1, n => n.toUInt8 :: ofNat w (n / 256)

/-- The `w`-byte two's complement form of `v`. -/
def ofInt (w : Nat) (v : Int) : Bytes :=
  ofNat w (v % (1 <<< (8 * w) : Nat)).toNat

def toWord (w : Nat) (bs : Bytes) : BitVec (8 * w) :=
  BitVec.ofNat (8 * w) (toNat bs)

def ofWord {w : Nat} (x : BitVec (8 * w)) : Bytes :=
  ofNat w x.toNat

/-- The `n` bytes from index `start` on, if there are that many. -/
def slice? (bs : Bytes) (start n : Nat) : Option Bytes :=
  if start + n ≤ bs.length then some ((bs.drop start).take n) else none

/-- The `w`-byte number at index `start`. -/
def natAt? (bs : Bytes) (start w : Nat) : Option Nat :=
  (slice? bs start w).map toNat

/-- Replaces the bytes from index `start` on by `part`. -/
def overwrite (bs : Bytes) (start : Nat) (part : Bytes) : Bytes :=
  bs.take start ++ part ++ bs.drop (start + part.length)

@[simp] theorem length_ofNat (w n : Nat) : (ofNat w n).length = w := by
  induction w generalizing n with
  | zero => rfl
  | succ w ih => simp [ofNat, ih]

@[simp] theorem length_ofInt (w : Nat) (v : Int) : (ofInt w v).length = w := by
  simp [ofInt]

@[simp] theorem length_ofWord {w : Nat} (x : BitVec (8 * w)) : (ofWord x).length = w := by
  simp [ofWord]

theorem slice?_eq_some_iff {bs part : Bytes} {start n : Nat} :
    slice? bs start n = some part ↔
      start + n ≤ bs.length ∧ part = (bs.drop start).take n := by
  unfold slice?
  split
  · next h => simp [h, eq_comm]
  · next h => simp [h]

theorem toNat_lt (bs : Bytes) : toNat bs < 1 <<< (8 * bs.length) := by
  rw [Nat.one_shiftLeft, Nat.pow_mul]
  change toNat bs < 256 ^ bs.length
  induction bs with
  | nil => simp [toNat]
  | cons b bs ih =>
    have := b.toNat_lt
    simp only [toNat, List.length_cons, Nat.pow_succ]
    omega

theorem toNat_ofNat (w n : Nat) : toNat (ofNat w n) = n % (1 <<< (8 * w)) := by
  rw [Nat.one_shiftLeft, Nat.pow_mul]
  change toNat (ofNat w n) = n % 256 ^ w
  induction w generalizing n with
  | zero => simp [ofNat, toNat, Nat.mod_one]
  | succ w ih =>
    simp only [ofNat, toNat, ih, Nat.pow_succ]
    rw [Nat.mul_comm (256 ^ w) 256, Nat.mod_mul]
    simp

theorem ofNat_toNat (bs : Bytes) : ofNat bs.length (toNat bs) = bs := by
  induction bs with
  | nil => rfl
  | cons b bs ih =>
    have hb := b.toNat_lt
    simp only [List.length_cons, ofNat, toNat]
    congr 1
    · apply UInt8.toNat_inj.mp
      simp
    · rw [show (b.toNat + 256 * toNat bs) / 256 = toNat bs by omega, ih]

theorem toWord_ofWord {w : Nat} (x : BitVec (8 * w)) : toWord w (ofWord x) = x := by
  apply BitVec.eq_of_toNat_eq
  simp [toWord, ofWord, toNat_ofNat, Nat.one_shiftLeft, Nat.mod_eq_of_lt x.isLt]

theorem ofWord_toWord (bs : Bytes) : ofWord (toWord bs.length bs) = bs := by
  have h := toNat_lt bs
  rw [Nat.one_shiftLeft] at h
  simp [ofWord, toWord, Nat.mod_eq_of_lt h, ofNat_toNat]

end Bytes

end Bytescript
