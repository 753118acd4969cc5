import Bytescript.Bytes

/-!
# The operand stack

A stack of bytes, counted from its bottom. `Stack.toList` is the stack as a list, bottom first, and
the lemmas say what each operation does to it.
-/
namespace Bytescript

structure Stack where
  bytes : Array UInt8
  deriving DecidableEq, Repr

namespace Stack

def empty : Stack := ⟨#[]⟩

def toList (s : Stack) : Bytes := s.bytes.toList

def size (s : Stack) : Nat := s.bytes.size

def push (s : Stack) (bs : Bytes) : Stack := ⟨s.bytes ++ bs⟩

/-- Keeps the lowest `n` bytes. -/
def keep (s : Stack) (n : Nat) : Stack := ⟨s.bytes.shrink n⟩

def slice (s : Stack) (start n : Nat) : Bytes :=
  (s.bytes.extract start (start + n)).toList

/-- The top `n` bytes, lowest first, if there are that many. -/
def top? (s : Stack) (n : Nat) : Option Bytes :=
  if n ≤ s.size then some (s.slice (s.size - n) n) else none

def overwriteFrom (bytes : Array UInt8) (start : Nat) : Bytes → Array UInt8
  | [] => bytes
  | b :: bs => overwriteFrom (bytes.setIfInBounds start b) (start + 1) bs

def overwrite (s : Stack) (start : Nat) (bs : Bytes) : Stack :=
  ⟨overwriteFrom s.bytes start bs⟩

@[simp] theorem length_toList (s : Stack) : s.toList.length = s.size := rfl

@[simp] theorem toList_push (s : Stack) (bs : Bytes) : (s.push bs).toList = s.toList ++ bs := by
  simp [push, toList]

@[simp] theorem size_push (s : Stack) (bs : Bytes) : (s.push bs).size = s.size + bs.length := by
  rw [← length_toList, toList_push, List.length_append, length_toList]

@[simp] theorem toList_keep (s : Stack) (n : Nat) : (s.keep n).toList = s.toList.take n := by
  simp [keep, toList]

@[simp] theorem size_keep (s : Stack) (n : Nat) : (s.keep n).size = min n s.size := by
  simp [keep, size]

theorem size_overwriteFrom (bytes : Array UInt8) (start : Nat) (bs : Bytes) :
    (overwriteFrom bytes start bs).size = bytes.size := by
  induction bs generalizing bytes start with
  | nil => rfl
  | cons b bs ih => simp [overwriteFrom, ih]

@[simp] theorem size_overwrite (s : Stack) (start : Nat) (bs : Bytes) :
    (s.overwrite start bs).size = s.size :=
  size_overwriteFrom s.bytes start bs

theorem getElem?_overwriteFrom (bytes : Array UInt8) (start : Nat) (bs : Bytes) (i : Nat)
    (h : start + bs.length ≤ bytes.size) :
    (overwriteFrom bytes start bs)[i]? =
      if start ≤ i ∧ i < start + bs.length then bs[i - start]? else bytes[i]? := by
  induction bs generalizing bytes start with
  | nil =>
    rw [if_neg (by simp)]
    rfl
  | cons b bs ih =>
    simp only [List.length_cons] at h ⊢
    rw [overwriteFrom, ih _ _ (by simp; omega)]
    by_cases hi : i = start
    · subst hi
      rw [if_neg (by omega), if_pos (by omega)]
      simp [show i < bytes.size by omega]
    · rw [Array.getElem?_setIfInBounds_ne (by omega)]
      by_cases hr : start + 1 ≤ i ∧ i < start + 1 + bs.length
      · rw [if_pos hr, if_pos (by omega), show i - start = i - (start + 1) + 1 by omega]
        rfl
      · rw [if_neg hr, if_neg (by omega)]

theorem toList_overwrite (s : Stack) (start : Nat) (bs : Bytes)
    (h : start + bs.length ≤ s.size) :
    (s.overwrite start bs).toList = Bytes.overwrite s.toList start bs := by
  have hs : s.bytes.toList.length = s.bytes.size := rfl
  apply List.ext_getElem?
  intro i
  change (overwriteFrom s.bytes start bs).toList[i]? = _
  rw [Array.getElem?_toList, getElem?_overwriteFrom _ _ _ _ h, Bytes.overwrite]
  change start + bs.length ≤ s.bytes.size at h
  simp only [toList, List.getElem?_append, List.length_append, List.length_take,
    List.getElem?_take, List.getElem?_drop, Array.getElem?_toList, hs]
  rw [Nat.min_eq_left (by omega)]
  by_cases h1 : i < start
  · simp [h1, show ¬start ≤ i by omega, show i < start + bs.length by omega]
  · by_cases h2 : i < start + bs.length
    · simp [h1, h2, show start ≤ i by omega]
    · simp [h2, show start + bs.length + (i - (start + bs.length)) = i by omega]

theorem slice_eq (s : Stack) (start n : Nat) :
    s.slice start n = (s.toList.drop start).take n := by
  simp [slice, toList, List.extract_eq_take_drop]

end Stack

end Bytescript
