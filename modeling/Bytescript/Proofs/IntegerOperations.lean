import Mathlib
import Bytescript.Proofs.InRange
import Bytescript.Proofs.LiteralValues
import Bytescript.Proofs.Room

/-!
# Integer operations of the machine

Integers of one to sixteen bytes are kept in two's complement. An operation on them is the operation
on the integers that they represent, modulo their width, and only a division by zero faults. The
machine has these results both on words of the width of the operands and on registers of 128 bits,
which hold them with their sign or with zeros above.
-/
namespace Bytescript

namespace Bytes

variable {x : Bytes} {w : Nat}

/-- The integer that some bytes represent, in two's complement if they are signed. -/
def value (signed : Bool) (x : Bytes) : Int :=
  if signed ∧ 2 ^ (8 * x.length - 1) ≤ x.toNat then (x.toNat : Int) - 2 ^ (8 * x.length)
  else x.toNat

theorem value_unsigned (x : Bytes) : x.value false = x.toNat := by
  simp [value]

theorem value_signed (x : Bytes) : x.value true = (toWord x.length x).toInt := by
  rw [BitVec.toInt_eq_toNat_cond, toNat_toWord, value]
  cases x with
  | nil => rfl
  | cons b x =>
    have half : 2 ^ (8 * (b :: x).length) = 2 * 2 ^ (8 * (b :: x).length - 1) := by
      rw [← pow_succ', Nat.sub_add_cancel (by simp only [List.length_cons]; omega)]
    simp only [true_and, Nat.cast_pow, Nat.cast_ofNat]
    split_ifs with high low
    · omega
    · rfl
    · rfl
    · omega

theorem toWord_eq_ofInt (signed : Bool) (hx : x.length = w) :
    toWord w x = BitVec.ofInt (8 * w) (x.value signed) := by
  subst hx
  cases signed with
  | true => rw [value_signed, BitVec.ofInt_toInt]
  | false => rw [value_unsigned, BitVec.ofInt_natCast, toWord]

theorem toInt_toWord (hx : x.length = w) : (toWord w x).toInt = x.value true := by
  subst hx
  rw [value_signed]

theorem toNat_toWord_of_length (hx : x.length = w) : (toWord w x).toNat = x.toNat := by
  subst hx
  exact toNat_toWord x

theorem toWord_eq_zero_iff (hx : x.length = w) : toWord w x = 0 ↔ x.toNat = 0 := by
  rw [← BitVec.toNat_inj, toNat_toWord_of_length hx]
  rfl

end Bytes

namespace IntegerOp

def isShift : IntegerOp → Bool
  | .shiftLeft | .shiftRight => true
  | _ => false

def isDivision : IntegerOp → Bool
  | .div | .mod => true
  | _ => false

/-- The result of an operator before it is reduced to the width of the operands. Quotients are
truncated, a shift to the right rounds down, and the amount of a shift is the right operand without
a sign, modulo the number of bits. -/
def exact (op : IntegerOp) (signed : Bool) (x y : Bytes) : Int :=
  match op with
  | .add => x.value signed + y.value signed
  | .sub => x.value signed - y.value signed
  | .mul => x.value signed * y.value signed
  | .div => (x.value signed).tdiv (y.value signed)
  | .mod => (x.value signed).tmod (y.value signed)
  | .shiftLeft => x.value signed * 2 ^ (y.toNat % (8 * y.length))
  | .shiftRight => x.value signed / 2 ^ (y.toNat % (8 * y.length))
  | .and => (x.toNat &&& y.toNat : Nat)
  | .or => (x.toNat ||| y.toNat : Nat)
  | .xor => (x.toNat ^^^ y.toNat : Nat)

variable {x y : Bytes} {w : Nat}

theorem sdiv_eq (hx : x.length = w) (hy : y.length = w) :
    (Bytes.toWord w x).sdiv (Bytes.toWord w y) =
      BitVec.ofInt (8 * w) ((x.value true).tdiv (y.value true)) := by
  rw [← BitVec.toInt_inj, BitVec.toInt_sdiv, BitVec.toInt_ofInt, Bytes.toInt_toWord hx,
    Bytes.toInt_toWord hy]

theorem srem_eq (hx : x.length = w) (hy : y.length = w) :
    (Bytes.toWord w x).srem (Bytes.toWord w y) =
      BitVec.ofInt (8 * w) ((x.value true).tmod (y.value true)) := by
  rw [← Bytes.toInt_toWord hx, ← Bytes.toInt_toWord hy, ← BitVec.toInt_srem, BitVec.ofInt_toInt]

theorem eq_ofInt_of_toNat {n : Nat} {z : BitVec n} {k : Nat} (h : z.toNat = k) :
    z = BitVec.ofInt n k := by
  rw [BitVec.ofInt_natCast, ← h, BitVec.ofNat_toNat, BitVec.setWidth_eq]

theorem udiv_eq (hx : x.length = w) (hy : y.length = w) :
    (Bytes.toWord w x).udiv (Bytes.toWord w y) =
      BitVec.ofInt (8 * w) ((x.value false).tdiv (y.value false)) := by
  rw [Bytes.value_unsigned, Bytes.value_unsigned, ← Int.ofNat_tdiv]
  apply eq_ofInt_of_toNat
  rw [BitVec.udiv_eq, BitVec.toNat_udiv, Bytes.toNat_toWord_of_length hx,
    Bytes.toNat_toWord_of_length hy]

theorem umod_eq (hx : x.length = w) (hy : y.length = w) :
    (Bytes.toWord w x).umod (Bytes.toWord w y) =
      BitVec.ofInt (8 * w) ((x.value false).tmod (y.value false)) := by
  rw [Bytes.value_unsigned, Bytes.value_unsigned, ← Int.ofNat_tmod]
  apply eq_ofInt_of_toNat
  rw [BitVec.umod_eq, BitVec.toNat_umod, Bytes.toNat_toWord_of_length hx,
    Bytes.toNat_toWord_of_length hy]

theorem shiftLeft_eq (signed : Bool) (hx : x.length = w) (k : Nat) :
    Bytes.toWord w x <<< k = BitVec.ofInt (8 * w) (x.value signed * 2 ^ k) := by
  have power : BitVec.ofInt (8 * w) ((2 : Int) ^ k) = BitVec.twoPow (8 * w) k := by
    rw [← BitVec.toNat_inj, BitVec.toNat_twoPow]
    norm_cast
  rw [BitVec.shiftLeft_eq_mul_twoPow, BitVec.ofInt_mul, power, ← Bytes.toWord_eq_ofInt signed hx]

theorem sshiftRight_eq (hx : x.length = w) (k : Nat) :
    (Bytes.toWord w x).sshiftRight k = BitVec.ofInt (8 * w) (x.value true / 2 ^ k) := by
  have quotient : x.value true / 2 ^ k = ((Bytes.toWord w x).sshiftRight k).toInt := by
    rw [BitVec.toInt_sshiftRight, Int.shiftRight_eq_div_pow, Bytes.toInt_toWord hx]
    norm_cast
  rw [quotient, BitVec.ofInt_toInt]

theorem ushiftRight_eq (hx : x.length = w) (k : Nat) :
    Bytes.toWord w x >>> k = BitVec.ofInt (8 * w) (x.value false / 2 ^ k) := by
  have quotient : x.value false / 2 ^ k = ((x.toNat / 2 ^ k : Nat) : Int) := by
    rw [Bytes.value_unsigned]
    norm_cast
  rw [quotient]
  apply eq_ofInt_of_toNat
  rw [BitVec.toNat_ushiftRight, Nat.shiftRight_eq_div_pow, Bytes.toNat_toWord_of_length hx]

/-- Only the low bits of the right operand of a shift count, and its sign is not among them. -/
theorem shiftAmount_toWord (signed : Bool) (hy : y.length = w) (hw : w ∈ [1, 2, 4, 8, 16]) :
    shiftAmount signed (Bytes.toWord w y) = y.toNat % (8 * y.length) := by
  have divides : 8 * w ∣ 2 ^ 32 ∧ 8 * w ∣ 2 ^ 32 - 2 ^ (8 * w) := by
    simp only [List.mem_cons, List.not_mem_nil, or_false] at hw
    rcases hw with rfl | rfl | rfl | rfl | rfl <;> norm_num
  rw [shiftAmount_eq divides.1 divides.2, Bytes.toNat_toWord_of_length hy, hy]

/-- An operator on words is the operator on the integers that they represent, unless it divides by
zero. -/
theorem apply_toWord (op : IntegerOp) (signed : Bool) (hx : x.length = w) (hy : y.length = w)
    (hw : op.isShift → w ∈ [1, 2, 4, 8, 16]) :
    op.apply signed (Bytes.toWord w x) (Bytes.toWord w y) =
      if op.isDivision ∧ y.toNat = 0 then none
      else some (BitVec.ofInt (8 * w) (op.exact signed x y)) := by
  have wordX := Bytes.toWord_eq_ofInt signed hx
  have wordY := Bytes.toWord_eq_ofInt signed hy
  have zero := Bytes.toWord_eq_zero_iff hy
  have plain {a b : Option (BitVec (8 * w))} (h : a = b) :
      a = if false = true ∧ y.toNat = 0 then none else b := by
    rw [h, if_neg (by simp)]
  cases op with
  | add =>
    apply plain
    rw [apply, exact, BitVec.ofInt_add, ← wordX, ← wordY]
  | sub =>
    apply plain
    rw [apply, exact, Int.sub_eq_add_neg, BitVec.ofInt_add, BitVec.ofInt_neg, ← wordX, ← wordY,
      BitVec.sub_eq_add_neg]
  | mul =>
    apply plain
    rw [apply, exact, BitVec.ofInt_mul, ← wordX, ← wordY]
  | div =>
    simp only [apply, exact, isDivision, true_and, zero]
    split_ifs with h signs
    · rfl
    · subst signs
      rw [sdiv_eq hx hy]
    · rw [Bool.not_eq_true] at signs
      subst signs
      rw [udiv_eq hx hy]
  | mod =>
    simp only [apply, exact, isDivision, true_and, zero]
    split_ifs with h signs
    · rfl
    · subst signs
      rw [srem_eq hx hy]
    · rw [Bool.not_eq_true] at signs
      subst signs
      rw [umod_eq hx hy]
  | shiftLeft =>
    apply plain
    rw [apply, exact, shiftAmount_toWord signed hy (hw rfl), shiftLeft_eq signed hx]
  | shiftRight =>
    apply plain
    rw [apply, exact, shiftAmount_toWord signed hy (hw rfl)]
    cases signed with
    | true => rw [if_pos rfl, sshiftRight_eq hx]
    | false => rw [if_neg Bool.false_ne_true, ushiftRight_eq hx]
  | and =>
    apply plain
    rw [apply, exact, BitVec.ofInt_natCast, BitVec.ofNat_and]
    rfl
  | or =>
    apply plain
    rw [apply, exact, BitVec.ofInt_natCast, BitVec.ofNat_or]
    rfl
  | xor =>
    apply plain
    rw [apply, exact, BitVec.ofInt_natCast, BitVec.ofNat_xor]
    rfl

end IntegerOp

namespace StepOp

def exact (op : StepOp) (a : Int) : Int :=
  match op with
  | .inc => a + 1
  | .dec => a - 1
  | .neg => -a

theorem applyWord_toWord (op : StepOp) (signed : Bool) {x : Bytes} {w : Nat} (hx : x.length = w) :
    op.applyWord (Bytes.toWord w x) = BitVec.ofInt (8 * w) (op.exact (x.value signed)) := by
  have one : BitVec.ofInt (8 * w) 1 = 1 := BitVec.ofInt_natCast (8 * w) 1
  have word := Bytes.toWord_eq_ofInt signed hx
  cases op with
  | inc => rw [applyWord, exact, BitVec.ofInt_add, one, ← word]
  | dec =>
    rw [applyWord, exact, Int.sub_eq_add_neg, BitVec.ofInt_add, BitVec.ofInt_neg, one, ← word,
      BitVec.sub_eq_add_neg]
  | neg => rw [applyWord, exact, BitVec.ofInt_neg, ← word]

end StepOp

namespace Relation

def between : Relation → Int → Int → Bool
  | .eq, a, b => a = b
  | .ne, a, b => a ≠ b
  | .lt, a, b => a < b
  | .le, a, b => a ≤ b
  | .gt, a, b => b < a
  | .ge, a, b => b ≤ a

theorem holds_compare (r : Relation) (a b : Int) :
    r.holds (some (compare a b)) = r.between a b := by
  rcases lt_trichotomy a b with hlt | rfl | hgt
  · rw [compare_lt_iff_lt.mpr hlt]
    cases r <;> simp [holds, between, hlt, hlt.ne, hlt.le, hlt.not_ge, hlt.not_gt]
  · rw [compare_eq_iff_eq.mpr rfl]
    cases r <;> simp [holds, between]
  · rw [compare_gt_iff_gt.mpr hgt]
    cases r <;> simp [holds, between, hgt, hgt.ne', hgt.le, hgt.not_ge, hgt.not_gt]

end Relation

namespace Exec

variable {capacity : Nat} {base x y : Bytes} {w : Nat}

theorem run_of_meets {α : Type} {m : Exec α} {s t : Stack} {a : α}
    (h : Meets m s (fun b u => b = a ∧ u = t) fun _ => False) : m.run.run s = (.ok a, t) := by
  unfold Meets at h
  split at h
  · next hr =>
    obtain ⟨rfl, rfl⟩ := h
    exact hr
  · exact h.elim

theorem run_popWord_append (base : Bytes) (hw : w ≠ 0 ∧ w ≤ maxWidth) (hx : x.length = w) :
    (popWord w).run.run (.ofList (base ++ x)) = (.ok (Bytes.toWord w x), .ofList base) :=
  run_of_meets (meets_popWord_append hw hx ⟨rfl, rfl⟩)

theorem run_push_ofList (room : base.length + x.length ≤ capacity) :
    (push capacity x).run.run (.ofList base) = (.ok (), .ofList (base ++ x)) := by
  apply run_of_meets
  rw [meets_push, if_neg (by simpa using room), Stack.push_ofList]
  exact ⟨rfl, rfl⟩

theorem run_pushWord_ofList (hw : w ≠ 0 ∧ w ≤ maxWidth) (z : BitVec (8 * w))
    (room : base.length + w ≤ capacity) :
    (pushWord capacity z).run.run (.ofList base) = (.ok (), .ofList (base ++ Bytes.ofWord z)) := by
  apply run_of_meets
  rw [meets_pushWord, if_neg (by omega), if_neg (by simpa using room), Stack.push_ofList]
  exact ⟨rfl, rfl⟩

theorem run_popOrder_append {kind : Option NumberKind} (integral : kind ≠ some .float)
    (hw : w ≠ 0 ∧ w ≤ maxWidth) (hx : x.length = w) (hy : y.length = w) :
    (popOrder kind w).run.run (.ofList (base ++ x ++ y)) =
      (.ok (some (compare (x.value (kind == some .signed)) (y.value (kind == some .signed)))),
        .ofList base) := by
  have unsigned : compare x.toNat y.toNat = compare (x.value false) (y.value false) := by
    rw [Bytes.value_unsigned, Bytes.value_unsigned]
    simp only [compare, compareOfLessAndEq, Nat.cast_lt, Nat.cast_inj]
  have right := run_popWord_append (base ++ x) hw hy
  have left := run_popWord_append base hw hx
  match kind with
  | some .float => exact absurd rfl integral
  | some .signed =>
    simp only [popOrder, run_bind, right, left, Bytes.toInt_toWord hx, Bytes.toInt_toWord hy]
    rfl
  | some .unsigned | none =>
    simp only [popOrder, run_bind, right, left, Bytes.toNat_toWord_of_length hx,
      Bytes.toNat_toWord_of_length hy, unsigned]
    rfl

end Exec

namespace Instruction

open Exec

/-- An instruction, run on a stack, has the given outcome. It has it on words and, as long as the
stack can be addressed, on registers under either arithmetic. -/
def Yields (capacity : Nat) (data : Bytes) (i : Instruction) (before : Bytes)
    (outcome : Except Fault.Cause Flow × Stack) : Prop :=
  (i.step capacity data).run.run (.ofList before) = (outcome.1.mapError .fault, outcome.2) ∧
    (before.length < 2 ^ 63 → ∀ mode,
      (Registers.step mode capacity data i).run.run (.ofList before) = .ok outcome)

variable {capacity : Nat} {data : Bytes} {i : Instruction} {base x y : Bytes} {w : Nat}

theorem yields_of_perform {op : Opcode} (h : i.opcode? = some op)
    (fine : op = .floatToSigned → i.second ≠ 0) {before : Bytes}
    {outcome : Except Fault.Cause Flow × Stack}
    (hr : (i.perform capacity data op).run.run (.ofList before) =
      (outcome.1.mapError .fault, outcome.2)) :
    i.Yields capacity data before outcome := by
  constructor
  · rw [step_of_opcode? h]
    exact hr
  · intro small mode
    have agrees : Registers.Agrees id (Registers.perform mode capacity data i op)
        (i.perform capacity data op) (.ofList before) :=
      Registers.agrees_perform (by simpa using small) op fun hop zero => absurd zero (fine hop)
    obtain ⟨r, t, machine, registers⟩ := agrees
    obtain ⟨faults, rfl⟩ := Prod.ext_iff.mp (machine.symm.trans hr)
    obtain rfl : r = outcome.1 := Registers.mapError_fault_injective faults
    simp only [Registers.step, h]
    rw [registers]
    rcases outcome with ⟨_ | flow, t⟩ <;> rfl

theorem run_integer (op : IntegerOp) (width : i.width.toNat = w) (hw : w ≠ 0 ∧ w ≤ maxWidth)
    (hx : x.length = w) (hy : y.length = w) (room : base.length + w ≤ capacity) :
    (i.perform capacity data (.integer op)).run.run (.ofList (base ++ x ++ y)) =
      match op.apply (i.kind? == some .signed) (Bytes.toWord w x) (Bytes.toWord w y) with
      | none => (.error (.fault .divisionByZero), .ofList base)
      | some z => (.ok .next, .ofList (base ++ Bytes.ofWord z)) := by
  subst width
  have right := run_popWord_append (base ++ x) hw hy
  have left := run_popWord_append base hw hx
  simp only [perform, run_bind, right, left]
  cases op.apply (i.kind? == some .signed) (Bytes.toWord i.width.toNat x)
      (Bytes.toWord i.width.toNat y) with
  | none => rfl
  | some z =>
    simp only [run_bind, run_pushWord_ofList hw z room]
    rfl

theorem run_compare (r : Relation) (integral : i.kind? ≠ some .float) (width : i.width.toNat = w)
    (hw : w ≠ 0 ∧ w ≤ maxWidth) (hx : x.length = w) (hy : y.length = w)
    (room : base.length + w ≤ capacity) :
    (i.perform capacity data (.compare r)).run.run (.ofList (base ++ x ++ y)) =
      (.ok .next, .ofList (base ++ [(r.between (x.value (i.kind? == some .signed))
        (y.value (i.kind? == some .signed))).toNat.toUInt8])) := by
  subst width
  simp only [perform, run_bind, run_popOrder_append integral hw hx hy, Relation.holds_compare]
  rw [run_push_ofList (by simp only [List.length_singleton]; omega)]
  rfl

theorem run_integerStep (op : StepOp) (width : i.width.toNat = w) (hw : w ≠ 0 ∧ w ≤ maxWidth)
    (hx : x.length = w) (room : base.length + w ≤ capacity) :
    (i.perform capacity data (.integerStep op)).run.run (.ofList (base ++ x)) =
      (.ok .next, .ofList (base ++ Bytes.ofWord (op.applyWord (Bytes.toWord w x)))) := by
  subst width
  simp only [perform, run_bind, run_popWord_append base hw hx, run_pushWord_ofList hw _ room]
  rfl

theorem ofInt_lowest (hw : w ≠ 0) (hx : x.length = w) (lowest : x.value true = -2 ^ (8 * w - 1)) :
    Bytes.ofInt w ((x.value true).tdiv (-1)) = x := by
  have wraps : (2 : Int) ^ (8 * w) = 2 * 2 ^ (8 * w - 1) := by
    rw [← pow_succ', Nat.sub_add_cancel (by omega)]
  have same : (x.value true).tdiv (-1) = x.value true + 2 ^ (8 * w) := by
    rw [Int.tdiv_neg, Int.tdiv_one, lowest, wraps]
    ring
  have zero : BitVec.ofInt (8 * w) (2 ^ (8 * w)) = 0#(8 * w) := by
    rw [← BitVec.toNat_inj, BitVec.toNat_ofInt]
    simp
  rw [same, ← Bytes.ofWord_ofInt, BitVec.ofInt_add, zero, BitVec.add_zero,
    ← Bytes.toWord_eq_ofInt true hx]
  subst hx
  exact Bytes.ofWord_toWord x

/-- The integer instructions on operands of one to sixteen bytes, the right one on top, are those of
two's complement at that width. An operator leaves the result on integers modulo the width, and
faults if it divides by zero; a comparison leaves the order of the integers; all of them read their
operands with a sign if that is their kind. -/
theorem integer_instructions (capacity : Nat) (data : Bytes) (i : Instruction) (below x y : Bytes)
    (w : Nat) (width : i.width.toNat = w) (word : 1 ≤ w ∧ w ≤ 16) (hx : x.length = w)
    (hy : y.length = w) (room : below.length + w ≤ capacity) :
    let signed := i.kind? == some .signed
    (∀ op, i.opcode? = some (.integer op) → (op.isShift → w ∈ [1, 2, 4, 8, 16]) →
      i.Yields capacity data (below ++ x ++ y)
        (if op.isDivision ∧ y.toNat = 0 then (.error .divisionByZero, .ofList below)
        else (.ok .next, .ofList (below ++ Bytes.ofInt w (op.exact signed x y))))) ∧
    (i.opcode? = some (.integer .div) → signed → x.value true = -2 ^ (8 * w - 1) →
      y.value true = -1 →
        i.Yields capacity data (below ++ x ++ y) (.ok .next, .ofList (below ++ x))) ∧
    (∀ op, i.opcode? = some (.integerStep op) →
      i.Yields capacity data (below ++ x)
        (.ok .next, .ofList (below ++ Bytes.ofInt w (op.exact (x.value signed))))) ∧
    (∀ r, i.opcode? = some (.compare r) → i.kind? ≠ some .float →
      i.Yields capacity data (below ++ x ++ y)
        (.ok .next, .ofList (below ++
          [(r.between (x.value signed) (y.value signed)).toNat.toUInt8]))) := by
  intro signed
  have hw : w ≠ 0 ∧ w ≤ maxWidth := by
    unfold maxWidth
    omega
  have operators (op : IntegerOp) (h : i.opcode? = some (.integer op))
      (shifts : op.isShift → w ∈ [1, 2, 4, 8, 16]) :
      i.Yields capacity data (below ++ x ++ y)
        (if op.isDivision ∧ y.toNat = 0 then (.error .divisionByZero, .ofList below)
        else (.ok .next, .ofList (below ++ Bytes.ofInt w (op.exact signed x y)))) := by
    apply yields_of_perform h nofun
    rw [run_integer op width hw hx hy room, op.apply_toWord _ hx hy shifts]
    split_ifs
    · rfl
    · simp only [Bytes.ofWord_ofInt, signed]
      rfl
  refine ⟨operators, ?_, ?_, ?_⟩
  · intro h hs lowest minus
    have nonzero : y.toNat ≠ 0 := by
      intro zero
      rw [Bytes.value, zero, if_neg (by simp)] at minus
      simp at minus
    have quotient := operators .div h nofun
    rw [if_neg (fun h => nonzero h.2), hs, IntegerOp.exact, minus,
      ofInt_lowest hw.1 hx lowest] at quotient
    exact quotient
  · intro op h
    apply yields_of_perform h nofun
    rw [run_integerStep op width hw hx room, op.applyWord_toWord signed hx, Bytes.ofWord_ofInt]
    rfl
  · intro r h integral
    apply yields_of_perform h nofun
    exact run_compare r integral width hw hx hy room

theorem integer_instructions_quotients :
    let i := typed (.integer .div) 1 .signed
    i.width.toNat = 1 ∧ i.opcode? = some (.integer .div) ∧
      i.Yields 64 [] [5, 249, 2] (.ok .next, .ofList [5, 253]) ∧
      i.Yields 64 [] [5, 249, 0] (.error .divisionByZero, .ofList [5]) ∧
      i.Yields 64 [] [5, 249, 255] (.ok .next, .ofList [5, 7]) ∧
      i.Yields 64 [] [5, 128, 255] (.ok .next, .ofList [5, 128]) := by
  intro i
  have at_bytes (x y : UInt8) := integer_instructions 64 [] i [5] [x] [y] 1 (by decide) (by decide)
    rfl rfl (by decide)
  have quotient (x y : UInt8) := (at_bytes x y).1 .div (by decide) nofun
  exact ⟨by decide, by decide, quotient 249 2, quotient 249 0, quotient 249 255,
    (at_bytes 128 255).2.1 (by decide) (by decide) (by decide) (by decide)⟩

end Instruction

end Bytescript
