import Mathlib
import Bytescript.Proofs.Depth
import Bytescript.Proofs.Encoding
import Bytescript.Proofs.Evaluation

/-!
# Instructions on known operands

The effect of each instruction on a stack with known operands on top, in terms of evaluation. The
only fault that is not excluded is that the stack has no room for the result.
-/
namespace Bytescript

namespace Bytes

theorem toNat_toWord (x : Bytes) : (toWord x.length x).toNat = x.toNat := by
  have h := toNat_lt x
  rw [Nat.one_shiftLeft] at h
  rw [toWord, BitVec.toNat_ofNat, Nat.mod_eq_of_lt h]

theorem ofWord_setWidth_of_le {x : Bytes} {w : Nat} (h : x.length ≤ w) :
    ofWord ((toWord x.length x).setWidth (8 * w)) = x ++ List.replicate (w - x.length) 0 := by
  rw [ofWord, BitVec.toNat_setWidth, toNat_toWord, ofNat_mod,
    ← toNat_append_zeros x (w - x.length)]
  refine Eq.trans ?_ (ofNat_toNat _)
  rw [List.length_append, List.length_replicate, Nat.add_sub_cancel' h]

theorem ofWord_setWidth_of_ge {x : Bytes} {w : Nat} (h : w ≤ x.length) :
    ofWord ((toWord x.length x).setWidth (8 * w)) = x.take w := by
  rw [ofWord, BitVec.toNat_setWidth, toNat_toWord, ofNat_mod, ← take_ofNat h, ofNat_toNat]

end Bytes

namespace Stack

def ofList (bs : Bytes) : Stack := ⟨bs.toArray⟩

@[simp] theorem toList_ofList (bs : Bytes) : (ofList bs).toList = bs := rfl

@[simp] theorem size_ofList (bs : Bytes) : (ofList bs).size = bs.length := rfl

theorem ofList_toList (s : Stack) : ofList s.toList = s := rfl

theorem eq_ofList {s : Stack} {bs : Bytes} (h : s.toList = bs) : s = ofList bs := by
  rw [← h, ofList_toList]

@[simp] theorem push_ofList (base bs : Bytes) : (ofList base).push bs = ofList (base ++ bs) :=
  eq_ofList (by simp)

@[simp] theorem keep_ofList (base bs : Bytes) :
    (ofList (base ++ bs)).keep base.length = ofList base :=
  eq_ofList (by simp)

@[simp] theorem slice_ofList (base bs : Bytes) :
    (ofList (base ++ bs)).slice base.length bs.length = bs := by
  simp [slice_eq]

end Stack

namespace Exec

variable {capacity : Nat} {base x : Bytes}

def IsOverflow (capacity : Nat) (f : Stop) : Prop :=
  ∃ needed, f = .fault (.stackOverflow needed capacity)

theorem isOverflow (needed capacity : Nat) :
    IsOverflow capacity (.fault (.stackOverflow needed capacity)) := ⟨needed, rfl⟩

theorem meets_pop_append {Q : Bytes → Stack → Prop} {E : Stop → Prop}
    (h : Q x (.ofList base)) : Meets (pop x.length) (.ofList (base ++ x)) Q E := by
  have hn : ¬ (Stack.ofList (base ++ x)).size < x.length := by simp
  have hs : (Stack.ofList (base ++ x)).size - x.length = base.length := by simp
  rw [meets_pop, if_neg hn, hs, Stack.slice_ofList, Stack.keep_ofList]
  exact h

theorem meets_push_ofList {Q : Unit → Stack → Prop} {E : Stop → Prop}
    (hE : ∀ needed, E (.fault (.stackOverflow needed capacity))) (h : Q () (.ofList (base ++ x))) :
    Meets (push capacity x) (.ofList base) Q E := by
  rw [meets_push, Stack.push_ofList]
  split
  · exact hE _
  · exact h

theorem meets_popWord_append {w : Nat} (hw : w ≠ 0 ∧ w ≤ maxWidth) (hx : x.length = w)
    {Q : BitVec (8 * w) → Stack → Prop} {E : Stop → Prop}
    (h : Q (Bytes.toWord w x) (.ofList base)) : Meets (popWord w) (.ofList (base ++ x)) Q E := by
  subst hx
  rw [popWord, meets_bind, meets_checkWordWidth, if_neg (by omega), meets_bind]
  exact meets_pop_append h

theorem meets_pushWord_ofList {w : Nat} (hw : w ≠ 0 ∧ w ≤ maxWidth) {z : BitVec (8 * w)}
    {Q : Unit → Stack → Prop} {E : Stop → Prop}
    (hE : ∀ needed, E (.fault (.stackOverflow needed capacity)))
    (h : Q () (.ofList (base ++ Bytes.ofWord z))) :
    Meets (pushWord capacity z) (.ofList base) Q E := by
  rw [pushWord, meets_bind, meets_checkWordWidth, if_neg (by omega)]
  exact meets_push_ofList hE h

theorem meets_popFloat_append {w : Nat} (hw : w = 2 ∨ w = 4 ∨ w = 8) (hx : x.length = w)
    {Q : Floating.Value → Stack → Prop} {E : Stop → Prop}
    (h : Q (Floating.load w (Bytes.toNat x)) (.ofList base)) :
    Meets (popFloat w) (.ofList (base ++ x)) Q E := by
  subst hx
  rw [popFloat, meets_bind, meets_checkFloatWidth, if_pos hw, meets_bind]
  exact meets_pop_append h

theorem meets_pushFloat_ofList {w : Nat} (hw : w = 2 ∨ w = 4 ∨ w = 8) {v : Floating.Value}
    {Q : Unit → Stack → Prop} {E : Stop → Prop}
    (hE : ∀ needed, E (.fault (.stackOverflow needed capacity)))
    (h : Q () (.ofList (base ++ Bytes.ofNat w (Floating.store w v)))) :
    Meets (pushFloat capacity w v) (.ofList base) Q E := by
  rw [pushFloat, meets_bind, meets_checkFloatWidth, if_pos hw]
  exact meets_push_ofList hE h

end Exec

namespace Instruction

open Exec

/-- An instruction turns one stack into another and gives the next index, unless there is no room.
-/
def Flows (capacity : Nat) (data : Bytes) (i : Instruction) (before : Bytes) (flow : Flow)
    (after : Bytes) : Prop :=
  Meets (i.step capacity data) (.ofList before)
    (fun f t => f = flow ∧ t = .ofList after) (IsOverflow capacity)

/-- An instruction turns one stack into another and continues with the next instruction. -/
abbrev Turns (capacity : Nat) (data : Bytes) (i : Instruction) (before after : Bytes) : Prop :=
  i.Flows capacity data before .next after

variable {capacity : Nat} {data : Bytes} {i : Instruction} {base x y : Bytes} {w k : Nat}

theorem step_of_opcode? {op : Opcode} (h : i.opcode? = some op) :
    i.step capacity data = i.perform capacity data op := by
  unfold step
  rw [h]

theorem flows_of_perform {op : Opcode} {before after : Bytes} {flow : Flow}
    (h : i.opcode? = some op)
    (hm : Meets (i.perform capacity data op) (.ofList before)
      (fun f t => f = flow ∧ t = .ofList after) (IsOverflow capacity)) :
    i.Flows capacity data before flow after := by
  unfold Flows
  rw [step_of_opcode? h]
  exact hm

theorem flows_halt (code : Int32) (bs : Bytes) :
    (halt code).Flows capacity data bs (.halt code) bs := by
  refine flows_of_perform (opcode?_halt code) ⟨?_, rfl⟩
  simp [Instruction.code, halt]

theorem flows_jump {n : Nat} (h : n < 4294967296) (bs : Bytes) :
    (worded .jump n).Flows capacity data bs (.goto n) bs :=
  flows_of_perform (opcode?_worded ..) ⟨congrArg Flow.goto (word_worded .jump h), rfl⟩

theorem flows_jumpIfFalse {n : Nat} (h : n < 4294967296) (hx : x.length = 1) :
    (worded .jumpIfFalse n).Flows capacity data (base ++ x)
      (if Evaluation.isTrue x then .next else .goto n) base := by
  have hn := word_worded .jumpIfFalse h
  have hz : Bytes.toWord 1 x = 0 ↔ Evaluation.isTrue x = false := by
    rw [← hx, ← BitVec.toNat_inj, Bytes.toNat_toWord]
    simp [Evaluation.isTrue]
  refine flows_of_perform (opcode?_worded ..) ?_
  simp only [perform, meets_bind, hn]
  refine meets_popWord_append (by decide) hx ⟨?_, rfl⟩
  simp only [hz]
  cases Evaluation.isTrue x <;> rfl

theorem turns_debug (bs : Bytes) : (plain .debug).Turns capacity data bs bs :=
  flows_of_perform (opcode?_plain _) ⟨rfl, rfl⟩

theorem turns_pushZero {n : Nat} (h : n < 4294967296) :
    (worded .pushZero n).Turns capacity data base (base ++ List.replicate n 0) := by
  have hn := word_worded .pushZero h
  refine flows_of_perform (opcode?_worded ..) ?_
  simp only [perform, meets_bind, meets_reserve, meets_modify, meets_pure, hn,
    Stack.push_ofList]
  split
  · exact isOverflow _ _
  · exact ⟨trivial, trivial⟩

theorem turns_pop (h : x.length < 4294967296) :
    (worded .pop x.length).Turns capacity data (base ++ x) base := by
  have hn := word_worded .pop h
  refine flows_of_perform (opcode?_worded ..) ?_
  simp only [perform, meets_bind, meets_require, meets_modify, meets_pure, hn]
  rw [if_neg (by simp)]
  refine ⟨trivial, ?_⟩
  rw [Stack.size_ofList, List.length_append, Nat.add_sub_cancel, Stack.keep_ofList]

theorem turns_pushHandle {n : Nat} (h : n < 4294967296) (hd : n < data.length) :
    (worded .pushHandle n).Turns capacity data base (base ++ Bytes.ofNat 8 n) := by
  have hn := word_worded .pushHandle h
  refine flows_of_perform (opcode?_worded ..) ?_
  simp only [perform, hn]
  rw [if_neg (by omega), meets_bind]
  exact meets_push_ofList (isOverflow · _) ⟨rfl, rfl⟩

theorem turns_pushData {n : Nat} (h : n < 4294967296) (hw : w < 65536)
    (hd : Bytes.slice? data n w = some x) :
    (sized .pushData w n).Turns capacity data base (base ++ x) := by
  have hn := word_sized .pushData w h
  have hs := width_sized .pushData n hw
  refine flows_of_perform (opcode?_sized ..) ?_
  simp only [perform, hn, hs, hd, meets_bind]
  exact meets_push_ofList (isOverflow · _) ⟨rfl, rfl⟩

theorem turns_pushStack {n : Nat} (h : n < 4294967296) (hw : w < 65536)
    (hb : n + w ≤ base.length) :
    (sized .pushStack w n).Turns capacity data base (base ++ Evaluation.part base n w) := by
  have hn := word_sized .pushStack w h
  have hs := width_sized .pushStack n hw
  refine flows_of_perform (opcode?_sized ..) ?_
  simp only [perform, hn, hs, meets_bind, meets_get]
  rw [if_neg (by simpa using hb)]
  simp only [meets_bind, meets_reserve, meets_modify, meets_pure]
  split
  · exact isOverflow _ _
  · refine ⟨trivial, ?_⟩
    rw [Stack.push_ofList, Stack.slice_eq, Stack.toList_ofList]
    rfl

theorem turns_assign {n : Nat} (h : n < 4294967296) (hw : x.length < 65536)
    (hb : n + x.length ≤ base.length) :
    (sized .assign x.length n).Turns capacity data (base ++ x) (Bytes.overwrite base n x) := by
  have hn := word_sized .assign x.length h
  have hs := width_sized .assign n hw
  refine flows_of_perform (opcode?_sized ..) ?_
  simp only [perform, hn, hs, meets_bind, meets_require]
  rw [if_neg (by simp), meets_get, if_neg (by simpa using hb), meets_bind]
  refine meets_pop_append ?_
  simp only [meets_bind, meets_modify, meets_pure]
  refine ⟨trivial, Stack.eq_ofList ?_⟩
  rw [Stack.toList_overwrite _ _ _ (by simpa using hb), Stack.toList_ofList]

theorem width_typed (op : Opcode) (kind : NumberKind) (h : w < 65536) :
    (typed op w kind).width.toNat = w :=
  width_paired op _ h

theorem kind?_typed (op : Opcode) (w : Nat) (kind : NumberKind) :
    (typed op w kind).kind? = some kind := by
  have hs : (typed op w kind).second = kind.code :=
    second_paired op w (by cases kind <;> decide)
  unfold kind?
  rw [hs]
  cases kind <;> rfl

-- The rules are stated for any instruction of a width, since the types of words depend on it.
theorem meets_integer {op : IntegerOp} (hi : i.width.toNat = w) (hw : w ≠ 0 ∧ w ≤ maxWidth)
    (hx : x.length = w) (hy : y.length = w) {z : BitVec (8 * w)}
    (h : op.apply (i.kind? == some .signed) (Bytes.toWord w x) (Bytes.toWord w y) = some z) :
    Meets (i.perform capacity data (.integer op)) (.ofList (base ++ x ++ y))
      (fun flow t => flow = .next ∧ t = .ofList (base ++ Bytes.ofWord z))
      (IsOverflow capacity) := by
  subst hi
  simp only [perform, meets_bind]
  refine meets_popWord_append hw hy (meets_popWord_append hw hx ?_)
  simp only [h, meets_bind]
  exact meets_pushWord_ofList hw (isOverflow · _) ⟨rfl, rfl⟩

theorem meets_integer_none {op : IntegerOp} (hi : i.width.toNat = w) (hw : w ≠ 0 ∧ w ≤ maxWidth)
    (hx : x.length = w) (hy : y.length = w)
    (h : op.apply (i.kind? == some .signed) (Bytes.toWord w x) (Bytes.toWord w y) = none) :
    Meets (i.perform capacity data (.integer op)) (.ofList (base ++ x ++ y))
      (fun _ _ => False) (fun f => f = .fault .divisionByZero) := by
  subst hi
  simp only [perform, meets_bind]
  refine meets_popWord_append hw hy (meets_popWord_append hw hx ?_)
  simp only [h]
  exact rfl

theorem meets_integerStep {op : StepOp} (hi : i.width.toNat = w) (hw : w ≠ 0 ∧ w ≤ maxWidth)
    (hx : x.length = w) :
    Meets (i.perform capacity data (.integerStep op)) (.ofList (base ++ x))
      (fun flow t => flow = .next ∧
        t = .ofList (base ++ Bytes.ofWord (op.applyWord (Bytes.toWord w x))))
      (IsOverflow capacity) := by
  subst hi
  simp only [perform, meets_bind]
  exact meets_popWord_append hw hx (meets_pushWord_ofList hw (isOverflow · _) ⟨rfl, rfl⟩)

theorem meets_not (hi : i.width.toNat = w) (hw : w ≠ 0 ∧ w ≤ maxWidth) (hx : x.length = w) :
    Meets (i.perform capacity data .not) (.ofList (base ++ x))
      (fun flow t => flow = .next ∧ t = .ofList (base ++ Bytes.ofWord
        (if Bytes.toWord w x = 0 then (1 : BitVec (8 * w)) else 0)))
      (IsOverflow capacity) := by
  subst hi
  simp only [perform, meets_bind]
  refine meets_popWord_append hw hx (meets_pushWord_ofList hw (isOverflow · _) ⟨rfl, ?_⟩)
  split
  · next h => rw [h]; rfl
  · next h => rw [beq_eq_false_iff_ne.mpr h]; rfl

theorem meets_float {op : FloatOp} (hi : i.width.toNat = w) (hw : w = 2 ∨ w = 4 ∨ w = 8)
    (hx : x.length = w) (hy : y.length = w) :
    Meets (i.perform capacity data (.float op)) (.ofList (base ++ x ++ y))
      (fun flow t => flow = .next ∧ t = .ofList (base ++ Bytes.ofNat w (Floating.store w
        (op.apply (Floating.load w (Bytes.toNat x)) (Floating.load w (Bytes.toNat y))))))
      (IsOverflow capacity) := by
  subst hi
  simp only [perform, meets_bind]
  exact meets_popFloat_append hw hy (meets_popFloat_append hw hx
    (meets_pushFloat_ofList hw (isOverflow · _) ⟨rfl, rfl⟩))

theorem meets_floatStep {op : StepOp} (hi : i.width.toNat = w) (hw : w = 2 ∨ w = 4 ∨ w = 8)
    (hx : x.length = w) :
    Meets (i.perform capacity data (.floatStep op)) (.ofList (base ++ x))
      (fun flow t => flow = .next ∧ t = .ofList (base ++ Bytes.ofNat w (Floating.store w
        (op.applyFloat (Floating.load w (Bytes.toNat x))))))
      (IsOverflow capacity) := by
  subst hi
  simp only [perform, meets_bind]
  exact meets_popFloat_append hw hx (meets_pushFloat_ofList hw (isOverflow · _) ⟨rfl, rfl⟩)

theorem meets_compare {r : Relation} {o : Option Ordering} {before : Bytes}
    (h : ∀ {Q : Option Ordering → Stack → Prop}, Q o (.ofList base) →
      Meets (popOrder i.kind? i.width.toNat) (.ofList before) Q (IsOverflow capacity)) :
    Meets (i.perform capacity data (.compare r)) (.ofList before)
      (fun flow t => flow = .next ∧ t = .ofList (base ++ Evaluation.truth (r.holds o)))
      (IsOverflow capacity) := by
  simp only [perform, meets_bind]
  refine h (meets_push_ofList (isOverflow · _) ⟨rfl, ?_⟩)
  cases r.holds o <;> rfl

theorem meets_signExtend (hi : i.width.toNat = w) (hs : i.second = v)
    (hw : w ≠ 0 ∧ w ≤ maxWidth) (hv : v ≠ 0 ∧ v ≤ maxWidth) (hx : x.length = w) :
    Meets (i.perform capacity data .signExtend) (.ofList (base ++ x))
      (fun flow t => flow = .next ∧ t = .ofList
        (base ++ Bytes.ofWord ((Bytes.toWord w x).signExtend (8 * v))))
      (IsOverflow capacity) := by
  subst hi hs
  simp only [perform, meets_bind, meets_checkWordWidth]
  refine meets_popWord_append hw hx ?_
  rw [if_neg (by omega)]
  exact meets_pushWord_ofList hv (isOverflow · _) ⟨rfl, rfl⟩

theorem meets_floatToFloat (hi : i.width.toNat = w) (hs : i.second = v)
    (hw : w = 2 ∨ w = 4 ∨ w = 8) (hv : v = 2 ∨ v = 4 ∨ v = 8) (hx : x.length = w) :
    Meets (i.perform capacity data .floatToFloat) (.ofList (base ++ x))
      (fun flow t => flow = .next ∧ t = .ofList
        (base ++ Bytes.ofNat v (Floating.store v (Floating.load w (Bytes.toNat x)))))
      (IsOverflow capacity) := by
  subst hi hs
  simp only [perform, meets_bind]
  exact meets_popFloat_append hw hx (meets_pushFloat_ofList hv (isOverflow · _) ⟨rfl, rfl⟩)

theorem meets_signedToFloat (hi : i.width.toNat = w) (hs : i.second = v)
    (hw : w ≠ 0 ∧ w ≤ maxWidth) (hv : v = 2 ∨ v = 4 ∨ v = 8) (hx : x.length = w) :
    Meets (i.perform capacity data .signedToFloat) (.ofList (base ++ x))
      (fun flow t => flow = .next ∧ t = .ofList (base ++ Bytes.ofNat v
        (Floating.store v (Floating.Value.ofInt (Bytes.toWord w x).toInt).round)))
      (IsOverflow capacity) := by
  subst hi hs
  simp only [perform, meets_bind]
  exact meets_popWord_append hw hx (meets_pushFloat_ofList hv (isOverflow · _) ⟨rfl, rfl⟩)

theorem meets_unsignedToFloat (hi : i.width.toNat = w) (hs : i.second = v)
    (hw : w ≠ 0 ∧ w ≤ maxWidth) (hv : v = 2 ∨ v = 4 ∨ v = 8) (hx : x.length = w) :
    Meets (i.perform capacity data .unsignedToFloat) (.ofList (base ++ x))
      (fun flow t => flow = .next ∧ t = .ofList (base ++ Bytes.ofNat v
        (Floating.store v (Floating.Value.ofInt (Bytes.toWord w x).toNat).round)))
      (IsOverflow capacity) := by
  subst hi hs
  simp only [perform, meets_bind]
  exact meets_popWord_append hw hx (meets_pushFloat_ofList hv (isOverflow · _) ⟨rfl, rfl⟩)

theorem meets_floatToSigned (hi : i.width.toNat = w) (hs : i.second = v)
    (hw : w = 2 ∨ w = 4 ∨ w = 8) (hv : v ≠ 0 ∧ v ≤ maxWidth) (hx : x.length = w) :
    Meets (i.perform capacity data .floatToSigned) (.ofList (base ++ x))
      (fun flow t => flow = .next ∧ t = .ofList (base ++ Bytes.ofWord (BitVec.ofInt (8 * v)
        ((Floating.load w (Bytes.toNat x)).truncate (-(1 <<< (8 * v - 1) : Nat))
          ((1 <<< (8 * v - 1) : Nat) - 1)))))
      (IsOverflow capacity) := by
  subst hi hs
  simp only [perform, meets_bind]
  refine meets_popFloat_append hw hx ?_
  simp only [if_neg hv.1, meets_bind, meets_checkWordWidth]
  rw [if_neg (by omega)]
  exact meets_pushWord_ofList hv (isOverflow · _) ⟨rfl, rfl⟩

theorem meets_floatToUnsigned (hi : i.width.toNat = w) (hs : i.second = v)
    (hw : w = 2 ∨ w = 4 ∨ w = 8) (hv : v ≠ 0 ∧ v ≤ maxWidth) (hx : x.length = w) :
    Meets (i.perform capacity data .floatToUnsigned) (.ofList (base ++ x))
      (fun flow t => flow = .next ∧ t = .ofList (base ++ Bytes.ofWord (BitVec.ofInt (8 * v)
        ((Floating.load w (Bytes.toNat x)).truncate 0 ((1 <<< (8 * v) : Nat) - 1)))))
      (IsOverflow capacity) := by
  subst hi hs
  simp only [perform, meets_bind, meets_checkWordWidth]
  refine meets_popFloat_append hw hx ?_
  rw [if_neg (by omega)]
  exact meets_pushWord_ofList hv (isOverflow · _) ⟨rfl, rfl⟩

end Instruction

theorem Primitive.word_width (p : Primitive) : p.size ≠ 0 ∧ p.size ≤ Exec.maxWidth := by
  cases p <;> decide

theorem Primitive.float_width {p : Primitive} (h : p.isFloat) :
    p.size = 2 ∨ p.size = 4 ∨ p.size = 8 := by
  revert h
  cases p <;> decide

/-- A shift by the low 32 bits is one by the whole operand, where the width divides their number of
values. -/
theorem IntegerOp.shiftAmount_eq {n : Nat} (h : n ∣ 2 ^ 32) (hs : n ∣ 2 ^ 32 - 2 ^ n)
    (signed : Bool) (y : BitVec n) : shiftAmount signed y = y.toNat % n := by
  have low : y.toNat % 2 ^ 32 % n = y.toNat % n := Nat.mod_mod_of_dvd _ h
  unfold shiftAmount
  cases signed with
  | false => simpa using low
  | true =>
    rw [if_pos rfl, BitVec.toNat_signExtend, BitVec.toNat_setWidth]
    split
    · rw [Nat.add_mod, Nat.mod_eq_zero_of_dvd hs, Nat.add_zero, Nat.mod_mod, low]
    · rw [Nat.add_zero, low]

theorem Evaluation.shiftAmount_word (p : Primitive) (y : Bytes) :
    IntegerOp.shiftAmount p.isSigned (word p y) = distance p y := by
  refine IntegerOp.shiftAmount_eq ?_ ?_ _ _
  · cases p <;> decide
  · cases p <;> norm_num [Primitive.size]

namespace Lowering

open Exec Instruction

variable {capacity : Nat} {data : Bytes} {base x y : Bytes} {p : Primitive}

theorem opcode?_operation (op : Opcode) (p : Primitive) : (operation op p).opcode? = some op :=
  opcode?_paired ..

theorem width_operation (op : Opcode) (p : Primitive) : (operation op p).width.toNat = p.size :=
  width_typed op _ (by have := p.size_le; omega)

theorem kind?_operation (op : Opcode) (p : Primitive) :
    (operation op p).kind? = some (.ofPrimitive p) :=
  kind?_typed op _ _

theorem signed_operation (op : Opcode) (p : Primitive) :
    ((operation op p).kind? == some .signed) = p.isSigned := by
  rw [kind?_operation]
  cases p <;> rfl

theorem turns_integer {op : IntegerOp} {z : BitVec (8 * p.size)} (hx : x.length = p.size)
    (hy : y.length = p.size)
    (h : op.apply p.isSigned (Evaluation.word p x) (Evaluation.word p y) = some z) :
    (operation (.integer op) p).Turns capacity data (base ++ x ++ y) (base ++ Bytes.ofWord z) := by
  refine flows_of_perform (opcode?_operation ..)
    (meets_integer (width_operation _ p) p.word_width hx hy ?_)
  rw [signed_operation]
  exact h

theorem turns_float {op : FloatOp} (hf : p.isFloat) (hx : x.length = p.size)
    (hy : y.length = p.size) :
    (operation (.float op) p).Turns capacity data (base ++ x ++ y)
      (base ++ Evaluation.ofFloat p (op.apply (Evaluation.float p x) (Evaluation.float p y))) :=
  flows_of_perform (opcode?_operation ..)
    (meets_float (width_operation _ p) (Primitive.float_width hf) hx hy)

theorem meets_popOrder (op : Opcode) (hx : x.length = p.size) (hy : y.length = p.size)
    {Q : Option Ordering → Stack → Prop} (h : Q (Evaluation.order p x y) (.ofList base)) :
    Meets (popOrder (operation op p).kind? (operation op p).width.toNat)
      (.ofList (base ++ x ++ y)) Q (IsOverflow capacity) := by
  rw [width_operation, kind?_operation]
  have words : ∀ f : BitVec (8 * p.size) → BitVec (8 * p.size) → Option Ordering,
      f (Evaluation.word p x) (Evaluation.word p y) = Evaluation.order p x y →
      Meets (do
        let y ← popWord p.size
        let x ← popWord p.size
        return f x y) (.ofList (base ++ x ++ y)) Q (IsOverflow capacity) := by
    intro f hf
    simp only [meets_bind]
    refine meets_popWord_append p.word_width hy (meets_popWord_append p.word_width hx ?_)
    rw [meets_pure]
    exact (show f (Bytes.toWord p.size x) (Bytes.toWord p.size y) = _ from hf) ▸ h
  unfold popOrder
  split
  · next hk =>
    have hf : p.isFloat := by
      revert hk
      cases p <;> decide
    have hw := Primitive.float_width hf
    simp only [meets_bind]
    refine meets_popFloat_append hw hy (meets_popFloat_append hw hx ?_)
    rw [Evaluation.order, if_pos hf] at h
    exact h
  · next hk =>
    have hf : p.isFloat = false ∧ p.isSigned := by
      revert hk
      cases p <;> decide
    refine words _ ?_
    simp [Evaluation.order, Evaluation.number, hf]
  · next hk =>
    have hf : p.isFloat = false ∧ p.isSigned = false := by
      revert hk
      cases p <;> decide
    refine words _ ?_
    simp only [Evaluation.order, Evaluation.number, hf, Bool.false_eq_true, if_false, compare,
      compareOfLessAndEq, Nat.cast_lt, Nat.cast_inj]
  · next hk => cases hk

theorem turns_compare {r : Relation} (hx : x.length = p.size) (hy : y.length = p.size) {b : Bool}
    (hb : r.holds (Evaluation.order p x y) = b) :
    (operation (.compare r) p).Turns capacity data (base ++ x ++ y)
      (base ++ Evaluation.truth b) := by
  subst hb
  exact flows_of_perform (opcode?_operation ..) (meets_compare (meets_popOrder _ hx hy))

theorem turns_numeric (fop : FloatOp) (iop : IntegerOp)
    {onWords : BitVec (8 * p.size) → BitVec (8 * p.size) → BitVec (8 * p.size)}
    (hx : x.length = p.size) (hy : y.length = p.size) (hw : p.isFloat = false →
      iop.apply p.isSigned (Evaluation.word p x) (Evaluation.word p y) =
        some (onWords (Evaluation.word p x) (Evaluation.word p y))) :
    (operation (if p.isFloat then .float fop else .integer iop) p).Turns capacity data
      (base ++ x ++ y) (base ++ Evaluation.numeric p fop.apply onWords x y) := by
  unfold Evaluation.numeric
  cases hf : p.isFloat with
  | true => exact turns_float hf hx hy
  | false => exact turns_integer hx hy (hw hf)

theorem turns_divided (fop : FloatOp) (iop : IntegerOp)
    {onWords : BitVec (8 * p.size) → BitVec (8 * p.size) → BitVec (8 * p.size)}
    (hx : x.length = p.size) (hy : y.length = p.size)
    (hw : ∀ a b : BitVec (8 * p.size), iop.apply p.isSigned a b =
      if b = 0 then none else some (onWords a b)) {z : Bytes}
    (h : Evaluation.divided p fop.apply onWords x y = .ok z) :
    (operation (if p.isFloat then .float fop else .integer iop) p).Turns capacity data
      (base ++ x ++ y) (base ++ z) := by
  unfold Evaluation.divided at h
  split at h
  · cases h
  · next hz =>
    cases h
    refine turns_numeric fop iop hx hy fun hf => ?_
    rw [hw, if_neg fun h0 => hz ⟨hf, h0⟩]

theorem faults_divided (fop : FloatOp) (iop : IntegerOp)
    {onWords : BitVec (8 * p.size) → BitVec (8 * p.size) → BitVec (8 * p.size)}
    (hx : x.length = p.size) (hy : y.length = p.size)
    (hw : ∀ a b : BitVec (8 * p.size), iop.apply p.isSigned a b =
      if b = 0 then none else some (onWords a b)) {e : Evaluation.Ending}
    (h : Evaluation.divided p fop.apply onWords x y = .error e) :
    e = .divisionByZero ∧
      Meets ((operation (if p.isFloat then .float fop else .integer iop) p).step capacity data)
        (.ofList (base ++ x ++ y)) (fun _ _ => False) (fun f => f = .fault .divisionByZero) := by
  unfold Evaluation.divided at h
  split at h
  · next hz =>
    cases h
    refine ⟨rfl, ?_⟩
    rw [hz.1]
    have hn := hw (Evaluation.word p x) (Evaluation.word p y)
    rw [if_pos hz.2, ← signed_operation (.integer iop) p] at hn
    rw [if_neg Bool.false_ne_true, step_of_opcode? (opcode?_operation ..)]
    exact meets_integer_none (width_operation _ p) p.word_width hx hy hn
  · cases h

/-- A binary operator has the result of its evaluation on the values on the stack. -/
theorem turns_binary (op : BinaryOp) (hx : x.length = p.size) (hy : y.length = p.size) {z : Bytes}
    (h : Evaluation.binary op p x y = .ok z) :
    (operation (Generate.binaryOpcode op p) p).Turns capacity data (base ++ x ++ y)
      (base ++ z) := by
  have shift := Evaluation.shiftAmount_word p y
  cases op with
  | add =>
    cases h
    exact turns_numeric .add .add hx hy fun _ => rfl
  | sub =>
    cases h
    exact turns_numeric .sub .sub hx hy fun _ => rfl
  | mul =>
    cases h
    exact turns_numeric .mul .mul hx hy fun _ => rfl
  | div => exact turns_divided .div .div hx hy (fun a b => by cases p.isSigned <;> rfl) h
  | mod => exact turns_divided .mod .mod hx hy (fun a b => by cases p.isSigned <;> rfl) h
  | shiftLeft =>
    cases h
    exact turns_integer hx hy (by rw [IntegerOp.apply, shift])
  | shiftRight =>
    cases h
    exact turns_integer hx hy (by rw [IntegerOp.apply, shift])
  | bitAnd =>
    cases h
    exact turns_integer hx hy rfl
  | bitOr =>
    cases h
    exact turns_integer hx hy rfl
  | bitXor =>
    cases h
    exact turns_integer hx hy rfl
  | and =>
    cases h
    exact turns_integer hx hy rfl
  | or =>
    cases h
    exact turns_integer hx hy rfl
  | eq =>
    cases h
    exact turns_compare hx hy (by rcases Evaluation.order p x y with _ | _ | _ | _ <;> rfl)
  | ne =>
    cases h
    exact turns_compare hx hy (by rcases Evaluation.order p x y with _ | _ | _ | _ <;> rfl)
  | lt =>
    cases h
    exact turns_compare hx hy (by rcases Evaluation.order p x y with _ | _ | _ | _ <;> rfl)
  | le =>
    cases h
    exact turns_compare hx hy (by rcases Evaluation.order p x y with _ | _ | _ | _ <;> rfl)
  | gt =>
    cases h
    exact turns_compare hx hy (by rcases Evaluation.order p x y with _ | _ | _ | _ <;> rfl)
  | ge =>
    cases h
    exact turns_compare hx hy (by rcases Evaluation.order p x y with _ | _ | _ | _ <;> rfl)

/-- The only operators that fail divide by zero, and there the machine faults. -/
theorem faults_binary (op : BinaryOp) (hx : x.length = p.size) (hy : y.length = p.size)
    {e : Evaluation.Ending} (h : Evaluation.binary op p x y = .error e) :
    e = .divisionByZero ∧
      Meets ((operation (Generate.binaryOpcode op p) p).step capacity data)
        (.ofList (base ++ x ++ y)) (fun _ _ => False) (fun f => f = .fault .divisionByZero) := by
  cases op with
  | div => exact faults_divided .div .div hx hy (fun a b => by cases p.isSigned <;> rfl) h
  | mod => exact faults_divided .mod .mod hx hy (fun a b => by cases p.isSigned <;> rfl) h
  | _ => cases h

/-- A unary operator has the result of its evaluation on the value on the stack. -/
theorem turns_unary (op : UnaryOp) (hx : x.length = p.size) :
    (operation (Generate.unaryOpcode op p) p).Turns capacity data (base ++ x)
      (base ++ Evaluation.unary op p x) := by
  have step : ∀ op : StepOp,
      (operation (if p.isFloat then .floatStep op else .integerStep op) p).Turns capacity data
        (base ++ x) (base ++ if p.isFloat then
          Evaluation.ofFloat p (op.applyFloat (Evaluation.float p x))
          else Bytes.ofWord (op.applyWord (Evaluation.word p x))) := by
    intro op
    cases hf : p.isFloat with
    | true =>
      exact flows_of_perform (opcode?_operation ..)
        (meets_floatStep (width_operation _ p) (Primitive.float_width hf) hx)
    | false =>
      exact flows_of_perform (opcode?_operation ..)
        (meets_integerStep (width_operation _ p) p.word_width hx)
  cases op with
  | neg => exact step .neg
  | inc => exact step .inc
  | dec => exact step .dec
  | not =>
    exact flows_of_perform (opcode?_operation ..)
      (meets_not (width_operation .not p) p.word_width hx)

end Lowering

namespace Conversion

open Exec Instruction

variable {capacity : Nat} {data : Bytes} {base x : Bytes} {p q : Primitive}

theorem bound_eq (q : Primitive) :
    ((1 <<< (8 * q.size) : Nat) : Int) = (2 : Int) * (1 <<< (8 * q.size - 1) : Nat) := by
  cases q <;> decide

theorem width_paired_size (op : Opcode) (p q : Primitive) :
    (paired op p.size q.size).width.toNat = p.size :=
  width_paired op _ (by have := p.size_le; omega)

theorem second_paired_size (op : Opcode) (p q : Primitive) :
    (paired op p.size q.size).second = q.size :=
  second_paired op _ (by have := q.size_le; omega)

/-- Resizing an integer keeps its low bytes, and extends it with its sign or with zeros. -/
theorem turns_resize {i : Instruction} (h : Conversion.widenInteger.instruction? p q = some i)
    (hx : x.length = p.size) :
    i.Turns capacity data (base ++ x) (base ++ Evaluation.convert .widenInteger p q x) := by
  have hp := p.size_le
  have hq := q.size_le
  simp only [instruction?, Option.some.injEq] at h
  subst h
  simp only [Evaluation.convert, Evaluation.word]
  by_cases hlt : p.size < q.size
  · rw [if_pos hlt]
    cases hs : p.isSigned with
    | true =>
      exact flows_of_perform (opcode?_paired ..) (meets_signExtend (width_paired_size ..)
        (second_paired_size ..) p.word_width q.word_width hx)
    | false =>
      simp only [Bool.false_eq_true, if_false]
      rw [← hx] at hlt
      rw [← hx, Bytes.ofWord_setWidth_of_le (by omega), ← List.append_assoc]
      exact turns_pushZero (by omega)
  · rw [if_neg hlt]
    have hle : q.size ≤ p.size := by omega
    have ht : (if p.isSigned then (Bytes.toWord p.size x).signExtend (8 * q.size)
        else (Bytes.toWord p.size x).setWidth (8 * q.size)) =
        (Bytes.toWord p.size x).setWidth (8 * q.size) := by
      split
      · exact BitVec.signExtend_eq_setWidth_of_le _ (by omega)
      · rfl
    rw [ht, ← hx, Bytes.ofWord_setWidth_of_ge (by omega)]
    have hd : (x.drop q.size).length = x.length - q.size := List.length_drop
    have drop : (worded .pop (x.drop q.size).length).Turns capacity data
        (base ++ x.take q.size ++ x.drop q.size) (base ++ x.take q.size) := turns_pop (by omega)
    rw [List.append_assoc, List.take_append_drop, hd] at drop
    exact drop

/-- The instruction of a conversion has the result of the conversion on the value on the stack. -/
theorem turns_convert {c : Conversion} (suits : c.Suits p q) {i : Instruction}
    (h : c.instruction? p q = some i) (hx : x.length = p.size) :
    i.Turns capacity data (base ++ x) (base ++ Evaluation.convert c p q x) := by
  cases c with
  | unneeded => exact suits.elim
  | impossible => exact suits.elim
  | widenInteger => exact turns_resize h hx
  | resizeInteger => exact turns_resize h hx
  | widenFloat =>
    cases h
    exact flows_of_perform (opcode?_paired ..) (meets_floatToFloat (width_paired_size ..)
      (second_paired_size ..) (Primitive.float_width suits.1) (Primitive.float_width suits.2) hx)
  | narrowFloat =>
    cases h
    exact flows_of_perform (opcode?_paired ..) (meets_floatToFloat (width_paired_size ..)
      (second_paired_size ..) (Primitive.float_width suits.1) (Primitive.float_width suits.2) hx)
  | integerToFloat =>
    cases h
    simp only [Evaluation.convert, Evaluation.number]
    split
    · exact flows_of_perform (opcode?_paired ..) (meets_signedToFloat (width_paired_size ..)
        (second_paired_size ..) p.word_width (Primitive.float_width suits) hx)
    · exact flows_of_perform (opcode?_paired ..) (meets_unsignedToFloat (width_paired_size ..)
        (second_paired_size ..) p.word_width (Primitive.float_width suits) hx)
  | floatToInteger =>
    cases h
    simp only [Evaluation.convert]
    split
    · exact flows_of_perform (opcode?_paired ..) (meets_floatToSigned (width_paired_size ..)
        (second_paired_size ..) (Primitive.float_width suits) q.word_width hx)
    · rw [← bound_eq q]
      exact flows_of_perform (opcode?_paired ..) (meets_floatToUnsigned (width_paired_size ..)
        (second_paired_size ..) (Primitive.float_width suits) q.word_width hx)

end Conversion

end Bytescript
