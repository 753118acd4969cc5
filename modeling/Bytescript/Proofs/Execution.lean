import Mathlib
import Bytescript.Machine.Run
import Bytescript.Proofs.Lowering

/-!
# What instructions do to the stack

Work on the stack is described by its outcome: a property of its value and of the stack that it
leaves, or of the reason why it stops. An instruction that succeeds continues with the next one, or
at its target.
-/
namespace Bytescript

namespace Exec

variable {α β : Type}

/-- Run on the stack `s`, the work ends in a value and a stack that satisfy `Q`, or stops for a
reason that satisfies `E`. -/
def Meets (m : Exec α) (s : Stack) (Q : α → Stack → Prop) (E : Stop → Prop) : Prop :=
  match m.run.run s with
  | (.ok a, t) => Q a t
  | (.error f, _) => E f

variable {Q : α → Stack → Prop} {E : Stop → Prop} {s : Stack} {m : Exec α} {capacity : Nat}

@[simp] theorem meets_pure {a : α} : Meets (pure a) s Q E ↔ Q a s := Iff.rfl

@[simp] theorem meets_throw {f : Stop} : Meets (throw f) s Q E ↔ E f := Iff.rfl

@[simp] theorem meets_bind {f : α → Exec β} {R : β → Stack → Prop} :
    Meets (m >>= f) s R E ↔ Meets m s (fun a t => Meets (f a) t R E) E := by
  change Meets (ExceptT.mk (StateT.bind m (ExceptT.bindCont f))) s R E ↔ _
  simp only [Meets, ExceptT.run, ExceptT.mk, StateT.run, StateT.bind, bind]
  rcases m s with ⟨r, t⟩
  cases r <;> rfl

@[simp] theorem meets_get {Q : Stack → Stack → Prop} : Meets get s Q E ↔ Q s s := Iff.rfl

@[simp] theorem meets_modify {f : Stack → Stack} {Q : Unit → Stack → Prop} :
    Meets (modify f) s Q E ↔ Q () (f s) := Iff.rfl

@[simp] theorem meets_modifyGet {f : Stack → α × Stack} :
    Meets (modifyGet f) s Q E ↔ Q (f s).1 (f s).2 := Iff.rfl

@[simp] theorem meets_ite {c : Prop} [Decidable c] {n : Exec α} :
    Meets (if c then m else n) s Q E ↔ if c then Meets m s Q E else Meets n s Q E := by
  split <;> rfl

@[simp] theorem meets_reserve {n : Nat} {Q : Unit → Stack → Prop} :
    Meets (reserve capacity n) s Q E ↔
      if capacity < s.size + n then E (.fault (.stackOverflow (s.size + n) capacity))
      else Q () s := by
  simp [reserve]

@[simp] theorem meets_require {n : Nat} {Q : Unit → Stack → Prop} :
    Meets (require n) s Q E ↔
      if s.size < n then E (.fault (.stackUnderflow n s.size)) else Q () s := by
  simp [require]

@[simp] theorem meets_push {bs : Bytes} {Q : Unit → Stack → Prop} :
    Meets (push capacity bs) s Q E ↔
      if capacity < s.size + bs.length then
        E (.fault (.stackOverflow (s.size + bs.length) capacity))
      else Q () (s.push bs) := by
  simp [push]

@[simp] theorem meets_pop {n : Nat} {Q : Bytes → Stack → Prop} :
    Meets (pop n) s Q E ↔
      if s.size < n then E (.fault (.stackUnderflow n s.size))
      else Q (s.slice (s.size - n) n) (s.keep (s.size - n)) := by
  simp [pop]

@[simp] theorem meets_checkWordWidth {w : Nat} {Q : Unit → Stack → Prop} :
    Meets (checkWordWidth w) s Q E ↔
      if w = 0 ∨ maxWidth < w then E (.fault (.badWidth w)) else Q () s := by
  simp [checkWordWidth]

@[simp] theorem meets_checkFloatWidth {w : Nat} {Q : Unit → Stack → Prop} :
    Meets (checkFloatWidth w) s Q E ↔
      if w = 2 ∨ w = 4 ∨ w = 8 then Q () s else E (.fault (.badWidth w)) := by
  simp [checkFloatWidth]

@[simp] theorem meets_popWord {w : Nat} {Q : BitVec (8 * w) → Stack → Prop} :
    Meets (popWord w) s Q E ↔
      if w = 0 ∨ maxWidth < w then E (.fault (.badWidth w))
      else if s.size < w then E (.fault (.stackUnderflow w s.size))
      else Q (Bytes.toWord w (s.slice (s.size - w) w)) (s.keep (s.size - w)) := by
  simp only [popWord, meets_bind, meets_checkWordWidth, meets_pop, meets_pure]

@[simp] theorem meets_pushWord {w : Nat} {x : BitVec (8 * w)} {Q : Unit → Stack → Prop} :
    Meets (pushWord capacity x) s Q E ↔
      if w = 0 ∨ maxWidth < w then E (.fault (.badWidth w))
      else if capacity < s.size + w then E (.fault (.stackOverflow (s.size + w) capacity))
      else Q () (s.push (Bytes.ofWord x)) := by
  simp only [pushWord, meets_bind, meets_checkWordWidth, meets_push, Bytes.length_ofWord]

@[simp] theorem meets_popFloat {w : Nat} {Q : Floating.Value → Stack → Prop} :
    Meets (popFloat w) s Q E ↔
      if w = 2 ∨ w = 4 ∨ w = 8 then
        if s.size < w then E (.fault (.stackUnderflow w s.size))
        else Q (Floating.load w (Bytes.toNat (s.slice (s.size - w) w))) (s.keep (s.size - w))
      else E (.fault (.badWidth w)) := by
  simp only [popFloat, meets_bind, meets_checkFloatWidth, meets_pop, meets_pure]

@[simp] theorem meets_pushFloat {w : Nat} {v : Floating.Value} {Q : Unit → Stack → Prop} :
    Meets (pushFloat capacity w v) s Q E ↔
      if w = 2 ∨ w = 4 ∨ w = 8 then
        if capacity < s.size + w then E (.fault (.stackOverflow (s.size + w) capacity))
        else Q () (s.push (Bytes.ofNat w (Floating.store w v)))
      else E (.fault (.badWidth w)) := by
  simp only [pushFloat, meets_bind, meets_checkFloatWidth, meets_push, Bytes.length_ofNat]

theorem Meets.mono {P : α → Stack → Prop} (h : Meets m s P E) (hq : ∀ a t, P a t → Q a t) :
    Meets m s Q E := by
  unfold Meets at *
  split <;> simp_all

end Exec

namespace Instruction

open Exec

/-- The index that an instruction may jump to. -/
def target? (i : Instruction) : Option Nat :=
  match i.opcode? with
  | some .jump | some .jumpIfFalse => some i.word.toNat
  | _ => none

def Aims (i : Instruction) (x : Exec Flow) : Prop :=
  ∀ s, Meets x s (fun flow _ => ∀ t, flow = .goto t → i.target? = some t) fun _ => True

theorem aims_bind {α : Type} {i : Instruction} {x : Exec α} {f : α → Exec Flow}
    (h : ∀ a, i.Aims (f a)) : i.Aims (x >>= f) := by
  intro s
  have hx : Meets x s (fun _ _ => True) fun _ => True := by
    unfold Meets
    split <;> trivial
  rw [meets_bind]
  exact hx.mono fun a t _ => h a t

theorem aims_next {i : Instruction} : i.Aims (pure .next) := by
  intro s t ht
  cases ht

theorem aims_perform (capacity : Nat) (data : Bytes) {i : Instruction} {op : Opcode}
    (h : i.opcode? = some op) : i.Aims (i.perform capacity data op) := by
  cases op with
  | halt =>
    intro s t ht
    cases ht
  | debug => exact aims_next
  | jump =>
    intro s t ht
    cases ht
    simp [target?, h]
  | jumpIfFalse =>
    refine aims_bind fun c s t ht => ?_
    split at ht
    · cases ht
      simp [target?, h]
    · cases ht
  | pushData =>
    simp only [perform]
    split
    · exact fun _ => trivial
    · exact aims_bind fun _ => aims_next
  | pushStack =>
    refine aims_bind fun s => ?_
    split
    · exact aims_bind fun _ => aims_bind fun _ => aims_bind fun _ => aims_next
    · exact aims_bind fun _ => aims_bind fun _ => aims_next
  | assign =>
    refine aims_bind fun _ => aims_bind fun s => ?_
    split
    · exact aims_bind fun _ => aims_bind fun _ => aims_bind fun _ => aims_next
    · exact aims_bind fun _ => aims_bind fun _ => aims_next
  | pushZero => exact aims_bind fun _ => aims_bind fun _ => aims_next
  | pop => exact aims_bind fun _ => aims_bind fun _ => aims_next
  | pushHandle =>
    simp only [perform]
    split
    · exact aims_bind fun _ => aims_bind fun _ => aims_next
    · exact aims_bind fun _ => aims_next
  | floatToFloat => exact aims_bind fun _ => aims_bind fun _ => aims_next
  | signedToFloat => exact aims_bind fun _ => aims_bind fun _ => aims_next
  | unsignedToFloat => exact aims_bind fun _ => aims_bind fun _ => aims_next
  | floatToSigned =>
    refine aims_bind fun _ => ?_
    split
    · exact aims_bind fun _ => aims_bind fun _ => aims_bind fun _ => aims_next
    · exact aims_bind fun _ => aims_bind fun _ => aims_next
  | floatToUnsigned => exact aims_bind fun _ => aims_bind fun _ => aims_bind fun _ => aims_next
  | signExtend => exact aims_bind fun _ => aims_bind fun _ => aims_bind fun _ => aims_next
  | integer op =>
    refine aims_bind fun _ => aims_bind fun _ => ?_
    split
    · exact fun _ => trivial
    · exact aims_bind fun _ => aims_next
  | float op => exact aims_bind fun _ => aims_bind fun _ => aims_bind fun _ => aims_next
  | compare relation => exact aims_bind fun _ => aims_bind fun _ => aims_next
  | integerStep op => exact aims_bind fun _ => aims_bind fun _ => aims_next
  | floatStep op => exact aims_bind fun _ => aims_bind fun _ => aims_next
  | not => exact aims_bind fun _ => aims_bind fun _ => aims_next

/-- A step that succeeds jumps at most to the target of its instruction. -/
theorem step_aims {capacity : Nat} {data : Bytes} {i : Instruction} {s t : Stack} {flow : Flow}
    (h : (i.step capacity data).run.run s = (.ok flow, t)) :
    ∀ target, flow = .goto target → i.target? = some target := by
  unfold step at h
  split at h
  · cases h
  · next op hop =>
    have aimed := aims_perform capacity data hop s
    unfold Meets at aimed
    rwa [h] at aimed

end Instruction

end Bytescript
