import Mathlib
import Bytescript.Proofs.Footprint
import Bytescript.Proofs.Operations
import Bytescript.Proofs.RegisterWords

/-!
# Steps on registers stay in range

On registers a step has the outcome that it has on integers of their own widths, without an
operation out of range, for every instruction: an unsupported width is rejected before anything is
computed from it. There is one exception. A conversion of a float to a signed integer computes the
bounds of the integer before its width is checked, and for a width of zero the sign bit has a
negative index.
-/
namespace Bytescript.Registers

variable {α β γ δ : Type} {mode : Arithmetic} {s : Stack}

theorem run_pure (a : α) : (pure a : Guarded α).run.run s = .ok (.ok a, s) := rfl

theorem run_get : (get : Guarded Stack).run.run s = .ok (.ok s, s) := rfl

theorem run_modify (f : Stack → Stack) : (modify f : Guarded Unit).run.run s = .ok (.ok (), f s) :=
  rfl

theorem run_bind (g : Guarded α) (k : α → Guarded β) :
    (g >>= k).run.run s =
      match g.run.run s with
      | .error d => .error d
      | .ok (.error f, t) => .ok (.error f, t)
      | .ok (.ok a, t) => (k a).run.run t := by
  change (ExceptT.mk (StateT.bind g (ExceptT.bindCont k))) s = _
  simp only [ExceptT.run, ExceptT.mk, StateT.run, StateT.bind, bind, Except.bind]
  rcases g s with d | ⟨r, t⟩
  · rfl
  · cases r <;> rfl

/-- Work on registers has no defect and work of the machine does not panic; both end in the same
fault or in values related by `φ`, and leave the same stack. -/
def Agrees (φ : α → β) (g : Guarded β) (x : Exec α) (s : Stack) : Prop :=
  ∃ (r : Except Fault.Cause α) (t : Stack),
    x.run.run s = (r.mapError .fault, t) ∧ g.run.run s = .ok (r.map φ, t)

theorem agrees_pure (φ : α → β) (a : α) : Agrees φ (pure (φ a)) (pure a) s :=
  ⟨.ok a, s, rfl, rfl⟩

theorem agrees_throw (φ : α → β) (f : Fault.Cause) :
    Agrees φ (throw f) (throw (.fault f)) s :=
  ⟨.error f, s, rfl, rfl⟩

theorem agrees_get : Agrees id (get : Guarded Stack) (get : Exec Stack) s :=
  ⟨.ok s, s, rfl, rfl⟩

theorem agrees_modify (f : Stack → Stack) :
    Agrees id (modify f : Guarded Unit) (modify f : Exec Unit) s :=
  ⟨.ok (), f s, rfl, rfl⟩

theorem Agrees.run_of_ok {φ : α → β} {g : Guarded β} {x : Exec α} (h : Agrees φ g x s) {a : α}
    {t : Stack} (ok : x.run.run s = (.ok a, t)) : g.run.run s = .ok (.ok (φ a), t) := by
  obtain ⟨r, u, hx, hg⟩ := h
  rw [hx] at ok
  cases r with
  | error f => cases ok
  | ok b =>
    cases ok
    exact hg

theorem mapError_fault_injective {r r' : Except Fault.Cause α}
    (h : r.mapError Stop.fault = r'.mapError Stop.fault) : r = r' := by
  cases r <;> cases r' <;> cases h <;> rfl

/-- Works that agree, one after the other. -/
theorem Agrees.bind {φ : α → β} {g : Guarded β} {x : Exec α} {ψ : γ → δ} {k : β → Guarded δ}
    {f : α → Exec γ} (first : Agrees φ g x s)
    (second : x.Meets s (fun a t => Agrees ψ (k (φ a)) (f a) t) fun _ => True) :
    Agrees ψ (g >>= k) (x >>= f) s := by
  obtain ⟨r, t, hx, hg⟩ := first
  unfold Exec.Meets at second
  rw [hx] at second
  unfold Agrees
  rw [run_bind, Exec.run_bind, hx, hg]
  cases r with
  | error f => exact ⟨.error f, t, rfl, rfl⟩
  | ok a => exact second

theorem Agrees.returning {g : Guarded α} {x : Exec α} (h : Agrees id g x s) (b : β) :
    Agrees id (do let _ ← g; return b) (do let _ ← x; return b) s := by
  refine h.bind ?_
  unfold Exec.Meets
  split
  · exact agrees_pure id b
  · trivial

section Stack

variable {capacity w : Nat}

theorem checkWordWidth_of (h : 0 < w ∧ w ≤ 16) : Exec.checkWordWidth w = pure () :=
  if_neg (by unfold Exec.maxWidth; omega)

theorem checkWordWidth_of_not (h : ¬(0 < w ∧ w ≤ 16)) :
    Exec.checkWordWidth w = throw (.fault (.badWidth w)) :=
  if_pos (by unfold Exec.maxWidth; omega)

theorem agrees_reserve {n : Nat} (small : s.size + n < 2 ^ 64) :
    Agrees id (reserve mode capacity n) (Exec.reserve capacity n) s := by
  unfold Agrees reserve
  rw [Exec.run_reserve, run_bind, run_get]
  simp only [add, settle_of small, pure_bind]
  split
  · exact ⟨.error _, s, rfl, rfl⟩
  · exact ⟨.ok (), s, rfl, rfl⟩

theorem agrees_push (small : s.size < 2 ^ 63) {bs : Bytes} {n : Nat} (length : bs.length = n)
    (short : n < 65536) :
    Agrees id (do
      reserve mode capacity n
      modify fun s => s.push bs) (Exec.push capacity bs) s := by
  unfold Exec.push
  rw [length]
  refine (agrees_reserve (by omega)).bind (Exec.meets_reserve.mpr ?_)
  split_ifs
  exact agrees_modify _

theorem run_top {n : Nat} (k : Nat → Bytes → Guarded α) :
    (do
      let start ← startOfTop n
      let bs ← bytesFrom start
      k start bs).run.run s =
      if s.size < n then .ok (.error (.stackUnderflow n s.size), s)
      else (k (s.size - n) (s.slice (s.size - n) n)).run.run s := by
  simp only [startOfTop, bytesFrom, run_bind, run_get]
  split_ifs with short
  · rfl
  · have all : s.size - (s.size - n) = n := by omega
    simp only [run_pure, ensure_of (Nat.sub_le _ _), all]

theorem agrees_top {φ : α → β} {n : Nat} {k : Nat → Bytes → Guarded β} (f : Bytes → α)
    (h : ∀ start bs, bs.length = n → k start bs = do
      modify fun s => s.keep start
      return φ (f bs)) :
    Agrees φ (do
      let start ← startOfTop n
      let bs ← bytesFrom start
      k start bs) (do return f (← Exec.pop n)) s := by
  unfold Agrees
  rw [run_top]
  simp only [Exec.pop, Exec.run_bind, Exec.run_require]
  split_ifs with short
  · exact ⟨.error _, s, rfl, rfl⟩
  · rw [h _ _ (Stack.length_slice (by omega))]
    exact ⟨.ok _, _, rfl, rfl⟩

theorem fill_of (h : w ≤ 16) {bs : Bytes} (length : bs.length = w) :
    fill w bs = pure ((Bytes.toWord w bs).setWidth 128) := by
  have small := Bytes.toNat_lt bs
  rw [length, Nat.one_shiftLeft] at small
  unfold fill
  rw [ensure_of ⟨h, length⟩, pure_bind, Bytes.toNat_append_zeros]
  congr 1
  rw [← BitVec.toNat_inj, BitVec.toNat_setWidth, Bytes.toWord, BitVec.toNat_ofNat,
    BitVec.toNat_ofNat, Nat.mod_eq_of_lt small]

theorem lowest_of (h : w ≤ 16) (x : BitVec 128) :
    lowest w x = pure (Bytes.ofWord (x.setWidth (8 * w))) := by
  unfold lowest
  rw [ensure_of h, pure_bind, Bytes.take_ofNat h, Bytes.ofWord, BitVec.toNat_setWidth,
    Bytes.ofNat_mod]

theorem agrees_popInteger (w : Nat) (signed : Bool) :
    Agrees (widen signed) (popInteger mode w signed) (Exec.popWord w) s := by
  unfold popInteger Exec.popWord
  by_cases valid : 0 < w ∧ w ≤ 16
  · rw [checkWordWidth_of valid]
    refine agrees_top (Bytes.toWord w) fun start bs length => ?_
    rw [fill_of valid.2 length, pure_bind]
    congr 1
    funext _
    split_ifs with narrow
    · obtain ⟨rfl, narrow⟩ := narrow
      have room : 128 - 8 * w < 128 := by omega
      simp only [mul_eight (show w < 65536 by omega), pure_bind, sub, distance,
        settle_of (show 8 * w ≤ 128 by omega), settle_of room]
      rw [sshiftRight_shiftLeft (by omega) _ (by omega)]
    · cases signed with
      | false => rfl
      | true =>
        -- The widest integer fills the register and has no sign to repeat.
        obtain rfl : w = 16 := by simp at narrow; omega
        rw [← BitVec.signExtend_eq_setWidth_of_le _ (by decide)]
        rfl
  · rw [checkWordWidth_of_not valid]
    exact agrees_throw _ _

theorem agrees_pushInteger (small : s.size < 2 ^ 63) (x : BitVec 128) (w : Nat) :
    Agrees id (pushInteger mode capacity x w)
      (Exec.pushWord capacity (x.setWidth (8 * w))) s := by
  unfold pushInteger Exec.pushWord
  by_cases valid : 0 < w ∧ w ≤ 16
  · rw [checkWordWidth_of valid]
    simp only [lowest_of valid.2, pure_bind]
    exact agrees_push small (Bytes.length_ofWord _) (by omega)
  · rw [checkWordWidth_of_not valid]
    exact agrees_throw _ _

theorem agrees_popFloat (w : Nat) : Agrees id (popFloat w) (Exec.popFloat w) s := by
  unfold popFloat Exec.popFloat Exec.checkFloatWidth
  by_cases valid : w = 2 ∨ w = 4 ∨ w = 8
  · rw [if_pos valid]
    refine agrees_top (fun bs => Floating.load w (Bytes.toNat bs)) fun start bs length => ?_
    have whole : if w = 8 then bs.length = w else w ≤ bs.length := by
      split <;> omega
    rw [ensure_of whole, List.take_of_length_le (by omega)]
    rfl
  · rw [if_neg valid]
    exact agrees_throw _ _

theorem agrees_pushFloat (small : s.size < 2 ^ 63) (w : Nat) (v : Floating.Value) :
    Agrees id (pushFloat mode capacity w v) (Exec.pushFloat capacity w v) s := by
  unfold pushFloat Exec.pushFloat Exec.checkFloatWidth
  split_ifs
  · exact agrees_push small (Bytes.length_ofNat _ _) (by omega)
  · exact agrees_throw _ _

theorem meets_popWord_of {Q : BitVec (8 * w) → Stack → Prop}
    (h : 0 < w → w ≤ 16 → ∀ x t, t.size ≤ s.size → Q x t) :
    (Exec.popWord w).Meets s Q fun _ => True := by
  have widest : Exec.maxWidth = 16 := rfl
  rw [Exec.meets_popWord]
  split_ifs
  exact h (by omega) (by omega) _ _ (by rw [Stack.size_keep]; omega)

theorem meets_popFloat_of {Q : Floating.Value → Stack → Prop}
    (h : ∀ v t, t.size ≤ s.size → Q v t) : (Exec.popFloat w).Meets s Q fun _ => True := by
  rw [Exec.meets_popFloat]
  split_ifs
  exact h _ _ (by rw [Stack.size_keep]; omega)

end Stack

section Instructions

variable {capacity : Nat} {data : Bytes} {i : Instruction} {w : Nat}

theorem second_lt (i : Instruction) : i.second < 65536 := by
  have low := i.low.toNat_lt
  unfold Instruction.second
  omega

theorem agrees_popTwo {signed : Bool} {f : BitVec (8 * w) → BitVec (8 * w) → α}
    {g : BitVec 128 → BitVec 128 → α}
    (h : 8 * w ≤ 128 → ∀ x y, g (widen signed x) (widen signed y) = f x y) :
    Agrees id (do
      let y ← popInteger mode w signed
      let x ← popInteger mode w signed
      return g x y) (do
      let y ← Exec.popWord w
      let x ← Exec.popWord w
      return f x y) s := by
  refine (agrees_popInteger w signed).bind (meets_popWord_of fun _ _ y t _ => ?_)
  refine (agrees_popInteger w signed).bind (meets_popWord_of fun _ upper x u _ => ?_)
  rw [h (by omega)]
  exact agrees_pure id _

theorem agrees_popOrder (kind : Option NumberKind) (w : Nat) :
    Agrees id (popOrder mode kind w) (Exec.popOrder kind w) s := by
  have unsigned :
      Agrees id (popOrder mode (some .unsigned) w) (Exec.popOrder (some .unsigned) w) s :=
    agrees_popTwo fun hn x y => by rw [toNat_widen hn, toNat_widen hn]
  match kind with
  | some .float =>
    refine (agrees_popFloat w).bind (meets_popFloat_of fun y t _ => ?_)
    exact (agrees_popFloat w).bind (meets_popFloat_of fun x u _ => agrees_pure id _)
  | some .signed => exact agrees_popTwo fun hn x y => by rw [toInt_widen hn, toInt_widen hn]
  | some .unsigned => exact unsigned
  | none => exact unsigned

theorem meets_popOrder_of {kind : Option NumberKind} {Q : Option Ordering → Stack → Prop}
    (h : ∀ order t, t.size ≤ s.size → Q order t) :
    (Exec.popOrder kind w).Meets s Q fun _ => True := by
  have words (f : BitVec (8 * w) → BitVec (8 * w) → Option Ordering) :
      Exec.Meets (do
        let y ← Exec.popWord w
        let x ← Exec.popWord w
        return f x y) s Q fun _ => True :=
    Exec.meets_bind.mpr <| meets_popWord_of fun _ _ y t first =>
      Exec.meets_bind.mpr <| meets_popWord_of fun _ _ x u second => h _ _ (second.trans first)
  match kind with
  | some .float =>
    exact Exec.meets_bind.mpr <| meets_popFloat_of fun y t first =>
      Exec.meets_bind.mpr <| meets_popFloat_of fun x u second => h _ _ (second.trans first)
  | some .signed => exact words _
  | some .unsigned => exact words _
  | none => exact words _

/-- The width of an integer is checked before the integer is computed, and again when it is pushed.
-/
theorem agrees_pushChecked (small : s.size < 2 ^ 63) {x : BitVec 128} {y : BitVec (8 * w)}
    (h : 0 < w ∧ w ≤ 16 → x.setWidth (8 * w) = y) (b : β) :
    Agrees id (do
      pushInteger mode capacity x w
      return b) (do
      Exec.checkWordWidth w
      Exec.pushWord capacity y
      return b) s := by
  by_cases valid : 0 < w ∧ w ≤ 16
  · rw [checkWordWidth_of valid, pure_bind, ← h valid]
    exact (agrees_pushInteger small x w).returning b
  · unfold pushInteger
    rw [checkWordWidth_of_not valid]
    exact agrees_throw _ _

/-- An assignment writes below the bytes that it pops, so it does not matter whether it pops them
first. -/
theorem keep_overwrite {start n : Nat} {bs : Bytes} (inside : n + bs.length ≤ start)
    (h : start ≤ s.size) : (s.overwrite n bs).keep start = (s.keep start).overwrite n bs := by
  have kept : n + bs.length ≤ (s.keep start).size := by
    rw [Stack.size_keep]
    omega
  rw [← Stack.toList_inj, Stack.toList_keep, Stack.toList_overwrite _ _ _ (by omega),
    Stack.toList_overwrite _ _ _ kept, Stack.toList_keep]
  unfold Bytes.overwrite
  rw [List.take_append, List.take_of_length_le (by simp; omega), List.take_take,
    Nat.min_eq_left (by omega), List.drop_take]
  congr 2
  rw [List.length_append, List.length_take, Stack.length_toList]
  omega

theorem agrees_assign (fits : i.word.toNat + i.width.toNat < 2 ^ 64) :
    Agrees id (perform mode capacity data i .assign) (i.perform capacity data .assign) s := by
  unfold Agrees
  rw [Instruction.run_assign]
  simp only [perform, startOfTop, run_bind, run_get]
  split_ifs with short outside
  · exact ⟨.error _, s, rfl, rfl⟩
  · simp only [run_pure, add, settle_of fits, if_pos outside]
    exact ⟨.error _, s, rfl, rfl⟩
  · have length : (s.slice (s.size - i.width.toNat) i.width.toNat).length = i.width.toNat :=
      Stack.length_slice (by omega)
    have all : s.size - (s.size - i.width.toNat) = i.width.toNat := by omega
    have within : i.word.toNat + (s.slice (s.size - i.width.toNat) i.width.toNat).length ≤
        s.size := by omega
    simp only [run_pure, add, settle_of fits, if_neg outside, bytesFrom, run_bind, run_get,
      ensure_of (Nat.sub_le _ _), all, ensure_of within, run_modify]
    rw [keep_overwrite (by omega) (by omega)]
    exact ⟨.ok _, _, rfl, rfl⟩

def Given (i : Instruction) (s : Stack) : Prop :=
  (i.width.toNat = 2 ∨ i.width.toNat = 4 ∨ i.width.toNat = 8) ∧ i.width.toNat ≤ s.size

/-- An operation on registers agrees with that of the machine, except for the conversion of a float
to a signed integer of width zero. -/
theorem agrees_perform (small : s.size < 2 ^ 63) (op : Opcode)
    (fine : op = .floatToSigned → i.second = 0 → ¬Given i s) :
    Agrees id (perform mode capacity data i op) (i.perform capacity data op) s := by
  have hw : i.width.toNat < 65536 := i.width.toNat_lt
  have hv : i.word.toNat < 4294967296 := i.word.toNat_lt
  have fits : i.word.toNat + i.width.toNat < 2 ^ 64 := by omega
  cases op with
  | halt => exact agrees_pure id _
  | debug => exact agrees_pure id _
  | jump => exact agrees_pure id _
  | jumpIfFalse =>
    refine (agrees_popInteger 1 false).bind (meets_popWord_of fun _ _ x t _ => ?_)
    simp only [widen_eq_zero_iff (show 8 * 1 ≤ 128 by decide)]
    exact agrees_pure id _
  | pushData =>
    simp only [perform, Instruction.perform, add, settle_of fits, pure_bind,
      Nat.add_sub_cancel_left]
    cases part : Bytes.slice? data i.word.toNat i.width.toNat with
    | none => exact agrees_throw _ _
    | some bs =>
      obtain ⟨inside, rfl⟩ := Bytes.slice?_eq_some_iff.mp part
      have length : ((data.drop i.word.toNat).take i.width.toNat).length = i.width.toNat := by
        rw [List.length_take, List.length_drop]
        omega
      dsimp only
      rw [← bind_assoc]
      exact (agrees_push small length hw).returning _
  | pushStack =>
    refine (agrees_get).bind (Exec.meets_get.mpr ?_)
    simp only [id, add, settle_of fits, pure_bind]
    split_ifs with outside
    · exact agrees_throw _ _
    · refine (agrees_reserve (by omega)).bind (Exec.meets_reserve.mpr ?_)
      split_ifs
      rw [ensure_of ⟨by omega, by omega⟩, Nat.add_sub_cancel_left]
      exact ⟨.ok _, _, rfl, rfl⟩
  | assign => exact agrees_assign fits
  | pushZero =>
    refine (agrees_reserve (by omega)).bind (Exec.meets_reserve.mpr ?_)
    split_ifs
    have fits : s.size + i.word.toNat < 2 ^ 64 := by omega
    unfold Agrees
    simp only [run_bind, run_get, add, settle_of fits, run_pure, run_modify,
      Nat.add_sub_cancel_left]
    exact ⟨.ok _, _, rfl, rfl⟩
  | pop =>
    unfold Agrees
    simp only [perform, Instruction.perform, startOfTop, run_bind, run_get, Exec.run_bind,
      Exec.run_require]
    split_ifs
    · exact ⟨.error _, s, rfl, rfl⟩
    · exact ⟨.ok _, _, rfl, rfl⟩
  | pushHandle =>
    simp only [perform, Instruction.perform]
    split_ifs with outside
    · exact agrees_throw _ _
    · rw [← bind_assoc]
      exact (agrees_push small (Bytes.length_ofNat _ _) (by decide)).returning _
  | floatToFloat =>
    exact (agrees_popFloat _).bind (meets_popFloat_of fun v t smaller =>
      (agrees_pushFloat (by omega) _ v).returning _)
  | signedToFloat =>
    refine (agrees_popInteger _ true).bind (meets_popWord_of fun _ upper x t smaller => ?_)
    simp only [toInt_widen (show 8 * i.width.toNat ≤ 128 by omega)]
    exact (agrees_pushFloat (by omega) _ _).returning _
  | unsignedToFloat =>
    refine (agrees_popInteger _ false).bind (meets_popWord_of fun _ upper x t smaller => ?_)
    simp only [toNat_widen (show 8 * i.width.toNat ≤ 128 by omega)]
    exact (agrees_pushFloat (by omega) _ _).returning _
  | floatToSigned =>
    by_cases zero : i.second = 0
    · refine (agrees_popFloat _).bind (Exec.meets_popFloat.mpr ?_)
      rw [ite_eq_right_iff.mpr fun valid => if_pos (by_contra fun short => ?_)]
      · trivial
      · exact fine rfl zero ⟨valid, by omega⟩
    · refine (agrees_popFloat _).bind (meets_popFloat_of fun v t smaller => ?_)
      obtain ⟨z, run, bits⟩ : ∃ z, saturateSigned mode v i.second = pure z ∧ _ :=
        saturateSigned_eq v (second_lt i) fun none => absurd none zero
      simp only [id, run, pure_bind, if_neg zero]
      exact agrees_pushChecked (by omega) bits _
  | floatToUnsigned =>
    refine (agrees_popFloat _).bind (meets_popFloat_of fun v t smaller => ?_)
    obtain ⟨z, run, bits⟩ : ∃ z, saturateUnsigned mode v i.second = pure z ∧ _ :=
      saturateUnsigned_eq v (second_lt i)
    simp only [id, run, pure_bind]
    exact agrees_pushChecked (by omega) bits _
  | signExtend =>
    refine (agrees_popInteger _ true).bind (meets_popWord_of fun _ upper x t smaller => ?_)
    exact agrees_pushChecked (by omega) (fun _ => setWidth_widen_true (by omega) (by omega) x) _
  | integer op =>
    refine (agrees_popInteger _ _).bind (meets_popWord_of fun _ _ y t first => ?_)
    refine (agrees_popInteger _ _).bind (meets_popWord_of fun positive upper x u second => ?_)
    obtain ⟨r, run, result⟩ : ∃ r, operate mode _ _ _ (widen _ x) (widen _ y) = pure r ∧ _ :=
      operate_widen op (i.kind? == some .signed) ⟨positive, upper⟩ x y
    simp only [run, pure_bind, ← result]
    cases r with
    | none => exact agrees_throw _ _
    | some z => exact (agrees_pushInteger (by omega) z _).returning _
  | float op =>
    refine (agrees_popFloat _).bind (meets_popFloat_of fun y t first => ?_)
    exact (agrees_popFloat _).bind (meets_popFloat_of fun x u second =>
      (agrees_pushFloat (by omega) _ _).returning _)
  | compare relation =>
    refine (agrees_popOrder _ _).bind (meets_popOrder_of fun order t smaller => ?_)
    have bit : ∀ b : Bool, [b.toNat.toUInt8] =
        Bytes.ofWord ((BitVec.ofNat 128 b.toNat).setWidth (8 * 1)) := by decide
    simp only [bit]
    exact (agrees_pushInteger (by omega) _ 1).returning _
  | integerStep op =>
    refine (agrees_popInteger _ _).bind (meets_popWord_of fun positive upper x t smaller => ?_)
    simp only [← setWidth_stepOperate op (i.kind? == some .signed) ⟨positive, upper⟩ x]
    exact (agrees_pushInteger (by omega) _ _).returning _
  | floatStep op =>
    exact (agrees_popFloat _).bind (meets_popFloat_of fun x t smaller =>
      (agrees_pushFloat (by omega) _ _).returning _)
  | not =>
    refine (agrees_popInteger _ false).bind (meets_popWord_of fun positive upper x t smaller => ?_)
    have hn : 8 * i.width.toNat ≤ 128 := by omega
    have zero : (widen false x == 0) = (x == 0) := by
      rw [Bool.eq_iff_iff, beq_iff_eq, beq_iff_eq, widen_eq_zero_iff hn]
    simp only [zero, ← BitVec.setWidth_ofNat_of_le hn (x == 0).toNat]
    exact (agrees_pushInteger (by omega) _ _).returning _

theorem run_popFloat_of_given (given : Given i s) :
    ∃ v, (Exec.popFloat i.width.toNat).run.run s =
      (.ok v, s.keep (s.size - i.width.toNat)) := by
  simp only [Exec.popFloat, Exec.checkFloatWidth, if_pos given.1, Exec.pop, pure_bind,
    Exec.run_bind, Exec.run_require, if_neg (Nat.not_lt.mpr given.2)]
  exact ⟨_, rfl⟩

/-- A conversion to width zero, with its operand present, subtracts below zero. -/
theorem run_floatToSigned_zero (given : Given i s) (zero : i.second = 0) :
    (i.perform capacity data .floatToSigned).run.run s =
        (.error (.panic .subtraction), s.keep (s.size - i.width.toNat)) ∧
      (perform .checked capacity data i .floatToSigned).run.run s = .error .overflow ∧
      (perform .wrapping capacity data i .floatToSigned).run.run s =
        .ok (.error (.badWidth 0), s.keep (s.size - i.width.toNat)) := by
  obtain ⟨v, taken⟩ := run_popFloat_of_given given
  have loaded := (agrees_popFloat i.width.toNat).run_of_ok taken
  obtain ⟨z, wrapped⟩ := saturateSigned_zero_wrapping v
  refine ⟨?_, ?_, ?_⟩
  · simp only [Instruction.perform, Exec.run_bind, taken, if_pos zero]
    rfl
  · simp only [perform, run_bind, loaded, zero]
    rfl
  · simp only [perform, run_bind, loaded, zero, id, wrapped]
    rfl

end Instructions

end Bytescript.Registers

namespace Bytescript.Instruction

/-- An instruction converts a float that is present to a signed integer of width zero. -/
def Overdraws (i : Instruction) (s : Stack) : Prop :=
  i.opcode? = some .floatToSigned ∧ i.second = 0 ∧
    (i.width.toNat = 2 ∨ i.width.toNat = 4 ∨ i.width.toNat = 8) ∧ i.width.toNat ≤ s.size

instance (i : Instruction) (s : Stack) : Decidable (i.Overdraws s) :=
  inferInstanceAs (Decidable (_ ∧ _ ∧ _ ∧ _))

end Bytescript.Instruction

namespace Bytescript.Registers

/-- For every instruction, data section and capacity, and for every stack of less than 2 ^ 63 bytes:
a step on registers has the outcome of the step of the machine, a result or a fault, and no defect,
whether or not arithmetic wraps around. The only exception is the conversion of a float to a signed
integer of width zero. After it has popped its operand it subtracts below zero: the machine panics,
checked arithmetic stops, and wrapping arithmetic continues to a fault. -/
theorem step_in_range (capacity : Nat) (data : Bytes) (i : Instruction) {s : Stack}
    (small : s.size < 2 ^ 63) :
    if i.Overdraws s then
      (i.step capacity data).run.run s =
          (.error (.panic .subtraction), s.keep (s.size - i.width.toNat)) ∧
        (step .checked capacity data i).run.run s = .error .overflow ∧
        (step .wrapping capacity data i).run.run s =
          .ok (.error (.badWidth 0), s.keep (s.size - i.width.toNat))
    else
      ∃ (r : Except Fault.Cause Flow) (t : Stack),
        (i.step capacity data).run.run s = (r.mapError .fault, t) ∧
        ∀ mode, (step mode capacity data i).run.run s = .ok (r, t) := by
  have same (r : Except Fault.Cause Flow) : r.map id = r := by cases r <;> rfl
  unfold step Instruction.step
  cases hop : i.opcode? with
  | none =>
    rw [if_neg fun h => Option.some_ne_none _ (h.1.symm.trans hop)]
    exact ⟨.error (.invalidOpcode i.tag), s, rfl, fun _ => rfl⟩
  | some op =>
    by_cases overdraws : i.Overdraws s
    · obtain ⟨conversion, zero, given⟩ := overdraws
      obtain rfl : op = .floatToSigned := Option.some.inj (hop.symm.trans conversion)
      rw [if_pos ⟨conversion, zero, given⟩]
      exact run_floatToSigned_zero given zero
    · rw [if_neg overdraws]
      have agrees (mode : Arithmetic) :
          Agrees id (perform mode capacity data i op) (i.perform capacity data op) s :=
        agrees_perform small op fun conversion zero given =>
          overdraws ⟨conversion ▸ hop, zero, given⟩
      obtain ⟨r, t, machine, -⟩ := agrees .checked
      refine ⟨r, t, machine, fun mode => ?_⟩
      obtain ⟨r', t', machine', registers⟩ := agrees mode
      obtain ⟨faults, rfl⟩ := Prod.ext_iff.mp (machine'.symm.trans machine)
      rw [same] at registers
      rw [registers, mapError_fault_injective faults]

theorem step_floatToSigned_zero :
    let s : Stack := ⟨#[0, 0, 0, 0, 0, 0, 0, 0]⟩
    let i := Instruction.paired .floatToSigned 8 0
    s.size < 2 ^ 63 ∧
      (i.step 64 []).run.run s = (.error (.panic .subtraction), .empty) ∧
      (step .checked 64 [] i).run.run s = .error .overflow ∧
      (step .wrapping 64 [] i).run.run s = .ok (.error (.badWidth 0), .empty) := by
  have overdraws : (Instruction.paired .floatToSigned 8 0).Overdraws
      ⟨#[0, 0, 0, 0, 0, 0, 0, 0]⟩ := by decide
  have outcome := step_in_range 64 [] (Instruction.paired .floatToSigned 8 0)
    (show (⟨#[0, 0, 0, 0, 0, 0, 0, 0]⟩ : Stack).size < 2 ^ 63 by decide)
  rw [if_pos overdraws] at outcome
  exact ⟨by decide, outcome⟩

end Bytescript.Registers
