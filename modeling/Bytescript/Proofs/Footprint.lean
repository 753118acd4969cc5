import Mathlib
import Bytescript.Proofs.Execution

/-!
# What a step touches

An instruction has an effect: the number of bytes that it pops and pushes. A step that succeeds has
this effect and leaves the bytes below unchanged; only an assignment writes there, over the bytes
that it names. A step that faults has popped no more than its effect says, and has neither written
nor pushed anything.
-/
namespace Bytescript

namespace Exec

variable {α β : Type}

theorem run_throw (f : Stop) (s : Stack) : (throw f : Exec α).run.run s = (.error f, s) := rfl

theorem run_get (s : Stack) : (get : Exec Stack).run.run s = (.ok s, s) := rfl

theorem run_bind (x : Exec α) (f : α → Exec β) (s : Stack) :
    (x >>= f).run.run s =
      match x.run.run s with
      | (.ok a, t) => (f a).run.run t
      | (.error e, t) => (.error e, t) := by
  change (ExceptT.mk (StateT.bind x (ExceptT.bindCont f))) s = _
  simp only [ExceptT.run, ExceptT.mk, StateT.run, StateT.bind, bind]
  rcases x s with ⟨r, t⟩
  cases r <;> rfl

theorem run_ite {c : Prop} [Decidable c] (x y : Exec α) (s : Stack) :
    (if c then x else y).run.run s = if c then x.run.run s else y.run.run s := by
  split <;> rfl

theorem run_reserve (capacity n : Nat) (s : Stack) :
    (reserve capacity n).run.run s =
      (if capacity < s.size + n then .error (.fault (.stackOverflow (s.size + n) capacity))
        else .ok (), s) := by
  simp only [reserve, run_bind, run_get]
  split <;> rfl

theorem run_require (n : Nat) (s : Stack) :
    (require n).run.run s =
      (if s.size < n then .error (.fault (.stackUnderflow n s.size)) else .ok (), s) := by
  simp only [require, run_bind, run_get]
  split <;> rfl

end Exec

namespace Stack

theorem toList_inj {s t : Stack} : s.toList = t.toList ↔ s = t := by
  obtain ⟨s⟩ := s
  obtain ⟨t⟩ := t
  simp [toList]

theorem keep_size (s : Stack) : s.keep s.size = s := by
  rw [← toList_inj, toList_keep, ← length_toList, List.take_length]

theorem push_nil (s : Stack) : s.push [] = s := by
  rw [← toList_inj, toList_push, List.append_nil]

theorem length_slice {s : Stack} {start n : Nat} (h : start + n ≤ s.size) :
    (s.slice start n).length = n := by
  rw [slice_eq, List.length_take, List.length_drop, length_toList]
  omega

theorem keep_keep {s : Stack} {n k : Nat} (h : n ≤ s.size) :
    (s.keep (s.size - n)).keep ((s.keep (s.size - n)).size - k) = s.keep (s.size - (n + k)) := by
  rw [← toList_inj, toList_keep, toList_keep, toList_keep, List.take_take, size_keep]
  congr 1
  omega

end Stack

namespace Exec

variable {α β : Type} {capacity : Nat}

/-- The outcome of work that pops the top `n` bytes of a stack and pushes `m`, for which there must
be room. If it faults, it has popped some of the `n` bytes and done nothing else. -/
def Exchanged (capacity n m : Nat) (s : Stack) : Except Stop α × Stack → Prop
  | (.ok _, t) => n ≤ s.size ∧ ∃ bs : Bytes, bs.length = m ∧
      t = (s.keep (s.size - n)).push bs ∧ (m = 0 ∨ t.size ≤ capacity)
  | (.error _, t) => ∃ k ≤ n, t = s.keep (s.size - k)

def Exchanges (capacity : Nat) (x : Exec α) (n m : Nat) : Prop :=
  ∀ s, Exchanged capacity n m s (x.run.run s)

theorem exchanged_same (a : α) (s : Stack) : Exchanged capacity 0 0 s (.ok a, s) :=
  ⟨Nat.zero_le _, [], rfl, by rw [Nat.sub_zero, Stack.keep_size, Stack.push_nil], .inl rfl⟩

theorem exchanged_error (f : Stop) (n m : Nat) (s : Stack) :
    Exchanged capacity n m s ((.error f, s) : Except Stop α × Stack) :=
  ⟨0, Nat.zero_le n, by rw [Nat.sub_zero, Stack.keep_size]⟩

theorem exchanged_push (a : α) {s : Stack} {bs : Bytes} {m : Nat} (length : bs.length = m)
    (room : ¬capacity < s.size + m) : Exchanged capacity 0 m s (.ok a, s.push bs) := by
  refine ⟨Nat.zero_le _, bs, length, ?_, .inr ?_⟩
  · rw [Nat.sub_zero, Stack.keep_size]
  · rw [Stack.size_push, length]
    omega

theorem exchanged_keep (a : α) {s : Stack} {n : Nat} (enough : ¬s.size < n) :
    Exchanged capacity n 0 s (.ok a, s.keep (s.size - n)) :=
  ⟨by omega, [], rfl, (Stack.push_nil _).symm, .inl rfl⟩

theorem exchanges_pure (a : α) : Exchanges capacity (pure a) 0 0 := exchanged_same a

theorem exchanges_throw (f : Stop) (n m : Nat) : Exchanges capacity (throw f : Exec α) n m :=
  exchanged_error f n m

theorem Exchanges.bind {x : Exec α} {f : α → Exec β} {n k m : Nat} (hx : Exchanges capacity x n 0)
    (hf : ∀ a, Exchanges capacity (f a) k m) : Exchanges capacity (x >>= f) (n + k) m := by
  intro s
  have first := hx s
  rw [run_bind]
  generalize x.run.run s = outcome at first ⊢
  obtain ⟨_ | a, t⟩ := outcome
  · obtain ⟨l, hl, rfl⟩ := first
    exact ⟨l, by omega, rfl⟩
  · obtain ⟨enough, bs, none, rfl, -⟩ := first
    rw [List.length_eq_zero_iff] at none
    subst none
    rw [Stack.push_nil]
    have second := hf a (s.keep (s.size - n))
    change Exchanged capacity (n + k) m s ((f a).run.run (s.keep (s.size - n)))
    generalize (f a).run.run (s.keep (s.size - n)) = outcome at second ⊢
    obtain ⟨_ | b, u⟩ := outcome
    · obtain ⟨l, hl, rfl⟩ := second
      exact ⟨n + l, by omega, Stack.keep_keep enough⟩
    · obtain ⟨more, bs, length, rfl, room⟩ := second
      rw [Stack.size_keep] at more
      refine ⟨by omega, bs, length, ?_, room⟩
      rw [Stack.keep_keep enough]

theorem Exchanges.returning {x : Exec α} {n m : Nat} (hx : Exchanges capacity x n m) (b : β) :
    Exchanges capacity (do let _ ← x; return b) n m := by
  intro s
  have first := hx s
  rw [run_bind]
  generalize x.run.run s = outcome at first ⊢
  obtain ⟨_ | a, t⟩ := outcome
  · exact first
  · exact first

theorem exchanges_checkWordWidth (w : Nat) : Exchanges capacity (checkWordWidth w) 0 0 := by
  intro s
  rw [checkWordWidth, run_ite]
  split
  · exact exchanged_error _ 0 0 s
  · exact exchanged_same () s

theorem exchanges_checkFloatWidth (w : Nat) : Exchanges capacity (checkFloatWidth w) 0 0 := by
  intro s
  rw [checkFloatWidth, run_ite]
  split
  · exact exchanged_same () s
  · exact exchanged_error _ 0 0 s

theorem exchanges_push (bs : Bytes) : Exchanges capacity (push capacity bs) 0 bs.length := by
  intro s
  simp only [push, run_bind, run_reserve]
  split_ifs with full
  · exact exchanged_error _ 0 _ s
  · exact exchanged_push () rfl full

theorem exchanges_pop (n : Nat) : Exchanges capacity (pop n) n 0 := by
  intro s
  simp only [pop, run_bind, run_require]
  split_ifs with short
  · exact exchanged_error _ n 0 s
  · exact exchanged_keep _ short

theorem exchanges_popWord (w : Nat) : Exchanges capacity (popWord w) w 0 := by
  have taken : Exchanges capacity (popWord w) (0 + (w + 0)) 0 :=
    (exchanges_checkWordWidth w).bind fun _ =>
      (exchanges_pop w).bind fun bs => exchanges_pure (Bytes.toWord w bs)
  rwa [Nat.zero_add] at taken

theorem exchanges_popFloat (w : Nat) : Exchanges capacity (popFloat w) w 0 := by
  have taken : Exchanges capacity (popFloat w) (0 + (w + 0)) 0 :=
    (exchanges_checkFloatWidth w).bind fun _ =>
      (exchanges_pop w).bind fun bs => exchanges_pure (Floating.load w (Bytes.toNat bs))
  rwa [Nat.zero_add] at taken

theorem exchanges_pushWord {w : Nat} (x : BitVec (8 * w)) :
    Exchanges capacity (pushWord capacity x) 0 w := by
  have put : Exchanges capacity (pushWord capacity x) (0 + 0) (Bytes.ofWord x).length :=
    (exchanges_checkWordWidth w).bind fun _ => exchanges_push (Bytes.ofWord x)
  rwa [Bytes.length_ofWord] at put

theorem exchanges_pushFloat (w : Nat) (v : Floating.Value) :
    Exchanges capacity (pushFloat capacity w v) 0 w := by
  have put : Exchanges capacity (pushFloat capacity w v) (0 + 0)
      (Bytes.ofNat w (Floating.store w v)).length :=
    (exchanges_checkFloatWidth w).bind fun _ => exchanges_push _
  rwa [Bytes.length_ofNat] at put

theorem exchanges_popOrder (kind : Option NumberKind) (w : Nat) :
    Exchanges capacity (popOrder kind w) (w + (w + 0)) 0 := by
  have words : ∀ f : BitVec (8 * w) → BitVec (8 * w) → Option Ordering,
      Exchanges capacity (do
        let y ← popWord w
        let x ← popWord w
        return f x y) (w + (w + 0)) 0 := fun f =>
    (exchanges_popWord w).bind fun y => (exchanges_popWord w).bind fun x => exchanges_pure _
  unfold popOrder
  split
  · exact (exchanges_popFloat w).bind fun y => (exchanges_popFloat w).bind fun x => exchanges_pure _
  · exact words _
  · exact words _
  · exact words _

end Exec

namespace Instruction

open Exec

variable {capacity : Nat} {data : Bytes} {i : Instruction}

/-- Every operation but an assignment pops and pushes as many bytes as its effect says. -/
theorem exchanges_perform {op : Opcode} (h : i.opcode? = some op) (other : op ≠ .assign) :
    Exchanges capacity (i.perform capacity data op) i.effect.1 i.effect.2 := by
  simp only [effect, stackEffect?, h, Option.map_some, Option.getD_some]
  cases op with
  | assign => exact absurd rfl other
  | halt => exact exchanges_pure _
  | debug => exact exchanges_pure _
  | jump => exact exchanges_pure _
  | jumpIfFalse => exact (exchanges_popWord 1).bind fun _ => exchanges_pure _
  | pushData =>
    simp only [perform]
    split
    · exact exchanges_throw _ _ _
    · next bs hbs =>
      obtain ⟨hle, rfl⟩ := Bytes.slice?_eq_some_iff.mp hbs
      have length : ((data.drop i.word.toNat).take i.width.toNat).length = i.width.toNat := by
        rw [List.length_take, List.length_drop]
        omega
      have put : Exchanges capacity (push capacity _) 0 _ :=
        exchanges_push ((data.drop i.word.toNat).take i.width.toNat)
      rw [length] at put
      exact put.returning Flow.next
  | pushStack =>
    intro s
    simp only [perform, run_bind, run_get]
    split_ifs with outside
    · exact exchanged_error _ _ _ s
    · simp only [run_bind, run_reserve]
      split_ifs with full
      · exact exchanged_error _ _ _ s
      · exact exchanged_push _ (Stack.length_slice (by omega)) full
  | pushZero =>
    intro s
    simp only [perform, run_bind, run_reserve]
    split_ifs with full
    · exact exchanged_error _ _ _ s
    · exact exchanged_push _ List.length_replicate full
  | pop =>
    intro s
    simp only [perform, run_bind, run_require]
    split_ifs with short
    · exact exchanged_error _ _ _ s
    · exact exchanged_keep _ short
  | pushHandle =>
    simp only [perform]
    split
    · exact exchanges_throw _ _ _
    · exact (exchanges_push (Bytes.ofNat 8 i.word.toNat)).returning Flow.next
  | floatToFloat =>
    exact (exchanges_popFloat _).bind fun v => (exchanges_pushFloat _ _).returning _
  | signedToFloat =>
    exact (exchanges_popWord _).bind fun v => (exchanges_pushFloat _ _).returning _
  | unsignedToFloat =>
    exact (exchanges_popWord _).bind fun v => (exchanges_pushFloat _ _).returning _
  | floatToSigned =>
    refine (exchanges_popFloat _).bind (k := 0) fun v => ?_
    split
    · exact exchanges_throw _ _ _
    · exact (exchanges_checkWordWidth _).bind fun _ => (exchanges_pushWord _).returning _
  | floatToUnsigned =>
    exact (exchanges_popFloat _).bind fun v => (exchanges_checkWordWidth _).bind fun _ =>
      (exchanges_pushWord _).returning _
  | signExtend =>
    exact (exchanges_popWord _).bind fun v => (exchanges_checkWordWidth _).bind fun _ =>
      (exchanges_pushWord _).returning _
  | integer op =>
    change Exchanges capacity _ (2 * i.width.toNat) i.width.toNat
    rw [Nat.two_mul]
    refine (exchanges_popWord _).bind fun y => (exchanges_popWord _).bind (k := 0) fun x => ?_
    split
    · exact exchanges_throw _ _ _
    · exact (exchanges_pushWord _).returning _
  | float op =>
    change Exchanges capacity _ (2 * i.width.toNat) i.width.toNat
    rw [Nat.two_mul]
    exact (exchanges_popFloat _).bind fun y => (exchanges_popFloat _).bind fun x =>
      (exchanges_pushFloat _ _).returning _
  | compare relation =>
    change Exchanges capacity _ (2 * i.width.toNat) 1
    rw [Nat.two_mul]
    exact (exchanges_popOrder _ _).bind (k := 0) fun o => (exchanges_push [_]).returning _
  | integerStep op =>
    exact (exchanges_popWord _).bind fun x => (exchanges_pushWord _).returning _
  | floatStep op =>
    exact (exchanges_popFloat _).bind fun x => (exchanges_pushFloat _ _).returning _
  | not =>
    exact (exchanges_popWord _).bind fun x => (exchanges_pushWord _).returning _

/-- An assignment pops bytes and writes them over others below, if both exist. -/
theorem run_assign (s : Stack) :
    (i.perform capacity data .assign).run.run s =
      if s.size < i.width.toNat then (.error (.fault (.stackUnderflow i.width.toNat s.size)), s)
      else if s.size - i.width.toNat < i.word.toNat + i.width.toNat then
        (.error (.fault (.badAddress (.stack i.word.toNat))), s)
      else (.ok .next, (s.keep (s.size - i.width.toNat)).overwrite i.word.toNat
        (s.slice (s.size - i.width.toNat) i.width.toNat)) := by
  simp only [perform, run_bind, run_require]
  split_ifs with short outside
  · rfl
  · simp only [run_get, if_pos outside]
    rfl
  · simp only [run_get, if_neg outside, Exec.pop, run_bind, run_require, if_neg short]
    rfl

/-- The stack after an instruction which popped `p` bytes and pushed `q`: below the popped bytes
nothing is changed, except the bytes that an assignment names, which become the popped bytes. -/
structure Touches (i : Instruction) (p q : Nat) (s t : Stack) : Prop where
  enough : p ≤ s.size
  size : t.size = s.size - p + q
  below : ∀ k, k < s.size - p → t.toList[k]? =
    if i.opcode? = some .assign ∧ i.word.toNat ≤ k ∧ k < i.word.toNat + i.width.toNat then
      s.toList[s.size - p + (k - i.word.toNat)]?
    else s.toList[k]?
  target : i.opcode? = some .assign → i.word.toNat + i.width.toNat ≤ s.size - p

theorem touches_of_push {p q : Nat} {s : Stack} {bs : Bytes} (other : i.opcode? ≠ some .assign)
    (enough : p ≤ s.size) (length : bs.length = q) :
    i.Touches p q s ((s.keep (s.size - p)).push bs) where
  enough := enough
  size := by
    rw [Stack.size_push, Stack.size_keep, length]
    omega
  below := by
    intro k hk
    rw [if_neg fun h => other h.1, Stack.toList_push, Stack.toList_keep,
      List.getElem?_append_left (by simp; omega), List.getElem?_take_of_lt hk]
  target := fun assign => absurd assign other

theorem touches_assign {s : Stack} (assign : i.opcode? = some .assign)
    (enough : i.width.toNat ≤ s.size)
    (inside : i.word.toNat + i.width.toNat ≤ s.size - i.width.toNat) :
    i.Touches i.width.toNat 0 s ((s.keep (s.size - i.width.toNat)).overwrite i.word.toNat
      (s.slice (s.size - i.width.toNat) i.width.toNat)) := by
  have length : (s.slice (s.size - i.width.toNat) i.width.toNat).length = i.width.toNat :=
    Stack.length_slice (by omega)
  have size : (s.keep (s.size - i.width.toNat)).size = s.size - i.width.toNat := by
    rw [Stack.size_keep]
    omega
  refine ⟨enough, by rw [Stack.size_overwrite, size, Nat.add_zero], fun k hk => ?_, fun _ => inside⟩
  have written := Stack.getElem?_overwriteFrom (s.keep (s.size - i.width.toNat)).bytes
    i.word.toNat (s.slice (s.size - i.width.toNat) i.width.toNat) k
    (by rw [length]; exact inside.trans_eq size.symm)
  rw [length, ← Array.getElem?_toList, ← Array.getElem?_toList] at written
  refine written.trans ?_
  simp only [assign, true_and]
  split_ifs with named
  · rw [Stack.slice_eq, List.getElem?_take_of_lt (by omega), List.getElem?_drop]
  · change (s.keep (s.size - i.width.toNat)).toList[k]? = s.toList[k]?
    rw [Stack.toList_keep, List.getElem?_take_of_lt hk]

theorem touches_step {s t : Stack} {flow : Flow}
    (h : (i.step capacity data).run.run s = (.ok flow, t)) :
    i.Touches i.effect.1 i.effect.2 s t := by
  unfold step at h
  split at h
  · cases h
  next op hop =>
    by_cases assign : op = .assign
    · subst assign
      have bytes : i.effect = (i.width.toNat, 0) := by
        simp [Instruction.effect, stackEffect?, hop]
      rw [run_assign] at h
      rw [bytes]
      split_ifs at h with short outside
      · cases h
      · cases h
      · cases h
        exact touches_assign hop (by omega) (by omega)
    · have exchanged : Exchanged capacity _ _ s ((i.perform capacity data op).run.run s) :=
        exchanges_perform hop assign s
      rw [h] at exchanged
      obtain ⟨enough, bs, length, rfl, -⟩ := exchanged
      refine touches_of_push (fun named => assign ?_) enough length
      rw [hop] at named
      exact Option.some.inj named

/-- A step that faults leaves a front part of the stack, without some of the bytes of its effect. -/
theorem keep_of_step_error {s t : Stack} {f : Stop}
    (h : (i.step capacity data).run.run s = (.error f, t)) :
    ∃ k ≤ i.effect.1, t = s.keep (s.size - k) := by
  have whole : ∃ k ≤ i.effect.1, s = s.keep (s.size - k) :=
    ⟨0, Nat.zero_le _, by rw [Nat.sub_zero, Stack.keep_size]⟩
  unfold step at h
  split at h
  · cases h
    exact whole
  next op hop =>
    by_cases assign : op = .assign
    · subst assign
      rw [run_assign] at h
      split_ifs at h with short outside
      · cases h
        exact whole
      · cases h
        exact whole
      · cases h
    · have exchanged : Exchanged capacity _ _ s ((i.perform capacity data op).run.run s) :=
        exchanges_perform hop assign s
      rwa [h] at exchanged

/-- A step that succeeds has exactly its effect on the stack, and below the bytes that it pops it
changes only those that an assignment names. A step that faults leaves a front part of the stack,
with at most the bytes of its effect removed. An unknown tag leaves the whole stack. -/
theorem step_touches (capacity : Nat) (data : Bytes) (i : Instruction) (s : Stack) :
    match i.stackEffect?, (i.step capacity data).run.run s with
    | some (p, q), (.ok _, t) => i.Touches p q s t
    | some (p, _), (.error _, t) => t.toList <+: s.toList ∧ s.size ≤ t.size + p
    | none, (r, t) => r = .error (.fault (.invalidOpcode i.tag)) ∧ t = s := by
  cases hop : i.opcode? with
  | none =>
    simp only [stackEffect?, step, hop, Option.map_none, run_throw, and_self]
  | some op =>
    have effect : i.stackEffect? = some i.effect := by simp [Instruction.effect, stackEffect?, hop]
    rcases pair : i.effect with ⟨p, q⟩
    rw [effect, pair]
    rcases outcome : (i.step capacity data).run.run s with ⟨f | flow, t⟩
    · obtain ⟨k, hk, rfl⟩ := keep_of_step_error outcome
      rw [pair] at hk
      refine ⟨?_, ?_⟩
      · rw [Stack.toList_keep]
        exact List.take_prefix _ _
      · rw [Stack.size_keep]
        omega
    · have touched := touches_step outcome
      rwa [pair] at touched

/-- An addition that finds its second operand but not its first has popped the second. -/
example : ((typed (.integer .add) 2 .signed).step 16 []).run.run ⟨#[1, 2, 3]⟩ =
    (.error (.fault (.stackUnderflow 2 1)), ⟨#[1]⟩) := by
  cbv

/-- A step keeps the stack within the capacity. -/
theorem size_step_le {capacity : Nat} (data : Bytes) (i : Instruction) {s : Stack}
    (h : s.size ≤ capacity) : ((i.step capacity data).run.run s).2.size ≤ capacity := by
  unfold step
  split
  · exact h
  next op hop =>
    by_cases assign : op = .assign
    · subst assign
      rw [run_assign]
      split_ifs
      · exact h
      · exact h
      · rw [Stack.size_overwrite, Stack.size_keep]
        omega
    · have exchanged : Exchanged capacity _ _ s ((i.perform capacity data op).run.run s) :=
        exchanges_perform hop assign s
      generalize (i.perform capacity data op).run.run s = outcome at exchanged ⊢
      obtain ⟨_ | flow, t⟩ := outcome
      · obtain ⟨k, hk, rfl⟩ := exchanged
        rw [Stack.size_keep]
        omega
      · obtain ⟨enough, bs, length, rfl, none | room⟩ := exchanged
        · rw [Stack.size_push, Stack.size_keep, length, none]
          omega
        · exact room

end Instruction

end Bytescript
