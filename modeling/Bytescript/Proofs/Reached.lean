import Mathlib
import Bytescript.Proofs.Footprint
import Bytescript.Proofs.Loading

/-!
# States that runs reach

For any code, a run keeps its stack within the capacity and its index within the code or right
behind it. So every instruction that it fetches exists, it passes the end of the code in one place
only, and it stops at a bad jump only where an instruction jumps there. Each step is one instruction
that was executed, and a fault names the index of the last of them.
-/
namespace Bytescript

/-- The views of a script, and of a file that is read in place. -/
inductive View.Stored : View → Prop
  | script (s : Script) : Stored s.view
  | image (image : Image) : Stored image.view

theorem View.Stored.fetch_of_lt {script : View} (stored : script.Stored) {k : Nat}
    (h : k < script.length) : ∃ i, script.fetch k = some i := by
  cases stored with
  | script s => exact ⟨s.code[k], Array.getElem?_eq_getElem h⟩
  | image image =>
    obtain ⟨i, read, -⟩ := image.fetch_of_lt h
    exact ⟨i, read⟩

namespace Instruction

open Exec

/-- The reasons why an instruction stops by itself: a fault other than that of a jump, or the panic
of a conversion to a signed integer of width zero. -/
def StopsWith (i : Instruction) (op : Opcode) : Stop → Prop
  | .fault cause => ∀ target, cause ≠ .badJump target
  | .panic p => p = .subtraction ∧ op = .floatToSigned ∧ i.second = 0

theorem meets_popOrder_stopsWith (i : Instruction) (op : Opcode) (kind : Option NumberKind)
    (w : Nat) (s : Stack) : Meets (popOrder kind w) s (fun _ _ => True) (i.StopsWith op) := by
  unfold popOrder
  split <;> simp [StopsWith, -bind_pure_comp]

theorem meets_perform_stopsWith (capacity : Nat) (data : Bytes) (i : Instruction) (op : Opcode)
    (s : Stack) : Meets (i.perform capacity data op) s (fun _ _ => True) (i.StopsWith op) := by
  cases op with
  | jumpIfFalse =>
    simp only [perform, meets_bind, meets_popWord, meets_pure]
    split_ifs <;> simp [StopsWith]
  | pushData =>
    simp only [perform]
    split <;> simp [StopsWith, -bind_pure_comp]
  | integer op =>
    simp only [perform, meets_bind, meets_popWord]
    split_ifs
    · simp [StopsWith]
    · simp [StopsWith]
    · simp [StopsWith]
    · split <;> simp [StopsWith, -bind_pure_comp]
  | compare relation =>
    simp only [perform, meets_bind]
    refine (meets_popOrder_stopsWith i _ _ _ s).mono fun order t _ => ?_
    simp [StopsWith]
  | _ => simp +contextual [perform, StopsWith, -bind_pure_comp]

theorem target?_eq_some {i : Instruction} {target : Nat} (h : i.target? = some target) :
    (i.opcode? = some .jump ∨ i.opcode? = some .jumpIfFalse) ∧ i.word.toNat = target := by
  unfold target? at h
  split at h
  next jump => exact ⟨.inl jump, Option.some.inj h⟩
  next jump => exact ⟨.inr jump, Option.some.inj h⟩
  next => cases h

theorem step_flow {capacity : Nat} {data : Bytes} {i : Instruction} {s t : Stack}
    {r : Except Stop Flow} (h : (i.step capacity data).run.run s = (r, t)) :
    match r with
    | .ok flow => ∀ target, flow = .goto target → i.target? = some target
    | .error (.fault cause) => ∀ target, cause ≠ .badJump target
    | .error (.panic p) => p = .subtraction ∧ i.opcode? = some .floatToSigned ∧ i.second = 0 := by
  cases r with
  | ok flow => exact step_aims h
  | error stop =>
    unfold step at h
    split at h
    · cases h
      exact fun _ => nofun
    next op hop =>
      have stops := meets_perform_stopsWith capacity data i op s
      unfold Meets at stops
      rw [h] at stops
      cases stop with
      | fault cause => exact stops
      | panic p =>
        obtain ⟨rfl, rfl, zero⟩ := stops
        exact ⟨rfl, hop, zero⟩

end Instruction

namespace Machine

/-- The stack is within the capacity, and the index is in the code or right behind it. -/
structure State.Within (capacity : Nat) (script : View) (s : State) : Prop where
  room : s.stack.size ≤ capacity
  inside : s.ip ≤ script.length

structure State.StoppedAt (capacity : Nat) (script : View) (trace : List Event) (s : State)
    (e : Event) : Prop where
  room : s.stack.size ≤ capacity
  last : trace.getLast? = some e
  ip : e.ip = s.ip
  fetched : script.fetch s.ip = some e.instruction
  steps : s.steps = trace.length

def Status.Accounted (capacity : Nat) (script : View) (trace : List Event) : Status → Prop
  | .running s => s.Within capacity script ∧ s.steps = trace.length ∧
      (s.ip < script.length → ∃ i, script.fetch s.ip = some i)
  | .ended .finished s => s.Within capacity script ∧ s.steps = trace.length ∧
      s.ip = script.length
  | .ended (.halted _) s => ∃ e, s.StoppedAt capacity script trace e
  | .faulted f s => f.ip = s.ip ∧ ∃ e, s.StoppedAt capacity script trace e ∧
      ∀ target, f.cause = .badJump target →
        (e.instruction.opcode? = some .jump ∨ e.instruction.opcode? = some .jumpIfFalse) ∧
          e.instruction.word.toNat = target ∧ script.length < target
  | .panicked p s => p = .subtraction ∧ ∃ e, s.StoppedAt capacity script trace e ∧
      e.instruction.opcode? = some .floatToSigned ∧ e.instruction.second = 0

theorem within_start (capacity : Nat) (script : View) : start.Within capacity script :=
  ⟨Nat.zero_le _, Nat.zero_le _⟩

variable {capacity : Nat} {script : View}

/-- A step from within bounds ends the run right behind the code, or executes the instruction that
is there and adds it to the trace. -/
theorem tick_accounted (stored : script.Stored) {s : State} (within : s.Within capacity script)
    {trace : List Event} (steps : s.steps = trace.length) :
    (s.ip = script.length ∧ tick capacity script s = .ended .finished s) ∨
      ∃ i, s.ip < script.length ∧ script.fetch s.ip = some i ∧
        (tick capacity script s).Accounted capacity script
          (trace ++ [⟨s.ip, s.stack.size, i⟩]) := by
  obtain ⟨ip, count, stack⟩ := s
  obtain ⟨room, inside⟩ := within
  dsimp only at room inside steps
  by_cases more : ip < script.length
  · obtain ⟨i, fetched⟩ := stored.fetch_of_lt more
    refine .inr ⟨i, more, fetched, ?_⟩
    have left := i.size_step_le script.data room
    obtain ⟨r, after, outcome⟩ : ∃ r after,
        (i.step capacity script.data).run.run stack = (r, after) := ⟨_, _, rfl⟩
    have flow := Instruction.step_flow outcome
    have ticked : tick capacity script ⟨ip, count, stack⟩ =
        advance script.length ip (count + 1) after r := by
      simp only [tick, more, if_true, fetched, outcome]
    rw [outcome] at left
    rw [ticked]
    have stopped : State.StoppedAt capacity script (trace ++ [⟨ip, stack.size, i⟩])
        ⟨ip, count + 1, after⟩ ⟨ip, stack.size, i⟩ :=
      { room := left
        last := List.getLast?_concat
        ip := rfl
        fetched := fetched
        steps := by simp [steps] }
    match r with
    | .error (.fault cause) => exact ⟨rfl, _, stopped, fun target bad => absurd bad (flow target)⟩
    | .error (.panic p) => exact ⟨flow.1, _, stopped, flow.2⟩
    | .ok (.halt code) => exact ⟨_, stopped⟩
    | .ok .next => exact ⟨⟨left, more⟩, stopped.steps, stored.fetch_of_lt⟩
    | .ok (.goto target) =>
      simp only [advance]
      split_ifs with outside
      · refine ⟨rfl, _, stopped, ?_⟩
        rintro _ ⟨⟩
        obtain ⟨jump, word⟩ := Instruction.target?_eq_some (flow target rfl)
        exact ⟨jump, word, outside⟩
      · exact ⟨⟨left, Nat.le_of_not_lt outside⟩, stopped.steps, stored.fetch_of_lt⟩
  · exact .inl ⟨Nat.le_antisymm inside (Nat.le_of_not_lt more), by simp [tick, more]⟩

theorem runFor_accounted (stored : script.Stored) (n : Nat) {s : State}
    (within : s.Within capacity script) {noted : List Event} (steps : s.steps = noted.length) :
    (runFor capacity script n s).Accounted capacity script
      (observe capacity script n s noted).reverse := by
  induction n generalizing s noted with
  | zero => exact ⟨within, by simpa [observe] using steps, stored.fetch_of_lt⟩
  | succ n ih =>
    have counted : s.steps = noted.reverse.length := by rwa [List.length_reverse]
    obtain ⟨atEnd, ticked⟩ | ⟨i, more, fetched, accounted⟩ := tick_accounted stored within counted
    · simp only [runFor, observe, ticked, atEnd, lt_irrefl, if_false]
      exact ⟨within, by simpa using steps, atEnd⟩
    · simp only [runFor, observe, more, if_true, fetched]
      rw [← List.reverse_cons] at accounted
      cases ticked : tick capacity script s with
      | running u =>
        rw [ticked] at accounted
        obtain ⟨within, steps, -⟩ := accounted
        exact ih within (by simpa using steps)
      | ended exit u => rwa [ticked] at accounted
      | faulted f u => rwa [ticked] at accounted
      | panicked p u => rwa [ticked] at accounted

/-- For every script and file, every capacity and every number of steps: the states of a run are
within bounds and the instruction fetched exists; a run that finishes is right behind the code; a
run that faults does so at the last instruction executed, which the fault names and the number of
steps includes, and for a bad jump that instruction jumps beyond the code; a run that panics does so
at the last instruction executed, which converts a float to a signed integer of width zero. -/
theorem run_accounted (capacity : Nat) {script : View} (stored : script.Stored) (n : Nat) :
    (runFor capacity script n start).Accounted capacity script (events capacity script n) :=
  runFor_accounted stored n (within_start capacity script) rfl

def strayJump : Script where
  header := ⟨.current, 0, 36, 36, Header.unnamed⟩
  data := []
  code := #[.worded .pushZero 1, .worded .jumpIfFalse 9]

theorem strayJump_accounted :
    runFor 4 strayJump.view 5 start = .faulted ⟨1, .badJump 9⟩ ⟨1, 2, .empty⟩ ∧
      (runFor 4 strayJump.view 5 start).Accounted 4 strayJump.view
        [⟨0, 0, .worded .pushZero 1⟩, ⟨1, 1, .worded .jumpIfFalse 9⟩] := by
  have trace : events 4 strayJump.view 5 =
      [⟨0, 0, .worded .pushZero 1⟩, ⟨1, 1, .worded .jumpIfFalse 9⟩] := by
    decide
  refine ⟨by decide, ?_⟩
  rw [← trace]
  exact run_accounted 4 (.script strayJump) 5

end Machine

end Bytescript
