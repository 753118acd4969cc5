import Bytescript.Machine.Step
import Bytescript.Script.Basic

/-!
# Runs

A run starts at the first instruction on an empty stack, and continues until an instruction halts
it, it passes the last instruction, or an instruction faults or panics. `Machine.tick` makes one
step and `Machine.runFor` makes up to a given number of them.
-/
namespace Bytescript

inductive Exit where
  | halted (code : Int32)
  | finished
  deriving DecidableEq, Repr

def Exit.code : Exit → Int32
  | .halted code => code
  | .finished => 0

namespace Machine

def defaultCapacity : Nat := 64 * 1024

structure State where
  ip : Nat
  steps : Nat
  stack : Stack
  deriving DecidableEq, Repr

/-- A run that is running, has ended, faulted or panicked. Where an instruction stopped the run,
`ip` is its index. -/
inductive Status where
  | running (s : State)
  | ended (exit : Exit) (s : State)
  | faulted (fault : Fault) (s : State)
  | panicked (p : Panic) (s : State)
  deriving DecidableEq, Repr

def start : State := ⟨0, 0, .empty⟩

def advance (length ip steps : Nat) (stack : Stack) : Except Stop Flow → Status
  | .error (.fault cause) => .faulted ⟨ip, cause⟩ ⟨ip, steps, stack⟩
  | .error (.panic p) => .panicked p ⟨ip, steps, stack⟩
  | .ok .next => .running ⟨ip + 1, steps, stack⟩
  | .ok (.goto target) =>
    if length < target then .faulted ⟨ip, .badJump target⟩ ⟨ip, steps, stack⟩
    else .running ⟨target, steps, stack⟩
  | .ok (.halt code) => .ended (.halted code) ⟨ip, steps, stack⟩

def tick (capacity : Nat) (script : View) : State → Status
  | ⟨ip, steps, stack⟩ =>
    if ip < script.length then
      match script.fetch ip with
      | none => .faulted ⟨ip, .badJump ip⟩ ⟨ip, steps, stack⟩
      | some i =>
        let (result, stack) := (i.step capacity script.data).run.run stack
        advance script.length ip (steps + 1) stack result
    else .ended .finished ⟨ip, steps, stack⟩

def runFor (capacity : Nat) (script : View) : Nat → State → Status
  | 0, s => .running s
  | n + 1, s =>
    match tick capacity script s with
    | .running s => runFor capacity script n s
    | status => status

/-- A run of `a + b` steps is one of `a` steps and, if that is still running, one of `b`. -/
theorem runFor_add (capacity : Nat) (script : View) (a b : Nat) (s : State) :
    runFor capacity script (a + b) s =
      match runFor capacity script a s with
      | .running s => runFor capacity script b s
      | status => status := by
  induction a generalizing s with
  | zero => simp [runFor]
  | succ a ih =>
    rw [Nat.succ_add]
    simp only [runFor]
    cases tick capacity script s with
    | running s => exact ih s
    | ended => rfl
    | faulted => rfl
    | panicked => rfl

/-- The record of an instruction before it is executed: its index, the size of the stack, and the
instruction itself. -/
structure Event where
  ip : Nat
  depth : Nat
  instruction : Instruction
  deriving DecidableEq, Repr

def observe (capacity : Nat) (script : View) : Nat → State → List Event → List Event
  | 0, _, noted => noted
  | n + 1, s, noted =>
    let noted :=
      if s.ip < script.length then
        match script.fetch s.ip with
        | some i => ⟨s.ip, s.stack.size, i⟩ :: noted
        | none => noted
      else noted
    match tick capacity script s with
    | .running s => observe capacity script n s noted
    | _ => noted

def events (capacity : Nat) (script : View) (n : Nat) : List Event :=
  (observe capacity script n start []).reverse

def unlimited : Nat := 1 <<< 64

def run (capacity : Nat) (script : View) : Status :=
  runFor capacity script unlimited start

def capacityLimit : Nat := 1 <<< 63

/-- A run on a new machine, which allocates its whole stack at the start. -/
def launch (capacity : Nat) (script : View) : Status :=
  if capacity < capacityLimit then run capacity script else .panicked .capacity start

end Machine

end Bytescript
