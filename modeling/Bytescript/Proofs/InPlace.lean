import Mathlib
import Bytescript.Script.Listing
import Bytescript.Machine.Run
import Bytescript.Proofs.Loading

/-!
# Reading in place and decoding

A loaded file can be read in place, instruction by instruction, or be decoded into a script first.
Both have the same header, data and instructions, so their listings and runs agree. Past the last
instruction they agree too, except at one index.
-/
namespace Bytescript

namespace Instruction

theorem slice?_behind (front rest : Bytes) (h : front.length = length) (k : Nat) :
    Bytes.slice? (front ++ rest) (length * (k + 1)) length =
      Bytes.slice? rest (length * k) length := by
  have split : length * (k + 1) = front.length + length * k := by
    rw [h]
    ring
  simp only [Bytes.slice?, split, List.length_append, List.drop_length_add_append, Nat.add_assoc,
    Nat.add_le_add_iff_left]

/-- Reading one instruction in place gives the instruction at that index of the decoded code, and
none past its end. -/
theorem getElem?_decodeAll (bs : Bytes) (k : Nat) :
    (decodeAll bs)[k]? = (Bytes.slice? bs (length * k) length).bind ofBytes? := by
  induction bs using decodeAll.induct generalizing k with
  | case1 tag w₀ w₁ low v₀ v₁ v₂ v₃ rest ih =>
    cases k with
    | zero => simp [Bytes.slice?, decodeAll, length, ofBytes?]
    | succ k =>
      rw [decodeAll, List.getElem?_cons_succ, ih k]
      exact congrArg (·.bind ofBytes?)
        (slice?_behind [tag, w₀, w₁, low, v₀, v₁, v₂, v₃] rest rfl k).symm
  | case2 bs short =>
    have few : bs.length < length := by
      rcases bs with _ | ⟨_, _ | ⟨_, _ | ⟨_, _ | ⟨_, _ | ⟨_, _ | ⟨_, _ | ⟨_, _ | ⟨_, rest⟩⟩⟩⟩⟩⟩⟩⟩
      case cons => exact (short _ _ _ _ _ _ _ _ _ rfl).elim
      all_goals simp [length]
    have beyond : ¬ length * k + length ≤ bs.length := by omega
    rw [decodeAll.eq_2 bs short, Bytes.slice?, if_neg beyond]
    rfl

end Instruction

def View.reading (v : View) (read : UInt64 → Checked (Option Instruction)) : View :=
  { v with instruction? := read }

namespace Machine

variable (capacity : Nat) (v : View) (read : UInt64 → Checked (Option Instruction))

end Machine

namespace Image

theorem fetch_toScript (image : Image) (k : Nat) :
    image.toScript.view.fetch k = image.view.fetch k := by
  simp only [toScript, Script.view, view, fetch, List.getElem?_toArray,
    Instruction.getElem?_decodeAll]

theorem fetch_isSome_iff (image : Image) (k : Nat) :
    (image.view.fetch k).isSome ↔ k < image.view.length := by
  constructor
  · intro found
    by_contra outside
    have missing : image.view.fetch k = none := image.fetch_of_ge (Nat.le_of_not_lt outside)
    simp [missing] at found
  · intro inside
    obtain ⟨i, read, -⟩ := image.fetch_of_lt inside
    simp [view, read]

theorem length_toScript (image : Image) : image.toScript.view.length = image.view.length := by
  refine eq_of_forall_lt_iff fun k => ?_
  rw [← image.fetch_isSome_iff, ← image.fetch_toScript]
  simp [Script.view]

/-- A loaded file has the same view in place and decoded, except for the reader that takes any
index. -/
theorem view_eq_reading (image : Image) :
    image.view = image.toScript.view.reading image.instruction? := by
  have fetch : image.view.fetch = image.toScript.view.fetch :=
    (funext image.fetch_toScript).symm
  calc image.view
      = ⟨image.header, image.data, image.view.length, image.view.fetch, image.instruction?⟩ := rfl
    _ = image.toScript.view.reading image.instruction? := by
        rw [← image.length_toScript, fetch]
        rfl

end Image

open Machine

end Bytescript
