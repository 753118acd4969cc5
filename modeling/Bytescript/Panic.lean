/-!
# Panics

A panic ends the program without a result. Sizes and offsets have 32 bits, and a sum or a product
that does not fit is a panic, as is an assertion that fails.
-/
namespace Bytescript

inductive Panic where
  | addition
  | subtraction
  | multiplication
  | capacity
  | index (index length : Nat)
  | range (stop length : Nat)
  | assertion (text : String)
  deriving DecidableEq, Repr

namespace Panic

def message : Panic → String
  | addition => "attempt to add with overflow"
  | subtraction => "attempt to subtract with overflow"
  | multiplication => "attempt to multiply with overflow"
  | capacity => "capacity overflow"
  | .index i length => s!"index out of bounds: the len is {length} but the index is {i}"
  | range stop length => s!"range end index {stop} out of range for slice of length {length}"
  | assertion text => text

end Panic

abbrev Checked := Except Panic

theorem bind_eq_ok_iff {ε α β : Type} {x : Except ε α} {f : α → Except ε β} {r : β} :
    (x >>= f) = .ok r ↔ ∃ a, x = .ok a ∧ f a = .ok r := by
  cases x with
  | error e => exact ⟨fun h => (nomatch h), fun ⟨_, h, _⟩ => (nomatch h)⟩
  | ok a => exact ⟨fun h => ⟨a, rfl, h⟩, fun ⟨_, h, hf⟩ => by cases h; exact hf⟩

theorem map_eq_ok_iff {ε α β : Type} {x : Except ε α} {f : α → β} {r : β} :
    x.map f = .ok r ↔ ∃ a, x = .ok a ∧ f a = r := by
  cases x with
  | error e => exact ⟨fun h => (nomatch h), fun ⟨_, h, _⟩ => (nomatch h)⟩
  | ok a => simp [Except.map]

theorem mapError_eq_ok_iff {ε δ α : Type} {x : Except ε α} {f : ε → δ} {r : α} :
    x.mapError f = .ok r ↔ x = .ok r := by
  cases x with
  | error e => exact ⟨fun h => (nomatch h), fun h => (nomatch h)⟩
  | ok a =>
    exact ⟨fun h => congrArg Except.ok (Except.ok.inj h),
      fun h => congrArg Except.ok (Except.ok.inj h)⟩

theorem toOption_eq_some_iff {ε α : Type} {x : Except ε α} {r : α} :
    x.toOption = some r ↔ x = .ok r := by
  cases x <;> simp [Except.toOption]

/-- The first number that does not fit in 32 bits. -/
def wordLimit : Nat := 4294967296

namespace Checked

def add (a b : Nat) : Checked Nat :=
  if a + b < wordLimit then .ok (a + b) else .error .addition

def mul (a b : Nat) : Checked Nat :=
  if a * b < wordLimit then .ok (a * b) else .error .multiplication

/-- A running sum of 32-bit numbers. -/
def sum (ns : List Nat) : Checked Nat := ns.foldlM add 0

theorem add_eq_ok_iff {a b n : Nat} : add a b = .ok n ↔ a + b < wordLimit ∧ n = a + b := by
  unfold add
  split
  · next h => simp [h, eq_comm]
  · next h => simp [h]

theorem mul_eq_ok_iff {a b n : Nat} : mul a b = .ok n ↔ a * b < wordLimit ∧ n = a * b := by
  unfold mul
  split
  · next h => simp [h, eq_comm]
  · next h => simp [h]

end Checked

end Bytescript
