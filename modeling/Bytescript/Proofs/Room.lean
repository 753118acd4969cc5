import Mathlib
import Bytescript.Proofs.Correctness
import Bytescript.Proofs.Lockstep

/-!
# Room on the stack

An instruction has no room only if the stack behind it would have exceeded the capacity. So a run
always has room if the depth of the code nowhere exceeds the capacity, and then it ends as its
evaluation does.
-/
namespace Bytescript

namespace Exec

/-- If the stop is for lack of room, `n` exceeds the capacity. -/
def Needs (capacity n : Nat) (f : Stop) : Prop := IsOverflow capacity f → capacity < n

theorem needs_of_ne {capacity n : Nat} {f : Stop}
    (h : ∀ needed, f ≠ .fault (.stackOverflow needed capacity)) : Needs capacity n f := by
  rintro ⟨needed, rfl⟩
  exact absurd rfl (h needed)

@[simp] theorem needs_stackUnderflow {capacity n a b : Nat} :
    Needs capacity n (.fault (.stackUnderflow a b)) := needs_of_ne nofun

@[simp] theorem needs_badWidth {capacity n w : Nat} : Needs capacity n (.fault (.badWidth w)) :=
  needs_of_ne nofun

@[simp] theorem needs_badAddress {capacity n : Nat} {a : Address} :
    Needs capacity n (.fault (.badAddress a)) := needs_of_ne nofun

@[simp] theorem needs_divisionByZero {capacity n : Nat} :
    Needs capacity n (.fault .divisionByZero) := needs_of_ne nofun

@[simp] theorem needs_panic {capacity n : Nat} {p : Panic} : Needs capacity n (.panic p) :=
  needs_of_ne nofun

@[simp] theorem needs_stackOverflow {capacity n needed : Nat} :
    Needs capacity n (.fault (.stackOverflow needed capacity)) ↔ capacity < n :=
  ⟨fun h => h ⟨needed, rfl⟩, fun h _ => h⟩

theorem meets_popOrder_needs (capacity n : Nat) (kind : Option NumberKind) (w : Nat) (s : Stack) :
    Meets (popOrder kind w) s (fun _ t => 2 * w ≤ s.size ∧ t.size = s.size - 2 * w)
      (Needs capacity n) := by
  unfold popOrder
  split <;>
    simp only [meets_bind, meets_popWord, meets_popFloat, meets_pure, needs_badWidth,
      needs_stackUnderflow, Stack.size_keep] <;>
    split_ifs <;> omega

end Exec

namespace Instruction

open Exec

/-- An instruction without room would have left a stack that exceeds the capacity. -/
theorem meets_perform_needs (capacity : Nat) (data : Bytes) {i : Instruction} {op : Opcode}
    (h : i.opcode? = some op) (s : Stack) :
    Meets (i.perform capacity data op) s (fun _ _ => True)
      (Needs capacity (s.size - i.effect.1 + i.effect.2)) := by
  simp only [effect, stackEffect?, h, Option.map_some, Option.getD_some]
  cases op with
  | halt => trivial
  | debug => trivial
  | jump => trivial
  | pushData =>
    simp only [perform]
    split
    · simp
    · next bs hbs =>
      obtain ⟨hle, rfl⟩ := Bytes.slice?_eq_some_iff.mp hbs
      simp only [meets_bind, meets_push, meets_pure, needs_stackOverflow, List.length_take,
        List.length_drop]
      split_ifs
      omega
  | integer op =>
    simp only [perform, meets_bind, meets_popWord]
    split_ifs with hw hy hx
    · simp
    · simp
    · simp
    · split
      · simp
      · rw [Stack.size_keep] at hx
        simp only [meets_bind, meets_pushWord, meets_pure, needs_stackOverflow, Stack.size_keep, hw,
          if_false]
        split_ifs
        omega
  | compare relation =>
    simp only [perform, meets_bind]
    refine (meets_popOrder_needs capacity _ i.kind? i.width.toNat s).mono fun order t ht => ?_
    simp only [meets_push, meets_pure, needs_stackOverflow, List.length_singleton]
    split_ifs
    omega
  | _ =>
    simp only [perform, meets_bind, meets_popWord, meets_popFloat, meets_pushWord, meets_pushFloat,
      meets_pure, meets_reserve, meets_require, meets_modify, meets_get, meets_ite, meets_throw,
      meets_push, meets_pop, meets_checkWordWidth, needs_stackOverflow, needs_stackUnderflow,
      needs_badWidth, needs_badAddress, needs_panic, Stack.size_keep, Bytes.length_ofNat]
    split_ifs <;> first | trivial | omega

theorem lt_of_step_overflow {capacity : Nat} {data : Bytes} {i : Instruction} {s t : Stack}
    {f : Stop} (h : (i.step capacity data).run.run s = (.error f, t))
    (overflow : IsOverflow capacity f) : capacity < s.size - i.effect.1 + i.effect.2 := by
  unfold step at h
  split at h
  · cases h
    obtain ⟨needed, he⟩ := overflow
    cases he
  · next op hop =>
    have needs := meets_perform_needs capacity data hop s
    unfold Meets at needs
    rw [h] at needs
    exact needs overflow

end Instruction

namespace Machine

variable {capacity : Nat} {script : Script}

theorem tick_has_room (room : ∀ k ≤ script.code.size, depthAt script.code.toList k ≤ capacity)
    {s : State} (level : s.IsLevel script.code.toList) :
    ¬ Overflows capacity (tick capacity script.view s) := by
  rintro ⟨f, t, ht, overflow⟩
  obtain ⟨ip, steps, stack⟩ := s
  obtain ⟨-, hsize⟩ := level
  dsimp only at hsize
  by_cases hlt : ip < script.code.size
  · have hi : script.code[ip]? = some script.code[ip] := Array.getElem?_eq_getElem hlt
    have hc : script.code.toList[ip]? = some script.code[ip] := by
      rw [Array.getElem?_toList, hi]
    obtain ⟨r, after, hr⟩ : ∃ r after,
        (script.code[ip].step capacity script.data).run.run stack = (r, after) := ⟨_, _, rfl⟩
    simp only [tick, Script.view, hlt, if_true, hi, hr] at ht
    have below := room (ip + 1) hlt
    rw [depthAt_succ hc, ← hsize] at below
    cases r with
    | error stop =>
      cases stop with
      | panic p => cases ht
      | fault cause =>
        cases ht
        exact absurd (Instruction.lt_of_step_overflow hr overflow) (Nat.not_lt.mpr below)
    | ok move =>
      cases move with
      | next => cases ht
      | halt code => cases ht
      | goto target =>
        simp only [advance] at ht
        split at ht
        · cases ht
          obtain ⟨needed, he⟩ := overflow
          cases he
        · cases ht
  · simp [tick, Script.view, hlt] at ht

theorem runFor_has_room (steady : ∀ i, Steady script.code.toList i)
    (room : ∀ k ≤ script.code.size, depthAt script.code.toList k ≤ capacity) (n : Nat) {s : State}
    (level : s.IsLevel script.code.toList) :
    ¬ Overflows capacity (runFor capacity script.view n s) := by
  induction n generalizing s with
  | zero =>
    rintro ⟨f, t, ht, -⟩
    cases ht
  | succ n ih =>
    have step := tick_has_room room level
    simp only [runFor]
    cases ht : tick capacity script.view s with
    | running t => exact ih ((tick_isLevel capacity steady level).1 t ht)
    | ended exit t =>
      rintro ⟨f, u, hu, -⟩
      cases hu
    | faulted f t => rwa [ht] at step
    | panicked q t =>
      rintro ⟨f, u, hu, -⟩
      cases hu

end Machine

namespace Program

/-- A compiled program whose depth nowhere exceeds the capacity ends as its evaluation does. -/
theorem exists_outcome {options : CompileOptions} {time : Int64} {p : Program} {script : Script}
    (distinct : p.Distinct) (compiled : (p.compile options .standard time).script = some script)
    (uniform : ∀ env ∈ (Environment.ofProgram .standard options.automatic p).1, env.Uniform)
    (small : ∀ env ∈ (Environment.ofProgram .standard options.automatic p).1, env.Small)
    (bounded : Bounded script.code.toList) (data : script.data.length ≤ 4294967296) :
    ∃ env texts, (Environment.ofProgram .standard options.automatic p).1 = some env ∧
      ∀ capacity, (∀ k ≤ script.code.size, depthAt script.code.toList k ≤ capacity) →
        ∀ fuel o, Evaluation.outcome? (Evaluation.program
          ⟨env.types, (Typing.ofProgram env p).notes, texts⟩ fuel p) = some o →
        ∃ n, (Machine.runFor capacity script.view n Machine.start).outcome? = some o := by
  obtain ⟨env, issues, b, after, texts, he, accepted, hb, -, hcode, hend, setting, holding, -⟩ :=
    exists_setting distinct compiled uniform small bounded data
  have steady : ∀ i, Steady script.code.toList i :=
    hcode ▸ steady_of_statements setting.sound setting.small accepted hb (hcode ▸ bounded)
  refine ⟨env, texts, by rw [he], fun capacity room fuel o ho => ?_⟩
  have simulated := (Lowering.simulates_statement_all setting capacity).2 _ _ _ _ _ accepted
    (.start env) hb (hcode ▸ .start b.1)
  have realized := simulated.2 [[]] fuel Machine.start holding (.cons .nil .nil) ⟨rfl, rfl⟩
  obtain ⟨n, overflows | ⟨u, hu, hn⟩ | ⟨exhausted, -⟩⟩ := Machine.Realizes.ends
    (realized.mono (Nat.le_refl _) fun store t h => hend ▸ h.2)
  · exact absurd overflows (Machine.runFor_has_room steady room n ⟨Nat.zero_le _, rfl⟩)
  · cases ho.symm.trans hu
    exact ⟨n, hn⟩
  · change Evaluation.outcome? (Evaluation.statements _ _ _ _) = _ at ho
    rw [exhausted] at ho
    cases ho

end Program

end Bytescript
