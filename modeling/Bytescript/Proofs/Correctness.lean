import Mathlib
import Bytescript.Proofs.Gates
import Bytescript.Proofs.Simulation

/-!
# Compiled programs do what they mean

A compiled program ends if and only if its evaluation ends, and in the same way: past its last
statement or at a halt, with the values of the variables in scope there on the stack, or at a
division by zero. The machine may have too little room on its stack, but no other fault occurs.
-/
namespace Bytescript

open Evaluation Machine

/-- How a program ends, with the values of its variables. -/
inductive Outcome where
  | finished (bytes : Bytes)
  | halted (code : Int32) (bytes : Bytes)
  | divisionByZero
  deriving DecidableEq, Repr

def Evaluation.outcome? : Except Ending Store → Option Outcome
  | .ok store => some (.finished store.bytes)
  | .error (.halted code store) => some (.halted code store.bytes)
  | .error .divisionByZero => some .divisionByZero
  | .error .stuck | .error .exhausted => none

namespace Machine

/-- How a run has ended, if it has, other than for lack of room or by an error in the code. -/
def Status.outcome? : Status → Option Outcome
  | .ended .finished s => some (.finished s.stack.toList)
  | .ended (.halted code) s => some (.halted code s.stack.toList)
  | .faulted ⟨_, .divisionByZero⟩ _ => some .divisionByZero
  | .faulted _ _ | .running _ | .panicked _ _ => none

section

variable {capacity bound n k : Nat} {view : View} {script : Script} {s t : State} {o : Outcome}

theorem runFor_eq_of_le {status : Status} (h : runFor capacity view n s = status)
    (stopped : ∀ t, status ≠ .running t) (hle : n ≤ k) : runFor capacity view k s = status := by
  obtain ⟨m, rfl⟩ := Nat.exists_eq_add_of_le hle
  rw [runFor_add, h]
  cases status with
  | running t => exact absurd rfl (stopped t)
  | ended exit t => rfl
  | faulted fault t => rfl
  | panicked q t => rfl

theorem runFor_eq_of_stopped (hn : ∀ t, runFor capacity view n s ≠ .running t)
    (hk : ∀ t, runFor capacity view k s ≠ .running t) :
    runFor capacity view n s = runFor capacity view k s := by
  rcases Nat.le_total n k with hle | hle
  · exact (runFor_eq_of_le rfl hn hle).symm
  · exact runFor_eq_of_le rfl hk hle

theorem Overflows.ne_running {status : Status} (h : Overflows capacity status) (t : State) :
    status ≠ .running t := by
  obtain ⟨f, u, rfl, -⟩ := h
  intro he
  cases he

theorem ne_running_of_outcome? {status : Status} (h : status.outcome? = some o) (t : State) :
    status ≠ .running t := by
  rintro rfl
  cases h

/-- A run that realizes the evaluation of a program ends as the evaluation does, or takes as many
steps as the evaluation had rounds. -/
theorem Realizes.ends {r : Except Ending Store}
    (h : Realizes capacity script.view bound s r
      fun store t => t.At script.code.size store.bytes) :
    ∃ n, Overflows capacity (runFor capacity script.view n s) ∨
      (∃ o, Evaluation.outcome? r = some o ∧
        (runFor capacity script.view n s).outcome? = some o) ∨
      r = .error .exhausted ∧ bound ≤ n ∧ ∃ t, runFor capacity script.view n s = .running t := by
  obtain ⟨n, hn | hn⟩ := h
  · exact ⟨n, Or.inl hn⟩
  · match r with
    | .ok store =>
      obtain ⟨⟨ip, steps, stack⟩, ht, rfl, rfl⟩ := hn
      have hend : runFor capacity script.view (n + 1) s =
          .ended .finished ⟨script.code.size, steps, .ofList store.bytes⟩ := by
        rw [runFor_add, ht]
        simp [runFor, tick, Script.view]
      exact ⟨n + 1, Or.inr (Or.inl ⟨_, rfl, by rw [hend]; rfl⟩)⟩
    | .error (.halted code store) =>
      obtain ⟨t, ht, hstack⟩ := hn
      refine ⟨n, Or.inr (Or.inl ⟨_, rfl, ?_⟩)⟩
      rw [ht, Status.outcome?, hstack]
      rfl
    | .error .divisionByZero =>
      obtain ⟨⟨ip, cause⟩, t, ht, rfl⟩ := hn
      exact ⟨n, Or.inr (Or.inl ⟨_, rfl, by rw [ht]; rfl⟩)⟩
    | .error .stuck => exact hn.elim
    | .error .exhausted => exact ⟨n, Or.inr (Or.inr ⟨rfl, hn⟩)⟩

theorem not_overflows_of_outcome? (h : (runFor capacity view n s).outcome? = some o) (k : Nat) :
    ¬ Overflows capacity (runFor capacity view k s) := by
  intro overflows
  rw [← runFor_eq_of_stopped (ne_running_of_outcome? h) overflows.ne_running] at overflows
  obtain ⟨⟨ip, cause⟩, t, hf, needed, overflow⟩ := overflows
  cases overflow
  rw [hf] at h
  cases h

theorem overflows_or_outcome {r : Nat → Except Ending Store}
    (realized : ∀ fuel, Realizes capacity script.view fuel s (r fuel)
      fun store t => t.At script.code.size store.bytes)
    (stopped : ∀ t, runFor capacity script.view n s ≠ .running t) :
    Overflows capacity (runFor capacity script.view n s) ∨
      ∃ o, Evaluation.outcome? (r (n + 1)) = some o ∧
        (runFor capacity script.view n s).outcome? = some o := by
  obtain ⟨k, overflows | ⟨o, ho, hk⟩ | ⟨-, hle, t, ht⟩⟩ := (realized (n + 1)).ends
  · rw [runFor_eq_of_stopped stopped overflows.ne_running]
    exact Or.inl overflows
  · rw [runFor_eq_of_stopped stopped (ne_running_of_outcome? hk)]
    exact Or.inr ⟨o, ho, hk⟩
  · -- The run would still be on its way long after it stopped.
    rw [runFor_eq_of_le rfl stopped (by omega)] at ht
    exact absurd ht (stopped t)

end

end Machine

namespace Program

def Located (data : Bytes) (texts : String → Option Nat) : Prop :=
  ∀ value offset, texts value = some offset →
    Bytes.slice? data offset (Constant.text value).size = some (Constant.text value).toBytes

theorem exists_setting {options : CompileOptions} {time : Int64} {p : Program} {script : Script}
    (distinct : p.Distinct) (compiled : (p.compile options .standard time).script = some script)
    (uniform : ∀ env ∈ (Environment.ofProgram .standard options.automatic p).1, env.Uniform)
    (small : ∀ env ∈ (Environment.ofProgram .standard options.automatic p).1, env.Small)
    (bounded : Bounded script.code.toList) (data : script.data.length ≤ 4294967296) :
    ∃ env issues b after texts,
      Environment.ofProgram .standard options.automatic p = (some env, issues) ∧
      Typing.AcceptedAll env (Typing.ofProgram env p).notes [[]] p.body after ∧
      Lowering.statements env (Typing.ofProgram env p).notes Assembly.start.scene p.body =
        some b ∧ Assembly.start.Fits b.1 b.2.pool ∧
      script.code.toList = b.1 ∧ b.2.position = script.code.size ∧
      Lowering.Setting env (Typing.ofProgram env p).notes script
        ⟨env.types, (Typing.ofProgram env p).notes, texts⟩ ∧
      Holding script.data texts b.2.pool ∧ Located script.data texts := by
  obtain ⟨env, issues, b, after, he, accepted, hb, fits, hs⟩ := exists_of_compile distinct compiled
  obtain ⟨⟨-, finished⟩, hs⟩ := (Script.assemble_eq_ok_iff fits.2).mp hs
  have henv : (Environment.ofProgram .standard options.automatic p).1 = some env := by rw [he]
  have sound := Environment.sound_of_standard he (uniform env henv)
  have hcode : script.code.toList = b.1 := by rw [hs]; rfl
  let pool := (b.2.pool.store (.text env.home)).2
  have hdata : script.data = pool.blob := by rw [hs]; rfl
  have short : pool.Short := Pool.short_of_toBytes finished
  let texts := fun value => pool.find? (.text value)
  have setting : Lowering.Setting env (Typing.ofProgram env p).notes script
      ⟨env.types, (Typing.ofProgram env p).notes, texts⟩ :=
    ⟨sound, small env henv, bounded, data, rfl, rfl⟩
  have simulated := (Lowering.simulates_statement_all setting 0).2 _ _ _ _ _ accepted (.start env)
    hb (hcode ▸ .start b.1)
  have growsLast : b.2.pool.Grows pool := Pool.grows_store ..
  have tidy : pool.Tidy := growsLast.tidy (simulated.1.tidy Pool.tidy_empty)
  have holding : Holding script.data texts pool := by
    intro k offset hk
    refine ⟨hdata ▸ tidy.slice?_blob short hk, fun value hv => ?_⟩
    subst hv
    exact hk
  have hend : b.2.position = script.code.size := by
    rw [((Lowering.follows_statement_all env _).2 _ _ _ hb).1, ← Array.length_toList, hcode]
    exact Nat.zero_add _
  exact ⟨env, issues, b, after, texts, he, accepted, hb, fits, hcode, hend, setting,
    holding.of_grows growsLast, fun value offset h => (holding _ offset h).1⟩

/-- The machine follows the evaluation of a compiled program. -/
theorem exists_realized {options : CompileOptions} {time : Int64} {p : Program} {script : Script}
    (automatic : options.automatic = true) (distinct : p.Distinct)
    (compiled : (p.compile options .standard time).script = some script)
    (small : ∀ env ∈ (Environment.ofProgram .standard true p).1, env.Small)
    (bounded : Bounded script.code.toList) (data : script.data.length ≤ 4294967296) :
    ∃ env texts, (Environment.ofProgram .standard true p).1 = some env ∧
      Located script.data texts ∧ ∀ capacity fuel,
        Realizes capacity script.view fuel Machine.start
          (Evaluation.program ⟨env.types, (Typing.ofProgram env p).notes, texts⟩ fuel p)
          fun store t => t.At script.code.size store.bytes := by
  rw [← automatic] at small ⊢
  have uniform : ∀ env ∈ (Environment.ofProgram .standard options.automatic p).1, env.Uniform := by
    intro env henv
    rw [automatic] at henv
    exact Environment.uniform_of_automatic (Prod.ext henv rfl)
  obtain ⟨env, issues, b, after, texts, he, accepted, hb, -, hcode, hend, setting, holding,
    located⟩ :=
    exists_setting distinct compiled uniform small bounded data
  have simulated := fun capacity =>
    (Lowering.simulates_statement_all setting capacity).2 _ _ _ _ _ accepted (.start env) hb
      (hcode ▸ .start b.1)
  refine ⟨env, texts, by rw [he], located, fun capacity fuel => ?_⟩
  refine ((simulated capacity).2 [[]] fuel Machine.start holding (.cons .nil .nil)
    ⟨rfl, rfl⟩).mono (Nat.le_refl _) fun store t h => ?_
  exact hend ▸ h.2

/-- A compiled program ends with an outcome if and only if its evaluation does, unless the stack has
no room for its run. -/
theorem run_outcome_iff (time : Int64) (p : Program) (script : Script) (distinct : p.Distinct)
    (compiled : (p.compile .default .standard time).script = some script)
    (small : ∀ env ∈ (Environment.ofProgram .standard true p).1, env.Small)
    (bounded : Bounded script.code.toList) (data : script.data.length ≤ 4294967296) :
    ∃ env texts, (Environment.ofProgram .standard true p).1 = some env ∧
      Located script.data texts ∧ ∀ capacity,
        (∀ n, ¬ Overflows capacity (runFor capacity script.view n Machine.start)) →
        (∀ fuel, Evaluation.program ⟨env.types, (Typing.ofProgram env p).notes, texts⟩ fuel p ≠
          .error .stuck) ∧
        (∀ n, (∃ s, runFor capacity script.view n Machine.start = .running s) ∨
          ∃ o, (runFor capacity script.view n Machine.start).outcome? = some o) ∧
        ∀ o, (∃ n, (runFor capacity script.view n Machine.start).outcome? = some o) ↔
          ∃ fuel, Evaluation.outcome?
            (Evaluation.program ⟨env.types, (Typing.ofProgram env p).notes, texts⟩ fuel p) =
              some o := by
  obtain ⟨env, texts, henv, located, realized⟩ :=
    exists_realized rfl distinct compiled small bounded data
  refine ⟨env, texts, henv, located, fun capacity room => ⟨fun fuel hs => ?_, fun n => ?_,
    fun o => ⟨?_, ?_⟩⟩⟩
  · obtain ⟨n, overflows | ⟨o, ho, -⟩ | ⟨he, -⟩⟩ := (realized capacity fuel).ends
    · exact room n overflows
    · rw [hs] at ho
      cases ho
    · rw [hs] at he
      cases he
  · by_cases running : ∃ s, runFor capacity script.view n Machine.start = .running s
    · exact Or.inl running
    · rcases overflows_or_outcome (realized capacity) (not_exists.mp running) with h | ⟨o, -, h⟩
      · exact absurd h (room n)
      · exact Or.inr ⟨o, h⟩
  · rintro ⟨n, hn⟩
    rcases overflows_or_outcome (realized capacity) (ne_running_of_outcome? hn) with h | ⟨u, hu, h⟩
    · exact absurd h (room n)
    · cases hn.symm.trans h
      exact ⟨n + 1, hu⟩
  · rintro ⟨fuel, hf⟩
    obtain ⟨n, overflows | ⟨u, hu, hn⟩ | ⟨he, -⟩⟩ := (realized capacity fuel).ends
    · exact absurd overflows (room n)
    · cases hf.symm.trans hu
      exact ⟨n, hn⟩
    · rw [he] at hf
      cases hf

def search : Program where
  name := none
  imports := []
  records := []
  body := [
    .declare ⟨1, 1⟩ "n" (some ⟨"i32", [], ⟨1, 1⟩⟩)
      (some (.literal ⟨0, ⟨1, 2⟩⟩ (.integer "10" false))),
    .loop ⟨2, 1⟩
      (.binary ⟨1, ⟨2, 2⟩⟩ .gt (.variable ⟨2, ⟨2, 3⟩⟩ "n")
        (.literal ⟨3, ⟨2, 4⟩⟩ (.integer "0" false)))
      [.declare ⟨3, 1⟩ "m" none (some (.binary ⟨4, ⟨3, 2⟩⟩ .div (.variable ⟨5, ⟨3, 3⟩⟩ "n")
          (.literal ⟨6, ⟨3, 4⟩⟩ (.integer "3" false)))),
        .branch ⟨4, 1⟩ (.binary ⟨7, ⟨4, 2⟩⟩ .eq (.variable ⟨8, ⟨4, 3⟩⟩ "m")
          (.literal ⟨9, ⟨4, 4⟩⟩ (.integer "2" false))) [.halt ⟨5, 1⟩ 5] none,
        .assign ⟨6, 1⟩ ⟨"n", []⟩ (.binary ⟨10, ⟨6, 2⟩⟩ .sub (.variable ⟨11, ⟨6, 3⟩⟩ "n")
          (.literal ⟨12, ⟨6, 4⟩⟩ (.integer "1" false)))]]

theorem search_outcome :
    ∃ script env texts, (search.compile .default .standard 0).script = some script ∧
      (Environment.ofProgram .standard true search).1 = some env ∧
      ∃ fuel, Evaluation.outcome? (Evaluation.program
        ⟨env.types, (Typing.ofProgram env search).notes, texts⟩ fuel search) =
          some (.halted 5 [8, 0, 0, 0, 2, 0, 0, 0]) := by
  have distinct : search.Distinct := by decide +kernel
  have small : ∀ env ∈ (Environment.ofProgram .standard true search).1, env.Small := by
    decide +kernel
  have runs : ∀ script ∈ (search.compile .default .standard 0).script,
      Bounded script.code.toList ∧ script.data.length ≤ 4294967296 ∧
        (runFor defaultCapacity script.view 100 Machine.start).outcome? =
          some (.halted 5 [8, 0, 0, 0, 2, 0, 0, 0]) := by
    decide +kernel
  obtain ⟨script, compiled⟩ := Option.isSome_iff_exists.mp
    (show (search.compile .default .standard 0).script.isSome by decide +kernel)
  obtain ⟨bounded, data, halted⟩ := runs script compiled
  obtain ⟨env, texts, henv, -, ends⟩ :=
    run_outcome_iff 0 search script distinct compiled small bounded data
  obtain ⟨-, -, outcomes⟩ := ends defaultCapacity (not_overflows_of_outcome? halted)
  exact ⟨script, env, texts, compiled, henv, (outcomes _).mp ⟨100, halted⟩⟩

/-- The only faults of a compiled program are a division by zero and a stack without room, and its
runs do not panic. -/
theorem fault_eq_divisionByZero_or_stackOverflow (options : CompileOptions)
    (automatic : options.automatic = true) (time : Int64) (p : Program) (script : Script)
    (distinct : p.Distinct)
    (compiled : (p.compile options .standard time).script = some script)
    (small : ∀ env ∈ (Environment.ofProgram .standard true p).1, env.Small)
    (bounded : Bounded script.code.toList) (data : script.data.length ≤ 4294967296)
    (capacity n : Nat) :
    (∀ f s, runFor capacity script.view n Machine.start = .faulted f s →
      f.cause = .divisionByZero ∨ ∃ needed, f.cause = .stackOverflow needed capacity) ∧
    ∀ q s, runFor capacity script.view n Machine.start ≠ .panicked q s := by
  obtain ⟨env, texts, -, -, realized⟩ :=
    exists_realized automatic distinct compiled small bounded data
  have ends (stopped : ∀ t, runFor capacity script.view n Machine.start ≠ .running t) :=
    overflows_or_outcome (realized capacity) stopped
  constructor
  · intro f s faulted
    rw [faulted] at ends
    rcases ends nofun with ⟨g, t, hg, needed, overflow⟩ | ⟨o, -, ho⟩
    · cases hg
      exact Or.inr ⟨needed, Stop.fault.inj overflow⟩
    · obtain ⟨ip, cause⟩ := f
      cases cause with
      | divisionByZero => exact Or.inl rfl
      | _ => cases ho
  · intro q s panicked
    rw [panicked] at ends
    rcases ends nofun with ⟨g, t, hg, -⟩ | ⟨o, -, ho⟩
    · cases hg
    · cases ho

def zeroDivisor : Program where
  name := none
  imports := []
  records := []
  body := [.discard ⟨1, 1⟩ (.binary ⟨0, ⟨1, 2⟩⟩ .div (.literal ⟨1, ⟨1, 1⟩⟩ (.integer "1" false))
    (.literal ⟨2, ⟨1, 3⟩⟩ (.integer "0" false)))]

theorem zeroDivisor_fault :
    ∃ script f s, (zeroDivisor.compile .default .standard 0).script = some script ∧
      runFor defaultCapacity script.view 3 Machine.start = .faulted f s ∧
      (f.cause = .divisionByZero ∨ ∃ needed, f.cause = .stackOverflow needed defaultCapacity) := by
  have distinct : zeroDivisor.Distinct := by decide +kernel
  have small : ∀ env ∈ (Environment.ofProgram .standard true zeroDivisor).1, env.Small := by
    decide +kernel
  have runs : ∀ script ∈ (zeroDivisor.compile .default .standard 0).script,
      Bounded script.code.toList ∧ script.data.length ≤ 4294967296 ∧
        runFor defaultCapacity script.view 3 Machine.start =
          .faulted ⟨2, .divisionByZero⟩ ⟨2, 3, .empty⟩ := by
    decide +kernel
  obtain ⟨script, compiled⟩ := Option.isSome_iff_exists.mp
    (show (zeroDivisor.compile .default .standard 0).script.isSome by decide +kernel)
  obtain ⟨bounded, data, faulted⟩ := runs script compiled
  exact ⟨script, _, _, compiled, faulted, (fault_eq_divisionByZero_or_stackOverflow .default rfl 0
    zeroDivisor script distinct compiled small bounded data _ _).1 _ _ faulted⟩

end Program

end Bytescript
