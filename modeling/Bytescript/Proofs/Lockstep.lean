import Mathlib
import Bytescript.Proofs.Depth
import Bytescript.Proofs.Footprint
import Bytescript.Proofs.Gates

/-!
# The counted stack and the stack of the machine

While it appends instructions the assembly counts the bytes that the machine will have on its stack.
In every run of a compiled program the machine has exactly as many: before each instruction,
whichever jumps were taken, and behind the last one.
-/
namespace Bytescript

theorem depthAt_succ {code : List Instruction} {k : Nat} {i : Instruction}
    (h : code[k]? = some i) : depthAt code (k + 1) = depthAt code k - i.effect.1 + i.effect.2 := by
  rw [depthAt, List.take_add_one, h, depthAfter_append]
  rfl

theorem depthAfter_congr {is js : List Instruction}
    (h : is.map Instruction.effect = js.map Instruction.effect) (n : Nat) :
    depthAfter n is = depthAfter n js := by
  have fold : ∀ ks : List Instruction, depthAfter n ks =
      (ks.map Instruction.effect).foldl (fun n e => n - e.1 + e.2) n := by
    intro ks
    rw [List.foldl_map]
    rfl
  rw [fold, fold, h]

theorem map_effect_set {code : List Instruction} {slot : Nat} {i j : Instruction}
    (hi : code[slot]? = some i) (he : i.effect = j.effect) :
    (code.set slot j).map Instruction.effect = code.map Instruction.effect := by
  rw [List.map_set, ← he]
  apply List.ext_getElem?
  intro l
  rw [List.getElem?_set]
  split
  · next hl =>
    subst hl
    obtain ⟨hlt, rfl⟩ := List.getElem?_eq_some_iff.mp hi
    simp [hlt]
  · rfl

theorem depthAt_set {code : List Instruction} {slot : Nat} {i j : Instruction}
    (hi : code[slot]? = some i) (he : i.effect = j.effect) (k : Nat) :
    depthAt (code.set slot j) k = depthAt code k := by
  refine depthAfter_congr ?_ 0
  rw [List.map_take, List.map_take, map_effect_set hi he]

namespace Assembly

/-- The sizes of the stack that an assembly counted, each just before an instruction was appended,
oldest first. Frames and constants do not matter, and an open jump may be directed at any time. -/
inductive Logged : Assembly → List Nat → Prop
  | start : Logged .start []
  | emit {a b : Assembly} {sizes : List Nat} {i : Instruction} (h : Logged a sizes)
      (emitted : a.emit i = .ok b) : Logged b (sizes ++ [a.stackSize])
  | amend {a : Assembly} {sizes : List Nat} (frames : List Frame) (pool : Pool)
      (h : Logged a sizes) : Logged { a with frames, pool } sizes
  | direct {a : Assembly} {sizes : List Nat} {slot : Nat} {conditional : Bool} (target : Nat)
      (h : Logged a sizes)
      (hs : a.code[slot]? = some (.worded (jumpOpcode conditional) noTarget)) :
      Logged { a with
        code := a.code.setIfInBounds slot (.worded (jumpOpcode conditional) target) } sizes

theorem Logged.sizes_eq {a : Assembly} {sizes : List Nat} (h : a.Logged sizes) :
    sizes = (List.range a.code.size).map (depthAt a.code.toList) ∧
      a.stackSize = depthAt a.code.toList a.code.size := by
  induction h with
  | start => exact ⟨rfl, rfl⟩
  | @emit a b sizes i h emitted ih =>
    obtain ⟨hs, hd⟩ := ih
    obtain ⟨-, rfl⟩ := emit_eq_ok_iff.mp emitted
    have code : (a.appended [i] a.pool).code = a.code.push i := by simp [appended]
    have before : ∀ k ≤ a.code.size,
        depthAt (a.code.push i).toList k = depthAt a.code.toList k := by
      intro k hk
      rw [depthAt, Array.toList_push, List.take_append_of_le_length (by simpa using hk), depthAt]
    rw [code, Array.size_push, List.range_succ, List.map_append]
    refine ⟨?_, ?_⟩
    · rw [hd, ← before _ (Nat.le_refl _), hs]
      congr 1
      refine List.map_congr_left fun k hk => (before k ?_).symm
      exact Nat.le_of_lt (List.mem_range.mp hk)
    · have hl : a.code.toList.take a.code.size = a.code.toList := List.take_of_length_le (by simp)
      rw [depthAt, hl] at hd
      rw [depthAt, Array.toList_push, List.take_of_length_le (by simp), depthAfter_append, ← hd]
      rfl
  | amend _ _ _ ih => exact ih
  | @direct a sizes slot conditional target h hs ih =>
    obtain ⟨hd, hf⟩ := ih
    have same : ∀ k, depthAt (a.code.setIfInBounds slot
        (.worded (jumpOpcode conditional) target)).toList k = depthAt a.code.toList k := by
      intro k
      rw [Array.toList_setIfInBounds]
      refine depthAt_set (by simpa using hs) ?_ k
      exact (Lowering.effect_jump conditional noTarget).trans
        (Lowering.effect_jump conditional target).symm
    simp only [Array.size_setIfInBounds, same]
    exact ⟨by rw [hd, funext same], hf⟩

/-- The size counted at each place of the code, the last one included, is the depth there. -/
theorem Logged.getElem? {a : Assembly} {sizes : List Nat} (h : a.Logged sizes) {k : Nat}
    (hk : k ≤ a.code.size) :
    (sizes ++ [a.stackSize])[k]? = some (depthAt a.code.toList k) := by
  obtain ⟨hs, hd⟩ := h.sizes_eq
  have hl : sizes ++ [a.stackSize] =
      (List.range (a.code.size + 1)).map (depthAt a.code.toList) := by
    rw [List.range_succ, List.map_append, ← hs, hd]
    rfl
  rw [hl, List.getElem?_map, List.getElem?_range (by omega)]
  rfl

theorem Logged.emitAll {a b : Assembly} {sizes : List Nat} (h : a.Logged sizes)
    {is : List Instruction} (emitted : a.emitAll is = .ok b) : ∃ more, b.Logged more := by
  induction is generalizing a sizes with
  | nil =>
    cases emitted
    exact ⟨sizes, h⟩
  | cons i rest ih =>
    obtain ⟨c, one, others⟩ := bind_eq_ok_iff.mp emitted
    exact ih (h.emit one) others

theorem exists_logged_withBody {b : Lowering.Body} (h : Lowering.Follows start.scene b)
    (fits : start.Fits b.1 b.2.pool) : ∃ sizes, (start.withBody b).Logged sizes := by
  obtain ⟨sizes, hs⟩ := Logged.start.emitAll (emitAll_eq_ok_iff.mpr ⟨fits.1, rfl⟩)
  refine ⟨sizes, ?_⟩
  have amended := hs.amend b.2.frames b.2.pool
  have hsize : b.2.size = depthAfter start.stackSize b.1 := h.2
  rw [withBody, hsize]
  exact amended

end Assembly

namespace Machine

/-- The stack of the machine has the depth of the code at the current index. -/
def State.IsLevel (code : List Instruction) (s : State) : Prop :=
  s.ip ≤ code.length ∧ s.stack.size = depthAt code s.ip

variable {script : Script}

/-- A step keeps the stack at the depth of the code, and a run that passes the last instruction ends
at the depth behind it. -/
theorem tick_isLevel (capacity : Nat) (steady : ∀ i, Steady script.code.toList i) {s : State}
    (level : s.IsLevel script.code.toList) :
    (∀ t, tick capacity script.view s = .running t → t.IsLevel script.code.toList) ∧
      ∀ t, tick capacity script.view s = .ended .finished t →
        t.ip = script.code.size ∧ t.IsLevel script.code.toList := by
  obtain ⟨ip, steps, stack⟩ := s
  obtain ⟨hip, hsize⟩ := level
  dsimp only at hip hsize
  rw [Array.length_toList] at hip
  by_cases hlt : ip < script.code.size
  · have hi : script.code[ip]? = some script.code[ip] := Array.getElem?_eq_getElem hlt
    obtain ⟨r, stack', hr⟩ : ∃ r stack',
        (script.code[ip].step capacity script.data).run.run stack = (r, stack') := ⟨_, _, rfl⟩
    have hc : script.code.toList[ip]? = some script.code[ip] := by
      rw [Array.getElem?_toList, hi]
    have ht : tick capacity script.view ⟨ip, steps, stack⟩ =
        advance script.code.size ip (steps + 1) stack' r := by
      simp only [tick, Script.view, hlt, if_true, hi, hr]
    rw [ht]
    match r with
    | .error (.fault _) | .error (.panic _) =>
      exact ⟨fun t h => (by cases h), fun t h => (by cases h)⟩
    | .ok (.halt c) => exact ⟨fun t h => (by cases h), fun t h => (by cases h)⟩
    | .ok .next =>
      refine ⟨fun t h => ?_, fun t h => (by cases h)⟩
      cases h
      have hs := (Instruction.touches_step hr).size
      exact ⟨by simpa using hlt, by rw [hs, hsize, depthAt_succ hc]⟩
    | .ok (.goto target) =>
      have hs := (Instruction.touches_step hr).size
      obtain ⟨hle, hd⟩ := steady ip _ target hc (Instruction.step_aims hr target rfl)
      rw [Array.length_toList] at hle
      simp only [advance, Nat.not_lt.mpr hle, if_false]
      refine ⟨fun t h => ?_, fun t h => (by cases h)⟩
      cases h
      refine ⟨by simpa using hle, ?_⟩
      rw [hd, hs, hsize, depthAt_succ hc]
  · have ht : tick capacity script.view ⟨ip, steps, stack⟩ =
        .ended .finished ⟨ip, steps, stack⟩ := by
      simp [tick, Script.view, hlt]
    rw [ht]
    refine ⟨fun t h => (by cases h), fun t h => ?_⟩
    cases h
    exact ⟨by dsimp only; omega, by simpa using hip, hsize⟩

theorem runFor_isLevel (capacity : Nat) (steady : ∀ i, Steady script.code.toList i) (n : Nat)
    {s : State} (level : s.IsLevel script.code.toList) :
    (∀ t, runFor capacity script.view n s = .running t → t.IsLevel script.code.toList) ∧
      ∀ t, runFor capacity script.view n s = .ended .finished t →
        t.ip = script.code.size ∧ t.IsLevel script.code.toList := by
  induction n generalizing s with
  | zero =>
    refine ⟨fun t ht => ?_, fun t ht => ?_⟩
    · cases ht
      exact level
    · cases ht
  | succ n ih =>
    obtain ⟨running, finished⟩ := tick_isLevel capacity steady level
    simp only [runFor]
    cases ht : tick capacity script.view s with
    | running u => exact ih (running u ht)
    | ended exit u =>
      refine ⟨fun t h => (by cases h), fun t h => ?_⟩
      cases h
      exact finished _ ht
    | faulted | panicked => exact ⟨fun t h => (by cases h), fun t h => (by cases h)⟩

end Machine

namespace Program

theorem steady_of_statements {env : Environment} {notes : Notes} {body : List Stmt}
    {after : Typing.Scopes} {b : Lowering.Body} (sound : env.Sound) (small : env.Small)
    (accepted : Typing.AcceptedAll env notes [[]] body after)
    (hb : Lowering.statements env notes Assembly.start.scene body = some b)
    (bounded : Bounded b.1) : ∀ i, Steady b.1 i := by
  have follows := (Lowering.follows_statement_all env notes).2 _ _ _ hb
  obtain ⟨-, steady⟩ :=
    (Lowering.level_statement_all sound small bounded.depth).2 _ _ _ _ _ accepted (.start env) hb
      (.start b.1)
  intro i
  by_cases hi : i < b.1.length
  · refine steady bounded.length i (Nat.zero_le i) ?_
    rw [follows.1]
    exact Nat.lt_of_lt_of_le hi (Nat.le_add_left ..)
  · intro instr t hinstr
    rw [List.getElem?_eq_none (by omega)] at hinstr
    cases hinstr

/-- Before each instruction of a run, and behind the last one, the machine has as many bytes on its
stack as the assembly had counted when it appended the instruction. The depth at the target of a
jump is the depth behind the jump, and every jump has been directed. -/
theorem stack_size_eq_count (options : CompileOptions) (time : Int64) (p : Program)
    (script : Script) (distinct : p.Distinct)
    (compiled : (p.compile options .standard time).script = some script)
    (uniform : ∀ env ∈ (Environment.ofProgram .standard options.automatic p).1, env.Uniform)
    (small : ∀ env ∈ (Environment.ofProgram .standard options.automatic p).1, env.Small)
    (bounded : Bounded script.code.toList) (short : script.code.size < Assembly.noTarget) :
    ∃ env a, (Environment.ofProgram .standard options.automatic p).1 = some env ∧
      Generate.ofProgram env (Typing.ofProgram env p).notes p = .ok a ∧ a.code = script.code ∧
      (∃ sizes, a.Logged sizes) ∧
      ∀ sizes, a.Logged sizes →
        (∀ capacity n s, Machine.runFor capacity script.view n Machine.start = .running s →
          (sizes ++ [a.stackSize])[s.ip]? = some s.stack.size) ∧
        (∀ capacity n s, Machine.runFor capacity script.view n Machine.start = .ended .finished s →
          s.ip = script.code.size ∧ s.stack.size = a.stackSize) ∧
        ∀ i instr t, script.code[i]? = some instr → instr.target? = some t →
          t ≠ Assembly.noTarget ∧ ∃ size, (sizes ++ [a.stackSize])[t]? = some size ∧
            (sizes ++ [a.stackSize])[i + 1]? = some size := by
  obtain ⟨env, issues, b, after, he, accepted, hb, fits, hs⟩ := exists_of_compile distinct compiled
  have hcode : script.code = b.1.toArray := by
    rw [((Script.assemble_eq_ok_iff fits.2).mp hs).2]
    rfl
  have henv : (Environment.ofProgram .standard options.automatic p).1 = some env := by rw [he]
  have sound := Environment.sound_of_standard he (uniform env henv)
  rw [hcode] at bounded short ⊢
  have steady := steady_of_statements sound (small env henv) accepted hb bounded
  have follows := (Lowering.follows_statement_all env _).2 _ _ _ hb
  refine ⟨env, Assembly.start.withBody b, henv, ?_, by simp [Assembly.withBody, Assembly.start],
    Assembly.exists_logged_withBody follows fits, fun sizes logged => ?_⟩
  · exact Generate.ofProgram_eq_ok_iff.mpr ⟨b, hb, fits, rfl⟩
  · have hc : (Assembly.start.withBody b).code.toList = b.1 := by
      simp [Assembly.withBody, Assembly.start]
    have count : ∀ k ≤ b.1.length,
        (sizes ++ [(Assembly.start.withBody b).stackSize])[k]? = some (depthAt b.1 k) := by
      intro k hk
      rw [logged.getElem? (by rwa [← Array.length_toList, hc]), hc]
    have last : (Assembly.start.withBody b).stackSize = depthAt b.1 b.1.length := by
      rw [logged.sizes_eq.2, hc, ← Array.length_toList, hc]
    have hl : script.code.toList = b.1 := by rw [hcode]
    have start : Machine.start.IsLevel script.code.toList := ⟨Nat.zero_le _, rfl⟩
    have run := fun capacity n => Machine.runFor_isLevel capacity
      (by rw [hl]; exact steady) n start
    rw [hl] at run
    refine ⟨fun capacity n s hr => ?_, fun capacity n s hr => ?_, fun i instr t hi ht => ?_⟩
    · obtain ⟨hip, hsize⟩ := (run capacity n).1 s hr
      rw [count _ hip, hsize]
    · obtain ⟨hip, -, hsize⟩ := (run capacity n).2 s hr
      have hn : s.ip = b.1.length := by rw [hip, hcode, List.size_toArray]
      exact ⟨by rw [hn, List.size_toArray], by rw [hsize, last, hn]⟩
    · rw [List.getElem?_toArray] at hi
      obtain ⟨hle, hd⟩ := steady i instr t hi ht
      have hlt := (List.getElem?_eq_some_iff.mp hi).1
      rw [List.size_toArray] at short
      exact ⟨by omega, _, count t hle, by rw [count (i + 1) (by omega), hd]⟩

def countdown : Program where
  name := none
  imports := []
  records := []
  body := [
    .declare ⟨1, 1⟩ "n" (some ⟨"i32", [], ⟨1, 1⟩⟩)
      (some (.literal ⟨0, ⟨1, 2⟩⟩ (.integer "3" false))),
    .loop ⟨2, 1⟩
      (.binary ⟨1, ⟨2, 2⟩⟩ .gt (.variable ⟨2, ⟨2, 3⟩⟩ "n")
        (.literal ⟨3, ⟨2, 4⟩⟩ (.integer "0" false)))
      [.declare ⟨3, 1⟩ "m" none (some (.variable ⟨4, ⟨3, 2⟩⟩ "n")),
        .assign ⟨4, 1⟩ ⟨"n", []⟩ (.binary ⟨5, ⟨4, 2⟩⟩ .sub (.variable ⟨6, ⟨4, 3⟩⟩ "m")
          (.literal ⟨7, ⟨4, 4⟩⟩ (.integer "1" false)))]]

theorem countdown_stack_size :
    ∃ script, (countdown.compile .default .standard 0).script = some script ∧
      ∀ capacity n s, Machine.runFor capacity script.view n Machine.start = .ended .finished s →
        s.ip = script.code.size ∧ s.stack.size = 4 := by
  have distinct : countdown.Distinct := by decide +kernel
  have uniform : ∀ env ∈ (Environment.ofProgram .standard true countdown).1, env.Uniform := by
    decide +kernel
  have small : ∀ env ∈ (Environment.ofProgram .standard true countdown).1, env.Small := by
    decide +kernel
  have bounded : ∀ script ∈ (countdown.compile .default .standard 0).script,
      Bounded script.code.toList ∧ script.code.size < Assembly.noTarget ∧
        depthAt script.code.toList script.code.size = 4 := by
    decide +kernel
  obtain ⟨script, compiled⟩ := Option.isSome_iff_exists.mp
    (show (countdown.compile .default .standard 0).script.isSome by decide +kernel)
  obtain ⟨hb, short, hl⟩ := bounded script compiled
  obtain ⟨env, a, -, -, hcode, ⟨sizes, logged⟩, run⟩ :=
    stack_size_eq_count .default 0 countdown script distinct compiled uniform small hb short
  refine ⟨script, compiled, fun capacity n s hr => ?_⟩
  obtain ⟨hip, hsize⟩ := (run sizes logged).2.1 capacity n s hr
  exact ⟨hip, by rw [hsize, logged.sizes_eq.2, hcode, hl]⟩

def hiddenBool : Program where
  name := some Module.coreName
  imports := [⟨Module.coreName, some "u128", ⟨1, 1⟩⟩]
  records := [⟨"bool", true, [⟨"a", ⟨"u128", [], ⟨2, 1⟩⟩, ⟨2, 1⟩⟩], ⟨2, 1⟩⟩]
  body := [
    .declare ⟨1, 1⟩ "x" (some ⟨"u128", [], ⟨1, 1⟩⟩) none,
    .declare ⟨1, 1⟩ "y" (some ⟨"u128", [], ⟨1, 1⟩⟩) none,
    .branch ⟨1, 1⟩ (.literal ⟨0, ⟨1, 1⟩⟩ (.bool false))
      [.discard ⟨1, 1⟩ (.cast ⟨2, ⟨1, 1⟩⟩ (.literal ⟨1, ⟨1, 1⟩⟩ (.bool true)) ⟨"bool", [], ⟨1, 1⟩⟩)]
      none]

/-- Here the types are not uniform, and the machine ends with more bytes than were counted. -/
theorem hiddenBool_stack_size :
    ∃ script ∈ (hiddenBool.compile ⟨false, false⟩ .standard 0).script,
      ∃ env ∈ (Environment.ofProgram .standard false hiddenBool).1,
        ∃ a ∈ (Generate.ofProgram env (Typing.ofProgram env hiddenBool).notes hiddenBool).toOption,
          ¬ env.Uniform ∧ a.stackSize = 17 ∧
          Machine.runFor Machine.defaultCapacity script.view 5 Machine.start =
            .ended .finished ⟨6, 4, ⟨Array.replicate 32 0⟩⟩ := by
  decide +kernel

end Program

end Bytescript
