import Mathlib
import Bytescript.Proofs.Correctness
import Bytescript.Proofs.MarkedStatements

/-!
# Truth values are zero or one

Comparisons, and operators on truth values, use whole bytes, so they are right only if a truth value
is never another byte than zero or one. In a compiled program this holds in front of conditional
jumps, in front of operators on truth values, and in the variables between two statements, in every
run.
-/
namespace Bytescript

open Machine

/-- The bytes of a stack are truth values where a point requires it: at a boundary all those in
variables, in front of an operator on truth values all of its operands. -/
def Site.Canonical (stack : Bytes) (c : Assembly) : Site → Prop
  | .boundary => ∀ f ∈ c.frames, ∀ v ∈ f.declared, ∀ n, TruthAt v.ty n →
      ∃ b, stack[v.offset + n]? = some b ∧ IsTruth b
  | .operator o => o.operand = .bool → ∃ low operands, stack = low ++ operands ∧
      operands.length = o.operands ∧ ∀ b ∈ operands, IsTruth b

theorem Site.Shown.canonical {script : Script} {marks : Marks} {c : Assembly} {k : Site}
    {stack : Bytes} (shown : k.Shown script marks c) (respects : Respects marks stack) :
    k.Canonical stack c := by
  cases k with
  | boundary => exact fun f hf v hv n truth => respects.getElem? (shown f hf v hv n truth)
  | operator o =>
    obtain ⟨-, front, rfl⟩ := shown
    intro bool
    have all : (List.replicate o.operands o.operand.marks).flatten =
        List.replicate o.operands true := by
      rw [bool]
      exact List.flatten_replicate_singleton
    obtain ⟨low, operands, rfl, -, truths⟩ := respects.split
    rw [all] at truths
    exact ⟨low, operands, rfl, by simp [← truths.length_eq], respects_truths truths⟩

namespace Program

/-- The code of a compiled program is marked as a whole, and every operation in it is at a point
that the generator passes. -/
theorem exists_marked {options : CompileOptions} {time : Int64} {p : Program} {script : Script}
    (distinct : p.Distinct) (compiled : (p.compile options .standard time).script = some script)
    (aligned : ∀ env ∈ (Environment.ofProgram .standard options.automatic p).1, env.Aligned)
    (small : ∀ env ∈ (Environment.ofProgram .standard options.automatic p).1, env.Small)
    (bounded : Bounded script.code.toList) (data : script.data.length ≤ 4294967296) :
    ∃ env after, (Environment.ofProgram .standard options.automatic p).1 = some env ∧
      Marked script .none 0 script.code.size [] after
        (Generate.Passes env (Typing.ofProgram env p).notes p.body .start) ∧
      Sited (fun o => Generate.Passes env (Typing.ofProgram env p).notes p.body .start
        (.operator o)) 0 script.code.toList := by
  obtain ⟨env, issues, b, after, texts, he, accepted, hb, fits, hcode, hend, setting, holding, -⟩ :=
    exists_setting distinct compiled (fun env henv => (aligned env henv).uniform) small bounded data
  have henv : (Environment.ofProgram .standard options.automatic p).1 = some env := by rw [he]
  have marking := Environment.marking_of_standard he (aligned env henv)
  have tracked := (Lowering.tracks_statement_all setting marking).2 _ _ _ _ _ accepted (.start env)
    hb (hcode ▸ .start b.1) ⟨holding, fits.2⟩
  rw [hend] at tracked
  refine ⟨env, _, henv, tracked.points_of fun k c h => Or.inl ⟨.start, rfl, h⟩, ?_⟩
  rw [hcode]
  exact (Generate.sited_statement_all env _).2 p.body .start b hb fits

/-- In every state of a run, a byte that a jump tests is zero or one, so are the operands of an
operator on truth values, and between two statements so is every truth value in a variable. Every
operation in the code belongs to an operator that the generator visited. -/
theorem truth_values_canonical (options : CompileOptions) (time : Int64) (p : Program)
    (script : Script) (distinct : p.Distinct)
    (compiled : (p.compile options .standard time).script = some script)
    (aligned : options.automatic = true ∨
      ∀ env ∈ (Environment.ofProgram .standard options.automatic p).1, env.Aligned)
    (small : ∀ env ∈ (Environment.ofProgram .standard options.automatic p).1, env.Small)
    (bounded : Bounded script.code.toList) (data : script.data.length ≤ 4294967296) :
    ∃ env, (Environment.ofProgram .standard options.automatic p).1 = some env ∧
      (∀ j i op, script.code[j]? = some i → i.opcode? = some op → op.layout = .typed →
        ∃ o c, Generate.Passes env (Typing.ofProgram env p).notes p.body .start (.operator o) c ∧
          c.position = j ∧ i = Lowering.operation o.opcode o.operand) ∧
      ∀ capacity n s, runFor capacity script.view n Machine.start = .running s →
        (∀ i, script.code[s.ip]? = some i → i.opcode? = some .jumpIfFalse →
          ∃ b, s.stack.toList.getLast? = some b ∧ IsTruth b) ∧
        ∀ k c, Generate.Passes env (Typing.ofProgram env p).notes p.body .start k c →
          c.position = s.ip → k.Canonical s.stack.toList c := by
  have all : ∀ env ∈ (Environment.ofProgram .standard options.automatic p).1, env.Aligned := by
    rcases aligned with automatic | aligned
    · intro env henv
      rw [automatic] at henv
      exact Environment.aligned_of_automatic (Prod.ext henv rfl)
    · exact aligned
  obtain ⟨env, after, henv, ⟨A, covers, shown⟩, sited⟩ :=
    exists_marked distinct compiled all small bounded data
  refine ⟨env, henv, fun j i op hi hop typed => ?_, fun capacity n s running => ?_⟩
  · rw [← Array.getElem?_toList] at hi
    obtain ⟨o, c, passes, hc⟩ := sited j i op hi hop typed
    obtain rfl : c.position = j := hc.trans (Nat.zero_add j)
    have operation := (shown _ c passes).2.2.1
    rw [hi] at operation
    exact ⟨o, c, passes, rfl, Option.some.inj operation⟩
  · have start : Machine.start.Obeys script A := by
      refine ⟨Nat.zero_le _, ?_⟩
      rw [show A Machine.start.ip = [] from covers.first]
      exact .nil
    obtain ⟨-, respects⟩ := runFor_obeys covers capacity n start running
    refine ⟨fun i hi tests => ?_, fun k c passes hc => ?_⟩
    · have hlt : s.ip < script.code.size := (Array.getElem?_eq_some_iff.mp hi).1
      obtain ⟨front, hfront⟩ := (covers.keeps s.ip i (Nat.zero_le _) hlt
        (by rwa [Array.getElem?_toList])).1 tests
      rw [hfront] at respects
      obtain ⟨low, top, hstack, -, truths⟩ := respects.split
      obtain ⟨⟩ | @⟨_, b, _, _, truth, ⟨⟩⟩ := truths
      exact ⟨b, by simp [hstack], truth rfl⟩
    · exact (hc ▸ (shown k c passes).2.2).canonical respects

def blinker : Program where
  name := none
  imports := []
  records := [
    ⟨"lamp", true, [⟨"level", ⟨"u8", [], ⟨1, 1⟩⟩, ⟨1, 1⟩⟩,
      ⟨"lit", ⟨"bool", [], ⟨1, 1⟩⟩, ⟨1, 1⟩⟩], ⟨1, 1⟩⟩,
    ⟨"room", true, [⟨"size", ⟨"u16", [], ⟨2, 1⟩⟩, ⟨2, 1⟩⟩,
      ⟨"lamp", ⟨"lamp", [], ⟨2, 1⟩⟩, ⟨2, 1⟩⟩], ⟨2, 1⟩⟩]
  body := [
    .declare ⟨3, 1⟩ "room" (some ⟨"room", [], ⟨3, 1⟩⟩) none,
    .declare ⟨4, 1⟩ "more" none (some (.literal ⟨0, ⟨4, 2⟩⟩ (.bool true))),
    .loop ⟨5, 1⟩ (.variable ⟨1, ⟨5, 2⟩⟩ "more") [
      .assign ⟨6, 1⟩ ⟨"room", ["lamp", "lit"]⟩ (.unary ⟨2, ⟨6, 2⟩⟩ .not
        (.field ⟨3, ⟨6, 5⟩⟩ (.field ⟨4, ⟨6, 4⟩⟩ (.variable ⟨5, ⟨6, 3⟩⟩ "room") "lamp") "lit")),
      .assign ⟨7, 1⟩ ⟨"more", []⟩ (.binary ⟨6, ⟨7, 2⟩⟩ .eq (.variable ⟨7, ⟨7, 3⟩⟩ "more")
        (.field ⟨8, ⟨7, 6⟩⟩ (.field ⟨9, ⟨7, 5⟩⟩ (.variable ⟨10, ⟨7, 4⟩⟩ "room") "lamp") "lit"))]]

theorem blinker_canonical :
    ∃ script env s c, (blinker.compile .default .standard 0).script = some script ∧
      (Environment.ofProgram .standard true blinker).1 = some env ∧
      runFor defaultCapacity script.view 12 Machine.start = .running s ∧
      s.stack.toList = [0, 0, 0, 1, 1] ∧
      Generate.Passes env (Typing.ofProgram env blinker).notes blinker.body .start .boundary c ∧
      c.position = s.ip ∧ c.frames.map (fun f => f.declared.map Variable.name) =
        [["room", "more"]] ∧ Site.boundary.Canonical s.stack.toList c := by
  have distinct : blinker.Distinct := by decide +kernel
  have small : ∀ env ∈ (Environment.ofProgram .standard true blinker).1, env.Small := by
    decide +kernel
  have runs : ∀ script ∈ (blinker.compile .default .standard 0).script,
      Bounded script.code.toList ∧ script.data.length ≤ 4294967296 ∧
        runFor defaultCapacity script.view 12 Machine.start =
          .running ⟨2, 12, .ofList [0, 0, 0, 1, 1]⟩ := by
    decide +kernel
  have points : ∀ env ∈ (Environment.ofProgram .standard true blinker).1,
      ∃ r ∈ (Generate.statements env (Typing.ofProgram env blinker).notes (blinker.body.take 2)
          .start).toOption,
        r.2.position = 2 ∧
          r.2.frames.map (fun f => f.declared.map Variable.name) = [["room", "more"]] := by
    decide +kernel
  obtain ⟨script, compiled⟩ := Option.isSome_iff_exists.mp
    (show (blinker.compile .default .standard 0).script.isSome by decide +kernel)
  obtain ⟨bounded, data, running⟩ := runs script compiled
  obtain ⟨env, henv, -, canonical⟩ := truth_values_canonical .default 0 blinker script distinct
    compiled (Or.inl rfl) small bounded data
  obtain ⟨⟨⟨⟩, c⟩, done, position, names⟩ := points env henv
  have passes : Generate.Passes env (Typing.ofProgram env blinker).notes blinker.body .start
      .boundary c :=
    Generate.Passes.after (toOption_eq_some_iff.mp done) .here
  obtain ⟨-, sites⟩ := canonical _ _ _ running
  exact ⟨script, env, _, c, compiled, henv, running, Stack.toList_ofList _, passes, position, names,
    sites .boundary c passes position⟩

def maskedBool : Program where
  name := some Module.coreName
  imports := [⟨Module.coreName, some "u8", ⟨1, 1⟩⟩]
  records := [⟨"bool", true, [⟨"a", ⟨"u8", [], ⟨2, 1⟩⟩, ⟨2, 1⟩⟩], ⟨2, 1⟩⟩]
  body := [
    .declare ⟨1, 1⟩ "x" (some ⟨"bool", [], ⟨1, 1⟩⟩) none,
    .assign ⟨2, 1⟩ ⟨"x", ["a"]⟩ (.literal ⟨0, ⟨2, 2⟩⟩ (.integer "5" false)),
    .declare ⟨3, 1⟩ "y" none (some (.literal ⟨1, ⟨3, 2⟩⟩ (.bool true))),
    .assign ⟨4, 1⟩ ⟨"y", []⟩ (.variable ⟨2, ⟨4, 2⟩⟩ "x"),
    .branch ⟨5, 1⟩ (.variable ⟨3, ⟨5, 2⟩⟩ "y")
      [.discard ⟨6, 1⟩ (.literal ⟨4, ⟨6, 2⟩⟩ (.bool true))] none]

theorem maskedBool_not_aligned :
    ∀ env ∈ (Environment.ofProgram .standard false maskedBool).1, ¬ env.Aligned := by
  intro env henv aligned
  have record : ∀ env ∈ (Environment.ofProgram .standard false maskedBool).1,
      ∃ d ∈ env.types.types, d.home = Module.coreName ∧ d.name = Primitive.bool.name ∧
        d.primitive? = none ∧ ∀ f ∈ d.fields, f.ty.primitive? = some .u8 := by
    decide +kernel
  obtain ⟨d, hd, home, name, shape, fields⟩ := record env henv
  have core : Definition.ofPrimitive Module.coreName .bool ∈ Module.core.types :=
    Module.mem_core.mpr (Or.inl ⟨.bool, rfl⟩)
  -- The core type is a truth value, the one field of the record is none.
  obtain ⟨n, truth⟩ : ∃ n, TruthAt (.of d) n :=
    ⟨0, ((aligned _ core d hd home.symm name.symm).2 0).mp (.whole rfl)⟩
  cases truth with
  | whole h => cases shape.symm.trans h
  | field hf h =>
    have number := fields _ hf
    cases h with
    | whole h => cases number.symm.trans h
    | field hg => simp [Ty.fields_of_primitive? number] at hg

/-- Here the types are not aligned, and a jump tests a byte that is neither zero nor one. -/
theorem maskedBool_not_canonical :
    (∀ env ∈ (Environment.ofProgram .standard false maskedBool).1, ¬ env.Aligned) ∧
      ∃ script ∈ (maskedBool.compile ⟨false, false⟩ .standard 0).script,
        (∃ i ∈ script.code[7]?, i.opcode? = some .jumpIfFalse) ∧
        runFor defaultCapacity script.view 7 Machine.start =
          .running ⟨7, 7, .ofList [5, 5, 5]⟩ ∧ ¬ IsTruth 5 :=
  ⟨maskedBool_not_aligned, by decide +kernel⟩

end Program

end Bytescript
