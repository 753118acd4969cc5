import Mathlib
import Bytescript.Proofs.Correctness
import Bytescript.Proofs.LiteralValues
import Bytescript.Proofs.Partition
import Bytescript.Proofs.Room

/-!
# Programs that compute with integer literals

A program that declares one variable and computes its value from integer literals needs sixteen
bytes of stack for each of them. If it compiles and has this room, it finishes with the evaluated
value of the variable on the stack.
-/
namespace Bytescript

open Evaluation Machine

/-- Code from a depth of `n` bytes on is nowhere deeper than `bound`. -/
def Shallow (bound : Nat) : Nat → List Instruction → Prop
  | n, [] => n ≤ bound
  | n, i :: is => n ≤ bound ∧ Shallow bound (n - i.effect.1 + i.effect.2) is

section

variable {bound n : Nat} {is js : List Instruction}

theorem Shallow.append (hi : Shallow bound n is) (hj : Shallow bound (depthAfter n is) js) :
    Shallow bound n (is ++ js) := by
  induction is generalizing n with
  | nil => exact hj
  | cons i is ih => exact ⟨hi.1, ih hi.2 hj⟩

theorem Shallow.mono {b : Nat} (h : Shallow b n is) (hb : b ≤ bound) : Shallow bound n is := by
  induction is generalizing n with
  | nil => exact Nat.le_trans h hb
  | cons i is ih => exact ⟨Nat.le_trans h.1 hb, ih h.2⟩

theorem Shallow.depthAfter_take_le (h : Shallow bound n is) (k : Nat) :
    depthAfter n (is.take k) ≤ bound := by
  induction is generalizing n k with
  | nil =>
    rw [List.take_nil]
    exact h
  | cons i is ih =>
    cases k with
    | zero => exact h.1
    | succ k => exact ih h.2 k

theorem shallow_coercion {note : Note} {cs : List Instruction} (suited : Typing.Suited note)
    (h : Lowering.coercion note = some cs) (hs : note.ty.size ≤ 16) (n : Nat) :
    cs.length ≤ 1 ∧ Shallow (n + 16) (n + note.ty.size) cs := by
  unfold Lowering.coercion at h
  cases hc : note.coercion with
  | none =>
    rw [hc] at h
    cases h
    exact ⟨Nat.zero_le _, Nat.add_le_add_left hs n⟩
  | some c =>
    obtain ⟨p, q, hp, hq, suits⟩ := suited c hc
    obtain ⟨i, hi⟩ := suits.instruction?
    have after := Conversion.depthAfter_instruction hi n
    have hsize := q.size_le
    rw [hc] at h
    simp only [hp, hq, Option.bind_some, Option.map_some, hi, Option.toList_some,
      Option.some.injEq] at h
    subst h
    rw [← Ty.size_of_primitive hp] at after
    refine ⟨Nat.le_refl _, Nat.add_le_add_left hs n, ?_⟩
    change depthAfter (n + note.ty.size) [i] ≤ n + 16
    omega

end

theorem Pool.mark_store_le (pool : Pool) (c : Constant) :
    (pool.store c).2.mark ≤ pool.mark + c.size + 8 := by
  have stored := (pool.mark_store c).2
  have cell : c.cell ≤ c.size := Nat.mod_le ..
  have up := ceil_lt c.cell grid (by decide)
  have step : grid = 8 := rfl
  omega

/-- Code takes no more than a number of literals and the operations between them can take. -/
structure Lowering.Value.Modest (count : Nat) (pool : Pool) (v : Lowering.Value) : Prop where
  length : v.code.length + 2 ≤ 4 * count
  shallow : ∀ n, Shallow (n + 16 * count) n v.code
  mark : v.pool.mark ≤ pool.mark + 24 * count

/-- An expression is made of a number of integer literals and of operators between them. -/
inductive Expr.OfIntegers : Nat → Expr → Prop
  | literal (mark : Mark) (text : String) (negative : Bool) :
      OfIntegers 1 (.literal mark (.integer text negative))
  | binary {left right : Expr} {a b : Nat} (mark : Mark) (op : BinaryOp)
      (onLeft : OfIntegers a left) (onRight : OfIntegers b right) :
      OfIntegers (a + b) (.binary mark op left right)

theorem Expr.OfIntegers.pos {e : Expr} {count : Nat} (h : e.OfIntegers count) : 0 < count := by
  induction h with
  | literal => exact Nat.one_pos
  | binary _ _ _ _ ihl _ => exact Nat.add_pos_left ihl _

section

open Typing

variable {env : Environment} {notes : Notes} {scopes : Scopes} {frames : List Frame} {e : Expr}
  {count : Nat}

theorem resultSize_le (op : BinaryOp) (p : Primitive) : resultSize op p ≤ 16 := by
  have := p.size_le
  unfold resultSize
  split <;> omega

theorem Lowering.Value.Modest.settled {note : Note} {pool : Pool} {base v : Lowering.Value}
    (suited : Suited note) (settled : Lowering.settle note base = some v)
    (hs : note.ty.size ≤ 16) (pos : 0 < count) (length : base.code.length + 3 ≤ 4 * count)
    (shallow : ∀ n, Shallow (n + 16 * count) n base.code)
    (after : ∀ n, depthAfter n base.code = n + note.ty.size)
    (mark : base.pool.mark ≤ pool.mark + 24 * count) : v.Modest count pool := by
  obtain ⟨cs, hcs, rfl⟩ := Option.map_eq_some_iff.mp settled
  have coerced := shallow_coercion suited hcs hs
  refine ⟨?_, fun n => (shallow n).append ?_, mark⟩
  · have := (coerced 0).1
    simp only [List.length_append]
    omega
  · rw [after]
    exact (coerced n).2.mono (by omega)

theorem modest_integer {mark : Mark} {text : String} {negative : Bool} {bare : Note}
    (noted : Noted env scopes notes (.literal mark (.integer text negative)) bare)
    {c : Option Coercion} (filed : notes.find? mark.id = some { bare with coercion := c })
    {pool : Pool} {v : Lowering.Value}
    (coded : Coded env notes scopes frames pool (.literal mark (.integer text negative)) v) :
    v.Modest 1 pool := by
  cases noted with
  | literal rule =>
  obtain ⟨n, -, -, rfl⟩ := literalNote_integer rule
  cases coded with
  | place _ isPlace => cases isPlace
  | literal found constant stored suited settled =>
  cases filed.symm.trans found
  cases constant
  rcases literal_code pool stored with ⟨p, bits, hk, size, code⟩ | ⟨text, hk, -⟩
  · cases hk
    have hp := n.type.primary.size_le
    have effect := Instruction.effect_pushData (show n.type.primary.size < 65536 by omega)
      (pool.store (.primitive n.type.primary (n.word n.type.primary))).1
    refine .settled suited settled (size.trans_le hp) Nat.one_pos ?_ (fun depth => ?_)
      (fun depth => ?_) ?_
    · rw [code]
      exact Nat.le_refl _
    · rw [code]
      refine ⟨Nat.le_add_right .., ?_⟩
      rw [effect]
      exact Nat.add_le_add_left hp depth
    · rw [code, depthAfter_cons, effect, size]
      rfl
    · have mark := pool.mark_store_le (.primitive n.type.primary (n.word n.type.primary))
      simp only [Constant.size] at mark
      change (pool.store _).2.mark ≤ _
      omega
  · cases hk

/-- The code of an expression of integer literals is modest. An operator works where its left
operand starts, and below the right operand there is at most one primitive. -/
theorem Expr.OfIntegers.modest (h : e.OfIntegers count) (small : env.Small) {bare : Note}
    (noted : Noted env scopes notes e bare) {c : Option Coercion}
    (filed : notes.find? e.id = some { bare with coercion := c }) {pool : Pool}
    {v : Lowering.Value} (coded : Coded env notes scopes frames pool e v) :
    v.Modest count pool := by
  induction h generalizing bare c pool v with
  | literal => exact modest_integer noted filed coded
  | binary _ op onLeft onRight ihl ihr =>
    cases noted with
    | binary notedLeft filedLeft notedRight filedRight =>
    cases coded with
    | place _ isPlace => cases isPlace
    | @binary _ _ _ _ _ _ l r _ p _ codedLeft codedRight leftType rightType _ size suited
        settled =>
    have modestLeft := ihl notedLeft filedLeft codedLeft
    have modestRight := ihr notedRight filedRight codedRight
    have ha := onLeft.pos
    have hb := onRight.pos
    have hp := p.size_le
    have hresult := resultSize_le op p
    have operands : ∀ n, depthAfter n (l.code ++ r.code) = n + 2 * p.size := by
      intro n
      rw [depthAfter_append, codedLeft.depthAfter_eq small, codedRight.depthAfter_eq small,
        Ty.size_of_primitive leftType, Ty.size_of_primitive rightType]
      omega
    refine .settled suited settled (size.trans_le hresult) (by omega) ?_ (fun n => ?_)
      (fun n => ?_) ?_
    · have := modestLeft.length
      have := modestRight.length
      simp only [List.length_append, List.length_singleton]
      omega
    · refine Shallow.append (Shallow.append ((modestLeft.shallow n).mono (by omega)) ?_) ?_
      · rw [codedLeft.depthAfter_eq small, Ty.size_of_primitive leftType]
        exact (modestRight.shallow (n + p.size)).mono (by omega)
      · rw [operands]
        refine ⟨by omega, ?_⟩
        rw [Lowering.effect_binary]
        change _ ≤ _
        omega
    · rw [depthAfter_append, operands, depthAfter_cons, Lowering.effect_binary, depthAfter_nil,
        size]
      omega
    · have := modestLeft.mark
      have := modestRight.mark
      dsimp only
      omega

end

theorem Typing.Initial.has {env : Environment} {notes : Notes} {scopes : Scopes}
    {ty : Option TypeRef} {t : Ty} {e : Expr} (h : Initial env notes scopes ty (some e) t) :
    ∃ note c, Has env notes scopes e note c := by
  cases ty with
  | none =>
    obtain ⟨note, has, -⟩ := h
    exact ⟨note, none, has⟩
  | some written =>
    obtain ⟨note, c, has, -⟩ := h.2 e rfl
    exact ⟨note, c, has⟩

namespace Program

def declaring (position : Position) (name : String) (ty : Option TypeRef) (value : Expr) :
    Program where
  name := none
  imports := []
  records := []
  body := [.declare position name ty (some value)]

section

open Typing

variable {options : CompileOptions} {time : Int64} {position : Position} {name : String}
  {ty : Option TypeRef} {value : Expr} {script : Script} {automatic : Bool} {env : Environment}
  {issues : List Issue}

theorem environment_declaring
    (h : Environment.ofProgram .standard automatic (declaring position name ty value) =
      (some env, issues)) : env.home = "main" ∧ env.Small ∧ env.Uniform ∧ env.Sound := by
  have plain : ∀ env ∈ (Environment.ofProgram .standard automatic ⟨none, [], [], []⟩).1,
      env.home = "main" ∧ env.Small ∧ env.Uniform := by
    cases automatic <;> decide +kernel
  obtain ⟨home, small, uniform⟩ := plain env (congrArg Prod.fst h)
  exact ⟨home, small, uniform, Environment.sound_of_standard h uniform⟩

theorem evaluation_declaring {known : Annotations} {t : Ty} (types : known.types = env.types)
    (h : Initial env known.notes [[]] ty (some value) t) {x : Bytes}
    (hx : Evaluation.expression known [[]] value = .ok x) (fuel : Nat) :
    Evaluation.program known fuel (declaring position name ty value) = .ok [[⟨name, t, x⟩]] := by
  cases ty with
  | none =>
    obtain ⟨note, ⟨-, filed⟩, rfl⟩ := h
    simp only [Evaluation.program, declaring, Evaluation.statements, Evaluation.statement, initial,
      filed, hx, require_some, ok_bind]
    rfl
  | some written =>
    simp only [Evaluation.program, declaring, Evaluation.statements, Evaluation.statement, initial,
      types, h.1, hx, Except.toOption, require_some, ok_bind]
    rfl

theorem coded_declaring (distinct : (declaring position name ty value).Distinct)
    (compiled : ((declaring position name ty value).compile options .standard time).script =
      some script) :
    ∃ env issues t w,
      Environment.ofProgram .standard options.automatic (declaring position name ty value) =
        (some env, issues) ∧
      Initial env (Typing.ofProgram env (declaring position name ty value)).notes [[]] ty
        (some value) t ∧
      Coded env (Typing.ofProgram env (declaring position name ty value)).notes [[]]
        Assembly.start.scene.frames .empty value w ∧
      script.code.toList = w.code ∧
      (w.pool.store (.text env.home)).2.Short ∧
      script.data = (w.pool.store (.text env.home)).2.blob := by
  obtain ⟨env, issues, b, after, he, accepted, hb, fits, hs⟩ := exists_of_compile distinct compiled
  obtain ⟨⟨-, finished⟩, hs⟩ := (Script.assemble_eq_ok_iff fits.2).mp hs
  have short := Pool.short_of_toBytes finished
  obtain ⟨-, -, -, sound⟩ := environment_declaring he
  obtain ⟨middle, ⟨t, initial, -⟩, -⟩ := accepted
  obtain ⟨c, d, hc, hd, rfl⟩ := Lowering.statements_cons hb
  obtain ⟨v, u, hv, hu, rfl⟩ := Lowering.statement_declare hc
  obtain ⟨frame, rest, -, -, rfl⟩ := Lowering.define_eq_some hu
  cases hd
  have known : KnownScopes env [[]] := (Lowering.Ready.start env).known
  have agree : Agree Assembly.start.scene.frames [[]] := Agree.start
  obtain ⟨-, ⟨h, -⟩ | ⟨e, w, he', coded, -, hcode, hpool⟩⟩ := initial.coded sound known agree hv
  · cases h
  · cases he'
    refine ⟨env, issues, t, w, he, initial, coded, ?_, ?_, ?_⟩
    · rw [hs, ← hcode]
      simp [Script.assembled]
    · rw [← hpool]
      exact short
    · rw [hs, ← hpool]
      rfl

/-- If a program that computes the value of a variable from integer literals compiles and has room
on the stack, it finishes with the value of its evaluation. -/
theorem declaring_finishes {count : Nat} (integers : value.OfIntegers count)
    (few : 24 * count + 64 ≤ 4294967296)
    (distinct : (declaring position name ty value).Distinct)
    (compiled : ((declaring position name ty value).compile options .standard time).script =
      some script) :
    ∃ env texts t,
      (Environment.ofProgram .standard options.automatic
        (declaring position name ty value)).1 = some env ∧ env.Sound ∧
      Initial env (Typing.ofProgram env (declaring position name ty value)).notes [[]] ty
        (some value) t ∧
      ∀ capacity x, 16 * count ≤ capacity →
        Evaluation.expression
          ⟨env.types, (Typing.ofProgram env (declaring position name ty value)).notes, texts⟩ [[]]
          value = .ok x →
        ∃ n, (runFor capacity script.view n Machine.start).outcome? = some (.finished x) := by
  obtain ⟨env, issues, t, w, he, initial, coded, hcode, short, hdata⟩ :=
    coded_declaring distinct compiled
  obtain ⟨home, small, uniform, sound⟩ := environment_declaring he
  obtain ⟨note, c, noted, filed⟩ := initial.has
  have modest := integers.modest small noted filed coded
  have depth : ∀ i, depthAt w.code i ≤ 16 * count := by
    intro i
    have := (modest.shallow 0).depthAfter_take_le i
    rwa [Nat.zero_add] at this
  have bounded : Bounded script.code.toList := by
    rw [hcode]
    refine ⟨?_, fun i _ => ?_⟩
    · have := modest.length
      omega
    · have := depth i
      omega
  have data : script.data.length ≤ 4294967296 := by
    have grown : Pool.empty.Grows (w.pool.store (.text env.home)).2 :=
      coded.grows.trans (Pool.grows_store ..)
    have mark := w.pool.mark_store_le (.text env.home)
    have size : (Constant.text env.home).size = 12 := by rw [home]; rfl
    have block := Pool.ceil_lt (w.pool.store (.text env.home)).2.mark Pool.blockSize (by decide)
    have empty : Pool.empty.mark = 0 := rfl
    have := modest.mark
    rw [hdata, (grown.tidy Pool.tidy_empty).length_blob short]
    simp only [Pool.blockSize] at block ⊢
    omega
  have only : ∀ e ∈ (Environment.ofProgram .standard options.automatic
      (declaring position name ty value)).1, env = e := by
    intro e h
    rw [he] at h
    exact Option.some.inj h
  obtain ⟨env', texts, henv, ends⟩ := exists_outcome distinct compiled
    (fun e h => only e h ▸ uniform) (fun e h => only e h ▸ small) bounded data
  obtain rfl := only env' henv
  refine ⟨env, texts, t, henv, sound, initial, fun capacity x room hx => ?_⟩
  refine ends capacity (fun k _ => ?_) 0 _ ?_
  · rw [hcode]
    exact Nat.le_trans (depth k) room
  · rw [evaluation_declaring rfl initial hx]
    simp [Evaluation.outcome?, Store.bytes]

end

end Program

end Bytescript
