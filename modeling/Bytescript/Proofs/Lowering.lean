import Mathlib
import Bytescript.Assembly.Generate
import Bytescript.Proofs.Placement
import Bytescript.Proofs.Tree

/-!
# Generated code in closed form

The generator appends instructions one by one and directs its jumps later. Here the code of an
expression or a statement is defined as a list, every jump with its target, from the scene alone:
the index of the next instruction, the size of the stack, the open frames and the constants. The
scene behind some code is a function of the scene before it.
-/
namespace Bytescript

def Instruction.effect (i : Instruction) : Nat × Nat := i.stackEffect?.getD (0, 0)

/-- The size of the stack after some instructions, as the assembly counts it. -/
def depthAfter (n : Nat) (is : List Instruction) : Nat :=
  is.foldl (fun n i => n - i.effect.1 + i.effect.2) n

@[simp] theorem depthAfter_nil (n : Nat) : depthAfter n [] = n := rfl

@[simp] theorem depthAfter_cons (n : Nat) (i : Instruction) (is : List Instruction) :
    depthAfter n (i :: is) = depthAfter (n - i.effect.1 + i.effect.2) is := rfl

@[simp] theorem depthAfter_append (n : Nat) (is js : List Instruction) :
    depthAfter n (is ++ js) = depthAfter (depthAfter n is) js :=
  List.foldl_append

/-- Each instruction finds the bytes that it pops, and the size of the stack after it fits in 32
bits. -/
def Counted : Nat → List Instruction → Prop
  | _, [] => True
  | n, i :: is => (i.effect.1 ≤ n ∧ n - i.effect.1 + i.effect.2 < wordLimit) ∧
      Counted (n - i.effect.1 + i.effect.2) is

@[simp] theorem counted_nil (n : Nat) : Counted n [] := trivial

@[simp] theorem counted_cons {n : Nat} {i : Instruction} {is : List Instruction} :
    Counted n (i :: is) ↔ (i.effect.1 ≤ n ∧ n - i.effect.1 + i.effect.2 < wordLimit) ∧
      Counted (n - i.effect.1 + i.effect.2) is :=
  Iff.rfl

@[simp] theorem counted_append {n : Nat} {is js : List Instruction} :
    Counted n (is ++ js) ↔ Counted n is ∧ Counted (depthAfter n is) js := by
  induction is generalizing n with
  | nil => simp
  | cons i is ih => simp [ih, and_assoc]

theorem Counted.depthAfter_lt {n : Nat} {is : List Instruction} (h : Counted n is)
    (hn : n < wordLimit) : depthAfter n is < wordLimit := by
  induction is generalizing n with
  | nil => exact hn
  | cons i is ih => exact ih h.2 h.1.2

namespace Assembly

def appended (a : Assembly) (is : List Instruction) (pool : Pool) : Assembly where
  code := a.code ++ is.toArray
  stackSize := depthAfter a.stackSize is
  frames := a.frames
  pool

theorem emit_eq_ok_iff {a b : Assembly} {i : Instruction} :
    a.emit i = .ok b ↔ Counted a.stackSize [i] ∧ b = a.appended [i] a.pool := by
  have effect : i.stackEffect?.getD (0, 0) = i.effect := rfl
  simp only [emit, effect]
  by_cases h : a.stackSize < i.effect.1
  · simp [h]
  · have room : i.effect.1 ≤ a.stackSize := Nat.le_of_not_lt h
    rw [if_neg h, bind_eq_ok_iff]
    simp only [Checked.add_eq_ok_iff, counted_cons, room, true_and, counted_nil, and_true]
    constructor
    · rintro ⟨-, ⟨fits, rfl⟩, hb⟩
      cases hb
      exact ⟨fits, by simp [appended]⟩
    · rintro ⟨fits, rfl⟩
      exact ⟨_, ⟨fits, rfl⟩, by simp [appended, pure, Except.pure]⟩

theorem emitAll_eq_ok_iff {a b : Assembly} {is : List Instruction} :
    a.emitAll is = .ok b ↔ Counted a.stackSize is ∧ b = a.appended is a.pool := by
  induction is generalizing a with
  | nil => simp [emitAll, appended, pure, Except.pure, eq_comm]
  | cons i is ih =>
    have h : a.emitAll (i :: is) = a.emit i >>= fun c => c.emitAll is := rfl
    rw [h, bind_eq_ok_iff]
    simp only [emit_eq_ok_iff, ih]
    constructor
    · rintro ⟨c, ⟨one, rfl⟩, rest, rfl⟩
      exact ⟨⟨one.1, rest⟩, by simp [appended]⟩
    · rintro ⟨all, rfl⟩
      exact ⟨_, ⟨⟨all.1, trivial⟩, rfl⟩, all.2, by simp [appended]⟩

@[simp] theorem frames_appended (a : Assembly) (is : List Instruction) (pool : Pool) :
    (a.appended is pool).frames = a.frames := rfl

@[simp] theorem pool_appended (a : Assembly) (is : List Instruction) (pool : Pool) :
    (a.appended is pool).pool = pool := rfl

theorem appended_appended (a : Assembly) (is js : List Instruction) (p q : Pool) :
    (a.appended is p).appended js q = a.appended (is ++ js) q := by
  simp [appended]

end Assembly

/-- The state that the next instructions depend on. -/
structure Scene where
  position : Nat
  size : Nat
  frames : List Frame
  pool : Pool

namespace Scene

/-- The scene behind some instructions that need the given constants. -/
def after (s : Scene) (is : List Instruction) (pool : Pool) : Scene where
  position := s.position + is.length
  size := depthAfter s.size is
  frames := s.frames
  pool

def opened (s : Scene) : Scene := { s with frames := ⟨s.size, []⟩ :: s.frames }

end Scene

def Assembly.scene (a : Assembly) : Scene := ⟨a.position, a.stackSize, a.frames, a.pool⟩

namespace Lowering

/-- The instructions of the coercion in a note. -/
def coercion (note : Note) : Option (List Instruction) :=
  match note.coercion with
  | none => some []
  | some c =>
    note.ty.primitive?.bind fun source =>
      c.target.primitive?.map fun target => (c.conversion.instruction? source target).toList

def settledType (note : Note) (ty : Ty) : Ty :=
  match note.coercion with
  | none => ty
  | some c => c.target

/-- The code of an expression: the type of its value, the instructions, and the constants with
those that the instructions need. -/
structure Value where
  ty : Ty
  code : List Instruction
  pool : Pool

def settle (note : Note) (v : Value) : Option Value :=
  (coercion note).map fun cs => ⟨settledType note v.ty, v.code ++ cs, v.pool⟩

/-- The offset and the type of a place. -/
def place? (frames : List Frame) (p : Place) : Option (Nat × Ty) :=
  (frames.findSome? fun f => f.find? p.name).bind fun v =>
    Assembly.followPath v.offset v.ty p.path

def read (frames : List Frame) (pool : Pool) (p : Place) : Option Value :=
  (place? frames p).map fun (offset, ty) => ⟨ty, [.sized .pushStack ty.size offset], pool⟩

def literal (pool : Pool) (c : Constant) (ty : Ty) : Value :=
  let (offset, pool) := pool.store c
  ⟨ty, [if ty.isHandle then .worded .pushHandle offset else .sized .pushData ty.size offset], pool⟩

def operation (op : Opcode) (p : Primitive) : Instruction := .typed op p.size (.ofPrimitive p)

def expression (notes : Notes) (frames : List Frame) (pool : Pool) : Expr → Option Value
  | .literal mark _ => do
    let note ← notes.find? mark.id
    let c ← note.constant
    settle note (literal pool c note.ty)
  | .variable mark name => do
    let note ← notes.find? mark.id
    let v ← read frames pool ⟨name, []⟩
    settle note v
  | e@(.field mark _ _) => do
    let note ← notes.find? mark.id
    let place ← e.place?
    let v ← read frames pool place
    settle note v
  | .binary mark op left right => do
    let note ← notes.find? mark.id
    let l ← expression notes frames pool left
    let r ← expression notes frames l.pool right
    let p ← l.ty.primitive?
    settle note ⟨note.ty, l.code ++ r.code ++ [operation (Generate.binaryOpcode op p) p], r.pool⟩
  | .unary mark op operand => do
    let note ← notes.find? mark.id
    let v ← expression notes frames pool operand
    let p ← v.ty.primitive?
    settle note ⟨note.ty, v.code ++ [operation (Generate.unaryOpcode op p) p], v.pool⟩
  | .cast mark operand _ => do
    let note ← notes.find? mark.id
    let v ← expression notes frames pool operand
    settle note { v with ty := note.ty }

/-- The code of a new variable's value. -/
def initial (env : Environment) (notes : Notes) (s : Scene) :
    Option TypeRef → Option Expr → Option Value
  | some written, value => do
    let ty ← (env.types.resolve written).toOption
    match value with
    | some e =>
      let v ← expression notes s.frames s.pool e
      return { v with ty }
    | none => return ⟨ty, [.worded .pushZero ty.size], s.pool⟩
  | none, some e => expression notes s.frames s.pool e
  | none, none => none

def jump (conditional : Bool) (target : Nat) : Instruction :=
  .worded (Assembly.jumpOpcode conditional) target

def drop (n : Nat) : List Instruction := if n = 0 then [] else [.worded .pop n]

/-- The scene with a new variable on top of the stack, if the name is free. -/
def define (s : Scene) (name : String) (ty : Ty) : Option Scene :=
  match s.frames with
  | [] => none
  | frame :: rest =>
    if (frame.find? name).isSome then none
    else
      let v : Variable := ⟨name, ty, s.size - ty.size⟩
      some { s with frames := { frame with declared := frame.declared ++ [v] } :: rest }

abbrev Body := List Instruction × Scene

/-- Drops what was pushed since the innermost frame was opened. -/
def closed (b : Body) : Body :=
  match b.2.frames with
  | [] => b
  | frame :: rest =>
    let drops := drop (b.2.size - frame.entrySize)
    (b.1 ++ drops, { b.2.after drops b.2.pool with frames := rest })

/-- The code of a condition and of the jump to `target` that is taken if it does not hold. -/
def guarded (condition : Value) (target : Nat) : List Instruction :=
  condition.code ++ [jump true target]

mutual

def statement (env : Environment) (notes : Notes) (s : Scene) : Stmt → Option Body
  | .declare _ name ty value => do
    let v ← initial env notes s ty value
    let t ← define (s.after v.code v.pool) name v.ty
    return (v.code, t)
  | .assign _ target value => do
    let v ← expression notes s.frames s.pool value
    let (offset, ty) ← place? s.frames target
    let is := v.code ++ [.sized .assign ty.size offset]
    return (is, s.after is v.pool)
  | .discard _ value => do
    let v ← expression notes s.frames s.pool value
    let is := v.code ++ drop v.ty.size
    return (is, s.after is v.pool)
  | .block _ body => (statements env notes s.opened body).map closed
  | .branch _ condition body none => do
    let v ← expression notes s.frames s.pool condition
    let (inner, t) ←
      (statements env notes (s.after (guarded v 0) v.pool).opened body).map closed
    return (guarded v t.position ++ inner, t)
  | .branch _ condition body (some other) => do
    let v ← expression notes s.frames s.pool condition
    let (inner, t) ←
      (statements env notes (s.after (guarded v 0) v.pool).opened body).map closed
    let t := t.after [jump false 0] t.pool
    let (outer, u) ← (statements env notes t.opened other).map closed
    return (guarded v t.position ++ inner ++ jump false u.position :: outer, u)
  | .loop _ condition body => do
    let v ← expression notes s.frames s.pool condition
    let (inner, t) ←
      (statements env notes (s.after (guarded v 0) v.pool).opened body).map closed
    let t := t.after [jump false s.position] t.pool
    return (guarded v t.position ++ inner ++ [jump false s.position], t)
  | .halt _ code => some ([.halt code], s.after [.halt code] s.pool)
  | .debug _ => some ([.plain .debug], s.after [.plain .debug] s.pool)

def statements (env : Environment) (notes : Notes) (s : Scene) : List Stmt → Option Body
  | [] => some ([], s)
  | stmt :: rest => do
    let (is, t) ← statement env notes s stmt
    let (js, u) ← statements env notes t rest
    return (is ++ js, u)

end

/-- The scene is the one behind some code that starts at another. -/
def Follows (s : Scene) (b : Body) : Prop :=
  b.2.position = s.position + b.1.length ∧ b.2.size = depthAfter s.size b.1

theorem follows_after (s : Scene) (is : List Instruction) (pool : Pool) :
    Follows s (is, s.after is pool) := ⟨rfl, rfl⟩

theorem Follows.append {s t u : Scene} {is js : List Instruction} (h : Follows s (is, t))
    (g : Follows t (js, u)) : Follows s (is ++ js, u) := by
  obtain ⟨hp, hs⟩ := h
  obtain ⟨gp, gs⟩ := g
  simp only [Follows] at *
  refine ⟨?_, ?_⟩
  · rw [gp, hp, List.length_append, Nat.add_assoc]
  · rw [gs, hs, depthAfter_append]

theorem Follows.closed {s : Scene} {b : Body} (h : Follows s.opened b) : Follows s (closed b) := by
  obtain ⟨is, t⟩ := b
  unfold Lowering.closed
  cases t.frames with
  | nil => exact h
  | cons frame rest => exact Follows.append (s := s) h (follows_after t _ t.pool)

theorem effect_of_jump {i : Instruction} {conditional : Bool}
    (h : i.opcode? = some (Assembly.jumpOpcode conditional)) :
    i.effect = (if conditional then 1 else 0, 0) := by
  cases conditional <;> simp [Instruction.effect, Instruction.stackEffect?, h, Assembly.jumpOpcode]

@[simp] theorem effect_jump (conditional : Bool) (target : Nat) :
    (jump conditional target).effect = (if conditional then 1 else 0, 0) := by
  cases conditional <;> rfl

theorem follows_jump (s : Scene) (conditional : Bool) (target other : Nat) (pool : Pool) :
    Follows s ([jump conditional target], s.after [jump conditional other] pool) := by
  simp [Follows, Scene.after]

theorem follows_guarded (s : Scene) (v : Value) (target : Nat) :
    Follows s (guarded v target, s.after (guarded v 0) v.pool) := by
  simp [Follows, Scene.after, guarded]

theorem define_eq_some {s t : Scene} {name : String} {ty : Ty} (h : define s name ty = some t) :
    ∃ frame rest, s.frames = frame :: rest ∧ frame.find? name = none ∧
      t = { s with frames := { frame with
        declared := frame.declared ++ [⟨name, ty, s.size - ty.size⟩] } :: rest } := by
  unfold define at h
  split at h
  · simp at h
  · next frame rest hf =>
    by_cases hn : (frame.find? name).isSome
    · simp [hn] at h
    · simp only [hn, Bool.false_eq_true, if_false, Option.some.injEq] at h
      exact ⟨frame, rest, hf, by simpa using hn, h.symm⟩

section

variable {notes : Notes} {frames : List Frame} {pool : Pool} {v : Value} {mark : Mark}

attribute [local simp] expression Option.bind_eq_some_iff

theorem expression_literal {value : Literal}
    (h : expression notes frames pool (.literal mark value) = some v) :
    ∃ note c, notes.find? mark.id = some note ∧ note.constant = some c ∧
      settle note (literal pool c note.ty) = some v := by
  simp at h
  obtain ⟨note, hn, c, hc, settled⟩ := h
  exact ⟨note, c, hn, hc, settled⟩

theorem expression_variable {name : String}
    (h : expression notes frames pool (.variable mark name) = some v) :
    ∃ note offset ty, notes.find? mark.id = some note ∧
      place? frames ⟨name, []⟩ = some (offset, ty) ∧
      settle note ⟨ty, [.sized .pushStack ty.size offset], pool⟩ = some v := by
  simp at h
  obtain ⟨note, hn, w, hw, settled⟩ := h
  obtain ⟨⟨offset, ty⟩, ho, rfl⟩ := Option.map_eq_some_iff.mp hw
  exact ⟨note, offset, ty, hn, ho, settled⟩

theorem expression_field {target : Expr} {name : String}
    (h : expression notes frames pool (.field mark target name) = some v) :
    ∃ note p offset ty, notes.find? mark.id = some note ∧
      Expr.place? (.field mark target name) = some p ∧ place? frames p = some (offset, ty) ∧
      settle note ⟨ty, [.sized .pushStack ty.size offset], pool⟩ = some v := by
  simp at h
  obtain ⟨note, hn, p, hp, w, hw, settled⟩ := h
  obtain ⟨⟨offset, ty⟩, ho, rfl⟩ := Option.map_eq_some_iff.mp hw
  exact ⟨note, p, offset, ty, hn, hp, ho, settled⟩

theorem expression_binary {op : BinaryOp} {left right : Expr}
    (h : expression notes frames pool (.binary mark op left right) = some v) :
    ∃ note l r p, notes.find? mark.id = some note ∧
      expression notes frames pool left = some l ∧ expression notes frames l.pool right = some r ∧
      l.ty.primitive? = some p ∧
      settle note ⟨note.ty, l.code ++ r.code ++ [operation (Generate.binaryOpcode op p) p],
        r.pool⟩ = some v := by
  simp only [expression, Option.bind_eq_bind, Option.bind_eq_some_iff] at h
  obtain ⟨note, hn, l, hl, r, hr, p, hp, settled⟩ := h
  exact ⟨note, l, r, p, hn, hl, hr, hp, settled⟩

theorem expression_unary {op : UnaryOp} {operand : Expr}
    (h : expression notes frames pool (.unary mark op operand) = some v) :
    ∃ note w p, notes.find? mark.id = some note ∧
      expression notes frames pool operand = some w ∧ w.ty.primitive? = some p ∧
      settle note ⟨note.ty, w.code ++ [operation (Generate.unaryOpcode op p) p], w.pool⟩ =
        some v := by
  simp at h
  obtain ⟨note, hn, w, hw, p, hp, settled⟩ := h
  exact ⟨note, w, p, hn, hw, hp, settled⟩

theorem expression_cast {operand : Expr} {ty : TypeRef}
    (h : expression notes frames pool (.cast mark operand ty) = some v) :
    ∃ note w, notes.find? mark.id = some note ∧ expression notes frames pool operand = some w ∧
      settle note { w with ty := note.ty } = some v := by
  simp at h
  obtain ⟨note, hn, w, hw, settled⟩ := h
  exact ⟨note, w, hn, hw, settled⟩

end

/-- The code of a new variable's value pushes zero or is that of an expression. -/
theorem initial_cases {env : Environment} {notes : Notes} {s : Scene} {ty : Option TypeRef}
    {value : Option Expr} {v : Value} (h : initial env notes s ty value = some v) :
    value = none ∧ v.code = [.worded .pushZero v.ty.size] ∧ v.pool = s.pool ∨
      ∃ e w, value = some e ∧ expression notes s.frames s.pool e = some w ∧ v.code = w.code ∧
        v.pool = w.pool := by
  cases ty with
  | none =>
    cases value with
    | none => cases h
    | some e => exact Or.inr ⟨e, v, rfl, h, rfl, rfl⟩
  | some written =>
    simp only [initial, Option.bind_eq_bind, Option.bind_eq_some_iff] at h
    obtain ⟨t, -, h⟩ := h
    cases value with
    | none =>
      cases h
      exact Or.inl ⟨rfl, rfl, rfl⟩
    | some e =>
      simp only [Option.bind_eq_some_iff, Option.pure_def, Option.some.injEq] at h
      obtain ⟨w, hw, rfl⟩ := h
      exact Or.inr ⟨e, w, rfl, hw, rfl, rfl⟩

theorem grows_settle {pool : Pool} {note : Note} {v w : Value} (h : settle note w = some v)
    (grown : pool.Grows w.pool) : pool.Grows v.pool := by
  obtain ⟨cs, -, rfl⟩ := Option.map_eq_some_iff.mp h
  exact grown

theorem grows_expression {notes : Notes} {frames : List Frame} {pool : Pool} {e : Expr} {v : Value}
    (h : expression notes frames pool e = some v) : pool.Grows v.pool := by
  induction e generalizing pool v with
  | literal mark value =>
    obtain ⟨note, c, -, -, settled⟩ := expression_literal h
    exact grows_settle settled (pool.grows_store c)
  | «variable» mark name =>
    obtain ⟨note, offset, ty, -, -, settled⟩ := expression_variable h
    exact grows_settle settled (.refl pool)
  | field mark target name =>
    obtain ⟨note, p, offset, ty, -, -, -, settled⟩ := expression_field h
    exact grows_settle settled (.refl pool)
  | binary mark op left right ihl ihr =>
    obtain ⟨note, l, r, p, -, hl, hr, -, settled⟩ := expression_binary h
    have grown := (ihl hl).trans (ihr hr)
    exact grows_settle settled grown
  | unary mark op operand ih =>
    obtain ⟨note, w, p, -, hw, -, settled⟩ := expression_unary h
    have grown := ih hw
    exact grows_settle settled grown
  | cast mark operand ty ih =>
    obtain ⟨note, w, -, hw, settled⟩ := expression_cast h
    have grown := ih hw
    exact grows_settle settled grown

theorem grows_initial {env : Environment} {notes : Notes} {s : Scene} {ty : Option TypeRef}
    {value : Option Expr} {v : Value} (h : initial env notes s ty value = some v) :
    s.pool.Grows v.pool := by
  obtain ⟨-, -, hp⟩ | ⟨e, w, -, hw, -, hp⟩ := initial_cases h
  · exact hp ▸ .refl s.pool
  · exact hp ▸ grows_expression hw

section

variable {env : Environment} {notes : Notes} {s : Scene} {b : Body} {position : Position}

attribute [local simp] statement statements Option.bind_eq_some_iff

theorem statement_declare {name : String} {ty : Option TypeRef} {value : Option Expr}
    (h : statement env notes s (.declare position name ty value) = some b) :
    ∃ v t, initial env notes s ty value = some v ∧
      define (s.after v.code v.pool) name v.ty = some t ∧ b = (v.code, t) := by
  simp at h
  obtain ⟨v, hv, t, ht, rfl⟩ := h
  exact ⟨v, t, hv, ht, rfl⟩

theorem statement_assign {target : Place} {value : Expr}
    (h : statement env notes s (.assign position target value) = some b) :
    ∃ v offset ty, expression notes s.frames s.pool value = some v ∧
      place? s.frames target = some (offset, ty) ∧
      b = (v.code ++ [.sized .assign ty.size offset],
        s.after (v.code ++ [.sized .assign ty.size offset]) v.pool) := by
  simp only [statement, Option.bind_eq_bind, Option.bind_eq_some_iff, Option.pure_def,
    Option.some.injEq] at h
  obtain ⟨v, hv, ⟨offset, ty⟩, hp, rfl⟩ := h
  exact ⟨v, offset, ty, hv, hp, rfl⟩

theorem statement_discard {value : Expr}
    (h : statement env notes s (.discard position value) = some b) :
    ∃ v, expression notes s.frames s.pool value = some v ∧
      b = (v.code ++ drop v.ty.size, s.after (v.code ++ drop v.ty.size) v.pool) := by
  simp at h
  obtain ⟨v, hv, rfl⟩ := h
  exact ⟨v, hv, rfl⟩

theorem statement_block {body : List Stmt}
    (h : statement env notes s (.block position body) = some b) :
    ∃ c, statements env notes s.opened body = some c ∧ b = closed c := by
  simp only [statement, Option.map_eq_some_iff] at h
  obtain ⟨c, hc, rfl⟩ := h
  exact ⟨c, hc, rfl⟩

theorem statement_branch {condition : Expr} {body : List Stmt}
    (h : statement env notes s (.branch position condition body none) = some b) :
    ∃ v c, expression notes s.frames s.pool condition = some v ∧
      statements env notes (s.after (guarded v 0) v.pool).opened body = some c ∧
      b = (guarded v (closed c).2.position ++ (closed c).1, (closed c).2) := by
  simp only [statement, Option.bind_eq_bind, Option.bind_eq_some_iff, Option.pure_def,
    Option.some.injEq, Option.map_eq_some_iff] at h
  obtain ⟨v, hv, -, ⟨c, hc, rfl⟩, rfl⟩ := h
  exact ⟨v, c, hv, hc, rfl⟩

theorem statement_branchElse {condition : Expr} {body otherwise : List Stmt}
    (h : statement env notes s (.branch position condition body (some otherwise)) = some b) :
    ∃ v c d, expression notes s.frames s.pool condition = some v ∧
      statements env notes (s.after (guarded v 0) v.pool).opened body = some c ∧
      statements env notes ((closed c).2.after [jump false 0] (closed c).2.pool).opened otherwise =
        some d ∧
      b = (guarded v ((closed c).2.after [jump false 0] (closed c).2.pool).position ++
        (closed c).1 ++ jump false (closed d).2.position :: (closed d).1, (closed d).2) := by
  simp only [statement, Option.bind_eq_bind, Option.bind_eq_some_iff, Option.pure_def,
    Option.some.injEq, Option.map_eq_some_iff] at h
  obtain ⟨v, hv, -, ⟨c, hc, rfl⟩, -, ⟨d, hd, rfl⟩, rfl⟩ := h
  exact ⟨v, c, d, hv, hc, hd, rfl⟩

theorem statement_loop {condition : Expr} {body : List Stmt}
    (h : statement env notes s (.loop position condition body) = some b) :
    ∃ v c, expression notes s.frames s.pool condition = some v ∧
      statements env notes (s.after (guarded v 0) v.pool).opened body = some c ∧
      b = (guarded v ((closed c).2.after [jump false s.position] (closed c).2.pool).position ++
        (closed c).1 ++ [jump false s.position],
        (closed c).2.after [jump false s.position] (closed c).2.pool) := by
  simp only [statement, Option.bind_eq_bind, Option.bind_eq_some_iff, Option.pure_def,
    Option.some.injEq, Option.map_eq_some_iff] at h
  obtain ⟨v, hv, -, ⟨c, hc, rfl⟩, rfl⟩ := h
  exact ⟨v, c, hv, hc, rfl⟩

theorem statements_cons {stmt : Stmt} {rest : List Stmt}
    (h : statements env notes s (stmt :: rest) = some b) :
    ∃ c d, statement env notes s stmt = some c ∧ statements env notes c.2 rest = some d ∧
      b = (c.1 ++ d.1, d.2) := by
  simp only [statements, Option.bind_eq_bind, Option.bind_eq_some_iff, Option.pure_def,
    Option.some.injEq] at h
  obtain ⟨c, hc, d, hd, rfl⟩ := h
  exact ⟨c, d, hc, hd, rfl⟩

end

theorem follows_statement_all (env : Environment) (notes : Notes) :
    (∀ stmt s b, statement env notes s stmt = some b → Follows s b) ∧
      ∀ body s b, statements env notes s body = some b → Follows s b := by
  have cases : Stmt.Cases (fun stmt => ∀ s b, statement env notes s stmt = some b → Follows s b)
      (fun body => ∀ s b, statements env notes s body = some b → Follows s b) := {
    declare := by
      intro _ name ty value s b h
      obtain ⟨v, t, -, ht, rfl⟩ := statement_declare h
      obtain ⟨frame, rest, -, -, rfl⟩ := define_eq_some ht
      exact follows_after s v.code v.pool
    assign := by
      intro _ target value s b h
      obtain ⟨v, offset, ty, -, -, rfl⟩ := statement_assign h
      exact follows_after s _ _
    discard := by
      intro _ value s b h
      obtain ⟨v, -, rfl⟩ := statement_discard h
      exact follows_after s _ _
    block := by
      intro _ body ih s b h
      obtain ⟨c, hc, rfl⟩ := statement_block h
      exact (ih _ _ hc).closed
    branch := by
      intro _ condition body ih s b h
      obtain ⟨v, c, -, hc, rfl⟩ := statement_branch h
      exact (follows_guarded s v _).append (ih _ _ hc).closed
    branchElse := by
      intro _ condition body otherwise ihb iho s b h
      obtain ⟨v, c, d, -, hc, hd, rfl⟩ := statement_branchElse h
      rw [List.append_cons]
      refine Follows.append (Follows.append ?_ (follows_jump _ _ _ _ _)) (iho _ _ hd).closed
      exact (follows_guarded s v _).append (ihb _ _ hc).closed
    loop := by
      intro _ condition body ih s b h
      obtain ⟨v, c, -, hc, rfl⟩ := statement_loop h
      exact ((follows_guarded s v _).append (ih _ _ hc).closed).append (follows_jump _ _ _ _ _)
    halt := by
      intro _ code s b h
      cases h
      exact follows_after s _ _
    debug := by
      intro _ s b h
      cases h
      exact follows_after s _ _
    nil := by
      intro s b h
      cases h
      exact ⟨rfl, rfl⟩
    cons := by
      intro stmt rest ihs ihr s b h
      obtain ⟨c, d, hc, hd, rfl⟩ := statements_cons h
      exact (ihs _ _ hc).append (ihr _ _ hd) }
  exact ⟨cases.one, cases.all⟩

/-- Code leaves the outer frames unchanged and adds variables to the innermost. -/
def Framed (s : Scene) (b : Body) : Prop :=
  ∀ f rest, s.frames = f :: rest → ∃ more, b.2.frames = ⟨f.entrySize, f.declared ++ more⟩ :: rest

theorem framed_of_frames_eq {s : Scene} {b : Body} (h : b.2.frames = s.frames) : Framed s b :=
  fun f rest hf => ⟨[], by rw [h, hf, List.append_nil]⟩

/-- Closing a body drops what was pushed since its frame was opened. -/
theorem Framed.closed_eq {s : Scene} {b : Body} (h : Framed s.opened b) :
    closed b = (b.1 ++ drop (b.2.size - s.size),
      { b.2.after (drop (b.2.size - s.size)) b.2.pool with frames := s.frames }) := by
  obtain ⟨more, hm⟩ := h ⟨s.size, []⟩ s.frames rfl
  simp only [closed, hm]

theorem framed_statement_all (env : Environment) (notes : Notes) :
    (∀ stmt s b, statement env notes s stmt = some b → Framed s b) ∧
      ∀ body s b, statements env notes s body = some b → Framed s b := by
  have cases : Stmt.Cases (fun stmt => ∀ s b, statement env notes s stmt = some b → Framed s b)
      (fun body => ∀ s b, statements env notes s body = some b → Framed s b) := {
    declare := by
      intro _ name ty value s b h
      obtain ⟨v, t, -, ht, rfl⟩ := statement_declare h
      obtain ⟨frame, rest, hf, -, rfl⟩ := define_eq_some ht
      intro f rest' hs
      cases hf.symm.trans hs
      exact ⟨_, rfl⟩
    assign := by
      intro _ target value s b h
      obtain ⟨v, offset, ty, -, -, rfl⟩ := statement_assign h
      exact framed_of_frames_eq rfl
    discard := by
      intro _ value s b h
      obtain ⟨v, -, rfl⟩ := statement_discard h
      exact framed_of_frames_eq rfl
    block := by
      intro _ body ih s b h
      obtain ⟨c, hc, rfl⟩ := statement_block h
      rw [(ih _ _ hc).closed_eq]
      exact framed_of_frames_eq rfl
    branch := by
      intro _ condition body ih s b h
      obtain ⟨v, c, -, hc, rfl⟩ := statement_branch h
      rw [(ih _ _ hc).closed_eq]
      exact framed_of_frames_eq rfl
    branchElse := by
      intro _ condition body otherwise ihb iho s b h
      obtain ⟨v, c, d, -, hc, hd, rfl⟩ := statement_branchElse h
      rw [(iho _ _ hd).closed_eq, (ihb _ _ hc).closed_eq]
      exact framed_of_frames_eq rfl
    loop := by
      intro _ condition body ih s b h
      obtain ⟨v, c, -, hc, rfl⟩ := statement_loop h
      rw [(ih _ _ hc).closed_eq]
      exact framed_of_frames_eq rfl
    halt := by
      intro _ code s b h
      cases h
      exact framed_of_frames_eq rfl
    debug := by
      intro _ s b h
      cases h
      exact framed_of_frames_eq rfl
    nil := by
      intro s b h
      cases h
      exact framed_of_frames_eq rfl
    cons := by
      intro stmt rest ihs ihr s b h
      obtain ⟨c, d, hc, hd, rfl⟩ := statements_cons h
      intro f outer hs
      obtain ⟨more, hm⟩ := ihs _ _ hc f outer hs
      obtain ⟨more', hm'⟩ := ihr _ _ hd _ outer hm
      exact ⟨more ++ more', by rw [hm', List.append_assoc]⟩ }
  exact ⟨cases.one, cases.all⟩

theorem closed_pool (b : Body) : (closed b).2.pool = b.2.pool := by
  unfold closed
  split <;> rfl

theorem grows_closed {pool : Pool} {b : Body} (h : pool.Grows b.2.pool) :
    pool.Grows (closed b).2.pool := by
  rw [closed_pool]
  exact h

theorem grows_statement_all (env : Environment) (notes : Notes) :
    (∀ stmt s b, statement env notes s stmt = some b → s.pool.Grows b.2.pool) ∧
      ∀ body s b, statements env notes s body = some b → s.pool.Grows b.2.pool := by
  have cases : Stmt.Cases
      (fun stmt => ∀ s b, statement env notes s stmt = some b → s.pool.Grows b.2.pool)
      (fun body => ∀ s b, statements env notes s body = some b → s.pool.Grows b.2.pool) := {
    declare := by
      intro _ name ty value s b h
      obtain ⟨v, t, hv, ht, rfl⟩ := statement_declare h
      obtain ⟨frame, rest, -, -, rfl⟩ := define_eq_some ht
      exact grows_initial hv
    assign := by
      intro _ target value s b h
      obtain ⟨v, offset, ty, hv, -, rfl⟩ := statement_assign h
      exact grows_expression hv
    discard := by
      intro _ value s b h
      obtain ⟨v, hv, rfl⟩ := statement_discard h
      exact grows_expression hv
    block := by
      intro _ body ih s b h
      obtain ⟨c, hc, rfl⟩ := statement_block h
      exact grows_closed (ih s.opened c hc)
    branch := by
      intro _ condition body ih s b h
      obtain ⟨v, c, hv, hc, rfl⟩ := statement_branch h
      have inner := grows_closed (ih _ c hc)
      exact (grows_expression hv).trans inner
    branchElse := by
      intro _ condition body otherwise ihb iho s b h
      obtain ⟨v, c, d, hv, hc, hd, rfl⟩ := statement_branchElse h
      have inner := grows_closed (ihb _ c hc)
      have outer := grows_closed (iho _ d hd)
      exact (grows_expression hv).trans (inner.trans outer)
    loop := by
      intro _ condition body ih s b h
      obtain ⟨v, c, hv, hc, rfl⟩ := statement_loop h
      have inner := grows_closed (ih _ c hc)
      exact (grows_expression hv).trans inner
    halt := by
      intro _ code s b h
      cases h
      exact .refl _
    debug := by
      intro _ s b h
      cases h
      exact .refl _
    nil := by
      intro s b h
      cases h
      exact .refl _
    cons := by
      intro stmt rest ihs ihr s b h
      obtain ⟨c, d, hc, hd, rfl⟩ := statements_cons h
      have one := ihs s c hc
      exact one.trans (ihr c.2 d hd) }
  exact ⟨cases.one, cases.all⟩

end Lowering

end Bytescript
