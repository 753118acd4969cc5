import Mathlib
import Bytescript.Proofs.Depth

/-!
# Points in generated code

While it works the generator passes points: it is between two statements, or it has generated the
operands of an operator and the operation is next. The assembly at such a point gives its position
in the code and the variables in scope. No operation on typed operands is generated elsewhere
(`sited_statement_all`).
-/
namespace Bytescript

def Stmt.value? : Stmt → Option Expr
  | .declare _ _ _ value => value
  | .assign _ _ value => some value
  | .discard _ value => some value
  | .branch _ condition _ _ => some condition
  | .loop _ condition _ => some condition
  | .block _ _ | .halt _ _ | .debug _ => none

/-- An operation, the number of its operands and their type. -/
structure Operator where
  opcode : Opcode
  operands : Nat
  operand : Primitive

/-- The kinds of points: between two statements, or behind the operands of an operator. -/
inductive Site where
  | boundary
  | operator (o : Operator)

namespace Generate

/-- The generator comes to an operator in an expression, from one assembly to another. -/
inductive Applies (notes : Notes) : Expr → Assembly → Operator → Assembly → Prop
  | binary {mark : Mark} {op : BinaryOp} {left right : Expr} {a b c : Assembly} {l r : Slot}
      {p : Primitive} (onLeft : expression notes left a = .ok (l, b))
      (onRight : expression notes right b = .ok (r, c)) (operand : l.ty.primitive? = some p) :
      Applies notes (.binary mark op left right) a ⟨binaryOpcode op p, 2, p⟩ c
  | left {mark : Mark} {op : BinaryOp} {left right : Expr} {a c : Assembly} {o : Operator}
      (h : Applies notes left a o c) : Applies notes (.binary mark op left right) a o c
  | right {mark : Mark} {op : BinaryOp} {left right : Expr} {a b c : Assembly} {l : Slot}
      {o : Operator} (onLeft : expression notes left a = .ok (l, b))
      (h : Applies notes right b o c) : Applies notes (.binary mark op left right) a o c
  | unary {mark : Mark} {op : UnaryOp} {inner : Expr} {a c : Assembly} {slot : Slot}
      {p : Primitive} (onInner : expression notes inner a = .ok (slot, c))
      (operand : slot.ty.primitive? = some p) :
      Applies notes (.unary mark op inner) a ⟨unaryOpcode op p, 1, p⟩ c
  | inner {mark : Mark} {op : UnaryOp} {inner : Expr} {a c : Assembly} {o : Operator}
      (h : Applies notes inner a o c) : Applies notes (.unary mark op inner) a o c
  | cast {mark : Mark} {inner : Expr} {written : TypeRef} {a c : Assembly} {o : Operator}
      (h : Applies notes inner a o c) : Applies notes (.cast mark inner written) a o c

/-- The generator enters a body of a statement, from one assembly to another. -/
inductive Enters (env : Environment) (notes : Notes) :
    Stmt → Assembly → List Stmt → Assembly → Prop
  | block {position : Position} {body : List Stmt} {a : Assembly} :
      Enters env notes (.block position body) a body a.openFrame
  | branch {position : Position} {condition : Expr} {body : List Stmt}
      {otherwise : Option (List Stmt)} {a b c : Assembly} {slot : Slot} {jump : Jump}
      (tested : expression notes condition a = .ok (slot, b))
      (skip : b.openJump true = .ok (jump, c)) :
      Enters env notes (.branch position condition body otherwise) a body c.openFrame
  | otherwise {position : Position} {condition : Expr} {body other : List Stmt}
      {a b c d e f g : Assembly} {slot : Slot} {jump leaving : Jump} {n : Nat}
      (tested : expression notes condition a = .ok (slot, b))
      (skip : b.openJump true = .ok (jump, c))
      (done : statements env notes body c.openFrame = .ok ((), d))
      (closed : d.closeFrame = .ok (n, e)) (leave : e.openJump false = .ok (leaving, f))
      (directed : f.closeJump jump true = .ok g) :
      Enters env notes (.branch position condition body (some other)) a other g.openFrame
  | loop {position : Position} {condition : Expr} {body : List Stmt} {a b c : Assembly}
      {slot : Slot} {jump : Jump} (tested : expression notes condition a = .ok (slot, b))
      (skip : b.openJump true = .ok (jump, c)) :
      Enters env notes (.loop position condition body) a body c.openFrame

/-- The generator passes a point while it works on statements, from one assembly to another. -/
inductive Passes (env : Environment) (notes : Notes) :
    List Stmt → Assembly → Site → Assembly → Prop
  | here {body : List Stmt} {a : Assembly} : Passes env notes body a .boundary a
  | operator {stmt : Stmt} {rest : List Stmt} {e : Expr} {a c : Assembly} {o : Operator}
      (value : stmt.value? = some e) (h : Applies notes e a o c) :
      Passes env notes (stmt :: rest) a (.operator o) c
  | inside {stmt : Stmt} {rest body : List Stmt} {a b c : Assembly} {k : Site}
      (enters : Enters env notes stmt a body b) (h : Passes env notes body b k c) :
      Passes env notes (stmt :: rest) a k c
  | next {stmt : Stmt} {rest : List Stmt} {a b c : Assembly} {k : Site}
      (done : statement env notes stmt a = .ok ((), b)) (h : Passes env notes rest b k c) :
      Passes env notes (stmt :: rest) a k c

theorem statements_cons_ok {env : Environment} {notes : Notes} {stmt : Stmt} {rest : List Stmt}
    {a b : Assembly} (h : statements env notes (stmt :: rest) a = .ok ((), b)) :
    ∃ c, statement env notes stmt a = .ok ((), c) ∧ statements env notes rest c = .ok ((), b) := by
  simp only [statements, bind_apply] at h
  obtain ⟨⟨⟨⟩, c⟩, one, others⟩ := bind_eq_ok_iff.mp h
  exact ⟨c, one, others⟩

theorem Passes.after {env : Environment} {notes : Notes} {front rest : List Stmt}
    {a b c : Assembly} {k : Site} (done : statements env notes front a = .ok ((), b))
    (h : Passes env notes rest b k c) : Passes env notes (front ++ rest) a k c := by
  induction front generalizing a with
  | nil =>
    cases done
    exact h
  | cons stmt front ih =>
    obtain ⟨d, one, others⟩ := statements_cons_ok done
    exact .next one (ih others)

section

variable {env : Environment} {notes : Notes}

/-- The generator runs on an expression whose code fits. -/
theorem expression_run {e : Expr} {a : Assembly} {v : Lowering.Value}
    (hv : Lowering.expression notes a.frames a.pool e = some v) (fits : a.Fits v.code v.pool) :
    ∃ slot, slot.ty = v.ty ∧ expression notes e a = .ok (slot, a.appended v.code v.pool) := by
  have gives := expression_gives notes e ((Lowering.grows_expression hv).mark_lt fits.2)
  rw [hv] at gives
  obtain ⟨_, run, address, rfl⟩ := gives.of_fits fits
  exact ⟨_, rfl, run⟩

theorem fits_operands {a : Assembly} {note : Note} {l r v : Lowering.Value} {ty : Ty}
    {right : Expr} {i : Instruction}
    (settled : Lowering.settle note ⟨ty, l.code ++ r.code ++ [i], r.pool⟩ = some v)
    (hr : Lowering.expression notes a.frames l.pool right = some r) (fits : a.Fits v.code v.pool) :
    a.Fits l.code l.pool ∧ (a.appended l.code l.pool).Fits r.code r.pool := by
  have operands : a.Fits (l.code ++ r.code) r.pool :=
    (fits_of_settle settled fits).shorten (List.prefix_append ..) (.refl _)
  have left : a.Fits l.code l.pool :=
    operands.shorten (List.prefix_append ..) (Lowering.grows_expression hr)
  exact ⟨left, (Assembly.fits_append left).mp operands⟩

theorem expression_eq {e : Expr} {a b : Assembly} {slot : Slot} {v : Lowering.Value}
    (low : a.pool.mark < wordLimit) (hv : Lowering.expression notes a.frames a.pool e = some v)
    (run : expression notes e a = .ok (slot, b)) :
    slot.ty = v.ty ∧ a.Fits v.code v.pool ∧ b = a.appended v.code v.pool := by
  have gives := expression_gives notes e low
  rw [hv] at gives
  obtain ⟨fits, address, hr⟩ := gives.of_ok run
  cases hr
  exact ⟨rfl, fits, rfl⟩

theorem statement_run {stmt : Stmt} {a : Assembly} {b : Lowering.Body}
    (hb : Lowering.statement env notes a.scene stmt = some b) (fits : a.Fits b.1 b.2.pool) :
    statement env notes stmt a = .ok ((), a.withBody b) := by
  have grows := (Lowering.grows_statement_all env notes).1 _ _ _ hb
  have made := (statements_make env notes).1 stmt a (grows.mark_lt fits.2)
  rw [hb] at made
  obtain ⟨_, run, rfl⟩ := made.of_fits fits
  exact run

theorem statements_run {body : List Stmt} {a : Assembly} {b : Lowering.Body}
    (hb : Lowering.statements env notes a.scene body = some b) (fits : a.Fits b.1 b.2.pool) :
    statements env notes body a = .ok ((), a.withBody b) := by
  have grows := (Lowering.grows_statement_all env notes).2 _ _ _ hb
  have made := (statements_make env notes).2 body a (grows.mark_lt fits.2)
  rw [hb] at made
  obtain ⟨_, run, rfl⟩ := made.of_fits fits
  exact run

theorem statement_eq {stmt : Stmt} {a c : Assembly} {b : Lowering.Body}
    (low : a.pool.mark < wordLimit) (hb : Lowering.statement env notes a.scene stmt = some b)
    (done : statement env notes stmt a = .ok ((), c)) :
    c = a.withBody b ∧ a.Fits b.1 b.2.pool := by
  have made := (statements_make env notes).1 stmt a low
  rw [hb] at made
  obtain ⟨fits, hr⟩ := made.of_ok done
  cases hr
  exact ⟨rfl, fits⟩

theorem statements_eq {body : List Stmt} {a c : Assembly} {b : Lowering.Body}
    (low : a.pool.mark < wordLimit) (hb : Lowering.statements env notes a.scene body = some b)
    (done : statements env notes body a = .ok ((), c)) :
    c = a.withBody b ∧ a.Fits b.1 b.2.pool := by
  have made := (statements_make env notes).2 body a low
  rw [hb] at made
  obtain ⟨fits, hr⟩ := made.of_ok done
  cases hr
  exact ⟨rfl, fits⟩

theorem scene_statement {stmt : Stmt} {a c : Assembly} {b : Lowering.Body}
    (low : a.pool.mark < wordLimit) (hb : Lowering.statement env notes a.scene stmt = some b)
    (done : statement env notes stmt a = .ok ((), c)) :
    c.scene = b.2 ∧ a.Fits b.1 b.2.pool := by
  obtain ⟨rfl, fits⟩ := statement_eq low hb done
  exact ⟨Assembly.scene_withBody ((Lowering.follows_statement_all env notes).1 _ _ _ hb), fits⟩

theorem scene_statements {body : List Stmt} {a c : Assembly} {b : Lowering.Body}
    (low : a.pool.mark < wordLimit) (hb : Lowering.statements env notes a.scene body = some b)
    (done : statements env notes body a = .ok ((), c)) :
    c.scene = b.2 ∧ a.Fits b.1 b.2.pool := by
  obtain ⟨rfl, fits⟩ := statements_eq low hb done
  exact ⟨Assembly.scene_withBody ((Lowering.follows_statement_all env notes).2 _ _ _ hb), fits⟩

end

end Generate

namespace Assembly

theorem scene_appended (a : Assembly) (is : List Instruction) (pool : Pool) :
    (a.appended is pool).scene = a.scene.after is pool :=
  scene_withBody (Lowering.follows_after _ _ _)

theorem position_appended (a : Assembly) (is : List Instruction) (pool : Pool) :
    (a.appended is pool).position = a.position + is.length :=
  congrArg Scene.position (scene_appended a is pool)

theorem scene_openJump {a b : Assembly} {conditional : Bool} {jump : Jump}
    (h : a.openJump conditional = .ok (jump, b)) :
    jump = .forward a.position ∧
      b.scene = a.scene.after [Lowering.jump conditional 0] a.pool := by
  obtain ⟨-, hr⟩ := (paired_eq_ok_iff fun _ => emit_eq_ok_iff).mp h
  cases hr
  refine ⟨rfl, ?_⟩
  rw [scene_appended]
  cases conditional <;> rfl

theorem scene_closeFrame {a c : Assembly} {b : Lowering.Body} {n : Nat} (h : a.scene = b.2)
    (closed : a.closeFrame = .ok (n, c)) : c.scene = (Lowering.closed b).2 := by
  obtain ⟨code, size, frames, pool⟩ := a
  obtain ⟨is, t⟩ := b
  subst h
  cases frames with
  | nil =>
    cases closed
    rfl
  | cons frame rest =>
    simp only [closeFrame] at closed
    simp only [Lowering.closed, Lowering.drop, scene]
    by_cases h : size - frame.entrySize = 0
    · rw [if_pos h] at closed
      cases closed
      simp [h, Scene.after, position]
    · rw [if_neg h] at closed
      obtain ⟨-, hr⟩ := (paired_eq_ok_iff fun _ => emit_eq_ok_iff).mp closed
      cases hr
      simp [h, Scene.after, position, appended]

theorem scene_closeJump {a b : Assembly} {slot : Nat} {conditional : Bool}
    (h : a.closeJump (.forward slot) conditional = .ok b) : b.scene = a.scene := by
  obtain ⟨i, -, -, rfl⟩ := closeJump_forward_eq_ok_iff.mp h
  simp [scene, position]

theorem fits_of_follows {a e : Assembly} {is js : List Instruction} {t : Scene} {pool : Pool}
    (h : Lowering.Follows a.scene (is, t)) (size : e.stackSize = t.size)
    (fits : a.Fits (is ++ js) pool) : e.Fits js pool := by
  refine ⟨?_, fits.2⟩
  rw [size, h.2]
  exact (counted_append.mp fits.1).2

end Assembly

namespace Lowering

variable {env : Environment} {notes : Notes}

theorem scene_guarded {a b c : Assembly} {e : Expr} {v : Value} {slot : Slot} {skip : Jump}
    (low : a.pool.mark < wordLimit) (hv : expression notes a.frames a.pool e = some v)
    (tested : Generate.expression notes e a = .ok (slot, b))
    (opened : b.openJump true = .ok (skip, c)) :
    c.openFrame.scene = (a.scene.after (guarded v 0) v.pool).opened ∧
      v.pool.mark < wordLimit := by
  obtain ⟨-, fits, rfl⟩ := Generate.expression_eq low hv tested
  refine ⟨?_, fits.2⟩
  rw [Assembly.scene_openFrame, (Assembly.scene_openJump opened).2, Assembly.scene_appended]
  simp [Scene.after, guarded, Nat.add_assoc]

/-- The scene of the generator in front of the other body. -/
theorem scene_otherwise {a b c d f g h : Assembly} {e : Expr} {v : Value} {slot : Slot}
    {body : List Stmt} {inner : Body} {skip leaving : Jump} {n : Nat}
    (low : a.pool.mark < wordLimit) (hv : expression notes a.frames a.pool e = some v)
    (hi : statements env notes (a.scene.after (guarded v 0) v.pool).opened body = some inner)
    (tested : Generate.expression notes e a = .ok (slot, b))
    (opened : b.openJump true = .ok (skip, c))
    (done : Generate.statements env notes body c.openFrame = .ok ((), d))
    (finished : d.closeFrame = .ok (n, f)) (leave : f.openJump false = .ok (leaving, g))
    (directed : g.closeJump skip true = .ok h) :
    h.openFrame.scene = ((closed inner).2.after [jump false 0] (closed inner).2.pool).opened ∧
      (closed inner).2.pool.mark < wordLimit := by
  obtain ⟨scene, lower⟩ := scene_guarded low hv tested opened
  rw [← scene] at hi
  have lower : c.openFrame.pool.mark < wordLimit :=
    (congrArg (fun t : Scene => t.pool.mark) scene).trans_lt lower
  obtain ⟨behind, fits⟩ := Generate.scene_statements lower hi done
  have ended := Assembly.scene_closeFrame behind finished
  obtain ⟨rfl, -⟩ := Assembly.scene_openJump opened
  refine ⟨?_, closed_pool inner ▸ fits.2⟩
  rw [Assembly.scene_openFrame, Assembly.scene_closeJump directed,
    (Assembly.scene_openJump leave).2, ended]
  exact congrArg (fun t : Scene => ((closed inner).2.after [jump false 0] t.pool).opened) ended

end Lowering

/-- Each operation on typed operands among some instructions is at one of some points. -/
def Sited (points : Operator → Assembly → Prop) (start : Nat) (is : List Instruction) : Prop :=
  ∀ j i op, is[j]? = some i → i.opcode? = some op → op.layout = .typed →
    ∃ o c, points o c ∧ c.position = start + j

namespace Sited

variable {points more : Operator → Assembly → Prop} {start : Nat} {is js : List Instruction}

theorem mono (h : Sited points start is) (le : ∀ o c, points o c → more o c) :
    Sited more start is := by
  intro j i op hj hop typed
  obtain ⟨o, c, hp, hc⟩ := h j i op hj hop typed
  exact ⟨o, c, le o c hp, hc⟩

theorem append (h : Sited points start is) (g : Sited points (start + is.length) js) :
    Sited points start (is ++ js) := by
  intro j i op hj hop typed
  rcases Nat.lt_or_ge j is.length with hlt | hge
  · exact h j i op (by rwa [List.getElem?_append_left hlt] at hj) hop typed
  · rw [List.getElem?_append_right hge] at hj
    obtain ⟨o, c, hp, hc⟩ := g _ i op hj hop typed
    exact ⟨o, c, hp, by omega⟩

theorem nil : Sited points start [] := by
  intro j i op hj
  cases hj

theorem single {i : Instruction} (h : ∀ op, i.opcode? = some op → op.layout = .typed →
    ∃ o c, points o c ∧ c.position = start) : Sited points start [i] := by
  intro j k op hj hop typed
  cases j with
  | zero =>
    cases hj
    exact h op hop typed
  | succ j => cases hj

theorem other {i : Instruction} {op : Opcode} (h : i.opcode? = some op) (hl : op.layout ≠ .typed) :
    Sited points start [i] := by
  refine single fun op' h' typed => ?_
  cases h.symm.trans h'
  exact absurd typed hl

end Sited

namespace Generate

variable {env : Environment} {notes : Notes} {points : Operator → Assembly → Prop} {start : Nat}

theorem sited_coercion {note : Note} {cs : List Instruction}
    (h : Lowering.coercion note = some cs) : Sited points start cs := by
  unfold Lowering.coercion at h
  cases hk : note.coercion with
  | none =>
    rw [hk] at h
    cases h
    exact .nil
  | some k =>
    simp only [hk, Option.bind_eq_some_iff, Option.map_eq_some_iff] at h
    obtain ⟨p, -, q, -, rfl⟩ := h
    cases hi : k.conversion.instruction? p q with
    | none => exact .nil
    | some i =>
      rcases Conversion.instruction?_cases hi with ⟨op, hop, rfl⟩ | ⟨-, rfl⟩ | ⟨-, rfl⟩
      · exact .other (Instruction.opcode?_paired ..) (by rw [hop]; decide)
      · exact .other (Instruction.opcode?_worded ..) (by decide)
      · exact .other (Instruction.opcode?_worded ..) (by decide)

theorem sited_settle {note : Note} {b v : Lowering.Value} (h : Lowering.settle note b = some v)
    (hb : Sited points start b.code) : Sited points start v.code := by
  obtain ⟨cs, hc, rfl⟩ := Option.map_eq_some_iff.mp h
  exact hb.append (sited_coercion hc)

theorem sited_expression {e : Expr} {a : Assembly} {v : Lowering.Value}
    (hv : Lowering.expression notes a.frames a.pool e = some v) (fits : a.Fits v.code v.pool) :
    Sited (Applies notes e a) a.position v.code := by
  induction e generalizing a v with
  | literal mark value =>
    obtain ⟨note, k, -, -, settled⟩ := Lowering.expression_literal hv
    refine sited_settle settled ?_
    unfold Lowering.literal
    dsimp only
    split
    · exact .other (Instruction.opcode?_worded ..) (by decide)
    · exact .other (Instruction.opcode?_sized ..) (by decide)
  | «variable» mark name =>
    obtain ⟨note, offset, ty, -, -, settled⟩ := Lowering.expression_variable hv
    exact sited_settle settled (.other (Instruction.opcode?_sized ..) (by decide))
  | field mark target name =>
    obtain ⟨note, place, offset, ty, -, -, -, settled⟩ := Lowering.expression_field hv
    exact sited_settle settled (.other (Instruction.opcode?_sized ..) (by decide))
  | binary mark op left right ihl ihr =>
    obtain ⟨note, l, r, p, -, hl, hr, hp, settled⟩ := Lowering.expression_binary hv
    obtain ⟨fitsLeft, fitsRight⟩ := fits_operands settled hr fits
    obtain ⟨slot, hty, runLeft⟩ := expression_run hl fitsLeft
    obtain ⟨_, -, runRight⟩ := expression_run (a := a.appended l.code l.pool) hr fitsRight
    have onRight := ihr (a := a.appended l.code l.pool) hr fitsRight
    rw [Assembly.position_appended] at onRight
    refine sited_settle settled (.append (.append ((ihl hl fitsLeft).mono fun o c => .left)
      (onRight.mono fun o c => .right runLeft)) (.single fun _ _ _ => ?_))
    refine ⟨_, _, .binary runLeft runRight (hty ▸ hp), ?_⟩
    rw [Assembly.position_appended, Assembly.position_appended, List.length_append, Nat.add_assoc]
  | unary mark op operand ih =>
    obtain ⟨note, w, p, -, hw, hp, settled⟩ := Lowering.expression_unary hv
    have inner : a.Fits w.code w.pool :=
      (fits_of_settle settled fits).shorten (List.prefix_append ..) (.refl _)
    obtain ⟨slot, hty, run⟩ := expression_run hw inner
    refine sited_settle settled
      (.append ((ih hw inner).mono fun o c => .inner) (.single fun _ _ _ => ?_))
    exact ⟨_, _, .unary run (hty ▸ hp), Assembly.position_appended ..⟩
  | cast mark operand written ih =>
    obtain ⟨note, w, -, hw, settled⟩ := Lowering.expression_cast hv
    have inner := fits_of_settle settled fits
    exact sited_settle settled ((ih hw inner).mono fun o c => .cast)

theorem sited_drop (n : Nat) : Sited points start (Lowering.drop n) := by
  unfold Lowering.drop
  split
  · exact .nil
  · exact .other (Instruction.opcode?_worded ..) (by decide)

theorem sited_jump (conditional : Bool) (target : Nat) :
    Sited points start [Lowering.jump conditional target] := by
  refine .other (Instruction.opcode?_worded ..) ?_
  cases conditional <;> decide

theorem sited_closed {b : Lowering.Body} (h : Sited points start b.1) :
    Sited points start (Lowering.closed b).1 := by
  unfold Lowering.closed
  split
  · exact h
  · exact h.append (sited_drop _)

def SitedOne (env : Environment) (notes : Notes) (stmt : Stmt) : Prop :=
  ∀ rest a b, Lowering.statement env notes a.scene stmt = some b → a.Fits b.1 b.2.pool →
    Sited (fun o => Passes env notes (stmt :: rest) a (.operator o)) a.position b.1

def SitedAll (env : Environment) (notes : Notes) (body : List Stmt) : Prop :=
  ∀ a b, Lowering.statements env notes a.scene body = some b → a.Fits b.1 b.2.pool →
    Sited (fun o => Passes env notes body a (.operator o)) a.position b.1

theorem sited_declare (position : Position) (name : String) (ty : Option TypeRef)
    (value : Option Expr) : SitedOne env notes (.declare position name ty value) := by
  intro rest a b hb fits
  obtain ⟨v, t, hv, ht, rfl⟩ := Lowering.statement_declare hb
  obtain ⟨frame, others, -, -, rfl⟩ := Lowering.define_eq_some ht
  have fits : a.Fits v.code v.pool := fits
  obtain ⟨-, code, -⟩ | ⟨e, w, he, hw, code, pool⟩ := Lowering.initial_cases hv
  · rw [code]
    exact .other (Instruction.opcode?_worded ..) (by decide)
  · rw [code] at fits ⊢
    rw [pool] at fits
    exact (sited_expression hw fits).mono fun o c => .operator he

theorem guard_run {e : Expr} {a : Assembly} {v : Lowering.Value}
    (hv : Lowering.expression notes a.frames a.pool e = some v)
    (fits : a.Fits (Lowering.guarded v 0) v.pool) :
    ∃ slot c, expression notes e a = .ok (slot, a.appended v.code v.pool) ∧
      (a.appended v.code v.pool).openJump true = .ok (.forward (a.position + v.code.length), c) ∧
      c = a.withBody (Lowering.guarded v Assembly.noTarget,
        a.scene.after (Lowering.guarded v 0) v.pool) := by
  have condition : a.Fits v.code v.pool := fits.shorten (List.prefix_append ..) (.refl _)
  obtain ⟨slot, -, run⟩ := expression_run hv condition
  have opened := (Assembly.openJump_withBody true
    (Lowering.follows_after a.scene v.code v.pool) condition).mpr ⟨fits, rfl⟩
  refine ⟨slot, _, run, opened, ?_⟩
  simp [Lowering.guarded, Scene.after, Nat.add_assoc]

/-- The generator enters a body behind a condition if the code fits. -/
theorem guarded_run {e : Expr} {body : List Stmt} {a : Assembly} {v : Lowering.Value}
    {c : Lowering.Body} {target : Nat}
    (hv : Lowering.expression notes a.frames a.pool e = some v)
    (hc : Lowering.statements env notes
      (a.scene.after (Lowering.guarded v 0) v.pool).opened body = some c)
    (fits : a.Fits (Lowering.guarded v target ++ (Lowering.closed c).1)
      (Lowering.closed c).2.pool) :
    ∃ slot d, expression notes e a = .ok (slot, a.appended v.code v.pool) ∧
      (a.appended v.code v.pool).openJump true = .ok (.forward (a.position + v.code.length), d) ∧
      d = a.withBody (Lowering.guarded v Assembly.noTarget,
        a.scene.after (Lowering.guarded v 0) v.pool) ∧
      d.scene = a.scene.after (Lowering.guarded v 0) v.pool ∧
      a.Fits (Lowering.guarded v 0) v.pool ∧
      d.Fits (Lowering.closed c).1 (Lowering.closed c).2.pool := by
  have grows := Lowering.grows_closed ((Lowering.grows_statement_all env notes).2 body _ c hc)
  have guarded : a.Fits (Lowering.guarded v 0) v.pool :=
    ((fits_guarded target 0).mp fits).shorten (List.prefix_append ..) grows
  obtain ⟨slot, d, run, opened, hd⟩ := guard_run hv guarded
  have scene : d.scene = a.scene.after (Lowering.guarded v 0) v.pool := by
    rw [hd, Assembly.scene_withBody (Lowering.follows_guarded a.scene v Assembly.noTarget)]
  exact ⟨slot, d, run, opened, hd, scene, guarded, Assembly.fits_of_follows
    (Lowering.follows_guarded a.scene v target) (congrArg Scene.size scene) fits⟩

theorem SitedAll.guarded {body : List Stmt} (h : SitedAll env notes body) {e : Expr}
    {a : Assembly} {v : Lowering.Value} {c : Lowering.Body}
    (hv : Lowering.expression notes a.frames a.pool e = some v)
    (hc : Lowering.statements env notes
      (a.scene.after (Lowering.guarded v 0) v.pool).opened body = some c) {stmt : Stmt}
    {rest : List Stmt} (value : stmt.value? = some e)
    (enters : ∀ slot b jump d, Generate.expression notes e a = .ok (slot, b) →
      b.openJump true = .ok (jump, d) → Enters env notes stmt a body d.openFrame) {target : Nat}
    (fits : a.Fits (Lowering.guarded v target ++ (Lowering.closed c).1)
      (Lowering.closed c).2.pool) :
    Sited (fun o => Passes env notes (stmt :: rest) a (.operator o)) a.position
      (Lowering.guarded v target ++ (Lowering.closed c).1) := by
  obtain ⟨slot, d, run, opened, -, scene, guarded, inside⟩ := guarded_run hv hc fits
  have condition : Sited (fun o => Passes env notes (stmt :: rest) a (.operator o)) a.position
      v.code :=
    (sited_expression hv (guarded.shorten (List.prefix_append ..) (.refl _))).mono
      fun o c => .operator value
  have hp : d.openFrame.position = a.position + (Lowering.guarded v target).length :=
    (congrArg Scene.position scene).trans (Lowering.follows_guarded a.scene v target).1
  have entry := congrArg Scene.opened scene
  rw [← Assembly.scene_openFrame] at entry
  rw [← entry] at hc
  have inner := sited_closed (h _ c hc inside.of_closed)
  rw [hp] at inner
  exact .append (condition.append (sited_jump true target))
    (inner.mono fun o c => .inside (enters slot _ _ _ run opened))

/-- The generator enters the other body of a branch if the code fits. -/
theorem enters_otherwise {condition : Expr} {body otherwise : List Stmt} {a : Assembly}
    {v : Lowering.Value} {c : Lowering.Body} {target leave : Nat}
    (hv : Lowering.expression notes a.frames a.pool condition = some v)
    (hc : Lowering.statements env notes
      (a.scene.after (Lowering.guarded v 0) v.pool).opened body = some c)
    (fits : a.Fits (Lowering.guarded v target ++ (Lowering.closed c).1 ++
      [Lowering.jump false leave]) (Lowering.closed c).2.pool) (position : Position) :
    ∃ entry, Enters env notes (.branch position condition body (some otherwise)) a otherwise entry ∧
      entry.scene = ((Lowering.closed c).2.after [Lowering.jump false 0]
        (Lowering.closed c).2.pool).opened := by
  have front := fits.shorten (List.prefix_append ..) (.refl _)
  obtain ⟨slot, d, run, opened, hd, scene, guarded, inside⟩ := guarded_run hv hc front
  have low := (Lowering.grows_expression hv).mark_lt guarded.2
  have entry := congrArg Scene.opened scene
  rw [← Assembly.scene_openFrame] at entry
  have done := statements_run (a := d.openFrame) (entry ▸ hc) inside.of_closed
  rw [Assembly.withBody_openFrame] at done
  have follows := (Lowering.follows_statement_all env notes).2 body _ c hc
  rw [← entry] at follows
  obtain ⟨n, closes⟩ := Assembly.closeFrame_withBody (a := d) follows inside.of_closed
  have closed := (closes _).mpr ⟨inside, rfl⟩
  -- behind the first body, the assembly is the one that the branch was met at, with more code
  have whole : Lowering.Follows a.scene
      (Lowering.guarded v Assembly.noTarget ++ (Lowering.closed c).1, (Lowering.closed c).2) :=
    (Lowering.follows_guarded a.scene v _).append (scene ▸ Lowering.Follows.closed follows)
  have behind : d.withBody (Lowering.closed c) = a.withBody
      (Lowering.guarded v Assembly.noTarget ++ (Lowering.closed c).1, (Lowering.closed c).2) := by
    rw [hd, Assembly.withBody_withBody]
  rw [behind] at closed
  have leaves := (Assembly.openJump_withBody false whole
    ((fits_guarded _ _).mp front)).mpr ⟨(fits_guarded_jump _ _ _ _).mp fits, rfl⟩
  dsimp only at leaves
  rw [List.append_assoc] at leaves
  have directed := closeJump_guarded a v
    ((Lowering.closed c).1 ++ [Lowering.jump false Assembly.noTarget])
    ((Lowering.closed c).2.after [Lowering.jump false 0] (Lowering.closed c).2.pool)
    Assembly.noTarget rfl
  exact ⟨_, .otherwise run opened done closed leaves directed,
    (Lowering.scene_otherwise low hv hc run opened done closed leaves directed).1⟩

theorem otherwise_run {condition : Expr} {body otherwise : List Stmt} {a : Assembly}
    {v : Lowering.Value} {c d : Lowering.Body} {target leave : Nat}
    (hv : Lowering.expression notes a.frames a.pool condition = some v)
    (hc : Lowering.statements env notes
      (a.scene.after (Lowering.guarded v 0) v.pool).opened body = some c)
    (hd : Lowering.statements env notes ((Lowering.closed c).2.after [Lowering.jump false 0]
      (Lowering.closed c).2.pool).opened otherwise = some d)
    (fits : a.Fits (Lowering.guarded v target ++ (Lowering.closed c).1 ++
      Lowering.jump false leave :: (Lowering.closed d).1) (Lowering.closed d).2.pool)
    (position : Position) :
    a.Fits (Lowering.guarded v target ++ (Lowering.closed c).1) (Lowering.closed c).2.pool ∧
      ∃ entry, Enters env notes (.branch position condition body (some otherwise)) a otherwise
          entry ∧
        entry.scene = ((Lowering.closed c).2.after [Lowering.jump false 0]
          (Lowering.closed c).2.pool).opened ∧
        entry.position = a.position + (Lowering.guarded v target ++ (Lowering.closed c).1 ++
          [Lowering.jump false leave]).length ∧
        entry.Fits d.1 d.2.pool := by
  have grows :=
    Lowering.grows_closed ((Lowering.grows_statement_all env notes).2 otherwise _ d hd)
  rw [List.append_cons] at fits
  have jumped := fits.shorten (List.prefix_append ..) grows
  obtain ⟨entry, enters, scene⟩ := enters_otherwise hv hc jumped position
  have follows := ((Lowering.follows_guarded a.scene v target).append
    ((Lowering.follows_statement_all env notes).2 _ _ _ hc).closed).append
    (Lowering.follows_jump (Lowering.closed c).2 false leave 0 (Lowering.closed c).2.pool)
  exact ⟨jumped.shorten (List.prefix_append ..) (.refl _), entry, enters, scene,
    (congrArg Scene.position scene).trans follows.1,
    (Assembly.fits_of_follows follows (congrArg Scene.size scene) fits).of_closed⟩

theorem sited_branchElse (position : Position) (condition : Expr) (body otherwise : List Stmt)
    (ihb : SitedAll env notes body) (iho : SitedAll env notes otherwise) :
    SitedOne env notes (.branch position condition body (some otherwise)) := by
  intro rest a b hb fits
  obtain ⟨v, c, d, hv, hc, hd, rfl⟩ := Lowering.statement_branchElse hb
  obtain ⟨fitsFront, entry, enters, scene, hp, inside⟩ := otherwise_run hv hc hd fits position
  have front : Sited (fun o => Passes env notes
      (.branch position condition body (some otherwise) :: rest) a (.operator o)) a.position _ :=
    ihb.guarded hv hc rfl (fun _ _ _ _ run opened => .branch run opened) fitsFront
  rw [← scene] at hd
  have other := sited_closed (iho entry d hd inside)
  rw [hp] at other
  dsimp only
  rw [List.append_cons]
  exact (front.append (sited_jump false (Lowering.closed d).2.position)).append
    (other.mono fun o c => .inside enters)

theorem cons_run {stmt : Stmt} {rest : List Stmt} {a : Assembly} {c d : Lowering.Body}
    (hc : Lowering.statement env notes a.scene stmt = some c)
    (hd : Lowering.statements env notes c.2 rest = some d)
    (fits : a.Fits (c.1 ++ d.1) d.2.pool) :
    a.Fits c.1 c.2.pool ∧ statement env notes stmt a = .ok ((), a.withBody c) ∧
      (a.withBody c).Fits d.1 d.2.pool ∧ (a.withBody c).scene = c.2 := by
  have follows := (Lowering.follows_statement_all env notes).1 _ _ _ hc
  have grows := (Lowering.grows_statement_all env notes).2 _ _ _ hd
  have one : a.Fits c.1 c.2.pool := fits.shorten (List.prefix_append ..) grows
  exact ⟨one, statement_run hc one, (Assembly.fits_withBody follows one _ _).mpr fits,
    Assembly.scene_withBody follows⟩

theorem sited_statement_all (env : Environment) (notes : Notes) :
    (∀ stmt, SitedOne env notes stmt) ∧ ∀ body, SitedAll env notes body := by
  have cases : Stmt.Cases (SitedOne env notes) (SitedAll env notes) := {
    declare := sited_declare
    assign := by
      intro position target value rest a b hb fits
      obtain ⟨v, offset, ty, hv, -, rfl⟩ := Lowering.statement_assign hb
      have value := fits.shorten (List.prefix_append ..) (.refl _)
      exact ((sited_expression hv value).mono fun o c => .operator rfl).append
        (.other (Instruction.opcode?_sized ..) (by decide))
    discard := by
      intro position value rest a b hb fits
      obtain ⟨v, hv, rfl⟩ := Lowering.statement_discard hb
      have value := fits.shorten (List.prefix_append ..) (.refl _)
      exact ((sited_expression hv value).mono fun o c => .operator rfl).append (sited_drop _)
    block := by
      intro position body ih rest a b hb fits
      obtain ⟨c, hc, rfl⟩ := Lowering.statement_block hb
      exact (sited_closed (ih a.openFrame c hc fits.of_closed)).mono fun o c => .inside .block
    branch := by
      intro position condition body ih rest a b hb fits
      obtain ⟨v, c, hv, hc, rfl⟩ := Lowering.statement_branch hb
      exact ih.guarded hv hc rfl (fun _ _ _ _ run opened => .branch run opened) fits
    branchElse := sited_branchElse
    loop := by
      intro position condition body ih rest a b hb fits
      obtain ⟨v, c, hv, hc, rfl⟩ := Lowering.statement_loop hb
      have front := fits.shorten (List.prefix_append ..) (.refl _)
      exact (ih.guarded hv hc rfl (fun _ _ _ _ run opened => .loop run opened) front).append
        (sited_jump false _)
    halt := by
      intro position code rest a b hb fits
      cases hb
      exact .other (Instruction.opcode?_halt code) (by decide)
    debug := by
      intro position rest a b hb fits
      cases hb
      exact .other (Instruction.opcode?_plain _) (by decide)
    nil := by
      intro a b hb fits
      cases hb
      exact .nil
    cons := by
      intro stmt rest ihs ihr a b hb fits
      obtain ⟨c, d, hc, hd, rfl⟩ := Lowering.statements_cons hb
      obtain ⟨one, done, others, scene⟩ := cons_run hc hd fits
      have hp : (a.withBody c).position = a.position + c.1.length :=
        (congrArg Scene.position scene).trans
          ((Lowering.follows_statement_all env notes).1 _ _ _ hc).1
      rw [← scene] at hd
      have behind := ihr (a.withBody c) d hd others
      rw [hp] at behind
      exact (ihs rest a c hc one).append (behind.mono fun o c => .next done) }
  exact ⟨cases.one, cases.all⟩

end Generate

end Bytescript
