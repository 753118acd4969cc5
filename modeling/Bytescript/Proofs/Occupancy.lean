import Mathlib
import Bytescript.Proofs.Course

/-!
# The room that an expression takes

The generator visits the expressions of a program, except those in a path of fields. The code of
each leaves one value of the final type in its note at the previous end of the stack, and no
instruction of it pops anything below.
-/
namespace Bytescript

open Typing

namespace Generate

/-- The generator visits an expression while it works on another, from one assembly to another. -/
inductive ComesTo (notes : Notes) : Expr → Assembly → Expr → Assembly → Prop
  | here {e : Expr} {a : Assembly} : ComesTo notes e a e a
  | left {mark : Mark} {op : BinaryOp} {left right e : Expr} {a c : Assembly}
      (h : ComesTo notes left a e c) : ComesTo notes (.binary mark op left right) a e c
  | right {mark : Mark} {op : BinaryOp} {left right e : Expr} {a b c : Assembly} {slot : Slot}
      (onLeft : expression notes left a = .ok (slot, b)) (h : ComesTo notes right b e c) :
      ComesTo notes (.binary mark op left right) a e c
  | inner {mark : Mark} {op : UnaryOp} {inner e : Expr} {a c : Assembly}
      (h : ComesTo notes inner a e c) : ComesTo notes (.unary mark op inner) a e c
  | cast {mark : Mark} {inner e : Expr} {written : TypeRef} {a c : Assembly}
      (h : ComesTo notes inner a e c) : ComesTo notes (.cast mark inner written) a e c

/-- The generator visits an expression while it works on some statements, from one assembly to
another. -/
def Visits (env : Environment) (notes : Notes) (body : List Stmt) (a : Assembly) (e : Expr)
    (c : Assembly) : Prop :=
  ∃ stmt rest value b, Reaches env notes body a (stmt :: rest) b ∧ stmt.value? = some value ∧
    ComesTo notes value b e c

section

variable {env : Environment} {notes : Notes} {stmt : Stmt} {rest body : List Stmt}
  {a b c : Assembly} {e : Expr}

theorem Visits.inside (enters : Enters env notes stmt a body b) (h : Visits env notes body b e c) :
    Visits env notes (stmt :: rest) a e c := by
  obtain ⟨s, r, value, d, reached, hv, comes⟩ := h
  exact ⟨s, r, value, d, .inside enters reached, hv, comes⟩

theorem Visits.next (done : statement env notes stmt a = .ok ((), b))
    (h : Visits env notes rest b e c) : Visits env notes (stmt :: rest) a e c := by
  obtain ⟨s, r, value, d, reached, hv, comes⟩ := h
  exact ⟨s, r, value, d, .next done reached, hv, comes⟩

end

end Generate

/-- The instructions, from a depth on, pop nothing below a floor. -/
def Above (floor n : Nat) (is : List Instruction) : Prop :=
  ∀ k i, is[k]? = some i → floor + i.effect.1 ≤ depthAfter n (is.take k)

namespace Above

variable {floor n : Nat} {is js : List Instruction}

theorem nil : Above floor n [] := by
  intro k i hi
  cases hi

theorem single {i : Instruction} (h : floor + i.effect.1 ≤ n) : Above floor n [i] := by
  intro k j hj
  cases k with
  | zero =>
    cases hj
    exact h
  | succ k => cases hj

theorem append (h : Above floor n is) (g : Above floor (depthAfter n is) js) :
    Above floor n (is ++ js) := by
  intro k i hi
  rcases Nat.lt_or_ge k is.length with hlt | hge
  · rw [List.getElem?_append_left hlt] at hi
    rw [List.take_append_of_le_length hlt.le]
    exact h k i hi
  · rw [List.getElem?_append_right hge] at hi
    rw [List.take_append, List.take_of_length_le hge, depthAfter_append]
    exact g _ i hi

theorem mono {low : Nat} (h : Above floor n is) (le : low ≤ floor) : Above low n is := by
  intro k i hi
  have := h k i hi
  omega

end Above

namespace Typing

variable {env : Environment} {scopes : Scopes} {notes : Notes} {frames : List Frame} {pool : Pool}
  {e : Expr} {v : Lowering.Value}

theorem above_settle {note : Note} {b : Lowering.Value} {n : Nat}
    (settled : Lowering.settle note b = some v) (hb : Above n n b.code)
    (depth : depthAfter n b.code = n + note.ty.size) : Above n n v.code := by
  obtain ⟨cs, hcs, rfl⟩ := Option.map_eq_some_iff.mp settled
  refine hb.append ?_
  rw [depth]
  unfold Lowering.coercion at hcs
  cases hk : note.coercion with
  | none =>
    rw [hk] at hcs
    cases hcs
    exact .nil
  | some k =>
    simp only [hk, Option.bind_eq_some_iff, Option.map_eq_some_iff] at hcs
    obtain ⟨p, hp, q, -, rfl⟩ := hcs
    rw [Ty.size_of_primitive hp]
    cases hi : k.conversion.instruction? p q with
    | none => exact .nil
    | some i =>
      have small := p.size_le
      have small' := q.size_le
      apply Above.single
      rcases Conversion.instruction?_cases hi with ⟨op, hop, rfl⟩ | ⟨-, rfl⟩ | ⟨-, rfl⟩
      · rw [Instruction.effect_paired hop (by omega) (by omega)]
      · rw [Instruction.effect_pushZero (by omega)]
        omega
      · rw [Instruction.effect_pop (by omega)]
        omega

/-- The code of an expression pops nothing below the start of its value. -/
theorem Coded.above (h : Coded env notes scopes frames pool e v) (small : env.Small) (n : Nat) :
    Above n n v.code := by
  induction h generalizing n with
  | literal _ _ stored suited settled =>
    refine above_settle settled ?_ (depthAfter_literal _ _ stored.size_lt n)
    rcases literal_code _ stored with ⟨p, bits, -, -, hc⟩ | ⟨text, -, -, hc⟩
    · have := p.size_le
      rw [hc]
      exact .single (by simp [Instruction.effect_pushData (show p.size < 65536 by omega)])
    · rw [hc]
      exact .single (Nat.le_refl n)
  | place _ _ _ _ _ _ known suited settled =>
    have effect := Instruction.effect_pushStack (small.known known)
    exact above_settle settled (.single (by simp [effect])) (by simp [effect])
  | @binary _ _ _ _ _ _ l r _ p _ onLeft onRight leftType rightType _ size _ settled ihl ihr =>
    have hl : l.ty.size = p.size := Ty.size_of_primitive leftType
    have hr : r.ty.size = p.size := Ty.size_of_primitive rightType
    have depthLeft := onLeft.depthAfter_eq small n
    have depthBoth : depthAfter n (l.code ++ r.code) = n + 2 * p.size := by
      rw [depthAfter_append, depthLeft, onRight.depthAfter_eq small, hl, hr]
      omega
    refine above_settle settled (.append (.append (ihl n) ?_) (.single ?_)) ?_
    · rw [depthLeft]
      exact (ihr _).mono (Nat.le_add_right ..)
    · rw [depthBoth, Lowering.effect_binary]
    · rw [depthAfter_append, depthBoth, depthAfter_cons, Lowering.effect_binary, depthAfter_nil,
        size]
      omega
  | @unary _ _ _ _ _ w _ p _ inner innerType _ size suited settled ih =>
    have depth := inner.depthAfter_eq small n
    rw [Ty.size_of_primitive innerType] at depth
    refine above_settle settled (.append (ih n) (.single ?_)) ?_
    · rw [depth, Lowering.effect_unary]
    · rw [depthAfter_append, depth, depthAfter_cons, Lowering.effect_unary, depthAfter_nil, size]
      omega
  | cast _ inner size suited settled ih =>
    refine above_settle settled (ih n) ?_
    rw [inner.depthAfter_eq small, size]

end Typing

namespace Generate

section

variable {α β : Type} {a : Assembly}

end

variable {env : Environment} {notes : Notes} {scopes : Scopes} {a b : Assembly} {e : Expr}
  {v : Lowering.Value}

end Generate

namespace Generate

variable {env : Environment} {notes : Notes} {scopes : Scopes} {stmt : Stmt}
  {rest body : List Stmt} {a b c : Assembly} {e root : Expr} {v : Lowering.Value}

theorem Underway.value (h : Underway env notes scopes (stmt :: rest) a) (sound : env.Sound)
    (value : stmt.value? = some e) : ∃ v, Coded env notes scopes a.frames a.pool e v := by
  obtain ⟨after, d, accepted, -, hd, -⟩ := h.one
  cases stmt with
  | declare position name ty init =>
    cases value
    obtain ⟨t, initial, -⟩ := accepted
    obtain ⟨v, _, hv, -⟩ := Lowering.statement_declare hd
    obtain ⟨-, ⟨hn, -⟩ | ⟨e, w, he, coded, -⟩⟩ := initial.coded sound h.known h.agree hv
    · cases hn
    · cases he
      exact ⟨w, coded⟩
  | assign position target init =>
    cases value
    obtain ⟨⟨t, hp, fits⟩, -⟩ := accepted
    obtain ⟨v, _, _, hv, -⟩ := Lowering.statement_assign hd
    have known := known_of_placeType sound h.known hp
    exact ⟨v, (fits.coded sound h.known h.agree known hv).1⟩
  | discard position init =>
    cases value
    obtain ⟨⟨note, has⟩, -⟩ := accepted
    obtain ⟨v, hv, -⟩ := Lowering.statement_discard hd
    exact ⟨v, (has.coded sound h.known h.agree hv).1⟩
  | branch position condition body otherwise =>
    cases value
    cases otherwise with
    | none =>
      obtain ⟨v, _, hv, -⟩ := Lowering.statement_branch hd
      exact ⟨v, (accepted.1.coded sound h.known h.agree hv).1⟩
    | some other =>
      obtain ⟨v, _, _, hv, -⟩ := Lowering.statement_branchElse hd
      exact ⟨v, (accepted.1.coded sound h.known h.agree hv).1⟩
  | loop position condition body =>
    cases value
    obtain ⟨v, _, hv, -⟩ := Lowering.statement_loop hd
    exact ⟨v, (accepted.1.coded sound h.known h.agree hv).1⟩
  | block position body => cases value
  | halt position code => cases value
  | debug position => cases value

/-- Every expression that the generator visits is typed. -/
theorem ComesTo.coded (h : ComesTo notes root a e c)
    (coded : Coded env notes scopes a.frames a.pool root v) (low : a.pool.mark < wordLimit) :
    ∃ w, Coded env notes scopes c.frames c.pool e w ∧ c.pool.mark < wordLimit := by
  induction h generalizing v with
  | here => exact ⟨v, coded, low⟩
  | left _ ih =>
    cases coded with
    | binary _ onLeft => exact ih onLeft low
    | place _ isPlace => cases isPlace
  | right onLeft' _ ih =>
    cases coded with
    | binary _ onLeft onRight =>
      obtain ⟨-, fits, rfl⟩ := expression_eq low onLeft.lowered onLeft'
      exact ih onRight fits.2
    | place _ isPlace => cases isPlace
  | inner _ ih =>
    cases coded with
    | unary _ inner => exact ih inner low
    | place _ isPlace => cases isPlace
  | cast _ ih =>
    cases coded with
    | cast _ inner => exact ih inner low
    | place _ isPlace => cases isPlace

theorem Visits.coded (h : Visits env notes body a e c) (sound : env.Sound)
    (start : Underway env notes scopes body a) :
    ∃ inner w, Coded env notes inner c.frames c.pool e w ∧ c.pool.mark < wordLimit := by
  obtain ⟨stmt, rest, value, b, reached, hv, comes⟩ := h
  obtain ⟨inner, underway⟩ := start.reaches sound reached
  obtain ⟨v, coded⟩ := underway.value sound hv
  obtain ⟨w, typed, low⟩ := comes.coded coded underway.low
  exact ⟨inner, w, typed, low⟩

/-- A property holds of some expressions, except those in paths of fields. -/
def Covers (property : Expr → Prop) (es : List Expr) : Prop :=
  ∀ e ∈ es, property e ∨ ∃ mark target name, .field mark target name ∈ es ∧ e ∈ target.nodes

namespace Covers

variable {property other : Expr → Prop} {es fs : List Expr}

theorem mono (h : Covers property es) (le : ∀ e, property e → other e) : Covers other es := by
  intro e he
  exact (h e he).imp_left (le e)

theorem append (h : Covers property es) (g : Covers property fs) : Covers property (es ++ fs) := by
  intro e he
  rcases List.mem_append.mp he with he | he
  · refine (h e he).imp_right ?_
    rintro ⟨mark, target, name, hf, inside⟩
    exact ⟨mark, target, name, List.mem_append_left _ hf, inside⟩
  · refine (g e he).imp_right ?_
    rintro ⟨mark, target, name, hf, inside⟩
    exact ⟨mark, target, name, List.mem_append_right _ hf, inside⟩

theorem nil : Covers property [] := by
  intro e he
  cases he

theorem single (h : property e) : Covers property [e] := by
  intro f hf
  cases List.mem_singleton.mp hf
  exact Or.inl h

end Covers

/-- The generator visits all parts of an expression whose code fits. -/
theorem covers_expression (hv : Lowering.expression notes a.frames a.pool root = some v)
    (fits : a.Fits v.code v.pool) :
    Covers (fun e => ∃ c, ComesTo notes root a e c) root.nodes := by
  induction root generalizing a v with
  | literal mark value => exact .single ⟨a, .here⟩
  | «variable» mark name => exact .single ⟨a, .here⟩
  | field mark target name =>
    intro e he
    rcases List.mem_append.mp he with inside | he
    · have self : Expr.field mark target name ∈ (Expr.field mark target name).nodes :=
        List.mem_append_right _ (List.mem_singleton.mpr rfl)
      exact Or.inr ⟨mark, target, name, self, inside⟩
    · cases List.mem_singleton.mp he
      exact Or.inl ⟨a, .here⟩
  | binary mark op left right ihl ihr =>
    obtain ⟨note, l, r, p, -, hl, hr, -, settled⟩ := Lowering.expression_binary hv
    obtain ⟨fitsLeft, fitsRight⟩ := fits_operands settled hr fits
    obtain ⟨slot, -, onLeft⟩ := expression_run hl fitsLeft
    refine .append (.append ((ihl hl fitsLeft).mono ?_)
      ((ihr (a := a.appended l.code l.pool) hr fitsRight).mono ?_)) (.single ⟨a, .here⟩)
    · exact fun e => Exists.imp fun c => .left
    · exact fun e => Exists.imp fun c => .right onLeft
  | unary mark op operand ih =>
    obtain ⟨note, w, p, -, hw, -, settled⟩ := Lowering.expression_unary hv
    have inner : a.Fits w.code w.pool :=
      (fits_of_settle settled fits).shorten (List.prefix_append ..) (.refl _)
    exact ((ih hw inner).mono fun e => Exists.imp fun c => .inner).append (.single ⟨a, .here⟩)
  | cast mark operand written ih =>
    obtain ⟨note, w, -, hw, settled⟩ := Lowering.expression_cast hv
    have inner := fits_of_settle settled fits
    exact ((ih hw inner).mono fun e => Exists.imp fun c => .cast).append (.single ⟨a, .here⟩)

def CoveredAll (env : Environment) (notes : Notes) (body : List Stmt) : Prop :=
  ∀ a b, Lowering.statements env notes a.scene body = some b → a.Fits b.1 b.2.pool →
    Covers (fun e => ∃ c, Visits env notes body a e c) (Stmt.nodesAll body)

theorem covers_value (value : stmt.value? = some root)
    (hv : Lowering.expression notes a.frames a.pool root = some v) (fits : a.Fits v.code v.pool) :
    Covers (fun e => ∃ c, Visits env notes (stmt :: rest) a e c) root.nodes :=
  (covers_expression hv fits).mono fun _ => Exists.imp fun _ comes =>
    ⟨stmt, rest, root, a, .here, value, comes⟩

theorem CoveredAll.guarded (ih : CoveredAll env notes body) (value : stmt.value? = some root)
    (hv : Lowering.expression notes a.frames a.pool root = some v) {d : Lowering.Body}
    (hd : Lowering.statements env notes
      (a.scene.after (Lowering.guarded v 0) v.pool).opened body = some d)
    (enters : ∀ slot b jump c, expression notes root a = .ok (slot, b) →
      b.openJump true = .ok (jump, c) → Enters env notes stmt a body c.openFrame) {target : Nat}
    (fits : a.Fits (Lowering.guarded v target ++ (Lowering.closed d).1)
      (Lowering.closed d).2.pool) :
    Covers (fun e => ∃ c, Visits env notes (stmt :: rest) a e c)
      (root.nodes ++ Stmt.nodesAll body) := by
  obtain ⟨slot, c, run, opened, -, scene, guarded, inside⟩ := guarded_run hv hd fits
  have entry := congrArg Scene.opened scene
  rw [← Assembly.scene_openFrame] at entry
  rw [← entry] at hd
  exact (covers_value value hv (guarded.shorten (List.prefix_append ..) (.refl _))).append
    ((ih _ d hd inside.of_closed).mono fun _ =>
      Exists.imp fun _ => .inside (enters slot _ _ _ run opened))

end Generate

namespace Program

open Generate

end Program

end Bytescript
