import Mathlib
import Bytescript.Program.Basic

/-!
# Induction on statements and the numbers of expressions

Statements nest through lists, so a property of every statement is proved together with one of every
list of statements. The numbers of the expressions of a program are meant to be distinct; the lemmas
here derive this for its parts.
-/
namespace Bytescript

namespace Stmt

/-- The cases of an induction on statements, with `Q` for the lists of statements inside them. -/
structure Cases (P : Stmt → Prop) (Q : List Stmt → Prop) : Prop where
  declare : ∀ position name ty value, P (.declare position name ty value)
  assign : ∀ position target value, P (.assign position target value)
  discard : ∀ position value, P (.discard position value)
  block : ∀ position body, Q body → P (.block position body)
  branch : ∀ position condition body, Q body → P (.branch position condition body none)
  branchElse : ∀ position condition body otherwise, Q body → Q otherwise →
    P (.branch position condition body (some otherwise))
  loop : ∀ position condition body, Q body → P (.loop position condition body)
  halt : ∀ position code, P (.halt position code)
  debug : ∀ position, P (.debug position)
  nil : Q []
  cons : ∀ s rest, P s → Q rest → Q (s :: rest)

namespace Cases

variable {P : Stmt → Prop} {Q : List Stmt → Prop}

mutual

theorem one (h : Cases P Q) : ∀ s, P s
  | .declare p n t v => h.declare p n t v
  | .assign p t v => h.assign p t v
  | .discard p v => h.discard p v
  | .block p body => h.block p body (h.all body)
  | .branch p c body none => h.branch p c body (h.all body)
  | .branch p c body (some other) => h.branchElse p c body other (h.all body) (h.all other)
  | .loop p c body => h.loop p c body (h.all body)
  | .halt p c => h.halt p c
  | .debug p => h.debug p

theorem all (h : Cases P Q) : ∀ ss, Q ss
  | [] => h.nil
  | s :: rest => h.cons s rest (h.one s) (h.all rest)

end

end Cases

end Stmt

namespace Expr

def parts : Expr → List Expr
  | .literal .. | .variable .. => []
  | .field _ target _ => target.nodes
  | .binary _ _ left right => left.nodes ++ right.nodes
  | .unary _ _ operand => operand.nodes
  | .cast _ operand _ => operand.nodes

theorem nodes_eq (e : Expr) : e.nodes = e.parts ++ [e] := by
  cases e <;> simp [nodes, parts]

theorem mem_nodes {e n : Expr} : n ∈ e.nodes ↔ n ∈ e.parts ∨ n = e := by
  rw [nodes_eq]
  simp

/-- The numbers of an expression and of all inside it. -/
def ids (e : Expr) : List UInt32 := e.nodes.map Expr.id

def partIds (e : Expr) : List UInt32 := e.parts.map Expr.id

theorem ids_eq (e : Expr) : e.ids = e.partIds ++ [e.id] := by
  simp [ids, partIds, nodes_eq e]

@[simp] theorem partIds_binary (m : Mark) (op : BinaryOp) (left right : Expr) :
    (Expr.binary m op left right).partIds = left.ids ++ right.ids := by
  simp [partIds, ids, parts]

theorem id_mem_ids (e : Expr) : e.id ∈ e.ids := by
  simp [ids_eq e]

theorem mem_ids_of_mem_partIds {e : Expr} {i : UInt32} (h : i ∈ e.partIds) : i ∈ e.ids := by
  simp [ids_eq e, h]

theorem id_notMem_partIds {e : Expr} (h : e.ids.Nodup) : e.id ∉ e.partIds := by
  rw [ids_eq, List.nodup_append] at h
  exact fun hi => h.2.2 _ hi e.id (by simp) rfl

theorem nodup_partIds {e : Expr} (h : e.ids.Nodup) : e.partIds.Nodup := by
  rw [ids_eq] at h
  exact h.of_append_left

end Expr

def Stmt.allIds (body : List Stmt) : List UInt32 := (Stmt.nodesAll body).map Expr.id

/-- No two expressions of a program have the same number. -/
def Program.Distinct (p : Program) : Prop := (Stmt.allIds p.body).Nodup

instance (p : Program) : Decidable p.Distinct := inferInstanceAs (Decidable (List.Nodup _))

end Bytescript
