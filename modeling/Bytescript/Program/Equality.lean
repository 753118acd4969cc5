import Bytescript.Program.Basic

/-!
# Equality of programs

Two programs are equal when they agree in every node, with its number and its position.
-/
namespace Bytescript

mutual

def TypeRef.same : TypeRef → TypeRef → Bool
  | ⟨n, as, p⟩, ⟨m, bs, q⟩ => n == m && TypeRef.sameAll as bs && p == q

def TypeRef.sameAll : List TypeRef → List TypeRef → Bool
  | [], [] => true
  | a :: as, b :: bs => a.same b && TypeRef.sameAll as bs
  | _, _ => false

end

def sameOption {α : Type} (same : α → α → Bool) : Option α → Option α → Bool
  | none, none => true
  | some a, some b => same a b
  | _, _ => false

def sameList {α : Type} (same : α → α → Bool) : List α → List α → Bool
  | [], [] => true
  | a :: as, b :: bs => same a b && sameList same as bs
  | _, _ => false

def Expr.same : Expr → Expr → Bool
  | .literal m a, .literal n b => m == n && a == b
  | .variable m a, .variable n b => m == n && a == b
  | .field m t a, .field n u b => m == n && t.same u && a == b
  | .binary m o a b, .binary n p c d => m == n && o == p && a.same c && b.same d
  | .unary m o a, .unary n p b => m == n && o == p && a.same b
  | .cast m a t, .cast n b u => m == n && a.same b && t.same u
  | _, _ => false

mutual

def Stmt.same : Stmt → Stmt → Bool
  | .declare p a t v, .declare q b u w =>
    p == q && a == b && sameOption TypeRef.same t u && sameOption Expr.same v w
  | .assign p a v, .assign q b w => p == q && a == b && v.same w
  | .discard p v, .discard q w => p == q && v.same w
  | .block p a, .block q b => p == q && Stmt.sameAll a b
  | .branch p c a x, .branch q d b y =>
    p == q && c.same d && Stmt.sameAll a b &&
      (match x, y with
      | none, none => true
      | some x, some y => Stmt.sameAll x y
      | _, _ => false)
  | .loop p c a, .loop q d b => p == q && c.same d && Stmt.sameAll a b
  | .halt p a, .halt q b => p == q && a == b
  | .debug p, .debug q => p == q
  | _, _ => false

def Stmt.sameAll : List Stmt → List Stmt → Bool
  | [], [] => true
  | a :: as, b :: bs => a.same b && Stmt.sameAll as bs
  | _, _ => false

end

def FieldDecl.same (a b : FieldDecl) : Bool :=
  a.name == b.name && a.ty.same b.ty && a.position == b.position

def RecordDecl.same (a b : RecordDecl) : Bool :=
  a.name == b.name && a.shared == b.shared && sameList FieldDecl.same a.fields b.fields &&
    a.position == b.position

def Program.same (a b : Program) : Bool :=
  a.name == b.name && a.imports == b.imports && sameList RecordDecl.same a.records b.records &&
    Stmt.sameAll a.body b.body

end Bytescript
