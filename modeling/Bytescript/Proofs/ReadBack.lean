import Mathlib
import Bytescript.Compile

/-!
# Programs read back from their wire form

Every reader reads back what its writer has written, and leaves the bytes behind it. Readers of
nested values bound their depth by the number of bytes that are left; since every level takes at
least one byte, what was written is never nested deeper than that. The wire form cannot hold a
length of more than 64 bits, so the statements are about shorter byte strings.
-/
namespace Bytescript

namespace Wire

section

variable {α β : Type} {read : Reader α} {bs cs : Bytes} {a : α} {b : β}

/-- A reader reads some bytes as a value and leaves those that follow them. -/
def Reads (read : Reader α) (bs : Bytes) (a : α) : Prop :=
  ∀ rest, read.run (bs ++ rest) = .ok (a, rest)

theorem Reads.bind {next : α → Reader β} (h : Reads read bs a) (hn : Reads (next a) cs b) :
    Reads (read >>= next) (bs ++ cs) b := by
  intro rest
  rw [List.append_assoc, StateT.run_bind, h]
  exact hn rest

theorem Reads.last {next : α → Reader β} (h : Reads read bs a) (hn : next a = pure b) :
    Reads (read >>= next) bs b := by
  intro rest
  rw [StateT.run_bind, h]
  exact congrArg (fun next => StateT.run next rest) hn

theorem reads_byte (b : UInt8) : Reads byte [b] b := fun _ => rfl

end

theorem number_of_lt {n : Nat} (h : n < 128) : number n = [n.toUInt8] := by
  rw [number, if_pos h]

theorem number_of_ge {n : Nat} (h : 128 ≤ n) :
    number n = (n % 128 + 128).toUInt8 :: number (n / 128) := by
  rw [number, if_neg (by omega)]

theorem length_number_pos (n : Nat) : 0 < (number n).length := by
  rw [number]
  split <;> simp

theorem toNat_toUInt8 {n : Nat} (h : n < 256) : n.toUInt8.toNat = n := by
  simp [Nat.mod_eq_of_lt h]

theorem reads_group {top k n : Nat} (h : n < 128) (hk : k = 0 → n ≤ top) :
    Reads (groups top (k + 1)) (number n) n := by
  have hb := toNat_toUInt8 (show n < 256 by omega)
  intro rest
  rw [number_of_lt h, groups, StateT.run_bind, reads_byte]
  change StateT.run (if n.toUInt8.toNat < 128 then _ else _) rest = _
  rw [hb, if_pos h, if_neg (by omega)]
  rfl

/-- A number is read back if it needs no more groups than the limit, and the last of them, if all
are used, is not too large. -/
theorem reads_groups (top : Nat) (ht : top < 128) {k n : Nat} (h : n < (top + 1) * 128 ^ k) :
    Reads (groups top (k + 1)) (number n) n := by
  induction k generalizing n with
  | zero => exact reads_group (by omega) (by omega)
  | succ k ih =>
    by_cases hs : n < 128
    · exact reads_group hs nofun
    · have hb := toNat_toUInt8 (show n % 128 + 128 < 256 by omega)
      have hr : n / 128 < (top + 1) * 128 ^ k := by
        rw [Nat.div_lt_iff_lt_mul (by decide), Nat.mul_assoc, ← Nat.pow_succ]
        exact h
      rw [number_of_ge (by omega), ← List.singleton_append, groups]
      refine (reads_byte _).bind ?_
      rw [hb, if_neg (by omega)]
      exact (ih hr).last (congrArg pure (by omega))

theorem reads_long {n : Nat} (h : n < 2 ^ 64) : Reads readLong (number n) n :=
  reads_groups 1 (k := 9) (by decide) h

theorem reads_short {n : Nat} (h : n < 2 ^ 32) : Reads readShort (number n) n :=
  reads_groups 15 (k := 4) (by decide) h

theorem reads_signed (n : Int32) : Reads readSigned (signed n) n := by
  have lower := n.le_toInt
  have upper := n.toInt_lt
  set m := (if 0 ≤ n.toInt then 2 * n.toInt else -2 * n.toInt - 1).toNat with hm
  have value : (if m % 2 = 0 then ((m / 2 : Nat) : Int) else -((m / 2 : Nat) : Int) - 1) =
      n.toInt := by
    split_ifs at hm ⊢ <;> omega
  refine (reads_short (n := m) (by split_ifs at hm <;> omega)).last ?_
  rw [value, Int32.ofInt_toInt]

theorem reads_flag (b : Bool) : Reads readFlag (flag b) b := by
  cases b <;> exact fun _ => rfl

theorem reads_position (p : Position) : Reads readPosition (position p) p :=
  (reads_long p.line.toNat_lt).bind ((reads_long p.column.toNat_lt).last (by simp))

/-- The length of a byte string fits in 64 bits. -/
def Short (bs : Bytes) : Prop := bs.length < 2 ^ 64

section

variable {α : Type} {bs cs : Bytes} {write : α → Bytes} {as : List α} {a : α}

theorem Short.left (h : Short (bs ++ cs)) : Short bs := by
  simp only [Short, List.length_append] at h ⊢
  omega

theorem Short.right (h : Short (bs ++ cs)) : Short cs := by
  simp only [Short, List.length_append] at h ⊢
  omega

theorem length_le_flatMap (h : a ∈ as) : (write a).length ≤ (as.flatMap write).length := by
  rw [List.length_flatMap]
  exact List.le_sum_of_mem (List.mem_map_of_mem h)

theorem count_le_flatMap (h : ∀ a ∈ as, 0 < (write a).length) :
    as.length ≤ (as.flatMap write).length := by
  induction as with
  | nil => simp
  | cons a as ih =>
    have first := h a (by simp)
    have others := ih fun b hb => h b (by simp [hb])
    simp only [List.length_cons, List.flatMap_cons, List.length_append]
    omega

end

theorem reads_bytes (bs : Bytes) : Reads (bytes bs.length) bs bs := by
  intro rest
  change (if bs.length ≤ (bs ++ rest).length then _ else _) = _
  simp

theorem length_text_pos (s : String) : 0 < (text s).length := by
  have := length_number_pos s.toUTF8.data.toList.length
  simp only [text, List.length_append]
  omega

theorem reads_text {s : String} (h : Short (text s)) : Reads readText (text s) s := by
  have decoded : String.fromUTF8? ⟨s.toUTF8.data.toList.toArray⟩ = some s := by
    simp only [Array.toArray_toList, String.fromUTF8?]
    exact dif_pos s.isValidUTF8
  exact (reads_long h.right).bind ((reads_bytes _).last (by rw [decoded]))

section

variable {α : Type} {read : Reader α} {write : α → Bytes} {as : List α}

theorem reads_option {o : Option α} (h : ∀ a ∈ o, Reads read (write a) a) :
    Reads (readOption read) (option write o) o := by
  cases o with
  | none => exact fun _ => rfl
  | some a => exact (reads_byte 1).bind ((h a rfl).last rfl)

theorem reads_times (h : ∀ a ∈ as, Reads read (write a) a) :
    Reads (times read as.length) (as.flatMap write) as := by
  induction as with
  | nil => exact fun _ => rfl
  | cons a as ih =>
    exact (h a (by simp)).bind ((ih fun b hb => h b (by simp [hb])).last rfl)

theorem reads_many (short : Short (many write as)) (pos : ∀ a, 0 < (write a).length)
    (h : ∀ a ∈ as, Reads read (write a) a) : Reads (readMany read) (many write as) as := by
  have count : as.length < 2 ^ 64 :=
    Nat.lt_of_le_of_lt (count_le_flatMap fun a _ => pos a) short.right
  exact (reads_long count).bind (reads_times h)

theorem reads_choice [BEq α] [LawfulBEq α] {choices : List α} {a : α} (h : a ∈ choices)
    (few : choices.length < 2 ^ 32) :
    Reads (readChoice choices) (number (choices.idxOf a)) a := by
  have index : choices.idxOf a < choices.length := List.idxOf_lt_length_iff.mpr h
  exact (reads_short (by omega)).last (by rw [List.getElem?_idxOf h])

/-- Nested values are read back if each level that the bytes allow for reads them. -/
theorem reads_nested {read : Nat → Reader α} {bs : Bytes} {a : α}
    (h : ∀ depth, bs.length ≤ depth → Reads (read depth) bs a) : Reads (nested read) bs a := by
  intro rest
  exact h (bs ++ rest).length (by simp) rest

end

theorem typeRefs_eq (ts : List TypeRef) : typeRefs ts = ts.flatMap typeRef := by
  induction ts with
  | nil => rfl
  | cons t ts ih => rw [typeRefs, ih, List.flatMap_cons]

theorem typeRef_eq (t : TypeRef) :
    typeRef t = text t.name ++ (many typeRef t.args ++ position t.position) := by
  obtain ⟨name, args, p⟩ := t
  rw [typeRef, typeRefs_eq, List.append_assoc]
  rfl

theorem length_typeRef_pos (t : TypeRef) : 0 < (typeRef t).length := by
  have := length_text_pos t.name
  rw [typeRef_eq, List.length_append]
  omega

/-- The arguments of a type are shorter than the type, so one level less is enough for them. -/
theorem reads_typeRefWithin (depth : Nat) {t : TypeRef} (short : Short (typeRef t))
    (deep : (typeRef t).length ≤ depth) : Reads (typeRefWithin depth) (typeRef t) t := by
  induction depth generalizing t with
  | zero =>
    have := length_typeRef_pos t
    omega
  | succ depth ih =>
    have name := length_text_pos t.name
    rw [typeRef_eq] at short deep ⊢
    simp only [many, List.length_append] at deep
    have args : ∀ a ∈ t.args, Reads (typeRefWithin depth) (typeRef a) a := by
      intro a ha
      have inside : (typeRef a).length ≤ (t.args.flatMap typeRef).length := length_le_flatMap ha
      exact ih (Nat.lt_of_le_of_lt inside short.right.left.right) (by omega)
    exact (reads_text short.left).bind ((reads_many short.right.left length_typeRef_pos args).bind
      ((reads_position t.position).last (by cases t; rfl)))

theorem reads_typeRef {t : TypeRef} (short : Short (typeRef t)) :
    Reads readTypeRef (typeRef t) t :=
  reads_nested fun depth deep => reads_typeRefWithin depth short deep

theorem reads_literal {l : Literal} (short : Short (literal l)) :
    Reads readLiteral (literal l) l := by
  cases l with
  | integer digits negative =>
    rw [literal, List.append_assoc] at short ⊢
    exact (reads_short (by decide)).bind
      ((reads_text short.right.left).bind ((reads_flag negative).last rfl))
  | float value negative =>
    rw [literal, List.append_assoc] at short ⊢
    exact (reads_short (by decide)).bind
      ((reads_text short.right.left).bind ((reads_flag negative).last rfl))
  | bool value => exact (reads_short (by decide)).bind ((reads_flag value).last rfl)
  | char value => exact (reads_short (by decide)).bind ((reads_text short.right).last rfl)
  | text value => exact (reads_short (by decide)).bind ((reads_text short.right).last rfl)

theorem reads_binaryOp (op : BinaryOp) : Reads (readChoice BinaryOp.all) (binaryOp op) op :=
  reads_choice (by cases op <;> decide) (by decide)

theorem reads_unaryOp (op : UnaryOp) : Reads (readChoice UnaryOp.all) (unaryOp op) op :=
  reads_choice (by cases op <;> decide) (by decide)

def exprBody : Expr → Bytes
  | .literal _ value => number 0 ++ literal value
  | .variable _ name => number 1 ++ text name
  | .field _ target name => number 2 ++ (expr target ++ text name)
  | .binary _ op left right => number 3 ++ (binaryOp op ++ (expr left ++ expr right))
  | .unary _ op operand => number 4 ++ (unaryOp op ++ expr operand)
  | .cast _ operand ty => number 5 ++ (expr operand ++ typeRef ty)

theorem expr_eq (e : Expr) :
    expr e = number e.id.toNat ++ (exprBody e ++ position e.position) := by
  cases e <;> simp [expr, exprBody, Expr.id, Expr.position, Expr.mark]

theorem length_expr_pos (e : Expr) : 0 < (expr e).length := by
  have := length_number_pos e.id.toNat
  rw [expr_eq, List.length_append]
  omega

theorem reads_exprWithin (depth : Nat) {e : Expr} (short : Short (expr e))
    (deep : (expr e).length ≤ depth) : Reads (exprWithin depth) (expr e) e := by
  induction depth generalizing e with
  | zero =>
    have := length_expr_pos e
    omega
  | succ depth ih =>
    have count := length_number_pos e.id.toNat
    rw [expr_eq] at short deep ⊢
    have shortBody := short.right.left
    have deepBody : (exprBody e).length ≤ depth := by
      simp only [List.length_append] at deep
      omega
    -- It is enough to read the parts, which wait for the number and the place.
    have whole : ∀ (make : Mark → Expr), Reads (exprParts (exprWithin depth)) (exprBody e) make →
        make e.mark = e → Reads (exprWithin (depth + 1))
          (number e.id.toNat ++ (exprBody e ++ position e.position)) e := by
      intro make parts made
      refine (reads_short e.id.toNat_lt).bind (parts.bind ((reads_position e.position).last ?_))
      simp only [Nat.toUInt32_eq, UInt32.ofNat_toNat]
      exact congrArg pure made
    cases e with
    | literal m value =>
      refine whole (fun m => .literal m value) ?_ rfl
      exact (reads_short (by decide)).bind ((reads_literal shortBody.right).last rfl)
    | «variable» m name =>
      refine whole (fun m => .variable m name) ?_ rfl
      exact (reads_short (by decide)).bind ((reads_text shortBody.right).last rfl)
    | field m target name =>
      simp only [exprBody, List.length_append] at deepBody
      refine whole (fun m => .field m target name) ?_ rfl
      exact (reads_short (by decide)).bind ((ih shortBody.right.left (by omega)).bind
        ((reads_text shortBody.right.right).last rfl))
    | binary m op left right =>
      simp only [exprBody, List.length_append] at deepBody
      refine whole (fun m => .binary m op left right) ?_ rfl
      exact (reads_short (by decide)).bind ((reads_binaryOp op).bind
        ((ih shortBody.right.right.left (by omega)).bind
          ((ih shortBody.right.right.right (by omega)).last rfl)))
    | unary m op operand =>
      simp only [exprBody, List.length_append] at deepBody
      refine whole (fun m => .unary m op operand) ?_ rfl
      exact (reads_short (by decide)).bind ((reads_unaryOp op).bind
        ((ih shortBody.right.right (by omega)).last rfl))
    | cast m operand ty =>
      simp only [exprBody, List.length_append] at deepBody
      refine whole (fun m => .cast m operand ty) ?_ rfl
      exact (reads_short (by decide)).bind ((ih shortBody.right.left (by omega)).bind
        ((reads_typeRef shortBody.right.right).last rfl))

theorem reads_expr {e : Expr} (short : Short (expr e)) : Reads readExpr (expr e) e :=
  reads_nested fun depth deep => reads_exprWithin depth short deep

theorem reads_place {p : Place} (short : Short (place p)) : Reads readPlace (place p) p := by
  have path : ∀ name ∈ p.path, Reads readText (text name) name := fun name hn =>
    reads_text (Nat.lt_of_le_of_lt (length_le_flatMap hn) short.right.right)
  exact (reads_text short.left).bind ((reads_many short.right length_text_pos path).last rfl)

def stmtBody : Stmt → Bytes
  | .declare _ name ty value =>
    number 0 ++ (text name ++ (option typeRef ty ++ option expr value))
  | .assign _ target value => number 1 ++ (place target ++ expr value)
  | .discard _ value => number 2 ++ expr value
  | .block _ body => number 3 ++ many stmt body
  | .branch _ condition body otherwise =>
    number 4 ++ (expr condition ++ (many stmt body ++ option (many stmt) otherwise))
  | .loop _ condition body => number 5 ++ (expr condition ++ many stmt body)
  | .halt _ code => number 6 ++ signed code
  | .debug _ => number 7

theorem stmts_eq (body : List Stmt) : stmts body = body.flatMap stmt := by
  induction body with
  | nil => rfl
  | cons s body ih => rw [stmts, ih, List.flatMap_cons]

theorem stmt_eq (s : Stmt) : stmt s = stmtBody s ++ position s.position := by
  cases s with
  | branch p condition body otherwise =>
    cases otherwise <;> simp [stmt, stmtBody, stmts_eq, many, option, Stmt.position]
  | _ => simp [stmt, stmtBody, stmts_eq, many, Stmt.position]

theorem length_position_pos (p : Position) : 0 < (position p).length := by
  have := length_number_pos p.line.toNat
  simp only [position, List.length_append]
  omega

theorem length_stmt_pos (s : Stmt) : 0 < (stmt s).length := by
  have := length_position_pos s.position
  rw [stmt_eq, List.length_append]
  omega

theorem Short.option {α : Type} {write : α → Bytes} {o : Option α} (h : Short (option write o)) :
    ∀ a ∈ o, Short (write a) := by
  rintro a ⟨⟩
  exact Nat.lt_of_succ_lt h

theorem reads_stmtWithin (depth : Nat) {s : Stmt} (short : Short (stmt s))
    (deep : (stmt s).length ≤ depth) : Reads (stmtWithin depth) (stmt s) s := by
  induction depth generalizing s with
  | zero =>
    have := length_stmt_pos s
    omega
  | succ depth ih =>
    have line := length_position_pos s.position
    rw [stmt_eq] at short deep ⊢
    have shortBody := short.left
    have deepBody : (stmtBody s).length ≤ depth := by
      simp only [List.length_append] at deep
      omega
    have whole : ∀ (make : Position → Stmt),
        Reads (stmtParts (stmtWithin depth)) (stmtBody s) make → make s.position = s →
          Reads (stmtWithin (depth + 1)) (stmtBody s ++ position s.position) s :=
      fun _ parts made => parts.bind ((reads_position s.position).last (congrArg pure made))
    have inner : ∀ {body : List Stmt}, Short (many stmt body) →
        (many stmt body).length ≤ depth →
          Reads (readMany (stmtWithin depth)) (many stmt body) body := by
      intro body short deep
      refine reads_many short length_stmt_pos fun s hs => ?_
      have inside : (stmt s).length ≤ (body.flatMap stmt).length := length_le_flatMap hs
      simp only [many, List.length_append] at deep
      exact ih (Nat.lt_of_le_of_lt inside short.right) (by omega)
    cases s with
    | declare p name ty value =>
      refine whole (fun p => .declare p name ty value) ?_ rfl
      exact (reads_short (by decide)).bind ((reads_text shortBody.right.left).bind
        ((reads_option fun t ht => reads_typeRef (shortBody.right.right.left.option t ht)).bind
          ((reads_option fun e he => reads_expr (shortBody.right.right.right.option e he)).last
            rfl)))
    | assign p target value =>
      refine whole (fun p => .assign p target value) ?_ rfl
      exact (reads_short (by decide)).bind ((reads_place shortBody.right.left).bind
        ((reads_expr shortBody.right.right).last rfl))
    | discard p value =>
      refine whole (fun p => .discard p value) ?_ rfl
      exact (reads_short (by decide)).bind ((reads_expr shortBody.right).last rfl)
    | block p body =>
      simp only [stmtBody, List.length_append] at deepBody
      refine whole (fun p => .block p body) ?_ rfl
      exact (reads_short (by decide)).bind ((inner shortBody.right (by omega)).last rfl)
    | branch p condition body otherwise =>
      simp only [stmtBody, List.length_append] at deepBody
      refine whole (fun p => .branch p condition body otherwise) ?_ rfl
      refine (reads_short (by decide)).bind ((reads_expr shortBody.right.left).bind
        ((inner shortBody.right.right.left (by omega)).bind
          ((reads_option fun body hb => inner ?_ ?_).last rfl)))
      · exact shortBody.right.right.right.option body hb
      · cases hb
        simp only [option, List.length_cons] at deepBody
        omega
    | loop p condition body =>
      simp only [stmtBody, List.length_append] at deepBody
      refine whole (fun p => .loop p condition body) ?_ rfl
      exact (reads_short (by decide)).bind ((reads_expr shortBody.right.left).bind
        ((inner shortBody.right.right (by omega)).last rfl))
    | halt p code =>
      refine whole (fun p => .halt p code) ?_ rfl
      exact (reads_short (by decide)).bind ((reads_signed code).last rfl)
    | debug p =>
      refine whole (fun p => .debug p) ?_ rfl
      exact (reads_short (by decide)).last rfl

theorem reads_stmt {s : Stmt} (short : Short (stmt s)) : Reads readStmt (stmt s) s :=
  reads_nested fun depth deep => reads_stmtWithin depth short deep

theorem reads_importItem {o : Option String} (short : Short (importItem o)) :
    Reads readImportItem (importItem o) o := by
  cases o with
  | none => exact (reads_short (by decide)).last rfl
  | some name => exact (reads_short (by decide)).bind ((reads_text short.right).last rfl)

theorem reads_importDecl {i : Import} (short : Short (importDecl i)) :
    Reads readImport (importDecl i) i := by
  rw [importDecl, List.append_assoc] at short ⊢
  exact (reads_text short.left).bind ((reads_importItem short.right.left).bind
    ((reads_position i.position).last rfl))

theorem reads_fieldDecl {f : FieldDecl} (short : Short (fieldDecl f)) :
    Reads readFieldDecl (fieldDecl f) f := by
  rw [fieldDecl, List.append_assoc] at short ⊢
  exact (reads_text short.left).bind ((reads_typeRef short.right.left).bind
    ((reads_position f.position).last rfl))

/-- A list is read back if each element that can be written is. -/
theorem reads_elements {α : Type} {read : Reader α} {write : α → Bytes} {as : List α}
    (short : Short (many write as)) (pos : ∀ a, 0 < (write a).length)
    (h : ∀ {a}, Short (write a) → Reads read (write a) a) :
    Reads (readMany read) (many write as) as :=
  reads_many short pos fun _ ha => h (Nat.lt_of_le_of_lt (length_le_flatMap ha) short.right)

theorem length_append_pos {bs cs : Bytes} (h : 0 < bs.length) : 0 < (bs ++ cs).length := by
  rw [List.length_append]
  omega

theorem reads_recordDecl {r : RecordDecl} (short : Short (recordDecl r)) :
    Reads readRecordDecl (recordDecl r) r := by
  rw [recordDecl, List.append_assoc, List.append_assoc] at short ⊢
  have fields : Reads (readMany readFieldDecl) (many fieldDecl r.fields) r.fields := by
    refine reads_elements short.right.right.left (fun f => ?_) reads_fieldDecl
    rw [fieldDecl, List.append_assoc]
    exact length_append_pos (length_text_pos f.name)
  exact (reads_text short.left).bind ((reads_flag r.shared).bind
    (fields.bind ((reads_position r.position).last rfl)))

theorem reads_program {p : Program} (short : Short (program p)) :
    Reads readProgram (program p) p := by
  rw [program, List.append_assoc, List.append_assoc] at short ⊢
  have name : Reads (readOption readText) (option text p.name) p.name :=
    reads_option fun name hn => reads_text (short.left.option name hn)
  have imports : Reads (readMany readImport) (many importDecl p.imports) p.imports := by
    refine reads_elements short.right.left (fun i => ?_) reads_importDecl
    rw [importDecl, List.append_assoc]
    exact length_append_pos (length_text_pos i.source)
  have records : Reads (readMany readRecordDecl) (many recordDecl p.records) p.records := by
    refine reads_elements short.right.right.left (fun r => ?_) reads_recordDecl
    rw [recordDecl, List.append_assoc, List.append_assoc]
    exact length_append_pos (length_text_pos r.name)
  exact name.bind (imports.bind (records.bind
    ((reads_elements short.right.right.right length_stmt_pos reads_stmt).last rfl)))

end Wire

namespace Program

theorem ofBytes_toBytes_append {p : Program} (short : p.toBytes.length < 2 ^ 64) (rest : Bytes) :
    ofBytes (p.toBytes ++ rest) = .ok p := by
  rw [ofBytes, toBytes, Wire.reads_program short rest]
  rfl

/-- A program is read back from its bytes, whatever follows them, so compiling the bytes is
compiling the program. Bytes that hold no program give no script and the one issue that says so. The
bound is the length that a buffer can have; a text of more than `2 ^ 64` bytes has no length that
can be written. -/
theorem compileBytes_toBytes_append (options : CompileOptions) (catalog : Catalog) (time : Int64) :
    (∀ (p : Program) (rest : Bytes), p.toBytes.length < 2 ^ 64 →
      ofBytes (p.toBytes ++ rest) = .ok p ∧
      compileBytes options catalog time (p.toBytes ++ rest) = p.compile options catalog time) ∧
    ∀ bs : Bytes, (∀ p, ofBytes bs ≠ .ok p) →
      ∃ issue, compileBytes options catalog time bs = ⟨none, [issue], none⟩ ∧
        issue.kind = .parseFailure := by
  constructor
  · intro p rest short
    have read := ofBytes_toBytes_append short rest
    exact ⟨read, by rw [compileBytes, read]⟩
  · intro bs unread
    cases h : ofBytes bs with
    | ok p => exact absurd h (unread p)
    | error e => exact ⟨_, by rw [compileBytes, h], rfl⟩

def nestedParts : Program :=
  ⟨some "m", [⟨"core", none, ⟨1, 1⟩⟩],
    [⟨"Shelf", true, [⟨"books", .mk "List" [.mk "i8" [] ⟨2, 3⟩] ⟨2, 1⟩, ⟨2, 1⟩⟩], ⟨2, 1⟩⟩],
    [.declare ⟨3, 1⟩ "x" none (some (.cast ⟨0, ⟨3, 5⟩⟩
        (.literal ⟨1, ⟨3, 5⟩⟩ (.integer "0x80" true)) (.mk "i8" [] ⟨3, 12⟩))),
      .loop ⟨4, 1⟩ (.literal ⟨2, ⟨4, 7⟩⟩ (.bool true))
        [.branch ⟨5, 1⟩ (.variable ⟨3, ⟨5, 4⟩⟩ "x") [.debug ⟨6, 1⟩] (some [.halt ⟨7, 1⟩ (-64)])]]⟩

theorem compileBytes_nestedParts :
    nestedParts.toBytes.length < 2 ^ 64 ∧
    compileBytes .default .standard 0 (nestedParts.toBytes ++ [255]) =
      nestedParts.compile .default .standard 0 ∧
    ∃ issue, compileBytes .default .standard 0 [2] = ⟨none, [issue], none⟩ ∧
      issue.kind = .parseFailure := by
  have short : nestedParts.toBytes.length < 2 ^ 64 := by decide +kernel
  obtain ⟨written, others⟩ := compileBytes_toBytes_append .default .standard 0
  exact ⟨short, (written nestedParts [255] short).2, others [2] nofun⟩

end Program

end Bytescript
