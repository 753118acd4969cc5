import Mathlib
import Bytescript.Proofs.LiteralPrograms

/-!
# Arithmetic and comparison of integer literals

Programs that add, subtract, multiply or compare two integer literals, or give a variable of a
written type the value of one. Arithmetic is that of the integers modulo the width of the result. A
comparison is that of the integers, and a variable holds the value of its literal, unless the bits
of a literal are read as a negative number.
-/
namespace Bytescript

open Evaluation Machine Typing

structure Spelling where
  mark : Mark
  text : String
  negative : Bool

namespace Spelling

def expr (x : Spelling) : Expr := .literal x.mark (.integer x.text x.negative)

def meaning (x : Spelling) : Int := Numeral.meaning x.text x.negative

theorem ofIntegers (x : Spelling) : x.expr.OfIntegers 1 := .literal ..

end Spelling

section

variable {env : Environment} {notes : Notes} {scopes : Scopes} {mark : Mark} {op : BinaryOp}
  {x y : Spelling} {t : Ty}

theorem Typing.Noted.numeral {note : Note} (h : Noted env scopes notes x.expr note) :
    ∃ n : Numeral, n.value = x.meaning ∧ n.Valid ∧ note = numeralNote env.core n none := by
  cases h with
  | literal rule => exact literalNote_integer rule

/-- Two literals with an operator between them are converted to the type of one of them, and the
operator works on the bits of their values there. -/
theorem Typing.Initial.operands (sound : env.Sound)
    (h : Initial env notes scopes none (some (.binary mark op x.expr y.expr)) t) :
    ∃ (m n : Numeral) (q : Primitive), m.value = x.meaning ∧ m.Valid ∧
      n.value = y.meaning ∧ n.Valid ∧ (q = m.type.primary ∨ q = n.type.primary) ∧
      m.type.primary.Widens q ∧ n.type.primary.Widens q ∧
      notes.find? mark.id = some (.ofType (binaryType env.core op (env.core.primitive q))) ∧
      ∀ known store, known.notes = notes →
        Evaluation.expression known store (.binary mark op x.expr y.expr) =
          Evaluation.binary op q (Bytes.ofInt q.size x.meaning) (Bytes.ofInt q.size y.meaning) := by
  obtain ⟨note, ⟨noted, filed⟩, rfl⟩ := h
  cases noted with
  | @binary _ _ _ _ _ _ u onLeft filedLeft onRight filedRight rule =>
  obtain ⟨m, hm, validLeft, rfl⟩ := onLeft.numeral
  obtain ⟨n, hn, validRight, rfl⟩ := onRight.numeral
  obtain ⟨-, -, -, -, -, -, -, unified⟩ := binaryOperands_ok rule
  have same : ∀ p, (env.core.primitive p).same (env.core.primitive p) := by
    intro p
    simp [sound.same_primitive]
  obtain ⟨result, ⟨hl, implicitLeft⟩, hr, implicitRight⟩ :=
    Operand.unify_implicit (same _) (same _) unified
  obtain ⟨q, hq, hresult⟩ : ∃ q, (q = m.type.primary ∨ q = n.type.primary) ∧
      u.result = env.core.primitive q := by
    rcases result with h | h
    · exact ⟨_, Or.inl rfl, h⟩
    · exact ⟨_, Or.inr rfl, h⟩
  have integer : q.isInteger := by
    rcases hq with rfl | rfl <;> exact isInteger_primary _
  rw [hresult] at hl hr filedLeft filedRight filed
  rw [hl] at implicitLeft filedLeft
  rw [hr] at implicitRight filedRight
  have widensLeft := m.conversionTo_implicit sound validLeft integer implicitLeft
  have widensRight := n.conversionTo_implicit sound validRight integer implicitRight
  refine ⟨m, n, q, hm, validLeft, hn, validRight, hq, widensLeft.1, widensRight.1, filed,
    fun known store hk => ?_⟩
  subst hk
  have takenLeft : known.notes.find? x.mark.id = some (numeralNote env.core m
    (asked (env.core.primitive q)
      ((m.operand env.core).conversionTo (env.core.primitive q)))) := filedLeft
  have left : Evaluation.expression known store x.expr = .ok (Bytes.ofInt q.size m.value) :=
    expression_integer sound validLeft integer implicitLeft takenLeft store _
  have right : Evaluation.expression known store y.expr = .ok (Bytes.ofInt q.size n.value) :=
    expression_integer sound validRight integer implicitRight filedRight store _
  have final := finalType_numeral sound validLeft integer implicitLeft
  have here : known.notes.find? mark.id =
    some (.ofType (binaryType env.core op (env.core.primitive q))) := filed
  have leftId : x.expr.id = x.mark.id := rfl
  rw [Evaluation.expression]
  simp only [here, leftId, takenLeft, left, right, final, hm, hn, require_some, ok_bind]
  cases Evaluation.binary op q (Bytes.ofInt q.size x.meaning) (Bytes.ofInt q.size y.meaning) <;> rfl

end

theorem Primitive.isFloat_of_isInteger {p : Primitive} (h : p.isInteger) : p.isFloat = false := by
  cases p <;> first | rfl | cases h

def ring? : BinaryOp → Option (Int → Int → Int)
  | .add => some (· + ·)
  | .sub => some (· - ·)
  | .mul => some (· * ·)
  | _ => none

def comparison? : BinaryOp → Option (Int → Int → Bool)
  | .eq => some fun a b => a = b
  | .ne => some fun a b => a ≠ b
  | .lt => some fun a b => a < b
  | .le => some fun a b => a ≤ b
  | .gt => some fun a b => b < a
  | .ge => some fun a b => b ≤ a
  | _ => none

section

variable {op : BinaryOp} {q : Primitive}

theorem binary_ring {f : Int → Int → Int} (integer : q.isInteger) (h : ring? op = some f)
    (a b : Int) :
    Evaluation.binary op q (Bytes.ofInt q.size a) (Bytes.ofInt q.size b) =
      .ok (Bytes.ofInt q.size (f a b)) := by
  have words := Primitive.isFloat_of_isInteger integer
  cases op <;> cases h <;>
    simp only [Evaluation.binary, numeric, words, Bool.false_eq_true, if_false,
      Primitive.word_ofInt]
  · rw [← Bytes.ofWord_ofInt, BitVec.ofInt_add]
  · rw [← Bytes.ofWord_ofInt, Int.sub_eq_add_neg, BitVec.ofInt_add, BitVec.ofInt_neg,
      ← BitVec.sub_eq_add_neg]
  · rw [← Bytes.ofWord_ofInt, BitVec.ofInt_mul]

/-- A comparison is that of the integers that the operands are read as. -/
theorem binary_comparison {holds : Int → Int → Bool} (integer : q.isInteger)
    (h : comparison? op = some holds) (x y : Bytes) :
    Evaluation.binary op q x y =
      .ok [if holds (number q x) (number q y) then 1 else 0] := by
  have words := Primitive.isFloat_of_isInteger integer
  have ordered : order q x y = some (compare (number q x) (number q y)) := by
    simp only [order, words, Bool.false_eq_true, if_false]
  generalize number q x = a at ordered ⊢
  generalize number q y = b at ordered ⊢
  rcases lt_trichotomy a b with hlt | rfl | hgt
  · rw [compare_lt_iff_lt.mpr hlt] at ordered
    cases op <;> cases h <;>
      simp [Evaluation.binary, ordered, truth, hlt, hlt.ne, hlt.le, hlt.not_ge, hlt.not_gt]
  · rw [compare_eq_iff_eq.mpr rfl] at ordered
    cases op <;> cases h <;> simp [Evaluation.binary, ordered, truth]
  · rw [compare_gt_iff_gt.mpr hgt] at ordered
    cases op <;> cases h <;>
      simp [Evaluation.binary, ordered, truth, hgt, hgt.ne', hgt.le, hgt.not_ge, hgt.not_gt]

/-- The integer that a literal is compared as beside another. Beside a negative literal, the bits of
a literal that is not negative are read as a negative number if the highest of them is one. -/
def comparedAs (v other : Int) : Int :=
  if other < 0 ∧ 2 ^ (8 * Numeral.signedWidth other - 1) ≤ v then
    v - 2 ^ (8 * Numeral.signedWidth other)
  else v

theorem number_comparedAs {m n : Numeral} (validLeft : m.Valid) (validRight : n.Valid)
    (hq : q = m.type.primary ∨ q = n.type.primary) (widensLeft : m.type.primary.Widens q)
    (widensRight : n.type.primary.Widens q) :
    number q (Bytes.ofInt q.size m.value) = comparedAs m.value n.value := by
  -- A literal that is not negative is at a signed type only if that is the type of the other.
  have beside : q.isSigned → 0 ≤ m.value →
      n.value < 0 ∧ q.size = Numeral.signedWidth n.value := by
    intro signed nonnegative
    have hm : m.negative = false := by
      rw [← Bool.not_eq_true, ← validLeft.value_neg_iff]
      omega
    have hq' : q = n.type.primary := by
      rcases hq with rfl | h
      · cases hm.symm.trans (validLeft.isSigned_primary.symm.trans signed)
      · exact h
    have hn : n.negative = true := by
      rw [← validRight.isSigned_primary, ← hq', signed]
    exact ⟨validRight.value_neg_iff.mpr hn, hq' ▸ (Numeral.type_of_negative validRight hn).2.2.1⟩
  rcases Primitive.number_widened validLeft.holds widensLeft with
    ⟨inside, value⟩ | ⟨signed, lower, -, value⟩
  · rw [value, comparedAs, if_neg]
    rintro ⟨negative, large⟩
    have low : (0 : Int) < 2 ^ (8 * Numeral.signedWidth n.value - 1) := by positivity
    have signed : q.isSigned := by
      refine widensRight.signed ?_
      rw [validRight.isSigned_primary, ← validRight.value_neg_iff]
      exact negative
    rw [← (beside signed (by linarith)).2] at large
    exact absurd ((Primitive.holds_signed signed _).mp inside).2 (not_lt.mpr large)
  · have low : (0 : Int) < 2 ^ (q.bits - 1) := by positivity
    obtain ⟨negative, width⟩ := beside signed (by linarith)
    rw [value, comparedAs, ← width, if_pos ⟨negative, lower⟩]
    rfl

end

namespace Program

def operating (position : Position) (name : String) (mark : Mark) (op : BinaryOp)
    (x y : Spelling) : Program :=
  declaring position name none (.binary mark op x.expr y.expr)

/-- Arithmetic on literals is that of the integers, modulo the width of the type that the operation
has. -/
theorem literal_arithmetic_exact (options : CompileOptions) (time : Int64) (position : Position)
    (name : String) (mark : Mark) (op : BinaryOp) (f : Int → Int → Int) (x y : Spelling)
    (script : Script) (ring : ring? op = some f)
    (distinct : (operating position name mark op x y).Distinct)
    (compiled : ((operating position name mark op x y).compile options .standard time).script =
      some script) :
    ∃ env note,
      (Environment.ofProgram .standard options.automatic
        (operating position name mark op x y)).1 = some env ∧
      (Typing.ofProgram env (operating position name mark op x y)).notes.find? mark.id =
        some note ∧
      ∀ capacity, 32 ≤ capacity →
        ∃ n, (runFor capacity script.view n Machine.start).outcome? =
          some (.finished (Bytes.ofNat note.ty.size
            (f x.meaning y.meaning % 2 ^ (8 * note.ty.size)).toNat)) := by
  obtain ⟨env, texts, t, henv, sound, initial, finishes⟩ := declaring_finishes
    (.binary mark op x.ofIntegers y.ofIntegers) (by decide) distinct compiled
  obtain ⟨m, n, q, -, -, -, -, -, widens, -, filed, evaluated⟩ := initial.operands sound
  have size : (binaryType env.core op (env.core.primitive q)).size = q.size := by
    rw [size_binaryType sound.size_bool (sound.size_primitive q)]
    cases op <;> first | rfl | cases ring
  refine ⟨env, _, henv, filed, fun capacity room => ?_⟩
  refine finishes capacity _ room ?_
  rw [evaluated _ _ rfl, binary_ring widens.target ring]
  simp only [Note.ofType, size, Bytes.ofInt, Nat.one_shiftLeft]
  norm_cast

def wideProduct : Program :=
  operating ⟨1, 1⟩ "x" ⟨0, ⟨1, 2⟩⟩ .mul ⟨⟨1, ⟨1, 3⟩⟩, "200", false⟩ ⟨⟨2, ⟨1, 4⟩⟩, "0x64", true⟩

theorem wideProduct_exact :
    ∃ script n, (wideProduct.compile .default .standard 0).script = some script ∧
      (runFor defaultCapacity script.view n Machine.start).outcome? =
        some (.finished (Bytes.ofNat 1 (-20000 % 2 ^ 8 : Int).toNat)) := by
  have size : ∀ env ∈ (Environment.ofProgram .standard true wideProduct).1,
      ∀ note ∈ (Typing.ofProgram env wideProduct).notes.find? 0, note.ty.size = 1 := by
    decide +kernel
  obtain ⟨script, compiled⟩ := Option.isSome_iff_exists.mp
    (show (wideProduct.compile .default .standard 0).script.isSome by decide +kernel)
  obtain ⟨env, note, henv, filed, finishes⟩ := literal_arithmetic_exact .default 0 _ _ _ _ (· * ·)
    _ _ script rfl (by decide +kernel) compiled
  obtain ⟨n, hn⟩ := finishes defaultCapacity (by decide)
  rw [size env henv note filed] at hn
  exact ⟨script, n, compiled, hn⟩

/-- A comparison of literals leaves one byte, which is one exactly if the relation holds between the
integers that the two are compared as. -/
theorem literal_comparison_byte (options : CompileOptions) (time : Int64) (position : Position)
    (name : String) (mark : Mark) (op : BinaryOp) (holds : Int → Int → Bool) (x y : Spelling)
    (script : Script) (comparison : comparison? op = some holds)
    (distinct : (operating position name mark op x y).Distinct)
    (compiled : ((operating position name mark op x y).compile options .standard time).script =
      some script) (capacity : Nat) (room : 32 ≤ capacity) :
    ∃ n, (runFor capacity script.view n Machine.start).outcome? =
      some (.finished [if holds (comparedAs x.meaning y.meaning) (comparedAs y.meaning x.meaning)
        then 1 else 0]) := by
  obtain ⟨env, texts, t, henv, sound, initial, finishes⟩ := declaring_finishes
    (.binary mark op x.ofIntegers y.ofIntegers) (by decide) distinct compiled
  obtain ⟨m, n, q, hm, validLeft, hn, validRight, hq, widensLeft, widensRight, -, evaluated⟩ :=
    initial.operands sound
  refine finishes capacity _ room ?_
  rw [evaluated _ _ rfl, binary_comparison widensLeft.target comparison, ← hm, ← hn,
    number_comparedAs validLeft validRight hq widensLeft widensRight,
    number_comparedAs validRight validLeft hq.symm widensRight widensLeft]

def farApart : Program :=
  operating ⟨1, 1⟩ "r" ⟨0, ⟨1, 2⟩⟩ .lt ⟨⟨1, ⟨1, 3⟩⟩, "40_000", false⟩ ⟨⟨2, ⟨1, 4⟩⟩, "200", true⟩

theorem farApart_byte :
    ∃ script n, (farApart.compile .default .standard 0).script = some script ∧
      comparedAs 40000 (-200) = -25536 ∧ comparedAs (-200) 40000 = -200 ∧
      (runFor defaultCapacity script.view n Machine.start).outcome? = some (.finished [1]) := by
  obtain ⟨script, compiled⟩ := Option.isSome_iff_exists.mp
    (show (farApart.compile .default .standard 0).script.isSome by decide +kernel)
  obtain ⟨n, hn⟩ := literal_comparison_byte .default 0 _ _ _ _ (fun a b => a < b) _ _ script rfl
    (by decide +kernel) compiled defaultCapacity (by decide)
  exact ⟨script, n, compiled, by decide +kernel, by decide +kernel, hn⟩

def aboveMinusOne : Program :=
  operating ⟨1, 1⟩ "r" ⟨0, ⟨1, 1⟩⟩ .lt ⟨⟨1, ⟨1, 1⟩⟩, "200", false⟩ ⟨⟨2, ⟨1, 1⟩⟩, "1", true⟩

/-- Literals are not always compared by value: `200` compares as less than `-1`. -/
theorem aboveMinusOne_compared_below :
    ∃ script n, (aboveMinusOne.compile .default .standard 0).script = some script ∧
      (runFor defaultCapacity script.view n Machine.start).outcome? = some (.finished [1]) ∧
      ¬ Numeral.meaning "200" false < Numeral.meaning "1" true := by
  have runs : ∀ script ∈ (aboveMinusOne.compile .default .standard 0).script,
      (runFor defaultCapacity script.view 10 Machine.start).outcome? = some (.finished [1]) := by
    decide +kernel
  obtain ⟨script, compiled⟩ := Option.isSome_iff_exists.mp
    (show (aboveMinusOne.compile .default .standard 0).script.isSome by decide +kernel)
  exact ⟨script, 10, compiled, runs script compiled, by decide +kernel⟩

theorem resolve_declaring {automatic : Bool} {position place : Position} {name : String}
    {ty : Option TypeRef} {value : Expr} {env : Environment} {q : Primitive} {t : Ty}
    (h : (Environment.ofProgram .standard automatic (declaring position name ty value)).1 =
      some env)
    (resolved : env.types.resolve ⟨q.name, [], place⟩ = .ok t) : t = env.core.primitive q := by
  cases automatic with
  | false =>
    cases h
    cases q <;> cases resolved
  | true =>
    cases h
    cases q <;> cases resolved <;> rfl

/-- A variable of a written integer type that starts as a literal has the width of the type. It
holds the value of the literal if that is in the range of the type. At a signed type, a value that
is too large by one bit is read as a negative number. No other literal compiles. -/
theorem declared_literal_value (options : CompileOptions) (time : Int64)
    (position place : Position) (name : String) (q : Primitive) (x : Spelling) (script : Script)
    (integer : q.isInteger)
    (distinct : (declaring position name (some ⟨q.name, [], place⟩) x.expr).Distinct)
    (compiled : ((declaring position name (some ⟨q.name, [], place⟩) x.expr).compile options
      .standard time).script = some script) :
    ∃ bytes, bytes.length = q.size ∧
      (∀ capacity, 16 ≤ capacity →
        ∃ n, (runFor capacity script.view n Machine.start).outcome? = some (.finished bytes)) ∧
      (q.Holds x.meaning ∧ number q bytes = x.meaning ∨
        q.isSigned ∧ 2 ^ (q.bits - 1) ≤ x.meaning ∧ x.meaning < 2 ^ q.bits ∧
          number q bytes = x.meaning - 2 ^ q.bits) := by
  obtain ⟨env, texts, t, henv, sound, ⟨resolved, fits⟩, finishes⟩ :=
    declaring_finishes x.ofIntegers (by decide) distinct compiled
  obtain rfl := resolve_declaring henv resolved
  obtain ⟨note, c, ⟨noted, filed⟩, coercion⟩ := fits x.expr rfl
  obtain ⟨m, hm, valid, rfl⟩ := noted.numeral
  obtain ⟨rfl, implicit⟩ := coercionTo_asked coercion
  obtain ⟨widens, -⟩ := m.conversionTo_implicit sound valid integer implicit
  refine ⟨Bytes.ofInt q.size x.meaning, Bytes.length_ofInt .., fun capacity room => ?_, ?_⟩
  · refine finishes capacity _ room ?_
    rw [← hm]
    exact expression_integer sound valid integer implicit filed _ _
  · exact hm ▸ Primitive.number_widened valid.holds widens

def widened : Program :=
  declaring ⟨1, 1⟩ "x" (some ⟨"i32", [], ⟨1, 2⟩⟩)
    (Spelling.expr ⟨⟨0, ⟨1, 3⟩⟩, "0xFF_FF", false⟩)

theorem widened_value :
    ∃ script bytes, (widened.compile .default .standard 0).script = some script ∧
      (∃ n, (runFor defaultCapacity script.view n Machine.start).outcome? =
        some (.finished bytes)) ∧ number .i32 bytes = 65535 := by
  obtain ⟨script, compiled⟩ := Option.isSome_iff_exists.mp
    (show (widened.compile .default .standard 0).script.isSome by decide +kernel)
  have meaning : Numeral.meaning "0xFF_FF" false = 65535 := by decide +kernel
  obtain ⟨bytes, -, finishes, ⟨-, value⟩ | ⟨-, lower, -⟩⟩ := declared_literal_value .default 0 _ _ _
    .i32 _ script rfl (by decide +kernel) compiled
  · exact ⟨script, bytes, compiled, finishes defaultCapacity (by decide), value.trans meaning⟩
  · exact absurd (lower.trans_eq meaning) (by decide +kernel)

def narrow : Program :=
  declaring ⟨1, 1⟩ "x" (some ⟨"i8", [], ⟨1, 1⟩⟩) (Spelling.expr ⟨⟨0, ⟨1, 1⟩⟩, "200", false⟩)

/-- A variable does not always hold the value of its literal. -/
theorem narrow_holds_another :
    ∃ script n, (narrow.compile .default .standard 0).script = some script ∧
      (runFor defaultCapacity script.view n Machine.start).outcome? = some (.finished [200]) ∧
      number .i8 [200] ≠ Numeral.meaning "200" false := by
  have runs : ∀ script ∈ (narrow.compile .default .standard 0).script,
      (runFor defaultCapacity script.view 10 Machine.start).outcome? =
        some (.finished [200]) := by
    decide +kernel
  obtain ⟨script, compiled⟩ := Option.isSome_iff_exists.mp
    (show (narrow.compile .default .standard 0).script.isSome by decide +kernel)
  exact ⟨script, 10, compiled, runs script compiled, by decide +kernel⟩

end Program

end Bytescript
