import Mathlib
import Bytescript.Proofs.Execution
import Bytescript.Proofs.TypedCode

/-!
# The depth of the stack in the code of a program

Every place in the code of a program has a depth: the size of the stack that the assembly counted
there. A value adds its size, a statement leaves the sizes of the variables, and the depth at the
target of a jump is the depth behind the jump.
-/
namespace Bytescript

namespace Instruction

@[simp] theorem opcode?_plain (op : Opcode) : (plain op).opcode? = some op := Opcode.ofTag?_tag op

@[simp] theorem opcode?_halt (code : Int32) : (halt code).opcode? = some .halt := rfl

@[simp] theorem opcode?_worded (op : Opcode) (word : Nat) : (worded op word).opcode? = some op :=
  Opcode.ofTag?_tag op

@[simp] theorem opcode?_sized (op : Opcode) (width address : Nat) :
    (sized op width address).opcode? = some op :=
  Opcode.ofTag?_tag op

@[simp] theorem opcode?_paired (op : Opcode) (width second : Nat) :
    (paired op width second).opcode? = some op :=
  Opcode.ofTag?_tag op

theorem word_worded (op : Opcode) {word : Nat} (h : word < 4294967296) :
    (worded op word).word.toNat = word := by
  simp [worded, Nat.mod_eq_of_lt h]

theorem word_sized (op : Opcode) (width : Nat) {address : Nat} (h : address < 4294967296) :
    (sized op width address).word.toNat = address := by
  simp [sized, Nat.mod_eq_of_lt h]

theorem width_sized (op : Opcode) {width : Nat} (address : Nat) (h : width < 65536) :
    (sized op width address).width.toNat = width := by
  simp [sized, Nat.mod_eq_of_lt h]

theorem width_paired (op : Opcode) {width : Nat} (second : Nat) (h : width < 65536) :
    (paired op width second).width.toNat = width := by
  simp [paired, Nat.mod_eq_of_lt h]

theorem second_paired (op : Opcode) (width : Nat) {second : Nat} (h : second < 65536) :
    (paired op width second).second = second := by
  simp only [Instruction.second, paired, Nat.toUInt8_eq, UInt8.toNat_ofNat', Nat.toUInt32_eq,
    UInt32.toNat_ofNat']
  omega

theorem target?_eq_none {i : Instruction} {op : Opcode} (h : i.opcode? = some op)
    (hl : op.layout ≠ .target) : i.target? = none := by
  unfold target?
  rw [h]
  cases op <;> first | rfl | exact absurd rfl hl

theorem effect_pushZero {n : Nat} (h : n < 4294967296) : (worded .pushZero n).effect = (0, n) := by
  have hw := word_worded .pushZero h
  simp only [effect, stackEffect?, opcode?_worded, Option.map_some, Option.getD_some, hw]

theorem effect_pop {n : Nat} (h : n < 4294967296) : (worded .pop n).effect = (n, 0) := by
  have hw := word_worded .pop h
  simp only [effect, stackEffect?, opcode?_worded, Option.map_some, Option.getD_some, hw]

theorem effect_pushData {n : Nat} (h : n < 65536) (offset : Nat) :
    (sized .pushData n offset).effect = (0, n) := by
  have hw := width_sized .pushData offset h
  simp only [effect, stackEffect?, opcode?_sized, Option.map_some, Option.getD_some, hw]

theorem effect_pushStack {n : Nat} (h : n < 65536) (offset : Nat) :
    (sized .pushStack n offset).effect = (0, n) := by
  have hw := width_sized .pushStack offset h
  simp only [effect, stackEffect?, opcode?_sized, Option.map_some, Option.getD_some, hw]

theorem effect_assign {n : Nat} (h : n < 65536) (offset : Nat) :
    (sized .assign n offset).effect = (n, 0) := by
  have hw := width_sized .assign offset h
  simp only [effect, stackEffect?, opcode?_sized, Option.map_some, Option.getD_some, hw]

theorem effect_paired {op : Opcode} (hop : op.layout = .widths) {n m : Nat} (hn : n < 65536)
    (hm : m < 65536) : (paired op n m).effect = (n, m) := by
  have hw := width_paired op m hn
  have hs := second_paired op n hm
  simp only [effect, stackEffect?, opcode?_paired, Option.map_some, Option.getD_some, hw, hs]
  cases op <;> first | rfl | cases hop

end Instruction

theorem Primitive.size_le (p : Primitive) : p.size ≤ 16 := by
  cases p <;> decide

namespace Lowering

theorem effect_binary (op : BinaryOp) (p : Primitive) :
    (operation (Generate.binaryOpcode op p) p).effect = (2 * p.size, Typing.resultSize op p) := by
  cases op <;> cases p <;> rfl

theorem effect_unary (op : UnaryOp) (p : Primitive) :
    (operation (Generate.unaryOpcode op p) p).effect = (p.size, p.size) := by
  cases op <;> cases p <;> rfl

theorem target?_binary (op : BinaryOp) (p : Primitive) :
    (operation (Generate.binaryOpcode op p) p).target? = none := by
  refine Instruction.target?_eq_none (Instruction.opcode?_paired _ _ _) ?_
  cases op <;> simp only [Generate.binaryOpcode] <;> (try split) <;> decide

theorem target?_unary (op : UnaryOp) (p : Primitive) :
    (operation (Generate.unaryOpcode op p) p).target? = none := by
  refine Instruction.target?_eq_none (Instruction.opcode?_paired _ _ _) ?_
  cases op <;> simp only [Generate.unaryOpcode] <;> (try split) <;> decide

end Lowering

namespace Conversion

theorem instruction?_cases {c : Conversion} {p q : Primitive} {i : Instruction}
    (h : c.instruction? p q = some i) :
    (∃ op : Opcode, op.layout = .widths ∧ i = .paired op p.size q.size) ∨
      p.size < q.size ∧ i = .worded .pushZero (q.size - p.size) ∨
      q.size ≤ p.size ∧ i = .worded .pop (p.size - q.size) := by
  have integer : Conversion.widenInteger.instruction? p q = some i →
      (∃ op : Opcode, op.layout = .widths ∧ i = .paired op p.size q.size) ∨
        p.size < q.size ∧ i = .worded .pushZero (q.size - p.size) ∨
        q.size ≤ p.size ∧ i = .worded .pop (p.size - q.size) := by
    intro h
    simp only [instruction?, Option.some.injEq] at h
    subst h
    split
    · next hlt =>
      split
      · exact Or.inl ⟨.signExtend, rfl, rfl⟩
      · exact Or.inr (Or.inl ⟨hlt, rfl⟩)
    · next hle => exact Or.inr (Or.inr ⟨by omega, rfl⟩)
  cases c with
  | unneeded => cases h
  | impossible => cases h
  | widenInteger => exact integer h
  | resizeInteger => exact integer h
  | widenFloat => exact Or.inl ⟨.floatToFloat, rfl, (Option.some.inj h).symm⟩
  | narrowFloat => exact Or.inl ⟨.floatToFloat, rfl, (Option.some.inj h).symm⟩
  | integerToFloat => exact Or.inl ⟨_, by split <;> rfl, (Option.some.inj h).symm⟩
  | floatToInteger => exact Or.inl ⟨_, by split <;> rfl, (Option.some.inj h).symm⟩

theorem exists_instruction? {c : Conversion} (needed : c ≠ .unneeded) (possible : c ≠ .impossible)
    (p q : Primitive) : ∃ i, c.instruction? p q = some i := by
  cases c with
  | unneeded => exact absurd rfl needed
  | impossible => exact absurd rfl possible
  | _ => exact ⟨_, rfl⟩

theorem Suits.instruction? {c : Conversion} {p q : Primitive} (h : c.Suits p q) :
    ∃ i, c.instruction? p q = some i := by
  refine exists_instruction? ?_ ?_ p q
  · rintro rfl
    exact h
  · rintro rfl
    exact h

/-- A conversion changes the depth by the difference between the sizes of the two types. -/
theorem depthAfter_instruction {c : Conversion} {p q : Primitive} {i : Instruction}
    (h : c.instruction? p q = some i) (n : Nat) : depthAfter (n + p.size) [i] = n + q.size := by
  have hp := p.size_le
  have hq := q.size_le
  rcases instruction?_cases h with ⟨op, hop, rfl⟩ | ⟨hlt, rfl⟩ | ⟨hle, rfl⟩
  · simp [Instruction.effect_paired hop (show p.size < 65536 by omega)
      (show q.size < 65536 by omega)]
  · simp [Instruction.effect_pushZero (show q.size - p.size < 4294967296 by omega)]
    omega
  · simp [Instruction.effect_pop (show p.size - q.size < 4294967296 by omega)]
    omega

theorem target?_instruction {c : Conversion} {p q : Primitive} {i : Instruction}
    (h : c.instruction? p q = some i) : i.target? = none := by
  rcases instruction?_cases h with ⟨op, hop, rfl⟩ | ⟨-, rfl⟩ | ⟨-, rfl⟩
  · exact Instruction.target?_eq_none (Instruction.opcode?_paired ..) (by rw [hop]; decide)
  · exact Instruction.target?_eq_none (Instruction.opcode?_worded ..) (by decide)
  · exact Instruction.target?_eq_none (Instruction.opcode?_worded ..) (by decide)

end Conversion

/-- The size of every type that a program can name fits the width of an instruction. -/
def Environment.Small (env : Environment) : Prop := ∀ d ∈ env.types.types, d.size < 65536

instance (env : Environment) : Decidable env.Small :=
  inferInstanceAs (Decidable (∀ d ∈ env.types.types, d.size < 65536))

theorem Environment.Small.known {env : Environment} (h : env.Small) {t : Ty} (ht : env.Known t) :
    t.size < 65536 := by
  rcases ht.2 with hc | hd
  · rcases Module.mem_core.mp hc with ⟨p, hp⟩ | hh
    · have hs : t.size = p.size := congrArg DefinitionOf.size hp
      have := p.size_le
      omega
    · have hs : t.size = handleSize := congrArg DefinitionOf.size hh
      rw [hs]
      decide
  · exact h _ hd

namespace Typing

variable {env : Environment} {scopes : Scopes} {notes : Notes} {frames : List Frame} {pool : Pool}
  {e : Expr} {v : Lowering.Value}

theorem depthAfter_settle {note : Note} {b : Lowering.Value} (proper : Proper note.coercion)
    (settled : Lowering.settle note b = some v) (ty : b.ty = note.ty) {n : Nat}
    (hb : depthAfter n b.code = n + note.ty.size) : depthAfter n v.code = n + v.ty.size := by
  obtain ⟨cs, hcs, rfl⟩ := Option.map_eq_some_iff.mp settled
  rw [depthAfter_append, hb]
  unfold Lowering.coercion at hcs
  unfold Lowering.settledType
  cases hk : note.coercion with
  | none =>
    rw [hk] at hcs
    cases hcs
    exact congrArg (fun t : Ty => n + t.size) ty.symm
  | some k =>
    obtain ⟨needed, possible⟩ := proper k hk
    simp only [hk, Option.bind_eq_some_iff, Option.map_eq_some_iff] at hcs
    obtain ⟨p, hp, q, hq, rfl⟩ := hcs
    obtain ⟨i, hi⟩ := Conversion.exists_instruction? needed possible p q
    rw [hi, Option.toList_some, Ty.size_of_primitive hp, Conversion.depthAfter_instruction hi]
    exact congrArg (n + ·) (Ty.size_of_primitive hq).symm

/-- The one instruction of a literal pushes its bytes, or the address of its text. -/
theorem literal_code (pool : Pool) {k : Constant} {ty : Ty} (h : Stored k ty) :
    (∃ p bits, k = .primitive p bits ∧ ty.size = p.size ∧
        (Lowering.literal pool k ty).code = [.sized .pushData p.size (pool.store k).1]) ∨
      ∃ text, k = .text text ∧ ty.size = handleSize ∧
        (Lowering.literal pool k ty).code = [.worded .pushHandle (pool.store k).1] := by
  cases k with
  | primitive p bits =>
    have hs := Ty.size_of_primitive h
    have hh : ty.isHandle = false := by
      simp only [Stored, Ty.primitive?, DefinitionOf.primitive?] at h
      simp only [Ty.isHandle, DefinitionOf.isHandle]
      split <;> simp_all
    exact Or.inl ⟨p, bits, rfl, hs, by simp [Lowering.literal, hh, hs]⟩
  | text value =>
    have hh : ty.isHandle = true := h
    exact Or.inr ⟨value, rfl, Ty.size_of_isHandle hh, by simp [Lowering.literal, hh]⟩

theorem depthAfter_literal (pool : Pool) (k : Constant) {ty : Ty} (h : ty.size < 65536) (n : Nat) :
    depthAfter n (Lowering.literal pool k ty).code = n + ty.size := by
  cases hh : ty.isHandle with
  | true =>
    simp only [Lowering.literal, hh, if_true, Ty.size_of_isHandle hh]
    rfl
  | false => simp [Lowering.literal, hh, Instruction.effect_pushData h]

theorem Stored.size_lt {k : Constant} {ty : Ty} (h : Stored k ty) : ty.size < 65536 := by
  cases k with
  | primitive p bits =>
    have hp := p.size_le
    rw [Ty.size_of_primitive h]
    omega
  | text value =>
    rw [Ty.size_of_isHandle h]
    decide

theorem Coded.depthAfter_eq (h : Coded env notes scopes frames pool e v) (small : env.Small)
    (n : Nat) : depthAfter n v.code = n + v.ty.size := by
  induction h generalizing n with
  | literal _ _ stored suited settled =>
    exact depthAfter_settle suited.proper settled rfl (depthAfter_literal _ _ stored.size_lt n)
  | place _ _ _ _ _ _ known suited settled =>
    refine depthAfter_settle suited.proper settled rfl ?_
    simp [Instruction.effect_pushStack (small.known known)]
  | @binary _ _ op _ _ _ l r _ p _ _ _ leftType rightType _ size suited settled ihl ihr =>
    refine depthAfter_settle suited.proper settled rfl ?_
    have hl := Ty.size_of_primitive leftType
    have hr := Ty.size_of_primitive rightType
    simp only [depthAfter_append, ihl, ihr, depthAfter_cons, depthAfter_nil,
      Lowering.effect_binary, size, hl, hr]
    omega
  | @unary _ _ _ _ _ w _ _ _ _ innerType _ size suited settled ih =>
    refine depthAfter_settle suited.proper settled rfl ?_
    have hw := Ty.size_of_primitive innerType
    simp only [depthAfter_append, ih, depthAfter_cons, depthAfter_nil,
      Lowering.effect_unary, size, hw]
    omega
  | cast _ _ size suited settled ih =>
    refine depthAfter_settle suited.proper settled rfl ?_
    rw [ih, size]

end Typing

namespace Lowering

variable {notes : Notes} {frames : List Frame} {pool : Pool} {v : Value}

/-- A property holds of every instruction that the code of an expression is made of. -/
structure OfExpressions (P : Instruction → Prop) : Prop where
  handle : ∀ offset, P (.worded .pushHandle offset)
  data : ∀ size offset, P (.sized .pushData size offset)
  stack : ∀ size offset, P (.sized .pushStack size offset)
  binary : ∀ op p, P (operation (Generate.binaryOpcode op p) p)
  unary : ∀ op p, P (operation (Generate.unaryOpcode op p) p)
  conversion : ∀ {c : Conversion} {p q : Primitive} {i}, c.instruction? p q = some i → P i

section

variable {P : Instruction → Prop} (holds : OfExpressions P)

include holds

theorem OfExpressions.settle {note : Note} {b : Value} (settled : settle note b = some v)
    (hb : ∀ i ∈ b.code, P i) : ∀ i ∈ v.code, P i := by
  obtain ⟨cs, hcs, rfl⟩ := Option.map_eq_some_iff.mp settled
  intro i hi
  rcases List.mem_append.mp hi with hi | hi
  · exact hb i hi
  · unfold coercion at hcs
    cases hk : note.coercion with
    | none =>
      rw [hk] at hcs
      cases hcs
      cases hi
    | some k =>
      simp only [hk, Option.bind_eq_some_iff, Option.map_eq_some_iff] at hcs
      obtain ⟨p, -, q, -, rfl⟩ := hcs
      exact holds.conversion (Option.mem_toList.mp hi)

theorem OfExpressions.literal (pool : Pool) (c : Constant) (ty : Ty) :
    ∀ i ∈ (literal pool c ty).code, P i := by
  rw [Lowering.literal, List.forall_mem_singleton]
  split
  · exact holds.handle _
  · exact holds.data _ _

theorem OfExpressions.expression {e : Expr} (h : expression notes frames pool e = some v) :
    ∀ i ∈ v.code, P i := by
  have read (ty : Ty) (offset : Nat) :
      ∀ i ∈ [Instruction.sized .pushStack ty.size offset], P i :=
    List.forall_mem_singleton.mpr (holds.stack ..)
  induction e generalizing pool v with
  | literal mark token =>
    obtain ⟨note, c, -, -, settled⟩ := expression_literal h
    exact holds.settle settled (holds.literal pool c note.ty)
  | «variable» mark name =>
    obtain ⟨note, offset, ty, -, -, settled⟩ := expression_variable h
    exact holds.settle settled (read ty offset)
  | field mark target name =>
    obtain ⟨note, p, offset, ty, -, -, -, settled⟩ := expression_field h
    exact holds.settle settled (read ty offset)
  | binary mark op left right onLeft onRight =>
    obtain ⟨note, l, r, p, -, hl, hr, -, settled⟩ := expression_binary h
    refine holds.settle settled fun i hi => ?_
    simp only [List.mem_append, List.mem_singleton] at hi
    obtain (hi | hi) | rfl := hi
    · exact onLeft hl i hi
    · exact onRight hr i hi
    · exact holds.binary op p
  | unary mark op operand onOperand =>
    obtain ⟨note, w, p, -, hw, -, settled⟩ := expression_unary h
    refine holds.settle settled fun i hi => ?_
    simp only [List.mem_append, List.mem_singleton] at hi
    obtain hi | rfl := hi
    · exact onOperand hw i hi
    · exact holds.unary op p
  | cast mark operand ty onOperand =>
    obtain ⟨note, w, -, hw, settled⟩ := expression_cast h
    exact holds.settle settled fun i hi => onOperand hw i hi

end

theorem straight_ofExpressions : OfExpressions fun i => i.target? = none where
  handle _ := Instruction.target?_eq_none (Instruction.opcode?_worded ..) (by decide)
  data _ _ := Instruction.target?_eq_none (Instruction.opcode?_sized ..) (by decide)
  stack _ _ := Instruction.target?_eq_none (Instruction.opcode?_sized ..) (by decide)
  binary := target?_binary
  unary := target?_unary
  conversion := Conversion.target?_instruction

/-- The code of an expression has no jumps. -/
theorem straight_expression {e : Expr} (h : expression notes frames pool e = some v) :
    ∀ i ∈ v.code, i.target? = none :=
  straight_ofExpressions.expression h

theorem straight_initial {env : Environment} {s : Scene} {ty : Option TypeRef}
    {value : Option Expr} (h : initial env notes s ty value = some v) :
    ∀ i ∈ v.code, i.target? = none := by
  rcases initial_cases h with ⟨-, code, -⟩ | ⟨e, w, -, hw, code, -⟩
  · rw [code, List.forall_mem_singleton]
    exact Instruction.target?_eq_none (Instruction.opcode?_worded ..) (by decide)
  · rw [code]
    exact straight_expression hw

end Lowering

/-- The instructions occur in the code at the given index. -/
def Lies (code : List Instruction) (position : Nat) (is : List Instruction) : Prop :=
  ∃ front back, code = front ++ is ++ back ∧ front.length = position

/-- The depth in front of the instruction at an index. -/
def depthAt (code : List Instruction) (i : Nat) : Nat := depthAfter 0 (code.take i)

namespace Lies

variable {code is js : List Instruction} {position : Nat} {i : Instruction}

theorem left (h : Lies code position (is ++ js)) : Lies code position is := by
  obtain ⟨front, back, rfl, hp⟩ := h
  exact ⟨front, js ++ back, by simp, hp⟩

theorem right (h : Lies code position (is ++ js)) : Lies code (position + is.length) js := by
  obtain ⟨front, back, rfl, rfl⟩ := h
  exact ⟨front ++ is, back, by simp, by simp⟩

theorem le (h : Lies code position is) : position + is.length ≤ code.length := by
  obtain ⟨front, back, rfl, rfl⟩ := h
  simp

theorem getElem? (h : Lies code position is) {j : Nat} (hj : j < is.length) :
    code[position + j]? = is[j]? := by
  obtain ⟨front, back, rfl, rfl⟩ := h
  rw [List.append_assoc, List.getElem?_append_right (by omega), Nat.add_sub_cancel_left,
    List.getElem?_append_left hj]

theorem head (h : Lies code position (i :: is)) : code[position]? = some i :=
  h.getElem? (j := 0) (by simp)

theorem depthAt_eq (h : Lies code position is) :
    depthAt code (position + is.length) = depthAfter (depthAt code position) is := by
  obtain ⟨front, back, rfl, rfl⟩ := h
  have hl : (front ++ is ++ back).take (front.length + is.length) = front ++ is := by
    rw [← List.length_append, List.take_left']
    rfl
  have hf : (front ++ is ++ back).take front.length = front := by
    rw [List.append_assoc, List.take_left']
    rfl
  rw [depthAt, depthAt, hl, hf, depthAfter_append]

end Lies

/-- The instruction at an index does not jump, or its target is in the code and has the depth behind
the instruction. -/
def Steady (code : List Instruction) (index : Nat) : Prop :=
  ∀ i t, code[index]? = some i → i.target? = some t →
    t ≤ code.length ∧ depthAt code t = depthAt code (index + 1)

def SteadyFrom (code : List Instruction) (start stop : Nat) : Prop :=
  ∀ index, start ≤ index → index < stop → Steady code index

theorem SteadyFrom.trans {code : List Instruction} {start middle stop : Nat}
    (h : SteadyFrom code start middle) (g : SteadyFrom code middle stop) :
    SteadyFrom code start stop := by
  intro index hl hr
  by_cases hm : index < middle
  · exact h index hl hm
  · exact g index (by omega) hr

/-- Code without jumps is steady. -/
theorem Lies.steady {code is : List Instruction} {position : Nat} (h : Lies code position is)
    (straight : ∀ i ∈ is, i.target? = none) : SteadyFrom code position (position + is.length) := by
  intro index hl hr i t hi ht
  have hj : index - position < is.length := by omega
  have hg := h.getElem? hj
  rw [show position + (index - position) = index by omega, hi] at hg
  rw [straight i (List.mem_of_getElem? hg.symm)] at ht
  cases ht

def DepthsFit (code : List Instruction) : Prop := ∀ i ≤ code.length, depthAt code i < 4294967296

instance (code : List Instruction) : Decidable (DepthsFit code) :=
  inferInstanceAs (Decidable (∀ i ≤ code.length, depthAt code i < 4294967296))

/-- Targets and depths fit the word of an instruction. -/
structure Bounded (code : List Instruction) : Prop where
  length : code.length < 4294967296
  depth : ∀ i ≤ code.length, depthAt code i < 4294967296

instance (code : List Instruction) : Decidable (Bounded code) :=
  decidable_of_iff
    (code.length < 4294967296 ∧ ∀ i ≤ code.length, depthAt code i < 4294967296)
    ⟨fun h => ⟨h.1, h.2⟩, fun h => ⟨h.1, h.2⟩⟩

theorem target?_jump_mod (conditional : Bool) (t : Nat) :
    (Lowering.jump conditional t).target? = some (t % 2 ^ 32) := by
  have hw : (Instruction.worded (Assembly.jumpOpcode conditional) t).word.toNat = t % 2 ^ 32 := by
    simp [Instruction.worded]
  unfold Instruction.target? Lowering.jump
  rw [Instruction.opcode?_worded, hw]
  cases conditional <;> rfl

theorem target?_jump {conditional : Bool} {t : Nat} (h : t < 4294967296) :
    (Lowering.jump conditional t).target? = some t := by
  rw [target?_jump_mod]
  exact congrArg some (Nat.mod_eq_of_lt h)

/-- A jump is steady if the depth at its target is the depth behind it. -/
theorem Lies.steady_jump {code : List Instruction} {position t : Nat} {conditional : Bool}
    (h : Lies code position [Lowering.jump conditional t]) (short : code.length < 4294967296)
    (hl : t ≤ code.length) (hd : depthAt code t = depthAt code (position + 1)) :
    SteadyFrom code position (position + 1) := by
  intro index hl hr i t' hi ht
  obtain rfl : index = position := by omega
  have hi' := h.head
  rw [hi] at hi'
  cases hi'
  rw [target?_jump (by omega)] at ht
  cases ht
  exact ⟨by assumption, hd⟩

/-- The variables are adjacent and fill the stack between two offsets. -/
def Row (start : Nat) : List Variable → Nat → Prop
  | [], stop => start = stop
  | v :: rest, stop => v.offset = start ∧ Row (start + v.ty.size) rest stop

theorem Row.le {start stop : Nat} {vs : List Variable} (h : Row start vs stop) : start ≤ stop := by
  induction vs generalizing start with
  | nil => exact Nat.le_of_eq h
  | cons v rest ih => exact Nat.le_trans (Nat.le_add_right ..) (ih h.2)

theorem Row.add {start stop : Nat} {vs : List Variable} (h : Row start vs stop) {v : Variable}
    (hv : v.offset = stop) : Row start (vs ++ [v]) (stop + v.ty.size) := by
  induction vs generalizing start with
  | nil =>
    obtain rfl : start = stop := h
    exact ⟨hv, rfl⟩
  | cons u rest ih => exact ⟨h.1, ih h.2⟩

/-- The variables of all frames fill the stack from the bottom up to a size. -/
def Tiled : List Frame → Nat → Prop
  | [], n => n = 0
  | f :: rest, n => Row f.entrySize f.declared n ∧ Tiled rest f.entrySize

namespace Lowering

/-- The instructions occur in the code at the position of the scene, and the size of the scene is
the depth there. -/
def Stands (code : List Instruction) (s : Scene) (is : List Instruction) : Prop :=
  Lies code s.position is ∧ depthAt code s.position = s.size

namespace Stands

variable {code is js : List Instruction} {s t : Scene}

theorem left (h : Stands code s (is ++ js)) : Stands code s is := ⟨h.1.left, h.2⟩

theorem right (h : Stands code s (is ++ js)) (hf : Follows s (is, t)) : Stands code t js := by
  obtain ⟨hp, hs⟩ := hf
  dsimp only at hp hs
  refine ⟨hp ▸ h.1.right, ?_⟩
  rw [hp, h.1.left.depthAt_eq, hs, h.2]

theorem depth_eq (h : Stands code s is) (hf : Follows s (is, t)) :
    depthAt code t.position = t.size := by
  obtain ⟨hp, hs⟩ := hf
  dsimp only at hp hs
  rw [hp, h.1.depthAt_eq, hs, h.2]

theorem start (is : List Instruction) : Stands is Assembly.start.scene is :=
  ⟨⟨[], [], by simp, rfl⟩, rfl⟩

end Stands

structure Ready (env : Environment) (scopes : Typing.Scopes) (s : Scene) : Prop where
  agree : Agree s.frames scopes
  known : Typing.KnownScopes env scopes
  tiled : Tiled s.frames s.size

variable {env : Environment} {notes : Notes} {scopes : Typing.Scopes} {s : Scene}
  {code : List Instruction}

theorem Ready.start (env : Environment) : Ready env [[]] Assembly.start.scene :=
  ⟨Agree.start, fun _ hs x hx => by simp_all, rfl, rfl⟩

theorem Ready.opened (h : Ready env scopes s) : Ready env ([] :: scopes) s.opened :=
  ⟨h.agree.opened s.size, h.known.opened, rfl, h.tiled⟩

theorem Ready.closed_eq {b : Body} {inner : Typing.Scopes} (ready : Ready env inner b.2)
    (framed : Framed s.opened b) (bound : b.2.size < 4294967296) :
    s.size ≤ b.2.size ∧ closed b = (b.1 ++ drop (b.2.size - s.size),
      ⟨b.2.position + (drop (b.2.size - s.size)).length, s.size, s.frames, b.2.pool⟩) := by
  obtain ⟨more, hm⟩ := framed ⟨s.size, []⟩ s.frames rfl
  have tiled := ready.tiled
  rw [hm] at tiled
  have hle : s.size ≤ b.2.size := tiled.1.le
  have hd : depthAfter b.2.size (drop (b.2.size - s.size)) = s.size := by
    unfold drop
    split
    · rw [depthAfter_nil]
      omega
    · rw [depthAfter_cons, Instruction.effect_pop (by omega), depthAfter_nil]
      omega
  refine ⟨hle, ?_⟩
  rw [framed.closed_eq, Scene.after, hd]

theorem straight_drop (n : Nat) : ∀ i ∈ drop n, i.target? = none := by
  intro i hi
  unfold drop at hi
  split at hi
  · cases hi
  · rw [List.mem_singleton.mp hi]
    exact Instruction.target?_eq_none (Instruction.opcode?_worded ..) (by decide)

theorem Ready.size_guarded (ready : Ready env scopes s) (sound : env.Sound) (small : env.Small)
    {e : Expr} (tested : Typing.Tested env notes scopes e) {v : Value}
    (hv : expression notes s.frames s.pool e = some v) :
    (s.after (guarded v 0) v.pool).size = s.size := by
  obtain ⟨coded, ht⟩ := tested.coded sound ready.known ready.agree hv
  have hs : v.ty.size = 1 := Ty.size_of_primitive ht
  simp [Scene.after, guarded, coded.depthAfter_eq small, hs]

theorem Ready.guarded (ready : Ready env scopes s) (sound : env.Sound) (small : env.Small)
    {e : Expr} (tested : Typing.Tested env notes scopes e) {v : Value}
    (hv : expression notes s.frames s.pool e = some v) :
    Ready env scopes (s.after (guarded v 0) v.pool) := by
  refine ⟨ready.agree, ready.known, ?_⟩
  rw [ready.size_guarded sound small tested hv]
  exact ready.tiled

/-- A condition and the jump behind it are steady if the depth at the target is the depth in front
of them. -/
theorem Stands.steady_guarded {v : Value} {target : Nat} {e : Expr}
    (h : Stands code s (guarded v target)) (short : code.length < 4294967296)
    (hv : expression notes s.frames s.pool e = some v) (hl : target ≤ code.length)
    (hd : depthAt code target = (s.after (guarded v 0) v.pool).size) :
    SteadyFrom code s.position (s.after (guarded v 0) v.pool).position := by
  have steady : SteadyFrom code s.position (s.position + v.code.length) :=
    h.1.left.steady (straight_expression hv)
  have he := h.depth_eq (follows_guarded s v target)
  have hp : (s.after (guarded v 0) v.pool).position = s.position + v.code.length + 1 := by
    simp [Scene.after, guarded, Nat.add_assoc]
  rw [hp] at he ⊢
  exact steady.trans (h.1.right.steady_jump short hl (hd.trans he.symm))

def LevelAll (env : Environment) (notes : Notes) (code : List Instruction) (body : List Stmt) :
    Prop :=
  ∀ scopes after s b, Typing.AcceptedAll env notes scopes body after → Ready env scopes s →
    statements env notes s body = some b → Stands code s b.1 →
    Ready env after b.2 ∧
      (code.length < 4294967296 → SteadyFrom code s.position b.2.position)

/-- Statements in a frame of their own leave the stack and the frames unchanged. -/
theorem LevelAll.closed {body : List Stmt} (h : LevelAll env notes code body)
    (fit : DepthsFit code) (ready : Ready env scopes s) {inner : Typing.Scopes}
    (accepted : Typing.AcceptedAll env notes ([] :: scopes) body inner) {c : Body}
    (hc : statements env notes s.opened body = some c) (stands : Stands code s (closed c).1) :
    (closed c).2.size = s.size ∧ (closed c).2.frames = s.frames ∧
      (code.length < 4294967296 → SteadyFrom code s.position (closed c).2.position) := by
  have framed := (framed_statement_all env notes).2 _ _ _ hc
  have follows := (follows_statement_all env notes).2 _ _ _ hc
  rw [framed.closed_eq] at stands
  have hs : Stands code s.opened c.1 := stands.left
  obtain ⟨readyInner, steady⟩ := h _ _ _ _ accepted ready.opened hc hs
  have bound : c.2.size < 4294967296 := by
    rw [← hs.depth_eq follows]
    exact fit _ (follows.1 ▸ hs.1.le)
  obtain ⟨-, he⟩ := readyInner.closed_eq framed bound
  rw [he]
  refine ⟨rfl, rfl, fun short => (steady short).trans ?_⟩
  exact (stands.right (s := s) follows).1.steady (straight_drop _)

theorem Ready.of_eq {t : Scene} (ready : Ready env scopes s) (hs : t.size = s.size)
    (hf : t.frames = s.frames) : Ready env scopes t :=
  ⟨hf ▸ ready.agree, ready.known, hs ▸ hf ▸ ready.tiled⟩

/-- The positions of the parts of a branch with two bodies. The stack and the frames in front of the
second body are those in front of the branch. -/
theorem Stands.bodies {condition : Expr} {body : List Stmt} {v : Value} {c d : Body}
    {inner : Typing.Scopes} {front : Scene}
    (stands : Stands code s (guarded v front.position ++ (closed c).1 ++
      jump false (closed d).2.position :: (closed d).1))
    (level : LevelAll env notes code body) (sound : env.Sound) (small : env.Small)
    (fit : DepthsFit code) (ready : Ready env scopes s)
    (tested : Typing.Tested env notes scopes condition)
    (accepted : Typing.AcceptedAll env notes ([] :: scopes) body inner)
    (hv : expression notes s.frames s.pool condition = some v)
    (hc : statements env notes (s.after (guarded v 0) v.pool).opened body = some c)
    (hf : front = (closed c).2.after [jump false 0] (closed c).2.pool) :
    Stands code (s.after (guarded v 0) v.pool) (closed c).1 ∧
      Lies code (closed c).2.position [jump false (closed d).2.position] ∧
      Stands code front (closed d).1 ∧ front.size = s.size ∧ front.frames = s.frames := by
  rw [List.append_assoc] at stands
  have standsBody := stands.right (follows_guarded s v _)
  have standsJump : Stands code (closed c).2
      ([jump false (closed d).2.position] ++ (closed d).1) :=
    standsBody.right ((follows_statement_all env notes).2 _ _ _ hc).closed
  have standsOther := standsJump.right (follows_jump _ false _ 0 (closed c).2.pool)
  obtain ⟨hsize, hframes, -⟩ :=
    level.closed fit (ready.guarded sound small tested hv) accepted hc standsBody.left
  subst hf
  refine ⟨standsBody.left, standsJump.left.1, standsOther, ?_, hframes⟩
  rw [← ready.size_guarded sound small tested hv, ← hsize]
  simp [Scene.after]

theorem Ready.of_tiled {scopes after : Typing.Scopes} {s : Scene} {stmt : Stmt} {b : Body}
    (ready : Ready env scopes s) (sound : env.Sound)
    (accepted : Typing.Accepted env notes scopes stmt after)
    (hb : statement env notes s stmt = some b) (tiled : Tiled b.2.frames b.2.size) :
    Ready env after b.2 :=
  ⟨(Typing.agree_statement_all env notes).1 _ _ _ _ _ accepted ready.agree hb,
    accepted.known sound ready.known, tiled⟩

/-- The code of an accepted statement keeps the frames tiled, and its jumps are steady. -/
def Level (env : Environment) (notes : Notes) (code : List Instruction) (stmt : Stmt) : Prop :=
  ∀ scopes after s b, Typing.Accepted env notes scopes stmt after → Ready env scopes s →
    statement env notes s stmt = some b → Stands code s b.1 →
    Ready env after b.2 ∧
      (code.length < 4294967296 → SteadyFrom code s.position b.2.position)

theorem level_declare (sound : env.Sound) (small : env.Small) (position : Position)
    (name : String) (ty : Option TypeRef) (value : Option Expr) :
    Level env notes code (.declare position name ty value) := by
  intro scopes after s b accepted ready hb stands
  obtain ⟨t, initial, declares⟩ := id accepted
  obtain ⟨v, u, hv, hu, rfl⟩ := statement_declare hb
  obtain ⟨frame, rest, hf, -, rfl⟩ := define_eq_some hu
  obtain ⟨rfl, hcode⟩ := initial.coded sound ready.known ready.agree hv
  have known := initial.known sound ready.known
  have hd : depthAfter s.size v.code = s.size + v.ty.size := by
    rcases hcode with ⟨-, hc, -⟩ | ⟨e, w, -, coded, hs, hc, -⟩
    · have := small.known known
      rw [hc, depthAfter_cons, Instruction.effect_pushZero (by omega), depthAfter_nil]
      rfl
    · rw [hc, ← hs]
      exact coded.depthAfter_eq small _
  refine ⟨ready.of_tiled sound accepted hb ?_, fun _ => stands.1.steady (straight_initial hv)⟩
  have tiled := ready.tiled
  have hframes : s.frames = frame :: rest := hf
  rw [hframes] at tiled
  simp only [Scene.after, hd, Nat.add_sub_cancel]
  exact ⟨tiled.1.add rfl, tiled.2⟩

theorem level_assign (sound : env.Sound) (small : env.Small) (position : Position)
    (target : Place) (value : Expr) : Level env notes code (.assign position target value) := by
  intro scopes after s b accepted ready hb stands
  obtain ⟨⟨t, hp, fits⟩, rfl⟩ := id accepted
  obtain ⟨v, offset, ty, hv, ho, rfl⟩ := statement_assign hb
  have known := Typing.known_of_placeType sound ready.known hp
  obtain ⟨coded, hs⟩ := fits.coded sound ready.known ready.agree known hv
  obtain ⟨o, ho'⟩ := Typing.placeType_ok ready.agree hp
  cases ho'.symm.trans ho
  refine ⟨ready.of_tiled sound accepted hb ?_, fun _ => stands.1.steady ?_⟩
  · have := ready.tiled
    simp only [Scene.after, depthAfter_append, coded.depthAfter_eq small, depthAfter_cons,
      Instruction.effect_assign (small.known known), depthAfter_nil, hs, Nat.add_sub_cancel,
      Nat.add_zero]
    exact this
  · intro i hi
    rcases List.mem_append.mp hi with hi | hi
    · exact straight_expression hv i hi
    · rw [List.mem_singleton.mp hi]
      exact Instruction.target?_eq_none (Instruction.opcode?_sized ..) (by decide)

theorem level_discard (sound : env.Sound) (small : env.Small) (position : Position)
    (value : Expr) : Level env notes code (.discard position value) := by
  intro scopes after s b accepted ready hb stands
  obtain ⟨⟨note, has⟩, rfl⟩ := id accepted
  obtain ⟨v, hv, rfl⟩ := statement_discard hb
  obtain ⟨coded, ht⟩ := has.coded sound ready.known ready.agree hv
  have known : env.Known v.ty := ht ▸ has.1.known sound ready.known
  refine ⟨ready.of_tiled sound accepted hb ?_, fun _ => stands.1.steady ?_⟩
  · have hd : depthAfter s.size (v.code ++ drop v.ty.size) = s.size := by
      have := small.known known
      rw [depthAfter_append, coded.depthAfter_eq small]
      unfold drop
      split
      · rw [depthAfter_nil]
        omega
      · rw [depthAfter_cons, Instruction.effect_pop (by omega), depthAfter_nil]
        omega
    simp only [Scene.after, hd]
    exact ready.tiled
  · intro i hi
    rcases List.mem_append.mp hi with hi | hi
    · exact straight_expression hv i hi
    · exact straight_drop _ i hi

theorem level_block (sound : env.Sound) (fit : DepthsFit code) (position : Position)
    (body : List Stmt) (ih : LevelAll env notes code body) :
    Level env notes code (.block position body) := by
  intro scopes after s b accepted ready hb stands
  obtain ⟨⟨inner, acceptedBody⟩, rfl⟩ := id accepted
  obtain ⟨c, hc, rfl⟩ := statement_block hb
  obtain ⟨hsize, hframes, steady⟩ := ih.closed fit ready acceptedBody hc stands
  refine ⟨ready.of_tiled sound accepted hb ?_, steady⟩
  rw [hsize, hframes]
  exact ready.tiled

theorem level_branch (sound : env.Sound) (small : env.Small) (fit : DepthsFit code)
    (position : Position) (condition : Expr) (body : List Stmt)
    (ih : LevelAll env notes code body) :
    Level env notes code (.branch position condition body none) := by
  intro scopes after s b accepted ready hb stands
  obtain ⟨tested, ⟨inner, acceptedBody⟩, rfl⟩ := id accepted
  have follows := (follows_statement_all env notes).1 _ _ _ hb
  obtain ⟨v, c, hv, hc, rfl⟩ := statement_branch hb
  have hg := ready.size_guarded sound small tested hv
  obtain ⟨hsize, hframes, steady⟩ := ih.closed fit (ready.guarded sound small tested hv)
    acceptedBody hc (stands.right (follows_guarded s v _))
  refine ⟨ready.of_tiled sound accepted hb ?_, ?_⟩
  · dsimp only
    rw [hsize, hg, hframes]
    exact ready.tiled
  · intro short
    refine SteadyFrom.trans (stands.left.steady_guarded short hv ?_ ?_) (steady short)
    · exact follows.1 ▸ stands.1.le
    · rw [stands.depth_eq follows, hsize]

theorem level_branchElse (sound : env.Sound) (small : env.Small) (fit : DepthsFit code)
    (position : Position) (condition : Expr) (body otherwise : List Stmt)
    (ihb : LevelAll env notes code body) (iho : LevelAll env notes code otherwise) :
    Level env notes code (.branch position condition body (some otherwise)) := by
  intro scopes after s b accepted ready hb stands
  obtain ⟨tested, ⟨inner, acceptedBody⟩, ⟨outer, acceptedOther⟩, rfl⟩ := id accepted
  obtain ⟨v, c, d, hv, hc, hd, rfl⟩ := statement_branchElse hb
  obtain ⟨standsBody, liesJump, standsOther, hfront, hframes⟩ :=
    stands.bodies ihb sound small fit ready tested acceptedBody hv hc rfl
  have hg := ready.size_guarded sound small tested hv
  obtain ⟨-, -, steadyBody⟩ :=
    ihb.closed fit (ready.guarded sound small tested hv) acceptedBody hc standsBody
  obtain ⟨hsizeOther, hframesOther, steadyOther⟩ :=
    iho.closed fit (ready.of_eq hfront hframes) acceptedOther hd standsOther
  have followsOther := ((follows_statement_all env notes).2 _ _ _ hd).closed
  refine ⟨ready.of_tiled sound accepted hb ?_, ?_⟩
  · dsimp only
    rw [hsizeOther, hfront, hframesOther]
    exact hframes ▸ ready.tiled
  · intro short
    refine SteadyFrom.trans (stands.left.left.steady_guarded short hv ?_ ?_)
      ((steadyBody short).trans (SteadyFrom.trans
        (liesJump.steady_jump short ?_ ?_) (steadyOther short)))
    · have := standsOther.1.le
      omega
    · rw [standsOther.2, hfront, hg]
    · exact followsOther.1 ▸ standsOther.1.le
    · have hj : (closed c).2.position + 1 =
        ((closed c).2.after [jump false 0] (closed c).2.pool).position := rfl
      rw [hj, standsOther.2]
      exact (standsOther.depth_eq followsOther).trans hsizeOther

theorem level_loop (sound : env.Sound) (small : env.Small) (fit : DepthsFit code)
    (position : Position) (condition : Expr) (body : List Stmt)
    (ih : LevelAll env notes code body) :
    Level env notes code (.loop position condition body) := by
  intro scopes after s b accepted ready hb stands
  obtain ⟨tested, ⟨inner, acceptedBody⟩, rfl⟩ := id accepted
  have follows := (follows_statement_all env notes).1 _ _ _ hb
  obtain ⟨v, c, hv, hc, rfl⟩ := statement_loop hb
  have hg := ready.size_guarded sound small tested hv
  have followsBody := ((follows_statement_all env notes).2 _ _ _ hc).closed
  have hdepth := stands.depth_eq follows
  have hend : (closed c).2.position + 1 ≤ code.length := by
    have := stands.1.le
    rw [← follows.1] at this
    exact this
  dsimp only at stands
  rw [List.append_assoc] at stands
  have standsBody := stands.right (follows_guarded s v _)
  obtain ⟨hsize, hframes, steady⟩ := ih.closed fit (ready.guarded sound small tested hv)
    acceptedBody hc standsBody.left
  have standsJump := standsBody.right followsBody
  have hafter : ((closed c).2.after [jump false s.position] (closed c).2.pool).size = s.size := by
    rw [← hg, ← hsize]
    simp [Scene.after]
  refine ⟨ready.of_tiled sound accepted hb ?_, ?_⟩
  · dsimp only
    rw [hafter]
    exact hframes ▸ ready.tiled
  · intro short
    refine SteadyFrom.trans (stands.left.steady_guarded short hv ?_ ?_)
      ((steady short).trans (standsJump.1.steady_jump short ?_ ?_))
    · exact hend
    · rw [hdepth, hafter, hg]
    · have := stands.1.le
      omega
    · exact stands.2.trans (hafter.symm.trans hdepth.symm)

/-- In the code of accepted statements the frames stay tiled and every jump is steady. -/
theorem level_statement_all (sound : env.Sound) (small : env.Small) (fit : DepthsFit code) :
    (∀ stmt, Level env notes code stmt) ∧ ∀ body, LevelAll env notes code body := by
  have still : ∀ (stmt : Stmt) (i : Instruction), i.effect = (0, 0) → i.target? = none →
      (∀ s, statement env notes s stmt = some ([i], s.after [i] s.pool)) →
      (∀ scopes after, Typing.Accepted env notes scopes stmt after → after = scopes) →
      Level env notes code stmt := by
    intro stmt i he ht hcode hscopes scopes after s b accepted ready hb stands
    cases (hcode s).symm.trans hb
    refine ⟨ready.of_tiled sound accepted hb ?_, fun _ => stands.1.steady (by simpa using ht)⟩
    simpa [Scene.after, he] using ready.tiled
  have cases : Stmt.Cases (Level env notes code) (LevelAll env notes code) := {
    declare := level_declare sound small
    assign := level_assign sound small
    discard := level_discard sound small
    block := level_block sound fit
    branch := level_branch sound small fit
    branchElse := level_branchElse sound small fit
    loop := level_loop sound small fit
    halt := fun _ c => still _ (.halt c) rfl rfl (fun _ => rfl) fun _ _ h => h
    debug := fun _ => still _ (.plain .debug) rfl rfl (fun _ => rfl) fun _ _ h => h
    nil := by
      intro scopes after s b accepted ready hb _
      cases hb
      cases accepted
      exact ⟨ready, fun _ index hl hr => absurd hr (by simpa using hl)⟩
    cons := by
      intro stmt rest ihs ihr scopes after s b accepted ready hb stands
      obtain ⟨middle, acceptedOne, acceptedRest⟩ := accepted
      obtain ⟨c, d, hc, hd, rfl⟩ := statements_cons hb
      obtain ⟨readyMiddle, steady⟩ := ihs _ _ _ _ acceptedOne ready hc stands.left
      have standsRest := stands.right ((follows_statement_all env notes).1 _ _ _ hc)
      obtain ⟨readyEnd, steadyRest⟩ := ihr _ _ _ _ acceptedRest readyMiddle hd standsRest
      exact ⟨readyEnd, fun short => (steady short).trans (steadyRest short)⟩ }
  exact ⟨cases.one, cases.all⟩

end Lowering

end Bytescript
