import Mathlib
import Bytescript.Proofs.Annotation
import Bytescript.Proofs.Sites

/-!
# The code of expressions keeps truth values

A stretch of code is marked if it has an annotation that is right at all points in it. The code of
an accepted expression leaves a value with the marks of its type above the variables. Truth values
come from literals, from variables and from operators; no conversion produces one. In front of every
operation the operands have the marks of their type.
-/
namespace Bytescript

open Evaluation

abbrev Points := Site → Assembly → Prop

/-- The marks at a point are right: at a boundary every truth value in a variable is marked, in
front of an operation the operands on top have the marks of their type. -/
def Site.Shown (script : Script) (marks : Marks) (c : Assembly) : Site → Prop
  | .boundary => ∀ f ∈ c.frames, ∀ v ∈ f.declared, ∀ n, TruthAt v.ty n →
      marks[v.offset + n]? = some true
  | .operator o => script.code.toList[c.position]? = some (Lowering.operation o.opcode o.operand) ∧
      ∃ front, marks = front ++ (List.replicate o.operands o.operand.marks).flatten

/-- A stretch of code has an annotation from some marks to others that is right at some points, all
of which are in the stretch. -/
def Marked (script : Script) (exits : Exits) (start stop : Nat) (before after : Marks)
    (points : Points) : Prop :=
  ∃ A : Annotation, A.Covers script exits start stop before after ∧ ∀ k c, points k c →
    start ≤ c.position ∧ c.position ≤ stop ∧ k.Shown script (A c.position) c

def Points.none : Points := fun _ _ => False

namespace Marked

variable {script : Script} {exits : Exits} {start middle stop : Nat} {before between after : Marks}
  {points more : Points}

theorem nil (script : Script) (exits : Exits) (place : Nat) (marks : Marks) :
    Marked script exits place place marks marks .none :=
  ⟨_, .nil script exits place marks, fun _ _ => False.elim⟩

open Annotation in
theorem append (h : Marked script exits start middle before between points)
    (g : Marked script exits middle stop between after more) :
    Marked script exits start stop before after fun k c => points k c ∨ more k c := by
  obtain ⟨A, covers, shown⟩ := h
  obtain ⟨B, covers', shown'⟩ := g
  refine ⟨A.join middle B, covers.append covers', ?_⟩
  rintro k c (hp | hp)
  · obtain ⟨hl, hr, hs⟩ := shown k c hp
    have same : A middle = B middle := covers.last.trans covers'.first.symm
    rw [join_of_le same hr]
    exact ⟨hl, hr.trans covers'.le, hs⟩
  · obtain ⟨hl, hr, hs⟩ := shown' k c hp
    rw [join_of_ge A B hl]
    exact ⟨covers.le.trans hl, hr, hs⟩

theorem settle {others : Exits} (h : Marked script exits start stop before after points)
    (ends : ∀ j marks, exits j marks →
      j = start ∧ marks = before ∨ j = stop ∧ marks = after ∨ others j marks) :
    Marked script others start stop before after points := by
  obtain ⟨A, covers, shown⟩ := h
  refine ⟨A, covers.settle fun j marks he => ?_, shown⟩
  rcases ends j marks he with ⟨rfl, rfl⟩ | ⟨rfl, rfl⟩ | ho
  · exact Or.inl ⟨Nat.le_refl _, covers.le, covers.first⟩
  · exact Or.inl ⟨covers.le, Nat.le_refl _, covers.last⟩
  · exact Or.inr ho

theorem of_none (h : Marked script .none start stop before after points) :
    Marked script exits start stop before after points :=
  h.settle fun _ _ => False.elim

theorem points_of (h : Marked script exits start stop before after points)
    (of : ∀ k c, more k c → points k c ∨ c.position = start ∧ k.Shown script before c) :
    Marked script exits start stop before after more := by
  obtain ⟨A, covers, shown⟩ := h
  refine ⟨A, covers, fun k c hc => ?_⟩
  rcases of k c hc with hp | ⟨rfl, hs⟩
  · exact shown k c hp
  · exact ⟨Nat.le_refl _, covers.le, covers.first.symm ▸ hs⟩

theorem of_carries {i : Instruction} (lies : Lies script.code.toList start [i])
    (straight : i.target? = none) (h : i.Carries script.data before after) :
    Marked script exits start (start + 1) before after .none :=
  ⟨_, Annotation.covers_of_carries lies straight h, fun _ _ => False.elim⟩

end Marked

namespace Instruction

variable {data : Bytes} {base marks top : Marks} {x : Bytes} {n w : Nat} {p q : Primitive}

theorem carries_pushData (hn : n < 4294967296) (hw : w < 65536)
    (hd : Bytes.slice? data n w = some x) (hx : Respects marks x) :
    (sized .pushData w n).Carries data base (base ++ marks) :=
  carries_of_turns fun _ bs hb => ⟨bs ++ x, turns_pushData hn hw hd, hb.append hx⟩

theorem carries_pushHandle (hn : n < 4294967296) (hd : n < data.length) :
    (worded .pushHandle n).Carries data base (base ++ List.replicate handleSize false) := by
  refine carries_of_turns fun _ _ hb => ⟨_, turns_pushHandle hn hd, hb.append ?_⟩
  have unmarked := respects_unmarked (Bytes.ofNat 8 n)
  rwa [Bytes.length_ofNat] at unmarked

theorem carries_pushStack (hn : n < 4294967296) (hw : w < 65536) (hle : n + w ≤ base.length)
    (slice : (base.drop n).take w = marks) :
    (sized .pushStack w n).Carries data base (base ++ marks) :=
  carries_of_turns fun _ bs hb => ⟨bs ++ part bs n w,
    turns_pushStack hn hw (hb.length_eq ▸ hle), hb.append (slice ▸ hb.part n w)⟩

theorem carries_pushZero (hn : marks.length < 4294967296) :
    (worded .pushZero marks.length).Carries data base (base ++ marks) :=
  carries_of_turns fun _ _ hb => ⟨_, turns_pushZero hn, hb.append (respects_zeros marks)⟩

theorem carries_pop (hn : top.length < 4294967296) :
    (worded .pop top.length).Carries data (base ++ top) base := by
  refine carries_of_turns fun _ bs hb => ?_
  obtain ⟨low, high, rfl, hlow, hhigh⟩ := hb.split
  exact ⟨low, hhigh.length_eq ▸ turns_pop (hhigh.length_eq ▸ hn), hlow⟩

/-- An assignment of a value with the marks of the place that is assigned. -/
theorem carries_assign (hn : n < 4294967296) (hw : top.length < 65536)
    (hle : n + top.length ≤ base.length) (slice : (base.drop n).take top.length = top) :
    (sized .assign top.length n).Carries data (base ++ top) base := by
  refine carries_of_turns fun _ bs hb => ?_
  obtain ⟨low, high, rfl, hlow, hhigh⟩ := hb.split
  have hlen := hhigh.length_eq
  refine ⟨Bytes.overwrite low n high, hlen ▸ turns_assign hn (hlen ▸ hw) ?_, hlow.overwrite ?_⟩
  · rw [← hlow.length_eq, ← hlen]
    exact hle
  · rw [← hlen, slice]
    exact hhigh

theorem carries_binary {op : BinaryOp} (accepted : Typing.accepts op p) :
    (Lowering.operation (Generate.binaryOpcode op p) p).Carries data
      (base ++ p.marks ++ p.marks) (base ++ resultMarks op p) := by
  intro capacity bs hb
  obtain ⟨rest, y, rfl, hrest, hy⟩ := hb.split
  obtain ⟨low, x, rfl, hlow, hx⟩ := hrest.split
  have hxl : x.length = p.size := by simp [← hx.length_eq, Primitive.marks]
  have hyl : y.length = p.size := by simp [← hy.length_eq, Primitive.marks]
  cases hz : Evaluation.binary op p x y with
  | error e =>
    exact (Lowering.faults_binary op hxl hyl hz).2.unless_fault fun _ _ => False.elim
  | ok z =>
    refine (Lowering.turns_binary op hxl hyl hz).unless_fault ?_
    rintro flow t ⟨rfl, rfl⟩
    exact ⟨rfl, hlow.append (respects_binary accepted hx hy hz)⟩

theorem carries_unary {op : UnaryOp} (accepted : Typing.acceptsUnary op p) :
    (Lowering.operation (Generate.unaryOpcode op p) p).Carries data (base ++ p.marks)
      (base ++ p.marks) := by
  refine carries_of_turns fun _ bs hb => ?_
  obtain ⟨low, x, rfl, hlow, hx⟩ := hb.split
  have hxl : x.length = p.size := by simp [← hx.length_eq, Primitive.marks]
  exact ⟨_, Lowering.turns_unary op hxl, hlow.append (respects_unary accepted hx)⟩

theorem carries_convert {c : Conversion} (suits : c.Suits p q) {i : Instruction}
    (hi : c.instruction? p q = some i) (hq : q ≠ .bool) :
    i.Carries data (base ++ p.marks) (base ++ q.marks) := by
  refine carries_of_turns fun _ bs hb => ?_
  obtain ⟨low, x, rfl, hlow, hx⟩ := hb.split
  have hxl : x.length = p.size := by simp [← hx.length_eq, Primitive.marks]
  exact ⟨_, Conversion.turns_convert suits hi hxl,
    hlow.append (respects_of_ne_bool hq (length_convert suits))⟩

end Instruction

namespace Typing

variable {env : Environment} {notes : Notes} {scopes : Scopes} {frames : List Frame} {pool : Pool}
  {e : Expr} {v : Lowering.Value} {script : Script} {exits : Exits} {ip : Nat} {base : Marks}
  {points : Points} {texts : String → Option Nat}

/-- The bytes of a literal have the marks of its type. -/
theorem respects_literal {core : CoreTypes} {value : Literal} {note : Note} {p : Primitive}
    {bits : BitVec (8 * p.size)} (rule : literalNote core value = .ok note)
    (constant : note.constant = some (.primitive p bits)) :
    Respects p.marks (Bytes.ofWord bits) := by
  have other : p ≠ .bool → Respects p.marks (Bytes.ofWord bits) :=
    fun hp => respects_of_ne_bool hp (length_ofWord bits)
  cases value with
  | bool b =>
    cases rule
    cases constant
    cases b
    · exact .cons (fun _ => by decide) .nil
    · exact .cons (fun _ => by decide) .nil
  | integer digits negative =>
    simp only [literalNote] at rule
    split at rule <;> cases rule
    simp only [Constant.ofNumeral, Option.ite_none_right_eq_some] at constant
    obtain ⟨isInteger, ⟨⟩⟩ := constant
    refine other fun hp => ?_
    rw [hp] at isInteger
    cases isInteger
  | float text negative =>
    simp only [literalNote] at rule
    split at rule <;> cases rule
    simp only [Note.ofConstant, Constant.ofFloat, Option.ite_none_right_eq_some] at constant
    obtain ⟨isFloat, ⟨⟩⟩ := constant
    refine other fun hp => ?_
    rw [hp] at isFloat
    cases isFloat
  | char text =>
    simp only [literalNote] at rule
    split at rule <;> cases rule
    cases constant
    exact other (by decide)
  | text value =>
    cases rule
    cases constant

/-- A coercion, if a note has one, is not to truth values. -/
def Plain (note : Note) : Prop := ∀ k ∈ note.coercion, k.target.primitive? ≠ some .bool

theorem plain_none {note : Note} : Plain { note with coercion := none } := by
  intro k hk
  cases hk

theorem plain_asked {note : Note} {target : Ty} {c : Conversion}
    (h : target.primitive? = some .bool → c = .unneeded) :
    Plain { note with coercion := asked target c } := by
  intro k hk hb
  obtain ⟨rfl, needed⟩ := asked_target hk
  exact needed (h hb)

theorem marked_coercion {note : Note} (suited : Suited note) (plain : Plain note)
    {cs : List Instruction} (hc : Lowering.coercion note = some cs)
    (lies : Lies script.code.toList ip cs) :
    Marked script exits ip (ip + cs.length) (base ++ note.ty.marks)
      (base ++ note.finalType.marks) .none := by
  unfold Lowering.coercion at hc
  unfold Note.finalType
  cases hk : note.coercion with
  | none =>
    rw [hk] at hc
    cases hc
    exact .nil ..
  | some k =>
    obtain ⟨p, q, hp, hq, suits⟩ := suited k hk
    obtain ⟨i, hi⟩ := suits.instruction?
    simp only [hk, hp, hq, Option.bind_some, Option.map_some, hi, Option.toList_some,
      Option.some.injEq] at hc
    subst hc
    have hne : q ≠ .bool := by
      rintro rfl
      exact plain k hk hq
    rw [Ty.marks_of_primitive? hp]
    change Marked _ _ _ _ _ (base ++ k.target.marks) _
    rw [Ty.marks_of_primitive? hq]
    exact .of_carries lies (Conversion.target?_instruction hi)
      (Instruction.carries_convert suits hi hne)

theorem marked_settled {note : Note} (suited : Suited note) (plain : Plain note)
    {b : Lowering.Value} (settled : Lowering.settle note b = some v) (hb : b.ty = note.ty)
    (lies : Lies script.code.toList ip v.code) {stop : Nat} (hs : stop = ip + b.code.length)
    (front : Marked script exits ip stop base (base ++ note.ty.marks) points) :
    Marked script exits ip (ip + v.code.length) base (base ++ v.ty.marks) points := by
  subst hs
  rw [Coded.settled_ty settled hb]
  obtain ⟨cs, hc, rfl⟩ := Option.map_eq_some_iff.mp settled
  rw [List.length_append, ← Nat.add_assoc]
  exact (front.append (marked_coercion suited plain hc lies.right)).points_of
    fun k c hp => Or.inl (Or.inl hp)

def computing (notes : Notes) (e : Expr) (ip : Nat) (frames : List Frame) (pool : Pool) : Points :=
  fun k c => ∃ a o, a.position = ip ∧ a.frames = frames ∧ a.pool = pool ∧ k = .operator o ∧
    Generate.Applies notes e a o c

theorem Coded.behind (h : Coded env notes scopes frames pool e v) {a b : Assembly} {slot : Slot}
    (low : pool.mark < wordLimit) (hp : a.position = ip) (hf : a.frames = frames)
    (hq : a.pool = pool) (run : Generate.expression notes e a = .ok (slot, b)) :
    slot.ty = v.ty ∧ b.position = ip + v.code.length ∧ b.frames = frames ∧ b.pool = v.pool := by
  subst hp hf hq
  obtain ⟨ty, -, rfl⟩ := Generate.expression_eq low h.lowered run
  exact ⟨ty, congrArg Scene.position (Assembly.scene_appended ..), rfl, rfl⟩

/-- The marks of an operation's result are those of its type. -/
theorem marks_binaryType (sound : env.Sound) {op : BinaryOp} {t : Ty} {p : Primitive}
    (h : t.primitive? = some p) : (binaryType env.core op t).marks = resultMarks op p := by
  have bool : env.core.bool.primitive? = some .bool := by
    rw [CoreTypes.bool, sound.primitive]
    rfl
  unfold binaryType resultMarks
  cases op.opClass with
  | equality | ordering => exact Ty.marks_of_primitive? bool
  | arithmetic | bitwise | logical => exact Ty.marks_of_primitive? h

theorem plain_unified {op : BinaryOp} {l r : Note} {u : Unified}
    (rule : binaryOperands op l r = .ok u) :
    Plain { l with coercion := asked u.result u.left } ∧
      Plain { r with coercion := asked u.result u.right } := by
  obtain ⟨-, -, -, -, -, -, -, hu⟩ := binaryOperands_ok rule
  rcases Operand.unify_ok hu with ⟨hr, hleft, hright, possible⟩ | ⟨hr, hleft, hright, possible⟩
  · refine ⟨plain_asked fun _ => hleft, plain_asked fun hb => ?_⟩
    rw [hr] at hb
    rw [hright] at possible ⊢
    exact Operand.conversionTo_bool hb possible
  · refine ⟨plain_asked fun hb => ?_, plain_asked fun _ => hright⟩
    rw [hr] at hb
    rw [hleft] at possible ⊢
    exact Operand.conversionTo_bool hb possible

theorem carries_literal {value : Literal} {note : Note} {k : Constant}
    (rule : literalNote env.core value = .ok note) (constant : note.constant = some k)
    (stored : Stored k note.ty) (data : script.data.length ≤ 4294967296)
    (holding : Holding script.data texts (Lowering.literal pool k note.ty).pool) :
    ∃ i, (Lowering.literal pool k note.ty).code = [i] ∧ i.target? = none ∧
      i.Carries script.data base (base ++ note.ty.marks) := by
  obtain ⟨hd, -⟩ := holding k _ (Pool.find?_store_self pool k)
  have hsize : (pool.store k).1 + k.size ≤ script.data.length := by
    by_contra hlt
    simp [Bytes.slice?, hlt] at hd
  rcases literal_code pool stored with ⟨p, bits, rfl, -, hcode⟩ | ⟨text, rfl, -, hcode⟩
  · have hpos := p.word_width.1
    have hle := p.size_le
    simp only [Constant.size] at hsize
    rw [Ty.marks_of_primitive? stored]
    exact ⟨_, hcode, Instruction.target?_eq_none (Instruction.opcode?_sized ..) (by decide),
      Instruction.carries_pushData (by omega) (by omega) hd (respects_literal rule constant)⟩
  · simp only [Constant.size] at hsize
    rw [Ty.marks_of_isHandle stored]
    exact ⟨_, hcode, Instruction.target?_eq_none (Instruction.opcode?_worded ..) (by decide),
      Instruction.carries_pushHandle (by omega) (by omega)⟩

theorem carries_place (marking : env.Marking) (small : env.Small) (known : KnownScopes env scopes)
    (agree : Agree frames scopes) {n : Nat} (tiled : Tiled frames n) (hn : n < 4294967296)
    (bottom : frameMarks frames <+: base) {p : Place} {offset : Nat} {ty : Ty}
    (found : Lowering.place? frames p = some (offset, ty)) (knownType : env.Known ty)
    (data : Bytes) :
    (Instruction.sized .pushStack ty.size offset).Carries data base (base ++ ty.marks) := by
  obtain ⟨hle, slice⟩ := tiled.marks_place marking known agree found
  obtain ⟨top, rfl⟩ := bottom
  have hlen := tiled.length_marks
  refine Instruction.carries_pushStack (by omega) (small.known knownType) ?_ ?_
  · rw [List.length_append]
    omega
  · rw [List.drop_append_of_le_length (by omega),
      List.take_append_of_le_length (by rw [List.length_drop]; omega), slice]

theorem marked_literal {mark : Mark} {value : Literal} {note : Note} {c : Option Coercion}
    {k : Constant} (rule : literalNote env.core value = .ok note)
    (constant : note.constant = some k) (stored : Stored k note.ty)
    (suited : Suited { note with coercion := c }) (plain : Plain { note with coercion := c })
    (settled : Lowering.settle { note with coercion := c } (Lowering.literal pool k note.ty) =
      some v)
    (data : script.data.length ≤ 4294967296) (holding : Holding script.data texts v.pool)
    (lies : Lies script.code.toList ip v.code) :
    Marked script exits ip (ip + v.code.length) base (base ++ v.ty.marks)
      (computing notes (.literal mark value) ip frames pool) := by
  have holding := holding.of_grows (Lowering.grows_settle settled (.refl _))
  obtain ⟨i, hcode, straight, carries⟩ :
      ∃ i, (Lowering.literal pool k note.ty).code = [i] ∧ i.target? = none ∧
        i.Carries script.data base (base ++ note.ty.marks) :=
    carries_literal rule constant stored data holding
  obtain ⟨cs, -, rfl⟩ := Option.map_eq_some_iff.mp settled
  have front : Marked script exits ip (ip + 1) base (base ++ note.ty.marks) .none :=
    .of_carries (hcode ▸ lies.left) straight carries
  refine (marked_settled suited plain settled rfl lies (by rw [hcode]; rfl) front).points_of ?_
  rintro k c ⟨a, o, -, -, -, -, ⟨⟩⟩

theorem marked_place (isPlace : e.isPlace) {note : Note} {offset : Nat}
    (carries : (Instruction.sized .pushStack note.ty.size offset).Carries script.data base
      (base ++ note.ty.marks)) (suited : Suited note) (plain : Plain note)
    (settled : Lowering.settle note
      ⟨note.ty, [.sized .pushStack note.ty.size offset], pool⟩ = some v)
    (lies : Lies script.code.toList ip v.code) :
    Marked script exits ip (ip + v.code.length) base (base ++ v.ty.marks)
      (computing notes e ip frames pool) := by
  obtain ⟨cs, -, rfl⟩ := Option.map_eq_some_iff.mp settled
  have straight := Instruction.target?_eq_none
    (Instruction.opcode?_sized .pushStack note.ty.size offset) (by decide)
  refine (marked_settled suited plain settled rfl lies rfl
    (.of_carries lies.left straight carries)).points_of ?_
  rintro k c ⟨a, o, -, -, -, -, applies⟩
  cases applies <;> cases isPlace

/-- An operation behind its operands. -/
theorem marked_operation {o : Operator} {start : Nat} {after : Marks}
    (lies : Lies script.code.toList start [Lowering.operation o.opcode o.operand])
    (straight : (Lowering.operation o.opcode o.operand).target? = none)
    (carries : (Lowering.operation o.opcode o.operand).Carries script.data
      (base ++ (List.replicate o.operands o.operand.marks).flatten) after) :
    Marked script exits start (start + 1)
      (base ++ (List.replicate o.operands o.operand.marks).flatten) after
      fun k c => k = .operator o ∧ c.position = start := by
  refine (Marked.of_carries lies straight carries).points_of ?_
  rintro k c ⟨rfl, hc⟩
  exact Or.inr ⟨hc, hc ▸ lies.head, base, rfl⟩

theorem marked_binary {mark : Mark} {op : BinaryOp} {left right : Expr} {note : Note}
    {l r : Lowering.Value} {p : Primitive} (codedLeft : Coded env notes scopes frames pool left l)
    (codedRight : Coded env notes scopes frames l.pool right r)
    (low : l.pool.mark < wordLimit) (leftType : l.ty.primitive? = some p)
    (rightType : r.ty.primitive? = some p) (accepted : accepts op p)
    (result : note.ty.marks = resultMarks op p)
    (suited : Suited note) (plain : Plain note)
    (settled : Lowering.settle note ⟨note.ty,
      l.code ++ r.code ++ [Lowering.operation (Generate.binaryOpcode op p) p], r.pool⟩ = some v)
    (lies : Lies script.code.toList ip v.code)
    (onLeft : Marked script exits ip (ip + l.code.length) base (base ++ l.ty.marks)
      (computing notes left ip frames pool))
    (onRight : Marked script exits (ip + l.code.length) (ip + l.code.length + r.code.length)
      (base ++ l.ty.marks) (base ++ l.ty.marks ++ r.ty.marks)
      (computing notes right (ip + l.code.length) frames l.pool)) :
    Marked script exits ip (ip + v.code.length) base (base ++ v.ty.marks)
      (computing notes (.binary mark op left right) ip frames pool) := by
  obtain ⟨cs, -, rfl⟩ := Option.map_eq_some_iff.mp settled
  have liesOperation := lies.left.right
  rw [List.length_append, ← Nat.add_assoc] at liesOperation
  rw [Ty.marks_of_primitive? leftType] at onLeft onRight
  rw [Ty.marks_of_primitive? rightType] at onRight
  have both : base ++ p.marks ++ p.marks = base ++ (List.replicate 2 p.marks).flatten := by
    simp [List.replicate]
  have operation : Marked script exits _ _ _ _ _ :=
    marked_operation (o := ⟨Generate.binaryOpcode op p, 2, p⟩) liesOperation
      (Lowering.target?_binary op p) (both ▸ Instruction.carries_binary accepted)
  rw [← both, ← result] at operation
  refine (marked_settled suited plain settled rfl lies (by simp [Nat.add_assoc])
    ((onLeft.append onRight).append operation)).points_of ?_
  rintro k c ⟨a, o, hp, hf, hq, rfl, applies⟩
  refine Or.inl ?_
  cases applies with
  | binary hl hr operand =>
    obtain ⟨ty, hpl, hfl, hql⟩ := codedLeft.behind (codedLeft.grows.mark_lt low) hp hf hq hl
    obtain ⟨-, hpr, -, -⟩ := codedRight.behind low hpl hfl hql hr
    rw [ty, leftType] at operand
    cases operand
    exact Or.inr ⟨rfl, hpr⟩
  | left h => exact Or.inl (Or.inl ⟨a, o, hp, hf, hq, rfl, h⟩)
  | right hl h =>
    obtain ⟨-, hpl, hfl, hql⟩ := codedLeft.behind (codedLeft.grows.mark_lt low) hp hf hq hl
    exact Or.inl (Or.inr ⟨_, o, hpl, hfl, hql, rfl, h⟩)

theorem marked_unary {mark : Mark} {op : UnaryOp} {operand : Expr} {note : Note}
    {w : Lowering.Value} {p : Primitive} (coded : Coded env notes scopes frames pool operand w)
    (low : pool.mark < wordLimit)
    (innerType : w.ty.primitive? = some p) (accepted : acceptsUnary op p) (suited : Suited note)
    (plain : Plain note) (result : note.ty.primitive? = some p)
    (settled : Lowering.settle note ⟨note.ty,
      w.code ++ [Lowering.operation (Generate.unaryOpcode op p) p], w.pool⟩ = some v)
    (lies : Lies script.code.toList ip v.code)
    (inner : Marked script exits ip (ip + w.code.length) base (base ++ w.ty.marks)
      (computing notes operand ip frames pool)) :
    Marked script exits ip (ip + v.code.length) base (base ++ v.ty.marks)
      (computing notes (.unary mark op operand) ip frames pool) := by
  obtain ⟨cs, -, rfl⟩ := Option.map_eq_some_iff.mp settled
  rw [Ty.marks_of_primitive? innerType, ← Ty.marks_of_primitive? result] at inner
  have one : p.marks = (List.replicate 1 p.marks).flatten := by simp
  have operation : Marked script exits _ _ (base ++ _) _ _ :=
    marked_operation (o := ⟨Generate.unaryOpcode op p, 1, p⟩) lies.left.right
      (Lowering.target?_unary op p) (one ▸ Instruction.carries_unary accepted)
  rw [← one, ← Ty.marks_of_primitive? result] at operation
  refine (marked_settled suited plain settled rfl lies (by simp [Nat.add_assoc])
    (inner.append operation)).points_of ?_
  rintro k c ⟨a, o, hp, hf, hq, rfl, applies⟩
  refine Or.inl ?_
  cases applies with
  | unary h operand =>
    obtain ⟨ty, hpw, -, -⟩ := coded.behind low hp hf hq h
    rw [ty, innerType] at operand
    cases operand
    exact Or.inr ⟨rfl, hpw⟩
  | inner h => exact Or.inl ⟨a, o, hp, hf, hq, rfl, h⟩

/-- The code of an expression leaves a value with the marks of its type above the variables. -/
theorem Noted.marked {bare : Note} (h : Noted env scopes notes e bare) (marking : env.Marking)
    (small : env.Small) (known : KnownScopes env scopes) (agree : Agree frames scopes) {n : Nat}
    (tiled : Tiled frames n) (hn : n < 4294967296) (data : script.data.length ≤ 4294967296)
    {c : Option Coercion} (filed : notes.find? e.id = some { bare with coercion := c })
    (plain : Plain { bare with coercion := c }) (coded : Coded env notes scopes frames pool e v)
    (holding : Holding script.data texts v.pool) (low : v.pool.mark < wordLimit)
    (lies : Lies script.code.toList ip v.code) (bottom : frameMarks frames <+: base) :
    Marked script exits ip (ip + v.code.length) base (base ++ v.ty.marks)
      (computing notes e ip frames pool) := by
  induction h generalizing c pool v ip base with
  | literal rule =>
    cases coded with
    | place _ isPlace => cases isPlace
    | literal filed' constant stored suited settled =>
      cases filed.symm.trans filed'
      exact marked_literal rule constant stored suited plain settled data holding lies
  | «variable» | field =>
    cases coded with
    | place _ isPlace filed' _ _ found knownType suited settled =>
      cases filed.symm.trans filed'
      exact marked_place isPlace
        (carries_place marking small known agree tiled hn bottom found knownType script.data)
        suited plain settled lies
  | @binary mark op left right l r u onLeft filedLeft onRight filedRight rule ihl ihr =>
    cases coded with
    | place _ isPlace => cases isPlace
    | @binary _ _ _ _ _ _ lv rv _ p filed' codedLeft codedRight leftType rightType accepted _
        suited settled =>
      cases filed.symm.trans filed'
      obtain ⟨s, hs, -, ⟨-, finalLeft⟩, -⟩ := Noted.unified marking.sound known onLeft onRight rule
      obtain ⟨plainLeft, plainRight⟩ := plain_unified rule
      obtain ⟨note, hnote, hty⟩ := codedLeft.ty_eq
      cases filedLeft.symm.trans hnote
      rw [hty, finalLeft] at leftType
      cases leftType
      have grows : rv.pool.Grows v.pool := Lowering.grows_settle settled (.refl _)
      have lowRight := grows.mark_lt low
      have holding' := holding.of_grows grows
      have liesOperands : Lies script.code.toList ip (lv.code ++ rv.code) := by
        obtain ⟨cs, -, rfl⟩ := Option.map_eq_some_iff.mp settled
        exact lies.left.left
      -- The right operand lies above the left one, with the variables still at the bottom.
      have lowLeft := codedRight.grows.mark_lt lowRight
      exact marked_binary codedLeft codedRight lowLeft (hty ▸ finalLeft) rightType accepted
        (marks_binaryType marking.sound hs) suited plain settled lies
        (ihl filedLeft plainLeft codedLeft (holding'.of_grows codedRight.grows) lowLeft
          liesOperands.left bottom)
        (ihr filedRight plainRight codedRight holding' lowRight liesOperands.right
          (bottom.trans (List.prefix_append ..)))
  | @unary mark op operand note ty inner inside rule ih =>
    cases coded with
    | place _ isPlace => cases isPlace
    | @unary _ _ _ _ _ w _ p filed' codedInner innerType accepted _ suited settled =>
      cases filed.symm.trans filed'
      obtain ⟨q, hq, -, rfl⟩ := unaryType_ok rule
      have inside' : notes.find? operand.id = some { note with coercion := none } := by
        rw [inside, ← inner.coercion_eq]
      obtain ⟨n, hnote, hty⟩ := codedInner.ty_eq
      cases inside'.symm.trans hnote
      have result : w.ty = note.ty := hty
      have liesInner : Lies script.code.toList ip w.code := by
        obtain ⟨cs, -, rfl⟩ := Option.map_eq_some_iff.mp settled
        exact lies.left.left
      have grows : w.pool.Grows v.pool := Lowering.grows_settle settled (.refl _)
      have lowInner := grows.mark_lt low
      exact marked_unary codedInner (codedInner.grows.mark_lt lowInner) innerType accepted suited
        plain (result ▸ innerType) settled lies
        (ih inside' plain_none codedInner (holding.of_grows grows) lowInner liesInner bottom)
  | @cast mark operand written note target inner inside resolved possible ih =>
    cases coded with
    | place _ isPlace => cases isPlace
    | @cast _ _ _ _ _ w _ filed' codedInner _ suited settled =>
      cases filed.symm.trans filed'
      have plainInner : Plain { note with
          coercion := asked target (Conversion.between note.ty target) } :=
        plain_asked fun hb => Conversion.between_bool hb possible
      obtain ⟨n, hnote, hty⟩ := codedInner.ty_eq
      cases inside.symm.trans hnote
      -- A cast that needs no conversion leaves the bytes, so both types must have the same marks.
      have same : w.ty.marks = target.marks := by
        rw [hty, finalType_asked]
        split
        · next hu =>
          exact marking.marks_eq_of_between (inner.known marking.sound known)
            (marking.sound.resolve resolved) hu
        · rfl
      have liesInner : Lies script.code.toList ip w.code := by
        obtain ⟨cs, -, rfl⟩ := Option.map_eq_some_iff.mp settled
        exact lies.left
      have grows : w.pool.Grows v.pool := Lowering.grows_settle settled (.refl _)
      have front := ih inside plainInner codedInner (holding.of_grows grows) (grows.mark_lt low)
        liesInner bottom
      rw [same] at front
      refine (marked_settled suited plain settled rfl lies rfl front).points_of ?_
      rintro k c ⟨a, o, hp, hf, hq, rfl, applies⟩
      cases applies with
      | cast h => exact Or.inl ⟨a, o, hp, hf, hq, rfl, h⟩

end Typing

end Bytescript
