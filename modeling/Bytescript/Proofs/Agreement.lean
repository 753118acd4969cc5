import Mathlib
import Bytescript.Compile
import Bytescript.Proofs.Acceptance
import Bytescript.Proofs.Generation

/-!
# Typing and generation agree

Typing keeps scopes and generation keeps frames; on accepted statements they hold the same names
with the same types. So an accepted statement has code, with one exception: a literal that is
coerced to a signed type through its second type although its own type is not primitive.
-/
namespace Bytescript

def Frame.scope (f : Frame) : List (String × Ty) := f.declared.reverse.map fun v => (v.name, v.ty)

/-- Frames hold the names and types of the scopes, no name twice in a frame. -/
structure Agree (frames : List Frame) (scopes : Typing.Scopes) : Prop where
  scopes_eq : scopes = frames.map Frame.scope
  nodup : ∀ f ∈ frames, (f.declared.map Variable.name).Nodup

namespace Agree

theorem lookup_reverse {vs : List Variable} (h : (vs.map Variable.name).Nodup) (name : String) :
    (vs.reverse.map fun v => (v.name, v.ty)).lookup name =
      (vs.find? fun v => v.name == name).map Variable.ty := by
  induction vs with
  | nil => rfl
  | cons v rest ih =>
    rw [List.map_cons, List.nodup_cons] at h
    rw [List.reverse_cons, List.map_append, List.lookup_append, ih h.2, List.find?_cons]
    by_cases hv : v.name = name
    · have hn : rest.find? (fun v => v.name == name) = none := by
        rw [List.find?_eq_none]
        intro u hu
        have : u.name ≠ v.name := fun e => h.1 (e ▸ List.mem_map_of_mem hu)
        simpa [hv] using this
      simp [hn, hv]
    · have hb : (v.name == name) = false := beq_false_of_ne hv
      have hb' : (name == v.name) = false := beq_false_of_ne fun e => hv e.symm
      simp [hb, List.lookup_cons, hb']

theorem lookup_scope {f : Frame} (h : (f.declared.map Variable.name).Nodup) (name : String) :
    f.scope.lookup name = (f.find? name).map Variable.ty :=
  lookup_reverse h name

theorem find? {frames : List Frame} {scopes : Typing.Scopes} (h : Agree frames scopes)
    (name : String) :
    scopes.find? name = (frames.findSome? fun f => f.find? name).map Variable.ty := by
  obtain ⟨rfl, nodup⟩ := h
  induction frames with
  | nil => rfl
  | cons f rest ih =>
    have hf := lookup_scope (nodup f (List.mem_cons_self ..)) name
    have hr := ih fun g hg => nodup g (List.mem_cons_of_mem _ hg)
    simp only [Typing.Scopes.find?, List.map_cons, List.findSome?_cons] at hr ⊢
    rw [hf]
    cases f.find? name with
    | none => exact hr
    | some v => rfl

theorem start : Agree Assembly.start.frames [[]] :=
  ⟨rfl, by simp [Assembly.start]⟩

theorem opened {frames : List Frame} {scopes : Typing.Scopes} (h : Agree frames scopes) (n : Nat) :
    Agree (⟨n, []⟩ :: frames) ([] :: scopes) := by
  obtain ⟨rfl, nodup⟩ := h
  refine ⟨rfl, fun f hf => ?_⟩
  rcases List.mem_cons.mp hf with rfl | hf
  · exact List.nodup_nil
  · exact nodup f hf

theorem define {s : Scene} {scopes after : Typing.Scopes} {name : String} {ty : Ty}
    (h : Agree s.frames scopes) (hd : Typing.Declares scopes name ty after) :
    ∃ t, Lowering.define s name ty = some t ∧ Agree t.frames after := by
  obtain ⟨inner, outer, hs, free, rfl⟩ := hd
  obtain ⟨position, size, frames, pool⟩ := s
  obtain ⟨heq, nodup⟩ := h
  cases frames with
  | nil =>
    rw [hs] at heq
    simp at heq
  | cons f rest =>
    rw [hs, List.map_cons, List.cons.injEq] at heq
    obtain ⟨rfl, rfl⟩ := heq
    have hf := nodup f (List.mem_cons_self ..)
    have hn : f.find? name = none := by
      rw [lookup_scope hf] at free
      simpa using free
    refine ⟨_, by simp only [Lowering.define, hn]; rfl, ?_, fun g hg => ?_⟩
    · simp [Frame.scope]
    · rcases List.mem_cons.mp hg with rfl | hg
      · rw [List.map_append, List.nodup_append]
        refine ⟨hf, by simp, ?_⟩
        intro a ha b hb
        obtain ⟨v, hv, rfl⟩ := List.mem_map.mp ha
        simp only [List.map_cons, List.map_nil, List.mem_singleton] at hb
        subst hb
        have := List.find?_eq_none.mp hn v hv
        simpa using this
      · exact nodup g (List.mem_cons_of_mem _ hg)

end Agree

theorem Assembly.followPath_append (path rest : List String) (offset : Nat) (ty : Ty) :
    followPath offset ty (path ++ rest) =
      (followPath offset ty path).bind fun found => followPath found.1 found.2 rest := by
  induction path generalizing offset ty with
  | nil => rfl
  | cons name path ih =>
    simp only [List.cons_append, followPath]
    cases ty.definition.field? name with
    | none => rfl
    | some field => exact ih _ _

namespace Typing

theorem fieldType_ok {owner ty : Ty} {name : String} (h : fieldType owner name = .ok ty) :
    ∃ field, owner.definition.field? name = some field ∧ field.ty = ty := by
  unfold fieldType at h
  split at h
  · next field hf =>
    cases h
    exact ⟨field, hf, rfl⟩
  · cases h

theorem pathType_ok {path : List String} {ty last : Ty} (h : pathType ty path = .ok last)
    (offset : Nat) : ∃ o, Assembly.followPath offset ty path = some (o, last) := by
  induction path generalizing ty offset with
  | nil =>
    cases h
    exact ⟨offset, rfl⟩
  | cons name rest ih =>
    simp only [pathType] at h
    split at h
    · cases h
    · split at h
      · cases h
      · next ht =>
        obtain ⟨field, hf, rfl⟩ := fieldType_ok ht
        simp only [Assembly.followPath, hf]
        exact ih h _

section

variable {env : Environment} {scopes : Scopes} {notes : Notes} {frames : List Frame}

theorem find?_eq_some (ha : Agree frames scopes) {name : String} {ty : Ty}
    (h : scopes.find? name = some ty) :
    ∃ v, (frames.findSome? fun f => f.find? name) = some v ∧ v.ty = ty := by
  rw [ha.find? name, Option.map_eq_some_iff] at h
  exact h

theorem placeType_ok (ha : Agree frames scopes) {place : Place} {ty : Ty}
    (h : placeType scopes place = .ok ty) :
    ∃ offset, Lowering.place? frames place = some (offset, ty) := by
  unfold placeType at h
  split at h
  · cases h
  · next t hf =>
    obtain ⟨v, hv, rfl⟩ := find?_eq_some ha hf
    obtain ⟨o, ho⟩ := pathType_ok h v.offset
    exact ⟨o, by simp [Lowering.place?, hv, ho]⟩

/-- A place expression has a place of its type among the frames. -/
theorem Noted.place {e : Expr} {note : Note} (h : Noted env scopes notes e note)
    (hp : e.isPlace) (ha : Agree frames scopes) :
    ∃ place offset, e.place? = some place ∧
      Lowering.place? frames place = some (offset, note.ty) := by
  induction h with
  | «variable» found =>
    obtain ⟨v, hv, rfl⟩ := find?_eq_some ha found
    exact ⟨_, v.offset, rfl, by simp [Lowering.place?, hv, Assembly.followPath, Note.ofType]⟩
  | @field mark target name owner ty place inner filed rule ih =>
    obtain ⟨p, offset, hp, ho⟩ := ih place
    obtain ⟨field, hf, rfl⟩ := fieldType_ok rule
    refine ⟨{ p with path := p.path ++ [name] }, offset + field.offset,
      by simp [Expr.place?, hp], ?_⟩
    simp only [Lowering.place?, Assembly.followPath_append] at ho ⊢
    rw [← Option.bind_assoc, ho]
    simp [Assembly.followPath, hf, Note.ofType]
  | literal _ => simp [Expr.isPlace] at hp
  | binary => simp [Expr.isPlace] at hp
  | unary => simp [Expr.isPlace] at hp
  | cast => simp [Expr.isPlace] at hp

theorem binaryOperands_ok {op : BinaryOp} {l r : Note} {u : Unified}
    (h : binaryOperands op l r = .ok u) :
    ∃ p q s, l.ty.primitive? = some p ∧ r.ty.primitive? = some q ∧
      u.result.primitive? = some s ∧ accepts op s ∧ l.operand.unify r.operand = .ok u := by
  unfold binaryOperands at h
  dsimp only at h
  split at h
  · next p q hp hq =>
    split at h
    · cases h
    · cases h
    · next v hu =>
      split at h
      · next s hs =>
        split at h
        · next ha =>
          cases h
          exact ⟨p, q, s, hp, hq, hs, ha, hu⟩
        · cases h
      · cases h
  · cases h

theorem unaryType_ok {op : UnaryOp} {operand ty : Ty} (h : unaryType op operand = .ok ty) :
    ∃ p, operand.primitive? = some p ∧ acceptsUnary op p ∧ ty = operand := by
  unfold unaryType at h
  split at h
  · next p hp =>
    split at h
    · next ha =>
      cases h
      exact ⟨p, hp, ha, rfl⟩
    · cases h
  · cases h

theorem numeral_type (n : Numeral) :
    (n.type.primary ∈ Primitive.unsignedTypes ∨
      n.type.primary ∈ Primitive.signedTypes ∧ n.type.secondary = none) ∧
    ∀ q ∈ n.type.secondary, q ∈ Primitive.signedTypes := by
  unfold Numeral.type
  split
  · refine ⟨Or.inr ⟨?_, rfl⟩, by simp⟩
    dsimp only
    generalize hs : List.find? _ _ = o
    cases o with
    | none => decide
    | some p => exact List.mem_of_find?_eq_some hs
  · dsimp only
    refine ⟨Or.inl ?_, fun q hq => List.mem_of_find?_eq_some hq⟩
    generalize hs : List.find? _ _ = o
    cases o with
    | none => decide
    | some p => exact List.mem_of_find?_eq_some hs

theorem isInteger_primary (n : Numeral) : n.type.primary.isInteger := by
  rcases (numeral_type n).1 with hp | ⟨hp, -⟩
  · revert hp
    cases n.type.primary <;> decide
  · revert hp
    cases n.type.primary <;> decide

theorem isFloat_of_parse {text : String} {negative : Bool} {x : FloatLiteral}
    (h : FloatLiteral.parse text negative = .ok x) : x.primitive.isFloat := by
  unfold FloatLiteral.parse at h
  split at h
  · cases h
  · split at h
    · cases h
      dsimp only
      generalize FloatLiteral.survives 2 _ = half
      generalize FloatLiteral.survives 4 _ = single
      cases half <;> cases single <;> rfl
    · cases h

/-- The note on a literal: a primitive value of a core type, which is unsigned if there is a second
type, or a text. -/
theorem literalNote_ok {core : CoreTypes} {value : Literal} {note : Note}
    (h : literalNote core value = .ok note) :
    (∃ p bits, note.constant = some (.primitive p bits) ∧ note.ty = core.primitive p ∧
      ∀ t ∈ note.secondary, p ∈ Primitive.unsignedTypes ∧
        ∃ q ∈ Primitive.signedTypes, t = core.primitive q) ∨
    ∃ text, note.constant = some (.text text) ∧ note.ty = core.text ∧ note.secondary = none := by
  cases value with
  | integer digits negative =>
    simp only [literalNote] at h
    split at h
    · cases h
    · next n hn =>
      cases h
      obtain ⟨hp, hs⟩ := numeral_type n
      refine Or.inl ⟨_, _, by simp only [Constant.ofNumeral, isInteger_primary n]; rfl, rfl, ?_⟩
      intro t ht
      obtain ⟨q, hq, rfl⟩ := Option.map_eq_some_iff.mp ht
      refine ⟨?_, q, hs q hq, rfl⟩
      rcases hp with hp | ⟨-, hn⟩
      · exact hp
      · simp [hn] at hq
  | float text negative =>
    simp only [literalNote] at h
    split at h
    · cases h
    · next x hx =>
      cases h
      have hf := isFloat_of_parse hx
      exact Or.inl ⟨_, x.word _, by simp [Note.ofConstant, Constant.ofFloat, hf], rfl,
        by simp [Note.ofConstant]⟩
  | bool b =>
    cases h
    exact Or.inl ⟨.bool, _, rfl, rfl, by simp [Note.ofConstant]⟩
  | char text =>
    simp only [literalNote] at h
    split at h
    · cases h
    · cases h
      exact Or.inl ⟨.char, _, rfl, rfl, by simp [Note.ofConstant]⟩
  | text value =>
    cases h
    exact Or.inr ⟨value, rfl, rfl, rfl⟩

theorem between_primitives {source target : Ty}
    (possible : Conversion.between source target ≠ .impossible)
    (needed : Conversion.between source target ≠ .unneeded) :
    ∃ p q, source.primitive? = some p ∧ target.primitive? = some q ∧
      Conversion.between source target = Conversion.ofPrimitives p q := by
  unfold Conversion.between at *
  split at possible
  · next h => simp [h] at needed
  · next h =>
    simp only [h, Bool.false_eq_true, if_false]
    split at possible
    · next p q hp hq =>
      rw [hp, hq]
      exact ⟨p, q, rfl, rfl, rfl⟩
    · exact absurd rfl possible

/-- A coercion is to a primitive type. It is from one unless the value has a second type. -/
theorem coercionTo_primitive {note : Note} {target : Ty} {c : Coercion}
    (h : coercionTo note target = .ok (some c)) :
    c.target.primitive?.isSome ∧ (note.ty.primitive? = none → note.secondary.isSome) := by
  obtain ⟨rfl, needed, implicit⟩ := coercionTo_ok h
  dsimp only at *
  have possible : note.operand.conversionTo target ≠ .impossible := by
    intro hi
    rw [hi] at implicit
    exact absurd implicit (by decide)
  by_cases hv : note.secondary.isSome ∧ target.primitive?.isSome
  · exact ⟨hv.2, fun _ => hv.1⟩
  · have direct : note.operand.conversionTo target = Conversion.between note.ty target := by
      unfold Operand.conversionTo
      dsimp only
      split
      · next hs ht => exact absurd ⟨Option.isSome_of_eq_some hs, Option.isSome_of_eq_some ht⟩ hv
      · rfl
    rw [direct] at possible needed
    obtain ⟨p, q, hp, hq, -⟩ := between_primitives possible needed
    exact ⟨by simp [hq], fun hn => by simp [hn] at hp⟩

end

end Typing

namespace Lowering

theorem coercion_eq_some {note : Note} (h : ∀ k ∈ note.coercion,
    note.ty.primitive?.isSome ∧ k.target.primitive?.isSome) : ∃ cs, coercion note = some cs := by
  unfold coercion
  cases hc : note.coercion with
  | none => exact ⟨[], rfl⟩
  | some k =>
    obtain ⟨hs, ht⟩ := h k hc
    obtain ⟨p, hp⟩ := Option.isSome_iff_exists.mp hs
    obtain ⟨q, hq⟩ := Option.isSome_iff_exists.mp ht
    exact ⟨(k.conversion.instruction? p q).toList, by simp [hp, hq]⟩

theorem settle_eq_some (note : Note) (v : Value) (h : ∀ k ∈ note.coercion,
    note.ty.primitive?.isSome ∧ k.target.primitive?.isSome) :
    ∃ w, settle note v = some w ∧ w.ty = settledType note v.ty := by
  obtain ⟨cs, hc⟩ := coercion_eq_some h
  exact ⟨_, by rw [settle, hc]; rfl, rfl⟩

end Lowering

namespace Typing

section

variable {env : Environment} {scopes : Scopes} {notes : Notes} {frames : List Frame}

theorem asked_target {target : Ty} {conversion : Conversion} {k : Coercion}
    (h : k ∈ asked target conversion) : k = ⟨target, conversion⟩ ∧ conversion ≠ .unneeded := by
  unfold asked at h
  split at h
  · cases h
  · next hn => exact ⟨(Option.mem_some.mp h).symm, hn⟩

/-- The code of an expression is that of a value of the type in its note, followed by the coercion.
-/
theorem Noted.lowers {e : Expr} {note : Note} (h : Noted env scopes notes e note)
    (ha : Agree frames scopes) (c : Option Coercion)
    (filed : notes.find? e.id = some { note with coercion := c }) (pool : Pool) :
    ∃ code pool', Lowering.expression notes frames pool e =
      Lowering.settle { note with coercion := c } ⟨note.ty, code, pool'⟩ := by
  induction h generalizing c pool with
  | @literal mark value note rule =>
    have hk : ∃ k, note.constant = some k := by
      rcases literalNote_ok rule with ⟨p, bits, hk, -⟩ | ⟨text, hk, -⟩
      · exact ⟨_, hk⟩
      · exact ⟨_, hk⟩
    obtain ⟨k, hk⟩ := hk
    have hm : notes.find? mark.id = some { note with coercion := c } := filed
    let v := Lowering.literal pool k note.ty
    refine ⟨v.code, v.pool, ?_⟩
    simp only [Lowering.expression, hm, Option.bind_eq_bind, Option.bind_some, hk]
    rfl
  | @«variable» mark name ty found =>
    have hm : notes.find? mark.id = some { Note.ofType ty with coercion := c } := filed
    have noted : Noted env scopes notes (.variable mark name) (.ofType ty) := .variable found
    obtain ⟨place, offset, hp, ho⟩ := noted.place rfl ha
    cases hp
    refine ⟨[.sized .pushStack ty.size offset], pool, ?_⟩
    simp only [Lowering.expression, hm, Option.bind_eq_bind, Option.bind_some, Lowering.read, ho,
      Option.map_some]
    rfl
  | @field mark target name owner ty isPlace inner inside rule ih =>
    have hm : notes.find? mark.id = some { Note.ofType ty with coercion := c } := filed
    have noted : Noted env scopes notes (.field mark target name) (.ofType ty) :=
      .field isPlace inner inside rule
    obtain ⟨place, offset, hp, ho⟩ := noted.place isPlace ha
    refine ⟨[.sized .pushStack ty.size offset], pool, ?_⟩
    simp only [Lowering.expression, hm, Option.bind_eq_bind, Option.bind_some, hp, Lowering.read,
      ho, Option.map_some]
    rfl
  | @binary mark op left right l r u onLeft filedLeft onRight filedRight rule ihl ihr =>
    have hm : notes.find? mark.id =
      some { Note.ofType (binaryType env.core op u.result) with coercion := c } := filed
    obtain ⟨p, q, s, hp, hq, hs, -, -⟩ := binaryOperands_ok rule
    obtain ⟨lcode, lpool, hl⟩ := ihl _ filedLeft pool
    obtain ⟨lv, hlv, hlt⟩ := Lowering.settle_eq_some
      { l with coercion := asked u.result u.left } ⟨l.ty, lcode, lpool⟩
      fun k hk => by simp [hp, (asked_target hk).1, hs]
    obtain ⟨rcode, rpool, hr⟩ := ihr _ filedRight lv.pool
    obtain ⟨rv, hrv, -⟩ := Lowering.settle_eq_some
      { r with coercion := asked u.result u.right } ⟨r.ty, rcode, rpool⟩
      fun k hk => by simp [hq, (asked_target hk).1, hs]
    have ht : ∃ t, lv.ty.primitive? = some t := by
      rw [hlt]
      unfold Lowering.settledType
      cases hk : asked u.result u.left with
      | none => exact ⟨p, hp⟩
      | some k => exact ⟨s, by rw [(asked_target hk).1, hs]⟩
    obtain ⟨t, ht⟩ := ht
    refine ⟨lv.code ++ rv.code ++ [Lowering.operation (Generate.binaryOpcode op t) t], rv.pool, ?_⟩
    simp only [Lowering.expression, hm, hl, hlv, hr, hrv, ht, Option.bind_eq_bind,
      Option.bind_some]
  | @unary mark op operand note ty inner inside rule ih =>
    have hm : notes.find? mark.id = some { Note.ofType ty with coercion := c } := filed
    obtain ⟨p, hp, -, rfl⟩ := unaryType_ok rule
    have hn : some note = some { note with coercion := none } := by rw [← inner.coercion_eq]
    obtain ⟨code, pool', hv⟩ := ih none (inside.trans hn) pool
    obtain ⟨v, hv', ht⟩ := Lowering.settle_eq_some { note with coercion := none }
      ⟨note.ty, code, pool'⟩ (by simp)
    have hp' : v.ty.primitive? = some p := by
      rw [ht]
      exact hp
    refine ⟨v.code ++ [Lowering.operation (Generate.unaryOpcode op p) p], v.pool, ?_⟩
    simp only [Lowering.expression, hm, hv, hv', hp', Option.bind_eq_bind, Option.bind_some]
  | @cast mark operand written note target inner inside resolved possible ih =>
    have hm : notes.find? mark.id = some { Note.ofType target with coercion := c } := filed
    obtain ⟨code, pool', hv⟩ := ih _ inside pool
    obtain ⟨v, hv', -⟩ := Lowering.settle_eq_some
      { note with coercion := asked target (Conversion.between note.ty target) }
      ⟨note.ty, code, pool'⟩
      fun k hk => by
        obtain ⟨hk, needed⟩ := asked_target hk
        obtain ⟨p, q, hp, hq, -⟩ := between_primitives possible needed
        simp [hk, hp, hq]
    refine ⟨v.code, v.pool, ?_⟩
    simp only [Lowering.expression, hm, hv, hv', Option.bind_eq_bind, Option.bind_some]

theorem Noted.secondary {e : Expr} {note : Note} (h : Noted env scopes notes e note) :
    ∀ t ∈ note.secondary, (∃ p ∈ Primitive.unsignedTypes, note.ty = env.core.primitive p) ∧
      ∃ q ∈ Primitive.signedTypes, t = env.core.primitive q := by
  intro t ht
  cases h with
  | literal rule =>
    rcases literalNote_ok rule with ⟨p, bits, -, hty, hs⟩ | ⟨text, -, -, hn⟩
    · obtain ⟨hp, hq⟩ := hs t ht
      exact ⟨⟨p, hp, hty⟩, hq⟩
    · simp [hn] at ht
  | _ => cases ht

/-- An expression has a coercion from a type that is not primitive. -/
def Unconvertible (notes : Notes) (e : Expr) : Prop :=
  ∃ note, notes.find? e.id = some note ∧ note.coercion.isSome ∧ note.ty.primitive? = none

theorem not_unconvertible {e : Expr} {note : Note} (h : notes.find? e.id = some note)
    (hn : note.coercion = none ∨ note.ty.primitive?.isSome) : ¬ Unconvertible notes e := by
  rintro ⟨note', h', hc, hp⟩
  cases h.symm.trans h'
  rcases hn with hn | hn
  · simp [hn] at hc
  · simp [hp] at hn

theorem Noted.parts_not_unconvertible {e : Expr} {note : Note} (h : Noted env scopes notes e note) :
    ∀ n ∈ e.parts, ¬ Unconvertible notes n := by
  induction h with
  | literal _ => simp [Expr.parts]
  | «variable» _ => simp [Expr.parts]
  | field _ inner filed _ ih =>
    intro n hn
    rcases Expr.mem_nodes.mp hn with hn | rfl
    · exact ih n hn
    · exact not_unconvertible filed (Or.inl inner.coercion_eq)
  | binary _ filedLeft _ filedRight rule ihl ihr =>
    obtain ⟨p, q, s, hp, hq, -⟩ := binaryOperands_ok rule
    intro n hn
    rcases List.mem_append.mp hn with hn | hn
    · rcases Expr.mem_nodes.mp hn with hn | rfl
      · exact ihl n hn
      · exact not_unconvertible filedLeft (Or.inr (by simp [hp]))
    · rcases Expr.mem_nodes.mp hn with hn | rfl
      · exact ihr n hn
      · exact not_unconvertible filedRight (Or.inr (by simp [hq]))
  | unary inner filed _ ih =>
    intro n hn
    rcases Expr.mem_nodes.mp hn with hn | rfl
    · exact ih n hn
    · exact not_unconvertible filed (Or.inl inner.coercion_eq)
  | @cast mark operand written note target inner filed _ possible ih =>
    intro n hn
    rcases Expr.mem_nodes.mp hn with hn | rfl
    · exact ih n hn
    · refine not_unconvertible filed ?_
      by_cases needed : Conversion.between note.ty target = .unneeded
      · exact Or.inl (by simp [asked, needed])
      · obtain ⟨p, q, hp, -⟩ := between_primitives possible needed
        exact Or.inr (by simp [hp])

theorem Has.not_unconvertible {e : Expr} {note : Note} (h : Has env notes scopes e note none) :
    ∀ n ∈ e.nodes, ¬ Unconvertible notes n := by
  intro n hn
  rcases Expr.mem_nodes.mp hn with hn | rfl
  · exact h.1.parts_not_unconvertible n hn
  · exact Typing.not_unconvertible h.2 (Or.inl rfl)

theorem Has.lowers {e : Expr} {note : Note} (h : Has env notes scopes e note none)
    (ha : Agree frames scopes) (pool : Pool) :
    ∃ v, Lowering.expression notes frames pool e = some v ∧ v.ty = note.ty := by
  obtain ⟨code, pool', hl⟩ := h.1.lowers ha none h.2 pool
  obtain ⟨v, hv, ht⟩ := Lowering.settle_eq_some { note with coercion := none }
    ⟨note.ty, code, pool'⟩ (by simp)
  exact ⟨v, hl.trans hv, ht⟩

/-- An expression that is coerced to a type has code unless it is unconvertible. -/
theorem Fits.lowers_iff {e : Expr} {target : Ty} (h : Fits env notes scopes e target)
    (ha : Agree frames scopes) (pool : Pool) :
    (Lowering.expression notes frames pool e).isSome ↔ ∀ n ∈ e.nodes, ¬ Unconvertible notes n := by
  obtain ⟨note, c, ⟨noted, filed⟩, hc⟩ := h
  obtain ⟨code, pool', hl⟩ := noted.lowers ha c filed pool
  have inner := noted.parts_not_unconvertible
  rw [hl]
  constructor
  · intro hs n hn
    rcases Expr.mem_nodes.mp hn with hn | rfl
    · exact inner n hn
    · refine Typing.not_unconvertible filed ?_
      cases c with
      | none => exact Or.inl rfl
      | some k =>
        refine Or.inr ?_
        by_contra hp
        rw [Option.not_isSome_iff_eq_none] at hp
        dsimp only at hp
        simp [Lowering.settle, Lowering.coercion, hp] at hs
  · intro hn
    have root := hn e (Expr.mem_nodes.mpr (Or.inr rfl))
    obtain ⟨v, hv, -⟩ := Lowering.settle_eq_some { note with coercion := c } ⟨note.ty, code, pool'⟩
      fun k hk => by
        cases hk
        refine ⟨?_, (coercionTo_primitive hc).1⟩
        by_contra hp
        exact root ⟨_, filed, rfl, by simpa using hp⟩
    simp [hv]

theorem Initial.ty_eq {s : Scene} {ty : Option TypeRef} {value : Option Expr} {t : Ty}
    (h : Initial env notes scopes ty value t) (ha : Agree s.frames scopes) {v : Lowering.Value}
    (hv : Lowering.initial env notes s ty value = some v) : v.ty = t := by
  match ty, value with
  | none, none => exact h.elim
  | none, some e =>
    obtain ⟨note, hn, rfl⟩ := h
    obtain ⟨w, hw, ht⟩ := hn.lowers ha s.pool
    cases hw.symm.trans hv
    exact ht
  | some written, value =>
    simp only [Lowering.initial, h.1, Except.toOption, Option.bind_eq_bind, Option.bind_some] at hv
    cases value with
    | none =>
      cases hv
      rfl
    | some e =>
      obtain ⟨w, -, hw⟩ := Option.bind_eq_some_iff.mp hv
      cases hw
      rfl

/-- The frames behind an accepted statement agree with the scopes behind it. -/
theorem agree_statement_all (env : Environment) (notes : Notes) :
    (∀ stmt scopes after s b, Accepted env notes scopes stmt after → Agree s.frames scopes →
      Lowering.statement env notes s stmt = some b → Agree b.2.frames after) ∧
    ∀ body scopes after s b, AcceptedAll env notes scopes body after → Agree s.frames scopes →
      Lowering.statements env notes s body = some b → Agree b.2.frames after := by
  obtain ⟨-, framed⟩ := Lowering.framed_statement_all env notes
  have cases : Stmt.Cases
      (fun stmt => ∀ scopes after s b, Accepted env notes scopes stmt after →
        Agree s.frames scopes → Lowering.statement env notes s stmt = some b →
        Agree b.2.frames after)
      (fun body => ∀ scopes after s b, AcceptedAll env notes scopes body after →
        Agree s.frames scopes → Lowering.statements env notes s body = some b →
        Agree b.2.frames after) := {
    declare := by
      intro position name ty value scopes after s b h ha hb
      obtain ⟨t, hi, hd⟩ := h
      obtain ⟨v, u, hv, hu, rfl⟩ := Lowering.statement_declare hb
      rw [hi.ty_eq ha hv] at hu
      have ha' : Agree (s.after v.code v.pool).frames scopes := ha
      obtain ⟨w, hw, agree⟩ := ha'.define hd
      cases hw.symm.trans hu
      exact agree
    assign := by
      intro position target value scopes after s b h ha hb
      obtain ⟨-, rfl⟩ := h
      obtain ⟨v, offset, ty, -, -, rfl⟩ := Lowering.statement_assign hb
      exact ha
    discard := by
      intro position value scopes after s b h ha hb
      obtain ⟨-, rfl⟩ := h
      obtain ⟨v, -, rfl⟩ := Lowering.statement_discard hb
      exact ha
    block := by
      intro position body ih scopes after s b h ha hb
      obtain ⟨-, rfl⟩ := h
      obtain ⟨c, hc, rfl⟩ := Lowering.statement_block hb
      rw [(framed _ _ _ hc).closed_eq]
      exact ha
    branch := by
      intro position e body ih scopes after s b h ha hb
      obtain ⟨-, -, rfl⟩ := h
      obtain ⟨v, c, -, hc, rfl⟩ := Lowering.statement_branch hb
      rw [(framed _ _ _ hc).closed_eq]
      exact ha
    branchElse := by
      intro position e body otherwise ihb iho scopes after s b h ha hb
      obtain ⟨-, -, -, rfl⟩ := h
      obtain ⟨v, c, d, -, hc, hd, rfl⟩ := Lowering.statement_branchElse hb
      rw [(framed _ _ _ hd).closed_eq, (framed _ _ _ hc).closed_eq]
      exact ha
    loop := by
      intro position e body ih scopes after s b h ha hb
      obtain ⟨-, -, rfl⟩ := h
      obtain ⟨v, c, -, hc, rfl⟩ := Lowering.statement_loop hb
      rw [(framed _ _ _ hc).closed_eq]
      exact ha
    halt := by
      intro position code scopes after s b h ha hb
      cases h
      cases hb
      exact ha
    debug := by
      intro position scopes after s b h ha hb
      cases h
      cases hb
      exact ha
    nil := by
      intro scopes after s b h ha hb
      cases h
      cases hb
      exact ha
    cons := by
      intro stmt rest ihs ihr scopes after s b h ha hb
      obtain ⟨middle, hs, hr⟩ := h
      obtain ⟨c, d, hc, hd, rfl⟩ := Lowering.statements_cons hb
      exact ihr middle after c.2 d hr (ihs scopes middle s c hs ha hc) hd }
  exact ⟨cases.one, cases.all⟩

theorem isSome_bind_some {α β : Type} (o : Option α) (f : α → β) :
    (o.bind fun x => some (f x)).isSome = o.isSome := by
  cases o <;> rfl

theorem Tested.lowers {e : Expr} (h : Tested env notes scopes e) (ha : Agree frames scopes)
    (pool : Pool) : (∃ v, Lowering.expression notes frames pool e = some v) ∧
      ∀ n ∈ e.nodes, ¬ Unconvertible notes n := by
  obtain ⟨note, hn, -⟩ := h
  obtain ⟨v, hv, -⟩ := hn.lowers ha pool
  exact ⟨⟨v, hv⟩, hn.not_unconvertible⟩

theorem Initial.lowers_iff {s : Scene} {ty : Option TypeRef} {value : Option Expr} {t : Ty}
    (h : Initial env notes scopes ty value t) (ha : Agree s.frames scopes) :
    (Lowering.initial env notes s ty value).isSome ↔
      ∀ n ∈ (value.map Expr.nodes).getD [], ¬ Unconvertible notes n := by
  match ty, value with
  | none, none => exact h.elim
  | none, some e =>
    obtain ⟨note, hn, rfl⟩ := h
    obtain ⟨v, hv, -⟩ := hn.lowers ha s.pool
    simpa [Lowering.initial, hv] using hn.not_unconvertible
  | some written, none => simp [Lowering.initial, h.1, Except.toOption]
  | some written, some e =>
    have hf := (h.2 e rfl).lowers_iff ha s.pool
    simpa [Lowering.initial, h.1, Except.toOption, isSome_bind_some] using hf

/-- An accepted statement has code exactly if no expression in it is unconvertible. -/
theorem lowers_iff_all (env : Environment) (notes : Notes) :
    (∀ stmt scopes after s, Accepted env notes scopes stmt after → Agree s.frames scopes →
      ((Lowering.statement env notes s stmt).isSome ↔ ∀ e ∈ stmt.nodes, ¬ Unconvertible notes e)) ∧
    ∀ body scopes after s, AcceptedAll env notes scopes body after → Agree s.frames scopes →
      ((Lowering.statements env notes s body).isSome ↔
        ∀ e ∈ Stmt.nodesAll body, ¬ Unconvertible notes e) := by
  obtain ⟨agree, -⟩ := agree_statement_all env notes
  obtain ⟨-, framed⟩ := Lowering.framed_statement_all env notes
  have cases : Stmt.Cases
      (fun stmt => ∀ scopes after s, Accepted env notes scopes stmt after →
        Agree s.frames scopes →
        ((Lowering.statement env notes s stmt).isSome ↔ ∀ e ∈ stmt.nodes, ¬ Unconvertible notes e))
      (fun body => ∀ scopes after s, AcceptedAll env notes scopes body after →
        Agree s.frames scopes → ((Lowering.statements env notes s body).isSome ↔
          ∀ e ∈ Stmt.nodesAll body, ¬ Unconvertible notes e)) := {
    declare := by
      intro position name ty value scopes after s h ha
      obtain ⟨t, hi, hd⟩ := h
      rw [Stmt.nodes, ← hi.lowers_iff ha, Lowering.statement]
      cases hv : Lowering.initial env notes s ty value with
      | none => simp
      | some v =>
        have ha' : Agree (s.after v.code v.pool).frames scopes := ha
        obtain ⟨u, hu, -⟩ := ha'.define hd
        rw [← hi.ty_eq ha hv] at hu
        simp [hu]
    assign := by
      intro position target value scopes after s h ha
      obtain ⟨⟨t, hp, hf⟩, -⟩ := h
      obtain ⟨offset, ho⟩ := placeType_ok ha hp
      rw [Stmt.nodes, ← hf.lowers_iff ha s.pool]
      simp [Lowering.statement, ho, isSome_bind_some]
    discard := by
      intro position value scopes after s h ha
      obtain ⟨⟨note, hn⟩, -⟩ := h
      obtain ⟨v, hv, -⟩ := hn.lowers ha s.pool
      simpa [Lowering.statement, hv, Stmt.nodes] using hn.not_unconvertible
    block := by
      intro position body ih scopes after s h ha
      obtain ⟨⟨inner, hb⟩, -⟩ := h
      have hb' := ih _ inner s.opened hb (ha.opened s.size)
      simpa [Lowering.statement, Stmt.nodes] using hb'
    branch := by
      intro position e body ih scopes after s h ha
      obtain ⟨he, ⟨inner, hb⟩, -⟩ := h
      obtain ⟨⟨v, hv⟩, hn⟩ := he.lowers ha s.pool
      have hb' := ih _ inner (s.after (Lowering.guarded v 0) v.pool).opened hb (ha.opened _)
      rw [Stmt.nodes, List.append_nil, List.forall_mem_append, and_iff_right hn, ← hb']
      simp [Lowering.statement, hv, isSome_bind_some]
    branchElse := by
      intro position e body otherwise ihb iho scopes after s h ha
      obtain ⟨he, ⟨inner, hb⟩, ⟨outer, ho⟩, -⟩ := h
      obtain ⟨⟨v, hv⟩, hn⟩ := he.lowers ha s.pool
      have hb' := ihb _ inner (s.after (Lowering.guarded v 0) v.pool).opened hb (ha.opened _)
      rw [Stmt.nodes, List.forall_mem_append, List.forall_mem_append, and_iff_right hn, ← hb']
      cases hc : Lowering.statements env notes (s.after (Lowering.guarded v 0) v.pool).opened
          body with
      | none => simp [Lowering.statement, hv, hc]
      | some c =>
        let t := (Lowering.closed c).2.after [Lowering.jump false 0] (Lowering.closed c).2.pool
        have ha' : Agree t.frames scopes := by
          have hf : t.frames = s.frames := by simp only [t, (framed _ _ _ hc).closed_eq]; rfl
          rw [hf]
          exact ha
        have ho' := iho _ outer t.opened ho (ha'.opened _)
        rw [← ho']
        simp [Lowering.statement, hv, hc, t, isSome_bind_some]
    loop := by
      intro position e body ih scopes after s h ha
      obtain ⟨he, ⟨inner, hb⟩, -⟩ := h
      obtain ⟨⟨v, hv⟩, hn⟩ := he.lowers ha s.pool
      have hb' := ih _ inner (s.after (Lowering.guarded v 0) v.pool).opened hb (ha.opened _)
      rw [Stmt.nodes, List.forall_mem_append, and_iff_right hn, ← hb']
      simp [Lowering.statement, hv, isSome_bind_some]
    halt := by
      intro position code scopes after s h ha
      simp [Lowering.statement, Stmt.nodes]
    debug := by
      intro position scopes after s h ha
      simp [Lowering.statement, Stmt.nodes]
    nil := by
      intro scopes after s h ha
      simp [Lowering.statements, Stmt.nodesAll]
    cons := by
      intro stmt rest ihs ihr scopes after s h ha
      obtain ⟨middle, hs, hr⟩ := h
      rw [Stmt.nodesAll, List.forall_mem_append, ← ihs scopes middle s hs ha]
      cases hc : Lowering.statement env notes s stmt with
      | none => simp [Lowering.statements, hc]
      | some c =>
        rw [← ihr middle after c.2 hr (agree stmt scopes middle s c hs ha hc)]
        simp [Lowering.statements, hc, isSome_bind_some] }
  exact ⟨cases.one, cases.all⟩

end

end Typing

end Bytescript
