import Mathlib
import Bytescript.Proofs.Agreement
import Bytescript.Proofs.Universe

/-!
# Typed code

The code of an accepted expression, form by form, with the types of its parts. Operands of an
operator have one primitive type, conversions start and end at types that they suit, and a value
that needs no conversion has the size of the type that it is used at.
-/
namespace Bytescript

theorem Ty.size_of_primitive {t : Ty} {p : Primitive} (h : t.primitive? = some p) :
    t.size = p.size := by
  obtain ⟨⟨home, name, modifiers, generics, methods, shape⟩, args⟩ := t
  cases shape with
  | primitive q =>
    cases h
    rfl
  | handle => cases h
  | record fields n => cases h

theorem Ty.size_of_isHandle {t : Ty} (h : t.isHandle) : t.size = handleSize := by
  simp only [Ty.isHandle, DefinitionOf.isHandle] at h
  simp only [Ty.size, DefinitionOf.size]
  split <;> simp_all

namespace Conversion

/-- A conversion turns values of one primitive type into values of another. -/
def Suits (c : Conversion) (p q : Primitive) : Prop :=
  match c with
  | .unneeded | .impossible => False
  | .widenInteger | .resizeInteger => True
  | .widenFloat | .narrowFloat => p.isFloat ∧ q.isFloat
  | .integerToFloat => q.isFloat
  | .floatToInteger => p.isFloat

theorem suits_ofPrimitives {p q : Primitive} (possible : ofPrimitives p q ≠ .impossible)
    (needed : ofPrimitives p q ≠ .unneeded) : (ofPrimitives p q).Suits p q := by
  unfold ofPrimitives at *
  by_cases h : p = q
  · simp [h] at needed
  · simp only [h, if_false] at possible needed ⊢
    cases hp : p.family <;> cases hq : q.family <;>
      simp only [hp, hq, ne_eq, not_true_eq_false] at possible needed ⊢ <;>
      (try split) <;> simp_all [Suits, Primitive.isFloat]

theorem eq_of_ofPrimitives {p q : Primitive} (h : ofPrimitives p q = .unneeded) : p = q := by
  by_contra hne
  simp only [ofPrimitives, hne, if_false] at h
  cases hp : p.family <;> cases hq : q.family <;> simp only [hp, hq] at h <;>
    (try split at h) <;> cases h

end Conversion

namespace Operand

theorem conversionTo_cases (x : Operand) (target : Ty) :
    x.conversionTo target = Conversion.between x.ty target ∨
      ∃ s p, x.secondary = some s ∧ target.primitive? = some p ∧ p.isSigned ∧
        x.conversionTo target = x.conversionVia s target := by
  unfold conversionTo
  dsimp only
  split
  · next s p hs hp =>
    split
    · next hsigned =>
      unfold Conversion.cheaper
      split
      · exact Or.inl rfl
      · exact Or.inr ⟨s, p, hs, hp, hsigned, rfl⟩
    · exact Or.inl rfl
  · exact Or.inl rfl

/-- The conversion through a second type resizes the integer, or is not needed. -/
theorem conversionVia_cases (x : Operand) (s target : Ty) :
    x.conversionVia s target = .widenInteger ∨ x.conversionVia s target = .resizeInteger ∨
      x.conversionVia s target = Conversion.between s target ∧
        (x.conversionVia s target = .unneeded → x.ty.same target) := by
  unfold conversionVia
  dsimp only
  by_cases hs : s.size ≤ target.size
  · simp only [hs, if_true]
    by_cases hc : Conversion.between s target = .unneeded ∧ x.ty.same target = false
    · exact Or.inl (if_pos hc)
    · rw [if_neg hc]
      exact Or.inr (Or.inr ⟨rfl, fun hu => by_contra fun hf => hc ⟨hu, by simpa using hf⟩⟩)
  · simp only [hs, if_false]
    by_cases hw : x.ty.size ≤ target.size <;> simp [hw]

end Operand

theorem Conversion.between_signed {t u : Ty} {p q : Primitive} (ht : t.primitive? = some p)
    (hu : u.primitive? = some q) (hp : p.isSigned) (hq : q.isSigned) :
    between t u = .unneeded ∨ between t u = .widenInteger ∨ between t u = .resizeInteger := by
  have hp' : p.family = .signed := by simpa [Primitive.isSigned] using hp
  have hq' : q.family = .signed := by simpa [Primitive.isSigned] using hq
  unfold between
  split
  · exact Or.inl rfl
  · simp only [ht, hu, ofPrimitives, hp', hq']
    split
    · exact Or.inl rfl
    · split <;> simp

namespace Environment

variable {env : Environment}

theorem Sound.known_primitive (h : env.Sound) (p : Primitive) :
    env.Known (env.core.primitive p) := by
  rw [h.primitive]
  exact ⟨rfl, Or.inl (Module.mem_core.mpr (Or.inl ⟨p, rfl⟩))⟩

theorem Sound.known_text (h : env.Sound) : env.Known env.core.text := by
  rw [h.text]
  exact ⟨rfl, Or.inl (Module.mem_core.mpr (Or.inr rfl))⟩

theorem Sound.size_bool (h : env.Sound) : env.core.bool.size = 1 := by
  rw [CoreTypes.bool, h.primitive]
  rfl

theorem Sound.closed (h : env.Sound) : env.Closed env.Known where
  primitive := h.known_primitive
  text := h.known_text
  resolve := h.resolve
  fields := fun ht f hf => (h.fields ht f hf).1

/-- Types with no conversion between them have one size, if types of one name do. -/
theorem size_eq_of_between {t u : Ty} (hs : t.same u → t.size = u.size)
    (hb : Conversion.between t u = .unneeded) : t.size = u.size := by
  unfold Conversion.between at hb
  split at hb
  · next h => exact hs h
  · split at hb
    · next p q hp hq =>
      cases Conversion.eq_of_ofPrimitives hb
      rw [Ty.size_of_primitive hp, Ty.size_of_primitive hq]
    · cases hb

theorem unneeded_cases {x : Operand} {target : Ty} (hc : x.conversionTo target = .unneeded) :
    Conversion.between x.ty target = .unneeded ∨ x.ty.same target := by
  rcases x.conversionTo_cases target with hd | ⟨s, p, -, -, -, hv⟩
  · exact Or.inl (hd ▸ hc)
  · rw [hv] at hc
    rcases x.conversionVia_cases s target with hw | hr | ⟨-, hs⟩
    · cases hw.symm.trans hc
    · cases hr.symm.trans hc
    · exact Or.inr (hs hc)

theorem size_eq_of_unneeded {x : Operand} {target : Ty}
    (hs : x.ty.same target → x.ty.size = target.size) (hc : x.conversionTo target = .unneeded) :
    x.ty.size = target.size := by
  rcases unneeded_cases hc with hb | hn
  · exact size_eq_of_between hs hb
  · exact hs hn

theorem Sound.between_unneeded (h : env.Sound) {t u : Ty} (ht : env.Known t) (hu : env.Known u)
    (hb : Conversion.between t u = .unneeded) : t.size = u.size :=
  size_eq_of_between (h.size_eq ht hu) hb

theorem Sound.conversionTo_unneeded (h : env.Sound) {x : Operand} {target : Ty}
    (hx : env.Known x.ty) (ht : env.Known target) (hc : x.conversionTo target = .unneeded) :
    x.ty.size = target.size :=
  size_eq_of_unneeded (h.size_eq hx ht) hc

theorem Sound.primitive_unneeded (h : env.Sound) {x : Operand} {target : Ty} {p q : Primitive}
    (hx : env.Known x.ty) (ht : env.Known target) (hc : x.conversionTo target = .unneeded)
    (hp : x.ty.primitive? = some p) (hq : target.primitive? = some q) : p = q := by
  rcases unneeded_cases hc with hb | hs
  · unfold Conversion.between at hb
    split at hb
    · next hs => exact h.primitive_eq hx ht hs hp hq
    · rw [hp, hq] at hb
      exact Conversion.eq_of_ofPrimitives hb
  · exact h.primitive_eq hx ht hs hp hq

/-- A conversion that typing finds suits the types between which it is. -/
theorem Sound.conversionTo_suits (h : env.Sound) {x : Operand} {target : Ty}
    (hs : ∀ t ∈ x.secondary, (∃ p ∈ Primitive.unsignedTypes, x.ty = env.core.primitive p) ∧
      ∃ q ∈ Primitive.signedTypes, t = env.core.primitive q)
    (possible : x.conversionTo target ≠ .impossible) (needed : x.conversionTo target ≠ .unneeded) :
    ∃ p q, x.ty.primitive? = some p ∧ target.primitive? = some q ∧
      (x.conversionTo target).Suits p q := by
  rcases x.conversionTo_cases target with hd | ⟨s, q, hsec, hq, hsigned, hv⟩
  · rw [hd] at possible needed ⊢
    obtain ⟨p, q, hp, hq, hc⟩ := Typing.between_primitives possible needed
    rw [hc] at possible needed ⊢
    exact ⟨p, q, hp, hq, Conversion.suits_ofPrimitives possible needed⟩
  · obtain ⟨⟨p, -, hp⟩, r, hr, rfl⟩ := hs s hsec
    refine ⟨p, q, by rw [hp, h.primitive]; rfl, hq, ?_⟩
    have resizes :
        x.conversionTo target = .widenInteger ∨ x.conversionTo target = .resizeInteger := by
      rw [hv] at needed ⊢
      rcases x.conversionVia_cases (env.core.primitive r) target with hw | hr' | ⟨hb, -⟩
      · exact Or.inl hw
      · exact Or.inr hr'
      · have hrs : r.isSigned := by
          revert hr
          cases r <;> decide
        have hrp : (env.core.primitive r).primitive? = some r := by
          rw [h.primitive]
          rfl
        rw [hb] at needed ⊢
        rcases Conversion.between_signed hrp hq hrs hsigned with hu | hw
        · exact absurd hu needed
        · exact hw
    rcases resizes with hc | hc <;> simp [hc, Conversion.Suits]

end Environment

theorem Conversion.ne_impossible {c : Conversion} (h : c.isImplicit) : c ≠ .impossible := by
  rintro rfl
  exact absurd h (by decide)

theorem Operand.unify_ok {l r : Operand} {u : Unified} (h : l.unify r = .ok u) :
    u.result = l.ty ∧ u.left = .unneeded ∧ u.right = r.conversionTo l.ty ∧ u.right ≠ .impossible ∨
    u.result = r.ty ∧ u.left = l.conversionTo r.ty ∧ u.right = .unneeded ∧
      u.left ≠ .impossible := by
  unfold unify at h
  dsimp only at h
  split at h
  · cases h
  · split at h
    · split at h
      · next hi =>
        cases h
        refine Or.inl ⟨rfl, rfl, rfl, Conversion.ne_impossible ?_⟩
        simpa [Conversion.dearer, Conversion.cost] using hi
      · cases h
    · split at h
      · next hi =>
        cases h
        refine Or.inr ⟨rfl, rfl, rfl, fun himp => ?_⟩
        dsimp only at himp
        simp [himp, Conversion.dearer, Conversion.isImplicit, Conversion.cost] at hi
      · cases h

namespace Typing

def Within (K : Ty → Prop) (scopes : Scopes) : Prop := ∀ scope ∈ scopes, ∀ x ∈ scope, K x.2

/-- All variables have types that values can have. -/
def KnownScopes (env : Environment) (scopes : Scopes) : Prop :=
  ∀ scope ∈ scopes, ∀ x ∈ scope, env.Known x.2

section

variable {env : Environment} {scopes : Scopes} {notes : Notes} {frames : List Frame}
  {K : Ty → Prop}

theorem Within.find? (h : Within K scopes) {name : String} {ty : Ty}
    (hf : scopes.find? name = some ty) : K ty := by
  obtain ⟨scope, hs, hl⟩ := List.exists_of_findSome?_eq_some hf
  obtain ⟨before, behind, rfl, -⟩ := List.lookup_eq_some_iff.mp hl
  exact h _ hs (name, ty) (by simp)

/-- A set of types that is closed and has those of literals, variables and written types includes
that of every expression. -/
theorem Noted.within {e : Expr} {note : Note} (h : Noted env scopes notes e note)
    (closed : env.Closed K) (hs : Within K scopes) : K note.ty := by
  induction h with
  | literal rule =>
    rcases literalNote_ok rule with ⟨p, bits, -, ht, -⟩ | ⟨text, -, ht, -⟩
    · exact ht ▸ closed.primitive p
    · exact ht ▸ closed.text
  | «variable» found => exact hs.find? found
  | field _ _ _ rule ih =>
    obtain ⟨f, hf, rfl⟩ := fieldType_ok rule
    exact closed.fields ih f (List.mem_of_find?_eq_some hf)
  | @binary _ op _ _ l r u _ _ _ _ rule ihl ihr =>
    obtain ⟨-, -, -, -, -, -, -, hu⟩ := binaryOperands_ok rule
    have hr : K u.result := by
      rcases Operand.unify_ok hu with ⟨hr, -⟩ | ⟨hr, -⟩
      · exact hr ▸ ihl
      · exact hr ▸ ihr
    change K (binaryType env.core op u.result)
    unfold binaryType
    cases op.opClass with
    | equality => exact closed.primitive .bool
    | ordering => exact closed.primitive .bool
    | arithmetic => exact hr
    | bitwise => exact hr
    | logical => exact hr
  | unary _ _ rule ih =>
    obtain ⟨p, -, -, rfl⟩ := unaryType_ok rule
    exact ih
  | cast _ _ resolved _ _ => exact closed.resolve resolved

theorem Noted.known {e : Expr} {note : Note} (h : Noted env scopes notes e note)
    (sound : env.Sound) (hs : KnownScopes env scopes) : env.Known note.ty :=
  h.within sound.closed hs

/-- A coercion, if a note has one, suits its two types. -/
def Suited (note : Note) : Prop :=
  ∀ k ∈ note.coercion, ∃ p q, note.ty.primitive? = some p ∧ k.target.primitive? = some q ∧
    k.conversion.Suits p q

def Proper (c : Option Coercion) : Prop :=
  ∀ k ∈ c, k.conversion ≠ .unneeded ∧ k.conversion ≠ .impossible

theorem Suited.proper {note : Note} (h : Suited note) : Proper note.coercion := by
  intro k hk
  obtain ⟨p, q, -, -, suits⟩ := h k hk
  constructor <;> intro hc <;> rw [hc] at suits <;> exact suits

theorem suited_none {note : Note} : Suited { note with coercion := none } := by
  intro k hk
  cases hk

def Stored : Constant → Ty → Prop
  | .primitive p _, ty => ty.primitive? = some p
  | .text _, ty => ty.isHandle

def resultSize (op : BinaryOp) (p : Primitive) : Nat :=
  match op.opClass with
  | .equality | .ordering => 1
  | .arithmetic | .bitwise | .logical => p.size

end

/-- The code of an expression behind given frames and constants, with the types of its parts. -/
inductive Coded (env : Environment) (notes : Notes) (scopes : Scopes) (frames : List Frame) :
    Pool → Expr → Lowering.Value → Prop
  | literal {pool : Pool} {mark : Mark} {value : Literal} {note : Note} {k : Constant}
      {v : Lowering.Value} (filed : notes.find? mark.id = some note)
      (constant : note.constant = some k) (stored : Stored k note.ty) (suited : Suited note)
      (settled : Lowering.settle note (Lowering.literal pool k note.ty) = some v) :
      Coded env notes scopes frames pool (.literal mark value) v
  | place {pool : Pool} {e : Expr} {bare note : Note} {p : Place} {offset : Nat}
      {v : Lowering.Value} (noted : Noted env scopes notes e bare) (isPlace : e.isPlace)
      (filed : notes.find? e.id = some note) (ty : note.ty = bare.ty) (place : e.place? = some p)
      (found : Lowering.place? frames p = some (offset, note.ty)) (known : env.Known note.ty)
      (suited : Suited note)
      (settled : Lowering.settle note
        ⟨note.ty, [.sized .pushStack note.ty.size offset], pool⟩ = some v) :
      Coded env notes scopes frames pool e v
  | binary {pool : Pool} {mark : Mark} {op : BinaryOp} {left right : Expr} {note : Note}
      {l r v : Lowering.Value} {p : Primitive} (filed : notes.find? mark.id = some note)
      (onLeft : Coded env notes scopes frames pool left l)
      (onRight : Coded env notes scopes frames l.pool right r)
      (leftType : l.ty.primitive? = some p) (rightType : r.ty.primitive? = some p)
      (accepted : accepts op p) (size : note.ty.size = resultSize op p) (suited : Suited note)
      (settled : Lowering.settle note ⟨note.ty,
        l.code ++ r.code ++ [Lowering.operation (Generate.binaryOpcode op p) p], r.pool⟩ = some v) :
      Coded env notes scopes frames pool (.binary mark op left right) v
  | unary {pool : Pool} {mark : Mark} {op : UnaryOp} {operand : Expr} {note : Note}
      {w v : Lowering.Value} {p : Primitive} (filed : notes.find? mark.id = some note)
      (inner : Coded env notes scopes frames pool operand w)
      (innerType : w.ty.primitive? = some p) (accepted : acceptsUnary op p)
      (size : note.ty.size = p.size) (suited : Suited note)
      (settled : Lowering.settle note ⟨note.ty,
        w.code ++ [Lowering.operation (Generate.unaryOpcode op p) p], w.pool⟩ = some v) :
      Coded env notes scopes frames pool (.unary mark op operand) v
  | cast {pool : Pool} {mark : Mark} {operand : Expr} {written : TypeRef} {note : Note}
      {w v : Lowering.Value} (filed : notes.find? mark.id = some note)
      (inner : Coded env notes scopes frames pool operand w) (size : w.ty.size = note.ty.size)
      (suited : Suited note)
      (settled : Lowering.settle note ⟨note.ty, w.code, w.pool⟩ = some v) :
      Coded env notes scopes frames pool (.cast mark operand written) v

namespace Coded

variable {env : Environment} {scopes : Scopes} {notes : Notes} {frames : List Frame} {pool : Pool}
  {e : Expr} {v : Lowering.Value}

theorem settled_ty {note : Note} {b : Lowering.Value} (h : Lowering.settle note b = some v)
    (hb : b.ty = note.ty) : v.ty = note.finalType := by
  obtain ⟨cs, -, rfl⟩ := Option.map_eq_some_iff.mp h
  simp only [Lowering.settledType, Note.finalType, hb]
  cases note.coercion <;> rfl

theorem ty_eq (h : Coded env notes scopes frames pool e v) :
    ∃ note, notes.find? e.id = some note ∧ v.ty = note.finalType := by
  cases h with
  | literal filed _ _ _ settled => exact ⟨_, filed, settled_ty settled rfl⟩
  | place _ _ filed _ _ _ _ _ settled => exact ⟨_, filed, settled_ty settled rfl⟩
  | binary filed _ _ _ _ _ _ _ settled => exact ⟨_, filed, settled_ty settled rfl⟩
  | unary filed _ _ _ _ _ settled => exact ⟨_, filed, settled_ty settled rfl⟩
  | cast filed _ _ _ settled => exact ⟨_, filed, settled_ty settled rfl⟩

theorem lowered (h : Coded env notes scopes frames pool e v) :
    Lowering.expression notes frames pool e = some v := by
  induction h with
  | literal filed constant _ _ settled =>
    simp [Lowering.expression, filed, constant, settled]
  | @place pool e _ _ _ _ _ _ isPlace filed _ place found _ _ settled =>
    cases e with
    | «variable» mark name =>
      cases place
      have filed : notes.find? mark.id = some _ := filed
      simp [Lowering.expression, filed, Lowering.read, found, settled]
    | field mark target name =>
      have filed : notes.find? mark.id = some _ := filed
      simp [Lowering.expression, filed, place, Lowering.read, found, settled]
    | _ => cases isPlace
  | binary filed _ _ leftType _ _ _ _ settled ihl ihr =>
    simp [Lowering.expression, filed, ihl, ihr, leftType, settled, -List.append_assoc]
  | unary filed _ innerType _ _ _ settled ih =>
    simp [Lowering.expression, filed, ih, innerType, settled]
  | cast filed _ _ _ settled ih => simp [Lowering.expression, filed, ih, settled]

end Coded

section

variable {env : Environment} {scopes : Scopes} {notes : Notes} {frames : List Frame}
  {K : Ty → Prop}

theorem finalType_asked (note : Note) (target : Ty) (c : Conversion) :
    Note.finalType { note with coercion := asked target c } =
      if c = .unneeded then note.ty else target := by
  unfold asked
  split <;> rfl

theorem suited_asked {note : Note} {target : Ty} {c : Conversion}
    (h : c ≠ .unneeded → ∃ p q, note.ty.primitive? = some p ∧ target.primitive? = some q ∧
      c.Suits p q) : Suited { note with coercion := asked target c } := by
  intro k hk
  obtain ⟨rfl, needed⟩ := asked_target hk
  exact h needed

theorem operand_unified (sound : env.Sound) {note : Note} {target : Ty} {c : Conversion}
    {p q : Primitive} (known : env.Known note.ty) (knownTarget : env.Known target)
    (hp : note.ty.primitive? = some p) (hq : target.primitive? = some q)
    (secondary : ∀ t ∈ note.secondary,
      (∃ p ∈ Primitive.unsignedTypes, note.ty = env.core.primitive p) ∧
        ∃ q ∈ Primitive.signedTypes, t = env.core.primitive q)
    (hc : c = .unneeded ∧ note.ty = target ∨
      c = note.operand.conversionTo target ∧ c ≠ .impossible) :
    Suited { note with coercion := asked target c } ∧
      (Note.finalType { note with coercion := asked target c }).primitive? = some q := by
  rw [finalType_asked]
  rcases hc with ⟨rfl, rfl⟩ | ⟨rfl, possible⟩
  · exact ⟨suited_asked fun h => absurd rfl h, by simpa using hq⟩
  · refine ⟨suited_asked fun needed => ?_, ?_⟩
    · exact sound.conversionTo_suits secondary possible needed
    · split
      · next hu => rw [hp, sound.primitive_unneeded known knownTarget hu hp hq]
      · exact hq

/-- Both operands of an operator are converted to one primitive that it accepts. -/
theorem Noted.unified (sound : env.Sound) (known : KnownScopes env scopes) {left right : Expr}
    {l r : Note} (onLeft : Noted env scopes notes left l) (onRight : Noted env scopes notes right r)
    {op : BinaryOp} {u : Unified} (rule : binaryOperands op l r = .ok u) :
    ∃ s, u.result.primitive? = some s ∧ accepts op s ∧
      (Suited { l with coercion := asked u.result u.left } ∧
        (Note.finalType { l with coercion := asked u.result u.left }).primitive? = some s) ∧
      Suited { r with coercion := asked u.result u.right } ∧
        (Note.finalType { r with coercion := asked u.result u.right }).primitive? = some s := by
  obtain ⟨pl, pr, s, hpl, hpr, hs, accepted, hu⟩ := binaryOperands_ok rule
  have knownLeft := onLeft.known sound known
  have knownRight := onRight.known sound known
  refine ⟨s, hs, accepted, ?_⟩
  rcases Operand.unify_ok hu with ⟨hr, hleft, hright, hi⟩ | ⟨hr, hleft, hright, hi⟩
  · rw [hr] at hs ⊢
    exact ⟨operand_unified sound knownLeft knownLeft hs hs onLeft.secondary
        (Or.inl ⟨hleft, rfl⟩),
      operand_unified sound knownRight knownLeft hpr hs onRight.secondary
        (Or.inr ⟨hright, hi⟩)⟩
  · rw [hr] at hs ⊢
    exact ⟨operand_unified sound knownLeft knownRight hpl hs onLeft.secondary
        (Or.inr ⟨hleft, hi⟩),
      operand_unified sound knownRight knownRight hs hs onRight.secondary
        (Or.inl ⟨hright, rfl⟩)⟩

theorem size_binaryType (bool : env.core.bool.size = 1) {op : BinaryOp} {t : Ty} {p : Primitive}
    (h : t.size = p.size) : (binaryType env.core op t).size = resultSize op p := by
  unfold binaryType resultSize
  cases op.opClass with
  | equality => exact bool
  | ordering => exact bool
  | arithmetic => exact h
  | bitwise => exact h
  | logical => exact h

/-- The code of an expression whose notes are right is typed. -/
theorem Noted.coded {e : Expr} {bare : Note} (h : Noted env scopes notes e bare)
    (sound : env.Sound) (known : KnownScopes env scopes) (agree : Agree frames scopes)
    {c : Option Coercion} (filed : notes.find? e.id = some { bare with coercion := c })
    (suited : Suited { bare with coercion := c }) {pool : Pool} {v : Lowering.Value}
    (hl : Lowering.expression notes frames pool e = some v) :
    Coded env notes scopes frames pool e v := by
  induction h generalizing c pool v with
  | @literal mark value note rule =>
    have hm : notes.find? mark.id = some { note with coercion := c } := filed
    obtain ⟨k, hk, hs⟩ : ∃ k, note.constant = some k ∧ Stored k note.ty := by
      rcases literalNote_ok rule with ⟨p, bits, hk, ht, -⟩ | ⟨text, hk, ht, -⟩
      · refine ⟨_, hk, ?_⟩
        rw [ht, sound.primitive]
        rfl
      · refine ⟨_, hk, ?_⟩
        rw [ht, sound.text]
        rfl
    obtain ⟨n, k', hn, hk', settled⟩ := Lowering.expression_literal hl
    cases hm.symm.trans hn
    cases hk.symm.trans hk'
    exact .literal hm hk hs suited settled
  | @«variable» mark name ty found =>
    have noted : Noted env scopes notes (.variable mark name) (.ofType ty) := .variable found
    have hm : notes.find? mark.id = some { Note.ofType ty with coercion := c } := filed
    obtain ⟨place, offset, hp, ho⟩ := noted.place rfl agree
    cases hp
    obtain ⟨n, offset', ty', hn, ho', settled⟩ := Lowering.expression_variable hl
    cases hm.symm.trans hn
    cases ho.symm.trans ho'
    exact .place noted rfl hm rfl rfl ho (noted.known sound known) suited settled
  | @field mark target name owner ty isPlace inner inside rule ih =>
    have noted : Noted env scopes notes (.field mark target name) (.ofType ty) :=
      .field isPlace inner inside rule
    have hm : notes.find? mark.id = some { Note.ofType ty with coercion := c } := filed
    obtain ⟨place, offset, hp, ho⟩ := noted.place isPlace agree
    obtain ⟨n, place', offset', ty', hn, hp', ho', settled⟩ := Lowering.expression_field hl
    cases hm.symm.trans hn
    cases hp.symm.trans hp'
    cases ho.symm.trans ho'
    exact .place noted isPlace hm rfl hp ho (noted.known sound known) suited settled
  | @binary mark op left right l r u onLeft filedLeft onRight filedRight rule ihl ihr =>
    have hm : notes.find? mark.id =
      some { Note.ofType (binaryType env.core op u.result) with coercion := c } := filed
    obtain ⟨s, hs, accepted, ⟨suitedLeft, leftType⟩, suitedRight, rightType⟩ :=
      Noted.unified sound known onLeft onRight rule
    obtain ⟨n, lv, rv, p, hn, hlv, hrv, hp, settled⟩ := Lowering.expression_binary hl
    cases hm.symm.trans hn
    have codedLeft := ihl filedLeft suitedLeft hlv
    have codedRight := ihr filedRight suitedRight hrv
    obtain ⟨n, hn, hlt⟩ := codedLeft.ty_eq
    cases filedLeft.symm.trans hn
    obtain ⟨n, hn, hrt⟩ := codedRight.ty_eq
    cases filedRight.symm.trans hn
    have hps : p = s := by
      rw [hlt, leftType] at hp
      exact (Option.some.inj hp).symm
    subst hps
    exact .binary hm codedLeft codedRight hp (by rw [hrt, rightType]) accepted
      (size_binaryType sound.size_bool (Ty.size_of_primitive hs)) suited settled
  | @unary mark op operand note ty inner inside rule ih =>
    have hm : notes.find? mark.id = some { Note.ofType ty with coercion := c } := filed
    obtain ⟨q, hq, accepted, rfl⟩ := unaryType_ok rule
    have hn : some note = some { note with coercion := none } := by rw [← inner.coercion_eq]
    obtain ⟨m, w, p, hm', hw, hp, settled⟩ := Lowering.expression_unary hl
    cases hm.symm.trans hm'
    have coded := ih (inside.trans hn) suited_none hw
    obtain ⟨n, hn', ht⟩ := coded.ty_eq
    cases (inside.trans hn).symm.trans hn'
    have hpq : p = q := by
      rw [ht] at hp
      exact Option.some.inj (hp.symm.trans hq)
    subst hpq
    exact .unary hm coded hp accepted (Ty.size_of_primitive hq) suited settled
  | @cast mark operand written note target inner inside resolved possible ih =>
    have hm : notes.find? mark.id = some { Note.ofType target with coercion := c } := filed
    obtain ⟨m, w, hm', hw, settled⟩ := Lowering.expression_cast hl
    cases hm.symm.trans hm'
    have suits : Suited { note with
        coercion := asked target (Conversion.between note.ty target) } := by
      refine suited_asked fun needed => ?_
      obtain ⟨p, q, hp, hq, hb⟩ := between_primitives possible needed
      rw [hb] at possible needed ⊢
      exact ⟨p, q, hp, hq, Conversion.suits_ofPrimitives possible needed⟩
    have coded := ih inside suits hw
    obtain ⟨n, hn, ht⟩ := coded.ty_eq
    cases inside.symm.trans hn
    refine .cast hm coded ?_ suited settled
    rw [ht, finalType_asked]
    split
    · next hu =>
      exact sound.between_unneeded (inner.known sound known) (sound.resolve resolved) hu
    · rfl

theorem coercionTo_ok_none {note : Note} {target : Ty} (h : coercionTo note target = .ok none) :
    note.operand.conversionTo target = .unneeded := by
  unfold coercionTo at h
  dsimp only at h
  split at h
  · assumption
  · split at h
    · cases h
    · split at h <;> cases h

theorem Has.coded {e : Expr} {note : Note} (h : Has env notes scopes e note none)
    (sound : env.Sound) (known : KnownScopes env scopes) (agree : Agree frames scopes) {pool : Pool}
    {v : Lowering.Value} (hl : Lowering.expression notes frames pool e = some v) :
    Coded env notes scopes frames pool e v ∧ v.ty = note.ty := by
  have coded := h.1.coded sound known agree h.2 suited_none hl
  obtain ⟨n, hn, ht⟩ := coded.ty_eq
  cases h.2.symm.trans hn
  exact ⟨coded, ht⟩

theorem Tested.coded {e : Expr} (h : Tested env notes scopes e) (sound : env.Sound)
    (known : KnownScopes env scopes) (agree : Agree frames scopes) {pool : Pool}
    {v : Lowering.Value} (hl : Lowering.expression notes frames pool e = some v) :
    Coded env notes scopes frames pool e v ∧ v.ty.primitive? = some .bool := by
  obtain ⟨note, hn, hb⟩ := h
  obtain ⟨coded, ht⟩ := hn.coded sound known agree hl
  exact ⟨coded, by simpa [ht, Ty.isPrimitive] using hb⟩

/-- A value that is coerced to a type has the size of the type. -/
theorem Fits.coded {e : Expr} {target : Ty} (h : Fits env notes scopes e target)
    (sound : env.Sound) (known : KnownScopes env scopes) (agree : Agree frames scopes)
    (knownTarget : env.Known target) {pool : Pool} {v : Lowering.Value}
    (hl : Lowering.expression notes frames pool e = some v) :
    Coded env notes scopes frames pool e v ∧ v.ty.size = target.size := by
  obtain ⟨note, c, ⟨noted, filed⟩, hc⟩ := h
  cases c with
  | none =>
    have hu := coercionTo_ok_none hc
    obtain ⟨coded, ht⟩ := Has.coded ⟨noted, filed⟩ sound known agree hl
    rw [ht]
    exact ⟨coded, sound.conversionTo_unneeded (noted.known sound known) knownTarget hu⟩
  | some k =>
    obtain ⟨rfl, needed, implicit⟩ := coercionTo_ok hc
    have suited : Suited { note with
        coercion := some ⟨target, note.operand.conversionTo target⟩ } := by
      intro k hk
      cases hk
      exact sound.conversionTo_suits noted.secondary (Conversion.ne_impossible implicit) needed
    have coded := noted.coded sound known agree filed suited hl
    obtain ⟨n, hn, ht⟩ := coded.ty_eq
    cases filed.symm.trans hn
    rw [ht]
    exact ⟨coded, rfl⟩

theorem Initial.within {ty : Option TypeRef} {value : Option Expr} {t : Ty}
    (h : Initial env notes scopes ty value t) (closed : env.Closed K) (hs : Within K scopes) :
    K t := by
  match ty, value with
  | none, none => exact h.elim
  | none, some e =>
    obtain ⟨note, hn, rfl⟩ := h
    exact hn.1.within closed hs
  | some written, value => exact closed.resolve h.1

theorem Initial.known {ty : Option TypeRef} {value : Option Expr} {t : Ty}
    (h : Initial env notes scopes ty value t) (sound : env.Sound)
    (known : KnownScopes env scopes) : env.Known t :=
  h.within sound.closed known

theorem Initial.coded {s : Scene} {ty : Option TypeRef} {value : Option Expr} {t : Ty}
    (h : Initial env notes scopes ty value t) (sound : env.Sound)
    (known : KnownScopes env scopes) (agree : Agree s.frames scopes) {v : Lowering.Value}
    (hv : Lowering.initial env notes s ty value = some v) :
    v.ty = t ∧
      (value = none ∧ v.code = [.worded .pushZero t.size] ∧ v.pool = s.pool ∨
        ∃ e w, value = some e ∧ Coded env notes scopes s.frames s.pool e w ∧
          w.ty.size = t.size ∧ v.code = w.code ∧ v.pool = w.pool) := by
  have hty := h.ty_eq agree hv
  match ty, value with
  | none, none => exact h.elim
  | none, some e =>
    obtain ⟨note, hn, rfl⟩ := h
    obtain ⟨coded, ht⟩ := hn.coded sound known agree hv
    exact ⟨hty, Or.inr ⟨e, v, rfl, coded, by rw [ht], rfl, rfl⟩⟩
  | some written, none =>
    simp only [Lowering.initial, h.1, Except.toOption, Option.bind_eq_bind, Option.bind_some,
      Option.pure_def, Option.some.injEq] at hv
    subst hv
    exact ⟨hty, Or.inl ⟨rfl, rfl, rfl⟩⟩
  | some written, some e =>
    simp only [Lowering.initial, h.1, Except.toOption, Option.bind_eq_bind, Option.bind_some,
      Option.pure_def] at hv
    obtain ⟨w, hw, rest⟩ := Option.bind_eq_some_iff.mp hv
    cases rest
    obtain ⟨coded, ht⟩ := (h.2 e rfl).coded sound known agree (sound.resolve h.1) hw
    exact ⟨rfl, Or.inr ⟨e, w, rfl, coded, ht, rfl, rfl⟩⟩

theorem within_of_pathType (closed : env.Closed K) {path : List String} {ty last : Ty} (hk : K ty)
    (h : pathType ty path = .ok last) : K last := by
  induction path generalizing ty with
  | nil =>
    cases h
    exact hk
  | cons name rest ih =>
    simp only [pathType] at h
    split at h
    · cases h
    · split at h
      · cases h
      · next hf =>
        obtain ⟨field, hm, rfl⟩ := fieldType_ok hf
        exact ih (closed.fields hk field (List.mem_of_find?_eq_some hm)) h

theorem within_of_placeType (closed : env.Closed K) (hs : Within K scopes) {place : Place} {ty : Ty}
    (h : placeType scopes place = .ok ty) : K ty := by
  unfold placeType at h
  split at h
  · cases h
  · next hf => exact within_of_pathType closed (hs.find? hf) h

theorem known_of_placeType (sound : env.Sound) (known : KnownScopes env scopes) {place : Place}
    {ty : Ty} (h : placeType scopes place = .ok ty) : env.Known ty :=
  within_of_placeType sound.closed known h

theorem Within.opened (h : Within K scopes) : Within K ([] :: scopes) := by
  intro scope hs x hx
  rcases List.mem_cons.mp hs with rfl | hs
  · cases hx
  · exact h scope hs x hx

theorem KnownScopes.opened (h : KnownScopes env scopes) : KnownScopes env ([] :: scopes) :=
  Within.opened h

theorem Within.declares {after : Scopes} {name : String} {t : Ty} (h : Within K scopes) (ht : K t)
    (hd : Declares scopes name t after) : Within K after := by
  obtain ⟨inner, outer, rfl, -, rfl⟩ := hd
  intro scope hs x hx
  rcases List.mem_cons.mp hs with rfl | hs
  · rcases List.mem_cons.mp hx with rfl | hx
    · exact ht
    · exact h inner (List.mem_cons_self ..) x hx
  · exact h scope (List.mem_cons_of_mem _ hs) x hx

theorem Accepted.within {stmt : Stmt} {after : Scopes} (h : Accepted env notes scopes stmt after)
    (closed : env.Closed K) (hs : Within K scopes) : Within K after := by
  cases stmt with
  | declare position name ty value =>
    obtain ⟨t, hi, hd⟩ := h
    exact hs.declares (hi.within closed hs) hd
  | assign position target value => exact h.2 ▸ hs
  | discard position value => exact h.2 ▸ hs
  | block position body => exact h.2 ▸ hs
  | branch position e body otherwise =>
    cases otherwise with
    | none => exact h.2.2 ▸ hs
    | some body => exact h.2.2.2 ▸ hs
  | loop position e body => exact h.2.2 ▸ hs
  | halt position code => exact h ▸ hs
  | debug position => exact h ▸ hs

/-- The variables behind an accepted statement have types that values can have. -/
theorem Accepted.known {stmt : Stmt} {after : Scopes} (h : Accepted env notes scopes stmt after)
    (sound : env.Sound) (known : KnownScopes env scopes) : KnownScopes env after :=
  h.within sound.closed known

end

end Typing

end Bytescript
