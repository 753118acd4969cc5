import Mathlib
import Bytescript.Proofs.Realization

/-!
# Truth values among the bytes of a value

A type says which bytes of its values are truth values: the one byte of a truth value itself, and in
a record those of its fields. The marks of a type list this byte by byte, and some bytes respect
marks if each one that is marked is zero or one. Variables, parts of variables and the results of
operators have the marks of their types.
-/
namespace Bytescript

open Evaluation

/-- A byte of the values of a type is a truth value: the type is that of truth values, or the byte
is a truth value in a field. -/
inductive TruthAt : Ty → Nat → Prop
  | whole {t : Ty} (h : t.primitive? = some .bool) : TruthAt t 0
  | field {t : Ty} {f : Field Ty} {n : Nat} (hf : f ∈ t.definition.fields) (h : TruthAt f.ty n) :
      TruthAt t (f.offset + n)

def IsTruth (b : UInt8) : Prop := b = 0 ∨ b = 1

instance (b : UInt8) : Decidable (IsTruth b) := inferInstanceAs (Decidable (b = 0 ∨ b = 1))

/-- For each byte, whether it is marked as a truth value. -/
abbrev Marks := List Bool

/-- Every marked byte is zero or one. -/
def Respects (marks : Marks) (bs : Bytes) : Prop :=
  List.Forall₂ (fun mark b => mark = true → IsTruth b) marks bs

namespace Respects

variable {marks more : Marks} {bs x : Bytes} {start n : Nat}

theorem length_eq (h : Respects marks bs) : marks.length = bs.length := List.Forall₂.length_eq h

theorem append (h : Respects marks bs) (g : Respects more x) : Respects (marks ++ more) (bs ++ x) :=
  List.rel_append h g

theorem split (h : Respects (marks ++ more) bs) :
    ∃ front back, bs = front ++ back ∧ Respects marks front ∧ Respects more back := by
  induction marks generalizing bs with
  | nil => exact ⟨[], bs, rfl, .nil, h⟩
  | cons mark marks ih =>
    obtain ⟨⟩ | ⟨hb, h⟩ := h
    obtain ⟨front, back, rfl, hf, hk⟩ := ih h
    exact ⟨_ :: front, back, rfl, .cons hb hf, hk⟩

theorem part (h : Respects marks bs) (start n : Nat) :
    Respects ((marks.drop start).take n) (part bs start n) :=
  List.forall₂_take n (List.forall₂_drop start h)

theorem overwrite (h : Respects marks bs)
    (hx : Respects ((marks.drop start).take x.length) x) :
    Respects marks (Bytes.overwrite bs start x) := by
  have split : marks = marks.take start ++ (marks.drop start).take x.length ++
      marks.drop (start + x.length) := by
    rw [List.append_assoc, ← List.drop_drop, List.take_append_drop, List.take_append_drop]
  rw [split, Bytes.overwrite]
  have before : Respects (marks.take start) (bs.take start) := List.forall₂_take start h
  exact (before.append hx).append (List.forall₂_drop _ h)

theorem getElem? (h : Respects marks bs) {k : Nat} (marked : marks[k]? = some true) :
    ∃ b, bs[k]? = some b ∧ IsTruth b := by
  induction h generalizing k with
  | nil => cases marked
  | cons hb _ ih =>
    cases k with
    | zero => exact ⟨_, rfl, hb (by simpa using marked)⟩
    | succ k => exact ih (by simpa using marked)

end Respects

theorem respects_zeros (marks : Marks) : Respects marks (List.replicate marks.length 0) := by
  induction marks with
  | nil => exact .nil
  | cons mark marks ih => exact .cons (fun _ => Or.inl rfl) ih

theorem respects_unmarked (bs : Bytes) : Respects (List.replicate bs.length false) bs := by
  induction bs with
  | nil => exact .nil
  | cons b bs ih => exact .cons (fun h => by cases h) ih

theorem respects_truths {n : Nat} {bs : Bytes} (h : Respects (List.replicate n true) bs) :
    ∀ b ∈ bs, IsTruth b := by
  induction n generalizing bs with
  | zero =>
    cases h
    simp
  | succ n ih =>
    obtain ⟨⟩ | ⟨hb, h⟩ := h
    exact List.forall_mem_cons.mpr ⟨hb rfl, ih h⟩

namespace Ty

open Classical in
/-- The marks of the values of a type. -/
noncomputable def marks (t : Ty) : Marks :=
  (List.range t.size).map fun n => decide (TruthAt t n)

@[simp] theorem length_marks (t : Ty) : t.marks.length = t.size := by
  simp [marks]

theorem getElem?_marks {t : Ty} {n : Nat} (hn : n < t.size) :
    t.marks[n]? = some true ↔ TruthAt t n := by
  simp [marks, List.getElem?_range hn]

theorem marks_ext {t : Ty} {marks : Marks} (length : marks.length = t.size)
    (h : ∀ n < t.size, marks[n]? = some true ↔ TruthAt t n) : marks = t.marks := by
  refine List.ext_getElem (by simp [length]) fun n hl hr => ?_
  have hn : n < t.size := by simpa using hr
  have same := (h n hn).trans (getElem?_marks hn).symm
  rw [List.getElem?_eq_getElem hl, List.getElem?_eq_getElem hr, Option.some.injEq,
    Option.some.injEq] at same
  exact Bool.eq_iff_iff.mpr same

theorem marks_congr {t u : Ty} (size : t.size = u.size) (h : ∀ n, TruthAt t n ↔ TruthAt u n) :
    t.marks = u.marks :=
  marks_ext (by simpa using size) fun n hn => (getElem?_marks (size ▸ hn)).trans (h n)

theorem fields_of_primitive? {t : Ty} {p : Primitive} (h : t.primitive? = some p) :
    t.definition.fields = [] := by
  simp only [Ty.primitive?, DefinitionOf.primitive?] at h
  simp only [DefinitionOf.fields]
  split at h
  · next hs => rw [hs]
  · cases h

end Ty

def Primitive.marks (p : Primitive) : Marks := List.replicate p.size (p == .bool)

namespace Ty

theorem marks_of_primitive? {t : Ty} {p : Primitive} (h : t.primitive? = some p) :
    t.marks = p.marks := by
  refine (marks_ext (by simp [Primitive.marks, Ty.size_of_primitive h]) fun n hn => ?_).symm
  rw [Ty.size_of_primitive h] at hn
  rw [Primitive.marks, List.getElem?_replicate, if_pos hn, Option.some.injEq, beq_iff_eq]
  constructor
  · rintro rfl
    obtain rfl : n = 0 := Nat.lt_one_iff.mp hn
    exact .whole h
  · rintro (hw | ⟨hf, -⟩)
    · exact Option.some.inj (h.symm.trans hw)
    · simp [fields_of_primitive? h] at hf

theorem marks_of_isHandle {t : Ty} (h : t.isHandle) :
    t.marks = List.replicate handleSize false := by
  have shape : t.definition.shape = .handle := by
    simp only [Ty.isHandle, DefinitionOf.isHandle] at h
    split at h
    · assumption
    · cases h
  have hs := Ty.size_of_isHandle h
  refine (marks_ext (by simp [hs]) fun n hn => ?_).symm
  rw [List.getElem?_replicate, if_pos (hs ▸ hn)]
  refine ⟨fun hf => (by cases hf), ?_⟩
  rintro (hw | ⟨hf, -⟩)
  · simp [Ty.primitive?, DefinitionOf.primitive?, shape] at hw
  · simp [DefinitionOf.fields, shape] at hf

end Ty

namespace Definition

/-- No byte of a record belongs to two fields. -/
def Apart (d : Definition) : Prop :=
  ∀ f ∈ d.fields, ∀ g ∈ d.fields, ∀ n < f.ty.size, ∀ k < g.ty.size,
    f.offset + n = g.offset + k → f = g

theorem le_offset {fs : List (String × Ty)} {start : Nat} {f : Field Ty}
    (h : f ∈ layFrom start fs) : start ≤ f.offset := by
  induction fs generalizing start with
  | nil => cases h
  | cons x fs ih =>
    rcases List.mem_cons.mp h with rfl | h
    · exact Nat.le_refl _
    · exact Nat.le_trans (Nat.le_add_right ..) (ih h)

theorem apart_layFrom {fs : List (String × Ty)} {start : Nat} {f g : Field Ty}
    (hf : f ∈ layFrom start fs) (hg : g ∈ layFrom start fs) {n k : Nat} (hn : n < f.ty.size)
    (hk : k < g.ty.size) (h : f.offset + n = g.offset + k) : f = g := by
  induction fs generalizing start with
  | nil => cases hf
  | cons x fs ih =>
    rcases List.mem_cons.mp hf with rfl | hf <;> rcases List.mem_cons.mp hg with rfl | hg
    · rfl
    · have := le_offset hg
      dsimp only at hn h
      omega
    · have := le_offset hf
      dsimp only at hk h
      omega
    · exact ih hf hg

end Definition

namespace TypeScope

theorem Grows.apart {home : String} {records : List RecordDecl} {s t : TypeScope}
    (g : Grows .standard home records s t) (h : ∀ d ∈ s.types, Definition.Apart d) :
    ∀ d ∈ t.types, Definition.Apart d := by
  induction g with
  | refl => exact h
  | taken _ hm hd ih =>
    intro e he
    rcases mem_add he with he | ⟨rfl, -⟩
    · exact ih e he
    · rw [Catalog.standard_modules, List.mem_singleton] at hm
      subst hm
      intro f hf
      simp [Module.fields_of_mem_core hd] at hf
  | record _ _ _ ih =>
    intro e he
    rcases mem_add he with he | ⟨rfl, -⟩
    · exact ih e he
    · exact fun f hf g hg n hn k hk => Definition.apart_layFrom hf hg hn hk

end TypeScope

namespace Environment

variable {env : Environment}

/-- A visible type has the size and the truth values of the core type of its name and home, if there
is one. -/
def Aligned (env : Environment) : Prop :=
  ∀ c ∈ Module.core.types, ∀ d ∈ env.types.types, c.home = d.home → c.name = d.name →
    c.size = d.size ∧ ∀ n, TruthAt (.of c) n ↔ TruthAt (.of d) n

theorem Aligned.uniform (h : env.Aligned) : env.Uniform :=
  fun c hc d hd home name => (h c hc d hd home name).1

theorem aligned_of_automatic {issues : List Issue} {p : Program}
    (h : Environment.ofProgram .standard true p = (some env, issues)) : env.Aligned := by
  obtain ⟨laid, -, all⟩ := laid_ofProgram h
  intro c hc d hd _ hn
  obtain rfl := eq_of_name_eq laid.nodup (all rfl hc) hd hn
  exact ⟨rfl, fun _ => Iff.rfl⟩

structure Marking (env : Environment) : Prop where
  sound : env.Sound
  apart : ∀ {t}, env.Known t → Definition.Apart t.definition
  same : ∀ {t u}, env.Known t → env.Known u → t.same u → t.marks = u.marks

theorem marking_of_standard {issues : List Issue} {automatic : Bool} {p : Program}
    (h : Environment.ofProgram .standard automatic p = (some env, issues))
    (aligned : env.Aligned) : env.Marking := by
  obtain ⟨laid, -, -⟩ := laid_ofProgram h
  obtain ⟨-, -, grown, -⟩ := grows_ofProgram h
  have apart := grown.apart (by simp [TypeScope.empty])
  refine ⟨sound_of_standard h aligned.uniform, fun {t} ht => ?_, fun {t u} ht hu hs => ?_⟩
  · rcases ht.2 with hc | hd
    · intro f hf
      simp [Module.fields_of_mem_core hc] at hf
    · exact apart _ hd
  · obtain ⟨d, as⟩ := t
    obtain ⟨e, bs⟩ := u
    obtain ⟨rfl, hd⟩ := ht
    obtain ⟨rfl, he⟩ := hu
    obtain ⟨hh, hn⟩ := same_of hs
    change (Ty.of d).marks = (Ty.of e).marks
    rcases hd with hd | hd <;> rcases he with he | he
    · exact congrArg (fun d => (Ty.of d).marks) (eq_of_name_eq Module.nodup_core hd he hn)
    · obtain ⟨size, truths⟩ := aligned d hd e he hh hn
      exact Ty.marks_congr size truths
    · obtain ⟨size, truths⟩ := aligned e he d hd hh.symm hn.symm
      exact Ty.marks_congr size.symm fun n => (truths n).symm
    · exact congrArg (fun d => (Ty.of d).marks) (eq_of_name_eq laid.nodup hd he hn)

namespace Marking

theorem lt_size (h : env.Marking) {t : Ty} (ht : env.Known t) {n : Nat} (truth : TruthAt t n) :
    n < t.size := by
  induction truth with
  | whole hw =>
    rw [Ty.size_of_primitive hw]
    decide
  | field hf _ ih =>
    obtain ⟨known, hle⟩ := h.sound.fields ht _ hf
    have := ih known
    omega

/-- The marks of a field are the marks of the record at the bytes of the field. -/
theorem marks_field (h : env.Marking) {t : Ty} (ht : env.Known t) {f : Field Ty}
    (hf : f ∈ t.definition.fields) : (t.marks.drop f.offset).take f.ty.size = f.ty.marks := by
  obtain ⟨known, hle⟩ := h.sound.fields ht f hf
  refine Ty.marks_ext (by simp only [List.length_take, List.length_drop, Ty.length_marks]; omega)
    fun n hn => ?_
  rw [List.getElem?_take, if_pos hn, List.getElem?_drop, Ty.getElem?_marks (by omega)]
  constructor
  · generalize hk : f.offset + n = k
    rintro (hw | @⟨_, g, m, hg, truth⟩)
    · simp [Ty.fields_of_primitive? hw] at hf
    · have hm := h.lt_size (h.sound.fields ht g hg).1 truth
      obtain rfl := h.apart ht f hf g hg n hn m hm hk
      exact Nat.add_left_cancel hk ▸ truth
  · exact .field hf

theorem marks_path (h : env.Marking) {path : List String} {t last : Ty} {offset o : Nat}
    (ht : env.Known t) (found : Assembly.followPath offset t path = some (o, last)) :
    ∃ d, o = offset + d ∧ d + last.size ≤ t.size ∧
      (t.marks.drop d).take last.size = last.marks := by
  induction path generalizing offset t with
  | nil =>
    cases found
    exact ⟨0, rfl, by omega, by simp⟩
  | cons name rest ih =>
    simp only [Assembly.followPath] at found
    split at found
    · next f hf =>
      have mem := List.mem_of_find?_eq_some hf
      obtain ⟨known, hle⟩ := h.sound.fields ht f mem
      obtain ⟨d, rfl, hd, marks⟩ := ih known found
      refine ⟨f.offset + d, by omega, by omega, ?_⟩
      rw [← marks, ← h.marks_field ht mem, List.drop_take, List.take_take, List.drop_drop,
        Nat.min_eq_left (by omega)]
    · cases found

end Marking

end Environment

/-- The marks of the variables of some frames, the innermost frame on top. -/
noncomputable def frameMarks : List Frame → Marks
  | [] => []
  | f :: rest => frameMarks rest ++ f.declared.flatMap fun v => v.ty.marks

theorem Row.length_marks {start stop : Nat} {vs : List Variable} (row : Row start vs stop) :
    start + (vs.flatMap fun v => v.ty.marks).length = stop := by
  induction vs generalizing start with
  | nil => exact row
  | cons v vs ih =>
    have := ih row.2
    rw [List.flatMap_cons, List.length_append, Ty.length_marks]
    omega

theorem Tiled.length_marks {frames : List Frame} {n : Nat} (tiled : Tiled frames n) :
    (frameMarks frames).length = n := by
  induction frames generalizing n with
  | nil => exact tiled.symm
  | cons f rest ih =>
    rw [frameMarks, List.length_append, ih tiled.2]
    exact tiled.1.length_marks

theorem Row.marks_variable {start stop : Nat} {vs : List Variable} (row : Row start vs stop)
    {v : Variable} (hv : v ∈ vs) : ∃ front back,
      vs.flatMap (fun v => v.ty.marks) = front ++ v.ty.marks ++ back ∧
        start + front.length = v.offset := by
  induction vs generalizing start with
  | nil => cases hv
  | cons u vs ih =>
    rcases List.mem_cons.mp hv with rfl | hv
    · exact ⟨[], _, rfl, row.1.symm⟩
    · obtain ⟨front, back, hm, ho⟩ := ih row.2 hv
      refine ⟨u.ty.marks ++ front, back, ?_, ?_⟩
      · rw [List.flatMap_cons, hm]
        simp
      · rw [List.length_append, Ty.length_marks]
        omega

theorem Tiled.marks_variable {frames : List Frame} {n : Nat} (tiled : Tiled frames n) {f : Frame}
    (hf : f ∈ frames) {v : Variable} (hv : v ∈ f.declared) :
    ∃ front back, frameMarks frames = front ++ v.ty.marks ++ back ∧ front.length = v.offset := by
  induction frames generalizing n with
  | nil => cases hf
  | cons g rest ih =>
    rcases List.mem_cons.mp hf with rfl | hf
    · obtain ⟨front, back, hm, ho⟩ := tiled.1.marks_variable hv
      refine ⟨frameMarks rest ++ front, back, ?_, ?_⟩
      · rw [frameMarks, hm]
        simp
      · rw [List.length_append, tiled.2.length_marks, ho]
    · obtain ⟨front, back, hm, ho⟩ := ih tiled.2 hf
      refine ⟨front, back ++ g.declared.flatMap fun v => v.ty.marks, ?_, ho⟩
      rw [frameMarks, hm]
      simp

/-- The bytes at a place have the marks of its type. -/
theorem Tiled.marks_place {env : Environment} (marking : env.Marking) {frames : List Frame}
    {n : Nat} (tiled : Tiled frames n) {scopes : Typing.Scopes}
    (known : Typing.KnownScopes env scopes) (agree : Agree frames scopes) {p : Place} {o : Nat}
    {ty : Ty} (found : Lowering.place? frames p = some (o, ty)) :
    o + ty.size ≤ n ∧ ((frameMarks frames).drop o).take ty.size = ty.marks := by
  obtain ⟨v, hv, path⟩ := Option.bind_eq_some_iff.mp found
  have knownVariable : env.Known v.ty := Typing.Within.find? known (by rw [agree.find?, hv]; rfl)
  obtain ⟨f, hf, hd⟩ := List.exists_of_findSome?_eq_some hv
  obtain ⟨front, back, hm, ho⟩ := tiled.marks_variable hf (List.mem_of_find?_eq_some hd)
  obtain ⟨d, rfl, hle, marks⟩ := marking.marks_path knownVariable path
  have hl := tiled.length_marks
  rw [hm, List.length_append, List.length_append, Ty.length_marks] at hl
  refine ⟨by omega, ?_⟩
  rw [hm, ← ho, List.append_assoc, List.drop_length_add_append,
    List.drop_append_of_le_length (by rw [Ty.length_marks]; omega),
    List.take_append_of_le_length (by rw [List.length_drop, Ty.length_marks]; omega), marks]

namespace Conversion

/-- No conversion leads from another primitive to truth values. -/
theorem ofPrimitives_bool {p : Primitive} (h : ofPrimitives p .bool ≠ .impossible) : p = .bool := by
  by_contra hp
  rw [ofPrimitives, if_neg hp] at h
  cases hf : p.family <;> simp [Primitive.family] at h

theorem between_bool {t u : Ty} (hu : u.primitive? = some .bool)
    (possible : between t u ≠ .impossible) : between t u = .unneeded := by
  unfold between at possible ⊢
  split
  · rfl
  · next hs =>
    rw [if_neg hs, hu] at possible
    rw [hu]
    cases ht : t.primitive? with
    | none => simp [ht] at possible
    | some p =>
      simp only [ht] at possible
      obtain rfl := ofPrimitives_bool possible
      simp [ofPrimitives]

end Conversion

theorem Operand.conversionTo_bool {x : Operand} {target : Ty} (ht : target.primitive? = some .bool)
    (possible : x.conversionTo target ≠ .impossible) : x.conversionTo target = .unneeded := by
  rcases x.conversionTo_cases target with hd | ⟨s, p, -, hp, hsigned, -⟩
  · rw [hd] at possible ⊢
    exact Conversion.between_bool ht possible
  · cases ht.symm.trans hp
    cases hsigned

namespace Environment.Marking

variable {env : Environment}

theorem marks_eq_of_between (h : env.Marking) {t u : Ty} (ht : env.Known t) (hu : env.Known u)
    (hb : Conversion.between t u = .unneeded) : t.marks = u.marks := by
  unfold Conversion.between at hb
  split at hb
  · next hs => exact h.same ht hu hs
  · split at hb
    · next p q hp hq =>
      cases Conversion.eq_of_ofPrimitives hb
      rw [Ty.marks_of_primitive? hp, Ty.marks_of_primitive? hq]
    · cases hb

/-- A value that needs no conversion has the marks of the type that it is used at. -/
theorem marks_eq_of_unneeded (h : env.Marking) {x : Operand} {target : Ty} (hx : env.Known x.ty)
    (ht : env.Known target) (hc : x.conversionTo target = .unneeded) :
    x.ty.marks = target.marks := by
  rcases unneeded_cases hc with hb | hs
  · exact h.marks_eq_of_between hx ht hb
  · exact h.same hx ht hs

end Environment.Marking

theorem Respects.eq_of_bool {x : Bytes} (h : Respects Primitive.bool.marks x) :
    x = [0] ∨ x = [1] := by
  obtain ⟨⟩ | ⟨hb, ⟨⟩⟩ := h
  rcases hb rfl with rfl | rfl
  · exact Or.inl rfl
  · exact Or.inr rfl

namespace Evaluation

variable {p : Primitive} {x y z : Bytes}

theorem respects_of_ne_bool (hp : p ≠ .bool) (hx : x.length = p.size) : Respects p.marks x := by
  rw [Primitive.marks, beq_eq_false_iff_ne.mpr hp, ← hx]
  exact respects_unmarked x

theorem respects_truth (b : Bool) : Respects Primitive.bool.marks (truth b) := by
  cases b
  · exact .cons (fun _ => Or.inl rfl) .nil
  · exact .cons (fun _ => Or.inr rfl) .nil

def resultMarks (op : BinaryOp) (p : Primitive) : Marks :=
  match op.opClass with
  | .equality | .ordering => Primitive.bool.marks
  | .arithmetic | .bitwise | .logical => p.marks

/-- Operators on truth values give truth values. -/
theorem respects_binary {op : BinaryOp} (accepted : Typing.accepts op p)
    (hx : Respects p.marks x) (hy : Respects p.marks y) (h : binary op p x y = .ok z) :
    Respects (resultMarks op p) z := by
  have number : p ≠ .bool → resultMarks op p = p.marks → Typing.resultSize op p = p.size →
      Respects (resultMarks op p) z :=
    fun hp marks size => marks ▸ respects_of_ne_bool hp ((length_binary h).trans size)
  cases op with
  | eq | ne | lt | le | gt | ge =>
    cases h
    exact respects_truth _
  | add | sub | mul | div | mod | shiftLeft | shiftRight =>
    refine number ?_ rfl rfl
    rintro rfl
    exact absurd accepted (by decide)
  | bitAnd | bitOr | bitXor | and | or =>
    by_cases hp : p = .bool
    · subst hp
      cases h
      rcases hx.eq_of_bool with rfl | rfl <;> rcases hy.eq_of_bool with rfl | rfl <;>
        exact .cons (fun _ => by decide) .nil
    · exact number hp rfl rfl

theorem respects_unary {op : UnaryOp} (accepted : Typing.acceptsUnary op p)
    (hx : Respects p.marks x) : Respects p.marks (unary op p x) := by
  by_cases hp : p = .bool
  · subst hp
    cases op with
    | not =>
      rcases hx.eq_of_bool with rfl | rfl <;>
        exact .cons (fun _ => by decide) .nil
    | neg | inc | dec => exact absurd accepted (by decide)
  · exact respects_of_ne_bool hp (length_unary op)

end Evaluation

end Bytescript
