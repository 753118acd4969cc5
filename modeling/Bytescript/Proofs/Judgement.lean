import Mathlib
import Bytescript.Proofs.Tree
import Bytescript.Typing.Infer

/-!
# Typing as a judgement

`Noted` says without any state what the notes on the parts of an expression are. A run of the typing
that ends without an error leaves notes that satisfy this judgement, and they satisfy it whatever
happens to the notes of other expressions (`expression_noted`).
-/
namespace Bytescript

namespace Notes

theorem find?_coerce (notes : Notes) (id other : UInt32) (c : Coercion) :
    (notes.coerce id c).find? other =
      if other = id then (notes.find? other).map fun n => { n with coercion := some c }
      else notes.find? other := by
  obtain ⟨entries⟩ := notes
  simp only [find?, coerce]
  induction entries with
  | nil => simp
  | cons entry rest ih =>
    obtain ⟨key, note⟩ := entry
    by_cases ho : other = key
    · subst ho
      by_cases hk : other = id <;> simp [hk]
    · have hb : (other == key) = false := beq_false_of_ne ho
      by_cases hk : key = id
      · subst hk
        simp [List.lookup_cons, hb, ih]
      · simp [hk, List.lookup_cons, hb, ih]

end Notes

namespace Typing

/-- The coercion that a conversion to a type requires, if any. -/
def asked (target : Ty) (conversion : Conversion) : Option Coercion :=
  if conversion = .unneeded then none else some ⟨target, conversion⟩

/-- An expression has a note, its own coercion apart, and the notes on all inside it are right. -/
inductive Noted (env : Environment) (scopes : Scopes) (notes : Notes) : Expr → Note → Prop
  | literal {mark : Mark} {value : Literal} {note : Note}
      (rule : literalNote env.core value = .ok note) :
      Noted env scopes notes (.literal mark value) note
  | variable {mark : Mark} {name : String} {ty : Ty} (found : scopes.find? name = some ty) :
      Noted env scopes notes (.variable mark name) (.ofType ty)
  | field {mark : Mark} {target : Expr} {name : String} {owner : Note} {ty : Ty}
      (place : target.isPlace) (inner : Noted env scopes notes target owner)
      (filed : notes.find? target.id = some owner) (rule : fieldType owner.ty name = .ok ty) :
      Noted env scopes notes (.field mark target name) (.ofType ty)
  | binary {mark : Mark} {op : BinaryOp} {left right : Expr} {l r : Note} {u : Unified}
      (onLeft : Noted env scopes notes left l)
      (filedLeft : notes.find? left.id = some { l with coercion := asked u.result u.left })
      (onRight : Noted env scopes notes right r)
      (filedRight : notes.find? right.id = some { r with coercion := asked u.result u.right })
      (rule : binaryOperands op l r = .ok u) :
      Noted env scopes notes (.binary mark op left right)
        (.ofType (binaryType env.core op u.result))
  | unary {mark : Mark} {op : UnaryOp} {operand : Expr} {note : Note} {ty : Ty}
      (inner : Noted env scopes notes operand note)
      (filed : notes.find? operand.id = some note) (rule : unaryType op note.ty = .ok ty) :
      Noted env scopes notes (.unary mark op operand) (.ofType ty)
  | cast {mark : Mark} {operand : Expr} {written : TypeRef} {note : Note} {target : Ty}
      (inner : Noted env scopes notes operand note)
      (filed : notes.find? operand.id =
        some { note with coercion := asked target (Conversion.between note.ty target) })
      (resolved : env.types.resolve written = .ok target)
      (possible : Conversion.between note.ty target ≠ .impossible) :
      Noted env scopes notes (.cast mark operand written) (.ofType target)

theorem literalNote_coercion {core : CoreTypes} {value : Literal} {note : Note}
    (h : literalNote core value = .ok note) : note.coercion = none := by
  cases value <;> simp only [literalNote] at h <;> (try split at h) <;> cases h <;> rfl

theorem Noted.coercion_eq {env : Environment} {scopes : Scopes} {notes : Notes} {e : Expr}
    {note : Note} (h : Noted env scopes notes e note) : note.coercion = none := by
  cases h with
  | literal rule => exact literalNote_coercion rule
  | _ => rfl

/-- No error has been found. -/
def Clean (f : Findings) : Prop := Issue.anyAtLeast .error f.issues = false

section

variable {α β : Type}

/-- A run never removes an error. -/
def Grows (m : Typed α) : Prop := ∀ f, Clean (m f).2 → Clean f

theorem Grows.pure (a : α) : Grows (pure a) := fun _ h => h

theorem Grows.bind {m : Typed α} {k : α → Typed β} (hm : Grows m) (hk : ∀ a, Grows (k a)) :
    Grows (m >>= k) :=
  fun f h => hm f (hk _ _ h)

theorem clean_append (notes : Notes) {is js : List Issue} (h : Clean ⟨notes, is ++ js⟩) :
    Clean ⟨notes, is⟩ ∧ Issue.anyAtLeast .error js = false := by
  simpa [Clean, Issue.anyAtLeast] using h

theorem grows_issues (js : List Issue) :
    Grows (modify fun f => { f with issues := f.issues ++ js } : Typed Unit) :=
  fun f h => (clean_append f.notes h).1

theorem grows_report (p : Problem) (position : Position) : Grows (report p position) :=
  grows_issues _

theorem grows_giveUp (p : Problem) (position : Position) :
    Grows (giveUp p position : Typed (Option α)) :=
  (grows_report p position).bind fun _ => Grows.pure _

theorem grows_file (mark : Mark) (note : Note) : Grows (file mark note) := fun _ h => h

theorem grows_convert (id : UInt32) (target : Ty) (conversion : Conversion) :
    Grows (convert id target conversion) := by
  unfold convert
  split
  · exact Grows.pure _
  · exact fun _ h => h

def fieldFrom (mark : Mark) (name : String) : Option Note → Typed (Option Note)
  | none => return none
  | some owner =>
    match fieldType owner.ty name with
    | .error p => giveUp p mark.position
    | .ok ty => file mark (.ofType ty)

def binaryFrom (env : Environment) (mark : Mark) (op : BinaryOp) (left right : UInt32) :
    Option Note → Option Note → Typed (Option Note)
  | some l, some r =>
    match binaryOperands op l r with
    | .error p => giveUp p mark.position
    | .ok unified => do
      convert left unified.result unified.left
      convert right unified.result unified.right
      file mark (.ofType (binaryType env.core op unified.result))
  | _, _ => return none

def unaryFrom (mark : Mark) (op : UnaryOp) : Option Note → Typed (Option Note)
  | none => return none
  | some note =>
    match unaryType op note.ty with
    | .error p => giveUp p mark.position
    | .ok ty => file mark (.ofType ty)

def castFrom (env : Environment) (mark : Mark) (operand : UInt32) (written : TypeRef) :
    Option Note → Typed (Option Note)
  | none => return none
  | some note =>
    match env.types.resolve written with
    | .error issue => do
      modify fun f => { f with issues := f.issues ++ [issue] }
      return none
    | .ok target =>
      match Conversion.between note.ty target with
      | .impossible => giveUp (.invalidCast note.ty target) mark.position
      | .unneeded => do
        report (.redundantCast target) mark.position
        file mark (.ofType target)
      | conversion => do
        convert operand target conversion
        file mark (.ofType target)

theorem expression_field (env : Environment) (scopes : Scopes) (mark : Mark) (target : Expr)
    (name : String) : expression env scopes (.field mark target name) =
      if target.isPlace then expression env scopes target >>= fieldFrom mark name
      else giveUp .fieldOfValue mark.position := by
  rw [expression]
  rfl

theorem expression_binary (env : Environment) (scopes : Scopes) (mark : Mark) (op : BinaryOp)
    (left right : Expr) : expression env scopes (.binary mark op left right) =
      expression env scopes left >>= fun l =>
        expression env scopes right >>= binaryFrom env mark op left.id right.id l := by
  rw [expression]
  rfl

theorem expression_unary (env : Environment) (scopes : Scopes) (mark : Mark) (op : UnaryOp)
    (operand : Expr) : expression env scopes (.unary mark op operand) =
      expression env scopes operand >>= unaryFrom mark op := by
  rw [expression]
  rfl

theorem expression_cast (env : Environment) (scopes : Scopes) (mark : Mark) (operand : Expr)
    (written : TypeRef) : expression env scopes (.cast mark operand written) =
      expression env scopes operand >>= castFrom env mark operand.id written := by
  rw [expression]
  rfl

theorem grows_fieldFrom (mark : Mark) (name : String) (r : Option Note) :
    Grows (fieldFrom mark name r) := by
  unfold fieldFrom
  split
  · exact Grows.pure _
  · split
    · exact grows_giveUp _ _
    · exact grows_file mark _

theorem grows_binaryFrom (env : Environment) (mark : Mark) (op : BinaryOp) (left right : UInt32)
    (l r : Option Note) : Grows (binaryFrom env mark op left right l r) := by
  unfold binaryFrom
  split
  · split
    · exact grows_giveUp _ _
    · exact (grows_convert _ _ _).bind fun _ => (grows_convert _ _ _).bind fun _ =>
        grows_file mark _
  · exact Grows.pure _

theorem grows_unaryFrom (mark : Mark) (op : UnaryOp) (r : Option Note) :
    Grows (unaryFrom mark op r) := by
  unfold unaryFrom
  split
  · exact Grows.pure _
  · split
    · exact grows_giveUp _ _
    · exact grows_file mark _

theorem grows_castFrom (env : Environment) (mark : Mark) (operand : UInt32) (written : TypeRef)
    (r : Option Note) : Grows (castFrom env mark operand written r) := by
  unfold castFrom
  split
  · exact Grows.pure _
  · split
    · exact (grows_issues _).bind fun _ => Grows.pure _
    · split
      · exact grows_giveUp _ _
      · exact (grows_report _ _).bind fun _ => grows_file mark _
      · exact (grows_convert _ _ _).bind fun _ => grows_file mark _

theorem grows_expression (env : Environment) (scopes : Scopes) (e : Expr) :
    Grows (expression env scopes e) := by
  induction e with
  | literal mark value =>
    unfold expression
    split
    · exact grows_giveUp _ _
    · exact grows_file mark _
  | «variable» mark name =>
    unfold expression
    split
    · exact grows_giveUp _ _
    · exact grows_file mark _
  | field mark target name ih =>
    rw [expression_field]
    split
    · exact ih.bind (grows_fieldFrom mark name)
    · exact grows_giveUp _ _
  | binary mark op left right ihl ihr =>
    rw [expression_binary]
    exact ihl.bind fun l => ihr.bind (grows_binaryFrom env mark op left.id right.id l)
  | unary mark op operand ih =>
    rw [expression_unary]
    exact ih.bind (grows_unaryFrom mark op)
  | cast mark operand written ih =>
    rw [expression_cast]
    exact ih.bind (grows_castFrom env mark operand.id written)

/-- A run, if it leaves no error, ends as `P` says. -/
def Ensures (m : Typed α) (f : Findings) (P : α → Findings → Prop) : Prop :=
  Clean (m f).2 → P (m f).1 (m f).2

theorem Ensures.bind {m : Typed α} {k : α → Typed β} {f : Findings}
    {P : α → Findings → Prop} {Q : β → Findings → Prop} (hm : Ensures m f P)
    (hg : ∀ a, Grows (k a)) (hk : ∀ a g, P a g → Ensures (k a) g Q) : Ensures (m >>= k) f Q :=
  fun h => hk _ _ (hm (hg _ _ h)) h

theorem ensures_issue {i : Issue} {f : Findings} {P : Unit → Findings → Prop}
    (hi : i.severity = .error) :
    Ensures (modify fun f => { f with issues := f.issues ++ [i] }) f P := by
  intro h
  have he := (clean_append f.notes h).2
  simp [Issue.anyAtLeast, hi] at he

theorem ensures_report {p : Problem} {position : Position} {f : Findings}
    {P : Unit → Findings → Prop} (hp : p.kind.severity = .error) :
    Ensures (report p position) f P :=
  ensures_issue hp

theorem ensures_giveUp {p : Problem} {position : Position} {f : Findings}
    {P : Option α → Findings → Prop} (hp : p.kind.severity = .error) :
    Ensures (giveUp p position) f P :=
  Ensures.bind (ensures_report hp : Ensures _ f fun _ _ => False) (fun _ => Grows.pure _)
    fun _ _ h => h.elim

end

theorem literalNote_error {core : CoreTypes} {value : Literal} {p : Problem}
    (h : literalNote core value = .error p) : p.kind.severity = .error := by
  have hl : ∀ text e, (literalProblem text e).kind.severity = .error := by
    intro text e
    cases e <;> rfl
  cases value <;> simp only [literalNote] at h <;> (try split at h) <;> cases h <;> exact hl _ _

theorem fieldType_error {owner : Ty} {name : String} {p : Problem}
    (h : fieldType owner name = .error p) : p.kind.severity = .error := by
  unfold fieldType at h
  split at h <;> cases h
  rfl

theorem binaryOperands_error {op : BinaryOp} {l r : Note} {p : Problem}
    (h : binaryOperands op l r = .error p) : p.kind.severity = .error := by
  unfold binaryOperands at h
  repeat' split at h
  all_goals cases h
  all_goals rfl

theorem unaryType_error {op : UnaryOp} {ty : Ty} {p : Problem}
    (h : unaryType op ty = .error p) : p.kind.severity = .error := by
  unfold unaryType at h
  repeat' split at h
  all_goals cases h
  all_goals rfl

theorem pathType_error {path : List String} {ty : Ty} {p : Problem}
    (h : pathType ty path = .error p) : p.kind.severity = .error := by
  induction path generalizing ty with
  | nil => cases h
  | cons name rest ih =>
    simp only [pathType] at h
    split at h
    · cases h
      rfl
    · split at h
      · next hf =>
        cases h
        exact fieldType_error hf
      · exact ih h

theorem placeType_error {scopes : Scopes} {place : Place} {p : Problem}
    (h : placeType scopes place = .error p) : p.kind.severity = .error := by
  unfold placeType at h
  split at h
  · cases h
    rfl
  · exact pathType_error h

theorem coercionTo_error {note : Note} {target : Ty} {p : Problem}
    (h : coercionTo note target = .error p) : p.kind.severity = .error := by
  unfold coercionTo at h
  dsimp only at h
  repeat' split at h
  all_goals cases h
  all_goals rfl

end Typing

mutual

theorem TypeScope.resolve_error (scope : TypeScope) :
    ∀ (t : TypeRef) (i : Issue), scope.resolve t = .error i → i.severity = .error
  | ⟨name, args, position⟩, i, h => by
    simp only [TypeScope.resolve] at h
    split at h
    · cases h
      rfl
    · split at h
      · cases h
        rfl
      · cases hr : scope.resolveAll args with
        | error j =>
          rw [hr] at h
          cases h
          exact scope.resolveAll_error args _ hr
        | ok tys =>
          rw [hr] at h
          cases h

theorem TypeScope.resolveAll_error (scope : TypeScope) :
    ∀ (ts : List TypeRef) (i : Issue), scope.resolveAll ts = .error i → i.severity = .error
  | [], i, h => by cases h
  | t :: ts, i, h => by
    simp only [TypeScope.resolveAll] at h
    split at h
    · next hr =>
      cases h
      exact scope.resolve_error t _ hr
    · cases hr : scope.resolveAll ts with
      | error j =>
        rw [hr] at h
        cases h
        exact scope.resolveAll_error ts _ hr
      | ok tys =>
        rw [hr] at h
        cases h

end

namespace Typing

/-- The result of typing an expression: the notes of others are unchanged, its own note is given,
and the notes on its parts are right in all notes that agree with them. -/
def Leaves (env : Environment) (scopes : Scopes) (e : Expr) (f : Findings) (r : Option Note)
    (g : Findings) : Prop :=
  (∀ i, i ∉ e.ids → g.notes.find? i = f.notes.find? i) ∧
    ∃ note, r = some note ∧ g.notes.find? e.id = some note ∧
      ∀ notes : Notes, (∀ i ∈ e.partIds, notes.find? i = g.notes.find? i) →
        Noted env scopes notes e note

theorem leaves_file {env : Environment} {scopes : Scopes} {e : Expr} {f g : Findings} {note : Note}
    (hd : e.ids.Nodup) (kept : ∀ i, i ∉ e.partIds → g.notes.find? i = f.notes.find? i)
    (noted : ∀ notes : Notes, (∀ i ∈ e.partIds, notes.find? i = g.notes.find? i) →
      Noted env scopes notes e note) :
    Ensures (file e.mark note) g (Leaves env scopes e f) := by
  intro _
  have hi : ∀ i, (g.notes.insert e.id note).find? i =
      if i = e.id then some note else g.notes.find? i := fun i => Notes.find?_insert ..
  refine ⟨fun i h => ?_, note, rfl, ?_, fun notes h => noted notes fun i hp => ?_⟩
  · rw [Expr.ids_eq, List.mem_append, not_or] at h
    refine (hi i).trans ?_
    rw [if_neg (by simpa using h.2), kept i h.1]
  · exact (hi e.id).trans (if_pos rfl)
  · refine (h i hp).trans ((hi i).trans ?_)
    rw [if_neg]
    rintro rfl
    exact Expr.id_notMem_partIds hd hp

theorem convert_apply (id : UInt32) (target : Ty) (conversion : Conversion) (f : Findings)
    (i : UInt32) : (convert id target conversion f).2.notes.find? i =
      if i = id ∧ conversion ≠ .unneeded then
        (f.notes.find? i).map fun n => { n with coercion := some ⟨target, conversion⟩ }
      else f.notes.find? i := by
  unfold convert
  by_cases hc : conversion = .unneeded
  · simp only [hc, if_true, ne_eq, not_true_eq_false, and_false, if_false]
    rfl
  · simp only [hc, if_false]
    refine (Notes.find?_coerce ..).trans ?_
    simp [hc]

theorem convert_find?_ne {id i : UInt32} (h : i ≠ id) (target : Ty) (conversion : Conversion)
    (f : Findings) : (convert id target conversion f).2.notes.find? i = f.notes.find? i := by
  rw [convert_apply, if_neg fun hi => h hi.1]

theorem convert_find?_self {id : UInt32} {f : Findings} {note : Note}
    (h : f.notes.find? id = some note) (hn : note.coercion = none) (target : Ty)
    (conversion : Conversion) : (convert id target conversion f).2.notes.find? id =
      some { note with coercion := asked target conversion } := by
  rw [convert_apply, h, asked]
  by_cases hc : conversion = .unneeded
  · simp [hc, ← hn]
  · simp [hc]

theorem leaves_binary {env : Environment} {scopes : Scopes} {mark : Mark} {op : BinaryOp}
    {left right : Expr} {f g h : Findings} {l r : Note}
    (hd : (Expr.binary mark op left right).ids.Nodup)
    (apart : ∀ i ∈ left.ids, ∀ j ∈ right.ids, i ≠ j)
    (keptLeft : ∀ i, i ∉ left.ids → g.notes.find? i = f.notes.find? i)
    (filedLeft : g.notes.find? left.id = some l)
    (notedLeft : ∀ notes : Notes, (∀ i ∈ left.partIds, notes.find? i = g.notes.find? i) →
      Noted env scopes notes left l)
    (keptRight : ∀ i, i ∉ right.ids → h.notes.find? i = g.notes.find? i)
    (filedRight : h.notes.find? right.id = some r)
    (notedRight : ∀ notes : Notes, (∀ i ∈ right.partIds, notes.find? i = h.notes.find? i) →
      Noted env scopes notes right r) :
    Ensures (binaryFrom env mark op left.id right.id (some l) (some r)) h
      (Leaves env scopes (.binary mark op left right) f) := by
  have hl := (notedLeft g.notes fun _ _ => rfl).coercion_eq
  have hr := (notedRight h.notes fun _ _ => rfl).coercion_eq
  have dp := Expr.nodup_partIds hd
  rw [Expr.partIds_binary, List.nodup_append] at dp
  obtain ⟨dl, dr, -⟩ := dp
  unfold binaryFrom
  dsimp only
  split
  · next hb => exact ensures_giveUp (binaryOperands_error hb)
  · next u hb =>
    -- The two conversions change the operands' own notes and no others.
    set c := (convert left.id u.result u.left h).2 with hc
    set c' := (convert right.id u.result u.right c).2 with hc'
    have keep : ∀ i, i ≠ left.id → i ≠ right.id → c'.notes.find? i = h.notes.find? i := by
      intro i h₁ h₂
      rw [hc', convert_find?_ne h₂, hc, convert_find?_ne h₁]
    have other : left.id ≠ right.id := apart _ left.id_mem_ids _ right.id_mem_ids
    have onLeft : c'.notes.find? left.id =
        some { l with coercion := asked u.result u.left } := by
      rw [hc', convert_find?_ne other, hc]
      refine convert_find?_self ?_ hl _ _
      rw [keptRight _ fun hi => apart _ left.id_mem_ids _ hi rfl, filedLeft]
    have onRight : c'.notes.find? right.id =
        some { r with coercion := asked u.result u.right } := by
      rw [hc']
      refine convert_find?_self ?_ hr _ _
      rw [hc, convert_find?_ne other.symm, filedRight]
    refine leaves_file (g := c') hd (fun i hi => ?_) fun notes hn => ?_
    · rw [Expr.partIds_binary, List.mem_append, not_or] at hi
      rw [keep i (fun e => hi.1 (e ▸ left.id_mem_ids)) fun e => hi.2 (e ▸ right.id_mem_ids),
        keptRight i hi.2, keptLeft i hi.1]
    · rw [Expr.partIds_binary] at hn
      have inLeft : ∀ i ∈ left.ids, notes.find? i = c'.notes.find? i :=
        fun i hi => hn i (List.mem_append_left _ hi)
      have inRight : ∀ i ∈ right.ids, notes.find? i = c'.notes.find? i :=
        fun i hi => hn i (List.mem_append_right _ hi)
      refine .binary (notedLeft notes fun i hi => ?_) ?_ (notedRight notes fun i hi => ?_) ?_ hb
      · have hm := Expr.mem_ids_of_mem_partIds hi
        rw [inLeft i hm, keep i (fun e => Expr.id_notMem_partIds dl (e ▸ hi))
          (apart i hm _ right.id_mem_ids), keptRight i fun hr => apart i hm i hr rfl]
      · rw [inLeft _ left.id_mem_ids, onLeft]
      · have hm := Expr.mem_ids_of_mem_partIds hi
        rw [inRight i hm, keep i (apart _ left.id_mem_ids i hm).symm
          fun e => Expr.id_notMem_partIds dr (e ▸ hi)]
      · rw [inRight _ right.id_mem_ids, onRight]

theorem leaves_cast {env : Environment} {scopes : Scopes} {mark : Mark} {operand : Expr}
    {written : TypeRef} {f g : Findings} {note : Note}
    (hd : (Expr.cast mark operand written).ids.Nodup)
    (kept : ∀ i, i ∉ operand.ids → g.notes.find? i = f.notes.find? i)
    (filed : g.notes.find? operand.id = some note)
    (noted : ∀ notes : Notes, (∀ i ∈ operand.partIds, notes.find? i = g.notes.find? i) →
      Noted env scopes notes operand note) :
    Ensures (castFrom env mark operand.id written (some note)) g
      (Leaves env scopes (.cast mark operand written) f) := by
  have hn := (noted g.notes fun _ _ => rfl).coercion_eq
  have dp : operand.ids.Nodup := Expr.nodup_partIds hd
  unfold castFrom
  dsimp only
  split
  · next hr =>
    exact Ensures.bind (ensures_issue (env.types.resolve_error _ _ hr) :
      Ensures _ g fun _ _ => False) (fun _ => Grows.pure _) fun _ _ h => h.elim
  · next target hr =>
    -- Whatever the conversion is, only the operand's own note may change.
    have finish : ∀ c : Findings, Conversion.between note.ty target ≠ .impossible →
        (∀ i, i ≠ operand.id → c.notes.find? i = g.notes.find? i) →
        c.notes.find? operand.id =
          some { note with coercion := asked target (Conversion.between note.ty target) } →
        Ensures (file mark (.ofType target)) c
          (Leaves env scopes (.cast mark operand written) f) := by
      intro c possible keep own
      refine leaves_file hd (fun i hi => ?_) fun notes hn => ?_
      · rw [keep i fun e => hi (e ▸ operand.id_mem_ids), kept i hi]
      · refine .cast (noted notes fun i hi => ?_) ?_ hr possible
        · rw [hn i (Expr.mem_ids_of_mem_partIds hi),
            keep i fun e => Expr.id_notMem_partIds dp (e ▸ hi)]
        · rw [hn _ operand.id_mem_ids, own]
    split
    · exact ensures_giveUp rfl
    · next hc =>
      refine fun hclean => finish _ (by simp [hc]) (fun _ _ => rfl) ?_ hclean
      refine filed.trans ?_
      simp [hc, asked, ← hn]
    · next c hi hu =>
      refine fun hclean => finish _ hi (fun i h => convert_find?_ne h _ _ _) ?_ hclean
      exact convert_find?_self filed hn _ _

/-- Typing an expression without an error leaves notes that the judgement describes. -/
theorem expression_noted (env : Environment) (scopes : Scopes) (e : Expr) (hd : e.ids.Nodup)
    (f : Findings) : Ensures (expression env scopes e) f (Leaves env scopes e f) := by
  induction e generalizing f with
  | literal mark value =>
    unfold expression
    split
    · next h => exact ensures_giveUp (literalNote_error h)
    · next h => exact leaves_file hd (fun _ _ => rfl) fun _ _ => .literal h
  | «variable» mark name =>
    unfold expression
    split
    · exact ensures_giveUp rfl
    · next h => exact leaves_file hd (fun _ _ => rfl) fun _ _ => .variable h
  | field mark target name ih =>
    rw [expression_field]
    split
    · next hp =>
      refine (ih (Expr.nodup_partIds hd) f).bind (grows_fieldFrom mark name) fun r g hl => ?_
      obtain ⟨kept, owner, rfl, filed, noted⟩ := hl
      unfold fieldFrom
      dsimp only
      split
      · next h => exact ensures_giveUp (fieldType_error h)
      · next h =>
        refine leaves_file hd kept fun notes hn => .field hp ?_ ?_ h
        · exact noted notes fun i hi => hn i (Expr.mem_ids_of_mem_partIds hi)
        · rw [hn _ target.id_mem_ids, filed]
    · exact ensures_giveUp rfl
  | binary mark op left right ihl ihr =>
    rw [expression_binary]
    have hp := Expr.nodup_partIds hd
    rw [Expr.partIds_binary, List.nodup_append] at hp
    obtain ⟨dl, dr, apart⟩ := hp
    refine (ihl dl f).bind
      (fun l => (grows_expression env scopes right).bind (grows_binaryFrom env mark op _ _ l))
      fun l g hl => ?_
    refine (ihr dr g).bind (grows_binaryFrom env mark op _ _ l) fun r h hr => ?_
    obtain ⟨keptLeft, l, rfl, filedLeft, notedLeft⟩ := hl
    obtain ⟨keptRight, r, rfl, filedRight, notedRight⟩ := hr
    exact leaves_binary hd apart keptLeft filedLeft notedLeft keptRight filedRight notedRight
  | unary mark op operand ih =>
    rw [expression_unary]
    refine (ih (Expr.nodup_partIds hd) f).bind (grows_unaryFrom mark op) fun r g hl => ?_
    obtain ⟨kept, note, rfl, filed, noted⟩ := hl
    unfold unaryFrom
    dsimp only
    split
    · next h => exact ensures_giveUp (unaryType_error h)
    · next h =>
      refine leaves_file hd kept fun notes hn => .unary ?_ ?_ h
      · exact noted notes fun i hi => hn i (Expr.mem_ids_of_mem_partIds hi)
      · rw [hn _ operand.id_mem_ids, filed]
  | cast mark operand written ih =>
    rw [expression_cast]
    refine (ih (Expr.nodup_partIds hd) f).bind (grows_castFrom env mark _ written) fun r g hl => ?_
    obtain ⟨kept, note, rfl, filed, noted⟩ := hl
    exact leaves_cast hd kept filed noted

end Typing

end Bytescript
