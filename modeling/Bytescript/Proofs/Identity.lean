import Mathlib
import Bytescript.Proofs.Depth
import Bytescript.Proofs.Gates

/-!
# Types of one name

Types are compared by home, name and arguments, and a value needs no conversion to a type that is
the same in this sense. Its bytes are those of that type only if the two have one size. This is so
in every program that sees no two types of one name and different sizes: with the standard catalog
if the core module is visible, and with any catalog that gives each name one size if no record of
the program has the home and the name of a type in the catalog.
-/
namespace Bytescript

namespace Environment

/-- The types that values and places of a program can have: those of literals, those that it can
name, and those of fields of such types. -/
inductive Occurs (env : Environment) : Ty → Prop
  | primitive (p : Primitive) : Occurs env (env.core.primitive p)
  | text : Occurs env env.core.text
  | written {written : TypeRef} {t : Ty} (h : env.types.resolve written = .ok t) : Occurs env t
  | field {t : Ty} {f : Field Ty} (h : Occurs env t) (hf : f ∈ t.definition.fields) :
      Occurs env f.ty

/-- Types that compare as the same have one size. -/
def Unambiguous (env : Environment) : Prop :=
  ∀ t u, env.Occurs t → env.Occurs u → t.same u → t.size = u.size

/-- The sizes of types fit the widths of instructions, and a truth value has one byte. -/
structure Narrow (env : Environment) : Prop where
  size_lt : ∀ t, env.Occurs t → t.size < 65536
  bool : env.core.bool.size = 1

variable {env : Environment}

theorem occurs_closed (env : Environment) : env.Closed env.Occurs where
  primitive := .primitive
  text := .text
  resolve := .written
  fields := fun h _ hf => .field h hf

theorem Closed.of_occurs {K : Ty → Prop} (closed : env.Closed K) {t : Ty} (h : env.Occurs t) :
    K t := by
  induction h with
  | primitive p => exact closed.primitive p
  | text => exact closed.text
  | written h => exact closed.resolve h
  | field _ hf ih => exact closed.fields ih _ hf

theorem Sound.unambiguous (sound : env.Sound) : env.Unambiguous := by
  intro t u ht hu same
  exact sound.size_eq (sound.closed.of_occurs ht) (sound.closed.of_occurs hu) same

theorem Sound.narrow (sound : env.Sound) (small : env.Small) : env.Narrow where
  size_lt := fun _ ht => small.known (sound.closed.of_occurs ht)
  bool := sound.size_bool

end Environment

namespace Catalog

inductive Holds (c : Catalog) : Definition → Prop
  | listed {m : Module} {d : Definition} (hm : m ∈ c.modules) (hd : d ∈ m.types) : Holds c d
  | field {d : Definition} {f : Field Ty} (h : Holds c d) (hf : f ∈ d.fields) :
      Holds c f.ty.definition

/-- A catalog gives each home and name one size. -/
def Coherent (c : Catalog) : Prop :=
  ∀ d e, c.Holds d → c.Holds e → d.home = e.home → d.name = e.name → d.size = e.size

theorem mem_core_of_holds {d : Definition} (h : standard.Holds d) : d ∈ Module.core.types := by
  induction h with
  | listed hm hd =>
    rw [standard_modules, List.mem_singleton] at hm
    exact hm ▸ hd
  | field _ hf ih => simp [Module.fields_of_mem_core ih] at hf

theorem coherent_standard : standard.Coherent := by
  intro d e hd he _ hn
  rw [Environment.eq_of_name_eq Module.nodup_core (mem_core_of_holds hd) (mem_core_of_holds he) hn]

theorem holds_of_coreTypes? {c : Catalog} {core : CoreTypes} (h : c.coreTypes? = some core) :
    (∀ p, c.Holds (core.primitive p).definition) ∧ c.Holds core.text.definition := by
  obtain ⟨m, hm, hc⟩ := Option.bind_eq_some_iff.mp h
  have listed : ∀ {name : String} {d : Definition}, m.find? name = some d → c.Holds d :=
    fun hd => .listed (List.mem_of_find?_eq_some hm) (List.mem_of_find?_eq_some hd)
  unfold CoreTypes.ofModule? at hc
  split at hc
  · obtain ⟨text, ht, rfl⟩ := Option.map_eq_some_iff.mp hc
    refine ⟨fun p => ?_, listed ht⟩
    exact listed (Option.some_get _).symm
  · cases hc

end Catalog

/-- No record of a program has the home and the name of a definition in a catalog. -/
def Program.Apart (p : Program) (c : Catalog) : Prop :=
  ∀ r ∈ p.records, ∀ d, c.Holds d → d.home = p.name.getD Environment.defaultHome → d.name ≠ r.name

namespace TypeScope

variable {catalog : Catalog} {home : String} {records : List RecordDecl} {s : TypeScope}

structure Own (home : String) (records : List RecordDecl) (s : TypeScope) (d : Definition) :
    Prop where
  home_eq : d.home = home
  name_mem : ∃ r ∈ records, d.name = r.name
  fields : ∀ f ∈ d.fields, f.ty.definition ∈ s.types

theorem Own.add {d : Definition} (h : Own home records s d) (e : Definition) :
    Own home records (s.add e) d :=
  ⟨h.home_eq, h.name_mem, fun f hf => subset_add s e (h.fields f hf)⟩

theorem Grows.origin {t : TypeScope} (h : Grows catalog home records .empty t) :
    ∀ d ∈ t.types, catalog.Holds d ∨ Own home records t d := by
  induction h with
  | refl => simp [TypeScope.empty]
  | taken _ hm hd ih =>
    intro e he
    rcases mem_add he with he | ⟨rfl, -⟩
    · exact (ih e he).imp_right fun own => own.add _
    · exact Or.inl (.listed hm hd)
  | @record t r fields _ hr resolved ih =>
    intro e he
    rcases mem_add he with he | ⟨rfl, -⟩
    · exact (ih e he).imp_right fun own => own.add _
    · refine Or.inr ⟨rfl, ⟨r, hr, rfl⟩, fun f hf => ?_⟩
      obtain ⟨⟨x, hx, ht⟩, -⟩ := Definition.mem_layFrom hf
      obtain ⟨written, hw⟩ := resolved x hx
      rw [← ht]
      exact subset_add _ _ (find?_mem (resolve_ok hw).1).1

end TypeScope

namespace Environment

/-- If a catalog gives each name one size and the records of a program are apart from it, types of
one name have one size. -/
theorem unambiguous_of_coherent {catalog : Catalog} {automatic : Bool} {p : Program}
    {env : Environment} {issues : List Issue}
    (h : Environment.ofProgram catalog automatic p = (some env, issues))
    (coherent : catalog.Coherent) (apart : p.Apart catalog) : env.Unambiguous := by
  obtain ⟨home, core, grown, -⟩ := grows_ofProgram h
  obtain ⟨primitive, text⟩ := Catalog.holds_of_coreTypes? core
  have origin := grown.origin
  have nodup := grown.nodup List.nodup_nil
  -- Every type that occurs is in the catalog or visible.
  have closed : env.Closed fun t =>
      catalog.Holds t.definition ∨ t.definition ∈ env.types.types := {
    primitive := fun p => Or.inl (primitive p)
    text := Or.inl text
    resolve := fun hr => Or.inr (TypeScope.find?_mem (TypeScope.resolve_ok hr).1).1
    fields := by
      intro t ht f hf
      have held : catalog.Holds t.definition →
          catalog.Holds f.ty.definition ∨ f.ty.definition ∈ env.types.types :=
        fun hh => Or.inl (.field hh hf)
      rcases ht with hh | hm
      · exact held hh
      · rcases origin _ hm with hh | own
        · exact held hh
        · exact Or.inr (own.fields f hf) }
  have foreign : ∀ {d e : Definition}, catalog.Holds d →
      TypeScope.Own env.home p.records env.types e → d.home = e.home → d.name ≠ e.name := by
    intro d e hd own hh hn
    obtain ⟨r, hr, hr'⟩ := own.name_mem
    exact apart r hr d hd (by rw [hh, own.home_eq, home]) (hn.trans hr')
  intro t u ht hu same
  obtain ⟨hh, hn⟩ := same_of same
  have ho : ∀ {t : Ty}, env.Occurs t → catalog.Holds t.definition ∨
      t.definition ∈ env.types.types ∧
        TypeScope.Own env.home p.records env.types t.definition := by
    intro t ht
    rcases closed.of_occurs ht with hd | hm
    · exact Or.inl hd
    · exact (origin _ hm).imp_right fun own => ⟨hm, own⟩
  rcases ho ht with dt | ⟨mt, ot⟩ <;> rcases ho hu with du | ⟨mu, ou⟩
  · exact coherent _ _ dt du hh hn
  · exact absurd hn (foreign dt ou hh)
  · exact absurd hn.symm (foreign du ot hh.symm)
  · exact congrArg DefinitionOf.size (eq_of_name_eq nodup mt mu hn)

end Environment

namespace Typing

section

variable {env : Environment} {scopes : Scopes} {notes : Notes} {frames : List Frame} {pool : Pool}
  {v : Lowering.Value}

theorem proper_none : Proper none := by
  intro k hk
  cases hk

theorem proper_asked {target : Ty} {c : Conversion} (possible : c ≠ .impossible) :
    Proper (asked target c) := by
  intro k hk
  obtain ⟨rfl, needed⟩ := asked_target hk
  exact ⟨needed, possible⟩

theorem size_finalType_asked {note : Note} {target : Ty} {c : Conversion}
    (h : c = .unneeded → note.ty.size = target.size) :
    (Note.finalType { note with coercion := asked target c }).size = target.size := by
  rw [finalType_asked]
  split
  · next hc => exact h hc
  · rfl

theorem Noted.unified_size {left right : Expr} {l r : Note} {op : BinaryOp} {u : Unified}
    (onLeft : Noted env scopes notes left l) (onRight : Noted env scopes notes right r)
    (unambiguous : env.Unambiguous) (within : Within env.Occurs scopes)
    (rule : binaryOperands op l r = .ok u) :
    Proper (asked u.result u.left) ∧ Proper (asked u.result u.right) ∧
      (Note.finalType { l with coercion := asked u.result u.left }).size = u.result.size ∧
      (Note.finalType { r with coercion := asked u.result u.right }).size = u.result.size := by
  obtain ⟨-, -, -, -, -, -, -, hu⟩ := binaryOperands_ok rule
  have occursLeft := onLeft.within env.occurs_closed within
  have occursRight := onRight.within env.occurs_closed within
  rcases Operand.unify_ok hu with ⟨hr, hleft, hright, hi⟩ | ⟨hr, hleft, hright, hi⟩
  · rw [hr]
    refine ⟨proper_asked (by simp [hleft]), proper_asked hi, size_finalType_asked fun _ => rfl,
      size_finalType_asked fun hn => ?_⟩
    exact Environment.size_eq_of_unneeded (unambiguous _ _ occursRight occursLeft) (hright ▸ hn)
  · rw [hr]
    refine ⟨proper_asked hi, proper_asked (by simp [hright]), size_finalType_asked fun hn => ?_,
      size_finalType_asked fun _ => rfl⟩
    exact Environment.size_eq_of_unneeded (unambiguous _ _ occursLeft occursRight) (hleft ▸ hn)

/-- The code of an expression adds as many bytes as its final type has. -/
theorem Noted.depthAfter_eq {e : Expr} {bare : Note} (h : Noted env scopes notes e bare)
    (unambiguous : env.Unambiguous) (narrow : env.Narrow) (within : Within env.Occurs scopes)
    (agree : Agree frames scopes) {c : Option Coercion}
    (filed : notes.find? e.id = some { bare with coercion := c }) (proper : Proper c)
    (hl : Lowering.expression notes frames pool e = some v) (n : Nat) :
    v.ty = Note.finalType { bare with coercion := c } ∧ depthAfter n v.code = n + v.ty.size := by
  have closed := env.occurs_closed
  induction h generalizing c pool v n with
  | @literal mark value note rule =>
    have hm : notes.find? mark.id = some { note with coercion := c } := filed
    have noted : Noted env scopes notes (.literal mark value) note := .literal rule
    have small := narrow.size_lt _ (noted.within closed within)
    obtain ⟨_, k, hn, -, settled⟩ := Lowering.expression_literal hl
    cases hm.symm.trans hn
    refine ⟨Coded.settled_ty settled rfl, depthAfter_settle proper settled rfl ?_⟩
    exact depthAfter_literal pool k small n
  | @«variable» mark name ty found =>
    have noted : Noted env scopes notes (.variable mark name) (.ofType ty) := .variable found
    have hm : notes.find? mark.id = some { Note.ofType ty with coercion := c } := filed
    obtain ⟨place, offset, hp, ho⟩ := noted.place rfl agree
    cases hp
    obtain ⟨_, _, _, hn, ho', settled⟩ := Lowering.expression_variable hl
    cases hm.symm.trans hn
    cases ho.symm.trans ho'
    refine ⟨Coded.settled_ty settled rfl, depthAfter_settle proper settled rfl ?_⟩
    have small := narrow.size_lt _ (noted.within closed within)
    simp [Instruction.effect_pushStack small]
  | @field mark target name owner ty isPlace inner inside rule ih =>
    have noted : Noted env scopes notes (.field mark target name) (.ofType ty) :=
      .field isPlace inner inside rule
    have hm : notes.find? mark.id = some { Note.ofType ty with coercion := c } := filed
    obtain ⟨place, offset, hp, ho⟩ := noted.place isPlace agree
    obtain ⟨_, _, _, _, hn, hp', ho', settled⟩ := Lowering.expression_field hl
    cases hm.symm.trans hn
    cases hp.symm.trans hp'
    cases ho.symm.trans ho'
    refine ⟨Coded.settled_ty settled rfl, depthAfter_settle proper settled rfl ?_⟩
    have small := narrow.size_lt _ (noted.within closed within)
    simp [Instruction.effect_pushStack small]
  | @binary mark op left right l r u onLeft filedLeft onRight filedRight rule ihl ihr =>
    have hm : notes.find? mark.id =
      some { Note.ofType (binaryType env.core op u.result) with coercion := c } := filed
    obtain ⟨properLeft, properRight, sizeLeft, sizeRight⟩ :=
      onLeft.unified_size onRight unambiguous within rule
    obtain ⟨_, lv, rv, p, hn, hlv, hrv, hp, settled⟩ := Lowering.expression_binary hl
    cases hm.symm.trans hn
    obtain ⟨tyLeft, depthLeft⟩ := ihl filedLeft properLeft hlv n
    obtain ⟨tyRight, depthRight⟩ := ihr filedRight properRight hrv (n + lv.ty.size)
    have left_eq : lv.ty.size = u.result.size := by rw [tyLeft, sizeLeft]
    have right_eq : rv.ty.size = u.result.size := by rw [tyRight, sizeRight]
    have hps := Ty.size_of_primitive hp
    refine ⟨Coded.settled_ty settled rfl, depthAfter_settle proper settled rfl ?_⟩
    have result : (binaryType env.core op u.result).size = resultSize op p :=
      size_binaryType narrow.bool (left_eq.symm.trans hps)
    simp only [depthAfter_append, depthLeft, depthRight, depthAfter_cons, depthAfter_nil,
      Lowering.effect_binary, Note.ofType, result]
    omega
  | @unary mark op operand note ty inner inside rule ih =>
    have hm : notes.find? mark.id = some { Note.ofType ty with coercion := c } := filed
    obtain ⟨q, hq, -, rfl⟩ := unaryType_ok rule
    have hn : some note = some { note with coercion := none } := by rw [← inner.coercion_eq]
    obtain ⟨_, w, p, hm', hw, hp, settled⟩ := Lowering.expression_unary hl
    cases hm.symm.trans hm'
    obtain ⟨ty, depth⟩ := ih (inside.trans hn) proper_none hw n
    have hps := Ty.size_of_primitive hp
    have operand_eq : w.ty.size = note.ty.size := by rw [ty]; rfl
    refine ⟨Coded.settled_ty settled rfl, depthAfter_settle proper settled rfl ?_⟩
    simp only [depthAfter_append, depth, depthAfter_cons, depthAfter_nil, Lowering.effect_unary,
      Note.ofType]
    omega
  | @cast mark operand written note target inner inside resolved possible ih =>
    have hm : notes.find? mark.id = some { Note.ofType target with coercion := c } := filed
    obtain ⟨_, w, hm', hw, settled⟩ := Lowering.expression_cast hl
    cases hm.symm.trans hm'
    obtain ⟨ty, depth⟩ := ih inside (proper_asked possible) hw n
    have size : w.ty.size = target.size := by
      rw [ty]
      refine size_finalType_asked fun hc => Environment.size_eq_of_between ?_ hc
      exact unambiguous _ _ (inner.within closed within) (.written resolved)
    refine ⟨Coded.settled_ty settled rfl, depthAfter_settle proper settled rfl ?_⟩
    rw [depth, size]
    rfl

theorem Noted.of_mem {e x : Expr} {note : Note} (h : Noted env scopes notes e note)
    (hx : x ∈ e.nodes) : ∃ bare, Noted env scopes notes x bare := by
  have self : ∀ {e : Expr} {note : Note}, Noted env scopes notes e note → x = e →
      ∃ bare, Noted env scopes notes x bare := by
    rintro e note h rfl
    exact ⟨note, h⟩
  induction h with
  | literal rule =>
    simp only [Expr.nodes, List.mem_singleton] at hx
    exact self (.literal rule) hx
  | «variable» found =>
    simp only [Expr.nodes, List.mem_singleton] at hx
    exact self (.variable found) hx
  | field place inner filed rule ih =>
    simp only [Expr.nodes, List.mem_append, List.mem_singleton] at hx
    exact hx.elim ih (self (.field place inner filed rule))
  | binary onLeft filedLeft onRight filedRight rule ihl ihr =>
    simp only [Expr.nodes, List.mem_append, List.mem_singleton] at hx
    rcases hx with (hx | hx) | hx
    · exact ihl hx
    · exact ihr hx
    · exact self (.binary onLeft filedLeft onRight filedRight rule) hx
  | unary inner filed rule ih =>
    simp only [Expr.nodes, List.mem_append, List.mem_singleton] at hx
    exact hx.elim ih (self (.unary inner filed rule))
  | cast inner filed resolved possible ih =>
    simp only [Expr.nodes, List.mem_append, List.mem_singleton] at hx
    exact hx.elim ih (self (.cast inner filed resolved possible))

end

/-- A value, the type that a program requires of it, and the variables in scope. -/
structure Use where
  scopes : Scopes
  value : Expr
  target : Ty

def castUses (env : Environment) (scopes : Scopes) (e : Expr) : List Use :=
  e.nodes.filterMap fun
    | .cast _ operand written =>
      (env.types.resolve written).toOption.map fun target => ⟨scopes, operand, target⟩
    | _ => none

def scopesAfter (env : Environment) (notes : Notes) (scopes : Scopes) : Stmt → Scopes
  | .declare _ name written value =>
    let ty :=
      match written with
      | some written => (env.types.resolve written).toOption
      | none => (value.bind fun e => notes.find? e.id).map Note.ty
    match scopes, ty with
    | inner :: outer, some ty => ((name, ty) :: inner) :: outer
    | _, _ => scopes
  | _ => scopes

mutual

def uses (env : Environment) (notes : Notes) (scopes : Scopes) : Stmt → List Use
  | .declare _ _ written (some e) =>
    castUses env scopes e ++
      (written.bind fun w => (env.types.resolve w).toOption).toList.map fun ty => ⟨scopes, e, ty⟩
  | .declare _ _ _ none => []
  | .assign _ target e =>
    castUses env scopes e ++ (placeType scopes target).toOption.toList.map fun ty => ⟨scopes, e, ty⟩
  | .discard _ e => castUses env scopes e
  | .block _ body => usesAll env notes ([] :: scopes) body
  | .branch _ e body otherwise =>
    castUses env scopes e ++ usesAll env notes ([] :: scopes) body ++
      (match otherwise with
      | some body => usesAll env notes ([] :: scopes) body
      | none => [])
  | .loop _ e body => castUses env scopes e ++ usesAll env notes ([] :: scopes) body
  | .halt .. | .debug _ => []

def usesAll (env : Environment) (notes : Notes) (scopes : Scopes) : List Stmt → List Use
  | [] => []
  | s :: rest =>
    uses env notes scopes s ++ usesAll env notes (scopesAfter env notes scopes s) rest

end

/-- A value with right notes is converted to the required type, or needs no conversion. -/
structure Use.Served (env : Environment) (notes : Notes) (use : Use) : Prop where
  within : Within env.Occurs use.scopes
  occurs : env.Occurs use.target
  noted : ∃ note c, Has env notes use.scopes use.value note c ∧ Proper c ∧
    (∀ k ∈ c, k.target = use.target) ∧
    (c = none → Conversion.between note.ty use.target = .unneeded ∨ note.ty.same use.target)

section

variable {env : Environment} {scopes : Scopes} {notes : Notes}

theorem served_cast (within : Within env.Occurs scopes) {e : Expr} {note : Note}
    (h : Noted env scopes notes e note) {use : Use} (hu : use ∈ castUses env scopes e) :
    use.Served env notes := by
  obtain ⟨x, hx, hu⟩ := List.mem_filterMap.mp hu
  obtain ⟨bare, noted⟩ := h.of_mem hx
  cases noted with
  | @cast mark operand written note target inner filed resolved possible =>
    simp only [resolved, Except.toOption, Option.map_some, Option.some.injEq] at hu
    subst hu
    refine ⟨within, .written resolved, note, _, ⟨inner, filed⟩, proper_asked possible, ?_, ?_⟩
    · intro k hk
      rw [(asked_target hk).1]
    · intro hn
      by_contra needed
      rw [not_or] at needed
      simp [asked, needed.1] at hn
  | _ => cases hu

theorem served_fits (within : Within env.Occurs scopes) {e : Expr} {target : Ty}
    (h : Fits env notes scopes e target) (occurs : env.Occurs target) :
    Use.Served env notes ⟨scopes, e, target⟩ := by
  obtain ⟨note, c, has, hc⟩ := h
  refine ⟨within, occurs, note, c, has, ?_⟩
  cases c with
  | none =>
    refine ⟨proper_none, by simp, fun _ => ?_⟩
    exact Environment.unneeded_cases (coercionTo_ok_none hc)
  | some k =>
    obtain ⟨rfl, needed, implicit⟩ := coercionTo_ok hc
    refine ⟨?_, by simp, fun h => (by cases h)⟩
    intro k hk
    cases hk
    exact ⟨needed, Conversion.ne_impossible implicit⟩

theorem Fits.noted {e : Expr} {target : Ty} (h : Fits env notes scopes e target) :
    ∃ note, Noted env scopes notes e note := by
  obtain ⟨note, c, has, -⟩ := h
  exact ⟨note, has.1⟩

theorem Accepted.scopesAfter_eq {stmt : Stmt} {after : Scopes}
    (h : Accepted env notes scopes stmt after) : after = scopesAfter env notes scopes stmt := by
  cases stmt with
  | declare position name written value =>
    obtain ⟨t, initial, inner, outer, rfl, -, rfl⟩ := h
    match written, value with
    | none, none => exact initial.elim
    | none, some e =>
      obtain ⟨note, ⟨-, filed⟩, rfl⟩ := initial
      simp [scopesAfter, filed]
    | some written, value => simp [scopesAfter, initial.1, Except.toOption]
  | assign position target value => exact h.2
  | discard position value => exact h.2
  | block position body => exact h.2
  | branch position e body otherwise =>
    cases otherwise with
    | none => exact h.2.2
    | some body => exact h.2.2.2
  | loop position e body => exact h.2.2
  | halt position code => exact h
  | debug position => exact h

end

theorem served_all (env : Environment) (notes : Notes) :
    (∀ stmt scopes after, Within env.Occurs scopes → Accepted env notes scopes stmt after →
      ∀ use ∈ uses env notes scopes stmt, use.Served env notes) ∧
    ∀ body scopes after, Within env.Occurs scopes → AcceptedAll env notes scopes body after →
      ∀ use ∈ usesAll env notes scopes body, use.Served env notes := by
  have cases : Stmt.Cases
      (fun stmt => ∀ scopes after, Within env.Occurs scopes →
        Accepted env notes scopes stmt after →
        ∀ use ∈ uses env notes scopes stmt, use.Served env notes)
      (fun body => ∀ scopes after, Within env.Occurs scopes →
        AcceptedAll env notes scopes body after →
        ∀ use ∈ usesAll env notes scopes body, use.Served env notes) := {
    declare := by
      intro position name written value scopes after within h use hu
      obtain ⟨t, initial, -⟩ := h
      match written, value with
      | none, none => exact initial.elim
      | none, some e =>
        obtain ⟨note, has, -⟩ := initial
        simp only [uses, Option.bind_none, Option.toList_none, List.map_nil,
          List.append_nil] at hu
        exact served_cast within has.1 hu
      | some written, none => simp [uses] at hu
      | some written, some e =>
        have fits := initial.2 e rfl
        obtain ⟨note, noted⟩ := fits.noted
        simp only [uses, Option.bind_some, initial.1, Except.toOption, Option.toList_some,
          List.map_cons, List.map_nil, List.mem_append, List.mem_singleton] at hu
        rcases hu with hu | rfl
        · exact served_cast within noted hu
        · exact served_fits within fits (.written initial.1)
    assign := by
      intro position target value scopes after within h use hu
      obtain ⟨⟨t, ht, fits⟩, -⟩ := h
      obtain ⟨note, noted⟩ := fits.noted
      simp only [uses, ht, Except.toOption, Option.toList_some, List.map_cons, List.map_nil,
        List.mem_append, List.mem_singleton] at hu
      rcases hu with hu | rfl
      · exact served_cast within noted hu
      · exact served_fits within fits (within_of_placeType env.occurs_closed within ht)
    discard := by
      intro position value scopes after within h use hu
      obtain ⟨⟨note, has⟩, -⟩ := h
      exact served_cast within has.1 hu
    block := by
      intro position body ih scopes after within h use hu
      obtain ⟨⟨inner, hb⟩, -⟩ := h
      exact ih _ inner within.opened hb use hu
    branch := by
      intro position e body ih scopes after within h use hu
      obtain ⟨⟨note, has, -⟩, ⟨inner, hb⟩, -⟩ := h
      simp only [uses, List.append_nil, List.mem_append] at hu
      rcases hu with hu | hu
      · exact served_cast within has.1 hu
      · exact ih _ inner within.opened hb use hu
    branchElse := by
      intro position e body otherwise ihb iho scopes after within h use hu
      obtain ⟨⟨note, has, -⟩, ⟨inner, hb⟩, ⟨outer, ho⟩, -⟩ := h
      simp only [uses, List.mem_append] at hu
      rcases hu with (hu | hu) | hu
      · exact served_cast within has.1 hu
      · exact ihb _ inner within.opened hb use hu
      · exact iho _ outer within.opened ho use hu
    loop := by
      intro position e body ih scopes after within h use hu
      obtain ⟨⟨note, has, -⟩, ⟨inner, hb⟩, -⟩ := h
      simp only [uses, List.mem_append] at hu
      rcases hu with hu | hu
      · exact served_cast within has.1 hu
      · exact ih _ inner within.opened hb use hu
    halt := by
      intro position code scopes after within h use hu
      simp [uses] at hu
    debug := by
      intro position scopes after within h use hu
      simp [uses] at hu
    nil := by
      intro scopes after within h use hu
      simp [usesAll] at hu
    cons := by
      intro stmt rest ihs ihr scopes after within h use hu
      obtain ⟨middle, hm, hr⟩ := h
      have later := hm.within env.occurs_closed within
      simp only [usesAll, List.mem_append] at hu
      rw [← hm.scopesAfter_eq] at hu
      rcases hu with hu | hu
      · exact ihs scopes middle within hm use hu
      · exact ihr middle after later hr use hu }
  exact ⟨cases.one, cases.all⟩

/-- Unless types of one name differ in size, a value that is not converted has the size of the
required type, and the code of every value pushes that many bytes. -/
theorem Use.Served.size_eq {env : Environment} {notes : Notes} {use : Use}
    (served : use.Served env notes) (unambiguous : env.Unambiguous) :
    ∃ note, notes.find? use.value.id = some note ∧
      (note.coercion = none → note.ty.size = use.target.size) ∧
      (env.Narrow → ∀ a slot b, a.pool.mark < 2 ^ 32 → Agree a.frames use.scopes →
        Generate.expression notes use.value a = .ok (slot, b) →
        b.stackSize = a.stackSize + use.target.size) := by
  obtain ⟨within, occurs, note, c, ⟨noted, filed⟩, proper, target, unconverted⟩ := served
  have size : c = none → note.ty.size = use.target.size := by
    intro hc
    have named := unambiguous _ _ (noted.within env.occurs_closed within) occurs
    rcases unconverted hc with hb | hs
    · exact Environment.size_eq_of_between named hb
    · exact named hs
  refine ⟨_, filed, size, fun narrow a slot b low agree generated => ?_⟩
  have gives := Generate.expression_gives notes use.value low
  cases hv : Lowering.expression notes a.frames a.pool use.value with
  | none =>
    rw [hv] at gives
    obtain ⟨e, failed⟩ := gives
    cases failed.symm.trans generated
  | some v =>
    rw [hv] at gives
    obtain ⟨-, address, hr⟩ := gives.of_ok generated
    cases hr
    obtain ⟨ty, depth⟩ := noted.depthAfter_eq unambiguous narrow within agree filed proper hv
      a.stackSize
    have final : v.ty.size = use.target.size := by
      rw [ty]
      cases c with
      | none => exact size rfl
      | some k => exact congrArg Ty.size (target k rfl)
    change depthAfter a.stackSize v.code = _
    rw [depth, final]

end Typing

namespace Program

/-- For every value that a compiled program gives to a new variable of a written type, assigns or
casts: a value that is not converted has the size of the required type, unless there are types of
one name and different sizes. The code of the value pushes as many bytes as that type has, so a
variable is exactly the bytes that were pushed for it. There are no such types with the standard
catalog if the core module is visible, nor with a catalog that gives each name one size if the
records of the program are apart from it. -/
theorem unconverted_size_eq (options : CompileOptions) (catalog : Catalog) (time : Int64)
    (p : Program) (script : Script) (distinct : p.Distinct)
    (compiled : (p.compile options catalog time).script = some script) :
    ∃ env, (Environment.ofProgram catalog options.automatic p).1 = some env ∧
      (env.Unambiguous →
        ∀ use ∈ Typing.usesAll env (Typing.ofProgram env p).notes [[]] p.body,
          ∃ note, (Typing.ofProgram env p).notes.find? use.value.id = some note ∧
            (note.coercion = none → note.ty.size = use.target.size) ∧
            (env.Narrow → ∀ a slot b, a.pool.mark < 2 ^ 32 → Agree a.frames use.scopes →
              Generate.expression (Typing.ofProgram env p).notes use.value a = .ok (slot, b) →
              b.stackSize = a.stackSize + use.target.size)) ∧
      (catalog = .standard → options.automatic = true →
        env.Unambiguous ∧ (env.Small → env.Narrow)) ∧
      (catalog.Coherent → p.Apart catalog → env.Unambiguous) := by
  obtain ⟨env, issues, b, after, he, accepted, -, -⟩ := exists_of_compile distinct compiled
  have start : Typing.Within env.Occurs [[]] := by simp [Typing.Within]
  refine ⟨env, by rw [he], fun unambiguous use hu => ?_, ?_, ?_⟩
  · have served := (Typing.served_all env _).2 p.body [[]] after start accepted use hu
    exact served.size_eq unambiguous
  · rintro rfl automatic
    rw [automatic] at he
    have sound := Environment.sound_of_standard he (Environment.uniform_of_automatic he)
    exact ⟨sound.unambiguous, sound.narrow⟩
  · exact Environment.unambiguous_of_coherent he

def pairCopy : Program where
  name := none
  imports := []
  records := [⟨"pair", true, [⟨"low", ⟨"u32", [], ⟨1, 1⟩⟩, ⟨1, 1⟩⟩,
    ⟨"high", ⟨"u64", [], ⟨1, 1⟩⟩, ⟨1, 1⟩⟩], ⟨1, 1⟩⟩]
  body := [
    .declare ⟨2, 1⟩ "x" (some ⟨"pair", [], ⟨2, 1⟩⟩) none,
    .declare ⟨3, 1⟩ "y" (some ⟨"pair", [], ⟨3, 1⟩⟩) (some (.variable ⟨0, ⟨3, 2⟩⟩ "x")),
    .assign ⟨4, 1⟩ ⟨"y", ["low"]⟩
      (.cast ⟨2, ⟨4, 2⟩⟩ (.field ⟨3, ⟨4, 3⟩⟩ (.variable ⟨4, ⟨4, 4⟩⟩ "x") "low")
        ⟨"u32", [], ⟨4, 2⟩⟩)]

theorem pairCopy_apart : pairCopy.Apart .standard := by
  intro r _ d hd home
  rcases Module.mem_core.mp (Catalog.mem_core_of_holds hd) with ⟨p, rfl⟩ | rfl
  · exact absurd home (by change Module.coreName ≠ Environment.defaultHome; decide)
  · exact absurd home (by change Module.coreName ≠ Environment.defaultHome; decide)

theorem pairCopy_unconverted :
    Catalog.standard.Coherent ∧ pairCopy.Apart .standard ∧
    ∃ env, (Environment.ofProgram .standard true pairCopy).1 = some env ∧ env.Unambiguous ∧
      (Typing.usesAll env (Typing.ofProgram env pairCopy).notes [[]] pairCopy.body).map
        (fun use => use.target.size) = [12, 4, 4] ∧
      ∀ use ∈ Typing.usesAll env (Typing.ofProgram env pairCopy).notes [[]] pairCopy.body,
        ∃ note, (Typing.ofProgram env pairCopy).notes.find? use.value.id = some note ∧
          note.coercion.isNone ∧ note.ty.size = use.target.size ∧
          ∀ a slot b, a.pool.mark < 2 ^ 32 → Agree a.frames use.scopes →
            Generate.expression (Typing.ofProgram env pairCopy).notes use.value a = .ok (slot, b) →
            b.stackSize = a.stackSize + use.target.size := by
  have distinct : pairCopy.Distinct := by decide +kernel
  have small : ∀ env ∈ (Environment.ofProgram .standard true pairCopy).1, env.Small := by
    decide +kernel
  have found : ∀ env ∈ (Environment.ofProgram .standard true pairCopy).1,
      (Typing.usesAll env (Typing.ofProgram env pairCopy).notes [[]] pairCopy.body).map
        (fun use => use.target.size) = [12, 4, 4] ∧
      ∀ use ∈ Typing.usesAll env (Typing.ofProgram env pairCopy).notes [[]] pairCopy.body,
        ∀ note ∈ (Typing.ofProgram env pairCopy).notes.find? use.value.id,
          note.coercion.isNone := by
    decide +kernel
  obtain ⟨script, compiled⟩ := Option.isSome_iff_exists.mp
    (show (pairCopy.compile .default .standard 0).script.isSome by decide +kernel)
  obtain ⟨env, henv, sizes, standard, coherent⟩ :=
    unconverted_size_eq .default .standard 0 pairCopy script distinct compiled
  have unambiguous := coherent Catalog.coherent_standard pairCopy_apart
  have narrow := (standard rfl rfl).2 (small env henv)
  obtain ⟨list, unconverted⟩ := found env henv
  refine ⟨Catalog.coherent_standard, pairCopy_apart, env, henv, unambiguous, list, ?_⟩
  intro use hu
  obtain ⟨note, filed, size, pushed⟩ := sizes unambiguous use hu
  have bare := unconverted use hu note filed
  exact ⟨note, filed, bare, size (Option.isNone_iff_eq_none.mp bare), pushed narrow⟩

def shortValue : Program where
  name := some Module.coreName
  imports := [⟨Module.coreName, some "u128", ⟨1, 1⟩⟩]
  records := [⟨"bool", true, [⟨"a", ⟨"u128", [], ⟨1, 1⟩⟩, ⟨1, 1⟩⟩], ⟨1, 1⟩⟩]
  body := [.declare ⟨1, 1⟩ "x" (some ⟨"bool", [], ⟨1, 1⟩⟩)
    (some (.literal ⟨0, ⟨1, 1⟩⟩ (.bool true)))]

/-- It compiles without an issue, and one byte is pushed for a variable of 16. -/
theorem shortValue_size_ne :
    (shortValue.compile ⟨false, false⟩ .standard 0).script.isSome ∧
      (shortValue.compile ⟨false, false⟩ .standard 0).issues = [] ∧
      ∃ env ∈ (Environment.ofProgram .standard false shortValue).1,
        (∃ use ∈ Typing.usesAll env (Typing.ofProgram env shortValue).notes [[]] shortValue.body,
          ∃ note ∈ (Typing.ofProgram env shortValue).notes.find? use.value.id,
            note.coercion.isNone ∧ note.ty.same use.target ∧ note.ty.size = 1 ∧
              use.target.size = 16) ∧
        ∃ a ∈ (Generate.ofProgram env (Typing.ofProgram env shortValue).notes shortValue).toOption,
          a.stackSize = 1 := by
  decide +kernel

end Program

end Bytescript
