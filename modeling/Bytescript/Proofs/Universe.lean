import Mathlib
import Bytescript.Compile

/-!
# The types of a program

The types that a program sees are those of modules of the catalog and its own records, whose fields
have types that were visible before. With the standard catalog names are distinct, no type takes
arguments, and the fields of a record are inside it. Unless the program calls its own module core
and gives a record the name of a core type that it does not see, types of one name and home are
equal.
-/
namespace Bytescript

namespace Module

theorem find?_core (p : Primitive) :
    core.find? p.name = some (Definition.ofPrimitive coreName p) := by
  cases p <;> rfl

theorem find?_core_text : core.find? textName = some (Definition.ofHandle coreName textName) := rfl

theorem nodup_core : (core.types.map DefinitionOf.name).Nodup := by decide

theorem mem_core {d : Definition} : d ∈ core.types ↔
    (∃ p, d = Definition.ofPrimitive coreName p) ∨ d = Definition.ofHandle coreName textName := by
  simp only [core, List.mem_append, List.mem_map, List.mem_singleton]
  refine or_congr_left ⟨?_, ?_⟩
  · rintro ⟨p, -, rfl⟩
    exact ⟨p, rfl⟩
  · rintro ⟨p, rfl⟩
    exact ⟨p, p.mem_all, rfl⟩

theorem generics_of_mem_core {d : Definition} (h : d ∈ core.types) : d.generics = [] := by
  rcases mem_core.mp h with ⟨p, rfl⟩ | rfl <;> rfl

theorem fields_of_mem_core {d : Definition} (h : d ∈ core.types) : d.fields = [] := by
  rcases mem_core.mp h with ⟨p, rfl⟩ | rfl <;> rfl

end Module

namespace Catalog

theorem perm_place (m : Module) (ms : List Module) : (place m ms).Perm (m :: ms) := by
  induction ms with
  | nil => exact .refl _
  | cons n ms ih =>
    rw [place]
    split
    · exact (ih.cons n).trans (.swap m n ms)
    · exact .refl _

theorem perm_sort (ms : List Module) : (sort ms).Perm ms := by
  induction ms with
  | nil => exact .refl _
  | cons m ms ih => exact (perm_place m _).trans (ih.cons m)

theorem mem_sort {m : Module} {ms : List Module} : m ∈ sort ms ↔ m ∈ ms :=
  (perm_sort ms).mem_iff

theorem standard_modules : standard.modules = [Module.core] := rfl

theorem coreTypes?_standard {core : CoreTypes} (h : standard.coreTypes? = some core) :
    (∀ p, core.primitive p = .of (Definition.ofPrimitive Module.coreName p)) ∧
    core.text = .of (Definition.ofHandle Module.coreName Module.textName) := by
  have hs : standard.find? Module.coreName = some Module.core := rfl
  have hp : ∀ p ∈ Primitive.all, (Module.core.find? p.name).isSome := by
    intro p _
    rw [Module.find?_core]
    rfl
  rw [coreTypes?, hs, Option.bind_some, CoreTypes.ofModule?, dif_pos hp,
    Module.find?_core_text] at h
  cases h
  exact ⟨fun p => by simp [Module.find?_core], rfl⟩

end Catalog

namespace TypeScope

theorem mem_add {s : TypeScope} {d e : Definition} (h : e ∈ (s.add d).types) :
    e ∈ s.types ∨ e = d ∧ s.contains d.name = false := by
  unfold add at h
  split at h
  · exact Or.inl h
  · next hc =>
    rcases List.mem_append.mp h with h | h
    · exact Or.inl h
    · exact Or.inr ⟨List.mem_singleton.mp h, by simpa using hc⟩

theorem subset_add (s : TypeScope) (d : Definition) : s.types ⊆ (s.add d).types := by
  unfold add
  split
  · exact List.Subset.refl _
  · exact List.subset_append_left _ _

theorem contains_eq_false {s : TypeScope} {name : String} :
    s.contains name = false ↔ name ∉ s.types.map DefinitionOf.name := by
  simp [contains, find?]

theorem find?_mem {s : TypeScope} {name : String} {d : Definition} (h : s.find? name = some d) :
    d ∈ s.types ∧ d.name = name :=
  ⟨List.mem_of_find?_eq_some h, by simpa using List.find?_some h⟩

theorem types_addAll {s : TypeScope} {ds : List Definition}
    (h : ((s.types ++ ds).map DefinitionOf.name).Nodup) : (s.addAll ds).types = s.types ++ ds := by
  induction ds generalizing s with
  | nil => simp [addAll]
  | cons d ds ih =>
    have hc : s.contains d.name = false := by
      rw [contains_eq_false]
      rw [List.map_append, List.nodup_append] at h
      exact fun hm => h.2.2 _ hm d.name (by simp) rfl
    have ha : s.add d = ⟨s.types ++ [d]⟩ := by simp [add, hc]
    change ((s.add d).addAll ds).types = _
    rw [ih (by rw [ha]; simpa using h), ha]
    simp

theorem find?_add_eq (s : TypeScope) (d : Definition) (name : String) :
    (s.add d).find? name = (s.find? name).or (if d.name = name then some d else none) := by
  unfold add
  split
  · next taken =>
    split
    · next same =>
      obtain ⟨e, he⟩ := Option.isSome_iff_exists.mp taken
      rw [← same, he, Option.some_or]
    · rw [Option.or_none]
  · simp only [find?, List.find?_append, List.find?_singleton, beq_iff_eq]

theorem find?_add {s : TypeScope} {name : String} {d : Definition} (h : s.find? name = some d)
    (e : Definition) : (s.add e).find? name = some d := by
  rw [find?_add_eq, h, Option.some_or]

theorem resolve_ok {s : TypeScope} {written : TypeRef} {t : Ty} (h : s.resolve written = .ok t) :
    s.find? written.name = some t.definition ∧
      t.definition.generics.length = written.args.length ∧
      s.resolveAll written.args = .ok t.args := by
  obtain ⟨name, args, position⟩ := written
  simp only [resolve] at h
  split at h
  · cases h
  · next d found =>
    split at h
    · cases h
    · next arity =>
      cases resolved : s.resolveAll args with
      | error i =>
        rw [resolved] at h
        cases h
      | ok ts =>
        rw [resolved] at h
        cases h
        exact ⟨found, not_not.mp arity, rfl⟩

mutual

/-- A written type resolves to the same type when more types are visible. -/
theorem resolve_add {s : TypeScope} {e : Definition} :
    ∀ {written : TypeRef} {t : Ty}, s.resolve written = .ok t → (s.add e).resolve written = .ok t
  | ⟨name, args, position⟩, ⟨d, ts⟩, h => by
    obtain ⟨found, arity, resolved⟩ := resolve_ok h
    simp only [resolve, find?_add found e, arity, ne_eq, not_true_eq_false, if_false,
      resolveAll_add resolved]
    rfl

theorem resolveAll_add {s : TypeScope} {e : Definition} :
    ∀ {args : List TypeRef} {ts : List Ty}, s.resolveAll args = .ok ts →
      (s.add e).resolveAll args = .ok ts
  | [], ts, h => h
  | a :: rest, ts, h => by
    simp only [resolveAll] at h ⊢
    cases ha : s.resolve a with
    | error i =>
      rw [ha] at h
      cases h
    | ok t =>
      rw [ha] at h
      rw [resolve_add ha]
      cases hr : s.resolveAll rest with
      | error i =>
        dsimp only at h
        rw [hr] at h
        cases h
      | ok us =>
        dsimp only at h ⊢
        rw [hr] at h
        rw [resolveAll_add hr]
        exact h

end

/-- The types that become visible beside those of a scope: types of the modules of the catalog, and
records of a program with fields of visible types. -/
inductive Grows (catalog : Catalog) (home : String) (records : List RecordDecl) (s : TypeScope) :
    TypeScope → Prop
  | refl : Grows catalog home records s s
  | taken {t : TypeScope} {m : Module} {d : Definition} (h : Grows catalog home records s t)
      (hm : m ∈ catalog.modules) (hd : d ∈ m.types) : Grows catalog home records s (t.add d)
  | record {t : TypeScope} {r : RecordDecl} {fields : List (String × Ty)}
      (h : Grows catalog home records s t) (hr : r ∈ records)
      (resolved : ∀ x ∈ fields, ∃ written, t.resolve written = .ok x.2) :
      Grows catalog home records s
        (t.add (Definition.ofFields home r.name ⟨r.shared, true⟩ fields))

namespace Grows

variable {catalog : Catalog} {home : String} {records : List RecordDecl} {s t u : TypeScope}

theorem trans (h : Grows catalog home records s t) (g : Grows catalog home records t u) :
    Grows catalog home records s u := by
  induction g with
  | refl => exact h
  | taken _ hm hd ih => exact ih.taken hm hd
  | record _ hr resolved ih => exact ih.record hr resolved

theorem subset (h : Grows catalog home records s t) : s.types ⊆ t.types := by
  induction h with
  | refl => exact List.Subset.refl _
  | taken _ _ _ ih => exact List.Subset.trans ih (subset_add _ _)
  | record _ _ _ ih => exact List.Subset.trans ih (subset_add _ _)

theorem find? (h : Grows catalog home records s t) {name : String} {d : Definition}
    (found : s.find? name = some d) : t.find? name = some d := by
  induction h with
  | refl => exact found
  | taken _ _ _ ih => exact find?_add ih _
  | record _ _ _ ih => exact find?_add ih _

theorem resolve (h : Grows catalog home records s t) {written : TypeRef} {ty : Ty}
    (hr : s.resolve written = .ok ty) : t.resolve written = .ok ty := by
  induction h with
  | refl => exact hr
  | taken _ _ _ ih => exact resolve_add ih
  | record _ _ _ ih => exact resolve_add ih

theorem takenAll (h : Grows catalog home records s t) {m : Module} (hm : m ∈ catalog.modules)
    {ds : List Definition} (hd : ∀ d ∈ ds, d ∈ m.types) :
    Grows catalog home records s (t.addAll ds) := by
  induction ds generalizing t with
  | nil => exact h
  | cons d ds ih =>
    exact ih (h.taken hm (hd d (List.mem_cons_self ..)))
      fun e he => hd e (List.mem_cons_of_mem _ he)

end Grows

theorem nodup_add {s : TypeScope} (h : (s.types.map DefinitionOf.name).Nodup) (d : Definition) :
    ((s.add d).types.map DefinitionOf.name).Nodup := by
  unfold add
  split
  · exact h
  · next hc =>
    have hn : d.name ∉ s.types.map DefinitionOf.name := contains_eq_false.mp (by simpa using hc)
    rw [List.map_append, List.nodup_append]
    refine ⟨h, by simp, fun a ha b hb => ?_⟩
    rw [List.map_singleton, List.mem_singleton] at hb
    rintro rfl
    exact hn (hb ▸ ha)

theorem Grows.nodup {catalog : Catalog} {home : String} {records : List RecordDecl}
    {s t : TypeScope} (g : Grows catalog home records s t)
    (h : (s.types.map DefinitionOf.name).Nodup) : (t.types.map DefinitionOf.name).Nodup := by
  induction g with
  | refl => exact h
  | taken _ _ _ ih => exact nodup_add ih _
  | record _ _ _ ih => exact nodup_add ih _

/-- The types that a program sees have distinct names, each is a core type or a record, and fields
are inside their records. -/
structure Laid (s : TypeScope) : Prop where
  nodup : (s.types.map DefinitionOf.name).Nodup
  origin : ∀ d ∈ s.types, d ∈ Module.core.types ∨ d.primitive? = none
  generics : ∀ d ∈ s.types, d.generics = []
  fields : ∀ d ∈ s.types, ∀ f ∈ d.fields,
    f.ty.args = [] ∧ f.ty.definition ∈ s.types ∧ f.offset + f.ty.size ≤ d.size

namespace Laid

variable {s : TypeScope}

theorem empty : Laid TypeScope.empty where
  nodup := List.nodup_nil
  origin := by simp [TypeScope.empty]
  generics := by simp [TypeScope.empty]
  fields := by simp [TypeScope.empty]

theorem add (h : Laid s) {d : Definition}
    (origin : d ∈ Module.core.types ∨ d.primitive? = none)
    (generics : d.generics = []) (fields : ∀ f ∈ d.fields,
      f.ty.args = [] ∧ f.ty.definition ∈ s.types ∧ f.offset + f.ty.size ≤ d.size) :
    Laid (s.add d) where
  nodup := nodup_add h.nodup d
  origin := by
    intro e he
    rcases mem_add he with he | ⟨rfl, -⟩
    · exact h.origin e he
    · exact origin
  generics := by
    intro e he
    rcases mem_add he with he | ⟨rfl, -⟩
    · exact h.generics e he
    · exact generics
  fields := by
    intro e he f hf
    have grown : ∀ {x}, x ∈ s.types → x ∈ (s.add d).types := fun hx => s.subset_add d hx
    rcases mem_add he with he | ⟨rfl, -⟩
    · obtain ⟨ha, hm, hs⟩ := h.fields e he f hf
      exact ⟨ha, grown hm, hs⟩
    · obtain ⟨ha, hm, hs⟩ := fields f hf
      exact ⟨ha, grown hm, hs⟩

theorem addCore (h : Laid s) {d : Definition} (hd : d ∈ Module.core.types) :
    Laid (s.add d) := by
  refine h.add (Or.inl hd) (Module.generics_of_mem_core hd) fun f hf => ?_
  simp [Module.fields_of_mem_core hd] at hf

theorem resolve (h : Laid s) {written : TypeRef} {t : Ty}
    (hr : s.resolve written = .ok t) : t.args = [] ∧ t.definition ∈ s.types := by
  obtain ⟨found, arity, resolved⟩ := resolve_ok hr
  have hm := (find?_mem found).1
  rw [h.generics _ hm, List.length_nil, eq_comm, List.length_eq_zero_iff] at arity
  rw [arity] at resolved
  cases ht : t.args with
  | nil => exact ⟨rfl, hm⟩
  | cons a as =>
    rw [ht] at resolved
    cases resolved

end Laid

end TypeScope

namespace Definition

theorem le_foldl_size (fs : List (String × Ty)) (n : Nat) :
    n ≤ fs.foldl (fun total f => total + f.2.size) n := by
  induction fs generalizing n with
  | nil => exact le_rfl
  | cons f fs ih => exact (Nat.le_add_right n f.2.size).trans (ih _)

/-- Fields in a row end where the next one starts. -/
theorem mem_layFrom {fs : List (String × Ty)} {n : Nat} {f : Field Ty} (h : f ∈ layFrom n fs) :
    (∃ x ∈ fs, x.2 = f.ty) ∧
      f.offset + f.ty.size ≤ fs.foldl (fun total f => total + f.2.size) n := by
  induction fs generalizing n with
  | nil => simp [layFrom] at h
  | cons x fs ih =>
    obtain ⟨name, ty⟩ := x
    rcases List.mem_cons.mp h with rfl | h
    · exact ⟨⟨_, List.mem_cons_self .., rfl⟩, le_foldl_size fs _⟩
    · obtain ⟨⟨x, hx, ht⟩, hs⟩ := ih h
      exact ⟨⟨x, List.mem_cons_of_mem _ hx, ht⟩, hs⟩

end Definition

/-- Adding a record whose fields have visible types. -/
theorem TypeScope.Laid.addRecord {s : TypeScope} (h : Laid s) (home name : String)
    (modifiers : Modifiers) {fields : List (String × Ty)}
    (resolved : ∀ x ∈ fields, ∃ written, s.resolve written = .ok x.2) :
    Laid (s.add (Definition.ofFields home name modifiers fields)) := by
  refine h.add (Or.inr rfl) rfl fun f hf => ?_
  obtain ⟨⟨x, hx, ht⟩, hs⟩ := Definition.mem_layFrom hf
  obtain ⟨written, hw⟩ := resolved x hx
  obtain ⟨ha, hm⟩ := h.resolve hw
  rw [ht] at ha hm
  exact ⟨ha, hm, hs⟩

theorem TypeScope.Laid.grows {home : String} {records : List RecordDecl} {s t : TypeScope}
    (h : Laid s) (g : Grows .standard home records s t) : Laid t := by
  induction g with
  | refl => exact h
  | taken _ hm hd ih =>
    rw [Catalog.standard_modules, List.mem_singleton] at hm
    exact ih.addCore (hm ▸ hd)
  | record _ _ resolved ih => exact ih.addRecord home _ _ resolved

namespace Environment

open TypeScope

section

variable {catalog : Catalog} {home : String} {records : List RecordDecl} {start : TypeScope}

/-- The invariant of gathering the fields of a record. -/
structure Gathering (catalog : Catalog) (home : String) (records : List RecordDecl)
    (start : TypeScope) (g : Gathered) : Prop where
  grown : Grows catalog home records start g.drafts.types
  fields : ∀ x ∈ g.fields, ∃ written, g.drafts.types.resolve written = .ok x.2

theorem Gathering.gatherField {g : Gathered} (h : Gathering catalog home records start g)
    (field : FieldDecl) : Gathering catalog home records start (gatherField g field) := by
  unfold Environment.gatherField
  split
  · exact ⟨h.grown, h.fields⟩
  · split
    · next ty hr =>
      refine ⟨h.grown, fun x hx => ?_⟩
      rcases List.mem_append.mp hx with hx | hx
      · exact h.fields x hx
      · cases List.mem_singleton.mp hx
        exact ⟨field.ty, hr⟩
    · exact ⟨h.grown, h.fields⟩

theorem Gathering.drafts {g : Gathered} (h : Gathering catalog home records start g)
    {drafts : Drafts} (grown : Grows catalog home records g.drafts.types drafts.types)
    (good : Bool) : Gathering catalog home records start { g with drafts, good } := by
  refine ⟨h.grown.trans grown, fun x hx => ?_⟩
  obtain ⟨written, hw⟩ := h.fields x hx
  exact ⟨written, grown.resolve hw⟩

theorem Gathering.foldl {step : Gathered → FieldDecl → Gathered}
    (hstep : ∀ g field, Gathering catalog home records start g →
      Gathering catalog home records start (step g field))
    (fields : List FieldDecl) {g : Gathered} (h : Gathering catalog home records start g) :
    Gathering catalog home records start (fields.foldl step g) := by
  induction fields generalizing g with
  | nil => exact h
  | cons field fields ih => exact ih (hstep g field h)

/-- Laying out a record adds that record and records inside it, each behind those inside it. -/
theorem grows_layOutWithin (catalog : Catalog) (home : String) {kept : List RecordDecl}
    (hk : kept ⊆ records) (depth : Nat) {record : RecordDecl} (hr : record ∈ kept)
    (drafts : Drafts) :
    Grows catalog home records drafts.types
      (layOutWithin home kept depth record drafts).2.types := by
  induction depth generalizing record drafts with
  | zero => exact .refl
  | succ depth ih =>
    unfold layOutWithin
    split
    · exact .refl
    · exact .refl
    · exact .refl
    all_goals
      dsimp only
      generalize hf : List.foldl _ _ record.fields = gathered
      have hg : Gathering catalog home records drafts.types gathered := by
        rw [← hf]
        refine Gathering.foldl (fun g field hg => ?_) _ ⟨.refl, by simp⟩
        split
        · exact hg.gatherField field
        · next inner hi =>
          have hl := ih (List.mem_of_find?_eq_some hi) g.drafts
          split
          · next drafts' hd =>
            rw [hd] at hl
            exact (hg.drafts hl g.good).gatherField field
          · next drafts' hd =>
            rw [hd] at hl
            exact hg.drafts hl false
      split
      · exact hg.grown.record (hk hr) hg.fields
      · exact hg.grown

theorem draft_subset (scope : TypeScope) (records : List RecordDecl) :
    (draft scope records).1 ⊆ records := by
  unfold draft
  refine List.foldlRecOn records _
    (motive := fun sofar : List RecordDecl × List Issue => sofar.1 ⊆ records)
    (List.nil_subset _) ?_
  intro sofar kept record hr
  dsimp only
  split
  · exact kept
  · exact List.append_subset.mpr ⟨kept, List.cons_subset.mpr ⟨hr, List.nil_subset _⟩⟩

theorem grows_addRecords (catalog : Catalog) (home : String) (records : List RecordDecl)
    (scope : TypeScope) :
    Grows catalog home records scope (addRecords home scope records).1 := by
  unfold addRecords
  refine List.foldlRecOn (draft scope records).1 _
    (motive := fun drafts : Drafts => Grows catalog home records scope drafts.types) .refl ?_
  intro drafts grown record hr
  split
  · exact grown.trans (grows_layOutWithin catalog home (draft_subset scope records) _ hr drafts)
  · exact grown

theorem grows_addImport (home : String) (records : List RecordDecl) (scope : TypeScope)
    (i : Import) : Grows catalog home records scope (addImport catalog scope i).1 := by
  unfold addImport
  split
  · exact .refl
  · next m hm =>
    have hm := List.mem_of_find?_eq_some hm
    split
    · split
      · exact .refl
      · next d hd => exact Grows.refl.taken hm (List.mem_of_find?_eq_some hd)
    · exact Grows.refl.takenAll hm fun d hd => hd

theorem grows_addImports (home : String) (records : List RecordDecl) (imports : List Import)
    (scope : TypeScope) :
    Grows catalog home records scope (addImports catalog scope imports).1 := by
  induction imports generalizing scope with
  | nil => exact .refl
  | cons i rest ih => exact (grows_addImport home records scope i).trans (ih _)

theorem grows_automatic (home : String) (records : List RecordDecl) {ms : List Module}
    (hm : ms ⊆ catalog.modules) (scope : TypeScope) :
    Grows catalog home records scope (ms.foldl (fun scope m => scope.addAll m.types) scope) := by
  induction ms generalizing scope with
  | nil => exact .refl
  | cons m ms ih =>
    rw [List.cons_subset] at hm
    exact (Grows.refl.takenAll hm.1 fun d hd => hd).trans (ih hm.2 _)

/-- The types that a program sees, first those of automatic modules. -/
theorem grows_ofProgram {env : Environment} {issues : List Issue} {automatic : Bool} {p : Program}
    (h : Environment.ofProgram catalog automatic p = (some env, issues)) :
    env.home = p.name.getD defaultHome ∧ catalog.coreTypes? = some env.core ∧
      Grows catalog env.home p.records .empty env.types ∧
      (automatic = true → Grows catalog env.home p.records
        (catalog.automatic.foldl (fun scope m => scope.addAll m.types) .empty) env.types) := by
  unfold Environment.ofProgram at h
  split at h
  · cases h
  · next core hc =>
    cases h
    have later := fun scope => (grows_addImports (p.name.getD defaultHome) p.records p.imports
      scope).trans (grows_addRecords catalog (p.name.getD defaultHome) p.records _)
    have listed : catalog.automatic ⊆ catalog.modules := fun m hm =>
      List.mem_of_mem_filter (Catalog.mem_sort.mp hm)
    refine ⟨rfl, hc, ?_, ?_⟩
    · refine Grows.trans ?_ (later _)
      split
      · exact grows_automatic _ _ listed _
      · exact .refl
    · rintro rfl
      exact later _

end

/-- The types that values can have: those of literals and those that a program sees. -/
def Known (env : Environment) (t : Ty) : Prop :=
  t.args = [] ∧ (t.definition ∈ Module.core.types ∨ t.definition ∈ env.types.types)

/-- A set of types includes those of literals, all that a program can name, and the types of the
fields of its members. -/
structure Closed (env : Environment) (K : Ty → Prop) : Prop where
  primitive : ∀ p, K (env.core.primitive p)
  text : K env.core.text
  resolve : ∀ {written t}, env.types.resolve written = .ok t → K t
  fields : ∀ {t}, K t → ∀ f ∈ t.definition.fields, K f.ty

/-- The properties of the visible types that typing and code rely on. -/
structure Sound (env : Environment) : Prop where
  primitive : ∀ p, env.core.primitive p = .of (Definition.ofPrimitive Module.coreName p)
  text : env.core.text = .of (Definition.ofHandle Module.coreName Module.textName)
  resolve : ∀ {written t}, env.types.resolve written = .ok t → env.Known t
  fields : ∀ {t}, env.Known t → ∀ f ∈ t.definition.fields,
    env.Known f.ty ∧ f.offset + f.ty.size ≤ t.size
  size_eq : ∀ {t u}, env.Known t → env.Known u → t.same u → t.size = u.size
  primitive_eq : ∀ {t u p q}, env.Known t → env.Known u → t.same u → t.primitive? = some p →
    u.primitive? = some q → p = q

/-- A visible type has the size of the core type of its name and home, if there is one. Types are
compared by name and home, so values of one need no conversion to the other. -/
def Uniform (env : Environment) : Prop :=
  ∀ c ∈ Module.core.types, ∀ d ∈ env.types.types, c.home = d.home → c.name = d.name →
    c.size = d.size

instance (env : Environment) : Decidable env.Uniform :=
  inferInstanceAs (Decidable (∀ c ∈ Module.core.types, ∀ d ∈ env.types.types,
    c.home = d.home → c.name = d.name → c.size = d.size))

/-- The types of a program that sees the standard catalog. -/
theorem laid_ofProgram {env : Environment} {issues : List Issue} {automatic : Bool} {p : Program}
    (h : Environment.ofProgram .standard automatic p = (some env, issues)) :
    Laid env.types ∧ Catalog.standard.coreTypes? = some env.core ∧
      (automatic = true → Module.core.types ⊆ env.types.types) := by
  obtain ⟨-, core, grown, later⟩ := grows_ofProgram h
  refine ⟨Laid.empty.grows grown, core, fun ha d hd => (later ha).subset ?_⟩
  change d ∈ (TypeScope.empty.addAll Module.core.types).types
  have all : (TypeScope.empty.addAll Module.core.types).types =
      TypeScope.empty.types ++ Module.core.types := types_addAll Module.nodup_core
  rw [all]
  exact List.mem_append_right _ hd

theorem same_of {t u : Ty} (h : t.same u) :
    t.definition.home = u.definition.home ∧ t.definition.name = u.definition.name := by
  obtain ⟨d, as⟩ := t
  obtain ⟨e, bs⟩ := u
  simp only [Ty.same, Bool.and_eq_true, beq_iff_eq] at h
  exact h.1

theorem eq_of_name_eq {ds : List Definition} (hn : (ds.map DefinitionOf.name).Nodup)
    {d e : Definition} (hd : d ∈ ds) (he : e ∈ ds) (h : d.name = e.name) : d = e :=
  List.inj_on_of_nodup_map hn hd he h

/-- Where all core types are visible, no other type has the name of one. -/
theorem uniform_of_automatic {env : Environment} {issues : List Issue} {p : Program}
    (h : Environment.ofProgram .standard true p = (some env, issues)) : env.Uniform := by
  obtain ⟨laid, -, all⟩ := laid_ofProgram h
  intro c hc d hd _ hn
  rw [eq_of_name_eq laid.nodup (all rfl hc) hd hn]

theorem sound_of_standard {env : Environment} {issues : List Issue} {automatic : Bool}
    {p : Program} (h : Environment.ofProgram .standard automatic p = (some env, issues))
    (uniform : env.Uniform) : env.Sound := by
  obtain ⟨laid, core, -⟩ := laid_ofProgram h
  obtain ⟨primitive, text⟩ := Catalog.coreTypes?_standard core
  refine ⟨primitive, text, fun hr => ?_, fun ht f hf => ?_, fun {t u} ht hu hs => ?_,
    fun {t u p q} ht hu hs hp hq => ?_⟩
  · obtain ⟨ha, hm⟩ := laid.resolve hr
    exact ⟨ha, Or.inr hm⟩
  · rcases ht.2 with hc | hm
    · simp [Module.fields_of_mem_core hc] at hf
    · obtain ⟨ha, hm, hs⟩ := laid.fields _ hm f hf
      exact ⟨⟨ha, Or.inr hm⟩, hs⟩
  · obtain ⟨d, as⟩ := t
    obtain ⟨e, bs⟩ := u
    obtain ⟨rfl, hd⟩ := ht
    obtain ⟨rfl, he⟩ := hu
    obtain ⟨hh, hn⟩ := same_of hs
    change d.size = e.size
    rcases hd with hd | hd <;> rcases he with he | he
    · exact congrArg DefinitionOf.size (eq_of_name_eq Module.nodup_core hd he hn)
    · exact uniform d hd e he hh hn
    · exact (uniform e he d hd hh.symm hn.symm).symm
    · exact congrArg DefinitionOf.size (eq_of_name_eq laid.nodup hd he hn)
  · obtain ⟨d, as⟩ := t
    obtain ⟨e, bs⟩ := u
    obtain ⟨rfl, hd⟩ := ht
    obtain ⟨rfl, he⟩ := hu
    -- A type with a primitive is no record, so both are core types.
    have visible : ∀ {d : Definition} {p : Primitive}, d ∈ env.types.types →
        d.primitive? = some p → d ∈ Module.core.types := by
      intro d p hd hp
      rcases laid.origin d hd with hc | hn
      · exact hc
      · cases hp.symm.trans hn
    have hd' : d ∈ Module.core.types := hd.elim id fun hd => visible hd hp
    have he' : e ∈ Module.core.types := he.elim id fun he => visible he hq
    have hde := eq_of_name_eq Module.nodup_core hd' he' (same_of hs).2
    change d.primitive? = some p at hp
    change e.primitive? = some q at hq
    rw [hde, hq] at hp
    exact (Option.some.inj hp).symm

end Environment

end Bytescript
