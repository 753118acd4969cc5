import Mathlib
import Bytescript.Proofs.DeclarationOrder

/-!
# Records inside records

A program that sees the core types only has no types with arguments. Its records can then be laid
out exactly if no record at or inside them contains itself, repeats the name of a field, or has a
field whose type is unknown or is written with arguments. The search decides this for every
containment relation, and it always terminates.
-/
namespace Bytescript.Environment

variable {home : String} {scope : TypeScope} {records : List RecordDecl}

mutual

/-- A call of the search returns a result, without a bound on its depth. -/
inductive Returns (home : String) (records : List RecordDecl) :
    RecordDecl → Drafts → Bool × Drafts → Prop
  | done {r : RecordDecl} {d : Drafts} (h : d.progress? r.name = some .done) :
      Returns home records r d (true, d)
  | failed {r : RecordDecl} {d : Drafts} (h : d.progress? r.name = some .failed) :
      Returns home records r d (false, d)
  | circular {r : RecordDecl} {d : Drafts} (h : d.progress? r.name = some .underway) :
      Returns home records r d
        (false, (d.report (.circularRecord r.name) r.position).mark r.name .failed)
  | fields {r : RecordDecl} {d : Drafts} {g : Gathered} (h : d.progress? r.name = some .pending)
      (gathers : Gathers home records r.fields ⟨[], true, d.mark r.name .underway⟩ g) :
      Returns home records r d (finish home r g)

inductive Gathers (home : String) (records : List RecordDecl) :
    List FieldDecl → Gathered → Gathered → Prop
  | nil {g : Gathered} : Gathers home records [] g g
  | plain {f : FieldDecl} {fs : List FieldDecl} {g g' : Gathered}
      (h : (records.find? fun r => r.name == f.ty.name) = none)
      (rest : Gathers home records fs (gatherField g f) g') : Gathers home records (f :: fs) g g'
  | inner {f : FieldDecl} {fs : List FieldDecl} {s : RecordDecl} {drafts : Drafts}
      {g g' : Gathered} (h : (records.find? fun r => r.name == f.ty.name) = some s)
      (call : Returns home records s g.drafts (true, drafts))
      (rest : Gathers home records fs (gatherField { g with drafts } f) g') :
      Gathers home records (f :: fs) g g'
  | broken {f : FieldDecl} {fs : List FieldDecl} {s : RecordDecl} {drafts : Drafts}
      {g g' : Gathered} (h : (records.find? fun r => r.name == f.ty.name) = some s)
      (call : Returns home records s g.drafts (false, drafts))
      (rest : Gathers home records fs { g with good := false, drafts } g') :
      Gathers home records (f :: fs) g g'

end

theorem Gathers.append {before after : List FieldDecl} {g g' g'' : Gathered}
    (h : Gathers home records before g g') (h' : Gathers home records after g' g'') :
    Gathers home records (before ++ after) g g'' := by
  induction before generalizing g with
  | nil =>
    cases h
    exact h'
  | cons f before ih =>
    cases h with
    | plain found rest => exact .plain found (ih rest)
    | inner found call rest => exact .inner found call (ih rest)
    | broken found call rest => exact .broken found call (ih rest)

theorem find?_of_named (fresh : Fresh scope records) {s : RecordDecl} (hs : s ∈ records)
    {name : String} (named : s.name = name) :
    (records.find? fun r => r.name == name) = some s := by
  subst named
  cases found : records.find? fun r => r.name == s.name with
  | none => simpa using List.find?_eq_none.mp found s hs
  | some t =>
    have same : t.name = s.name := by simpa using List.find?_some found
    rw [fresh.unique t (List.mem_of_find?_eq_some found) s hs same]

/-- Every call returns. -/
theorem ending (home : String) (fresh : Fresh scope records) :
    LayoutCases home records (Returns home records)
      (fun r d before => Gathers home records before ⟨[], true, d.mark r.name .underway⟩) where
  done := .done
  failed := .failed
  circular := .circular
  start _ _ := .nil
  plain _ hq hn := hq.append (.plain (List.find?_eq_none.mpr (by simpa using hn)) .nil)
  inner _ hq hs named hp := hq.append (.inner (find?_of_named fresh hs named) hp .nil)
  broken _ hq hs named hp := hq.append (.broken (find?_of_named fresh hs named) hp .nil)
  finish _ hp hq := .fields hp hq

theorem Gathers.foldl_enter {lay : RecordDecl → Drafts → Bool × Drafts} {start : Drafts}
    (hlay : ∀ s ∈ records, ∀ e, Settles start e → Settles e (lay s e).2 ∧
      ∀ res, Returns home records s e res → lay s e = res)
    {fs : List FieldDecl} {g g' : Gathered} (hs : Settles start g.drafts)
    (h : Gathers home records fs g g') : fs.foldl (enter records lay) g = g' := by
  induction fs generalizing g with
  | nil =>
    cases h
    rfl
  | cons f fs ih =>
    rw [List.foldl_cons]
    cases h with
    | plain found rest =>
      have next : enter records lay g f = gatherField g f := by rw [enter, found]
      rw [next]
      exact ih (hs.gatherField f) rest
    | @inner _ _ s drafts _ _ found call rest =>
      obtain ⟨settles, one⟩ := hlay s (List.mem_of_find?_eq_some found) g.drafts hs
      have next : enter records lay g f = gatherField { g with drafts } f := by
        simp only [enter, found, one _ call]
      rw [one _ call] at settles
      rw [next]
      exact ih ((show Settles start { g with drafts }.drafts from hs.trans settles).gatherField f)
        rest
    | @broken _ _ s drafts _ _ found call rest =>
      obtain ⟨settles, one⟩ := hlay s (List.mem_of_find?_eq_some found) g.drafts hs
      have next : enter records lay g f = { g with good := false, drafts } := by
        simp only [enter, found, one _ call]
      rw [one _ call] at settles
      rw [next]
      exact ih (hs.trans settles) rest

/-- A call returns the result of the bounded search, if the bound exceeds the number of waiting
records. -/
theorem Returns.layOutWithin_eq {depth : Nat} {r : RecordDecl} (hr : r ∈ records) {d : Drafts}
    (tracked : Tracked records d) (enough : waiting records d < depth) {res : Bool × Drafts}
    (h : Returns home records r d res) : layOutWithin home records depth r d = res := by
  induction depth generalizing r d res with
  | zero => cases enough
  | succ depth ih =>
    cases h with
    | done hp => rw [layOutWithin, hp]
    | failed hp => rw [layOutWithin, hp]
    | circular hp => rw [layOutWithin, hp]
    | fields hp gathers =>
      rw [layOutWithin_pending hp]
      refine congrArg _ (gathers.foldl_enter (fun s hs e he => ?_) (.refl _))
      obtain ⟨later, fewer⟩ := tracked.started hr hp he
      have fewer : waiting records e < depth := fewer.trans_le (Nat.le_of_lt_succ enough)
      exact ⟨((evolution home records).layOutWithin hs later fewer).2,
        fun res call => ih hs later fewer call⟩

theorem returns_iff (fresh : Fresh scope records) {r : RecordDecl} (hr : r ∈ records) {d : Drafts}
    (tracked : Tracked records d) {res : Bool × Drafts} :
    Returns home records r d res ↔ res = layOutWithin home records (records.length + 1) r d := by
  constructor
  · intro h
    exact (h.layOutWithin_eq hr tracked (Nat.lt_succ_of_le List.countP_le_length)).symm
  · rintro rfl
    exact (ending home fresh).layOut hr tracked

/-- A record can be laid out if those inside it can: it does not contain itself, its fields have
distinct names, and their types are written without arguments and are imported types or records. -/
structure WellFormed (scope : TypeScope) (records : List RecordDecl) (r : RecordDecl) : Prop where
  acyclic : ¬ Relation.TransGen (Contains records) r r
  names : (r.fields.map FieldDecl.name).Nodup
  known : ∀ f ∈ r.fields, f.ty.args = [] ∧
    ((scope.find? f.ty.name).isSome ∨ ∃ s ∈ records, s.name = f.ty.name)

def Ungeneric (scope : TypeScope) : Prop := ∀ {n d}, scope.find? n = some d → d.generics = []

theorem Denotes.plain (ungeneric : Ungeneric scope) {written : TypeRef}
    (h : Denotes scope records written) : written.args = [] ∧
      ((scope.find? written.name).isSome ∨ ∃ s ∈ records, s.name = written.name) := by
  cases h with
  | imported found arity =>
    rw [ungeneric found, List.length_nil, eq_comm, List.length_eq_zero_iff] at arity
    exact ⟨arity, .inl (Option.isSome_iff_exists.mpr ⟨_, found⟩)⟩
  | record mem => exact ⟨rfl, .inr ⟨_, mem, rfl⟩⟩

theorem WellFormed.layable (ungeneric : Ungeneric scope) {r : RecordDecl}
    (h : WellFormed scope records r)
    (inside : ∀ s, Contains records r s → Layable scope records s) : Layable scope records r := by
  refine ⟨h.names, fun f hf => ?_⟩
  obtain ⟨plain, known⟩ := h.known f hf
  obtain ⟨label, ⟨name, args, start⟩, position⟩ := f
  obtain rfl : args = [] := plain
  rcases known with found | ⟨s, hs, named⟩
  · obtain ⟨d, found⟩ := Option.isSome_iff_exists.mp found
    exact .imported found (by rw [ungeneric found]; rfl) (by simp)
  · obtain rfl : s.name = name := named
    obtain ⟨names, fields⟩ := inside s ⟨hs, _, hf, rfl⟩
    exact .record hs names fields

noncomputable def insideCount (records : List RecordDecl) (r : RecordDecl) : Nat :=
  open Classical in records.countP fun s => Relation.TransGen (Contains records) r s

/-- A record contains fewer records than the record around it, if it does not contain itself. -/
theorem insideCount_lt {r s : RecordDecl} (step : Contains records r s)
    (acyclic : ¬ Relation.TransGen (Contains records) s s) :
    insideCount records s < insideCount records r := by
  classical
  refine countP_lt (fun t _ ht => ?_) step.1 (by simpa using .single step) (by simpa using acyclic)
  simp only [decide_eq_true_eq] at ht ⊢
  exact .head step ht

/-- A record can be laid out exactly if it and all records inside it are well-formed. -/
theorem layable_iff (fresh : Fresh scope records) (ungeneric : Ungeneric scope) {r : RecordDecl}
    (hr : r ∈ records) : Layable scope records r ↔
      ∀ s, Relation.ReflTransGen (Contains records) r s → WellFormed scope records s := by
  constructor
  · intro layable s inside
    have own : s ∈ records ∧ Layable scope records s := by
      induction inside with
      | refl => exact ⟨hr, layable⟩
      | tail _ step ih => exact ⟨step.1, ih.2.of_needs fresh (.single step.needs)⟩
    refine ⟨fun circle => ?_, own.2.names, fun f hf => (own.2.fields f hf).plain ungeneric⟩
    exact own.2.not_needs_self fresh own.1 (transGen_needs circle)
  · intro formed
    -- Fewer and fewer records are inside on the way down, for none of them contains itself.
    induction hn : insideCount records r using Nat.strong_induction_on generalizing r with
    | h n ih =>
      subst hn
      refine (formed r .refl).layable ungeneric fun s step => ?_
      have within : ∀ t, Relation.ReflTransGen (Contains records) s t →
          WellFormed scope records t := fun t inside => formed t (.head step inside)
      exact ih _ (insideCount_lt step (within s .refl).acyclic) step.1 within rfl

theorem covered_of_ungeneric (ungeneric : Ungeneric scope) : Covered scope records := by
  intro r _ layable before f after split a ha
  have plain := ((layable.fields f (by simp [split])).plain ungeneric).1
  simp [plain] at ha

/-- A record of a list is the first of its name, and no imported type has the name. -/
def Named (scope : TypeScope) (records : List RecordDecl) (r : RecordDecl) : Prop :=
  scope.find? r.name = none ∧ (records.find? fun s => s.name == r.name) = some r

def Taken (scope : TypeScope) (records : List RecordDecl) (name : String) : Prop :=
  scope.contains name = true ∨ ∃ s ∈ records, s.name = name

theorem named_concat {r s : RecordDecl} : Named scope (records ++ [s]) r ↔
    Named scope records r ∨ r = s ∧ ¬ Taken scope records s.name := by
  rw [Named, Named, Taken, List.find?_append, TypeScope.contains, not_or, Bool.not_eq_true,
    Option.isSome_eq_false_iff, Option.isNone_iff_eq_none]
  cases found : records.find? fun t => t.name == r.name with
  | some t =>
    have other : r = s → ∃ t ∈ records, t.name = s.name := by
      rintro rfl
      exact ⟨t, List.mem_of_find?_eq_some found, by simpa using List.find?_some found⟩
    rw [Option.some_or]
    exact ⟨.inl, fun h => h.elim id fun h => absurd (other h.1) h.2.2⟩
  | none =>
    have others : ¬ ∃ t ∈ records, t.name = r.name := by simpa using found
    rw [Option.none_or]
    constructor
    · rintro ⟨free, last⟩
      have same : s = r := List.mem_singleton.mp (List.mem_of_find?_eq_some last) ▸ rfl
      subst same
      exact .inr ⟨rfl, free, others⟩
    · rintro (⟨-, none⟩ | ⟨rfl, free, -⟩)
      · cases none
      · exact ⟨free, by simp⟩

theorem taken_iff {kept : List RecordDecl} (h : ∀ r, r ∈ kept ↔ Named scope records r)
    (name : String) : (scope.contains name || kept.any fun r => r.name == name) = true ↔
      Taken scope records name := by
  rw [Bool.or_eq_true, List.any_eq_true]
  refine or_congr_right' fun free => ?_
  constructor
  · rintro ⟨r, hr, named⟩
    exact ⟨r, List.mem_of_find?_eq_some ((h r).mp hr).2, by simpa using named⟩
  · rintro ⟨s, hs, rfl⟩
    obtain ⟨r, found⟩ : ∃ r, (records.find? fun r => r.name == s.name) = some r :=
      Option.isSome_iff_exists.mp (List.find?_isSome.mpr ⟨s, hs, beq_self_eq_true _⟩)
    have same : r.name = s.name := by simpa using List.find?_some found
    rw [← same] at found free
    exact ⟨r, (h r).mpr ⟨by simpa [TypeScope.contains] using free, found⟩, beq_iff_eq.mpr same⟩

theorem mem_draft_iff {r : RecordDecl} :
    r ∈ (draft scope records).1 ↔ Named scope records r := by
  induction records using List.reverseRecOn generalizing r with
  | nil => simp [draft, Named]
  | append_singleton records s ih =>
    have taken := taken_iff (fun r => @ih r) s.name
    rw [draft_concat, named_concat, ← taken, ← ih]
    split_ifs with h <;> simp [h]

theorem fresh_draft (scope : TypeScope) (records : List RecordDecl) :
    Fresh scope (draft scope records).1 where
  free r hr := (mem_draft_iff.mp hr).1
  unique r hr s hs same := by
    have first := (mem_draft_iff.mp hr).2
    rw [same, (mem_draft_iff.mp hs).2] at first
    exact (Option.some.inj first).symm

theorem issues_draft_append (scope : TypeScope) (records more : List RecordDecl) :
    (draft scope records).2 ⊆ (draft scope (records ++ more)).2 := by
  induction more using List.reverseRecOn with
  | nil => simp
  | append_singleton more r ih =>
    rw [← List.append_assoc, draft_concat]
    split_ifs
    · exact List.Subset.trans ih (List.subset_append_left ..)
    · exact ih

theorem error_draft {before behind : List RecordDecl} {r : RecordDecl}
    (taken : Taken scope before r.name) :
    Issue.anyAtLeast .error (draft scope (before ++ r :: behind)).2 = true := by
  have here : (Problem.duplicateType r.name).issueAt r.position ∈
      (draft scope (before ++ [r])).2 := by
    rw [draft_concat, if_pos ((taken_iff (fun _ => mem_draft_iff) r.name).mpr taken)]
    simp
  have there := issues_draft_append scope (before ++ [r]) behind here
  rw [List.append_assoc, List.singleton_append] at there
  exact List.any_eq_true.mpr ⟨_, there, rfl⟩

/-- A type is a record as it is declared: its fields in order with their written types, each behind
those before it, and no others. -/
structure InRow (types : TypeScope) (r : RecordDecl) (d : Definition) : Prop where
  fields : List.Forall₂ (fun x f => x.name = f.name ∧ types.resolve f.ty = .ok x.ty)
    d.fields r.fields
  offset : ∀ before x behind, d.fields = before ++ x :: behind →
    x.offset = (before.map fun y => y.ty.size).sum
  size : d.size = (d.fields.map fun y => y.ty.size).sum

theorem map_layFrom {α : Type} (k : Ty → α) (n : Nat) (xs : List (String × Ty)) :
    (Definition.layFrom n xs).map (fun y => k y.ty) = xs.map fun x => k x.2 := by
  induction xs generalizing n with
  | nil => rfl
  | cons x xs ih => simp [Definition.layFrom, ih]

theorem offset_layFrom {n : Nat} {xs : List (String × Ty)} {before behind : List (Field Ty)}
    {x : Field Ty} (h : Definition.layFrom n xs = before ++ x :: behind) :
    x.offset = n + (before.map fun y => y.ty.size).sum := by
  induction xs generalizing n before with
  | nil => simp [Definition.layFrom] at h
  | cons y xs ih =>
    cases before with
    | nil =>
      obtain ⟨rfl, -⟩ := List.cons.inj h
      rfl
    | cons z before =>
      obtain ⟨rfl, rest⟩ := List.cons.inj h
      rw [ih rest, List.map_cons, List.sum_cons, Nat.add_assoc]

theorem Fits.layFrom {types : TypeScope} {fields : List FieldDecl} {xs : List (String × Ty)}
    (h : Fits types fields xs) (n : Nat) :
    List.Forall₂ (fun x f => x.name = f.name ∧ types.resolve f.ty = .ok x.ty)
      (Definition.layFrom n xs) fields := by
  induction h generalizing n with
  | nil => exact .nil
  | cons hx _ ih => exact .cons hx (ih _)

theorem Fits.inRow {types : TypeScope} {r : RecordDecl} {xs : List (String × Ty)}
    (h : Fits types r.fields xs) :
    InRow types r (.ofFields home r.name ⟨r.shared, true⟩ xs) where
  fields := h.layFrom 0
  offset before x behind split := (offset_layFrom split).trans (Nat.zero_add _)
  size := by
    change xs.foldl (fun total x => total + x.2.size) 0 =
      ((Definition.layFrom 0 xs).map fun y => y.ty.size).sum
    rw [map_layFrom, List.sum_eq_foldl, List.foldl_map]

section

variable {issues : List Issue}

theorem contains_finalDrafts_iff (fresh : Fresh scope records) {r : RecordDecl} (hr : r ∈ records) :
    (finalDrafts home scope issues records).types.contains r.name = true ↔
      (finalDrafts home scope issues records).progress? r.name = some .done := by
  have drafted : Drafted home scope records (finalDrafts home scope issues records) :=
    drafted_finalDrafts fresh
  rw [TypeScope.contains, Option.isSome_iff_exists]
  constructor
  · rintro ⟨d, found⟩
    rcases drafted.visible found with imported | ⟨-, -, -, done⟩
    · cases (fresh.free r hr).symm.trans imported
    · exact done
  · intro done
    obtain ⟨-, fields, shown, -⟩ := drafted.laid r hr done
    exact ⟨_, shown⟩

/-- Without types that take arguments, a record is visible exactly if it and those inside it are
well-formed. -/
theorem contains_finalDrafts_iff_wellFormed (fresh : Fresh scope records)
    (ungeneric : Ungeneric scope) {r : RecordDecl} (hr : r ∈ records) :
    (finalDrafts home scope issues records).types.contains r.name = true ↔
      ∀ s, Relation.ReflTransGen (Contains records) r s → WellFormed scope records s := by
  rw [contains_finalDrafts_iff fresh hr,
    finalDrafts_done_iff fresh (covered_of_ungeneric ungeneric) hr,
    layable_iff fresh ungeneric hr]

theorem inRow_finalDrafts (fresh : Fresh scope records) {r : RecordDecl} (hr : r ∈ records)
    {d : Definition} (found : (finalDrafts home scope issues records).types.find? r.name = some d) :
    InRow (finalDrafts home scope issues records).types r d := by
  have done := (contains_finalDrafts_iff fresh hr).mp
    (Option.isSome_iff_exists.mpr ⟨d, found⟩)
  obtain ⟨-, fields, shown, fits⟩ := (drafted_finalDrafts fresh).laid r hr done
  cases shown.symm.trans found
  exact fits.inRow

/-- A record that is not visible under its name is an error. -/
theorem error_addRecords {before behind : List RecordDecl} {r : RecordDecl}
    (missing : Taken scope before r.name ∨
      (addRecords home scope (before ++ r :: behind)).1.contains r.name = false) :
    Issue.anyAtLeast .error (addRecords home scope (before ++ r :: behind)).2 = true := by
  rw [addRecords_eq] at missing ⊢
  refine faulty_finalDrafts_iff.mpr ?_
  by_cases taken : Taken scope before r.name
  · exact .inl (error_draft taken)
  · -- The record is the first of its name, so it was kept, and it has failed.
    have named : Named scope (before ++ r :: behind) r := by
      rw [Taken, TypeScope.contains, not_or, Bool.not_eq_true, Option.isSome_eq_false_iff,
        Option.isNone_iff_eq_none] at taken
      refine ⟨taken.1, List.find?_eq_some_iff_append.mpr ⟨by simp, before, behind, rfl, ?_⟩⟩
      intro s hs
      simpa using fun same => taken.2 ⟨s, hs, same⟩
    have kept := mem_draft_iff.mpr named
    have undone := (contains_finalDrafts_iff (fresh_draft scope _) kept).not.mp
      (Bool.not_eq_true _ ▸ missing.resolve_left taken)
    exact .inr ⟨r, kept, (finalDrafts_settled kept).resolve_left undone⟩

end

def coreScope : TypeScope := ⟨Module.core.types⟩

theorem contains_coreScope {d : Definition} (h : d ∈ Module.core.types) :
    coreScope.contains d.name = true :=
  List.find?_isSome.mpr ⟨d, h, beq_self_eq_true _⟩

theorem ungeneric_coreScope : Ungeneric coreScope := by
  intro n d found
  exact Module.generics_of_mem_core (TypeScope.find?_mem found).1

theorem add_coreScope {d : Definition} (h : d ∈ Module.core.types) : coreScope.add d = coreScope :=
  if_pos (contains_coreScope h)

theorem addAll_coreScope {ds : List Definition} (sub : ds ⊆ Module.core.types) :
    coreScope.addAll ds = coreScope := by
  induction ds with
  | nil => rfl
  | cons d ds ih =>
    rw [List.cons_subset] at sub
    rw [TypeScope.addAll, List.foldl_cons, add_coreScope sub.1]
    exact ih sub.2

theorem addImport_coreScope (i : Import) : (addImport .standard coreScope i).1 = coreScope := by
  unfold addImport
  split
  · rfl
  · next m found =>
    have core := List.mem_of_find?_eq_some found
    rw [Catalog.standard_modules, List.mem_singleton] at core
    subst core
    split
    · split
      · rfl
      · next d found => exact add_coreScope (List.mem_of_find?_eq_some found)
    · exact addAll_coreScope (List.Subset.refl _)

theorem imported_standard (imports : List Import) :
    (imported .standard true imports).1 = coreScope := by
  have automatic : TypeScope.empty.addAll Module.core.types = coreScope :=
    congrArg TypeScope.mk (TypeScope.types_addAll Module.nodup_core)
  have all : (addImports .standard coreScope imports).1 = coreScope := by
    induction imports with
    | nil => rfl
    | cons i rest ih =>
      change (addImports .standard (addImport .standard coreScope i).1 rest).1 = coreScope
      rw [addImport_coreScope, ih]
  rw [← all, ← automatic]
  rfl

def declared (p : Program) : List RecordDecl := (draft coreScope p.records).1

theorem ofProgram_standard (p : Program) : ∃ core,
    ofProgram .standard true p =
      (some ⟨p.name.getD defaultHome, (addRecords (p.name.getD defaultHome) coreScope p.records).1,
        core⟩, (imported .standard true p.imports).2 ++
          (addRecords (p.name.getD defaultHome) coreScope p.records).2) := by
  obtain ⟨core, hc⟩ : ∃ core, Catalog.standard.coreTypes? = some core :=
    Option.isSome_iff_exists.mp (by decide)
  refine ⟨core, ?_⟩
  rw [ofProgram_eq_addRecords true p hc]
  dsimp only
  rw [imported_standard]

/-- With the standard catalog, every program has an environment. The search for the layouts of its
records returns from every state of the drafts, with the result of the search bounded by one more
than the number of records. A record that is the first of its name is visible exactly if it and the
records inside it are well-formed, and then has its fields in a row. There is an error whenever a
record is not visible under its name. -/
theorem record_visible_iff (p : Program) : ∃ env front issues,
    ofProgram .standard true p = (some env, front ++ issues) ∧
    addRecords env.home coreScope p.records = (env.types, issues) ∧
    (∀ r ∈ declared p, ∀ d, Tracked (declared p) d → ∀ res,
      Returns env.home (declared p) r d res ↔
        res = layOutWithin env.home (declared p) ((declared p).length + 1) r d) ∧
    (∀ r, r ∈ declared p ↔ Named coreScope p.records r) ∧
    (∀ r, Named coreScope p.records r →
      (env.types.contains r.name = true ↔
        ∀ s, Relation.ReflTransGen (Contains (declared p)) r s →
          WellFormed coreScope (declared p) s) ∧
      ∀ d, env.types.find? r.name = some d → InRow env.types r d) ∧
    ∀ before r behind, p.records = before ++ r :: behind →
      Taken coreScope before r.name ∨ env.types.contains r.name = false →
        Issue.anyAtLeast .error issues = true := by
  obtain ⟨core, whole⟩ := ofProgram_standard p
  have fresh : Fresh coreScope (declared p) := fresh_draft coreScope p.records
  refine ⟨_, _, _, whole, rfl, fun r hr d tracked res => returns_iff fresh hr tracked,
    fun r => mem_draft_iff, fun r named => ?_, fun before r behind split missing => ?_⟩
  · have hr : r ∈ declared p := mem_draft_iff.mpr named
    exact ⟨contains_finalDrafts_iff_wellFormed fresh ungeneric_coreScope hr,
      fun d found => inRow_finalDrafts fresh hr found⟩
  · rw [split] at missing ⊢
    exact error_addRecords missing

def nodeRecord : RecordDecl :=
  ⟨"Node", true, [⟨"links", ⟨"Links", [], ⟨1, 3⟩⟩, ⟨1, 2⟩⟩], ⟨1, 1⟩⟩

def linksRecord : RecordDecl :=
  ⟨"Links", true, [⟨"next", ⟨"Node", [], ⟨2, 3⟩⟩, ⟨2, 2⟩⟩, ⟨"size", ⟨"Size", [], ⟨2, 5⟩⟩, ⟨2, 4⟩⟩],
    ⟨2, 1⟩⟩

def graphRecord : RecordDecl :=
  ⟨"Graph", true, [⟨"size", ⟨"Size", [], ⟨3, 3⟩⟩, ⟨3, 2⟩⟩, ⟨"root", ⟨"Node", [], ⟨3, 5⟩⟩, ⟨3, 4⟩⟩],
    ⟨3, 1⟩⟩

def sizeRecord : RecordDecl :=
  ⟨"Size", true, [⟨"unit", ⟨"u8", [], ⟨4, 3⟩⟩, ⟨4, 2⟩⟩, ⟨"count", ⟨"u32", [], ⟨4, 5⟩⟩, ⟨4, 4⟩⟩],
    ⟨4, 1⟩⟩

def graph : Program := ⟨none, [], [nodeRecord, linksRecord, graphRecord, sizeRecord], []⟩

theorem graph_visible : ∃ env issues, ofProgram .standard true graph = (some env, issues) ∧
    env.types.contains "Graph" = false ∧ Issue.anyAtLeast .error issues = true ∧
    ∃ d, env.types.find? "Size" = some d ∧ InRow env.types sizeRecord d := by
  obtain ⟨env, front, issues, whole, -, -, kept, visible, errors⟩ := record_visible_iff graph
  have named (r : RecordDecl) (free : coreScope.find? r.name = none)
      (first : (graph.records.find? fun s => s.name == r.name) = some r) :
      Named coreScope graph.records r := ⟨free, first⟩
  have node := (kept nodeRecord).mpr (named _ (by decide) rfl)
  have links := (kept linksRecord).mpr (named _ (by decide) rfl)
  have down : Contains (declared graph) nodeRecord linksRecord :=
    ⟨links, _, List.mem_singleton_self _, rfl⟩
  have up : Contains (declared graph) linksRecord nodeRecord :=
    ⟨node, _, List.mem_cons_self .., rfl⟩
  have around : Contains (declared graph) graphRecord nodeRecord :=
    ⟨node, _, List.mem_cons_of_mem _ (List.mem_singleton_self _), rfl⟩
  have hidden : env.types.contains "Graph" = false := by
    rw [← Bool.not_eq_true]
    intro shown
    have formed := (visible graphRecord (named _ (by decide) rfl)).1.mp shown
    exact (formed nodeRecord (.single around)).acyclic (.tail (.single down) up)
  have reported := errors [nodeRecord, linksRecord] graphRecord [sizeRecord] rfl (.inr hidden)
  have core : ∀ f ∈ sizeRecord.fields, (coreScope.find? f.ty.name).isSome := by decide
  have alone (s : RecordDecl) : ¬ Contains (declared graph) sizeRecord s := by
    rintro ⟨hs, f, hf, same⟩
    have found := core f hf
    rw [← same, ((kept s).mp hs).1] at found
    cases found
  have formed : WellFormed coreScope (declared graph) sizeRecord := by
    refine ⟨fun circle => ?_, by decide, fun f hf => ⟨?_, .inl (core f hf)⟩⟩
    · obtain ⟨s, step, -⟩ := Relation.TransGen.head'_iff.mp circle
      exact alone s step
    · rcases List.mem_cons.mp hf with rfl | hf
      · rfl
      · rw [List.mem_singleton.mp hf]
  obtain ⟨seen, row⟩ := visible sizeRecord (named _ (by decide) rfl)
  have shown : env.types.contains "Size" = true := by
    refine seen.mpr fun s inside => ?_
    rcases Relation.ReflTransGen.cases_head inside with rfl | ⟨t, step, -⟩
    · exact formed
    · exact absurd step (alone t)
  obtain ⟨d, found⟩ := Option.isSome_iff_exists.mp shown
  refine ⟨env, _, whole, hidden, ?_, d, found, row d found⟩
  rw [Issue.anyAtLeast, List.any_append, Bool.or_eq_true]
  exact .inr reported

end Bytescript.Environment
