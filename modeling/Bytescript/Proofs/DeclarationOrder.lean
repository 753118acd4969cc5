import Mathlib
import Bytescript.Proofs.LaidOut

/-!
# The order of declarations

A record is laid out after the records that its fields are, whatever the order in which they are
declared. The records named in the type arguments of a field are not searched for, though: they must
be done when the field is reached. The main statement says exactly when the order of the records of
a program does not matter.
-/
namespace Bytescript.Environment

variable {home : String} {scope : TypeScope} {records : List RecordDecl}

theorem forall₂_unique {α β : Type} {R S : α → β → Prop} {as : List α} {bs cs : List β}
    (h : List.Forall₂ R as bs) (g : List.Forall₂ S as cs)
    (unique : ∀ a ∈ as, ∀ b c, R a b → S a c → b = c) : bs = cs := by
  induction h generalizing cs with
  | nil =>
    cases g
    rfl
  | cons hab _ ih =>
    cases g with
    | cons hac g =>
      rw [unique _ (List.mem_cons_self ..) _ _ hab hac,
        ih g fun a ha => unique a (List.mem_cons_of_mem _ ha)]

theorem ty_ext {t u : Ty} (definition : t.definition = u.definition) (args : t.args = u.args) :
    t = u := by
  cases t
  cases u
  exact (Ty.mk.injEq ..).mpr ⟨definition, args⟩

/-- A written type resolves to the same type in every order of the records. -/
theorem Drafted.resolve_unique {others : List RecordDecl} {d e : Drafts}
    (hd : Drafted home scope records d) (he : Drafted home scope others e)
    (fresh : Fresh scope records) (fresh' : Fresh scope others) (sub : records ⊆ others)
    {written : TypeRef} (h : Denotes scope records written) {t u : Ty}
    (ht : d.types.resolve written = .ok t) (hu : e.types.resolve written = .ok u) : t = u := by
  induction h generalizing t u with
  | imported found arity _ ih =>
    obtain ⟨foundt, -, argst⟩ := TypeScope.resolve_ok ht
    obtain ⟨foundu, -, argsu⟩ := TypeScope.resolve_ok hu
    have definition : t.definition = u.definition := by
      rw [← Option.some.injEq, ← foundt, ← foundu]
      exact (hd.imported found).trans (he.imported found).symm
    have args : t.args = u.args := forall₂_unique (resolveAll_ok_iff.mp argst)
      (resolveAll_ok_iff.mp argsu) fun a ha _ _ => ih a ha
    exact ty_ext definition args
  | @record r position mem names fields ih =>
    obtain ⟨foundt, -, argst⟩ := TypeScope.resolve_ok ht
    obtain ⟨foundu, -, argsu⟩ := TypeScope.resolve_ok hu
    obtain ⟨-, xs, shownx, fitsx⟩ := hd.laid r mem (hd.done_of_mentions fresh ht mem .head)
    obtain ⟨-, ys, showny, fitsy⟩ :=
      he.laid r (sub mem) (he.done_of_mentions fresh' hu (sub mem) .head)
    have same : xs = ys := by
      refine forall₂_unique fitsx fitsy fun f hf x y hx hy => ?_
      exact Prod.ext (hx.1.trans hy.1.symm) (ih f hf hx.2 hy.2)
    subst same
    refine ty_ext (Option.some.inj ?_) ?_
    · exact foundt.symm.trans (shownx.trans (showny.symm.trans foundu))
    · exact Except.ok.inj (argst.symm.trans argsu)

/-- Records that are done in two orders have the same definitions in both. -/
theorem Drafted.find?_mono {others : List RecordDecl} {d e : Drafts}
    (hd : Drafted home scope records d) (he : Drafted home scope others e)
    (fresh : Fresh scope records) (fresh' : Fresh scope others) (sub : records ⊆ others)
    (done : ∀ r ∈ records, d.progress? r.name = some .done → e.progress? r.name = some .done)
    {n : String} {x : Definition} (h : d.types.find? n = some x) : e.types.find? n = some x := by
  rcases hd.visible h with imported | ⟨r, hr, rfl, hdone⟩
  · exact he.imported imported
  · obtain ⟨layable, xs, shown, fits⟩ := hd.laid r hr hdone
    obtain ⟨-, ys, shown', fits'⟩ := he.laid r (sub hr) (done r hr hdone)
    have same : xs = ys := by
      refine forall₂_unique fits fits' fun f hf x y hx hy => ?_
      exact Prod.ext (hx.1.trans hy.1.symm)
        (hd.resolve_unique he fresh fresh' sub (layable.fields f hf) hx.2 hy.2)
    rw [shown', ← same, ← shown, h]

/-- How many records a record needs. Those that cannot be laid out count as needing more than all
the others. -/
noncomputable def need (scope : TypeScope) (records : List RecordDecl) (r : RecordDecl) : Nat :=
  open Classical in
  if Layable scope records r then records.countP fun s => Relation.TransGen (Needs records) r s
  else records.length + 1

theorem need_lt (fresh : Fresh scope records) {r s : RecordDecl} (hs : s ∈ records)
    (layable : Layable scope records s)
    (needs : Layable scope records r → Relation.TransGen (Needs records) r s) :
    need scope records s < need scope records r := by
  classical
  by_cases hr : Layable scope records r
  · have acyclic := layable.not_needs_self fresh hs
    simp only [need, layable, hr, if_true]
    refine countP_lt (fun t _ ht => ?_) hs (by simpa using needs hr) (by simpa using acyclic)
    simp only [decide_eq_true_eq] at ht ⊢
    exact (needs hr).trans ht
  · simp only [need, layable, hr, if_true, if_false]
    exact Nat.lt_succ_of_le List.countP_le_length

/-- Every record is behind those that it needs, and those that cannot be laid out are behind all
that can. -/
def Behind (scope : TypeScope) (order : List RecordDecl) : Prop :=
  ∀ front r back, order = front ++ r :: back → ∀ s ∈ order, Layable scope order s →
    (Layable scope order r → Relation.TransGen (Needs order) r s) → s ∈ front

theorem exists_behind (fresh : Fresh scope records) :
    ∃ order, List.Perm order records ∧ Behind scope order := by
  let le (a b : RecordDecl) : Bool := decide (need scope records a ≤ need scope records b)
  have sorted : (records.mergeSort le).Pairwise fun a b => le a b :=
    List.pairwise_mergeSort (fun a b c => by simp only [le, decide_eq_true_eq]; omega)
      (fun a b => by simp only [le, Bool.or_eq_true, decide_eq_true_eq]; omega) records
  have perm := List.mergeSort_perm records le
  refine ⟨records.mergeSort le, perm, fun front r back split s hs layable needs => ?_⟩
  have lt : need scope records s < need scope records r := by
    refine need_lt fresh (perm.mem_iff.mp hs) (layable.mono perm.subset) fun hr => ?_
    refine Relation.TransGen.mono ?_ _ _ (needs (hr.mono perm.symm.subset))
    rintro a b ⟨hb, step⟩
    exact ⟨perm.mem_iff.mp hb, step⟩
  rw [split] at hs sorted
  rcases List.mem_append.mp hs with hs | hs
  · exact hs
  · have later := (List.pairwise_cons.mp (List.pairwise_append.mp sorted).2.1).1
    rcases List.mem_cons.mp hs with rfl | hs
    · omega
    · have le := of_decide_eq_true (later s hs)
      omega

/-- In such an order every record that can be laid out is laid out. -/
theorem Behind.done {issues : List Issue} (behind : Behind scope records)
    (fresh : Fresh scope records) {r : RecordDecl} (hr : r ∈ records)
    (layable : Layable scope records r) :
    (finalDrafts home scope issues records).progress? r.name = some .done := by
  refine finalDrafts_done fresh (fun front r back split e done => ?_) hr layable
  intro s hs layable pending inside
  -- whatever waits at this point is the record itself
  have own : s = r ∧ Layable scope records r := by
    by_contra other
    have needs : Layable scope records r → Relation.TransGen (Needs records) r s := by
      intro hr
      rcases Relation.reflTransGen_iff_eq_or_transGen.mp inside with same | within
      · exact absurd ⟨same, hr⟩ other
      · exact transGen_needs within
    rw [done s (behind front r back split s hs layable needs) layable] at pending
    cases pending
  obtain ⟨rfl, -⟩ := own
  intro before f after fields a ha t ht hm
  have needs : Needs records s t := ⟨ht, f, by simp [fields], .inside ha hm⟩
  have layable' := layable.of_needs fresh (.single needs)
  exact .inl (done t (behind front s back split t ht layable' fun _ => .single needs) layable')

theorem Behind.find? (behind : Behind scope records) (home : String) (issues : List Issue)
    (fresh : Fresh scope records) {r : RecordDecl} (hr : r ∈ records)
    (layable : Layable scope records r) :
    ∃ x, (finalDrafts home scope issues records).types.find? r.name = some x := by
  obtain ⟨-, fields, shown, -⟩ :=
    (drafted_finalDrafts fresh).laid r hr (behind.done fresh hr layable)
  exact ⟨_, shown⟩

/-- A call changes only the record and those inside it. -/
def Touches (records : List RecordDecl) (r : RecordDecl) (d : Drafts) (res : Bool × Drafts) :
    Prop :=
  r ∈ records → ∀ n, res.2.progress? n ≠ d.progress? n →
    ∃ t ∈ records, t.name = n ∧ Relation.ReflTransGen (Contains records) r t

def TouchesSoFar (records : List RecordDecl) (r : RecordDecl) (d : Drafts)
    (before : List FieldDecl) (g : Gathered) : Prop :=
  ∀ n, g.drafts.progress? n ≠ (d.mark r.name .underway).progress? n →
    ∃ t ∈ records, t.name = n ∧ Leading records before t

theorem Leading.append {before : List FieldDecl} {s : RecordDecl} (h : Leading records before s)
    (more : List FieldDecl) : Leading records (before ++ more) s := by
  obtain ⟨f, hf, rest⟩ := h
  exact ⟨f, List.mem_append_left _ hf, rest⟩

theorem TouchesSoFar.inner {r s : RecordDecl} {d drafts : Drafts} {before : List FieldDecl}
    {f : FieldDecl} {g : Gathered} {b : Bool} (h : TouchesSoFar records r d before g)
    (hs : s ∈ records) (named : s.name = f.ty.name) (hp : Touches records s g.drafts (b, drafts)) :
    TouchesSoFar records r d (before ++ [f]) { g with drafts } := by
  intro n changed
  by_cases same : drafts.progress? n = g.drafts.progress? n
  · obtain ⟨t, ht, hn, leading⟩ := h n (same ▸ changed)
    exact ⟨t, ht, hn, leading.append [f]⟩
  · obtain ⟨t, ht, hn, inside⟩ := hp hs n same
    exact ⟨t, ht, hn, f, by simp, s, hs, named, inside⟩

theorem locality (home : String) (records : List RecordDecl) :
    LayoutCases home records (Touches records) (TouchesSoFar records) where
  done _ := fun _ _ h => absurd rfl h
  failed _ := fun _ _ h => absurd rfl h
  circular {r d} _ := by
    intro hr n changed
    by_cases hn : n = r.name
    · exact ⟨r, hr, hn.symm, .refl⟩
    · simp [hn] at changed
  start _ _ := fun _ h => absurd rfl h
  plain _ hq _ := by
    intro n changed
    rw [progress?_gatherField] at changed
    obtain ⟨t, ht, hn, leading⟩ := hq n changed
    exact ⟨t, ht, hn, leading.append _⟩
  inner _ hq hs named hp := by
    intro n changed
    rw [progress?_gatherField] at changed
    exact hq.inner hs named hp n changed
  broken _ hq hs named hp := hq.inner hs named hp
  finish {r d g} hr _ hq := by
    intro _ n changed
    by_cases hn : n = r.name
    · exact ⟨r, hr, hn.symm, .refl⟩
    · have kept : (finish home r g).2.progress? n = g.drafts.progress? n := by
        unfold Environment.finish
        split <;> simp [hn]
      obtain ⟨t, ht, same, f, hf, s, hs, named, inside⟩ :=
        hq n (by simpa [hn, ← kept] using changed)
      exact ⟨t, ht, same, .head ⟨hs, f, hf, named⟩ inside⟩

/-- A field of a record, and a record in its type arguments that is not in an earlier field. -/
structure Gap (scope : TypeScope) (records : List RecordDecl) (owner : RecordDecl)
    (front : List FieldDecl) (field : FieldDecl) (s : RecordDecl) : Prop where
  owner_mem : owner ∈ records
  layable : Layable scope records owner
  split : ∃ back, owner.fields = front ++ field :: back
  mem : s ∈ records
  named : ∃ a ∈ field.ty.args, Mentions a s.name
  hidden : ¬ Leading records front s

theorem exists_gap (h : ¬ Covered scope records) :
    ∃ owner front field s, Gap scope records owner front field s := by
  simp only [Covered, not_forall] at h
  obtain ⟨owner, mem, layable, front, field, back, split, a, ha, s, hs, hm, hidden⟩ := h
  exact ⟨owner, front, field, s, mem, layable, ⟨back, split⟩, hs, ⟨a, ha, hm⟩, hidden⟩

section

variable {owner s : RecordDecl} {front : List FieldDecl} {field : FieldDecl}

/-- When the field is reached, the record is not done unless it was at the start. -/
theorem Gap.not_done (gap : Gap scope records owner front field s) (fresh : Fresh scope records)
    {d : Drafts} {g : Gathered} (touched : TouchesSoFar records owner d front g)
    (late : d.progress? s.name ≠ some .done) : g.drafts.progress? s.name ≠ some .done := by
  intro done
  have marked : (d.mark owner.name .underway).progress? s.name ≠ some .done := by
    rw [Drafts.progress?_mark]
    split
    · simp
    · exact late
  obtain ⟨t, ht, same, leading⟩ := touched s.name fun equal => marked (equal ▸ done)
  rw [fresh.unique t ht s gap.mem same] at leading
  exact gap.hidden leading

theorem Gap.bad (gap : Gap scope records owner front field s) (fresh : Fresh scope records)
    {d : Drafts} {g : Gathered} (touched : TouchesSoFar records owner d front g)
    (drafted : Drafted home scope records g.drafts) (late : d.progress? s.name ≠ some .done) :
    (gatherField g field).good = false := by
  rw [← Bool.not_eq_true]
  intro good
  obtain ⟨-, -, t, ht, -⟩ := gatherField_good good
  obtain ⟨a, ha, hm⟩ := gap.named
  exact gap.not_done fresh touched late
    (drafted.done_of_mentions fresh ht gap.mem (.inside ha hm))

theorem gatherField_bad {g : Gathered} (bad : g.good = false) (f : FieldDecl) :
    (gatherField g f).good = false := by
  rw [← Bool.not_eq_true]
  intro good
  exact absurd (gatherField_good good).1 (by simp [bad])

def Stumbles (home : String) (scope : TypeScope) (records : List RecordDecl)
    (owner s r : RecordDecl) (d : Drafts) (res : Bool × Drafts) : Prop :=
  Keeps home scope records r d res ∧ Touches records r d res ∧
    (r = owner → Drafted home scope records d → d.progress? owner.name = some .pending →
      d.progress? s.name ≠ some .done → res.1 = false)

def StumblesSoFar (home : String) (scope : TypeScope) (records : List RecordDecl)
    (owner s : RecordDecl) (front : List FieldDecl) (field : FieldDecl) (r : RecordDecl)
    (d : Drafts) (before : List FieldDecl) (g : Gathered) : Prop :=
  KeepsSoFar home scope records r d before g ∧ TouchesSoFar records r d before g ∧
    (r = owner → Drafted home scope records d → d.progress? s.name ≠ some .done →
      front ++ [field] <+: before → g.good = false)

theorem failure (fresh : Fresh scope records) (gap : Gap scope records owner front field s) :
    LayoutCases home records (Stumbles home scope records owner s)
      (StumblesSoFar home scope records owner s front field) where
  done {r d} hp := by
    refine ⟨(soundness fresh).done hp, (locality home records).done hp, ?_⟩
    rintro rfl - pending
    rw [hp] at pending
    cases pending
  failed hp := ⟨(soundness fresh).failed hp, (locality home records).failed hp, fun _ _ _ _ => rfl⟩
  circular hp :=
    ⟨(soundness fresh).circular hp, (locality home records).circular hp, fun _ _ _ _ => rfl⟩
  start hr hp := by
    refine ⟨(soundness fresh).start hr hp, (locality home records).start hr hp, ?_⟩
    intro _ _ _ passed
    simp at passed
  plain {r d before f g} reaches hq hn := by
    refine ⟨(soundness fresh).plain reaches hq.1 hn,
      (locality home records).plain reaches hq.2.1 hn, ?_⟩
    rintro rfl drafted late passed
    rcases List.prefix_concat_iff.mp passed with reached | passed
    · obtain ⟨rfl, same⟩ := List.append_inj' reached rfl
      cases same
      exact gap.bad fresh hq.2.1 (hq.1.2 drafted).1 late
    · exact gatherField_bad (hq.2.2 rfl drafted late passed) f
  inner {r d before f g t drafts} reaches hq ht named hp := by
    refine ⟨(soundness fresh).inner reaches hq.1 ht named hp.1,
      (locality home records).inner reaches hq.2.1 ht named hp.2.1, ?_⟩
    rintro rfl drafted late passed
    rcases List.prefix_concat_iff.mp passed with reached | passed
    · -- a field that is a record has no type arguments
      obtain ⟨rfl, same⟩ := List.append_inj' reached rfl
      cases same
      obtain ⟨a, ha, -⟩ := gap.named
      obtain ⟨back, split⟩ := gap.split
      have none := (gap.layable.fields field (by simp [split])).args_eq_nil fresh ht named
      simp [none] at ha
    · exact gatherField_bad (g := { g with drafts }) (hq.2.2 rfl drafted late passed) f
  broken reaches hq ht named hp :=
    ⟨(soundness fresh).broken reaches hq.1 ht named hp.1,
      (locality home records).broken reaches hq.2.1 ht named hp.2.1, fun _ _ _ _ => rfl⟩
  finish {r d g} hr hp hq := by
    refine ⟨(soundness fresh).finish hr hp hq.1, (locality home records).finish hr hp hq.2.1, ?_⟩
    rintro rfl drafted - late
    obtain ⟨back, split⟩ := gap.split
    have bad := hq.2.2 rfl drafted late ⟨back, by simp [split]⟩
    simp [Environment.finish, bad]

/-- The owner of a gap is not laid out when it comes first. -/
theorem Gap.failed (gap : Gap scope records owner front field s) (fresh : Fresh scope records)
    {others : List RecordDecl} (first : records = owner :: others) {issues : List Issue} :
    (finalDrafts home scope issues records).progress? owner.name = some .failed := by
  have tracked : Tracked records (initialDrafts scope records issues) :=
    tracked_initialDrafts issues
  have pending : (initialDrafts scope records issues).progress? owner.name = some .pending :=
    progress?_initialDrafts.mpr ⟨rfl, owner, gap.owner_mem, rfl⟩
  obtain ⟨⟨⟨-, own⟩, -⟩, -, stumbles⟩ : Stumbles home scope records owner s owner _ _ :=
    (failure fresh gap).layOut gap.owner_mem tracked
  have bad := stumbles rfl (drafted_initialDrafts issues) pending
    (initialDrafts_ne issues (by decide))
  rw [bad] at own
  have sub : others ⊆ records := by
    rw [first]
    exact List.subset_cons_self owner others
  have start : finalDrafts home scope issues records = layOutAll home records others
      (layOut home records owner (initialDrafts scope records issues)) := by
    rw [finalDrafts]
    nth_rewrite 2 [first]
    rw [layOutAll, List.foldl_cons, if_pos pending]
    rfl
  rw [start]
  exact (evolves_layOutAll home sub (tracked_layOut home gap.owner_mem tracked)).failed own

theorem Gap.find? (gap : Gap scope records owner front field s) (home : String)
    (issues : List Issue) (fresh : Fresh scope records) {others : List RecordDecl}
    (first : records = owner :: others) :
    (finalDrafts home scope issues records).types.find? owner.name = none := by
  rw [Option.eq_none_iff_forall_not_mem]
  intro x hx
  rcases (drafted_finalDrafts fresh).visible hx with taken | ⟨-, -, -, done⟩
  · simp [fresh.free owner gap.owner_mem] at taken
  · rw [gap.failed fresh first] at done
    cases done

end

def imported (catalog : Catalog) (automatic : Bool) (imports : List Import) :
    TypeScope × List Issue :=
  addImports catalog
    (if automatic then catalog.automatic.foldl (fun scope m => scope.addAll m.types) .empty
    else .empty) imports

def ownRecords (scope : TypeScope) (records : List RecordDecl) : List RecordDecl :=
  records.filter fun r => !scope.contains r.name

def clashIssues (scope : TypeScope) (records : List RecordDecl) : List Issue :=
  (records.filter fun r => scope.contains r.name).map fun r =>
    (Problem.duplicateType r.name).issueAt r.position

theorem draft_concat (scope : TypeScope) (records : List RecordDecl) (r : RecordDecl) :
    draft scope (records ++ [r]) =
      if scope.contains r.name || (draft scope records).1.any fun s => s.name == r.name then
        ((draft scope records).1,
          (draft scope records).2 ++ [(Problem.duplicateType r.name).issueAt r.position])
      else ((draft scope records).1 ++ [r], (draft scope records).2) := by
  rw [draft, List.foldl_append]
  rfl

theorem draft_eq (scope : TypeScope) {records : List RecordDecl}
    (distinct : (records.map RecordDecl.name).Nodup) :
    draft scope records = (ownRecords scope records, clashIssues scope records) := by
  induction records using List.reverseRecOn with
  | nil => rfl
  | append_singleton records r ih =>
    rw [List.map_append, List.nodup_append] at distinct
    have once : ((ownRecords scope records).any fun s => s.name == r.name) = false := by
      simp only [List.any_eq_false, beq_iff_eq]
      intro s hs same
      refine distinct.2.2 s.name ?_ r.name (by simp) same
      exact List.mem_map_of_mem (List.mem_of_mem_filter hs)
    rw [draft_concat, ih distinct.1, once, Bool.or_false]
    cases taken : scope.contains r.name <;> simp [ownRecords, clashIssues, taken]

theorem fresh_ownRecords (scope : TypeScope) {records : List RecordDecl}
    (distinct : (records.map RecordDecl.name).Nodup) : Fresh scope (ownRecords scope records) where
  free r hr := by simpa [ownRecords, TypeScope.contains] using (List.mem_filter.mp hr).2
  unique r hr s hs same :=
    List.inj_on_of_nodup_map distinct (List.mem_of_mem_filter hr) (List.mem_of_mem_filter hs) same

theorem addRecords_eq (home : String) (scope : TypeScope) (records : List RecordDecl) :
    addRecords home scope records =
      ((finalDrafts home scope (draft scope records).2 (draft scope records).1).types,
        (finalDrafts home scope (draft scope records).2 (draft scope records).1).issues) := rfl

theorem ofProgram_eq_addRecords {catalog : Catalog} {core : CoreTypes} (automatic : Bool)
    (p : Program) (hc : catalog.coreTypes? = some core) :
    ofProgram catalog automatic p =
      let scope := imported catalog automatic p.imports
      let types := addRecords (p.name.getD defaultHome) scope.1 p.records
      (some ⟨p.name.getD defaultHome, types.1, core⟩, scope.2 ++ types.2) := by
  rw [ofProgram, hc]
  rfl

theorem ofProgram_eq {catalog : Catalog} {core : CoreTypes} (automatic : Bool) {p : Program}
    (hc : catalog.coreTypes? = some core) (distinct : (p.records.map RecordDecl.name).Nodup) :
    ofProgram catalog automatic p =
      let scope := imported catalog automatic p.imports
      let final := finalDrafts (p.name.getD defaultHome) scope.1 (clashIssues scope.1 p.records)
        (ownRecords scope.1 p.records)
      (some ⟨p.name.getD defaultHome, final.types, core⟩, scope.2 ++ final.issues) := by
  rw [ofProgram_eq_addRecords automatic p hc]
  dsimp only
  rw [addRecords_eq, draft_eq _ distinct]

theorem error_clashIssues_iff {records : List RecordDecl} :
    Issue.anyAtLeast .error (clashIssues scope records) = true ↔
      ∃ r ∈ records, scope.contains r.name = true := by
  simp only [Issue.anyAtLeast, clashIssues, List.any_eq_true, List.mem_map, List.mem_filter,
    decide_eq_true_eq]
  constructor
  · rintro ⟨_, ⟨r, ⟨hr, clash⟩, rfl⟩, -⟩
    exact ⟨r, hr, clash⟩
  · rintro ⟨r, hr, clash⟩
    exact ⟨_, ⟨r, ⟨hr, clash⟩, rfl⟩, le_refl 2⟩

theorem Leading.mono {more : List RecordDecl} (sub : records ⊆ more) {fields : List FieldDecl}
    {s : RecordDecl} (h : Leading records fields s) : Leading more fields s := by
  obtain ⟨f, hf, t, ht, named, inside⟩ := h
  refine ⟨f, hf, t, sub ht, named, Relation.ReflTransGen.mono ?_ _ _ inside⟩
  rintro a b ⟨hb, step⟩
  exact ⟨sub hb, step⟩

theorem Covered.perm {others : List RecordDecl} (h : Covered scope records)
    (perm : records.Perm others) : Covered scope others := by
  intro r hr layable before f after split a ha s hs hm
  exact (h r (perm.mem_iff.mpr hr) (layable.mono perm.symm.subset) before f after split a ha s
    (perm.mem_iff.mpr hs) hm).mono perm.subset

/-- Two programs have errors alike and see the same types. -/
def Alike (a b : Option Environment × List Issue) : Prop :=
  Issue.anyAtLeast .error a.2 = Issue.anyAtLeast .error b.2 ∧ a.1.isSome = b.1.isSome ∧
    ∀ env ∈ a.1, ∀ env' ∈ b.1, ∀ name, env.types.find? name = env'.types.find? name

section

variable {others : List RecordDecl} {issues more : List Issue}

theorem finalDrafts_done_of_perm (fresh : Fresh scope records) (fresh' : Fresh scope others)
    (covered : Covered scope records) (perm : records.Perm others) {r : RecordDecl}
    (hr : r ∈ records)
    (done : (finalDrafts home scope issues records).progress? r.name = some .done) :
    (finalDrafts home scope more others).progress? r.name = some .done := by
  rw [finalDrafts_done_iff fresh covered hr] at done
  rw [finalDrafts_done_iff fresh' (covered.perm perm) (perm.mem_iff.mp hr)]
  exact done.mono perm.subset

/-- The visible types in one order are visible in another. -/
theorem finalDrafts_find?_of_perm (fresh : Fresh scope records) (fresh' : Fresh scope others)
    (covered : Covered scope records) (perm : records.Perm others) {n : String} {x : Definition}
    (h : (finalDrafts home scope issues records).types.find? n = some x) :
    (finalDrafts home scope more others).types.find? n = some x :=
  (drafted_finalDrafts fresh).find?_mono (drafted_finalDrafts fresh') fresh fresh' perm.subset
    (fun _ hr => finalDrafts_done_of_perm fresh fresh' covered perm hr) h

theorem finalDrafts_faulty_of_perm (fresh : Fresh scope records) (fresh' : Fresh scope others)
    (covered : Covered scope records) (perm : records.Perm others)
    (same : Issue.anyAtLeast .error issues = true → Issue.anyAtLeast .error more = true)
    (h : Faulty (finalDrafts home scope issues records)) :
    Faulty (finalDrafts home scope more others) := by
  rw [faulty_finalDrafts_iff] at h ⊢
  refine h.imp same ?_
  rintro ⟨r, hr, failed⟩
  refine ⟨r, perm.mem_iff.mp hr, (finalDrafts_settled (perm.mem_iff.mp hr)).resolve_left ?_⟩
  intro done
  have back : (finalDrafts home scope issues records).progress? r.name = some .done :=
    finalDrafts_done_of_perm fresh' fresh (covered.perm perm) perm.symm (perm.mem_iff.mp hr) done
  rw [failed] at back
  cases back

theorem alike_finalDrafts {core : CoreTypes} (front : List Issue) (fresh : Fresh scope records)
    (fresh' : Fresh scope others) (covered : Covered scope records) (perm : records.Perm others)
    (same : Issue.anyAtLeast .error issues = true ↔ Issue.anyAtLeast .error more = true) :
    Alike
      (some ⟨home, (finalDrafts home scope issues records).types, core⟩,
        front ++ (finalDrafts home scope issues records).issues)
      (some ⟨home, (finalDrafts home scope more others).types, core⟩,
        front ++ (finalDrafts home scope more others).issues) := by
  have errors : Issue.anyAtLeast .error (finalDrafts home scope issues records).issues =
      Issue.anyAtLeast .error (finalDrafts home scope more others).issues := by
    refine Bool.eq_iff_iff.mpr ⟨?_, ?_⟩
    · exact finalDrafts_faulty_of_perm fresh fresh' covered perm same.mp
    · exact finalDrafts_faulty_of_perm fresh' fresh (covered.perm perm) perm.symm same.mpr
  refine ⟨?_, by simp only [Option.isSome_some], ?_⟩
  · simp only [Issue.anyAtLeast, List.any_append] at errors ⊢
    rw [errors]
  · rintro env ⟨⟩ env' ⟨⟩ name
    refine Option.ext fun x => ⟨?_, ?_⟩
    · exact finalDrafts_find?_of_perm fresh fresh' covered perm
    · exact finalDrafts_find?_of_perm fresh' fresh (covered.perm perm) perm.symm

end

section

variable {catalog : Catalog} {automatic : Bool} {p : Program} {core : CoreTypes}

theorem alike_of_covered (hc : catalog.coreTypes? = some core)
    (distinct : (p.records.map RecordDecl.name).Nodup)
    (covered : Covered (imported catalog automatic p.imports).1
      (ownRecords (imported catalog automatic p.imports).1 p.records))
    {records : List RecordDecl} (perm : records.Perm p.records) :
    Alike (ofProgram catalog automatic p) (ofProgram catalog automatic { p with records }) := by
  have distinct' : (records.map RecordDecl.name).Nodup := (perm.map _).nodup_iff.mpr distinct
  rw [ofProgram_eq automatic hc distinct,
    ofProgram_eq (p := { p with records }) automatic hc distinct']
  refine alike_finalDrafts _ (fresh_ownRecords _ distinct) (fresh_ownRecords _ distinct') covered
    (perm.filter _).symm ?_
  simp [error_clashIssues_iff, perm.mem_iff]

/-- Every order of a program's own records is that of some order of all its records. -/
theorem exists_perm_ownRecords {own : List RecordDecl}
    (perm : own.Perm (ownRecords scope records)) :
    ∃ order : List RecordDecl, order.Perm records ∧ ownRecords scope order = own := by
  refine ⟨own ++ records.filter (fun r => scope.contains r.name), ?_, ?_⟩
  · refine (perm.append_right _).trans ?_
    simpa [ownRecords] using List.filter_append_perm (fun r => !scope.contains r.name) records
  · have kept : ∀ r ∈ own, (!scope.contains r.name) = true :=
      fun r hr => (List.mem_filter.mp (perm.mem_iff.mp hr)).2
    simp [ownRecords, List.filter_append, List.filter_eq_self.mpr kept, List.filter_filter]

theorem Fresh.perm {others : List RecordDecl} (h : Fresh scope records)
    (perm : records.Perm others) : Fresh scope others where
  free r hr := h.free r (perm.mem_iff.mpr hr)
  unique r hr s hs := h.unique r (perm.mem_iff.mpr hr) s (perm.mem_iff.mpr hs)

theorem Gap.perm {owner s : RecordDecl} {front : List FieldDecl} {field : FieldDecl}
    {others : List RecordDecl} (h : Gap scope records owner front field s)
    (perm : records.Perm others) : Gap scope others owner front field s where
  owner_mem := perm.mem_iff.mp h.owner_mem
  layable := h.layable.mono perm.subset
  split := h.split
  mem := perm.mem_iff.mp h.mem
  named := h.named
  hidden := fun leading => h.hidden (leading.mono perm.symm.subset)

theorem covered_of_alike (hc : catalog.coreTypes? = some core)
    (distinct : (p.records.map RecordDecl.name).Nodup)
    (alike : ∀ records : List RecordDecl, records.Perm p.records →
      Alike (ofProgram catalog automatic p) (ofProgram catalog automatic { p with records })) :
    Covered (imported catalog automatic p.imports).1
      (ownRecords (imported catalog automatic p.imports).1 p.records) := by
  by_contra uncovered
  -- in one order the owner of a gap is visible, in another it is not
  generalize hs : imported catalog automatic p.imports = scope at uncovered
  obtain ⟨owner, front, field, s, gap⟩ := exists_gap uncovered
  have fresh := fresh_ownRecords scope.1 distinct
  obtain ⟨good, goodPerm, behind⟩ := exists_behind fresh
  obtain ⟨before, after, split⟩ := List.append_of_mem gap.owner_mem
  have badPerm : (owner :: (before ++ after)).Perm (ownRecords scope.1 p.records) := by
    rw [split]
    exact List.perm_middle.symm
  have seen {own : List RecordDecl} (perm : own.Perm (ownRecords scope.1 p.records)) :
      ∃ issues, ∀ n, (finalDrafts (p.name.getD defaultHome) scope.1 issues own).types.find? n =
        (finalDrafts (p.name.getD defaultHome) scope.1 (clashIssues scope.1 p.records)
          (ownRecords scope.1 p.records)).types.find? n := by
    obtain ⟨records, perm', rfl⟩ := exists_perm_ownRecords perm
    have distinct' : (records.map RecordDecl.name).Nodup := (perm'.map _).nodup_iff.mpr distinct
    have same := alike records perm'
    rw [ofProgram_eq automatic hc distinct,
      ofProgram_eq (p := { p with records }) automatic hc distinct'] at same
    dsimp only at same
    rw [hs] at same
    exact ⟨clashIssues scope.1 records, fun n => (same.2.2 _ rfl _ rfl n).symm⟩
  obtain ⟨issues, hgood⟩ := seen goodPerm
  obtain ⟨issues', hbad⟩ := seen badPerm
  obtain ⟨x, shown⟩ := behind.find? (p.name.getD defaultHome) issues (fresh.perm goodPerm.symm)
    (goodPerm.mem_iff.mpr gap.owner_mem) (gap.layable.mono goodPerm.symm.subset)
  have missing := (gap.perm badPerm.symm).find? (p.name.getD defaultHome) issues'
    (fresh.perm badPerm.symm) rfl
  rw [hgood, ← hbad] at shown
  cases missing.symm.trans shown

end

/-- The order of the records of a program does not matter, to whether there are errors and to what
is visible under each name, exactly if every record in the type arguments of a field is covered. -/
theorem record_order_irrelevant_iff (catalog : Catalog) (automatic : Bool) (p : Program)
    (distinct : (p.records.map RecordDecl.name).Nodup) :
    (∀ records : List RecordDecl, records.Perm p.records →
      Alike (ofProgram catalog automatic p) (ofProgram catalog automatic { p with records })) ↔
    (catalog.coreTypes?.isSome →
      Covered (imported catalog automatic p.imports).1
        (ownRecords (imported catalog automatic p.imports).1 p.records)) := by
  constructor
  · intro alike hc
    obtain ⟨core, hc⟩ := Option.isSome_iff_exists.mp hc
    exact covered_of_alike hc distinct alike
  · intro covered records perm
    cases hc : catalog.coreTypes? with
    | some core => exact alike_of_covered hc distinct (covered (by simp [hc])) perm
    | none =>
      have nothing (q : Program) : ofProgram catalog automatic q =
          (none, [Problem.noCoreModule.issueAt ⟨0, 0⟩]) := by
        rw [ofProgram, hc]
      rw [nothing, nothing]
      exact ⟨rfl, rfl, fun _ h => nomatch h⟩

def listCatalog : Catalog := Catalog.standard.register {
  name := "lib"
  automatic := true
  types := [{ Definition.ofHandle "lib" "List" with generics := ["T"] }] }

def bookRecord : RecordDecl := ⟨"Book", true, [⟨"pages", ⟨"i32", [], ⟨3, 3⟩⟩, ⟨3, 1⟩⟩], ⟨3, 1⟩⟩

def shelfRecord : RecordDecl := ⟨"Shelf", true,
  [⟨"first", ⟨"Book", [], ⟨2, 3⟩⟩, ⟨2, 1⟩⟩,
    ⟨"others", ⟨"List", [⟨"Book", [], ⟨2, 9⟩⟩], ⟨2, 8⟩⟩, ⟨2, 6⟩⟩], ⟨1, 1⟩⟩

def shelf : Program := ⟨none, [], [shelfRecord, bookRecord], []⟩

theorem shelf_covered (scope : TypeScope) : Covered scope (ownRecords scope shelf.records) := by
  intro r hr _ before f after split a ha s hs hm
  have own : ∀ t ∈ ownRecords scope shelf.records, t = shelfRecord ∨ t = bookRecord := by
    intro t ht
    simpa [shelf] using List.mem_of_mem_filter ht
  rcases own r hr with rfl | rfl
  · match before, split with
    | [], split =>
      cases split
      cases ha
    | [first], split =>
      cases split
      cases List.mem_singleton.mp ha
      generalize named : s.name = n at hm
      cases hm with
      | inside ha => cases ha
      | head => exact ⟨_, List.mem_singleton_self _, s, hs, named, .refl⟩
    | _ :: _ :: _, split => simp [shelfRecord] at split
  · match before, split with
    | [], split =>
      cases split
      cases ha
    | _ :: _, split => simp [bookRecord] at split

theorem shelf_order_irrelevant : (shelf.records.map RecordDecl.name).Nodup ∧
    Alike (ofProgram listCatalog true shelf)
      (ofProgram listCatalog true { shelf with records := [bookRecord, shelfRecord] }) := by
  have distinct : (shelf.records.map RecordDecl.name).Nodup := by decide
  exact ⟨distinct, (record_order_irrelevant_iff listCatalog true shelf distinct).mpr
    (fun _ => shelf_covered _) _ (List.Perm.swap ..)⟩

def looseShelf : Program :=
  ⟨none, [], [{ shelfRecord with fields := shelfRecord.fields.tail }, bookRecord], []⟩

/-- If it is declared before the record in its type argument, there is an error and it is not
visible; in the other order it is visible and there is no error. -/
theorem looseShelf_order_matters :
    (ofProgram listCatalog true looseShelf).1.map (·.types.contains "Shelf") = some false ∧
    Issue.anyAtLeast .error (ofProgram listCatalog true looseShelf).2 = true ∧
    (ofProgram listCatalog true { looseShelf with records := looseShelf.records.reverse }).1.map
      (·.types.contains "Shelf") = some true ∧
    (ofProgram listCatalog true { looseShelf with records := looseShelf.records.reverse }).2 =
      [] := by
  decide +kernel

end Bytescript.Environment
