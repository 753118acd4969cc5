import Mathlib
import Bytescript.Proofs.Universe

/-!
# Laying out records

The effect of the search through the records of a program on their drafts. One call is analysed
once, into the cases that it can end in; a property of every call is then proved by these cases.
-/
namespace Bytescript

namespace Checked

theorem foldlM_add_eq_ok_iff {ns : List Nat} {total n : Nat} (h : total < wordLimit) :
    ns.foldlM add total = .ok n ↔ total + ns.sum < wordLimit ∧ n = total + ns.sum := by
  induction ns generalizing total with
  | nil => simp [h, eq_comm, pure, Except.pure]
  | cons m ns ih =>
    rw [List.foldlM_cons, bind_eq_ok_iff, List.sum_cons, ← Nat.add_assoc]
    constructor
    · rintro ⟨a, ha, rest⟩
      obtain ⟨lt, rfl⟩ := add_eq_ok_iff.mp ha
      exact (ih lt).mp rest
    · intro rest
      have lt : total + m < wordLimit := by omega
      exact ⟨_, add_eq_ok_iff.mpr ⟨lt, rfl⟩, (ih lt).mpr rest⟩

theorem sum_eq_ok_iff {ns : List Nat} {n : Nat} :
    sum ns = .ok n ↔ ns.sum < wordLimit ∧ n = ns.sum := by
  rw [sum, foldlM_add_eq_ok_iff (by decide), Nat.zero_add]

end Checked

namespace Environment

/-- No layout panics exactly if the sizes of the fields of each record add up to less than 2 ^ 32. -/
theorem panic?_eq_none_iff {env : Environment} :
    env.panic? = none ↔
      ∀ d ∈ env.types.types, (d.fields.map fun f => f.ty.size).sum < wordLimit := by
  rw [panic?, List.findSome?_eq_none_iff]
  refine forall_congr' fun d => imp_congr_right fun _ => ?_
  cases measured : Checked.sum (d.fields.map fun f => f.ty.size) with
  | ok n => exact ⟨fun _ => (Checked.sum_eq_ok_iff.mp measured).1, fun _ => rfl⟩
  | error q =>
    refine ⟨by simp, fun small => ?_⟩
    cases measured.symm.trans (Checked.sum_eq_ok_iff.mpr ⟨small, rfl⟩)

namespace Drafts

@[simp] theorem progress?_mark (d : Drafts) (name n : String) (p : Progress) :
    (d.mark name p).progress? n =
      if n = name then (d.progress? n).map fun _ => p else d.progress? n := by
  obtain ⟨progress, types, issues⟩ := d
  simp only [progress?, mark]
  induction progress with
  | nil => simp
  | cons entry rest ih =>
    obtain ⟨key, q⟩ := entry
    simp only [List.map_cons]
    by_cases hk : key = name
    · subst hk
      by_cases hn : n = key
      · subst hn
        simp [List.lookup]
      · simpa [List.lookup, hn, beq_eq_false_iff_ne.mpr hn] using ih
    · by_cases hn : n = key
      · subst hn
        simp [List.lookup, hk]
      · simpa [List.lookup, hk, beq_eq_false_iff_ne.mpr hn] using ih

@[simp] theorem progress?_report (d : Drafts) (problem : Problem) (position : Position)
    (n : String) : (d.report problem position).progress? n = d.progress? n := rfl

end Drafts

def complete (home : String) (record : RecordDecl) (fields : List (String × Ty)) (d : Drafts) :
    Drafts :=
  { d with types := d.types.add (.ofFields home record.name ⟨record.shared, true⟩ fields) }.mark
    record.name .done

@[simp] theorem types_complete (home : String) (r : RecordDecl) (fields : List (String × Ty))
    (d : Drafts) : (complete home r fields d).types =
      d.types.add (.ofFields home r.name ⟨r.shared, true⟩ fields) := rfl

@[simp] theorem progress?_complete (home : String) (r : RecordDecl) (fields : List (String × Ty))
    (d : Drafts) (n : String) : (complete home r fields d).progress? n =
      if n = r.name then (d.progress? n).map fun _ => .done else d.progress? n :=
  Drafts.progress?_mark _ _ _ _

/-- The end of a layout, when all fields have been gathered. -/
def finish (home : String) (record : RecordDecl) (g : Gathered) : Bool × Drafts :=
  if g.good ∧ g.drafts.progress? record.name ≠ some .failed then
    (true, complete home record g.fields g.drafts)
  else (false, g.drafts.mark record.name .failed)

/-- One field of a record, after the record that is its type was laid out. -/
def enter (records : List RecordDecl) (lay : RecordDecl → Drafts → Bool × Drafts) (g : Gathered)
    (field : FieldDecl) : Gathered :=
  match records.find? fun r => r.name == field.ty.name with
  | none => gatherField g field
  | some inner =>
    match lay inner g.drafts with
    | (true, drafts) => gatherField { g with drafts } field
    | (false, drafts) => { g with good := false, drafts }

variable {home : String} {records : List RecordDecl}

theorem layOutWithin_pending {depth : Nat} {r : RecordDecl} {d : Drafts}
    (h : d.progress? r.name = some .pending) :
    layOutWithin home records (depth + 1) r d =
      finish home r (r.fields.foldl (enter records (layOutWithin home records depth))
        ⟨[], true, d.mark r.name .underway⟩) := by
  rw [layOutWithin, h]
  rfl

structure Reaches (records : List RecordDecl) (r : RecordDecl) (d : Drafts)
    (before : List FieldDecl) (f : FieldDecl) : Prop where
  mem : r ∈ records
  pending : d.progress? r.name = some .pending
  split : ∃ after, r.fields = before ++ f :: after

/-- The cases that a property of layouts, and a property of gathering the fields of a record whose
draft was `d`, must satisfy to hold of every call. -/
structure LayoutCases (home : String) (records : List RecordDecl)
    (P : RecordDecl → Drafts → Bool × Drafts → Prop)
    (Q : RecordDecl → Drafts → List FieldDecl → Gathered → Prop) : Prop where
  done : ∀ {r d}, d.progress? r.name = some .done → P r d (true, d)
  failed : ∀ {r d}, d.progress? r.name = some .failed → P r d (false, d)
  circular : ∀ {r d}, d.progress? r.name = some .underway →
    P r d (false, (d.report (.circularRecord r.name) r.position).mark r.name .failed)
  start : ∀ {r d}, r ∈ records → d.progress? r.name = some .pending →
    Q r d [] ⟨[], true, d.mark r.name .underway⟩
  plain : ∀ {r d before f g}, Reaches records r d before f → Q r d before g →
    (∀ s ∈ records, s.name ≠ f.ty.name) → Q r d (before ++ [f]) (gatherField g f)
  inner : ∀ {r d before f g s drafts}, Reaches records r d before f → Q r d before g →
    s ∈ records → s.name = f.ty.name → P s g.drafts (true, drafts) →
    Q r d (before ++ [f]) (gatherField { g with drafts } f)
  broken : ∀ {r d before f g s drafts}, Reaches records r d before f → Q r d before g →
    s ∈ records → s.name = f.ty.name → P s g.drafts (false, drafts) →
    Q r d (before ++ [f]) { g with good := false, drafts }
  finish : ∀ {r d g}, r ∈ records → d.progress? r.name = some .pending → Q r d r.fields g →
    P r d (finish home r g)

/-- No draft appears, disappears or waits again. -/
def Settles (d e : Drafts) : Prop :=
  ∀ n, (e.progress? n).isSome = (d.progress? n).isSome ∧
    (e.progress? n = some .pending → d.progress? n = some .pending)

namespace Settles

theorem refl (d : Drafts) : Settles d d := fun _ => ⟨rfl, id⟩

theorem trans {d e f : Drafts} (h : Settles d e) (g : Settles e f) : Settles d f :=
  fun n => ⟨(g n).1.trans (h n).1, fun hf => (h n).2 ((g n).2 hf)⟩

theorem mark {d e : Drafts} (h : Settles d e) (name : String) {p : Progress} (hp : p ≠ .pending) :
    Settles d (e.mark name p) := by
  intro n
  rw [Drafts.progress?_mark]
  split
  · refine ⟨by simpa using (h n).1, fun hm => ?_⟩
    simp [hp] at hm
  · exact h n

theorem gatherField {d : Drafts} {g : Gathered} (h : Settles d g.drafts) (f : FieldDecl) :
    Settles d (gatherField g f).drafts := by
  unfold Environment.gatherField
  split
  · exact h
  · split <;> exact h

end Settles

def Tracked (records : List RecordDecl) (d : Drafts) : Prop :=
  ∀ r ∈ records, (d.progress? r.name).isSome

theorem Tracked.settles {d e : Drafts} (h : Tracked records d) (settles : Settles d e) :
    Tracked records e :=
  fun r hr => (settles r.name).1.trans (h r hr)

/-- How many records wait for their layout. -/
def waiting (records : List RecordDecl) (d : Drafts) : Nat :=
  records.countP fun r => d.progress? r.name = some .pending

theorem waiting_le {d e : Drafts} (h : Settles d e) : waiting records e ≤ waiting records d := by
  refine List.countP_mono_left fun r _ he => ?_
  simpa using (h r.name).2 (by simpa using he)

theorem countP_lt {α : Type} {p q : α → Bool} {l : List α} (sub : ∀ x ∈ l, p x → q x) {x : α}
    (hx : x ∈ l) (hq : q x) (hp : ¬ p x) : l.countP p < l.countP q := by
  induction l with
  | nil => cases hx
  | cons y l ih =>
    have rest := fun z hz => sub z (List.mem_cons_of_mem y hz)
    have le := List.countP_mono_left rest
    have own := sub y (List.mem_cons_self ..)
    rw [List.countP_cons, List.countP_cons]
    rcases List.mem_cons.mp hx with rfl | hx
    · simp only [hq, hp, if_true, Bool.false_eq_true, if_false]
      omega
    · have lt := ih rest hx
      split_ifs <;> simp_all

theorem waiting_mark_lt {d : Drafts} {r : RecordDecl} (hr : r ∈ records)
    (hp : d.progress? r.name = some .pending) :
    waiting records (d.mark r.name .underway) < waiting records d := by
  have started : Settles d (d.mark r.name .underway) := (Settles.refl d).mark r.name (by decide)
  refine countP_lt (fun s _ hs => ?_) hr (by simp [hp]) (by simp)
  simpa using (started s.name).2 (by simpa using hs)

theorem Tracked.started {d e : Drafts} (h : Tracked records d) {r : RecordDecl} (hr : r ∈ records)
    (hp : d.progress? r.name = some .pending) (he : Settles (d.mark r.name .underway) e) :
    Tracked records e ∧ waiting records e < waiting records d := by
  have started : Settles d (d.mark r.name .underway) := (Settles.refl d).mark r.name (by decide)
  exact ⟨h.settles (started.trans he), (waiting_le he).trans_lt (waiting_mark_lt hr hp)⟩

section

variable {P : RecordDecl → Drafts → Bool × Drafts → Prop}
  {Q : RecordDecl → Drafts → List FieldDecl → Gathered → Prop}

theorem LayoutCases.gather (c : LayoutCases home records P Q) {r : RecordDecl} (hr : r ∈ records)
    {d start : Drafts} (pending : d.progress? r.name = some .pending)
    {lay : RecordDecl → Drafts → Bool × Drafts}
    (hlay : ∀ s ∈ records, ∀ e, Settles start e → P s e (lay s e) ∧ Settles e (lay s e).2)
    {before after : List FieldDecl} (split : r.fields = before ++ after) {g : Gathered}
    (hq : Q r d before g) (hs : Settles start g.drafts) :
    Q r d r.fields (after.foldl (enter records lay) g) ∧
      Settles start (after.foldl (enter records lay) g).drafts := by
  induction after generalizing before g with
  | nil =>
    rw [List.append_nil] at split
    exact ⟨split ▸ hq, hs⟩
  | cons f after ih =>
    rw [List.foldl_cons]
    suffices next : Q r d (before ++ [f]) (enter records lay g f) ∧
        Settles start (enter records lay g f).drafts from
      ih (by simp [split]) next.1 next.2
    have reaches : Reaches records r d before f := ⟨hr, pending, after, split⟩
    unfold enter
    split
    · next hn =>
      refine ⟨c.plain reaches hq fun s hm => ?_, hs.gatherField f⟩
      simpa using List.find?_eq_none.mp hn s hm
    · next s hf =>
      have hm := List.mem_of_find?_eq_some hf
      have named : s.name = f.ty.name := by simpa using List.find?_some hf
      obtain ⟨hp, hl⟩ := hlay s hm g.drafts hs
      split
      · next drafts laid =>
        rw [laid] at hp hl
        exact ⟨c.inner reaches hq hm named hp,
          (show Settles start { g with drafts }.drafts from hs.trans hl).gatherField f⟩
      · next drafts laid =>
        rw [laid] at hp hl
        exact ⟨c.broken reaches hq hm named hp, hs.trans hl⟩

/-- Each level of nesting starts a record that was waiting, so with more levels than waiting records
no call is cut short. -/
theorem LayoutCases.layOutWithin (c : LayoutCases home records P Q) {depth : Nat}
    {r : RecordDecl} (hr : r ∈ records) {d : Drafts}
    (tracked : Tracked records d)
    (enough : waiting records d < depth) :
    P r d (layOutWithin home records depth r d) ∧
      Settles d (layOutWithin home records depth r d).2 := by
  induction depth generalizing r d with
  | zero => cases enough
  | succ depth ih =>
    obtain ⟨p, hp⟩ := Option.isSome_iff_exists.mp (tracked r hr)
    cases p with
    | done =>
      rw [Environment.layOutWithin, hp]
      exact ⟨c.done hp, .refl d⟩
    | failed =>
      rw [Environment.layOutWithin, hp]
      exact ⟨c.failed hp, .refl d⟩
    | underway =>
      rw [Environment.layOutWithin, hp]
      exact ⟨c.circular hp, (Settles.refl d).mark r.name (by decide)⟩
    | pending =>
      rw [layOutWithin_pending hp]
      have started : Settles d (d.mark r.name .underway) :=
        (Settles.refl d).mark r.name (by decide)
      have lays : ∀ s ∈ records, ∀ e, Settles (d.mark r.name .underway) e →
          P s e (Environment.layOutWithin home records depth s e) ∧
            Settles e (Environment.layOutWithin home records depth s e).2 := by
        intro s hm e he
        obtain ⟨later, fewer⟩ := tracked.started hr hp he
        exact ih hm later (fewer.trans_le (Nat.le_of_lt_succ enough))
      obtain ⟨hq, hs⟩ := c.gather hr hp lays rfl (c.start hr hp) (.refl _)
      refine ⟨c.finish hr hp hq, ?_⟩
      unfold Environment.finish
      split
      · exact (started.trans hs).mark r.name (by decide)
      · exact (started.trans hs).mark r.name (by decide)

end

/-- The change of a draft in a call: a draft that is done or failed stays so, one that is underway
can fail, and one that waits is not left underway. -/
def Leads : Option Progress → Option Progress → Prop
  | none, q => q = none
  | some .pending, q => q.isSome ∧ q ≠ some .underway
  | some .underway, q => q = some .underway ∨ q = some .failed
  | some .done, q => q = some .done
  | some .failed, q => q = some .failed

theorem Leads.refl (p : Option Progress) : Leads p p := by
  rcases p with _ | _ | _ | _ | _ <;> simp [Leads]

theorem Leads.trans {p q r : Option Progress} (h : Leads p q) (g : Leads q r) : Leads p r := by
  rcases p with _ | _ | _ | _ | _ <;> rcases q with _ | _ | _ | _ | _ <;> simp_all [Leads]

def Evolves (d e : Drafts) : Prop := ∀ n, Leads (d.progress? n) (e.progress? n)

namespace Evolves

variable {d e : Drafts}

theorem refl (d : Drafts) : Evolves d d := fun _ => .refl _

theorem trans {f : Drafts} (h : Evolves d e) (g : Evolves e f) : Evolves d f :=
  fun n => (h n).trans (g n)

theorem done (h : Evolves d e) {n : String} (hd : d.progress? n = some .done) :
    e.progress? n = some .done := by
  have := h n
  rwa [hd] at this

theorem failed (h : Evolves d e) {n : String} (hd : d.progress? n = some .failed) :
    e.progress? n = some .failed := by
  have := h n
  rwa [hd] at this

theorem underway (h : Evolves d e) {n : String} (he : e.progress? n = some .underway) :
    d.progress? n = some .underway := by
  have := h n
  rw [he] at this
  rcases hd : d.progress? n with _ | _ | _ | _ | _ <;> simp_all [Leads]

theorem pending (h : Evolves d e) {n : String} (he : e.progress? n = some .pending) :
    d.progress? n = some .pending := by
  have := h n
  rw [he] at this
  rcases hd : d.progress? n with _ | _ | _ | _ | _ <;> simp_all [Leads]

end Evolves

@[simp] theorem progress?_gatherField (g : Gathered) (f : FieldDecl) (n : String) :
    (gatherField g f).drafts.progress? n = g.drafts.progress? n := by
  unfold gatherField
  split
  · rfl
  · split <;> rfl

@[simp] theorem types_gatherField (g : Gathered) (f : FieldDecl) :
    (gatherField g f).drafts.types = g.drafts.types := by
  unfold gatherField
  split
  · rfl
  · split <;> rfl

def Ends (r : RecordDecl) (d : Drafts) (res : Bool × Drafts) : Prop :=
  Evolves d res.2 ∧ res.2.progress? r.name = some (if res.1 then .done else .failed)

def Lasts (r : RecordDecl) (d : Drafts) (_ : List FieldDecl) (g : Gathered) : Prop :=
  Evolves (d.mark r.name .underway) g.drafts

theorem Lasts.ne_done {r : RecordDecl} {d : Drafts} {before : List FieldDecl} {g : Gathered}
    (h : Lasts r d before g) (hp : d.progress? r.name = some .pending) :
    g.drafts.progress? r.name = some .underway ∨ g.drafts.progress? r.name = some .failed := by
  have := h r.name
  simpa [hp, Leads] using this

theorem Lasts.done {r : RecordDecl} {d : Drafts} {before : List FieldDecl} {g : Gathered}
    (h : Lasts r d before g) (hp : d.progress? r.name = some .pending) {n : String}
    (hd : d.progress? n = some .done) : g.drafts.progress? n = some .done := by
  have other : n ≠ r.name := by
    rintro rfl
    rw [hp] at hd
    cases hd
  exact Evolves.done h (by simpa [other] using hd)

theorem Lasts.pending {r : RecordDecl} {d : Drafts} {before : List FieldDecl} {g : Gathered}
    (h : Lasts r d before g) {n : String} (hg : g.drafts.progress? n = some .pending) :
    d.progress? n = some .pending := by
  have waited := Evolves.pending h hg
  rw [Drafts.progress?_mark] at waited
  split at waited
  · simp at waited
  · exact waited

/-- Every call finishes its record, and changes the others as `Leads` allows. -/
theorem evolution (home : String) (records : List RecordDecl) :
    LayoutCases home records Ends Lasts where
  done hp := ⟨.refl _, hp⟩
  failed hp := ⟨.refl _, hp⟩
  circular {r d} hp := by
    refine ⟨fun n => ?_, by simp [hp]⟩
    by_cases hn : n = r.name
    · simp [hn, hp, Leads]
    · simpa [hn] using Leads.refl _
  start _ _ := .refl _
  plain _ hq _ := fun n => by simpa using hq n
  inner _ hq _ _ hp := fun n => by simpa using (hq n).trans (hp.1 n)
  broken _ hq _ _ hp := hq.trans hp.1
  finish {r d g} _ hp hq := by
    have own := hq.ne_done hp
    have others : ∀ n ≠ r.name, Leads (d.progress? n) (g.drafts.progress? n) := by
      intro n hn
      simpa [hn] using hq n
    have marked (e : Drafts) (he : e.progress = g.drafts.progress) (p : Progress)
        (hu : p ≠ .underway) : Evolves d (e.mark r.name p) ∧
          (e.mark r.name p).progress? r.name = some p := by
      have same : ∀ n, e.progress? n = g.drafts.progress? n := by simp [Drafts.progress?, he]
      refine ⟨fun n => ?_, ?_⟩
      · by_cases hn : n = r.name
        · rcases own with own | own <;> simp [hn, hp, same, own, Leads, hu]
        · simpa [hn, same] using others n hn
      · rcases own with own | own <;> simp [same, own]
    unfold Environment.finish
    split
    · exact marked _ rfl .done (by decide)
    · exact marked _ rfl .failed (by decide)

@[elab_as_elim]
theorem writtenInduction {M : TypeRef → Prop}
    (h : ∀ name args position, (∀ a ∈ args, M a) → M ⟨name, args, position⟩) :
    ∀ written, M written
  | ⟨name, args, position⟩ => h name args position fun a _ => writtenInduction h a

theorem resolveAll_ok_iff {types : TypeScope} {args : List TypeRef} {ts : List Ty} :
    types.resolveAll args = .ok ts ↔
      List.Forall₂ (fun a t => types.resolve a = .ok t) args ts := by
  induction args generalizing ts with
  | nil =>
    simp only [TypeScope.resolveAll, List.forall₂_nil_left_iff]
    exact ⟨fun h => by cases h; rfl, fun h => by rw [h]⟩
  | cons a rest ih =>
    simp only [TypeScope.resolveAll, List.forall₂_cons_left_iff, ← ih]
    cases ha : types.resolve a with
    | error i => simp
    | ok t =>
      cases hr : types.resolveAll rest with
      | error i => simp [Except.map]
      | ok us => simp [Except.map, eq_comm]

theorem exists_of_forall₂ {α β : Type} {R : α → β → Prop} {as : List α} {bs : List β}
    (h : List.Forall₂ R as bs) {a : α} (ha : a ∈ as) : ∃ b, R a b := by
  induction h with
  | nil => cases ha
  | cons hab _ ih =>
    rcases List.mem_cons.mp ha with rfl | ha
    · exact ⟨_, hab⟩
    · exact ih ha

theorem resolveAll_error {types : TypeScope} {args : List TypeRef} {i : Issue}
    (h : types.resolveAll args = .error i) : ∃ a ∈ args, types.resolve a = .error i := by
  induction args with
  | nil => cases h
  | cons a rest ih =>
    simp only [TypeScope.resolveAll] at h
    cases ha : types.resolve a with
    | error j =>
      rw [ha] at h
      cases h
      exact ⟨a, List.mem_cons_self .., ha⟩
    | ok t =>
      cases hr : types.resolveAll rest with
      | error j =>
        simp only [ha, hr, Except.map] at h
        cases h
        obtain ⟨b, hb, he⟩ := ih hr
        exact ⟨b, List.mem_cons_of_mem _ hb, he⟩
      | ok ts =>
        simp only [ha, hr, Except.map] at h
        cases h

theorem severity_resolve {types : TypeScope} {written : TypeRef} {i : Issue}
    (h : types.resolve written = .error i) : i.severity = .error := by
  induction written using writtenInduction with
  | h name args position ih =>
    simp only [TypeScope.resolve] at h
    split at h
    · cases h
      rfl
    · split at h
      · cases h
        rfl
      · cases ha : types.resolveAll args with
        | error j =>
          rw [ha] at h
          cases h
          obtain ⟨a, mem, error⟩ := resolveAll_error ha
          exact ih a mem error
        | ok ts =>
          rw [ha] at h
          cases h

def Faulty (d : Drafts) : Prop := Issue.anyAtLeast .error d.issues = true

theorem faulty_of_mem {d : Drafts} {i : Issue} (hi : i ∈ d.issues) (he : i.severity = .error) :
    Faulty d := by
  rw [Faulty, Issue.anyAtLeast, List.any_eq_true]
  exact ⟨i, hi, by simp [he]⟩

theorem faulty_report {d : Drafts} {problem : Problem} (position : Position)
    (h : problem.kind.severity = .error) : Faulty (d.report problem position) :=
  faulty_of_mem (List.mem_append_right _ (List.mem_singleton_self _)) h

/-- No record fails without an error. -/
def Reported (d : Drafts) : Prop := ∀ n, d.progress? n = some .failed → Faulty d

theorem Reported.mark {d : Drafts} (h : Reported d) (name : String) {p : Progress}
    (hp : p ≠ .failed) : Reported (d.mark name p) := by
  intro n hn
  rw [Drafts.progress?_mark] at hn
  split at hn
  · simp [hp] at hn
  · exact h n hn

/-- A call reports an error exactly if it finds no layout. -/
def Tells (_ : RecordDecl) (d : Drafts) (res : Bool × Drafts) : Prop :=
  Reported d → Reported res.2 ∧ if res.1 then res.2.issues = d.issues else Faulty res.2

def TellsSoFar (_ : RecordDecl) (d : Drafts) (_ : List FieldDecl) (g : Gathered) : Prop :=
  Reported d → Reported g.drafts ∧ if g.good then g.drafts.issues = d.issues else Faulty g.drafts

theorem TellsSoFar.gatherField {r : RecordDecl} {d : Drafts} {before : List FieldDecl}
    {g : Gathered} (h : TellsSoFar r d before g) (f : FieldDecl) (after : List FieldDecl) :
    TellsSoFar r d after (gatherField g f) := by
  intro hd
  obtain ⟨hr, hg⟩ := h hd
  have failing (e : Drafts) (he : Faulty e) : Reported e := fun _ _ => he
  unfold Environment.gatherField
  split
  · have twice : Faulty (g.drafts.report (.duplicateField f.name) f.position) :=
      faulty_report _ rfl
    exact ⟨failing _ twice, twice⟩
  · split
    · exact ⟨hr, hg⟩
    · next i hi =>
      have unknown : Faulty { g.drafts with issues := g.drafts.issues ++ [i] } :=
        faulty_of_mem (List.mem_append_right _ (List.mem_singleton_self i)) (severity_resolve hi)
      exact ⟨failing _ unknown, unknown⟩

theorem reports (home : String) (records : List RecordDecl) :
    LayoutCases home records Tells TellsSoFar where
  done _ := fun hd => ⟨hd, rfl⟩
  failed {r d} hp := fun hd => ⟨hd, hd r.name hp⟩
  circular {r d} _ := fun _ => by
    have circle : Faulty (d.report (.circularRecord r.name) r.position) := faulty_report _ rfl
    exact ⟨fun _ _ => circle, circle⟩
  start _ _ := fun hd => ⟨hd.mark _ (by decide), rfl⟩
  plain _ hq _ := hq.gatherField _ _
  inner {r d before f g s drafts} _ hq _ _ hp := by
    have : TellsSoFar r d before { g with drafts } := fun hd => by
      obtain ⟨hr, hg⟩ := hq hd
      obtain ⟨hr', he⟩ := hp hr
      refine ⟨hr', ?_⟩
      dsimp only at he ⊢
      rw [if_pos rfl] at he
      split
      · next good => simpa [good, he] using hg
      · next bad => simpa [bad, Faulty, he] using hg
    exact this.gatherField f _
  broken _ hq _ _ hp := fun hd => by
    obtain ⟨hr, he⟩ := hp (hq hd).1
    exact ⟨hr, by simpa using he⟩
  finish {r d g} _ _ hq := fun hd => by
    obtain ⟨hr, hg⟩ := hq hd
    unfold Environment.finish
    split
    · next h =>
      rw [if_pos h.1] at hg
      exact ⟨Reported.mark (d := { g.drafts with types := _ }) hr r.name (by decide), hg⟩
    · next h =>
      -- without a bad field the record itself was marked, on the way back to it
      have faulty : Faulty g.drafts := by
        by_cases good : g.good
        · exact hr r.name (by simpa [good] using h)
        · simpa [good] using hg
      exact ⟨fun _ _ => faulty, faulty⟩

/-- A written type can be resolved in the end: its name is imported and its arguments can be
resolved, or it is a record whose fields have distinct names and types that can be resolved. -/
inductive Denotes (scope : TypeScope) (records : List RecordDecl) : TypeRef → Prop
  | imported {name : String} {args : List TypeRef} {position : Position} {d : Definition}
      (found : scope.find? name = some d) (arity : d.generics.length = args.length)
      (inside : ∀ a ∈ args, Denotes scope records a) : Denotes scope records ⟨name, args, position⟩
  | record {r : RecordDecl} {position : Position} (mem : r ∈ records)
      (names : (r.fields.map FieldDecl.name).Nodup)
      (fields : ∀ f ∈ r.fields, Denotes scope records f.ty) :
      Denotes scope records ⟨r.name, [], position⟩

structure Layable (scope : TypeScope) (records : List RecordDecl) (r : RecordDecl) : Prop where
  names : (r.fields.map FieldDecl.name).Nodup
  fields : ∀ f ∈ r.fields, Denotes scope records f.ty

def Fits (types : TypeScope) : List FieldDecl → List (String × Ty) → Prop :=
  List.Forall₂ fun f x => x.1 = f.name ∧ types.resolve f.ty = .ok x.2

/-- The state of the drafts: beside the imported types exactly the records that are done are
visible, each with its written fields. -/
structure Drafted (home : String) (scope : TypeScope) (records : List RecordDecl) (d : Drafts) :
    Prop where
  imported : ∀ {n e}, scope.find? n = some e → d.types.find? n = some e
  visible : ∀ {n e}, d.types.find? n = some e → scope.find? n = some e ∨
    ∃ r ∈ records, r.name = n ∧ d.progress? n = some .done
  laid : ∀ r ∈ records, d.progress? r.name = some .done → Layable scope records r ∧
    ∃ fields, d.types.find? r.name =
      some (Definition.ofFields home r.name ⟨r.shared, true⟩ fields) ∧ Fits d.types r.fields fields

variable {scope : TypeScope}

/-- A written type that resolves now can be resolved in the end. -/
theorem Drafted.denotes {d : Drafts} (h : Drafted home scope records d) {written : TypeRef}
    {t : Ty} (hr : d.types.resolve written = .ok t) : Denotes scope records written := by
  induction written using writtenInduction generalizing t with
  | h name args position ih =>
    obtain ⟨found, arity, resolved⟩ := TypeScope.resolve_ok hr
    rcases h.visible found with imported | ⟨r, mem, named, done⟩
    · refine .imported imported arity fun a ha => ?_
      obtain ⟨t, ht⟩ := exists_of_forall₂ (resolveAll_ok_iff.mp resolved) ha
      exact ih a ha ht
    · dsimp only at named found arity
      subst named
      obtain ⟨layable, fields, shown, -⟩ := h.laid r mem done
      have definition : _ = t.definition := Option.some.inj (shown.symm.trans found)
      rw [← definition] at arity
      have none : args = [] := List.length_eq_zero_iff.mp arity.symm
      subst none
      exact .record mem layable.names layable.fields

/-- Records have distinct names, and no imported type has one of them. -/
structure Fresh (scope : TypeScope) (records : List RecordDecl) : Prop where
  free : ∀ r ∈ records, scope.find? r.name = none
  unique : ∀ r ∈ records, ∀ s ∈ records, r.name = s.name → r = s

theorem Drafted.congr {d e : Drafts} (h : Drafted home scope records d) (types : e.types = d.types)
    (done : ∀ n, e.progress? n = some .done ↔ d.progress? n = some .done) :
    Drafted home scope records e where
  imported hn := types ▸ h.imported hn
  visible hn := by simpa only [done] using h.visible (types ▸ hn)
  laid r hr hd := types ▸ h.laid r hr ((done r.name).mp hd)

theorem Drafted.mark {d : Drafts} (h : Drafted home scope records d) {name : String} {p : Progress}
    (hp : p ≠ .done) (hd : d.progress? name ≠ some .done) :
    Drafted home scope records (d.mark name p) := by
  refine h.congr rfl fun n => ?_
  rw [Drafts.progress?_mark]
  split
  · next hn =>
    subst hn
    simp [hp, hd]
  · rfl

/-- A field is accepted if its name is new and its type resolves. -/
theorem gatherField_good {g : Gathered} {f : FieldDecl} (h : (gatherField g f).good = true) :
    g.good = true ∧ f.name ∉ g.fields.map Prod.fst ∧ ∃ t, g.drafts.types.resolve f.ty = .ok t ∧
      (gatherField g f).fields = g.fields ++ [(f.name, t)] := by
  unfold gatherField at h ⊢
  split at h
  · cases h
  · next new =>
    rw [if_neg new]
    split at h
    · next t ht =>
      rw [ht]
      exact ⟨h, by simpa using new, t, rfl, rfl⟩
    · cases h

theorem good_gatherField {g : Gathered} {f : FieldDecl} {t : Ty} (good : g.good = true)
    (new : f.name ∉ g.fields.map Prod.fst) (ht : g.drafts.types.resolve f.ty = .ok t) :
    (gatherField g f).good = true := by
  rw [gatherField]
  split
  case isTrue twice => exact absurd (by simpa using twice) new
  case isFalse =>
    rw [ht]
    exact good

theorem Fits.names {types : TypeScope} {fields : List FieldDecl} {found : List (String × Ty)}
    (h : Fits types fields found) : found.map Prod.fst = fields.map FieldDecl.name := by
  induction h with
  | nil => rfl
  | cons hx _ ih => simp [hx.1, ih]

abbrev Joins (home : String) (records : List RecordDecl) (s t : TypeScope) : Prop :=
  TypeScope.Grows .empty home records s t

theorem Fits.grows {types more : TypeScope} {fields : List FieldDecl} {found : List (String × Ty)}
    (h : Fits types fields found) (g : Joins home records types more) : Fits more fields found :=
  h.imp fun _ _ hx => ⟨hx.1, g.resolve hx.2⟩

theorem find?_add_self {s : TypeScope} {d : Definition} (h : s.find? d.name = none) :
    (s.add d).find? d.name = some d := by
  rw [TypeScope.find?_add_eq, h, if_pos rfl, Option.none_or]

theorem find?_add_of_ne {s : TypeScope} {d : Definition} {n : String} (h : n ≠ d.name) :
    (s.add d).find? n = s.find? n := by
  rw [TypeScope.find?_add_eq, if_neg (Ne.symm h), Option.or_none]

theorem joins_complete {d : Drafts} {r : RecordDecl} (hr : r ∈ records)
    {fields : List (String × Ty)} (fits : Fits d.types r.fields fields) :
    Joins home records d.types (complete home r fields d).types := by
  refine .record .refl hr fun x hx => ?_
  obtain ⟨f, hf⟩ := exists_of_forall₂ fits.flip hx
  exact ⟨f.ty, hf.2⟩

theorem Drafted.complete {d : Drafts} (h : Drafted home scope records d)
    (fresh : Fresh scope records) {r : RecordDecl} (hr : r ∈ records)
    (tracked : (d.progress? r.name).isSome) (hd : d.progress? r.name ≠ some .done)
    (names : (r.fields.map FieldDecl.name).Nodup) {fields : List (String × Ty)}
    (fits : Fits d.types r.fields fields) :
    Drafted home scope records (complete home r fields d) := by
  have new : d.types.find? r.name = none := by
    rw [Option.eq_none_iff_forall_not_mem]
    intro e he
    rcases h.visible he with imported | ⟨-, -, -, done⟩
    · simp [fresh.free r hr] at imported
    · exact hd done
  have own := find?_add_self (d := .ofFields home r.name ⟨r.shared, true⟩ fields) new
  have grown : Joins home records d.types _ := joins_complete hr fits
  obtain ⟨p, hp⟩ := Option.isSome_iff_exists.mp tracked
  refine ⟨fun hn => ?_, fun {n e} hn => ?_, fun s hs done => ?_⟩
  · exact TypeScope.find?_add (h.imported hn) _
  · by_cases same : n = r.name
    · exact .inr ⟨r, hr, same.symm, by simp [same, hp]⟩
    · rw [types_complete, find?_add_of_ne same] at hn
      simpa [same] using h.visible hn
  · by_cases same : s = r
    · subst same
      refine ⟨⟨names, fun f hf => ?_⟩, fields, own, fits.grows grown⟩
      obtain ⟨x, hx⟩ := exists_of_forall₂ fits hf
      exact h.denotes hx.2
    · have other : s.name ≠ r.name := fun hn => same (fresh.unique s hs r hr hn)
      rw [progress?_complete, if_neg other] at done
      obtain ⟨layable, fields', shown, fits'⟩ := h.laid s hs done
      exact ⟨layable, fields', grown.find? shown, fits'.grows grown⟩

def Keeps (home : String) (scope : TypeScope) (records : List RecordDecl) (r : RecordDecl)
    (d : Drafts) (res : Bool × Drafts) : Prop :=
  Ends r d res ∧ (Drafted home scope records d →
    Drafted home scope records res.2 ∧ Joins home records d.types res.2.types)

/-- As long as every field was accepted, those gathered are the first fields of the record. -/
def KeepsSoFar (home : String) (scope : TypeScope) (records : List RecordDecl) (r : RecordDecl)
    (d : Drafts) (before : List FieldDecl) (g : Gathered) : Prop :=
  Lasts r d before g ∧ (Drafted home scope records d →
    Drafted home scope records g.drafts ∧ Joins home records d.types g.drafts.types ∧
    (g.good = true → (before.map FieldDecl.name).Nodup ∧ Fits g.drafts.types before g.fields))

theorem Fits.gatherField {g : Gathered} {f : FieldDecl} {before : List FieldDecl}
    (h : g.good = true → (before.map FieldDecl.name).Nodup ∧ Fits g.drafts.types before g.fields)
    (good : (gatherField g f).good = true) :
    ((before ++ [f]).map FieldDecl.name).Nodup ∧
      Fits (gatherField g f).drafts.types (before ++ [f]) (gatherField g f).fields := by
  obtain ⟨good', new, t, ht, fields⟩ := gatherField_good good
  obtain ⟨names, fits⟩ := h good'
  rw [types_gatherField, fields]
  rw [fits.names] at new
  refine ⟨?_, List.rel_append fits (.cons ⟨rfl, ht⟩ .nil)⟩
  rw [List.map_append, List.nodup_append]
  refine ⟨names, by simp, fun a ha b hb hab => new ?_⟩
  rw [List.map_singleton, List.mem_singleton] at hb
  exact hb ▸ hab ▸ ha

theorem soundness (fresh : Fresh scope records) :
    LayoutCases home records (Keeps home scope records) (KeepsSoFar home scope records) where
  done hp := ⟨(evolution home records).done hp, fun h => ⟨h, .refl⟩⟩
  failed hp := ⟨(evolution home records).failed hp, fun h => ⟨h, .refl⟩⟩
  circular {r d} hp := by
    refine ⟨(evolution home records).circular hp, fun h => ⟨?_, .refl⟩⟩
    exact (show Drafted home scope records (d.report _ _) from ⟨h.imported, h.visible, h.laid⟩).mark
      (by decide) (by simp [hp])
  start {r d} hr hp := by
    refine ⟨(evolution home records).start hr hp, fun h => ⟨?_, .refl, fun _ => ⟨by simp, .nil⟩⟩⟩
    exact h.mark (by decide) (by simp [hp])
  plain {r d before f g} reaches hq hn := by
    refine ⟨(evolution home records).plain reaches hq.1 hn, fun h => ?_⟩
    obtain ⟨drafted, joins, fits⟩ := hq.2 h
    exact ⟨drafted.congr (types_gatherField g f) (by simp), by simpa using joins,
      Fits.gatherField fits⟩
  inner {r d before f g s drafts} reaches hq hm named hp := by
    refine ⟨(evolution home records).inner reaches hq.1 hm named hp.1, fun h => ?_⟩
    obtain ⟨drafted, joins, fits⟩ := hq.2 h
    obtain ⟨drafted', joins'⟩ := hp.2 drafted
    refine ⟨drafted'.congr (types_gatherField _ f) (by simp),
      by simpa using joins.trans joins', Fits.gatherField fun good => ?_⟩
    exact ⟨(fits good).1, (fits good).2.grows joins'⟩
  broken {r d before f g s drafts} reaches hq hm named hp := by
    refine ⟨(evolution home records).broken reaches hq.1 hm named hp.1, fun h => ?_⟩
    obtain ⟨drafted, joins, fits⟩ := hq.2 h
    obtain ⟨drafted', joins'⟩ := hp.2 drafted
    exact ⟨drafted', joins.trans joins', fun good => nomatch good⟩
  finish {r d g} hr hp hq := by
    refine ⟨(evolution home records).finish hr hp hq.1, fun h => ?_⟩
    obtain ⟨drafted, joins, fits⟩ := hq.2 h
    have own := hq.1.ne_done hp
    unfold Environment.finish
    split
    · next ok =>
      obtain ⟨names, fits⟩ := fits ok.1
      refine ⟨drafted.complete fresh hr ?_ ?_ names fits, joins.trans (joins_complete hr fits)⟩
      · rcases own with own | own <;> simp [own]
      · rcases own with own | own <;> simp [own]
    · refine ⟨drafted.mark (by decide) ?_, joins⟩
      rcases own with own | own <;> simp [own]

def layOutAll (home : String) (records order : List RecordDecl) (d : Drafts) : Drafts :=
  order.foldl (fun drafts record =>
    if drafts.progress? record.name = some .pending then layOut home records record drafts
    else drafts) d

/-- No call of the whole layout is cut short. -/
theorem LayoutCases.layOut {P : RecordDecl → Drafts → Bool × Drafts → Prop}
    {Q : RecordDecl → Drafts → List FieldDecl → Gathered → Prop}
    (c : LayoutCases home records P Q) {r : RecordDecl} (hr : r ∈ records) {d : Drafts}
    (tracked : Tracked records d) :
    P r d (Environment.layOutWithin home records (records.length + 1) r d) :=
  (c.layOutWithin hr tracked (Nat.lt_succ_of_le List.countP_le_length)).1

theorem tracked_layOut (home : String) {r : RecordDecl} (hr : r ∈ records) {d : Drafts}
    (tracked : Tracked records d) : Tracked records (layOut home records r d) := by
  have settles := ((evolution home records).layOutWithin hr tracked
    (Nat.lt_succ_of_le List.countP_le_length)).2
  exact tracked.settles settles

/-- A property that every layout preserves holds at the end. -/
theorem layOutAll_induction (home : String) {J : Drafts → Prop} {order : List RecordDecl}
    (sub : order ⊆ records)
    (step : ∀ r ∈ records, ∀ d, Tracked records d → d.progress? r.name = some .pending → J d →
      J (layOut home records r d))
    {d : Drafts} (tracked : Tracked records d) (h : J d) :
    J (layOutAll home records order d) ∧ Tracked records (layOutAll home records order d) := by
  induction order generalizing d with
  | nil => exact ⟨h, tracked⟩
  | cons r rest ih =>
    rw [List.cons_subset] at sub
    rw [layOutAll, List.foldl_cons]
    split
    · next hp => exact ih sub.2 (tracked_layOut home sub.1 tracked) (step r sub.1 d tracked hp h)
    · exact ih sub.2 tracked h

theorem tracked_layOutAll (home : String) {order : List RecordDecl} (sub : order ⊆ records)
    {d : Drafts} (tracked : Tracked records d) : Tracked records (layOutAll home records order d) :=
  (layOutAll_induction home (J := fun _ => True) sub (fun _ _ _ _ _ _ => trivial) tracked trivial).2

theorem layOutAll_concat (home : String) (front : List RecordDecl) (r : RecordDecl) (d : Drafts) :
    layOutAll home records (front ++ [r]) d =
      if (layOutAll home records front d).progress? r.name = some .pending then
        layOut home records r (layOutAll home records front d)
      else layOutAll home records front d := by
  rw [layOutAll, List.foldl_append]
  rfl

theorem evolves_layOutAll (home : String) {order : List RecordDecl} (sub : order ⊆ records)
    {d : Drafts} (tracked : Tracked records d) : Evolves d (layOutAll home records order d) :=
  (layOutAll_induction home sub
    (fun _ hr _ he _ h => h.trans ((evolution home records).layOut hr he).1) tracked (.refl d)).1

/-- In the end every record of the list is done or has failed. -/
theorem layOutAll_settled {order : List RecordDecl} (sub : order ⊆ records) {d : Drafts}
    (tracked : Tracked records d) (idle : ∀ n, d.progress? n ≠ some .underway) {r : RecordDecl}
    (hr : r ∈ order) :
    (layOutAll home records order d).progress? r.name = some .done ∨
      (layOutAll home records order d).progress? r.name = some .failed := by
  induction order generalizing d with
  | nil => cases hr
  | cons s rest ih =>
    rw [List.cons_subset] at sub
    rw [layOutAll, List.foldl_cons]
    split
    · next hp =>
      have ends := (evolution home records).layOut sub.1 tracked
      have later := tracked_layOut home sub.1 tracked
      rcases List.mem_cons.mp hr with rfl | hr
      · have stays := evolves_layOutAll home sub.2 later
        have own := ends.2
        split at own
        · exact .inl (stays.done own)
        · exact .inr (stays.failed own)
      · exact ih sub.2 later (fun n hn => idle n (ends.1.underway hn)) hr
    · next hp =>
      rcases List.mem_cons.mp hr with rfl | hr
      · have stays := evolves_layOutAll home sub.2 tracked
        obtain ⟨p, own⟩ := Option.isSome_iff_exists.mp (tracked r sub.1)
        cases p with
        | pending => exact absurd own hp
        | underway => exact absurd own (idle _)
        | done => exact .inl (stays.done own)
        | failed => exact .inr (stays.failed own)
      · exact ih sub.2 tracked idle hr

theorem drafted_layOutAll (fresh : Fresh scope records) {order : List RecordDecl}
    (sub : order ⊆ records) {d : Drafts} (tracked : Tracked records d)
    (h : Drafted home scope records d) :
    Drafted home scope records (layOutAll home records order d) :=
  (layOutAll_induction home sub (fun _ hr _ he _ h => (((soundness fresh).layOut hr he).2 h).1)
    tracked h).1

/-- There are errors at the end exactly if there were some before, or a record has failed. -/
theorem faulty_layOutAll_iff {order : List RecordDecl} (sub : order ⊆ records) {d : Drafts}
    (tracked : Tracked records d) (reported : Reported d) :
    Faulty (layOutAll home records order d) ↔ Faulty d ∨ ∃ r ∈ records,
      (layOutAll home records order d).progress? r.name = some .failed := by
  have run := layOutAll_induction home (J := fun e => Reported e ∧ (Faulty d → Faulty e) ∧
      (Faulty e → Faulty d ∨ ∃ r ∈ records, e.progress? r.name = some .failed))
    sub ?_ tracked ⟨reported, id, .inl⟩
  · obtain ⟨⟨reported', up, down⟩, -⟩ := run
    refine ⟨down, ?_⟩
    rintro (h | ⟨r, -, hr⟩)
    · exact up h
    · exact reported' r.name hr
  · rintro r hr e he - ⟨rep, up, down⟩
    obtain ⟨rep', told⟩ := (reports home records).layOut hr he rep
    obtain ⟨evolves, own⟩ := (evolution home records).layOut hr he
    refine ⟨rep', ?_⟩
    split at told
    · have same : Faulty (layOut home records r e) ↔ Faulty e := by
        unfold Faulty layOut
        rw [told]
      rw [same]
      refine ⟨up, fun faulty => (down faulty).imp_right ?_⟩
      rintro ⟨s, hs, failed⟩
      exact ⟨s, hs, evolves.failed failed⟩
    · next bad =>
      rw [if_neg bad] at own
      exact ⟨fun _ => told, fun _ => .inr ⟨r, hr, own⟩⟩

end Environment

end Bytescript
