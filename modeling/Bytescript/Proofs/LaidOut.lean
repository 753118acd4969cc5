import Mathlib
import Bytescript.Proofs.Layout

/-!
# Records that can be laid out

A record can be laid out if its fields have distinct names and types that can be resolved. It is
then laid out in every order of the declarations, as long as the records in the type arguments of
its fields are done when they are reached.
-/
namespace Bytescript.Environment

variable {home : String} {scope : TypeScope} {records : List RecordDecl}

/-- A name occurs in a written type. -/
inductive Mentions : TypeRef → String → Prop
  | head {written : TypeRef} : Mentions written written.name
  | inside {written a : TypeRef} {n : String} (ha : a ∈ written.args) (h : Mentions a n) :
      Mentions written n

/-- A field of one record is another record. -/
def Contains (records : List RecordDecl) (r s : RecordDecl) : Prop :=
  s ∈ records ∧ ∃ f ∈ r.fields, s.name = f.ty.name

def Leading (records : List RecordDecl) (fields : List FieldDecl) (s : RecordDecl) : Prop :=
  ∃ f ∈ fields, ∃ t ∈ records, t.name = f.ty.name ∧
    Relation.ReflTransGen (Contains records) t s

/-- Every record named in the type arguments of a field is, or is inside, an earlier field. -/
def Covered (scope : TypeScope) (records : List RecordDecl) : Prop :=
  ∀ r ∈ records, Layable scope records r → ∀ before f after, r.fields = before ++ f :: after →
    ∀ a ∈ f.ty.args, ∀ s ∈ records, Mentions a s.name → Leading records before s

theorem Denotes.mono {more : List RecordDecl} (sub : records ⊆ more) {written : TypeRef}
    (h : Denotes scope records written) : Denotes scope more written := by
  induction h with
  | imported found arity _ ih => exact .imported found arity ih
  | record mem names _ ih => exact .record (sub mem) names ih

theorem Layable.mono {more : List RecordDecl} (sub : records ⊆ more) {r : RecordDecl}
    (h : Layable scope records r) : Layable scope more r :=
  ⟨h.names, fun f hf => (h.fields f hf).mono sub⟩

theorem Denotes.layable (fresh : Fresh scope records) {written : TypeRef}
    (h : Denotes scope records written) {s : RecordDecl} (hs : s ∈ records)
    (hm : Mentions written s.name) : Layable scope records s := by
  generalize named : s.name = n at hm
  induction h generalizing n with
  | imported found _ _ ih =>
    cases hm with
    | head =>
      have free := fresh.free s hs
      rw [named] at free
      cases free.symm.trans found
    | inside ha hm => exact ih _ ha n named hm
  | @record r position mem names fields ih =>
    cases hm with
    | head =>
      cases fresh.unique s hs r mem named
      exact ⟨names, fields⟩
    | inside ha => cases ha

theorem Denotes.args_eq_nil (fresh : Fresh scope records) {written : TypeRef}
    (h : Denotes scope records written) {s : RecordDecl} (hs : s ∈ records)
    (named : s.name = written.name) : written.args = [] := by
  cases h with
  | imported found =>
    dsimp only at named
    simp [← named, fresh.free s hs] at found
  | record => rfl

/-- A record has another among its fields or in their type arguments. -/
def Needs (records : List RecordDecl) (r s : RecordDecl) : Prop :=
  s ∈ records ∧ ∃ f ∈ r.fields, Mentions f.ty s.name

theorem Contains.needs {r s : RecordDecl} (h : Contains records r s) : Needs records r s := by
  obtain ⟨hs, f, hf, named⟩ := h
  exact ⟨hs, f, hf, named ▸ .head⟩

theorem transGen_needs {r s : RecordDecl} (h : Relation.TransGen (Contains records) r s) :
    Relation.TransGen (Needs records) r s :=
  Relation.TransGen.mono (fun _ _ => Contains.needs) _ _ h

/-- Need is well-founded on records that can be laid out. -/
theorem Denotes.acc (fresh : Fresh scope records) {written : TypeRef}
    (h : Denotes scope records written) {s : RecordDecl} (hs : s ∈ records)
    (hm : Mentions written s.name) : Acc (Function.swap (Needs records)) s := by
  generalize named : s.name = n at hm
  induction h generalizing s n with
  | imported found _ _ ih =>
    cases hm with
    | head =>
      have free := fresh.free s hs
      rw [named] at free
      cases free.symm.trans found
    | inside ha hm => exact ih _ ha hs n named hm
  | @record r position mem names fields ih =>
    cases hm with
    | head =>
      cases fresh.unique s hs r mem named
      refine ⟨_, fun t ht => ?_⟩
      obtain ⟨ht, f, hf, hm⟩ := ht
      exact ih f hf ht _ rfl hm
    | inside ha => cases ha

theorem not_rel_self_of_acc {α : Type} {R : α → α → Prop} {a : α} (h : Acc R a) : ¬ R a a := by
  induction h with
  | intro a _ ih => exact fun self => ih a self self

theorem Layable.not_needs_self (fresh : Fresh scope records) {r : RecordDecl} (hr : r ∈ records)
    (h : Layable scope records r) : ¬ Relation.TransGen (Needs records) r r := by
  have written : Denotes scope records ⟨r.name, [], ⟨0, 0⟩⟩ := .record hr h.names h.fields
  have acc := acc_transGen_iff.mpr (written.acc fresh hr .head)
  rw [← Relation.transGen_swap]
  exact not_rel_self_of_acc acc

theorem Layable.of_needs (fresh : Fresh scope records) {r s : RecordDecl}
    (h : Layable scope records r) (needs : Relation.TransGen (Needs records) r s) :
    Layable scope records s := by
  induction needs with
  | single step =>
    obtain ⟨hs, f, hf, hm⟩ := step
    exact (h.fields f hf).layable fresh hs hm
  | tail _ step ih =>
    obtain ⟨hs, f, hf, hm⟩ := step
    exact (ih.fields f hf).layable fresh hs hm

/-- A written type resolves once every record that it names is done. -/
theorem Denotes.resolve {d : Drafts} (drafted : Drafted home scope records d) {written : TypeRef}
    (h : Denotes scope records written)
    (done : ∀ s ∈ records, Mentions written s.name → d.progress? s.name = some .done) :
    ∃ t, d.types.resolve written = .ok t := by
  induction h with
  | imported found arity _ ih =>
    simp only [TypeScope.resolve, drafted.imported found, arity, ne_eq, not_true_eq_false, if_false]
    cases resolved : d.types.resolveAll _ with
    | ok ts => exact ⟨_, rfl⟩
    | error i =>
      obtain ⟨a, ha, error⟩ := resolveAll_error resolved
      obtain ⟨t, ok⟩ := ih a ha fun s hs hm => done s hs (.inside ha hm)
      simp [error] at ok
  | @record r position mem names fields ih =>
    obtain ⟨-, fields, shown, -⟩ := drafted.laid r mem (done r mem .head)
    rw [TypeScope.resolve, shown]
    exact ⟨_, rfl⟩

theorem Drafted.done_of_mentions {d : Drafts} (drafted : Drafted home scope records d)
    (fresh : Fresh scope records) {written : TypeRef} {t : Ty}
    (h : d.types.resolve written = .ok t) {s : RecordDecl} (hs : s ∈ records)
    (hm : Mentions written s.name) : d.progress? s.name = some .done := by
  induction written using writtenInduction generalizing t with
  | h name args position ih =>
    obtain ⟨found, -, resolved⟩ := TypeScope.resolve_ok h
    generalize hn : s.name = n at hm
    cases hm with
    | head =>
      rw [← hn] at found ⊢
      rcases drafted.visible found with imported | ⟨-, -, -, done⟩
      · simp [fresh.free s hs] at imported
      · exact done
    | inside ha hm =>
      obtain ⟨u, hu⟩ := exists_of_forall₂ (resolveAll_ok_iff.mp resolved) ha
      subst hn
      exact ih _ ha hu hm

theorem Drafted.done_of_contains {d : Drafts} (drafted : Drafted home scope records d)
    (fresh : Fresh scope records) {r s : RecordDecl} (hr : r ∈ records)
    (inside : Relation.ReflTransGen (Contains records) r s)
    (done : d.progress? r.name = some .done) : s ∈ records ∧ d.progress? s.name = some .done := by
  induction inside with
  | refl => exact ⟨hr, done⟩
  | tail _ step ih =>
    obtain ⟨hs, f, hf, named⟩ := step
    obtain ⟨-, fields, -, fits⟩ := drafted.laid _ ih.1 ih.2
    obtain ⟨x, -, hx⟩ := exists_of_forall₂ fits hf
    refine ⟨hs, drafted.done_of_mentions fresh hx hs ?_⟩
    rw [named]
    exact .head

def Promising (scope : TypeScope) (records : List RecordDecl) (d : Drafts) : Prop :=
  ∀ s ∈ records, Layable scope records s → d.progress? s.name ≠ some .failed

def Around (records : List RecordDecl) (d : Drafts) (r : RecordDecl) : Prop :=
  ∀ u ∈ records, d.progress? u.name = some .underway → Relation.TransGen (Contains records) u r

/-- Every record named in the type arguments of a field is done, or is or is inside an earlier
field. -/
def Supplied (records : List RecordDecl) (d : Drafts) (r : RecordDecl) : Prop :=
  ∀ before f after, r.fields = before ++ f :: after → ∀ a ∈ f.ty.args, ∀ s ∈ records,
    Mentions a s.name → d.progress? s.name = some .done ∨ Leading records before s

def SuppliedAt (scope : TypeScope) (records : List RecordDecl) (d : Drafts) (r : RecordDecl) :
    Prop :=
  ∀ s ∈ records, Layable scope records s → d.progress? s.name = some .pending →
    Relation.ReflTransGen (Contains records) r s → Supplied records d s

/-- A record that can be laid out is laid out if those at and inside it have what they need. -/
def Succeeds (home : String) (scope : TypeScope) (records : List RecordDecl) (r : RecordDecl)
    (d : Drafts) (res : Bool × Drafts) : Prop :=
  Keeps home scope records r d res ∧ (r ∈ records → Drafted home scope records d →
    Promising scope records d → Around records d r → SuppliedAt scope records d r →
    Promising scope records res.2 ∧ (Layable scope records r → res.1 = true))

def SucceedsSoFar (home : String) (scope : TypeScope) (records : List RecordDecl)
    (r : RecordDecl) (d : Drafts) (before : List FieldDecl) (g : Gathered) : Prop :=
  KeepsSoFar home scope records r d before g ∧ (Drafted home scope records d →
    Promising scope records d → Around records d r → SuppliedAt scope records d r →
    Promising scope records g.drafts ∧ (Layable scope records r → g.good = true ∧
      ∀ f ∈ before, ∀ s ∈ records, s.name = f.ty.name → g.drafts.progress? s.name = some .done))

theorem Layable.gathers {r : RecordDecl} {d : Drafts} {before : List FieldDecl} {f : FieldDecl}
    {g : Gathered} (layable : Layable scope records r) (reaches : Reaches records r d before f)
    (drafted : Drafted home scope records g.drafts) (good : g.good = true)
    (fits : Fits g.drafts.types before g.fields)
    (done : ∀ s ∈ records, Mentions f.ty s.name → g.drafts.progress? s.name = some .done) :
    (gatherField g f).good = true := by
  obtain ⟨after, split⟩ := reaches.split
  have hf : f ∈ r.fields := by simp [split]
  obtain ⟨t, ht⟩ := (layable.fields f hf).resolve drafted done
  refine good_gatherField good ?_ ht
  have names := layable.names
  rw [split, List.map_append, List.nodup_append] at names
  rw [fits.names]
  exact fun hb => names.2.2 _ hb f.name (by simp) rfl

theorem Supplied.done {r : RecordDecl} {d : Drafts} {before : List FieldDecl} {f : FieldDecl}
    {g : Gathered} (h : Supplied records d r) (fresh : Fresh scope records)
    (reaches : Reaches records r d before f) (lasts : Lasts r d before g)
    (drafted : Drafted home scope records g.drafts)
    (earlier : ∀ f ∈ before, ∀ s ∈ records, s.name = f.ty.name →
      g.drafts.progress? s.name = some .done)
    {a : TypeRef} (ha : a ∈ f.ty.args) {s : RecordDecl} (hs : s ∈ records)
    (hm : Mentions a s.name) : g.drafts.progress? s.name = some .done := by
  obtain ⟨after, split⟩ := reaches.split
  rcases h before f after split a ha s hs hm with done | ⟨e, he, t, ht, named, inside⟩
  · exact lasts.done reaches.pending done
  · exact (drafted.done_of_contains fresh ht inside (earlier e he t ht named)).2

theorem Around.inner {r s : RecordDecl} {d : Drafts} {before : List FieldDecl} {f : FieldDecl}
    {g : Gathered} (h : Around records d r) (fresh : Fresh scope records)
    (reaches : Reaches records r d before f) (lasts : Lasts r d before g) (hs : s ∈ records)
    (named : s.name = f.ty.name) : Around records g.drafts s := by
  obtain ⟨after, split⟩ := reaches.split
  have step : Contains records r s := ⟨hs, f, by simp [split], named⟩
  intro u hu underway
  by_cases hn : u.name = r.name
  · rw [fresh.unique u hu r reaches.mem hn]
    exact .single step
  · have before := Evolves.underway lasts underway
    exact (h u hu (by simpa [hn] using before)).tail step

theorem SuppliedAt.inner {r s : RecordDecl} {d : Drafts} {before : List FieldDecl} {f : FieldDecl}
    {g : Gathered} (h : SuppliedAt scope records d r) (reaches : Reaches records r d before f)
    (lasts : Lasts r d before g) (hs : s ∈ records) (named : s.name = f.ty.name) :
    SuppliedAt scope records g.drafts s := by
  obtain ⟨after, split⟩ := reaches.split
  have step : Contains records r s := ⟨hs, f, by simp [split], named⟩
  intro u hu layable pending inside
  have own := h u hu layable (lasts.pending pending) (.head step inside)
  intro before' f' after' split' a ha t ht hm
  exact (own before' f' after' split' a ha t ht hm).imp_left (lasts.done reaches.pending)

theorem Promising.step {d e : Drafts} (h : Promising scope records d) (fresh : Fresh scope records)
    {r : RecordDecl} (hr : r ∈ records)
    (others : ∀ n, n ≠ r.name → e.progress? n = d.progress? n)
    (own : Layable scope records r → e.progress? r.name ≠ some .failed) :
    Promising scope records e := by
  intro s hs layable
  by_cases hn : s.name = r.name
  · cases fresh.unique s hs r hr hn
    exact own layable
  · rw [others _ hn]
    exact h s hs layable

theorem success (fresh : Fresh scope records) :
    LayoutCases home records (Succeeds home scope records) (SucceedsSoFar home scope records) where
  done hp := ⟨(soundness fresh).done hp, fun _ _ promising _ _ => ⟨promising, fun _ => rfl⟩⟩
  failed {r d} hp := by
    refine ⟨(soundness fresh).failed hp, fun hr _ promising _ _ => ⟨promising, fun layable => ?_⟩⟩
    exact absurd hp (promising r hr layable)
  circular {r d} hp := by
    refine ⟨(soundness fresh).circular hp, fun hr _ promising around _ => ?_⟩
    have circle : ¬ Layable scope records r := by
      intro layable
      exact layable.not_needs_self fresh hr (transGen_needs (around r hr hp))
    refine ⟨promising.step fresh hr (fun n hn => ?_) fun layable => absurd layable circle,
      fun layable => absurd layable circle⟩
    simp [hn]
  start {r d} hr hp := by
    refine ⟨(soundness fresh).start hr hp, fun _ promising _ _ => ⟨?_, by simp⟩⟩
    exact promising.step fresh hr (fun n hn => by simp [hn]) fun _ => by simp [hp]
  plain {r d before f g} reaches hq hn := by
    refine ⟨(soundness fresh).plain reaches hq.1 hn, fun drafted promising around supplied => ?_⟩
    obtain ⟨promising', ok⟩ := hq.2 drafted promising around supplied
    obtain ⟨drafted', -, fits⟩ := hq.1.2 drafted
    refine ⟨by simpa [Promising] using promising', fun layable => ?_⟩
    obtain ⟨good, earlier⟩ := ok layable
    have own := supplied r reaches.mem layable reaches.pending .refl
    refine ⟨layable.gathers reaches drafted' good (fits good).2 fun s hs hm => ?_, ?_⟩
    · generalize named : s.name = n at hm
      cases hm with
      | head => exact absurd named (hn s hs)
      | inside ha hm =>
        subst named
        exact own.done fresh reaches hq.1.1 drafted' earlier ha hs hm
    · intro e he s hs named
      rw [progress?_gatherField]
      rcases List.mem_append.mp he with he | he
      · exact earlier e he s hs named
      · rw [List.mem_singleton.mp he] at named
        exact absurd named (hn s hs)
  inner {r d before f g s drafts} reaches hq hs named hp := by
    refine ⟨(soundness fresh).inner reaches hq.1 hs named hp.1,
      fun drafted promising around supplied => ?_⟩
    obtain ⟨promising', ok⟩ := hq.2 drafted promising around supplied
    obtain ⟨drafted', -, fits⟩ := hq.1.2 drafted
    obtain ⟨drafted'', joins⟩ := hp.1.2 drafted'
    have inner := hp.2 hs drafted' promising' (around.inner fresh reaches hq.1.1 hs named)
      (supplied.inner reaches hq.1.1 hs named)
    refine ⟨by simpa [Promising] using inner.1, fun layable => ?_⟩
    obtain ⟨good, earlier⟩ := ok layable
    obtain ⟨after, split⟩ := reaches.split
    have plain := (layable.fields f (by simp [split])).args_eq_nil fresh hs named
    have done : drafts.progress? s.name = some .done := hp.1.1.2
    refine ⟨layable.gathers reaches drafted'' good ((fits good).2.grows joins)
      fun t ht hm => ?_, ?_⟩
    · generalize same : t.name = n at hm
      cases hm with
      | head => exact named ▸ done
      | inside ha hm => simp [plain] at ha
    · intro e he t ht same
      rw [progress?_gatherField]
      rcases List.mem_append.mp he with he | he
      · exact hp.1.1.1.done (earlier e he t ht same)
      · rw [List.mem_singleton.mp he, ← named] at same
        exact same ▸ done
  broken {r d before f g s drafts} reaches hq hs named hp := by
    refine ⟨(soundness fresh).broken reaches hq.1 hs named hp.1,
      fun drafted promising around supplied => ?_⟩
    obtain ⟨promising', ok⟩ := hq.2 drafted promising around supplied
    obtain ⟨drafted', -, fits⟩ := hq.1.2 drafted
    have inner := hp.2 hs drafted' promising' (around.inner fresh reaches hq.1.1 hs named)
      (supplied.inner reaches hq.1.1 hs named)
    refine ⟨inner.1, fun layable => ?_⟩
    obtain ⟨after, split⟩ := reaches.split
    have step : Contains records r s := ⟨hs, f, by simp [split], named⟩
    cases inner.2 (layable.of_needs fresh (.single step.needs))
  finish {r d g} hr hp hq := by
    refine ⟨(soundness fresh).finish hr hp hq.1, fun _ drafted promising around supplied => ?_⟩
    obtain ⟨promising', ok⟩ := hq.2 drafted promising around supplied
    unfold Environment.finish
    split
    · refine ⟨promising'.step fresh hr (fun n hn => ?_) fun _ => ?_, fun _ => rfl⟩
      · simp [hn]
      · simp
    · next bad =>
      have unlayable : ¬ Layable scope records r :=
        fun layable => bad ⟨(ok layable).1, promising' r hr layable⟩
      refine ⟨promising'.step fresh hr (fun n hn => ?_) fun layable => absurd layable unlayable,
        fun layable => absurd layable unlayable⟩
      simp [hn]

def initialDrafts (scope : TypeScope) (records : List RecordDecl) (issues : List Issue) : Drafts :=
  ⟨records.map fun r => (r.name, .pending), scope, issues⟩

theorem progress?_initialDrafts {issues : List Issue} {n : String} {p : Progress} :
    (initialDrafts scope records issues).progress? n = some p ↔
      p = .pending ∧ ∃ r ∈ records, r.name = n := by
  simp only [initialDrafts, Drafts.progress?]
  induction records with
  | nil => simp
  | cons r rest ih =>
    by_cases hn : n = r.name
    · subst hn
      simp [eq_comm]
    · have other : (n == r.name) = false := beq_eq_false_iff_ne.mpr hn
      simp [List.lookup, other, ih, Ne.symm hn]

/-- If every record has what it needs when its turn comes, all records that can be laid out are laid
out. -/
theorem done_layOutAll (fresh : Fresh scope records) {order : List RecordDecl}
    (sub : order ⊆ records) {d : Drafts} (tracked : Tracked records d)
    (idle : ∀ n, d.progress? n ≠ some .underway) (drafted : Drafted home scope records d)
    (promising : Promising scope records d)
    (supplied : ∀ front r back, order = front ++ r :: back → ∀ e : Drafts,
      (∀ s ∈ front, Layable scope records s → e.progress? s.name = some .done) →
      SuppliedAt scope records e r) :
    Promising scope records (layOutAll home records order d) ∧
      ∀ s ∈ order, Layable scope records s →
        (layOutAll home records order d).progress? s.name = some .done := by
  induction order using List.reverseRecOn with
  | nil => exact ⟨promising, by simp⟩
  | append_singleton front r ih =>
    rw [List.append_subset, List.cons_subset] at sub
    obtain ⟨promising', done⟩ := ih sub.1 fun front' r' back' split =>
      supplied front' r' (back' ++ [r]) (by simp [split])
    have evolves := evolves_layOutAll home sub.1 tracked
    have drafted' := drafted_layOutAll fresh sub.1 tracked drafted
    have tracked' := tracked_layOutAll home sub.1 tracked
    have idle' : ∀ n, (layOutAll home records front d).progress? n ≠ some .underway :=
      fun n hn => idle n (evolves.underway hn)
    rw [layOutAll_concat]
    generalize layOutAll home records front d = e at *
    split_ifs with hp
    · obtain ⟨⟨ends, -⟩, succeeds⟩ := (success fresh).layOut sub.2.1 tracked'
      obtain ⟨promising'', found⟩ := succeeds sub.2.1 drafted' promising'
        (fun u _ hu => absurd hu (idle' u.name)) (supplied front r [] rfl e done)
      refine ⟨promising'', fun s hs layable => ?_⟩
      rcases List.mem_append.mp hs with hs | hs
      · exact ends.1.done (done s hs layable)
      · rw [List.mem_singleton] at hs
        subst hs
        have own := ends.2
        rw [found layable] at own
        exact own
    · refine ⟨promising', fun s hs layable => ?_⟩
      rcases List.mem_append.mp hs with hs | hs
      · exact done s hs layable
      · rw [List.mem_singleton] at hs
        subst hs
        obtain ⟨p, own⟩ := Option.isSome_iff_exists.mp (tracked' s sub.2.1)
        cases p with
        | pending => exact absurd own hp
        | underway => exact absurd own (idle' _)
        | done => exact own
        | failed => exact absurd own (promising' s sub.2.1 layable)

section

variable (issues : List Issue)

theorem tracked_initialDrafts : Tracked records (initialDrafts scope records issues) := by
  intro r hr
  rw [Option.isSome_iff_exists]
  exact ⟨.pending, progress?_initialDrafts.mpr ⟨rfl, r, hr, rfl⟩⟩

theorem initialDrafts_ne {n : String} {p : Progress} (hp : p ≠ .pending) :
    (initialDrafts scope records issues).progress? n ≠ some p :=
  fun h => hp (progress?_initialDrafts.mp h).1

theorem drafted_initialDrafts :
    Drafted home scope records (initialDrafts scope records issues) where
  imported h := h
  visible h := .inl h
  laid _ _ h := absurd h (initialDrafts_ne issues (by decide))

end

def finalDrafts (home : String) (scope : TypeScope) (issues : List Issue)
    (records : List RecordDecl) : Drafts :=
  layOutAll home records records (initialDrafts scope records issues)

section

variable {issues : List Issue}

theorem drafted_finalDrafts (fresh : Fresh scope records) :
    Drafted home scope records (finalDrafts home scope issues records) :=
  drafted_layOutAll fresh (List.Subset.refl _) (tracked_initialDrafts issues)
    (drafted_initialDrafts issues)

theorem finalDrafts_settled {r : RecordDecl} (hr : r ∈ records) :
    (finalDrafts home scope issues records).progress? r.name = some .done ∨
      (finalDrafts home scope issues records).progress? r.name = some .failed :=
  layOutAll_settled (List.Subset.refl _) (tracked_initialDrafts issues)
    (fun _ => initialDrafts_ne issues (by decide)) hr

theorem faulty_finalDrafts_iff : Faulty (finalDrafts home scope issues records) ↔
    Issue.anyAtLeast .error issues = true ∨ ∃ r ∈ records,
      (finalDrafts home scope issues records).progress? r.name = some .failed :=
  faulty_layOutAll_iff (List.Subset.refl _) (tracked_initialDrafts issues)
    fun _ h => absurd h (initialDrafts_ne issues (by decide))

theorem finalDrafts_done (fresh : Fresh scope records)
    (supplied : ∀ front r back, records = front ++ r :: back → ∀ e : Drafts,
      (∀ s ∈ front, Layable scope records s → e.progress? s.name = some .done) →
      SuppliedAt scope records e r) {r : RecordDecl} (hr : r ∈ records)
    (layable : Layable scope records r) :
    (finalDrafts home scope issues records).progress? r.name = some .done :=
  (done_layOutAll fresh (List.Subset.refl records) (tracked_initialDrafts issues)
    (fun _ => initialDrafts_ne issues (by decide)) (drafted_initialDrafts issues)
    (fun _ _ _ => initialDrafts_ne issues (by decide)) supplied).2 r hr layable

/-- If every name in type arguments is covered, exactly the records that can be laid out are laid
out. -/
theorem finalDrafts_done_iff (fresh : Fresh scope records) (covered : Covered scope records)
    {r : RecordDecl} (hr : r ∈ records) :
    (finalDrafts home scope issues records).progress? r.name = some .done ↔
      Layable scope records r := by
  constructor
  · exact fun done => ((drafted_finalDrafts fresh).laid r hr done).1
  · refine finalDrafts_done fresh (fun front r back _ e _ => ?_) hr
    intro s hs layable _ _ before f after split a ha t ht hm
    exact .inr (covered s hs layable before f after split a ha t ht hm)

end

end Bytescript.Environment
