import Mathlib
import Bytescript.Proofs.Judgement

/-!
# Accepted statements

`Accepted` says without any state what the notes on the expressions of a statement are, and how
the statement changes the scopes. Typing statements without an error leaves notes under which they
are accepted (`statements_accepted`), whatever becomes of the notes of other statements.
-/
namespace Bytescript.Typing

def Has (env : Environment) (notes : Notes) (scopes : Scopes) (e : Expr) (note : Note)
    (c : Option Coercion) : Prop :=
  Noted env scopes notes e note ∧ notes.find? e.id = some { note with coercion := c }

/-- The value of an expression is coerced to a type, or has it already. -/
def Fits (env : Environment) (notes : Notes) (scopes : Scopes) (e : Expr) (target : Ty) : Prop :=
  ∃ note c, Has env notes scopes e note c ∧ coercionTo note target = .ok c

def Tested (env : Environment) (notes : Notes) (scopes : Scopes) (e : Expr) : Prop :=
  ∃ note, Has env notes scopes e note none ∧ note.ty.isPrimitive .bool

def Initial (env : Environment) (notes : Notes) (scopes : Scopes) :
    Option TypeRef → Option Expr → Ty → Prop
  | some written, value, ty =>
    env.types.resolve written = .ok ty ∧ ∀ e ∈ value, Fits env notes scopes e ty
  | none, some e, ty => ∃ note, Has env notes scopes e note none ∧ note.ty = ty
  | none, none, _ => False

def Declares (scopes : Scopes) (name : String) (ty : Ty) (after : Scopes) : Prop :=
  ∃ inner outer, scopes = inner :: outer ∧ inner.lookup name = none ∧
    after = ((name, ty) :: inner) :: outer

mutual

/-- A statement is well typed under the notes, and changes the scopes from the first to the second.
-/
def Accepted (env : Environment) (notes : Notes) (scopes : Scopes) : Stmt → Scopes → Prop
  | .declare _ name ty value, after =>
    ∃ t, Initial env notes scopes ty value t ∧ Declares scopes name t after
  | .assign _ target value, after =>
    (∃ t, placeType scopes target = .ok t ∧ Fits env notes scopes value t) ∧ after = scopes
  | .discard _ value, after => (∃ note, Has env notes scopes value note none) ∧ after = scopes
  | .block _ body, after => (∃ inner, AcceptedAll env notes ([] :: scopes) body inner) ∧
      after = scopes
  | .branch _ e body none, after => Tested env notes scopes e ∧
      (∃ inner, AcceptedAll env notes ([] :: scopes) body inner) ∧ after = scopes
  | .branch _ e body (some otherwise), after => Tested env notes scopes e ∧
      (∃ inner, AcceptedAll env notes ([] :: scopes) body inner) ∧
      (∃ inner, AcceptedAll env notes ([] :: scopes) otherwise inner) ∧ after = scopes
  | .loop _ e body, after => Tested env notes scopes e ∧
      (∃ inner, AcceptedAll env notes ([] :: scopes) body inner) ∧ after = scopes
  | .halt .., after => after = scopes
  | .debug _, after => after = scopes

def AcceptedAll (env : Environment) (notes : Notes) (scopes : Scopes) : List Stmt → Scopes → Prop
  | [], after => after = scopes
  | s :: rest, after =>
    ∃ middle, Accepted env notes scopes s middle ∧ AcceptedAll env notes middle rest after

end

theorem coercionTo_ok {note : Note} {target : Ty} {c : Coercion}
    (h : coercionTo note target = .ok (some c)) :
    c = ⟨target, note.operand.conversionTo target⟩ ∧ c.conversion ≠ .unneeded ∧
      c.conversion.isImplicit := by
  unfold coercionTo at h
  dsimp only at h
  split at h
  · cases h
  · next hu =>
    split at h
    · next hi =>
      cases h
      exact ⟨rfl, hu, hi⟩
    · split at h <;> cases h

def fitFrom (e : Expr) (target : Ty) : Option Note → Typed Unit
  | none => return ()
  | some note =>
    match coercionTo note target with
    | .error p => report p e.position
    | .ok none => return ()
    | .ok (some c) => convert e.id c.target c.conversion

theorem fit_apply (e : Expr) (target : Ty) (g : Findings) :
    fit e target g = fitFrom e target (g.notes.find? e.id) g := rfl

theorem grows_fit (e : Expr) (target : Ty) : Grows (fit e target) := by
  have hf : ∀ r, Grows (fitFrom e target r) := by
    intro r
    unfold fitFrom
    split
    · exact Grows.pure ()
    · split
      · exact grows_report _ _
      · exact Grows.pure ()
      · exact grows_convert _ _ _
  exact fun g => hf (g.notes.find? e.id) g

theorem Ensures.congr {α : Type} {m m' : Typed α} {f : Findings} {P : α → Findings → Prop}
    (h : m f = m' f) (hm : Ensures m' f P) : Ensures m f P := by
  unfold Ensures
  rwa [h]

/-- Fitting a value to a type changes at most the coercion in its own note. -/
theorem ensures_fit {e : Expr} {target : Ty} {g : Findings} {note : Note}
    (filed : g.notes.find? e.id = some note) (hn : note.coercion = none) :
    Ensures (fit e target) g fun _ h =>
      (∀ i, i ≠ e.id → h.notes.find? i = g.notes.find? i) ∧ ∃ c,
        coercionTo note target = .ok c ∧
        h.notes.find? e.id = some { note with coercion := c } := by
  have hf : fit e target g = fitFrom e target (some note) g := by rw [fit_apply, filed]
  refine Ensures.congr hf ?_
  unfold fitFrom
  dsimp only
  split
  · next hc => exact ensures_report (coercionTo_error hc)
  · next hc =>
    refine fun _ => ⟨fun _ _ => rfl, none, hc, filed.trans ?_⟩
    rw [← hn]
  · next c hc =>
    obtain ⟨-, hu, -⟩ := coercionTo_ok hc
    refine fun _ => ⟨fun i h => convert_find?_ne h _ _ _, some c, hc, ?_⟩
    refine (convert_find?_self filed hn _ _).trans ?_
    simp [asked, hu]

theorem grows_declare (scopes : Scopes) (name : String) (ty : Ty) (position : Position) :
    Grows (declare scopes name ty position) := by
  unfold declare
  split
  · exact Grows.pure _
  · split
    · exact (grows_report _ _).bind fun _ => Grows.pure _
    · split
      · exact (grows_report _ _).bind fun _ => Grows.pure _
      · exact Grows.pure _

theorem grows_condition (env : Environment) (scopes : Scopes) (e : Expr) :
    Grows (condition env scopes e) := by
  refine (grows_expression env scopes e).bind fun r => ?_
  split
  · exact Grows.pure _
  · split
    · exact Grows.pure _
    · exact grows_report _ _

theorem grows_declaredType (env : Environment) (scopes : Scopes) (position : Position)
    (name : String) (ty : Option TypeRef) (value : Option Expr) :
    Grows (declaredType env scopes position name ty value) := by
  unfold declaredType
  split
  · split
    · exact (grows_issues _).bind fun _ => Grows.pure _
    · split
      · exact (grows_expression env scopes _).bind fun _ => (grows_fit _ _).bind fun _ =>
          Grows.pure _
      · exact Grows.pure _
  · exact (grows_expression env scopes _).bind fun _ => Grows.pure _
  · exact grows_giveUp _ _

theorem grows_statements (env : Environment) :
    (∀ s scopes, Grows (statement env scopes s)) ∧
      ∀ body scopes, Grows (statements env scopes body) := by
  have cases : Stmt.Cases (fun s => ∀ scopes, Grows (statement env scopes s))
      (fun body => ∀ scopes, Grows (statements env scopes body)) := {
    declare := by
      intro position name ty value scopes
      unfold statement
      refine (grows_declaredType _ _ _ _ _ _).bind fun r => ?_
      split
      · exact grows_declare _ _ _ _
      · exact Grows.pure _
    assign := by
      intro position target value scopes
      unfold statement
      split
      · exact (grows_report _ _).bind fun _ => (grows_expression _ _ _).bind fun _ => Grows.pure _
      · exact (grows_expression _ _ _).bind fun _ => (grows_fit _ _).bind fun _ => Grows.pure _
    discard := by
      intro position value scopes
      unfold statement
      exact (grows_expression _ _ _).bind fun _ => Grows.pure _
    block := by
      intro position body ih scopes
      unfold statement
      exact (ih _).bind fun _ => Grows.pure _
    branch := by
      intro position e body ih scopes
      unfold statement
      exact (grows_condition _ _ _).bind fun _ => (ih _).bind fun _ => Grows.pure _
    branchElse := by
      intro position e body otherwise ihb iho scopes
      unfold statement
      exact (grows_condition _ _ _).bind fun _ => (ihb _).bind fun _ => (iho _).bind fun _ =>
        Grows.pure _
    loop := by
      intro position e body ih scopes
      unfold statement
      exact (grows_condition _ _ _).bind fun _ => (ih _).bind fun _ => Grows.pure _
    halt := by
      intro position code scopes
      unfold statement
      exact Grows.pure _
    debug := by
      intro position scopes
      unfold statement
      exact Grows.pure _
    nil := by
      intro scopes
      unfold statements
      exact Grows.pure _
    cons := by
      intro s rest ihs ihr scopes
      unfold statements
      exact (ihs _).bind fun _ => ihr _ }
  exact ⟨cases.one, cases.all⟩

/-- A run changes only the notes with the given numbers, and `P` holds of all notes that agree with
the result there. -/
def Establishes (ids : List UInt32) (f g : Findings) (P : Notes → Prop) : Prop :=
  (∀ i, i ∉ ids → g.notes.find? i = f.notes.find? i) ∧
    ∀ notes : Notes, (∀ i ∈ ids, notes.find? i = g.notes.find? i) → P notes

theorem Establishes.none {f : Findings} {P : Notes → Prop} (h : ∀ notes, P notes) :
    Establishes [] f f P :=
  ⟨fun _ _ => rfl, fun notes _ => h notes⟩

theorem Establishes.and {is js : List UInt32} {f g h : Findings} {P Q : Notes → Prop}
    (hp : Establishes is f g P) (hq : Establishes js g h Q)
    (apart : ∀ i ∈ is, ∀ j ∈ js, i ≠ j) :
    Establishes (is ++ js) f h fun notes => P notes ∧ Q notes := by
  obtain ⟨keepP, holdsP⟩ := hp
  obtain ⟨keepQ, holdsQ⟩ := hq
  refine ⟨fun i hi => ?_, fun notes hn =>
    ⟨holdsP notes fun i hi => ?_, holdsQ notes fun i hi => ?_⟩⟩
  · rw [List.mem_append, not_or] at hi
    rw [keepQ i hi.2, keepP i hi.1]
  · rw [hn i (List.mem_append_left _ hi), keepQ i fun hj => apart i hi i hj rfl]
  · exact hn i (List.mem_append_right _ hi)

theorem Establishes.mono {is : List UInt32} {f g : Findings} {P Q : Notes → Prop}
    (h : Establishes is f g P) (hpq : ∀ notes, P notes → Q notes) : Establishes is f g Q :=
  ⟨h.1, fun notes hn => hpq notes (h.2 notes hn)⟩

theorem Leaves.establishes {env : Environment} {scopes : Scopes} {e : Expr} {f g : Findings}
    {r : Option Note} (h : Leaves env scopes e f r g) :
    ∃ note, r = some note ∧ g.notes.find? e.id = some note ∧ note.coercion = Option.none ∧
      Establishes e.ids f g fun notes => Has env notes scopes e note Option.none := by
  obtain ⟨kept, note, rfl, filed, noted⟩ := h
  have hc := (noted g.notes fun _ _ => rfl).coercion_eq
  refine ⟨note, rfl, filed, hc, kept, fun notes hn => ⟨?_, ?_⟩⟩
  · exact noted notes fun i hi => hn i (Expr.mem_ids_of_mem_partIds hi)
  · rw [hn _ e.id_mem_ids, filed, ← hc]

theorem ensures_fitted (env : Environment) (scopes : Scopes) (e : Expr) (hd : e.ids.Nodup)
    (target : Ty) (f : Findings) :
    Ensures (expression env scopes e >>= fun _ => fit e target) f fun _ g =>
      Establishes e.ids f g fun notes => Fits env notes scopes e target := by
  refine (expression_noted env scopes e hd f).bind (fun _ => grows_fit e target) ?_
  rintro r g ⟨kept, note, -, filed, noted⟩
  have hc := (noted g.notes fun _ _ => rfl).coercion_eq
  intro clean
  obtain ⟨keep, c, hto, own⟩ := ensures_fit filed hc clean
  refine ⟨fun i hi => ?_, fun notes hn => ⟨note, c, ⟨?_, ?_⟩, hto⟩⟩
  · rw [keep i fun h => hi (h ▸ e.id_mem_ids), kept i hi]
  · refine noted notes fun i hi => ?_
    rw [hn i (Expr.mem_ids_of_mem_partIds hi),
      keep i fun h => Expr.id_notMem_partIds hd (h ▸ hi)]
  · rw [hn _ e.id_mem_ids, own]

theorem ensures_condition (env : Environment) (scopes : Scopes) (e : Expr) (hd : e.ids.Nodup)
    (f : Findings) :
    Ensures (condition env scopes e) f fun _ g =>
      Establishes e.ids f g fun notes => Tested env notes scopes e := by
  refine (expression_noted env scopes e hd f).bind (fun r => ?_) fun r g hl => ?_
  · split
    · exact Grows.pure _
    · split
      · exact Grows.pure _
      · exact grows_report _ _
  · obtain ⟨note, rfl, -, -, he⟩ := hl.establishes
    dsimp only
    split
    · next hb => exact fun _ => he.mono fun notes h => ⟨note, h, hb⟩
    · exact ensures_report rfl

theorem ensures_declaredType (env : Environment) (scopes : Scopes) (position : Position)
    (name : String) (ty : Option TypeRef) (value : Option Expr)
    (hd : ((value.map Expr.ids).getD []).Nodup) (f : Findings) :
    Ensures (declaredType env scopes position name ty value) f fun r g => ∃ t, r = some t ∧
      Establishes ((value.map Expr.ids).getD []) f g fun notes =>
        Initial env notes scopes ty value t := by
  match ty, value with
  | none, none => exact ensures_giveUp rfl
  | none, some e =>
    refine (expression_noted env scopes e hd f).bind (fun _ => Grows.pure _) fun r g hl _ => ?_
    obtain ⟨note, rfl, -, -, he⟩ := hl.establishes
    exact ⟨note.ty, rfl, he.mono fun notes h => ⟨note, h, rfl⟩⟩
  | some written, value =>
    unfold declaredType
    dsimp only
    split
    · next hr =>
      exact Ensures.bind (ensures_issue (env.types.resolve_error _ _ hr) :
        Ensures _ f fun _ _ => False) (fun _ => Grows.pure _) fun _ _ h => h.elim
    · next target hr =>
      cases value with
      | none =>
        refine fun _ => ⟨target, rfl, Establishes.none fun notes => ⟨hr, ?_⟩⟩
        simp
      | some e =>
        have hf := ensures_fitted env scopes e hd target f
        simp only [← bind_assoc]
        refine hf.bind (fun _ => Grows.pure _) fun _ g he _ => ⟨target, rfl, ?_⟩
        refine he.mono fun notes h => ⟨hr, ?_⟩
        simpa using h

theorem ensures_declare {scopes : Scopes} (hs : scopes ≠ []) (name : String) (ty : Ty)
    (position : Position) (f : Findings) :
    Ensures (declare scopes name ty position) f fun after g =>
      g.notes = f.notes ∧ Declares scopes name ty after := by
  cases scopes with
  | nil => exact absurd rfl hs
  | cons inner outer =>
    unfold declare
    dsimp only
    split
    · exact Ensures.bind (ensures_report rfl : Ensures _ f fun _ _ => False)
        (fun _ => Grows.pure _) fun _ _ h => h.elim
    · next hl =>
      have free : inner.lookup name = none := Option.not_isSome_iff_eq_none.mp hl
      split
      · exact fun _ => ⟨rfl, inner, outer, rfl, free, rfl⟩
      · exact fun _ => ⟨rfl, inner, outer, rfl, free, rfl⟩

def Admits (env : Environment) (s : Stmt) : Prop :=
  ∀ scopes : Scopes, scopes ≠ [] → (s.nodes.map Expr.id).Nodup → ∀ f,
    Ensures (statement env scopes s) f fun after g => after ≠ [] ∧
      Establishes (s.nodes.map Expr.id) f g fun notes => Accepted env notes scopes s after

def AdmitsAll (env : Environment) (body : List Stmt) : Prop :=
  ∀ scopes : Scopes, scopes ≠ [] → (Stmt.allIds body).Nodup → ∀ f,
    Ensures (statements env scopes body) f fun after g => after ≠ [] ∧
      Establishes (Stmt.allIds body) f g fun notes => AcceptedAll env notes scopes body after

theorem AdmitsAll.scoped {env : Environment} {body : List Stmt} (h : AdmitsAll env body)
    (scopes : Scopes) (hd : (Stmt.allIds body).Nodup) (f : Findings) :
    Ensures (statements env ([] :: scopes) body) f fun _ g =>
      Establishes (Stmt.allIds body) f g fun notes =>
        ∃ inner, AcceptedAll env notes ([] :: scopes) body inner :=
  fun hc => (h ([] :: scopes) (by simp) hd f hc).2.mono fun _ ha => ⟨_, ha⟩

theorem AdmitsAll.guarded {α : Type} {env : Environment} {body : List Stmt}
    (h : AdmitsAll env body) (scopes : Scopes) (e : Expr) (hd : (e.ids ++ Stmt.allIds body).Nodup)
    {f : Findings} {k : Typed α} (grows : Grows k) {P : α → Findings → Prop}
    (hk : ∀ g, (Establishes (e.ids ++ Stmt.allIds body) f g fun notes =>
      Tested env notes scopes e ∧ ∃ inner, AcceptedAll env notes ([] :: scopes) body inner) →
        Ensures k g P) :
    Ensures (condition env scopes e >>= fun _ =>
      statements env ([] :: scopes) body >>= fun _ => k) f P := by
  obtain ⟨de, db, apart⟩ := List.nodup_append.mp hd
  have growsBody := (grows_statements env).2 body ([] :: scopes)
  refine (ensures_condition env scopes e de f).bind (fun _ => growsBody.bind fun _ => grows)
    fun _ g he => ?_
  exact (h.scoped scopes db g).bind (fun _ => grows) fun _ g' hb => hk g' (he.and hb apart)

/-- Typing statements without an error leaves notes under which they are accepted. -/
theorem statements_accepted (env : Environment) :
    (∀ s, Admits env s) ∧ ∀ body, AdmitsAll env body := by
  have grows := (grows_statements env).2
  have cases : Stmt.Cases (Admits env) (AdmitsAll env) := {
    declare := by
      intro position name ty value scopes hs hd f
      have ids : (Stmt.nodes (.declare position name ty value)).map Expr.id =
          (value.map Expr.ids).getD [] := by cases value <;> rfl
      rw [ids] at hd ⊢
      unfold statement
      refine (ensures_declaredType env scopes position name ty value hd f).bind (fun r => ?_)
        fun r g h => ?_
      · split
        · exact grows_declare _ _ _ _
        · exact Grows.pure _
      · obtain ⟨t, rfl, he⟩ := h
        intro clean
        obtain ⟨hn, hdec⟩ := ensures_declare hs name t position g clean
        obtain ⟨inner, outer, -, -, hafter⟩ := id hdec
        refine ⟨by simp [hafter], ?_, ?_⟩
        · rw [hn]
          exact he.1
        · rw [hn]
          exact fun notes h => ⟨t, he.2 notes h, hdec⟩
    assign := by
      intro position target value scopes hs hd f
      unfold statement
      split
      · next hp =>
        exact Ensures.bind (ensures_report (placeType_error hp) : Ensures _ f fun _ _ => False)
          (fun _ => (grows_expression _ _ _).bind fun _ => Grows.pure _) fun _ _ h => h.elim
      · next t hp =>
        simp only [← bind_assoc]
        refine (ensures_fitted env scopes value hd t f).bind (fun _ => Grows.pure _)
          fun _ g he _ => ⟨hs, ?_⟩
        exact he.mono fun notes h => ⟨⟨t, hp, h⟩, rfl⟩
    discard := by
      intro position value scopes hs hd f
      unfold statement
      refine (expression_noted env scopes value hd f).bind (fun _ => Grows.pure _)
        fun r g hl _ => ⟨hs, ?_⟩
      obtain ⟨note, -, -, -, he⟩ := hl.establishes
      exact he.mono fun notes h => ⟨⟨note, h⟩, rfl⟩
    block := by
      intro position body ih scopes hs hd f
      unfold statement
      refine (ih.scoped scopes hd f).bind (fun _ => Grows.pure _) fun _ g he _ => ⟨hs, ?_⟩
      exact he.mono fun notes h => ⟨h, rfl⟩
    branch := by
      intro position e body ih scopes hs hd f
      have ids : (Stmt.nodes (.branch position e body none)).map Expr.id =
          e.ids ++ Stmt.allIds body := by simp [Stmt.nodes, Stmt.allIds, Expr.ids]
      rw [ids] at hd ⊢
      unfold statement
      refine ih.guarded scopes e hd (Grows.pure _) fun g he _ => ⟨hs, ?_⟩
      exact he.mono fun notes h => ⟨h.1, h.2, rfl⟩
    branchElse := by
      intro position e body otherwise ihb iho scopes hs hd f
      have ids : (Stmt.nodes (.branch position e body (some otherwise))).map Expr.id =
          e.ids ++ Stmt.allIds body ++ Stmt.allIds otherwise := by
        simp [Stmt.nodes, Stmt.allIds, Expr.ids]
      rw [ids] at hd ⊢
      obtain ⟨dg, dn, apart⟩ := List.nodup_append.mp hd
      unfold statement
      refine ihb.guarded scopes e dg ((grows otherwise _).bind fun _ => Grows.pure _)
        fun g he => ?_
      refine (iho.scoped scopes dn g).bind (fun _ => Grows.pure _) fun _ h ho _ => ⟨hs, ?_⟩
      exact (he.and ho apart).mono fun notes h => ⟨h.1.1, h.1.2, h.2, rfl⟩
    loop := by
      intro position e body ih scopes hs hd f
      have ids : (Stmt.nodes (.loop position e body)).map Expr.id =
          e.ids ++ Stmt.allIds body := by simp [Stmt.nodes, Stmt.allIds, Expr.ids]
      rw [ids] at hd ⊢
      unfold statement
      refine ih.guarded scopes e hd (Grows.pure _) fun g he _ => ⟨hs, ?_⟩
      exact he.mono fun notes h => ⟨h.1, h.2, rfl⟩
    halt := by
      intro position code scopes hs hd f _
      exact ⟨hs, Establishes.none fun _ => rfl⟩
    debug := by
      intro position scopes hs hd f _
      exact ⟨hs, Establishes.none fun _ => rfl⟩
    nil := by
      intro scopes hs hd f _
      exact ⟨hs, Establishes.none fun _ => rfl⟩
    cons := by
      intro s rest ihs ihr scopes hs hd f
      have ids : Stmt.allIds (s :: rest) = s.nodes.map Expr.id ++ Stmt.allIds rest := by
        simp [Stmt.nodesAll, Stmt.allIds]
      rw [ids] at hd ⊢
      obtain ⟨ds, dr, apart⟩ := List.nodup_append.mp hd
      unfold statements
      refine (ihs scopes hs ds f).bind (fun middle => grows rest middle) fun middle g h => ?_
      obtain ⟨hm, he⟩ := h
      intro clean
      obtain ⟨ha, hr⟩ := ihr middle hm dr g clean
      exact ⟨ha, (he.and hr apart).mono fun notes h => ⟨middle, h.1, h.2⟩⟩ }
  exact ⟨cases.one, cases.all⟩

/-- A program without an error in its statements is accepted under the notes that typing leaves. -/
theorem ofProgram_accepted {env : Environment} {p : Program} (hd : p.Distinct)
    (hc : Clean (ofProgram env p)) :
    ∃ after, AcceptedAll env (ofProgram env p).notes [[]] p.body after :=
  have h := (statements_accepted env).2 p.body [[]] (by simp) hd .empty hc
  ⟨_, h.2.2 _ fun _ _ => rfl⟩

end Bytescript.Typing
