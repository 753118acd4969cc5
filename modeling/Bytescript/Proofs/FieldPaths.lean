import Mathlib
import Bytescript.Proofs.Agreement
import Bytescript.Proofs.TruthBytes
import Bytescript.Proofs.Universe

/-!
# The bytes at the end of a path of fields

A record has its fields in a row, and they may be records again. A path of fields of any length ends
within the bytes of the variable that it starts from. Two paths that diverge end in disjoint bytes,
also where some of the fields are empty.
-/
namespace Bytescript

namespace Definition

theorem before_or_behind {fs : List (String × Ty)} {start : Nat} {f g : Field Ty}
    (hf : f ∈ layFrom start fs) (hg : g ∈ layFrom start fs) (differ : f ≠ g) :
    f.offset + f.ty.size ≤ g.offset ∨ g.offset + g.ty.size ≤ f.offset := by
  induction fs generalizing start with
  | nil => cases hf
  | cons x fs ih =>
    rcases List.mem_cons.mp hf with rfl | hf <;> rcases List.mem_cons.mp hg with rfl | hg
    · exact absurd rfl differ
    · exact .inl (le_offset hg)
    · exact .inr (le_offset hf)
    · exact ih hf hg

end Definition

namespace Ty

/-- The types that are built from primitives and handles by records of any depth. -/
inductive Built : Ty → Prop
  | primitive {t : Ty} (p : Primitive) (shape : t.definition.shape = .primitive p) : Built t
  | handle {t : Ty} (shape : t.definition.shape = .handle) : Built t
  | record {t : Ty} (home name : String) (modifiers : Modifiers) (fields : List (String × Ty))
      (shape : t.definition.shape = (Definition.ofFields home name modifiers fields).shape)
      (each : ∀ x ∈ fields, Built x.2) : Built t

namespace Built

variable {t : Ty}

theorem row (built : t.Built) :
    ∃ fields, t.definition.fields = Definition.layFrom 0 fields ∧ (∀ x ∈ fields, x.2.Built) ∧
      fields.foldl (fun total x => total + x.2.size) 0 ≤ t.size := by
  cases built with
  | primitive p shape => exact ⟨[], by simp [DefinitionOf.fields, shape, Definition.layFrom]⟩
  | handle shape => exact ⟨[], by simp [DefinitionOf.fields, shape, Definition.layFrom]⟩
  | record home name modifiers fields shape each =>
    refine ⟨fields, ?_, each, ?_⟩
    · rw [DefinitionOf.fields, shape]
      rfl
    · rw [Ty.size, DefinitionOf.size, shape]
      exact Nat.le_refl _

theorem field {name : String} {f : Field Ty} (built : t.Built)
    (hf : t.definition.field? name = some f) :
    f.ty.Built ∧ f.offset + f.ty.size ≤ t.size := by
  obtain ⟨fields, hfields, each, size⟩ := built.row
  have member : f ∈ Definition.layFrom 0 fields := hfields ▸ List.mem_of_find?_eq_some hf
  obtain ⟨⟨x, hx, same⟩, inside⟩ := Definition.mem_layFrom member
  exact ⟨same ▸ each x hx, inside.trans size⟩

theorem fields_apart {a b : String} {f g : Field Ty} (built : t.Built)
    (hf : t.definition.field? a = some f) (hg : t.definition.field? b = some g) (differ : a ≠ b) :
    f.offset + f.ty.size ≤ g.offset ∨ g.offset + g.ty.size ≤ f.offset := by
  obtain ⟨fields, hfields, -, -⟩ := built.row
  have named : f.name = a ∧ g.name = b :=
    ⟨by simpa using List.find?_some hf, by simpa using List.find?_some hg⟩
  have hf : f ∈ Definition.layFrom 0 fields := hfields ▸ List.mem_of_find?_eq_some hf
  have hg : g ∈ Definition.layFrom 0 fields := hfields ▸ List.mem_of_find?_eq_some hg
  refine Definition.before_or_behind hf hg ?_
  rintro rfl
  exact differ (named.1.symm.trans named.2)

theorem followPath_inside {u : Ty} {path : List String} {offset o : Nat} (built : t.Built)
    (h : Assembly.followPath offset t path = some (o, u)) :
    offset ≤ o ∧ o + u.size ≤ offset + t.size := by
  induction path generalizing offset t with
  | nil =>
    cases h
    exact ⟨Nat.le_refl _, Nat.le_refl _⟩
  | cons name path ih =>
    simp only [Assembly.followPath] at h
    cases hf : t.definition.field? name with
    | none => simp [hf] at h
    | some f =>
      rw [hf] at h
      obtain ⟨fieldBuilt, inside⟩ := built.field hf
      obtain ⟨low, high⟩ := ih fieldBuilt h
      omega

/-- Two paths of which neither continues the other end apart. -/
theorem followPath_apart {u u' : Ty} {path path' : List String} {offset o o' : Nat}
    (built : t.Built) (h : Assembly.followPath offset t path = some (o, u))
    (h' : Assembly.followPath offset t path' = some (o', u')) (part : ¬ path <+: path')
    (part' : ¬ path' <+: path) : o + u.size ≤ o' ∨ o' + u'.size ≤ o := by
  induction path generalizing offset t path' with
  | nil => exact absurd List.nil_prefix part
  | cons name path ih =>
    cases path' with
    | nil => exact absurd List.nil_prefix part'
    | cons name' path' =>
      simp only [Assembly.followPath] at h h'
      cases hf : t.definition.field? name with
      | none => simp [hf] at h
      | some f =>
        cases hg : t.definition.field? name' with
        | none => simp [hg] at h'
        | some g =>
          rw [hf] at h
          rw [hg] at h'
          obtain ⟨builtf, -⟩ := built.field hf
          obtain ⟨builtg, -⟩ := built.field hg
          by_cases same : name = name'
          · -- The paths part further down, inside the field that they share.
            subst same
            cases hf.symm.trans hg
            rw [List.cons_prefix_cons] at part part'
            exact ih builtf h h' (fun go => part ⟨rfl, go⟩) fun go => part' ⟨rfl, go⟩
          · -- They part here, and each stays within its own field.
            have apart := built.fields_apart hf hg same
            have within := followPath_inside builtf h
            have within' := followPath_inside builtg h'
            omega

end Built

end Ty

namespace Assembly

theorem exists_followPath_iff {t u : Ty} {path : List String} (offset : Nat) :
    (∃ o, followPath offset t path = some (o, u)) ↔ path.foldlM Typing.fieldType t = .ok u := by
  induction path generalizing offset t with
  | nil => simp [followPath, pure, Except.pure]
  | cons name path ih =>
    rw [List.foldlM_cons, followPath, Typing.fieldType]
    cases t.definition.field? name with
    | none => simp [bind, Except.bind]
    | some f => exact ih (offset + f.offset)

/-- In a variable whose type is built from primitives, handles and records, a path of fields has a
place if each field has a type, and the place has the last of these types. Its bytes, as many as
that type has, are bytes of the variable. The bytes of two paths, neither a continuation of the
other, do not overlap. -/
theorem paths_inside_and_apart (a : Assembly) (name : String) (v : Variable)
    (found : a.find? name = some v) (built : v.ty.Built) :
    (∀ path t, (∃ o, a.place? ⟨name, path⟩ = some (o, t)) ↔
      path.foldlM Typing.fieldType v.ty = .ok t) ∧
    (∀ path o t, a.place? ⟨name, path⟩ = some (o, t) →
      v.offset ≤ o ∧ o + t.size ≤ v.offset + v.ty.size) ∧
    ∀ path path' o o' t t', a.place? ⟨name, path⟩ = some (o, t) →
      a.place? ⟨name, path'⟩ = some (o', t') → ¬ path <+: path' → ¬ path' <+: path →
        o + t.size ≤ o' ∨ o' + t'.size ≤ o := by
  have place : ∀ path, a.place? ⟨name, path⟩ = followPath v.offset v.ty path := by
    intro path
    rw [place?, found]
    rfl
  simp only [place]
  refine ⟨fun path t => exists_followPath_iff v.offset, fun path o t h => ?_, ?_⟩
  · exact built.followPath_inside h
  · intro path path' o o' t t' h h' part part'
    exact built.followPath_apart h h' part part'

def envelope : Ty :=
  let short : Ty := .of (.ofPrimitive "core" .i16)
  let pair : Ty := .of (.ofFields "main" "Pair" ⟨true, true⟩ [("x", short), ("y", short)])
  .of (.ofFields "main" "Envelope" ⟨true, true⟩
    [("front", pair), ("gap", .of (.ofFields "main" "Gap" ⟨true, true⟩ [])),
      ("text", .of (.ofHandle "core" "string")), ("back", pair)])

def holding : Assembly := { start with frames := [⟨0, [⟨"e", envelope, 6⟩]⟩] }

theorem envelope_paths :
    envelope.Built ∧ envelope.size = 16 ∧
      (holding.place? ⟨"e", ["front", "y"]⟩).map (fun p => (p.1, p.2.size)) = some (8, 2) ∧
      (holding.place? ⟨"e", ["gap"]⟩).map (fun p => (p.1, p.2.size)) = some (10, 0) ∧
      (holding.place? ⟨"e", ["text"]⟩).map (fun p => (p.1, p.2.size)) = some (10, 8) ∧
      (∀ path o t, holding.place? ⟨"e", path⟩ = some (o, t) → 6 ≤ o ∧ o + t.size ≤ 22) ∧
      ∀ o o' t t', holding.place? ⟨"e", ["front", "y"]⟩ = some (o, t) →
        holding.place? ⟨"e", ["back", "y"]⟩ = some (o', t') →
          o + t.size ≤ o' ∨ o' + t'.size ≤ o := by
  have short : (Ty.of (.ofPrimitive "core" .i16)).Built := .primitive .i16 rfl
  have pair : (Ty.of (.ofFields "main" "Pair" ⟨true, true⟩
      [("x", .of (.ofPrimitive "core" .i16)), ("y", .of (.ofPrimitive "core" .i16))])).Built :=
    .record _ _ _ _ rfl (by simp [short])
  have built : envelope.Built := by
    refine .record _ _ _ _ rfl ?_
    simp only [List.forall_mem_cons]
    exact ⟨pair, .record _ _ _ _ rfl (by simp), .handle rfl, pair, by simp⟩
  obtain ⟨-, inside, apart⟩ := paths_inside_and_apart holding "e" ⟨"e", envelope, 6⟩ rfl built
  exact ⟨built, rfl, rfl, rfl, rfl, inside,
    fun o o' t t' h h' => apart _ _ o o' t t' h h' (by decide) (by decide)⟩

end Assembly

end Bytescript
