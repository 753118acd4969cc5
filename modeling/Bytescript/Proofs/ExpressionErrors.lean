import Mathlib
import Bytescript.Proofs.TypedCode

/-!
# Errors of expressions

Typing an expression ends without a note exactly if it reports an error. Work on findings is
described by what it adds to them: `Candid` work reports an error exactly if it has no result, and
`Barren` work never has one. An operation is candid if its parts are and its use of their notes is.
-/
namespace Bytescript

mutual

def TypeRef.positions : TypeRef → List Position
  | ⟨_, args, position⟩ => position :: TypeRef.positionsAll args

def TypeRef.positionsAll : List TypeRef → List Position
  | [] => []
  | t :: ts => t.positions ++ TypeRef.positionsAll ts

end

namespace Expr

def ownPositions : Expr → List Position
  | .cast mark _ ty => mark.position :: ty.positions
  | e => [e.position]

/-- The positions of an expression, of all inside it, and of the types that are written there. -/
def positions (e : Expr) : List Position := e.nodes.flatMap ownPositions

theorem positions_eq (e : Expr) : e.positions = e.parts.flatMap ownPositions ++ e.ownPositions := by
  simp [positions, nodes_eq e]

theorem position_mem_ownPositions (e : Expr) : e.position ∈ e.ownPositions := by
  cases e <;> simp [ownPositions, position, mark]

end Expr

mutual

theorem TypeScope.position_of_resolve (scope : TypeScope) :
    ∀ (t : TypeRef) (i : Issue), scope.resolve t = .error i → i.position ∈ t.positions
  | ⟨name, args, position⟩, i, h => by
    simp only [TypeScope.resolve] at h
    split at h
    · cases h
      exact List.mem_cons_self ..
    · split at h
      · cases h
        exact List.mem_cons_self ..
      · cases hr : scope.resolveAll args with
        | error j =>
          rw [hr] at h
          cases h
          exact List.mem_cons_of_mem _ (scope.position_of_resolveAll args _ hr)
        | ok tys =>
          rw [hr] at h
          cases h

theorem TypeScope.position_of_resolveAll (scope : TypeScope) :
    ∀ (ts : List TypeRef) (i : Issue), scope.resolveAll ts = .error i →
      i.position ∈ TypeRef.positionsAll ts
  | [], i, h => by cases h
  | t :: ts, i, h => by
    simp only [TypeScope.resolveAll] at h
    split at h
    · next hr =>
      cases h
      exact List.mem_append_left _ (scope.position_of_resolve t _ hr)
    · cases hr : scope.resolveAll ts with
      | error j =>
        rw [hr] at h
        cases h
        exact List.mem_append_right _ (scope.position_of_resolveAll ts _ hr)
      | ok tys =>
        rw [hr] at h
        cases h

end

theorem Operand.primitive_of_unify {l r : Operand} {u : Unified} (hl : l.ty.primitive?.isSome)
    (hr : r.ty.primitive?.isSome) (h : l.unify r = .ok u) : u.result.primitive?.isSome := by
  rcases unify_ok h with ⟨left, -⟩ | ⟨right, -⟩
  · rwa [left]
  · rwa [right]

namespace Typing

/-- Findings grow by some issues at given positions, and lose no note. -/
structure Extends (places : List Position) (f g : Findings) (added : List Issue) : Prop where
  issues : g.issues = f.issues ++ added
  located : ∀ i ∈ added, i.position ∈ places
  kept : ∀ id, (f.notes.find? id).isSome → (g.notes.find? id).isSome

namespace Extends

variable {ps qs : List Position} {f g h : Findings} {is js : List Issue}

theorem refl (f : Findings) : Extends [] f f [] := ⟨by simp, by simp, fun _ => id⟩

theorem mono (e : Extends ps f g is) (sub : ps ⊆ qs) : Extends qs f g is :=
  ⟨e.issues, fun i hi => sub (e.located i hi), e.kept⟩

theorem trans (d : Extends ps f g is) (e : Extends qs g h js) :
    Extends (ps ++ qs) f h (is ++ js) where
  issues := by rw [e.issues, d.issues, List.append_assoc]
  located := by
    intro i hi
    rcases List.mem_append.mp hi with hi | hi
    · exact List.mem_append_left _ (d.located i hi)
    · exact List.mem_append_right _ (e.located i hi)
  kept id hid := e.kept id (d.kept id hid)

theorem issue (f : Findings) (i : Issue) :
    Extends [i.position] f { f with issues := f.issues ++ [i] } [i] :=
  ⟨rfl, by simp, fun _ => id⟩

theorem insert (f : Findings) (id : UInt32) (note : Note) :
    Extends [] f { f with notes := f.notes.insert id note } [] := by
  refine ⟨by simp, by simp, fun other h => ?_⟩
  simp only [Notes.find?_insert]
  split
  · rfl
  · exact h

theorem convert (f : Findings) (id : UInt32) (target : Ty) (conversion : Conversion) :
    Extends [] f (Typing.convert id target conversion f).2 [] := by
  refine ⟨?_, by simp, fun other h => ?_⟩
  · unfold Typing.convert
    split <;> exact (List.append_nil _).symm
  · rw [convert_apply]
    split
    · rwa [Option.isSome_map]
    · exact h

end Extends

section

variable {α β : Type} {ps qs : List Position} {is js : List UInt32}

/-- Work adds issues at given positions, among them an error exactly if it ends without a result,
and with a result there are notes under given numbers. -/
def Candid (places : List Position) (ids : List UInt32) (m : Typed (Option α)) : Prop :=
  ∀ f, ∃ added, Extends places f (m f).2 added ∧
    ((m f).1.isSome ↔ ∀ i ∈ added, i.severity ≠ .error) ∧
    ((m f).1.isSome → ∀ id ∈ ids, ((m f).2.notes.find? id).isSome)

def Barren (places : List Position) (m : Typed (Option α)) : Prop :=
  ∀ f, (m f).1 = none ∧ ∃ added, Extends places f (m f).2 added

theorem barren_none : Barren ps (pure none : Typed (Option α)) :=
  fun f => ⟨rfl, [], (Extends.refl f).mono (List.nil_subset _)⟩

/-- After a failure the other operand is still typed, but there is no result. -/
theorem Candid.barren {m : Typed (Option α)} {k : Option α → Typed (Option β)}
    (hm : Candid ps is m) (hk : ∀ a, Barren qs (k a)) : Barren (ps ++ qs) (m >>= k) := by
  intro f
  obtain ⟨added, grown, -⟩ := hm f
  obtain ⟨failed, more, further⟩ := hk (m f).1 (m f).2
  exact ⟨failed, added ++ more, grown.trans further⟩

/-- Candid work is followed by candid work on its result, and by barren work without one. -/
theorem Candid.bind {m : Typed (Option α)} {k : Option α → Typed (Option β)}
    (hm : Candid ps is m) (found : ∀ a, Candid qs js (k (some a))) (lost : Barren qs (k none)) :
    Candid (ps ++ qs) (is ++ js) (m >>= k) := by
  intro f
  obtain ⟨added, grown, iff, filed⟩ := hm f
  have run : (m >>= k) f = k (m f).1 (m f).2 := rfl
  rw [run]
  cases hr : (m f).1 with
  | none =>
    rw [hr] at iff
    obtain ⟨failed, more, further⟩ := lost (m f).2
    rw [failed]
    refine ⟨added ++ more, grown.trans further, ?_, by simp⟩
    -- the error that stopped the first part is among the issues
    refine iff_of_false (by simp) fun clean => ?_
    exact Bool.false_ne_true (iff.mpr fun i hi => clean i (List.mem_append_left _ hi))
  | some a =>
    rw [hr] at iff filed
    obtain ⟨more, further, iffRest, filedRest⟩ := found a (m f).2
    have clean := iff.mp rfl
    refine ⟨added ++ more, grown.trans further, iffRest.trans ⟨fun h i hi => ?_, fun h i hi => ?_⟩,
      fun typed id hid => ?_⟩
    · rcases List.mem_append.mp hi with hi | hi
      · exact clean i hi
      · exact h i hi
    · exact h i (List.mem_append_right _ hi)
    · rcases List.mem_append.mp hid with hid | hid
      · exact further.kept id (filed rfl id hid)
      · exact filedRest typed id hid

theorem Candid.after {m : Typed Unit} {n : Typed (Option α)}
    (silent : ∀ f, Extends [] f (m f).2 []) (h : Candid ps is n) :
    Candid ps is (m >>= fun _ => n) := by
  intro f
  obtain ⟨added, grown, rest⟩ := h (m f).2
  exact ⟨added, (silent f).trans grown, rest⟩

theorem candid_issue {i : Issue} (error : i.severity = .error) (place : i.position ∈ ps) :
    Candid ps is (do
      modify fun f => { f with issues := f.issues ++ [i] }
      return none : Typed (Option α)) := by
  intro f
  refine ⟨[i], (Extends.issue f i).mono (by simpa using place), ?_, fun typed => ?_⟩
  · exact iff_of_false Bool.false_ne_true fun clean => clean i (List.mem_singleton_self i) error
  · cases typed

theorem candid_giveUp {p : Problem} {position : Position} (error : p.kind.severity = .error)
    (place : position ∈ ps) : Candid ps is (giveUp p position : Typed (Option α)) :=
  candid_issue (i := p.issueAt position) error place

theorem candid_file (mark : Mark) (note : Note) : Candid ps [mark.id] (file mark note) := by
  intro f
  refine ⟨[], (Extends.insert f mark.id note).mono (List.nil_subset _), ?_, fun _ id hid => ?_⟩
  · exact iff_of_true rfl (by simp)
  · rw [List.mem_singleton.mp hid]
    exact congrArg Option.isSome ((Notes.find?_insert ..).trans (if_pos rfl))

end

section

variable {ps : List Position} {mark : Mark}

theorem candid_fieldFrom (place : mark.position ∈ ps) (name : String) (owner : Note) :
    Candid ps [mark.id] (fieldFrom mark name (some owner)) := by
  unfold fieldFrom
  dsimp only
  split
  · next h => exact candid_giveUp (fieldType_error h) place
  · exact candid_file mark _

theorem candid_binaryFrom (place : mark.position ∈ ps) (env : Environment) (op : BinaryOp)
    (left right : UInt32) (l r : Note) :
    Candid ps [mark.id] (binaryFrom env mark op left right (some l) (some r)) := by
  unfold binaryFrom
  dsimp only
  split
  · next h => exact candid_giveUp (binaryOperands_error h) place
  · refine Candid.after (fun f => Extends.convert f ..) ?_
    exact Candid.after (fun f => Extends.convert f ..) (candid_file mark _)

theorem candid_unaryFrom (place : mark.position ∈ ps) (op : UnaryOp) (note : Note) :
    Candid ps [mark.id] (unaryFrom mark op (some note)) := by
  unfold unaryFrom
  dsimp only
  split
  · next h => exact candid_giveUp (unaryType_error h) place
  · exact candid_file mark _

theorem candid_redundant (place : mark.position ∈ ps) (target : Ty) (note : Note) :
    Candid ps [mark.id] (do
      report (.redundantCast target) mark.position
      file mark note) := by
  intro f
  have candid : Candid [] [mark.id] (file mark note) := candid_file mark note
  obtain ⟨added, grown, iff, filed⟩ := candid (report (.redundantCast target) mark.position f).2
  have hint := Extends.issue f ((Problem.redundantCast target).issueAt mark.position)
  refine ⟨_, (hint.trans grown).mono ?_, iff.trans ?_, filed⟩
  · exact List.cons_subset.mpr ⟨place, List.nil_subset _⟩
  · simp [Problem.issueAt, Issue.severity, Problem.kind, IssueKind.severity, IssueKind.code]

theorem candid_castFrom (place : mark.position ∈ ps) (env : Environment) (operand : UInt32)
    {written : TypeRef} (places : written.positions ⊆ ps) (note : Note) :
    Candid ps [mark.id] (castFrom env mark operand written (some note)) := by
  unfold castFrom
  dsimp only
  split
  · next issue h =>
    exact candid_issue (env.types.resolve_error _ _ h)
      (places (env.types.position_of_resolve _ _ h))
  · split
    · exact candid_giveUp rfl place
    · exact candid_redundant place _ _
    · exact Candid.after (fun f => Extends.convert f ..) (candid_file mark _)

end

/-- Typing any expression is candid about its places and its numbers. -/
theorem candid_expression (env : Environment) (scopes : Scopes) (e : Expr) :
    Candid e.positions e.ids (expression env scopes e) := by
  have own := e.position_mem_ownPositions
  rw [e.positions_eq, e.ids_eq]
  induction e with
  | literal mark value =>
    unfold expression
    split
    · next h => exact candid_giveUp (literalNote_error h) own
    · exact candid_file mark _
  | «variable» mark name =>
    unfold expression
    split
    · exact candid_giveUp rfl own
    · exact candid_file mark _
  | field mark target name ih =>
    rw [expression_field]
    rw [← target.positions_eq, ← target.ids_eq] at ih
    split
    · exact (ih target.position_mem_ownPositions).bind (candid_fieldFrom own name) barren_none
    · exact candid_giveUp rfl (List.mem_append_right _ own)
  | binary mark op left right ihl ihr =>
    rw [expression_binary]
    rw [← left.positions_eq, ← left.ids_eq] at ihl
    rw [← right.positions_eq, ← right.ids_eq] at ihr
    have onLeft := ihl left.position_mem_ownPositions
    have onRight := ihr right.position_mem_ownPositions
    have inside : (Expr.binary mark op left right).parts.flatMap Expr.ownPositions =
        left.positions ++ right.positions := List.flatMap_append
    rw [inside, Expr.partIds_binary, List.append_assoc, List.append_assoc]
    exact onLeft.bind
      (fun l => onRight.bind (candid_binaryFrom own env op left.id right.id l) barren_none)
      (onRight.barren fun _ => barren_none)
  | unary mark op operand ih =>
    rw [expression_unary]
    rw [← operand.positions_eq, ← operand.ids_eq] at ih
    exact (ih operand.position_mem_ownPositions).bind (candid_unaryFrom own op) barren_none
  | cast mark operand written ih =>
    rw [expression_cast]
    rw [← operand.positions_eq, ← operand.ids_eq] at ih
    exact (ih operand.position_mem_ownPositions).bind
      (candid_castFrom own env operand.id (List.subset_cons_self _ _)) barren_none

/-- In every environment, for all scopes and findings: typing an expression adds issues, and it
gives a note exactly if none of them is an error. With a note, there are notes on all parts of the
expression; without one, there is an error, and all issues are at positions of the expression or of
a type in it. Operators on primitive types are rejected for operands that they do not accept, and
never for lack of a primitive common type. The scopes are unchanged. -/
theorem expression_note_iff_no_error (env : Environment) (scopes : Scopes) (e : Expr)
    (f : Findings) :
    let typed := (expression env scopes e).run f
    (∃ added, typed.2.issues = f.issues ++ added ∧
      (typed.1.isSome ↔ ∀ i ∈ added, i.severity ≠ .error) ∧
      (typed.1.isSome → ∀ n ∈ e.nodes, (typed.2.notes.find? n.id).isSome) ∧
      (typed.1 = none → ∃ i ∈ added, i.severity = .error) ∧
      ∀ i ∈ added, ∃ n ∈ e.nodes, i.position ∈ n.ownPositions) ∧
    (∀ l r u, l.ty.primitive?.isSome → r.ty.primitive?.isSome → Operand.unify l r = .ok u →
      u.result.primitive?.isSome) ∧
    ∀ position, (statement env scopes (.discard position e)).run f = (scopes, typed.2) := by
  intro typed
  obtain ⟨added, grown, iff, filed⟩ := candid_expression env scopes e f
  refine ⟨⟨added, grown.issues, iff, fun noted n hn => ?_, fun failed => ?_, fun i hi => ?_⟩,
    fun _ _ _ => Operand.primitive_of_unify, fun _ => rfl⟩
  · exact filed noted n.id (List.mem_map_of_mem hn)
  · by_contra clean
    push Not at clean
    have noted : typed.1.isSome := iff.mpr clean
    rw [failed] at noted
    cases noted
  · exact List.mem_flatMap.mp (grown.located i hi)

end Typing

end Bytescript
