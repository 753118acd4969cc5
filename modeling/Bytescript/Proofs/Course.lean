import Mathlib
import Bytescript.Proofs.Gates
import Bytescript.Proofs.Sites

/-!
# The course of the generator

The generator works through a program from statement to statement and into the bodies of statements.
At every such place in an accepted program, the remaining statements are accepted under the scopes
there, the frames agree with these scopes, and there is code for the rest.
-/
namespace Bytescript

open Typing

theorem Environment.sound_of_visible {env : Environment} {issues : List Issue} {automatic : Bool}
    {p : Program} (resolved : Environment.ofProgram .standard automatic p = (some env, issues))
    (uniform : automatic = true ∨ env.Uniform) : env.Sound := by
  rcases uniform with rfl | uniform
  · exact sound_of_standard resolved (uniform_of_automatic resolved)
  · exact sound_of_standard resolved uniform

namespace Generate

/-- The generator, at work on some statements, comes to the rest of a body, from one assembly to
another. -/
inductive Reaches (env : Environment) (notes : Notes) :
    List Stmt → Assembly → List Stmt → Assembly → Prop
  | here {body : List Stmt} {a : Assembly} : Reaches env notes body a body a
  | inside {stmt : Stmt} {rest body left : List Stmt} {a b c : Assembly}
      (enters : Enters env notes stmt a body b) (h : Reaches env notes body b left c) :
      Reaches env notes (stmt :: rest) a left c
  | next {stmt : Stmt} {rest left : List Stmt} {a b c : Assembly}
      (done : statement env notes stmt a = .ok ((), b)) (h : Reaches env notes rest b left c) :
      Reaches env notes (stmt :: rest) a left c

theorem Passes.reaches {env : Environment} {notes : Notes} {body : List Stmt} {a c : Assembly}
    (h : Passes env notes body a .boundary c) : ∃ left, Reaches env notes body a left c := by
  generalize hk : Site.boundary = k at h
  induction h with
  | here => exact ⟨_, .here⟩
  | operator => cases hk
  | inside enters _ ih =>
    obtain ⟨left, reached⟩ := ih hk
    exact ⟨left, .inside enters reached⟩
  | next done _ ih =>
    obtain ⟨left, reached⟩ := ih hk
    exact ⟨left, .next done reached⟩

/-- The state of the generator at work on statements of an accepted program. -/
structure Underway (env : Environment) (notes : Notes) (scopes : Scopes) (body : List Stmt)
    (a : Assembly) : Prop where
  accepted : ∃ after, AcceptedAll env notes scopes body after
  agree : Agree a.frames scopes
  known : KnownScopes env scopes
  coded : ∃ b, Lowering.statements env notes a.scene body = some b
  low : a.pool.mark < wordLimit

namespace Underway

variable {env : Environment} {notes : Notes} {scopes : Scopes} {stmt : Stmt}
  {rest body left : List Stmt} {a b c : Assembly}

theorem one (h : Underway env notes scopes (stmt :: rest) a) :
    ∃ after d, Accepted env notes scopes stmt after ∧
      (∃ last, AcceptedAll env notes after rest last) ∧
      Lowering.statement env notes a.scene stmt = some d ∧
      ∃ e, Lowering.statements env notes d.2 rest = some e := by
  obtain ⟨last, middle, accepted, others⟩ := h.accepted
  obtain ⟨_, hb⟩ := h.coded
  obtain ⟨d, e, hd, he, -⟩ := Lowering.statements_cons hb
  exact ⟨middle, d, accepted, ⟨last, others⟩, hd, e, he⟩

theorem next (h : Underway env notes scopes (stmt :: rest) a) (sound : env.Sound)
    (done : statement env notes stmt a = .ok ((), b)) :
    ∃ after, Accepted env notes scopes stmt after ∧ Underway env notes after rest b := by
  obtain ⟨after, d, accepted, others, hd, he⟩ := h.one
  obtain ⟨scene, fits⟩ := scene_statement h.low hd done
  have low : b.pool.mark < wordLimit :=
    (congrArg (fun s : Scene => s.pool.mark) scene).trans_lt fits.2
  have agree : Agree d.2.frames after :=
    (agree_statement_all env notes).1 _ _ _ _ _ accepted h.agree hd
  rw [← scene] at agree he
  exact ⟨after, accepted, others, agree, accepted.known sound h.known, he, low⟩

theorem inside (h : Underway env notes scopes (stmt :: rest) a)
    (enters : Enters env notes stmt a body b) : Underway env notes ([] :: scopes) body b := by
  obtain ⟨after, d, accepted, -, hd, -⟩ := h.one
  have entered {s : Scene} {e : Lowering.Body} (scene : b.scene = s.opened)
      (frames : s.frames = a.frames) (low : s.pool.mark < wordLimit)
      (inner : ∃ last, AcceptedAll env notes ([] :: scopes) body last)
      (he : Lowering.statements env notes s.opened body = some e) :
      Underway env notes ([] :: scopes) body b := by
    refine ⟨inner, ?_, h.known.opened, ⟨e, scene ▸ he⟩,
      (congrArg (fun s : Scene => s.pool.mark) scene).trans_lt low⟩
    have opened : b.frames = ⟨s.size, []⟩ :: s.frames := congrArg Scene.frames scene
    rw [opened, frames]
    exact h.agree.opened s.size
  cases enters with
  | block =>
    obtain ⟨e, he, -⟩ := Lowering.statement_block hd
    exact entered (Assembly.scene_openFrame a) rfl h.low accepted.1 he
  | @branch _ _ _ otherwise _ _ _ _ _ tested skip =>
    cases otherwise with
    | none =>
      obtain ⟨v, e, hv, he, -⟩ := Lowering.statement_branch hd
      obtain ⟨scene, low⟩ := Lowering.scene_guarded h.low hv tested skip
      exact entered scene rfl low accepted.2.1 he
    | some other =>
      obtain ⟨v, e, -, hv, he, -, -⟩ := Lowering.statement_branchElse hd
      obtain ⟨scene, low⟩ := Lowering.scene_guarded h.low hv tested skip
      exact entered scene rfl low accepted.2.1 he
  | otherwise tested skip done closed leave directed =>
    obtain ⟨v, e, f, hv, he, hf, -⟩ := Lowering.statement_branchElse hd
    obtain ⟨scene, low⟩ :=
      Lowering.scene_otherwise h.low hv he tested skip done closed leave directed
    refine entered scene ?_ low accepted.2.2.1 hf
    rw [((Lowering.framed_statement_all env notes).2 _ _ _ he).closed_eq]
    rfl
  | loop tested skip =>
    obtain ⟨v, e, hv, he, -⟩ := Lowering.statement_loop hd
    obtain ⟨scene, low⟩ := Lowering.scene_guarded h.low hv tested skip
    exact entered scene rfl low accepted.2.1 he

theorem reaches (h : Underway env notes scopes body a) (sound : env.Sound)
    (reached : Reaches env notes body a left c) : ∃ inner, Underway env notes inner left c := by
  induction reached generalizing scopes with
  | here => exact ⟨scopes, h⟩
  | inside enters _ ih => exact ih (h.inside enters)
  | next done _ ih =>
    obtain ⟨after, -, behind⟩ := h.next sound done
    exact ih behind

theorem start {p : Program} (sound : env.Sound) (distinct : p.Distinct)
    (clean : Clean (Typing.ofProgram env p)) :
    Underway env (Typing.ofProgram env p).notes [[]] p.body .start := by
  have unconvertible : ¬ p.HasUnconvertible env := by
    refine Program.not_hasUnconvertible distinct clean fun q _ => ?_
    rw [sound.primitive]
    rfl
  have generated := (Lowering.statements_isSome_iff distinct clean).mpr unconvertible
  exact ⟨ofProgram_accepted distinct clean, .start, (Lowering.Ready.start env).known,
    Option.isSome_iff_exists.mp generated, by decide⟩

end Underway

end Generate

end Bytescript
