import Mathlib
import Bytescript.Proofs.Course
import Bytescript.Proofs.Lockstep

/-!
# Variables tile the stack

Between two statements the generator counts only the bytes of variables. In the order of
declaration, from the outermost frame inwards, they fill the stack without gaps, and a frame starts
where those around it end. So no two variables overlap, and closing a frame drops what was declared
in it.
-/
namespace Bytescript

def Variable.total (vs : List Variable) : Nat := (vs.map fun v => v.ty.size).sum

theorem Variable.total_cons (v : Variable) (vs : List Variable) :
    total (v :: vs) = v.ty.size + total vs := rfl

/-- The variables of some frames, those of the outermost first, in the order of declaration. -/
def Frame.live (frames : List Frame) : List Variable := frames.reverse.flatMap Frame.declared

theorem Frame.live_cons (f : Frame) (frames : List Frame) :
    live (f :: frames) = live frames ++ f.declared := by
  simp [live]

namespace Row

open Variable

variable {start middle stop : Nat} {vs ws : List Variable}

theorem append (h : Row start vs middle) (g : Row middle ws stop) :
    Row start (vs ++ ws) stop := by
  induction vs generalizing start with
  | nil =>
    obtain rfl : start = middle := h
    exact g
  | cons v vs ih => exact ⟨h.1, ih h.2⟩

theorem stop_eq (h : Row start vs stop) : stop = start + total vs := by
  induction vs generalizing start with
  | nil => exact Eq.symm h
  | cons v vs ih => rw [ih h.2, total_cons, Nat.add_assoc]

theorem offset_eq (h : Row start vs stop) {k : Nat} {v : Variable} (hv : vs[k]? = some v) :
    v.offset = start + total (vs.take k) := by
  induction vs generalizing start k with
  | nil => cases hv
  | cons w vs ih =>
    cases k with
    | zero =>
      cases hv
      exact h.1
    | succ k => rw [ih h.2 hv, List.take_succ_cons, total_cons, Nat.add_assoc]

theorem le_offset (h : Row start vs stop) {v : Variable} (hv : v ∈ vs) : start ≤ v.offset := by
  obtain ⟨k, hk⟩ := List.mem_iff_getElem?.mp hv
  rw [h.offset_eq hk]
  exact Nat.le_add_right ..

theorem pairwise (h : Row start vs stop) :
    vs.Pairwise fun v w => v.offset + v.ty.size ≤ w.offset := by
  induction vs generalizing start with
  | nil => exact .nil
  | cons v vs ih =>
    refine .cons (fun w hw => ?_) (ih h.2)
    rw [h.1]
    exact le_offset h.2 hw

end Row

namespace Tiled

open Variable

variable {frames : List Frame} {n : Nat}

theorem row (h : Tiled frames n) : Row 0 (Frame.live frames) n := by
  induction frames generalizing n with
  | nil => exact Eq.symm h
  | cons f frames ih =>
    rw [Frame.live_cons]
    exact (ih h.2).append h.1

theorem size_eq (h : Tiled frames n) : n = total (Frame.live frames) := by
  rw [h.row.stop_eq, Nat.zero_add]

theorem outer {inner outer : List Frame} {f : Frame} (h : Tiled (inner ++ f :: outer) n) :
    Tiled outer f.entrySize := by
  induction inner generalizing n with
  | nil => exact h.2
  | cons g inner ih => exact ih h.2

end Tiled

/-- The variables of all open frames tile the stack, and closing the innermost frame drops its
variables and no more. -/
structure Assembly.Packed (a : Assembly) : Prop where
  offset : ∀ k v, (Frame.live a.frames)[k]? = some v →
    v.offset = Variable.total ((Frame.live a.frames).take k)
  size : a.stackSize = Variable.total (Frame.live a.frames)
  entry : ∀ inner f outer, a.frames = inner ++ f :: outer →
    f.entrySize = Variable.total (Frame.live outer)
  apart : (Frame.live a.frames).Pairwise fun v w => v.offset + v.ty.size ≤ w.offset
  closing : ∀ f outer, a.frames = f :: outer →
    a.closeFrame = .ok (Variable.total f.declared,
      { a with
        code := a.code ++ (Lowering.drop (Variable.total f.declared)).toArray
        stackSize := f.entrySize
        frames := outer })

theorem Tiled.closeFrame_eq {a : Assembly} (tiled : Tiled a.frames a.stackSize)
    (bound : a.stackSize < wordLimit) {f : Frame} {outer : List Frame}
    (hf : a.frames = f :: outer) :
    a.closeFrame = .ok (Variable.total f.declared,
      { a with
        code := a.code ++ (Lowering.drop (Variable.total f.declared)).toArray
        stackSize := f.entrySize
        frames := outer }) := by
  rw [hf] at tiled
  have size : a.stackSize = f.entrySize + Variable.total f.declared := tiled.1.stop_eq
  have excess : a.stackSize - f.entrySize = Variable.total f.declared := by omega
  unfold Assembly.closeFrame
  rw [hf]
  dsimp only
  rw [excess]
  unfold Lowering.drop
  split_ifs with none
  · rw [none, Nat.add_zero] at size
    simp [← size, bind, Except.bind, pure, Except.pure]
  · have effect := Instruction.effect_pop (n := Variable.total f.declared)
      (Nat.lt_of_le_of_lt (by omega) bound)
    refine (Assembly.paired_eq_ok_iff fun _ => Assembly.emit_eq_ok_iff).mpr ⟨?_, ?_⟩
    · rw [counted_cons, effect]
      exact ⟨⟨by dsimp only; omega, by dsimp only; omega⟩, trivial⟩
    · simp only [Assembly.appended, depthAfter_cons, depthAfter_nil, effect]
      congr 2
      omega

theorem Tiled.packed {a : Assembly} (tiled : Tiled a.frames a.stackSize)
    (bound : a.stackSize < wordLimit) : a.Packed where
  offset := fun k v hv => by rw [tiled.row.offset_eq hv, Nat.zero_add]
  size := tiled.size_eq
  entry := fun inner f outer hf => (hf ▸ tiled : Tiled (inner ++ f :: outer) _).outer.size_eq
  apart := tiled.row.pairwise
  closing := fun _ _ hf => tiled.closeFrame_eq bound hf

/-- Only the effects of instructions matter for whether they can be counted. -/
theorem counted_congr {is js : List Instruction}
    (h : is.map Instruction.effect = js.map Instruction.effect) (n : Nat) :
    Counted n is ↔ Counted n js := by
  induction is generalizing js n with
  | nil =>
    obtain rfl : js = [] := by simpa using h.symm
    rfl
  | cons i is ih =>
    cases js with
    | nil => cases h
    | cons j js =>
      simp only [List.map_cons, List.cons.injEq] at h
      rw [counted_cons, counted_cons, h.1, ih h.2]

/-- The instructions of an assembly can be counted, and its size is their count. -/
structure Assembly.Booked (a : Assembly) : Prop where
  counted : Counted 0 a.code.toList
  depth : depthAfter 0 a.code.toList = a.stackSize

namespace Assembly.Booked

variable {a b : Assembly}

theorem start : Assembly.start.Booked := ⟨trivial, rfl⟩

theorem size_lt (h : a.Booked) : a.stackSize < wordLimit := by
  rw [← h.depth]
  exact h.counted.depthAfter_lt (by decide)

theorem appended (h : a.Booked) {is : List Instruction} (counted : Counted a.stackSize is)
    (pool : Pool) : (a.appended is pool).Booked := by
  constructor
  · simp only [Assembly.appended, Array.toList_append, counted_append]
    exact ⟨h.counted, h.depth ▸ counted⟩
  · simp [Assembly.appended, h.depth]

theorem withBody (h : a.Booked) {c : Lowering.Body} (follows : Lowering.Follows a.scene c)
    (fits : a.Fits c.1 c.2.pool) : (a.withBody c).Booked := by
  have size : c.2.size = depthAfter a.stackSize c.1 := follows.2
  have all := h.appended fits.1 c.2.pool
  exact ⟨all.counted, by rw [Assembly.withBody, size]; exact all.depth⟩

theorem openFrame (h : a.Booked) : a.openFrame.Booked := ⟨h.counted, h.depth⟩

theorem openJump (h : a.Booked) {conditional : Bool} {j : Jump}
    (opened : a.openJump conditional = .ok (j, b)) : b.Booked := by
  obtain ⟨counted, hr⟩ := (paired_eq_ok_iff fun _ => emit_eq_ok_iff).mp opened
  cases hr
  exact h.appended counted a.pool

theorem closeJump (h : a.Booked) {j : Jump} {conditional : Bool}
    (closed : a.closeJump j conditional = .ok b) : b.Booked := by
  cases j with
  | back target =>
    obtain ⟨counted, rfl⟩ := emit_eq_ok_iff.mp closed
    exact h.appended counted a.pool
  | forward slot =>
    obtain ⟨i, hi, kind, rfl⟩ := closeJump_forward_eq_ok_iff.mp closed
    have same : (a.code.setIfInBounds slot (Lowering.jump conditional a.position)).toList.map
        Instruction.effect = a.code.toList.map Instruction.effect := by
      rw [Array.toList_setIfInBounds]
      refine map_effect_set (i := i) (by rw [Array.getElem?_toList, hi]) ?_
      rw [Lowering.effect_of_jump kind, Lowering.effect_jump]
    exact ⟨(counted_congr same 0).mpr h.counted, (depthAfter_congr same 0).trans h.depth⟩

/-- Code that fits is in the code of the assembly where it is appended. -/
theorem stands (h : a.Booked) (is : List Instruction) :
    Lowering.Stands (a.code.toList ++ is) a.scene is := by
  refine ⟨⟨a.code.toList, [], by simp, by simp [scene, position]⟩, ?_⟩
  have taken : (a.code.toList ++ is).take a.code.size = a.code.toList := by simp
  exact (congrArg (depthAfter 0) taken).trans h.depth

theorem depthsFit (h : a.Booked) {is : List Instruction} (counted : Counted a.stackSize is) :
    DepthsFit (a.code.toList ++ is) := by
  have all := (h.appended counted a.pool).counted
  intro k _
  rw [Assembly.appended, Array.toList_append, ← List.take_append_drop k (_ ++ _)] at all
  exact (counted_append.mp all).1.depthAfter_lt (by decide)

end Assembly.Booked

namespace Generate

open Typing Lowering

theorem booked_otherwise {env : Environment} {notes : Notes} {a b c d f g h : Assembly} {e : Expr}
    {v : Value} {slot : Slot} {body : List Stmt} {inner : Body} {skip leaving : Jump} {n : Nat}
    (booked : a.Booked) (low : a.pool.mark < wordLimit)
    (hv : Lowering.expression notes a.frames a.pool e = some v)
    (hi : Lowering.statements env notes (a.scene.after (guarded v 0) v.pool).opened body =
      some inner)
    (tested : Generate.expression notes e a = .ok (slot, b))
    (opened : b.openJump true = .ok (skip, c))
    (done : Generate.statements env notes body c.openFrame = .ok ((), d))
    (finished : d.closeFrame = .ok (n, f)) (leave : f.openJump false = .ok (leaving, g))
    (directed : g.closeJump skip true = .ok h) :
    c.scene = a.scene.after (guarded v 0) v.pool ∧ c.Booked ∧
      Counted c.stackSize (closed inner).1 ∧ h.Booked := by
  obtain ⟨-, fits, rfl⟩ := expression_eq low hv tested
  have booked := (booked.appended fits.1 v.pool).openJump opened
  have scene : c.scene = a.scene.after (guarded v 0) v.pool := by
    rw [(Assembly.scene_openJump opened).2, Assembly.scene_appended]
    simp [Scene.after, guarded, Nat.add_assoc]
  have lower : c.openFrame.pool.mark < wordLimit :=
    (congrArg (fun t : Scene => t.pool.mark) scene).trans_lt fits.2
  rw [← scene, ← Assembly.scene_openFrame] at hi
  obtain ⟨rfl, fitsBody⟩ := statements_eq lower hi done
  have follows := (follows_statement_all env notes).2 _ _ _ hi
  rw [Assembly.withBody_openFrame] at finished
  obtain ⟨k, closes⟩ := Assembly.closeFrame_withBody (a := c) follows fitsBody
  obtain ⟨fitsClosed, hr⟩ := (closes _).mp finished
  cases hr
  exact ⟨scene, booked, fitsClosed.1,
    ((booked.withBody (Follows.closed follows) fitsClosed).openJump leave).closeJump directed⟩

structure Standing (env : Environment) (notes : Notes) (scopes : Scopes) (body : List Stmt)
    (a : Assembly) : Prop extends Underway env notes scopes body a where
  tiled : Tiled a.frames a.stackSize
  booked : a.Booked

namespace Standing

variable {env : Environment} {notes : Notes} {scopes : Scopes} {stmt : Stmt}
  {rest body left : List Stmt} {a b c : Assembly}

theorem ready (h : Standing env notes scopes body a) : Ready env scopes a.scene :=
  ⟨h.agree, h.known, h.tiled⟩

theorem next (h : Standing env notes scopes (stmt :: rest) a) (sound : env.Sound)
    (small : env.Small) (done : Generate.statement env notes stmt a = .ok ((), b)) :
    ∃ after, Standing env notes after rest b := by
  obtain ⟨after, accepted, underway⟩ := h.toUnderway.next sound done
  obtain ⟨-, d, -, -, hd, -⟩ := h.toUnderway.one
  obtain ⟨rfl, fits⟩ := statement_eq h.low hd done
  have follows := (follows_statement_all env notes).1 _ _ _ hd
  have ready : Ready env after d.2 :=
    ((level_statement_all sound small (h.booked.depthsFit fits.1)).1 _ _ _ _ _ accepted h.ready hd
      (h.booked.stands d.1)).1
  exact ⟨after, underway, ready.tiled, h.booked.withBody follows fits⟩

theorem inside (h : Standing env notes scopes (stmt :: rest) a) (sound : env.Sound)
    (small : env.Small) (enters : Enters env notes stmt a body b) :
    Standing env notes ([] :: scopes) body b := by
  have underway := h.toUnderway.inside enters
  obtain ⟨after, d, accepted, -, hd, -⟩ := h.toUnderway.one
  have entered {s : Scene} (scene : b.scene = s.opened) (ready : Ready env scopes s)
      (booked : b.Booked) : Standing env notes ([] :: scopes) body b := by
    have opened : Ready env ([] :: scopes) b.scene := scene ▸ ready.opened
    exact ⟨underway, opened.tiled, booked⟩
  have guarded {e : Expr} {v : Value} {f g : Assembly} {slot : Slot} {jump : Jump}
      (hv : Lowering.expression notes a.frames a.pool e = some v)
      (tested : Generate.expression notes e a = .ok (slot, f))
      (skip : f.openJump true = .ok (jump, g)) : g.Booked := by
    obtain ⟨-, fits, rfl⟩ := expression_eq h.low hv tested
    exact (h.booked.appended fits.1 v.pool).openJump skip
  cases enters with
  | block => exact entered (Assembly.scene_openFrame a) h.ready h.booked.openFrame
  | @branch _ _ _ otherwise _ _ _ _ _ tested skip =>
    cases otherwise with
    | none =>
      obtain ⟨v, e, hv, -, -⟩ := statement_branch hd
      exact entered (scene_guarded h.low hv tested skip).1
        (h.ready.guarded sound small accepted.1 hv) (guarded hv tested skip).openFrame
    | some other =>
      obtain ⟨v, e, f, hv, -, -, -⟩ := statement_branchElse hd
      exact entered (scene_guarded h.low hv tested skip).1
        (h.ready.guarded sound small accepted.1 hv) (guarded hv tested skip).openFrame
  | otherwise tested skip done closed leave directed =>
    obtain ⟨v, e, f, hv, he, hf, -⟩ := statement_branchElse hd
    obtain ⟨condition, ⟨inner, first⟩, -, rfl⟩ := accepted
    obtain ⟨behind, booked, counted, last⟩ :=
      booked_otherwise h.booked h.low hv he tested skip done closed leave directed
    have readyBody := h.ready.guarded sound small condition hv
    have fit := booked.depthsFit counted
    obtain ⟨size, frames, -⟩ := ((level_statement_all sound small fit).2 _).closed fit readyBody
      first he (behind ▸ booked.stands _)
    refine entered (scene_otherwise h.low hv he tested skip done closed leave directed).1
      (h.ready.of_eq ?_ frames) last.openFrame
    rw [← h.ready.size_guarded sound small condition hv, ← size]
    simp [Scene.after]
  | loop tested skip =>
    obtain ⟨v, e, hv, -, -⟩ := statement_loop hd
    exact entered (scene_guarded h.low hv tested skip).1
      (h.ready.guarded sound small accepted.1 hv) (guarded hv tested skip).openFrame

/-- Wherever the generator is between two statements, the variables tile the stack. -/
theorem reaches (h : Standing env notes scopes body a) (sound : env.Sound)
    (small : env.Small) (reached : Reaches env notes body a left c) :
    ∃ inner, Standing env notes inner left c := by
  induction reached generalizing scopes with
  | here => exact ⟨scopes, h⟩
  | inside enters _ ih => exact ih (h.inside sound small enters)
  | next done _ ih =>
    obtain ⟨after, behind⟩ := h.next sound small done
    exact ih behind

end Standing

/-- While the generator works on an accepted program, the live variables tile the stack between any
two statements. It reaches the end of the program or panics. -/
theorem live_variables_tile_stack (automatic : Bool) (p : Program) (env : Environment)
    (issues : List Issue)
    (resolved : Environment.ofProgram .standard automatic p = (some env, issues))
    (distinct : p.Distinct) (clean : Clean (Typing.ofProgram env p))
    (uniform : automatic = true ∨ env.Uniform) (small : env.Small) :
    let notes := (Typing.ofProgram env p).notes
    (∀ c, Passes env notes p.body .start .boundary c → c.Packed) ∧
      ((∃ a, ofProgram env notes p = .ok a) ∨ ∃ q, ofProgram env notes p = .error (.panic q)) := by
  intro notes
  have sound := Environment.sound_of_visible resolved uniform
  have start : Underway env notes [[]] p.body .start := .start sound distinct clean
  have standing : Standing env notes [[]] p.body .start := ⟨start, ⟨rfl, rfl⟩, .start⟩
  constructor
  · intro c passed
    obtain ⟨left, reached⟩ := passed.reaches
    obtain ⟨inner, here⟩ := standing.reaches sound small reached
    exact here.tiled.packed here.booked.size_lt
  · obtain ⟨b, hb⟩ := start.coded
    have made := (statements_make env notes).2 p.body .start (by decide)
    rw [hb] at made
    obtain ⟨-, r, run, -⟩ | ⟨-, q, panics⟩ := made
    · exact Or.inl ⟨r.2, map_eq_ok_iff.mpr ⟨r, run, rfl⟩⟩
    · exact Or.inr ⟨q, congrArg (Except.map Prod.snd) panics⟩

end Generate

namespace Program

open Generate

theorem countdown_tiles_stack :
    ∃ env ∈ (Environment.ofProgram .standard true countdown).1, ∃ a c,
      ofProgram env (Typing.ofProgram env countdown).notes countdown = .ok a ∧ a.stackSize = 4 ∧
      Passes env (Typing.ofProgram env countdown).notes countdown.body .start .boundary c ∧
      c.frames.map (fun f => f.declared.map Variable.name) = [[], ["n"]] ∧ c.Packed := by
  have facts : ∀ env ∈ (Environment.ofProgram .standard true countdown).1,
      Issue.anyAtLeast .error (Typing.ofProgram env countdown).issues = false ∧ env.Small ∧
      (∃ a ∈ (ofProgram env (Typing.ofProgram env countdown).notes countdown).toOption,
        a.stackSize = 4) ∧
      ∃ r ∈ (statements env (Typing.ofProgram env countdown).notes (countdown.body.take 1)
          .start).toOption,
        ∃ e ∈ countdown.body[1]?.bind Stmt.value?,
        ∃ t ∈ (expression (Typing.ofProgram env countdown).notes e r.2).toOption,
        ∃ u ∈ (t.2.openJump true).toOption,
          u.2.openFrame.frames.map (fun f => f.declared.map Variable.name) = [[], ["n"]] := by
    decide +kernel
  obtain ⟨env, he⟩ := Option.isSome_iff_exists.mp
    (show (Environment.ofProgram .standard true countdown).1.isSome by decide +kernel)
  obtain ⟨clean, small, ⟨a, ha, size⟩, ⟨⟨⟩, b⟩, done, _, ⟨⟩, ⟨slot, c⟩, tested, ⟨jump, d⟩, skip,
    names⟩ := facts env he
  obtain ⟨packed, -⟩ := live_variables_tile_stack true countdown env _ (Prod.ext he rfl)
    (by decide +kernel) clean (Or.inl rfl) small
  have passes : Passes env (Typing.ofProgram env countdown).notes countdown.body .start .boundary
      d.openFrame :=
    Passes.after (toOption_eq_some_iff.mp done) (.inside
      (.loop (toOption_eq_some_iff.mp tested) (toOption_eq_some_iff.mp skip)) .here)
  exact ⟨env, he, a, _, toOption_eq_some_iff.mp ha, size, passes, names, packed _ passes⟩

def coveredBool : Program where
  name := some Module.coreName
  imports := [⟨Module.coreName, some "u128", ⟨1, 1⟩⟩]
  records := [⟨"bool", true, [⟨"a", ⟨"u128", [], ⟨2, 1⟩⟩, ⟨2, 1⟩⟩], ⟨2, 1⟩⟩]
  body := [
    .declare ⟨1, 1⟩ "x" (some ⟨"bool", [], ⟨1, 2⟩⟩) (some (.literal ⟨0, ⟨1, 3⟩⟩ (.bool true))),
    .declare ⟨2, 1⟩ "y" (some ⟨"u128", [], ⟨2, 2⟩⟩) none]

/-- Here the types are not uniform, and the second variable overlaps the first. -/
theorem coveredBool_overlaps :
    ∃ env ∈ (Environment.ofProgram .standard false coveredBool).1,
      ¬ env.Uniform ∧ env.Small ∧
      Issue.anyAtLeast .error (Typing.ofProgram env coveredBool).issues = false ∧
      ∃ a ∈ (ofProgram env (Typing.ofProgram env coveredBool).notes coveredBool).toOption,
        a.stackSize = 17 ∧ Variable.total (Frame.live a.frames) = 32 ∧
        (Frame.live a.frames).map Variable.offset = [0, 1] := by
  decide +kernel

end Program

end Bytescript
