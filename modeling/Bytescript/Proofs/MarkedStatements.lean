import Mathlib
import Bytescript.Proofs.MarkedExpressions
import Bytescript.Proofs.Simulation

/-!
# The code of statements keeps truth values

Between two statements the stack has the marks of the variables. The code of a statement leaves the
marks of the variables behind it, a condition is a truth value where it is tested, and jumps lead to
places with the same variables, so the code of statements is marked as a whole.
-/
namespace Bytescript.Lowering

open Evaluation

/-- The data of a script contain some constants, whose offsets fit in 32 bits. -/
structure Loaded (script : Script) (annotations : Annotations) (pool : Pool) : Prop where
  holding : Holding script.data annotations.texts pool
  low : pool.mark < wordLimit

theorem Loaded.of_grows {script : Script} {annotations : Annotations} {pool later : Pool}
    (h : Loaded script annotations later) (grows : pool.Grows later) :
    Loaded script annotations pool :=
  ⟨h.holding.of_grows grows, grows.mark_lt h.low⟩

def computing (notes : Notes) (e : Expr) (s : Scene) : Points :=
  Typing.computing notes e s.position s.frames s.pool

/-- The points of some statements at a scene. -/
def passing (env : Environment) (notes : Notes) (body : List Stmt) (s : Scene) : Points :=
  fun k c => ∃ a : Assembly, a.scene = s ∧ Generate.Passes env notes body a k c

def inside (env : Environment) (notes : Notes) (stmt : Stmt) (s : Scene) : Points :=
  fun k c => (∃ e, stmt.value? = some e ∧ computing notes e s k c) ∨
    ∃ (a b : Assembly) (body : List Stmt), a.scene = s ∧ Generate.Enters env notes stmt a body b ∧
      Generate.Passes env notes body b k c

variable {env : Environment} {notes : Notes} {script : Script} {annotations : Annotations}
  {scopes : Typing.Scopes} {s : Scene} {exits : Exits} {ip n target : Nat} {base top : Marks}

theorem Ready.shown (ready : Ready env scopes s) (marking : env.Marking) {a : Assembly}
    (ha : a.scene = s) : Site.boundary.Shown script (frameMarks s.frames) a := by
  subst ha
  intro f hf v hv n truth
  have hs : f.scope ∈ scopes := by
    rw [ready.agree.scopes_eq]
    exact List.mem_map_of_mem hf
  have hx : (v.name, v.ty) ∈ f.scope := List.mem_map_of_mem (List.mem_reverse.mpr hv)
  have known : env.Known v.ty := ready.known _ hs _ hx
  have hlt := marking.lt_size known truth
  obtain ⟨front, back, hm, ho⟩ := ready.tiled.marks_variable hf hv
  rw [hm, ← ho, List.append_assoc, List.getElem?_append_right (Nat.le_add_right ..),
    Nat.add_sub_cancel_left, List.getElem?_append_left (by rwa [Ty.length_marks])]
  exact (Ty.getElem?_marks hlt).mpr truth

theorem marked_drop (lies : Lies script.code.toList ip (drop n)) (hn : top.length = n)
    (hlt : n < 4294967296) :
    Marked script exits ip (ip + (drop n).length) (base ++ top) base .none := by
  subst hn
  unfold drop at lies ⊢
  split
  · next hz =>
    rw [List.length_eq_zero_iff.mp hz, List.append_nil]
    exact .nil ..
  · next hz =>
    rw [if_neg hz] at lies
    exact .of_carries lies
      (Instruction.target?_eq_none (Instruction.opcode?_worded ..) (by decide))
      (Instruction.carries_pop hlt)

theorem marked_jump (lies : Lies script.code.toList ip [jump false target])
    (hlt : target < 4294967296) (exit : exits target base) :
    Marked script exits ip (ip + 1) base base .none := by
  refine ⟨_, Annotation.covers_single lies (fun tests => ?_) fun capacity bs hb => ?_,
    fun _ _ => False.elim⟩
  · cases (Instruction.opcode?_worded ..).symm.trans tests
  · have flows : (jump false target).Flows capacity script.data bs (.goto target) bs :=
      Instruction.flows_jump hlt bs
    refine flows.unless_fault ?_
    rintro flow t ⟨rfl, rfl⟩ j hj
    cases hj
    exact Or.inr ⟨base, exit, hb⟩

/-- A jump that tests a truth value, to an exit with the marks below it. -/
theorem marked_test (lies : Lies script.code.toList ip [jump true target])
    (hlt : target < 4294967296) (exit : exits target base) :
    Marked script exits ip (ip + 1) (base ++ Primitive.bool.marks) base .none := by
  refine ⟨_, Annotation.covers_single lies (fun _ => ⟨base, rfl⟩) fun capacity bs hb => ?_,
    fun _ _ => False.elim⟩
  obtain ⟨low, x, rfl, hlow, hx⟩ := hb.split
  have flows : (jump true target).Flows capacity script.data (low ++ x) _ low :=
    Instruction.flows_jumpIfFalse hlt hx.length_eq.symm
  refine flows.unless_fault ?_
  rintro flow t ⟨rfl, rfl⟩ j hj
  split at hj
  · cases hj
    exact Or.inl ⟨rfl, hlow⟩
  · cases hj
    exact Or.inr ⟨base, exit, hlow⟩

theorem marked_halt {code : Int32} {after : Marks}
    (lies : Lies script.code.toList ip [.halt code]) :
    Marked script exits ip (ip + 1) base after .none := by
  refine ⟨_, Annotation.covers_single lies (fun tests => ?_) fun capacity bs _ => ?_,
    fun _ _ => False.elim⟩
  · cases (Instruction.opcode?_halt code).symm.trans tests
  · have flows : (Instruction.halt code).Flows capacity script.data bs (.halt code) bs :=
      Instruction.flows_halt code bs
    refine flows.unless_fault ?_
    rintro flow t ⟨rfl, -⟩ j hj
    cases hj

theorem marked_expression (setting : Setting env notes script annotations)
    (marking : env.Marking) (ready : Ready env scopes s) {e : Expr} {note : Note}
    {c : Option Coercion} (has : Typing.Has env notes scopes e note c)
    (plain : Typing.Plain { note with coercion := c }) {v : Value}
    (coded : Typing.Coded env notes scopes s.frames s.pool e v)
    (stands : Stands script.code.toList s v.code)
    (loaded : Loaded script annotations v.pool) :
    Marked script exits s.position (s.position + v.code.length) (frameMarks s.frames)
      (frameMarks s.frames ++ v.ty.marks) (computing notes e s) :=
  has.1.marked marking setting.small ready.known ready.agree ready.tiled (setting.size_lt stands)
    setting.data has.2 plain coded loaded.holding loaded.low stands.1 (List.prefix_refl _)

/-- A value that is coerced to a type has its marks. -/
theorem marked_fitting (setting : Setting env notes script annotations) (marking : env.Marking)
    (ready : Ready env scopes s) {e : Expr} {t : Ty} (fits : Typing.Fits env notes scopes e t)
    (knownTarget : env.Known t) {v : Value} (hv : expression notes s.frames s.pool e = some v)
    (stands : Stands script.code.toList s v.code)
    (loaded : Loaded script annotations v.pool) :
    Marked script exits s.position (s.position + v.code.length) (frameMarks s.frames)
      (frameMarks s.frames ++ t.marks) (computing notes e s) := by
  obtain ⟨coded, -⟩ := fits.coded setting.sound ready.known ready.agree knownTarget hv
  obtain ⟨note, c, has, hc⟩ := fits
  obtain ⟨final, filed, hty⟩ := coded.ty_eq
  cases has.2.symm.trans filed
  have value : Typing.Plain { note with coercion := c } ∧ v.ty.marks = t.marks := by
    rw [hty]
    cases c with
    | none =>
      exact ⟨Typing.plain_none, marking.marks_eq_of_unneeded
        (has.1.known setting.sound ready.known) knownTarget (Typing.coercionTo_ok_none hc)⟩
    | some k =>
      obtain ⟨rfl, needed, implicit⟩ := Typing.coercionTo_ok hc
      refine ⟨fun k hk hb => ?_, rfl⟩
      cases hk
      exact needed (Operand.conversionTo_bool hb (Conversion.ne_impossible implicit))
  rw [← value.2]
  exact marked_expression setting marking ready has value.1 coded stands loaded

theorem marked_initial (setting : Setting env notes script annotations) (marking : env.Marking)
    (ready : Ready env scopes s) {ty : Option TypeRef} {value : Option Expr} {t : Ty}
    (h : Typing.Initial env notes scopes ty value t) {v : Value}
    (hv : initial env notes s ty value = some v) (stands : Stands script.code.toList s v.code)
    (loaded : Loaded script annotations v.pool) :
    Marked script exits s.position (s.position + v.code.length) (frameMarks s.frames)
      (frameMarks s.frames ++ t.marks)
      fun k c => ∃ e, value = some e ∧ computing notes e s k c := by
  have known := h.known setting.sound ready.known
  cases ty with
  | none =>
    cases value with
    | none => exact h.elim
    | some e =>
      obtain ⟨note, has, rfl⟩ := h
      obtain ⟨coded, ht⟩ := has.coded setting.sound ready.known ready.agree hv
      rw [← ht]
      refine (marked_expression setting marking ready has Typing.plain_none coded stands
        loaded).points_of ?_
      rintro k c ⟨_, ⟨⟩, hk⟩
      exact Or.inl hk
  | some written =>
    cases value with
    | none =>
      simp only [initial, h.1, Except.toOption, Option.bind_eq_bind, Option.bind_some,
        Option.pure_def, Option.some.injEq] at hv
      subst hv
      have hsize := setting.small.known known
      have zeros : (Instruction.worded .pushZero t.size).Carries script.data (frameMarks s.frames)
          (frameMarks s.frames ++ t.marks) := by
        rw [← t.length_marks] at hsize ⊢
        exact Instruction.carries_pushZero (by omega)
      refine (Marked.of_carries stands.1
        (Instruction.target?_eq_none (Instruction.opcode?_worded ..) (by decide))
        zeros).points_of ?_
      rintro k c ⟨_, ⟨⟩, -⟩
    | some e =>
      simp only [initial, h.1, Except.toOption, Option.bind_eq_bind, Option.bind_some,
        Option.pure_def] at hv
      obtain ⟨w, hw, rest⟩ := Option.bind_eq_some_iff.mp hv
      cases rest
      refine (marked_fitting setting marking ready (h.2 e rfl) known hw stands loaded).points_of ?_
      rintro k c ⟨_, ⟨⟩, hk⟩
      exact Or.inl hk

theorem marked_guarded (setting : Setting env notes script annotations) (marking : env.Marking)
    (ready : Ready env scopes s) {e : Expr} (tested : Typing.Tested env notes scopes e) {v : Value}
    (hv : expression notes s.frames s.pool e = some v)
    (stands : Stands script.code.toList s (guarded v target)) (hl : target ≤ script.code.size)
    (loaded : Loaded script annotations v.pool)
    (exit : exits target (frameMarks s.frames)) :
    Marked script exits s.position (s.after (guarded v 0) v.pool).position (frameMarks s.frames)
      (frameMarks s.frames) (computing notes e s) := by
  obtain ⟨coded, ht⟩ := tested.coded setting.sound ready.known ready.agree hv
  obtain ⟨note, has, -⟩ := tested
  have hlen := setting.bounded.length
  rw [Array.length_toList] at hlen
  have condition : Marked script exits _ _ _ _ _ :=
    marked_expression setting marking ready has Typing.plain_none coded stands.left loaded
  rw [Ty.marks_of_primitive? ht] at condition
  have hp : (s.after (guarded v 0) v.pool).position = s.position + v.code.length + 1 := by
    simp [Scene.after, guarded, Nat.add_assoc]
  rw [hp]
  exact (condition.append (marked_test stands.1.right (by omega) exit)).points_of
    fun k c h => Or.inl (Or.inl h)

/-- The code of an accepted statement is marked. -/
def Tracks (env : Environment) (notes : Notes) (script : Script) (annotations : Annotations)
    (stmt : Stmt) : Prop :=
  ∀ scopes after s b, Typing.Accepted env notes scopes stmt after → Ready env scopes s →
    statement env notes s stmt = some b → Stands script.code.toList s b.1 →
    Loaded script annotations b.2.pool →
    Marked script .none s.position b.2.position (frameMarks s.frames) (frameMarks b.2.frames)
      (inside env notes stmt s)

def TracksAll (env : Environment) (notes : Notes) (script : Script) (annotations : Annotations)
    (body : List Stmt) : Prop :=
  ∀ scopes after s b, Typing.AcceptedAll env notes scopes body after → Ready env scopes s →
    statements env notes s body = some b → Stands script.code.toList s b.1 →
    Loaded script annotations b.2.pool →
    Marked script .none s.position b.2.position (frameMarks s.frames) (frameMarks b.2.frames)
      (passing env notes body s)

theorem TracksAll.closed {body : List Stmt} (h : TracksAll env notes script annotations body)
    (setting : Setting env notes script annotations) (ready : Ready env scopes s)
    {inner : Typing.Scopes} (accepted : Typing.AcceptedAll env notes ([] :: scopes) body inner)
    {c : Body} (hc : statements env notes s.opened body = some c)
    (stands : Stands script.code.toList s (closed c).1)
    (loaded : Loaded script annotations (closed c).2.pool) :
    Marked script .none s.position (closed c).2.position (frameMarks s.frames)
      (frameMarks s.frames) (passing env notes body s.opened) := by
  have framed := (framed_statement_all env notes).2 _ _ _ hc
  have follows := (follows_statement_all env notes).2 _ _ _ hc
  obtain ⟨more, hframes⟩ := framed ⟨s.size, []⟩ s.frames rfl
  rw [framed.closed_eq] at stands loaded ⊢
  have standsBody : Stands script.code.toList s.opened c.1 := stands.left
  have standsDrop := stands.right (s := s) follows
  obtain ⟨readyInner, -⟩ :=
    (level_statement_all setting.sound setting.small setting.bounded.depth).2
      _ _ _ _ _ accepted ready.opened hc standsBody
  have hlt := setting.size_lt standsDrop
  have tracked := h _ _ _ _ accepted ready.opened hc standsBody loaded
  have hopened : frameMarks s.opened.frames = frameMarks s.frames := by
    simp [Scene.opened, frameMarks]
  -- The frame of the body lies on top, its variables in a row from where the scene's stack ended.
  have tiled := readyInner.tiled
  rw [hframes] at tiled tracked
  have hmarks := tiled.1.length_marks
  rw [hopened] at tracked
  refine (tracked.append (marked_drop standsDrop.1 ?_ (by omega))).points_of
    fun k c hk => Or.inl (Or.inl hk)
  exact Nat.eq_sub_of_add_eq (Nat.add_comm .. ▸ hmarks)

theorem tracks_declare (setting : Setting env notes script annotations) (marking : env.Marking)
    (position : Position) (name : String) (ty : Option TypeRef) (value : Option Expr) :
    Tracks env notes script annotations (.declare position name ty value) := by
  intro scopes after s b accepted ready hb stands loaded
  obtain ⟨t, initial, -⟩ := accepted
  obtain ⟨v, u, hv, hu, rfl⟩ := statement_declare hb
  obtain ⟨frame, rest, hf, -, rfl⟩ := define_eq_some hu
  have hframes : s.frames = frame :: rest := hf
  have whole : Marked script .none _ _ _ _ _ :=
    marked_initial setting marking ready initial hv stands loaded
  have hmarks : frameMarks (⟨frame.entrySize, frame.declared ++
      [⟨name, v.ty, (s.after v.code v.pool).size - v.ty.size⟩]⟩ :: rest) =
      frameMarks s.frames ++ t.marks := by
    rw [hframes, ← initial.ty_eq ready.agree hv]
    simp [frameMarks]
  rw [← hmarks] at whole
  refine whole.points_of ?_
  rintro k c (⟨e, he, hk⟩ | ⟨a, b, body, -, enters, -⟩)
  · exact Or.inl ⟨e, he, hk⟩
  · cases enters

theorem tracks_assign (setting : Setting env notes script annotations) (marking : env.Marking)
    (position : Position) (target : Place) (value : Expr) :
    Tracks env notes script annotations (.assign position target value) := by
  intro scopes after s b accepted ready hb stands loaded
  obtain ⟨⟨t, hp, fits⟩, -⟩ := accepted
  obtain ⟨v, offset, ty, hv, ho, rfl⟩ := statement_assign hb
  have known := Typing.known_of_placeType setting.sound ready.known hp
  obtain ⟨o, ho'⟩ := Typing.placeType_ok ready.agree hp
  cases ho'.symm.trans ho
  have hlt := setting.size_lt stands
  obtain ⟨hle, slice⟩ := ready.tiled.marks_place marking ready.known ready.agree ho
  have hlen := ready.tiled.length_marks
  have assigns : (Instruction.sized .assign t.size offset).Carries script.data
      (frameMarks s.frames ++ t.marks) (frameMarks s.frames) := by
    have hsize := setting.small.known known
    rw [← t.length_marks] at hle hsize slice ⊢
    exact Instruction.carries_assign (by omega) hsize (by omega) slice
  have front : Marked script .none _ _ _ _ _ :=
    marked_fitting setting marking ready fits known hv stands.left loaded
  have straight := Instruction.target?_eq_none
    (Instruction.opcode?_sized .assign t.size offset) (by decide)
  have whole := front.append (.of_carries stands.1.right straight assigns)
  have hp : (s.after (v.code ++ [.sized .assign t.size offset]) v.pool).position =
      s.position + v.code.length + 1 := by
    simp [Scene.after, Nat.add_assoc]
  rw [hp]
  refine whole.points_of ?_
  rintro k c (⟨e, he, hk⟩ | ⟨a, b, body, -, enters, -⟩)
  · cases he
    exact Or.inl (Or.inl hk)
  · cases enters

theorem tracks_discard (setting : Setting env notes script annotations) (marking : env.Marking)
    (position : Position) (value : Expr) :
    Tracks env notes script annotations (.discard position value) := by
  intro scopes after s b accepted ready hb stands loaded
  obtain ⟨⟨note, has⟩, rfl⟩ := accepted
  obtain ⟨v, hv, rfl⟩ := statement_discard hb
  obtain ⟨coded, ht⟩ := has.coded setting.sound ready.known ready.agree hv
  have hsize := setting.small.known (ht ▸ has.1.known setting.sound ready.known : env.Known v.ty)
  have front : Marked script .none _ _ _ _ _ :=
    marked_expression setting marking ready has Typing.plain_none coded stands.left loaded
  have whole := front.append (marked_drop stands.1.right v.ty.length_marks (by omega))
  have hp : (s.after (v.code ++ drop v.ty.size) v.pool).position =
      s.position + v.code.length + (drop v.ty.size).length := by
    simp [Scene.after, Nat.add_assoc]
  rw [hp]
  refine whole.points_of ?_
  rintro k c (⟨e, he, hk⟩ | ⟨a, b, body, -, enters, -⟩)
  · cases he
    exact Or.inl (Or.inl hk)
  · cases enters

theorem tracks_block (setting : Setting env notes script annotations) (position : Position)
    (body : List Stmt) (ih : TracksAll env notes script annotations body) :
    Tracks env notes script annotations (.block position body) := by
  intro scopes after s b accepted ready hb stands loaded
  obtain ⟨⟨inner, acceptedBody⟩, rfl⟩ := accepted
  obtain ⟨c, hc, rfl⟩ := statement_block hb
  rw [frames_closed hc]
  refine (ih.closed setting ready acceptedBody hc stands loaded).points_of ?_
  rintro k c (⟨e, ⟨⟩, -⟩ | ⟨a, b, body, rfl, enters, passes⟩)
  cases enters
  exact Or.inl ⟨_, rfl, passes⟩

def leaving (place : Nat) (marks : Marks) : Exits := fun j m => j = place ∧ m = marks

theorem tracks_branch (setting : Setting env notes script annotations) (marking : env.Marking)
    (position : Position) (condition : Expr) (body : List Stmt)
    (ih : TracksAll env notes script annotations body) :
    Tracks env notes script annotations (.branch position condition body none) := by
  intro scopes after s b accepted ready hb stands loaded
  obtain ⟨tested, ⟨inner, acceptedBody⟩, rfl⟩ := accepted
  have follows := (follows_statement_all env notes).1 _ _ _ hb
  have low := ((grows_statement_all env notes).1 _ _ _ hb).mark_lt loaded.low
  obtain ⟨v, c, hv, hc, rfl⟩ := statement_branch hb
  have hend := stands.end_le follows
  have readyBody := ready.guarded setting.sound setting.small tested hv
  have standsBody := stands.right (follows_guarded s v _)
  have grows := (((simulates_statement_all setting 0).2 body).closed setting readyBody acceptedBody
    hc standsBody).1
  have guard : Marked script (leaving (closed c).2.position (frameMarks s.frames)) _ _ _ _ _ :=
    marked_guarded setting marking ready tested hv stands.left hend (loaded.of_grows grows)
      ⟨rfl, rfl⟩
  have inner := ih.closed setting readyBody acceptedBody hc standsBody loaded
  rw [frames_closed hc]
  refine ((guard.append inner.of_none).settle fun j marks h => Or.inr (Or.inl h)).points_of ?_
  rintro k c (⟨e, ⟨⟩, hk⟩ | ⟨a, b, body, rfl, enters, passes⟩)
  · exact Or.inl (Or.inl hk)
  · cases enters with
    | branch run skip => exact Or.inl (Or.inr ⟨_, (scene_guarded low hv run skip).1, passes⟩)

theorem tracks_branchElse (setting : Setting env notes script annotations) (marking : env.Marking)
    (position : Position) (condition : Expr) (body otherwise : List Stmt)
    (ihb : TracksAll env notes script annotations body)
    (iho : TracksAll env notes script annotations otherwise) :
    Tracks env notes script annotations (.branch position condition body (some otherwise)) := by
  intro scopes after s b accepted ready hb stands loaded
  obtain ⟨tested, ⟨inner, acceptedBody⟩, ⟨outer, acceptedOther⟩, rfl⟩ := accepted
  have follows := (follows_statement_all env notes).1 _ _ _ hb
  have low := ((grows_statement_all env notes).1 _ _ _ hb).mark_lt loaded.low
  obtain ⟨v, c, d, hv, hc, hd, rfl⟩ := statement_branchElse hb
  have hend := stands.end_le follows
  have readyBody := ready.guarded setting.sound setting.small tested hv
  obtain ⟨standsBody, liesJump, standsOther, readyOther, hframes, htarget⟩ :=
    stands.branchElse setting ready tested acceptedBody hv hc hd rfl
  have simulates := (simulates_statement_all setting 0).2
  obtain ⟨growsBody, -⟩ := (simulates body).closed setting readyBody acceptedBody hc standsBody
  obtain ⟨growsOther, -⟩ :=
    (simulates otherwise).closed setting readyOther acceptedOther hd standsOther
  have hlen := setting.bounded.length
  rw [Array.length_toList] at hlen
  have loadedBody := loaded.of_grows growsOther
  -- The condition jumps to the other body, the first body jumps behind it.
  let front := (closed c).2.after [jump false 0] (closed c).2.pool
  let exits : Exits := fun j marks =>
    leaving (closed d).2.position (frameMarks s.frames) j marks ∨
      leaving front.position (frameMarks s.frames) j marks
  have guard : Marked script exits _ _ _ _ _ :=
    marked_guarded setting marking ready tested hv stands.left.left htarget
      (loadedBody.of_grows growsBody) (Or.inr ⟨rfl, rfl⟩)
  have first : Marked script exits _ _ _ _ _ :=
    (ihb.closed setting readyBody acceptedBody hc standsBody loadedBody).of_none
  have leave : Marked script exits _ _ (frameMarks s.frames) _ _ :=
    marked_jump liesJump (by omega) (Or.inl ⟨rfl, rfl⟩)
  have upper : Marked script (leaving (closed d).2.position (frameMarks s.frames)) _ front.position
      _ _ _ :=
    ((guard.append first).append leave).settle fun j marks h => Or.inr h.symm
  have second := iho.closed setting readyOther acceptedOther hd standsOther loaded
  have hmarks : frameMarks front.frames = frameMarks s.frames := congrArg frameMarks hframes
  rw [hmarks] at second
  rw [frames_closed hd, hmarks]
  refine ((upper.append second.of_none).settle fun j marks h => Or.inr (Or.inl h)).points_of ?_
  rintro k c' (⟨e, ⟨⟩, hk⟩ | ⟨a, b, body, rfl, enters, passes⟩)
  · exact Or.inl (Or.inl (Or.inl (Or.inl hk)))
  · cases enters with
    | branch run skip =>
      exact Or.inl (Or.inl (Or.inl (Or.inr ⟨_, (scene_guarded low hv run skip).1, passes⟩)))
    | otherwise run skip done closed leave directed =>
      exact Or.inl (Or.inr
        ⟨_, (scene_otherwise low hv hc run skip done closed leave directed).1, passes⟩)

theorem tracks_loop (setting : Setting env notes script annotations) (marking : env.Marking)
    (position : Position) (condition : Expr) (body : List Stmt)
    (ih : TracksAll env notes script annotations body) :
    Tracks env notes script annotations (.loop position condition body) := by
  intro scopes after s b accepted ready hb stands loaded
  obtain ⟨tested, ⟨inner, acceptedBody⟩, rfl⟩ := accepted
  have follows := (follows_statement_all env notes).1 _ _ _ hb
  have low := ((grows_statement_all env notes).1 _ _ _ hb).mark_lt loaded.low
  obtain ⟨v, c, hv, hc, rfl⟩ := statement_loop hb
  have hend := stands.end_le follows
  have hlen := setting.bounded.length
  rw [Array.length_toList] at hlen
  have followsBody := ((follows_statement_all env notes).2 _ _ _ hc).closed
  dsimp only at stands
  rw [List.append_assoc] at stands
  have readyBody := ready.guarded setting.sound setting.small tested hv
  have standsBody := stands.right (follows_guarded s v _)
  have standsJump := standsBody.right followsBody
  have hstart : s.position ≤ script.code.size :=
    Nat.le_trans (Nat.le_add_right ..) (Array.length_toList ▸ stands.1.le)
  have grows := (((simulates_statement_all setting 0).2 body).closed setting readyBody acceptedBody
    hc standsBody.left).1
  -- Both jumps stay in the code of the loop: one goes to its front, the other to its end.
  let bottom := (closed c).2.after [jump false s.position] (closed c).2.pool
  let exits : Exits := fun j marks =>
    leaving s.position (frameMarks s.frames) j marks ∨
      leaving bottom.position (frameMarks s.frames) j marks
  have guard : Marked script exits _ _ _ _ _ :=
    marked_guarded setting marking ready tested hv stands.left hend (loaded.of_grows grows)
      (Or.inr ⟨rfl, rfl⟩)
  have inner : Marked script exits _ _ _ _ _ :=
    (ih.closed setting readyBody acceptedBody hc standsBody.left loaded).of_none
  have back : Marked script exits _ _ (frameMarks s.frames) _ _ :=
    marked_jump standsJump.1 (by omega) (Or.inl ⟨rfl, rfl⟩)
  have hframes : bottom.frames = s.frames := (frames_closed hc :)
  rw [show frameMarks bottom.frames = frameMarks s.frames from congrArg frameMarks hframes]
  refine (((guard.append inner).append back).settle fun j marks h => ?_).points_of ?_
  · exact h.imp id Or.inl
  · rintro k c (⟨e, ⟨⟩, hk⟩ | ⟨a, b, body, rfl, enters, passes⟩)
    · exact Or.inl (Or.inl (Or.inl hk))
    · cases enters with
      | loop run skip =>
        exact Or.inl (Or.inl (Or.inr ⟨_, (scene_guarded low hv run skip).1, passes⟩))

/-- The code of accepted statements is marked. -/
theorem tracks_statement_all (setting : Setting env notes script annotations)
    (marking : env.Marking) : (∀ stmt, Tracks env notes script annotations stmt) ∧
      ∀ body, TracksAll env notes script annotations body := by
  have cases : Stmt.Cases (Tracks env notes script annotations)
      (TracksAll env notes script annotations) := {
    declare := tracks_declare setting marking
    assign := tracks_assign setting marking
    discard := tracks_discard setting marking
    block := tracks_block setting
    branch := tracks_branch setting marking
    branchElse := tracks_branchElse setting marking
    loop := tracks_loop setting marking
    halt := by
      intro _ code scopes after s b _ _ hb stands _
      cases hb
      refine (marked_halt stands.1).points_of ?_
      rintro k c (⟨e, ⟨⟩, -⟩ | ⟨a, b, body, -, ⟨⟩, -⟩)
    debug := by
      intro _ scopes after s b _ _ hb stands _
      cases hb
      have straight := Instruction.target?_eq_none (Instruction.opcode?_plain .debug) (by decide)
      have carries : (Instruction.plain .debug).Carries script.data (frameMarks s.frames)
          (frameMarks s.frames) :=
        Instruction.carries_of_turns fun _ bs hb => ⟨bs, Instruction.turns_debug bs, hb⟩
      refine (Marked.of_carries stands.1 straight carries).points_of ?_
      rintro k c (⟨e, ⟨⟩, -⟩ | ⟨a, b, body, -, ⟨⟩, -⟩)
    nil := by
      intro scopes after s b _ ready hb _ _
      cases hb
      refine (Marked.nil script .none s.position (frameMarks s.frames)).points_of ?_
      rintro k c ⟨a, rfl, ⟨⟩⟩
      exact Or.inr ⟨rfl, ready.shown marking rfl⟩
    cons := by
      intro stmt rest ihs ihr scopes after s b accepted ready hb stands loaded
      have low := ((grows_statement_all env notes).2 _ _ _ hb).mark_lt loaded.low
      obtain ⟨middle, acceptedOne, acceptedRest⟩ := accepted
      obtain ⟨c, d, hc, hd, rfl⟩ := statements_cons hb
      obtain ⟨readyMiddle, -⟩ :=
        (level_statement_all setting.sound setting.small setting.bounded.depth).1 _ _ _ _ _
          acceptedOne ready hc stands.left
      have standsRest := stands.right ((follows_statement_all env notes).1 _ _ _ hc)
      obtain ⟨grows, -⟩ := (simulates_statement_all setting 0).2 rest _ _ _ _ acceptedRest
        readyMiddle hd standsRest
      have one := ihs _ _ _ _ acceptedOne ready hc stands.left (loaded.of_grows grows)
      have others := ihr _ _ _ _ acceptedRest readyMiddle hd standsRest loaded
      refine (one.append others).points_of ?_
      rintro k c' ⟨a, rfl, passes⟩
      cases passes with
      | here => exact Or.inr ⟨rfl, ready.shown marking rfl⟩
      | operator value applies =>
        exact Or.inl (Or.inl (Or.inl ⟨_, value, a, _, rfl, rfl, rfl, rfl, applies⟩))
      | inside enters passes =>
        exact Or.inl (Or.inl (Or.inr ⟨a, _, _, rfl, enters, passes⟩))
      | next done passes =>
        exact Or.inl (Or.inr ⟨_, (Generate.scene_statement low hc done).1, passes⟩) }
  exact ⟨cases.one, cases.all⟩

end Bytescript.Lowering
