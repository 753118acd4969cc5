import Mathlib
import Bytescript.Proofs.Lowering

/-!
# The generator produces the code in closed form

The generator is a state machine on assemblies that fails where notes are missing, and panics where
an instruction or a constant cannot be counted. Run on an expression, it appends the code of the
expression (`expression_gives`); run on statements, it appends their code with every jump directed
(`statements_make`). It does so exactly if the code and the constants fit.
-/
namespace Bytescript

namespace Assembly

def withBody (a : Assembly) (b : Lowering.Body) : Assembly :=
  ⟨a.code ++ b.1.toArray, b.2.size, b.2.frames, b.2.pool⟩

theorem scene_withBody {a : Assembly} {b : Lowering.Body} (h : Lowering.Follows a.scene b) :
    (a.withBody b).scene = b.2 := by
  obtain ⟨is, position, size, frames, pool⟩ := b
  have hp : position = a.code.size + is.length := h.1
  subst hp
  simp [scene, withBody, Assembly.position]

theorem position_withBody {a : Assembly} {b : Lowering.Body} (h : Lowering.Follows a.scene b) :
    b.2.position = (a.withBody b).position :=
  congrArg Scene.position (scene_withBody h).symm

theorem appended_eq_withBody (a : Assembly) (is : List Instruction) (pool : Pool) :
    a.appended is pool = a.withBody (is, a.scene.after is pool) := rfl

theorem withBody_withBody (a : Assembly) (b c : Lowering.Body) :
    (a.withBody b).withBody c = a.withBody (b.1 ++ c.1, c.2) := by
  simp [withBody]

theorem scene_openFrame (a : Assembly) : a.openFrame.scene = a.scene.opened := rfl

theorem withBody_openFrame (a : Assembly) (b : Lowering.Body) :
    a.openFrame.withBody b = a.withBody b := rfl

/-- The code can be counted behind an assembly, and 32 bits hold the mark of the constants. -/
def Fits (a : Assembly) (is : List Instruction) (pool : Pool) : Prop :=
  Counted a.stackSize is ∧ pool.mark < wordLimit

theorem Fits.shorten {a : Assembly} {is js : List Instruction} {p q : Pool} (h : a.Fits js q)
    (front : is <+: js) (grows : p.Grows q) : a.Fits is p := by
  obtain ⟨rest, rfl⟩ := front
  exact ⟨(counted_append.mp h.1).1, Nat.lt_of_le_of_lt grows.mark_le h.2⟩

theorem fits_append {a : Assembly} {is js : List Instruction} {p q : Pool} (h : a.Fits is p) :
    a.Fits (is ++ js) q ↔ (a.appended is p).Fits js q := by
  simp [Fits, appended, h.1]

theorem fits_withBody {a : Assembly} {b : Lowering.Body} (h : Lowering.Follows a.scene b)
    (fits : a.Fits b.1 b.2.pool) (is : List Instruction) (pool : Pool) :
    (a.withBody b).Fits is pool ↔ a.Fits (b.1 ++ is) pool := by
  have size : (a.withBody b).stackSize = depthAfter a.stackSize b.1 := h.2
  simp [Fits, size, fits.1]

/-- The target of a jump makes no difference to whether code fits. -/
theorem fits_jump {a : Assembly} {is js : List Instruction} {pool : Pool} {conditional : Bool}
    (target other : Nat) :
    a.Fits (is ++ Lowering.jump conditional target :: js) pool ↔
      a.Fits (is ++ Lowering.jump conditional other :: js) pool := by
  simp [Fits]

theorem Fits.of_closed {a : Assembly} {b : Lowering.Body}
    (h : a.Fits (Lowering.closed b).1 (Lowering.closed b).2.pool) : a.Fits b.1 b.2.pool := by
  refine h.shorten ?_ (Lowering.grows_closed (.refl _))
  unfold Lowering.closed
  split
  · exact List.prefix_refl _
  · exact List.prefix_append ..

theorem paired_eq_ok_iff {α : Type} {x : Checked Assembly} {y : α} {p : Prop} {b : Assembly}
    {r : α × Assembly} (h : ∀ c, x = .ok c ↔ p ∧ c = b) :
    (do return (y, ← x) : Checked (α × Assembly)) = .ok r ↔ p ∧ r = (y, b) := by
  rw [bind_eq_ok_iff]
  constructor
  · rintro ⟨c, hc, hr⟩
    obtain ⟨hp, rfl⟩ := (h c).mp hc
    cases hr
    exact ⟨hp, rfl⟩
  · rintro ⟨hp, rfl⟩
    exact ⟨b, (h b).mpr ⟨hp, rfl⟩, rfl⟩

/-- A frame can be closed exactly if the code with the final pop fits. -/
theorem closeFrame_withBody {a : Assembly} {b : Lowering.Body} (h : Lowering.Follows a.scene b)
    (fits : a.Fits b.1 b.2.pool) : ∃ n, ∀ r, (a.withBody b).closeFrame = .ok r ↔
      a.Fits (Lowering.closed b).1 (Lowering.closed b).2.pool ∧
        r = (n, a.withBody (Lowering.closed b)) := by
  have behind := fits_withBody h fits
  obtain ⟨is, position, size, frames, pool⟩ := b
  cases frames with
  | nil => exact ⟨0, fun r => by simp [closeFrame, withBody, Lowering.closed, fits, eq_comm]⟩
  | cons frame rest =>
    refine ⟨size - frame.entrySize, fun r => ?_⟩
    simp only [closeFrame, withBody, Lowering.closed, Lowering.drop]
    by_cases hd : size - frame.entrySize = 0
    · simp [hd, Scene.after, pure, Except.pure, fits, bind, Except.bind, eq_comm]
    · simp only [hd, if_false, pop, Scene.after, ← behind]
      rw [paired_eq_ok_iff fun _ => emit_eq_ok_iff]
      simp [Fits, fits.2, withBody, appended]

theorem openJump_withBody (conditional : Bool) {a : Assembly} {b : Lowering.Body}
    (h : Lowering.Follows a.scene b) (fits : a.Fits b.1 b.2.pool) {r : Jump × Assembly} :
    (a.withBody b).openJump conditional = .ok r ↔
      a.Fits (b.1 ++ [Lowering.jump conditional 0]) b.2.pool ∧
        r = (.forward (a.position + b.1.length),
          a.withBody (b.1 ++ [Lowering.jump conditional noTarget],
            b.2.after [Lowering.jump conditional 0] b.2.pool)) := by
  have same : (a.withBody b).appended [.worded (jumpOpcode conditional) noTarget] b.2.pool =
      a.withBody (b.1 ++ [Lowering.jump conditional noTarget],
        b.2.after [Lowering.jump conditional 0] b.2.pool) := by
    have effect := Lowering.effect_jump conditional
    simp only [Lowering.jump] at effect
    simp [appended, withBody, Scene.after, Lowering.jump, effect]
  rw [fits_jump 0 noTarget, ← fits_withBody h fits, ← same, openJump,
    paired_eq_ok_iff fun _ => emit_eq_ok_iff]
  simp [Fits, fits.2, withBody, position, Lowering.jump]

theorem closeJump_back_withBody {a : Assembly} {b : Lowering.Body}
    (h : Lowering.Follows a.scene b) (fits : a.Fits b.1 b.2.pool) {conditional : Bool}
    {target : Nat} {c : Assembly} :
    (a.withBody b).closeJump (.back target) conditional = .ok c ↔
      a.Fits (b.1 ++ [Lowering.jump conditional target]) b.2.pool ∧
        c = a.withBody (b.1 ++ [Lowering.jump conditional target],
          b.2.after [Lowering.jump conditional target] b.2.pool) := by
  rw [← fits_withBody h fits, closeJump, emit_eq_ok_iff]
  simp [Fits, fits.2, appended, withBody, Scene.after, Lowering.jump]

theorem closeJump_forward_eq_ok_iff {a b : Assembly} {slot : Nat} {conditional : Bool} :
    a.closeJump (.forward slot) conditional = .ok b ↔
      ∃ i, a.code[slot]? = some i ∧ i.opcode? = some (jumpOpcode conditional) ∧
        b = { a with
          code := a.code.setIfInBounds slot (Lowering.jump conditional a.position) } := by
  simp only [closeJump]
  cases a.code[slot]? with
  | none => simp
  | some i =>
    by_cases kind : i.opcode? = some (jumpOpcode conditional)
    · simp [kind, Lowering.jump, eq_comm]
    · simp [kind]

/-- Directing a jump of an appended body replaces it there. -/
theorem closeJump_withBody (a : Assembly) (is js : List Instruction) (t : Scene)
    (conditional : Bool) (before target : Nat)
    (ht : target = (a.withBody (is ++ Lowering.jump conditional before :: js, t)).position) :
    (a.withBody (is ++ Lowering.jump conditional before :: js, t)).closeJump
        (.forward (a.position + is.length)) conditional =
      .ok (a.withBody (is ++ Lowering.jump conditional target :: js, t)) := by
  have found : (a.withBody (is ++ Lowering.jump conditional before :: js, t)).code[
      a.position + is.length]? = some (Lowering.jump conditional before) := by
    simp [withBody, position]
  have op : (Lowering.jump conditional before).opcode? = some (jumpOpcode conditional) := by
    cases conditional <;> rfl
  subst ht
  refine closeJump_forward_eq_ok_iff.mpr ⟨_, found, op, ?_⟩
  simp only [withBody, position]
  congr 1
  apply Array.toList_inj.mp
  simp

end Assembly

namespace Generate

variable {α β γ : Type}

theorem bind_apply (x : Gen α) (f : α → Gen β) (a : Assembly) :
    (x >>= f) a = x a >>= fun r => f r.1 r.2 := rfl

theorem get_bind (f : Assembly → Gen β) (a : Assembly) : (get >>= f) a = f a a := rfl

theorem modify_bind (work : Assembly → Assembly) (f : PUnit → Gen β) (a : Assembly) :
    (modify work >>= f) a = f ⟨⟩ (work a) := rfl

theorem change_apply {work : Assembly → Checked Assembly} {a b : Assembly} (h : work a = .ok b) :
    change work a = .ok ((), b) := by
  simp [change, act, h, Except.map, Except.mapError]

/-- The outcome of a run of the generator with an expected result: an error if there is none, a
panic if it does not fit, and otherwise a result related to it. -/
def Ends (run : Except Failure (α × Assembly)) (fits : β → Prop) (goes : β → α × Assembly → Prop) :
    Option β → Prop
  | none => ∃ e, run = .error e
  | some x => fits x ∧ (∃ r, run = .ok r ∧ goes x r) ∨ ¬ fits x ∧ ∃ q, run = .error (.panic q)

namespace Ends

variable {a : Assembly} {fits : β → Prop} {goes : β → α × Assembly → Prop} {o : Option β}

theorem ok {x : β} {r : α × Assembly} (hx : fits x) (hr : goes x r) :
    Ends (.ok r) fits goes (some x) :=
  Or.inl ⟨hx, r, rfl, hr⟩

theorem panic {q : Panic} (h : ∀ x, o = some x → ¬ fits x) :
    Ends (.error (.panic q)) fits goes o := by
  cases o with
  | none => exact ⟨_, rfl⟩
  | some x => exact Or.inr ⟨h x rfl, q, rfl⟩

/-- One run after another. If the final result fits, so do those before it. -/
theorem bind {x : Gen γ} {f : γ → Gen α} {δ : Type} {begun : δ → Prop}
    {leads : δ → γ × Assembly → Prop} {first : Option δ} {g : δ → Option β}
    (hx : Ends (x a) begun leads first)
    (hf : ∀ y r, first = some y → begun y → leads y r → Ends (f r.1 r.2) fits goes (g y))
    (back : ∀ y z, first = some y → g y = some z → fits z → begun y) :
    Ends ((x >>= f) a) fits goes (first.bind g) := by
  rw [bind_apply]
  cases first with
  | none =>
    obtain ⟨e, he⟩ := hx
    rw [he]
    exact ⟨e, rfl⟩
  | some y =>
    obtain ⟨hy, r, hr, led⟩ | ⟨hy, q, hq⟩ := hx
    · rw [hr]
      exact hf y r rfl hy led
    · rw [hq]
      exact panic fun z hz fitted => hy (back y z rfl hz fitted)

theorem need_bind {x : Option γ} {f : γ → Gen α} {g : γ → Option β}
    (h : ∀ y, x = some y → Ends (f y a) fits goes (g y)) :
    Ends ((need x >>= f) a) fits goes (x.bind g) := by
  cases x with
  | none => exact ⟨_, rfl⟩
  | some y => exact h y rfl

theorem act_bind {work : Assembly → Checked (γ × Assembly)} {f : γ → Gen α} {p : Prop}
    {r : γ × Assembly} (hw : ∀ r', work a = .ok r' ↔ p ∧ r' = r)
    (hf : p → Ends (f r.1 r.2) fits goes o) (back : ∀ z, o = some z → fits z → p) :
    Ends ((act work >>= f) a) fits goes o := by
  rw [bind_apply, act]
  by_cases hp : p
  · rw [(hw r).mpr ⟨hp, rfl⟩]
    exact hf hp
  · cases h : work a with
    | ok r' => exact absurd ((hw r').mp h).1 hp
    | error q => exact panic fun z hz fitted => hp (back z hz fitted)

theorem change_bind {work : Assembly → Checked Assembly} {f : Unit → Gen α} {p : Prop}
    {b : Assembly} (hw : ∀ b', work a = .ok b' ↔ p ∧ b' = b)
    (hf : p → Ends (f () b) fits goes o) (back : ∀ z, o = some z → fits z → p) :
    Ends ((change work >>= f) a) fits goes o := by
  refine act_bind (r := ((), b)) (fun r' => ?_) hf back
  rw [map_eq_ok_iff]
  simp [hw, eq_comm]

theorem of_fits {run : Except Failure (α × Assembly)} {x : β} (h : Ends run fits goes (some x))
    (hx : fits x) : ∃ r, run = .ok r ∧ goes x r := by
  obtain ⟨-, r, hr, led⟩ | ⟨unfit, -⟩ := h
  · exact ⟨r, hr, led⟩
  · exact absurd hx unfit

theorem of_ok {run : Except Failure (α × Assembly)} {x : β} {r : α × Assembly}
    (h : Ends run fits goes (some x)) (hr : run = .ok r) : fits x ∧ goes x r := by
  obtain ⟨hx, r', hr', led⟩ | ⟨-, q, hq⟩ := h
  · cases hr.symm.trans hr'
    exact ⟨hx, led⟩
  · cases hr.symm.trans hq

end Ends

abbrev Gives (run : Except Failure (Slot × Assembly)) (a : Assembly) :
    Option Lowering.Value → Prop :=
  Ends run (fun v => a.Fits v.code v.pool) fun v r =>
    ∃ address, r = (⟨address, v.ty, []⟩, a.appended v.code v.pool)

theorem fits_of_settle {a : Assembly} {note : Note} {v w : Lowering.Value}
    (h : Lowering.settle note w = some v) (fits : a.Fits v.code v.pool) :
    a.Fits w.code w.pool := by
  obtain ⟨cs, -, rfl⟩ := Option.map_eq_some_iff.mp h
  exact fits.shorten (List.prefix_append ..) (.refl _)

theorem flush_gives (address : Address) {a : Assembly} {v : Lowering.Value} {slot : Slot} {ty : Ty}
    {cs : List Instruction} (fits : a.Fits v.code v.pool) (hs : slot = ⟨address, v.ty, cs⟩) :
    Gives ((act (fun a => a.flush slot) >>= fun slot => pure { slot with ty })
      (a.appended v.code v.pool)) a (some ⟨ty, v.code ++ cs, v.pool⟩) := by
  subst hs
  refine Ends.act_bind (fun r => Assembly.paired_eq_ok_iff fun _ => Assembly.emitAll_eq_ok_iff)
    (fun counted => ?_) fun z hz fitted => ?_
  · have fitted := (Assembly.fits_append fits).mpr ⟨counted, fits.2⟩
    exact Ends.ok fitted ⟨address, by rw [Assembly.pool_appended, Assembly.appended_appended]⟩
  · cases hz
    exact ((Assembly.fits_append fits).mp fitted).1

theorem settle_gives {a : Assembly} {address : Address} {v : Lowering.Value} (note : Note)
    (fits : a.Fits v.code v.pool) :
    Gives (settle note ⟨address, v.ty, []⟩ (a.appended v.code v.pool)) a
      (Lowering.settle note v) := by
  unfold settle Lowering.settle Lowering.coercion Lowering.settledType
  cases note.coercion with
  | none => exact Ends.ok (by simpa using fits) ⟨address, by simp⟩
  | some c =>
    simp only [Option.map_bind, Function.comp_def, Option.map_map]
    refine Ends.need_bind fun source _ => ?_
    rw [Option.map_eq_bind]
    refine Ends.need_bind fun target _ => ?_
    refine flush_gives address fits ?_
    cases c.conversion.instruction? source target <;> rfl

theorem emit_gives {a : Assembly} {work : Assembly → Checked (Slot × Assembly)}
    {v : Lowering.Value} (address : Address) (note : Note)
    (hw : ∀ r, work a = .ok r ↔
      a.Fits v.code v.pool ∧ r = (⟨address, v.ty, []⟩, a.appended v.code v.pool)) :
    Gives ((act work >>= settle note) a) a (Lowering.settle note v) :=
  Ends.act_bind hw (fun fitted => settle_gives note fitted) fun _ hz => fits_of_settle hz

theorem read_gives {a : Assembly} (low : a.pool.mark < wordLimit) (note : Note) (p : Place) :
    Gives ((read p >>= settle note) a) a
      ((Lowering.read a.frames a.pool p).bind (Lowering.settle note)) := by
  have hp : a.place? p = Lowering.place? a.frames p := rfl
  have start : (read p >>= settle note) a =
      (need (Lowering.place? a.frames p) >>= fun found =>
        act (fun a => a.pushStack found.1 found.2) >>= settle note) a := by
    simp only [read, bind_assoc, ← hp]
    rfl
  rw [start, Lowering.read, Option.bind_map]
  refine Ends.need_bind fun found _ => ?_
  refine emit_gives (.stack a.stackSize) note fun r => ?_
  rw [Assembly.pushStack, Assembly.paired_eq_ok_iff fun _ => Assembly.emit_eq_ok_iff]
  simp [Assembly.Fits, low, Assembly.slotAt]

theorem pushConstant_eq_ok_iff {a : Assembly} (low : a.pool.mark < wordLimit) {c : Constant}
    {ty : Ty} {r : Slot × Assembly} :
    a.pushConstant c ty = .ok r ↔
      a.Fits (Lowering.literal a.pool c ty).code (Lowering.literal a.pool c ty).pool ∧
        r = (Assembly.slotAt a.stackSize ty,
          a.appended (Lowering.literal a.pool c ty).code (Lowering.literal a.pool c ty).pool) := by
  rw [Assembly.pushConstant, bind_eq_ok_iff]
  simp only [Pool.add_eq_ok_iff low, Assembly.Fits, Lowering.literal]
  constructor
  · rintro ⟨-, ⟨stored, rfl⟩, pushed⟩
    obtain ⟨counted, rfl⟩ :=
      (Assembly.paired_eq_ok_iff fun _ => Assembly.emit_eq_ok_iff).mp pushed
    exact ⟨⟨counted, stored⟩, rfl⟩
  · rintro ⟨⟨counted, stored⟩, rfl⟩
    exact ⟨_, ⟨stored, rfl⟩,
      (Assembly.paired_eq_ok_iff fun _ => Assembly.emit_eq_ok_iff).mpr ⟨counted, rfl⟩⟩

theorem operate_gives {a : Assembly} {is : List Instruction} {pool : Pool} (fits : a.Fits is pool)
    (note : Note) (operands : Nat) (op : Opcode) (p : Primitive) :
    Gives ((act (fun a => a.operate operands op p note.ty) >>= settle note) (a.appended is pool)) a
      (Lowering.settle note ⟨note.ty, is ++ [Lowering.operation op p], pool⟩) := by
  refine Ends.act_bind (fun r => Assembly.paired_eq_ok_iff fun _ => Assembly.emit_eq_ok_iff)
    (fun counted => ?_) fun z hz fitted => ?_
  · have fitted := (Assembly.fits_append fits).mpr ⟨counted, fits.2⟩
    rw [Assembly.pool_appended, Assembly.appended_appended]
    exact settle_gives note fitted
  · exact ((Assembly.fits_append fits).mp (fits_of_settle hz fitted)).1

/-- The generator produces the code of every expression. -/
theorem expression_gives (notes : Notes) (e : Expr) {a : Assembly} (low : a.pool.mark < wordLimit) :
    Gives (expression notes e a) a (Lowering.expression notes a.frames a.pool e) := by
  induction e generalizing a with
  | literal mark value =>
    refine Ends.need_bind fun note _ => Ends.need_bind fun c _ => ?_
    exact emit_gives (.stack a.stackSize) note fun _ => pushConstant_eq_ok_iff low
  | «variable» mark name => exact Ends.need_bind fun note _ => read_gives low note ⟨name, []⟩
  | field mark target name ih =>
    exact Ends.need_bind fun note _ => Ends.need_bind fun p _ => read_gives low note p
  | binary mark op left right ihl ihr =>
    refine Ends.need_bind fun note _ => Ends.bind (ihl low) (fun l r hl fitsLeft led => ?_) ?_
    · obtain ⟨address, rfl⟩ := led
      refine Ends.bind (ihr fitsLeft.2) (fun w r' hw fitsRight led => ?_) ?_
      · obtain ⟨address', rfl⟩ := led
        have fits := (Assembly.fits_append fitsLeft).mpr fitsRight
        refine Ends.need_bind fun p _ => ?_
        dsimp only
        rw [Assembly.appended_appended]
        exact operate_gives fits note 2 _ p
      · intro w v hw hv fitted
        obtain ⟨p, -, settled⟩ := Option.bind_eq_some_iff.mp hv
        have all := fits_of_settle settled fitted
        exact (Assembly.fits_append fitsLeft).mp (all.shorten (List.prefix_append ..) (.refl _))
    · intro l v hl hv fitted
      simp only [Option.bind_eq_bind, Option.bind_eq_some_iff] at hv
      obtain ⟨w, hw, p, -, settled⟩ := hv
      have all := fits_of_settle settled fitted
      have grows := Lowering.grows_expression hw
      refine all.shorten ?_ grows
      rw [List.append_assoc]
      exact List.prefix_append ..
  | unary mark op operand ih =>
    refine Ends.need_bind fun note _ => Ends.bind (ih low) (fun v r hv fits led => ?_) ?_
    · obtain ⟨address, rfl⟩ := led
      exact Ends.need_bind fun p _ => operate_gives fits note 1 _ p
    · intro w v hw hv fitted
      obtain ⟨p, -, settled⟩ := Option.bind_eq_some_iff.mp hv
      exact (fits_of_settle settled fitted).shorten (List.prefix_append ..) (.refl _)
  | cast mark operand ty ih =>
    refine Ends.need_bind fun note _ => Ends.bind (ih low) (fun v r hv fits led => ?_) ?_
    · obtain ⟨address, rfl⟩ := led
      exact settle_gives (v := ⟨note.ty, v.code, v.pool⟩) note fits
    · intro w v hw settled fitted
      have all := fits_of_settle settled fitted
      exact all

theorem initial_gives (env : Environment) (notes : Notes) (ty : Option TypeRef)
    (value : Option Expr) {a : Assembly} (low : a.pool.mark < wordLimit) :
    Ends (initial env notes ty value a) (fun v => a.Fits v.code v.pool)
      (fun v r => r = (v.ty, a.appended v.code v.pool))
      (Lowering.initial env notes a.scene ty value) := by
  match ty, value with
  | none, none => exact ⟨_, rfl⟩
  | none, some e =>
    rw [Lowering.initial, ← Option.bind_fun_some (Lowering.expression notes a.scene.frames _ e)]
    refine Ends.bind (expression_gives notes e low) (fun v r _ fits led => ?_) ?_
    · obtain ⟨address, rfl⟩ := led
      exact Ends.ok fits rfl
    · intro v w _ hw fitted
      cases hw
      exact fitted
  | some written, some e =>
    refine Ends.need_bind fun ty _ => ?_
    refine Ends.bind (expression_gives notes e low) (fun v r _ fits led => ?_) ?_
    · obtain ⟨address, rfl⟩ := led
      exact Ends.ok fits rfl
    · intro v w _ hw fitted
      cases hw
      exact fitted
  | some written, none =>
    refine Ends.need_bind fun ty _ => ?_
    refine Ends.act_bind (fun r => Assembly.paired_eq_ok_iff fun _ => Assembly.emit_eq_ok_iff)
      (fun counted => ?_) fun z hz fitted => ?_
    · exact Ends.ok ⟨counted, low⟩ rfl
    · cases hz
      exact fitted.1

theorem define_ends (name : String) (ty : Ty) (a : Assembly) :
    Ends (define name ty a) (fun _ => True) (fun t r => r = ((), a.withBody ([], t)))
      (Lowering.define a.scene name ty) := by
  obtain ⟨code, size, frames, pool⟩ := a
  cases frames with
  | nil => exact ⟨_, rfl⟩
  | cons frame rest =>
    simp only [define, Assembly.define, Lowering.define, Assembly.scene]
    by_cases h : (frame.find? name).isSome
    · simp only [h, if_true]
      exact ⟨_, rfl⟩
    · simp only [h, Bool.false_eq_true, if_false]
      exact Ends.ok trivial (by simp [Assembly.withBody])

abbrev Appends (run : Except Failure (Unit × Assembly)) (a : Assembly) :
    Option Lowering.Body → Prop :=
  Ends run (fun b => a.Fits b.1 b.2.pool) fun b r => r = ((), a.withBody b)

/-- The generator produces the code of a body of statements. -/
def Makes (env : Environment) (notes : Notes) (body : List Stmt) : Prop :=
  ∀ a : Assembly, a.pool.mark < wordLimit →
    Appends (statements env notes body a) a (Lowering.statements env notes a.scene body)

def MakesOne (env : Environment) (notes : Notes) (s : Stmt) : Prop :=
  ∀ a : Assembly, a.pool.mark < wordLimit →
    Appends (statement env notes s a) a (Lowering.statement env notes a.scene s)

section

variable {env : Environment} {notes : Notes} {body otherwise : List Stmt} {a : Assembly}

-- The equations of the generator take seconds to derive: this does it once, for all lemmas below.
attribute [local simp] statement

theorem makes_declare (position : Position) (name : String) (ty : Option TypeRef)
    (value : Option Expr) : MakesOne env notes (.declare position name ty value) := by
  intro a low
  simp only [statement, Lowering.statement, Option.bind_eq_bind]
  refine Ends.bind (initial_gives env notes ty value low) (fun v r _ fits led => ?_) ?_
  · subst led
    have hs : (a.appended v.code v.pool).scene = a.scene.after v.code v.pool :=
      Assembly.scene_withBody (Lowering.follows_after _ _ _)
    have defined := define_ends name v.ty (a.appended v.code v.pool)
    rw [hs] at defined
    cases ht : Lowering.define (a.scene.after v.code v.pool) name v.ty with
    | none =>
      rw [ht] at defined
      exact defined
    | some t =>
      rw [ht] at defined
      obtain ⟨-, r, hr, rfl⟩ | ⟨unfit, -⟩ := defined
      · obtain ⟨frame, rest, -, -, rfl⟩ := Lowering.define_eq_some ht
        refine Or.inl ⟨fits, _, hr, ?_⟩
        simp [Assembly.appended_eq_withBody, Assembly.withBody_withBody]
      · exact absurd trivial unfit
  · intro v b _ hb fitted
    obtain ⟨t, ht, hb⟩ := Option.bind_eq_some_iff.mp hb
    obtain ⟨frame, rest, -, -, rfl⟩ := Lowering.define_eq_some ht
    cases hb
    exact fitted

theorem makes_assign (position : Position) (target : Place) (value : Expr) :
    MakesOne env notes (.assign position target value) := by
  intro a low
  simp only [statement, Lowering.statement, Option.bind_eq_bind]
  refine Ends.bind (expression_gives notes value low) (fun v r _ fits led => ?_) ?_
  · obtain ⟨address, rfl⟩ := led
    rw [get_bind]
    refine Ends.need_bind fun found _ => ?_
    rw [← bind_pure (change _)]
    refine Ends.change_bind (fun _ => Assembly.emit_eq_ok_iff) (fun counted => ?_)
      fun b hb fitted => ?_
    · refine Ends.ok ((Assembly.fits_append fits).mpr ⟨counted, fits.2⟩) ?_
      rw [Assembly.pool_appended, Assembly.appended_appended]
      rfl
    · cases hb
      exact ((Assembly.fits_append fits).mp fitted).1
  · intro v b _ hb fitted
    obtain ⟨found, -, hb⟩ := Option.bind_eq_some_iff.mp hb
    cases hb
    exact fitted.shorten (List.prefix_append ..) (.refl _)

theorem makes_discard (position : Position) (value : Expr) :
    MakesOne env notes (.discard position value) := by
  intro a low
  simp only [statement, Lowering.statement, Option.bind_eq_bind]
  refine Ends.bind (expression_gives notes value low) (fun v r _ fits led => ?_) ?_
  · obtain ⟨address, rfl⟩ := led
    rw [← bind_pure (change _)]
    have dropped : ∀ b, (a.appended v.code v.pool).discard ⟨address, v.ty, []⟩ = .ok b ↔
        Counted (depthAfter a.stackSize v.code) (Lowering.drop v.ty.size) ∧
          b = a.appended (v.code ++ Lowering.drop v.ty.size) v.pool := by
      intro b
      unfold Assembly.discard Lowering.drop Slot.size
      split
      · simp [eq_comm]
      · rw [Assembly.pop, Assembly.emit_eq_ok_iff, Assembly.pool_appended,
          Assembly.appended_appended]
        rfl
    refine Ends.change_bind dropped (fun counted => ?_) fun b hb fitted => ?_
    · exact Ends.ok ((Assembly.fits_append fits).mpr ⟨counted, fits.2⟩) rfl
    · cases hb
      exact ((Assembly.fits_append fits).mp fitted).1
  · intro v b _ hb fitted
    cases hb
    exact fitted.shorten (List.prefix_append ..) (.refl _)

/-- A body in a frame of its own, behind some code. What follows the frame fits only if the body
with the final pop does. -/
theorem Makes.scoped {f : Unit → Gen Unit} {fits : β → Prop}
    {goes : β → Unit × Assembly → Prop} {g : Lowering.Body → Option β} {p : Lowering.Body}
    (hm : Makes env notes body) (hp : Lowering.Follows a.scene p) (before : a.Fits p.1 p.2.pool)
    (hf : ∀ b, Lowering.Follows p.2 b → a.Fits (p.1 ++ b.1) b.2.pool →
      Ends (f () (a.withBody (p.1 ++ b.1, b.2))) fits goes (g b))
    (back : ∀ b z, g b = some z → fits z → (a.withBody p).Fits b.1 b.2.pool) :
    Ends ((modify Assembly.openFrame >>= fun _ => statements env notes body >>= fun _ =>
      closeFrame >>= f) (a.withBody p)) fits goes
      (((Lowering.statements env notes p.2.opened body).map Lowering.closed).bind g) := by
  have hs : (a.withBody p).openFrame.scene = p.2.opened := by
    rw [Assembly.scene_openFrame, Assembly.scene_withBody hp]
  have made := hm (a.withBody p).openFrame before.2
  rw [hs] at made
  rw [modify_bind, Option.bind_map]
  refine Ends.bind made (fun b r hb fitsBody led => ?_) ?_
  · subst led
    have hb := (Lowering.follows_statement_all env notes).2 body _ b hb
    have follows : Lowering.Follows (a.withBody p).scene b := by
      rw [Assembly.scene_withBody hp]
      exact hb
    obtain ⟨n, closes⟩ := Assembly.closeFrame_withBody follows fitsBody
    have unit : closeFrame >>= f = act Assembly.closeFrame >>= fun _ => f () := by
      rw [closeFrame, bind_assoc]
      rfl
    rw [Assembly.withBody_openFrame, unit]
    refine Ends.act_bind closes (fun fitsClosed => ?_) fun z hz fitted => ?_
    · dsimp only
      rw [Assembly.withBody_withBody]
      refine hf _ (Lowering.Follows.closed hb) ?_
      exact (Assembly.fits_withBody hp before _ _).mp fitsClosed
    · exact back _ z hz fitted
  · exact fun b z _ hz fitted => (back _ z hz fitted).of_closed

theorem Makes.block (ih : Makes env notes body) (position : Position) :
    MakesOne env notes (.block position body) := by
  intro a low
  simp only [statement, Lowering.statement]
  rw [← bind_pure closeFrame, ← Option.bind_fun_some (Option.map ..)]
  refine ih.scoped (p := ([], a.scene)) ⟨rfl, rfl⟩ ⟨trivial, low⟩ (fun b _ fits => ?_) ?_
  · exact Ends.ok fits rfl
  · intro b z hz fitted
    cases hz
    exact fitted

theorem guard_bind {f : Jump → Gen Unit} {e : Expr} {fits : β → Prop}
    {goes : β → Unit × Assembly → Prop} {g : Lowering.Value → Option β}
    (low : a.pool.mark < wordLimit)
    (hf : ∀ v, a.Fits (Lowering.guarded v 0) v.pool →
      Ends (f (.forward (a.position + v.code.length))
        (a.withBody (Lowering.guarded v Assembly.noTarget,
          a.scene.after (Lowering.guarded v 0) v.pool))) fits goes (g v))
    (back : ∀ v z, g v = some z → fits z → a.Fits (Lowering.guarded v 0) v.pool) :
    Ends ((expression notes e >>= fun _ => act (fun a => a.openJump true) >>= f) a) fits goes
      ((Lowering.expression notes a.frames a.pool e).bind g) := by
  refine Ends.bind (expression_gives notes e low) (fun v r _ fitsValue led => ?_) ?_
  · obtain ⟨address, rfl⟩ := led
    dsimp only
    rw [Assembly.appended_eq_withBody]
    refine Ends.act_bind
      (fun r => Assembly.openJump_withBody _ (Lowering.follows_after _ _ _) fitsValue)
      (fun fitsJump => ?_) (back v)
    have scene : (a.scene.after v.code v.pool).after [Lowering.jump true 0] v.pool =
        a.scene.after (Lowering.guarded v 0) v.pool := by
      simp [Scene.after, Lowering.guarded, Nat.add_assoc]
    have made := hf v fitsJump
    rw [← scene] at made
    exact made
  · intro v z _ hz fitted
    exact (back v z hz fitted).shorten (List.prefix_append ..) (.refl _)

theorem fits_guarded {v : Lowering.Value} {is : List Instruction} {pool : Pool}
    (target other : Nat) :
    a.Fits (Lowering.guarded v target ++ is) pool ↔
      a.Fits (Lowering.guarded v other ++ is) pool := by
  simp only [Lowering.guarded, List.append_assoc, List.singleton_append]
  exact Assembly.fits_jump target other

theorem fits_guarded_jump {v : Lowering.Value} {is js : List Instruction} {pool : Pool}
    (target skip other leave : Nat) :
    a.Fits (Lowering.guarded v target ++ is ++ Lowering.jump false skip :: js) pool ↔
      a.Fits (Lowering.guarded v other ++ is ++ Lowering.jump false leave :: js) pool := by
  simp [Assembly.Fits, Lowering.guarded]

theorem closeJump_guarded (a : Assembly) (v : Lowering.Value) (is : List Instruction) (t : Scene)
    (before : Nat) {target : Nat}
    (ht : target = (a.withBody (Lowering.guarded v before ++ is, t)).position) :
    (a.withBody (Lowering.guarded v before ++ is, t)).closeJump
        (.forward (a.position + v.code.length)) true =
      .ok (a.withBody (Lowering.guarded v target ++ is, t)) := by
  simp only [Lowering.guarded, List.append_assoc, List.singleton_append] at ht ⊢
  exact Assembly.closeJump_withBody _ _ _ _ _ _ _ ht

theorem Makes.branch (ih : Makes env notes body) (position : Position) (condition : Expr) :
    MakesOne env notes (.branch position condition body none) := by
  intro a low
  simp only [statement, Lowering.statement, Option.bind_eq_bind]
  refine guard_bind low (fun v fitsGuard => ?_) fun v z hz fitted => ?_
  · have hg := Lowering.follows_guarded a.scene v Assembly.noTarget
    have before : a.Fits (Lowering.guarded v Assembly.noTarget) v.pool := by
      simpa [Lowering.guarded, Assembly.Fits] using fitsGuard
    refine ih.scoped hg before (fun b hb fits => ?_) fun b z hz fitted => ?_
    · rw [change_apply (closeJump_guarded _ _ _ _ _ (Assembly.position_withBody (hg.append hb)))]
      exact Ends.ok ((fits_guarded _ _).mp fits) rfl
    · cases hz
      exact (Assembly.fits_withBody hg before _ _).mpr ((fits_guarded _ _).mp fitted)
  · obtain ⟨b, hb, hz⟩ := Option.bind_eq_some_iff.mp hz
    obtain ⟨c, hc, rfl⟩ := Option.map_eq_some_iff.mp hb
    cases hz
    have grows := Lowering.grows_closed ((Lowering.grows_statement_all env notes).2 body _ c hc)
    exact ((fits_guarded _ 0).mp fitted).shorten (List.prefix_append ..) grows

/-- Behind the first body both jumps are open; the first is directed there, the other one behind the
second body. -/
theorem Makes.branchElse (ihb : Makes env notes body) (iho : Makes env notes otherwise)
    (position : Position) (condition : Expr) :
    MakesOne env notes (.branch position condition body (some otherwise)) := by
  intro a low
  simp only [statement, Lowering.statement, Option.bind_eq_bind]
  refine guard_bind low (fun v fitsGuard => ?_) fun v z hz fitted => ?_
  · have hg := fun target => Lowering.follows_guarded a.scene v target
    have before : a.Fits (Lowering.guarded v Assembly.noTarget) v.pool := by
      simpa [Lowering.guarded, Assembly.Fits] using fitsGuard
    refine ihb.scoped (hg _) before (fun b hb fits => ?_) fun b z hz fitted => ?_
    · let t := b.2.after [Lowering.jump false 0] b.2.pool
      let front := Lowering.guarded v t.position ++ b.1
      have hj := fun target => ((hg target).append hb).append
        (Lowering.follows_jump b.2 false Assembly.noTarget 0 b.2.pool)
      refine Ends.act_bind (fun r => Assembly.openJump_withBody _ ((hg _).append hb) fits)
        (fun fitsJump => ?_) fun z hz fitted => ?_
      · have hp := Assembly.position_withBody (hj Assembly.noTarget)
        have closes := closeJump_guarded _ _ _ _ _ (List.append_assoc .. ▸ hp)
        rw [← List.append_assoc, ← List.append_assoc] at closes
        rw [bind_apply, change_apply closes]
        have fitsOpen : a.Fits (front ++ [Lowering.jump false Assembly.noTarget]) t.pool :=
          (fits_guarded_jump _ _ _ _).mp fitsJump
        refine iho.scoped (hj t.position) fitsOpen (fun d hd fitsAll => ?_) fun d z hz fitted => ?_
        · have hq := Assembly.position_withBody ((hj t.position).append hd)
          rw [← List.append_cons] at hq fitsAll
          have leaves := Assembly.closeJump_withBody a front d.1 d.2 false _ _ hq
          have slot : a.position + (Lowering.guarded v Assembly.noTarget ++ b.1).length =
              a.position + front.length := by simp [front, Lowering.guarded]
          dsimp only
          rw [← List.append_cons, slot, change_apply leaves]
          exact Ends.ok ((fits_guarded_jump _ _ _ _).mp fitsAll) rfl
        · cases hz
          refine (Assembly.fits_withBody (hj t.position) fitsOpen _ _).mpr ?_
          rw [← List.append_cons]
          exact (fits_guarded_jump _ _ _ _).mp fitted
      · obtain ⟨d, hd, hz⟩ := Option.bind_eq_some_iff.mp hz
        obtain ⟨e, he, rfl⟩ := Option.map_eq_some_iff.mp hd
        cases hz
        have grows :=
          Lowering.grows_closed ((Lowering.grows_statement_all env notes).2 otherwise _ e he)
        have all := (fits_guarded_jump _ _ Assembly.noTarget 0).mp fitted
        rw [← List.singleton_append, ← List.append_assoc] at all
        exact all.shorten (List.prefix_append ..) grows
    · obtain ⟨d, hd, hz⟩ := Option.bind_eq_some_iff.mp hz
      obtain ⟨e, he, rfl⟩ := Option.map_eq_some_iff.mp hd
      cases hz
      have grows :=
        Lowering.grows_closed ((Lowering.grows_statement_all env notes).2 otherwise _ e he)
      have all := (fits_guarded_jump _ _ Assembly.noTarget 0).mp fitted
      exact (Assembly.fits_withBody (hg _) before _ _).mpr
        (all.shorten (List.prefix_append ..) grows)
  · obtain ⟨b, hb, hz⟩ := Option.bind_eq_some_iff.mp hz
    obtain ⟨c, hc, rfl⟩ := Option.map_eq_some_iff.mp hb
    obtain ⟨d, hd, hz⟩ := Option.bind_eq_some_iff.mp hz
    obtain ⟨e, he, rfl⟩ := Option.map_eq_some_iff.mp hd
    cases hz
    have inner := Lowering.grows_closed ((Lowering.grows_statement_all env notes).2 body _ c hc)
    have outer :=
      Lowering.grows_closed ((Lowering.grows_statement_all env notes).2 otherwise _ e he)
    rw [List.append_assoc] at fitted
    exact ((fits_guarded _ 0).mp fitted).shorten (List.prefix_append ..) (inner.trans outer)

theorem Makes.loop (ih : Makes env notes body) (position : Position) (condition : Expr) :
    MakesOne env notes (.loop position condition body) := by
  intro a low
  simp only [statement, Lowering.statement, Option.bind_eq_bind]
  rw [get_bind]
  refine guard_bind low (fun v fitsGuard => ?_) fun v z hz fitted => ?_
  · have hg := Lowering.follows_guarded a.scene v Assembly.noTarget
    have before : a.Fits (Lowering.guarded v Assembly.noTarget) v.pool := by
      simpa [Lowering.guarded, Assembly.Fits] using fitsGuard
    refine ih.scoped hg before (fun b hb fits => ?_) fun b z hz fitted => ?_
    · have hj := (hg.append hb).append
        (Lowering.follows_jump b.2 false a.position a.position b.2.pool)
      refine Ends.change_bind
        (fun _ => Assembly.closeJump_back_withBody (hg.append hb) fits) (fun fitsJump => ?_)
        fun z hz fitted => ?_
      · have hp := Assembly.position_withBody hj
        rw [List.append_assoc] at hp fitsJump ⊢
        rw [change_apply (closeJump_guarded _ _ _ _ _ hp)]
        refine Ends.ok ?_ ?_
        · dsimp only
          rw [List.append_assoc]
          exact (fits_guarded _ _).mp fitsJump
        · simp [Assembly.scene]
      · cases hz
        rw [List.append_assoc] at fitted ⊢
        exact (fits_guarded _ _).mp fitted
    · cases hz
      rw [List.append_assoc] at fitted
      have all := (fits_guarded _ Assembly.noTarget).mp fitted
      rw [← List.append_assoc] at all
      exact (Assembly.fits_withBody hg before _ _).mpr
        (all.shorten (List.prefix_append ..) (.refl _))
  · obtain ⟨b, hb, hz⟩ := Option.bind_eq_some_iff.mp hz
    obtain ⟨c, hc, rfl⟩ := Option.map_eq_some_iff.mp hb
    cases hz
    rw [List.append_assoc] at fitted
    have grows := Lowering.grows_closed ((Lowering.grows_statement_all env notes).2 body _ c hc)
    exact ((fits_guarded _ 0).mp fitted).shorten (List.prefix_append ..) grows

theorem Makes.cons {s : Stmt} {rest : List Stmt} (ihs : MakesOne env notes s)
    (ihr : Makes env notes rest) : Makes env notes (s :: rest) := by
  intro a low
  simp only [statements, Lowering.statements, Option.bind_eq_bind]
  refine Ends.bind (ihs a low) (fun b r hb fits led => ?_) fun b z _ hz fitted => ?_
  · subst led
    have hf := (Lowering.follows_statement_all env notes).1 s a.scene b hb
    have made := ihr (a.withBody b) fits.2
    rw [Assembly.scene_withBody hf] at made
    rw [← bind_pure (statements env notes rest)]
    refine Ends.bind made (fun c r _ fitsRest led => ?_) fun c z _ hz fitted => ?_
    · subst led
      refine Ends.ok ((Assembly.fits_withBody hf fits _ _).mp fitsRest) ?_
      rw [Assembly.withBody_withBody]
    · cases hz
      exact (Assembly.fits_withBody hf fits _ _).mpr fitted
  · obtain ⟨c, hc, hz⟩ := Option.bind_eq_some_iff.mp hz
    cases hz
    have grows := (Lowering.grows_statement_all env notes).2 rest _ c hc
    exact fitted.shorten (List.prefix_append ..) grows

end

/-- The generator produces the code of every statement. -/
theorem statements_make (env : Environment) (notes : Notes) :
    (∀ s, MakesOne env notes s) ∧ ∀ ss, Makes env notes ss := by
  have single : ∀ (s : Stmt) (i : Instruction),
      statement env notes s = change (fun a => a.emit i) →
      (∀ t, Lowering.statement env notes t s = some ([i], t.after [i] t.pool)) →
      MakesOne env notes s := by
    intro s i generated lowered a low
    rw [generated, lowered, ← bind_pure (change _)]
    refine Ends.change_bind (fun _ => Assembly.emit_eq_ok_iff) (fun counted => ?_)
      fun b hb fitted => ?_
    · exact Ends.ok ⟨counted, low⟩ rfl
    · cases hb
      exact fitted.1
  have cases : Stmt.Cases (MakesOne env notes) (Makes env notes) := {
    declare := makes_declare
    assign := makes_assign
    discard := makes_discard
    block := fun position _ ih => ih.block position
    branch := fun position condition _ ih => ih.branch position condition
    branchElse := fun position condition _ _ ihb iho => ihb.branchElse iho position condition
    loop := fun position condition _ ih => ih.loop position condition
    halt := fun _ code => single _ (.halt code) rfl fun _ => rfl
    debug := fun _ => single _ (.plain .debug) rfl fun _ => rfl
    nil := fun a low => Ends.ok ⟨trivial, low⟩ (by simp [Assembly.withBody, Assembly.scene])
    cons := fun _ _ ihs ihr => .cons ihs ihr }
  exact ⟨cases.one, cases.all⟩

/-- The generator succeeds on a program exactly if its lowering exists and fits. -/
theorem ofProgram_eq_ok_iff {env : Environment} {notes : Notes} {p : Program} {a : Assembly} :
    ofProgram env notes p = .ok a ↔
      ∃ b, Lowering.statements env notes Assembly.start.scene p.body = some b ∧
        Assembly.start.Fits b.1 b.2.pool ∧ a = Assembly.start.withBody b := by
  have made := (statements_make env notes).2 p.body .start (by decide)
  unfold ofProgram
  rw [map_eq_ok_iff, StateT.run]
  cases hb : Lowering.statements env notes Assembly.start.scene p.body with
  | none =>
    rw [hb] at made
    obtain ⟨e, he⟩ := made
    simp [he]
  | some b =>
    rw [hb] at made
    obtain ⟨fits, r, hr, rfl⟩ | ⟨unfit, q, hq⟩ := made
    · simp [hr, fits, eq_comm]
    · simp [hq, unfit]

end Generate

end Bytescript
