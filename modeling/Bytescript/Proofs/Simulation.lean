import Mathlib
import Bytescript.Proofs.Realization

/-!
# Code that does what statements mean

The machine follows the evaluation of a program statement by statement. Between two statements its
stack holds the values of the variables and nothing else; the variables of a scope are on top and
are dropped where the scope is closed. A jump back to the condition of a loop counts as the round
that it begins.
-/
namespace Bytescript.Lowering

open Evaluation Machine

/-- What the code of a program relies on: its types, its size, and what is known of it. -/
structure Setting (env : Environment) (notes : Notes) (script : Script)
    (annotations : Annotations) : Prop where
  sound : env.Sound
  small : env.Small
  bounded : Bounded script.code.toList
  data : script.data.length ≤ 4294967296
  notes_eq : annotations.notes = notes
  types_eq : annotations.types = env.types

variable {env : Environment} {notes : Notes} {script : Script} {annotations : Annotations}
  {scopes : Typing.Scopes} {s : Scene} {store : Store} {m : State} {capacity bound : Nat}

theorem Setting.size_lt (setting : Setting env notes script annotations)
    {is : List Instruction} (stands : Stands script.code.toList s is) : s.size < 4294967296 := by
  rw [← stands.2]
  exact setting.bounded.depth _ (Nat.le_trans (Nat.le_add_right ..) stands.1.le)

theorem Stands.end_le {is : List Instruction} {t : Scene}
    (stands : Stands script.code.toList s is) (follows : Follows s (is, t)) :
    t.position ≤ script.code.size := by
  have h := stands.1.le
  rw [Array.length_toList] at h
  exact follows.1 ▸ h

theorem realizes_expression (setting : Setting env notes script annotations)
    (ready : Ready env scopes s) {e : Expr} {v : Value}
    (coded : Typing.Coded env notes scopes s.frames s.pool e v)
    (stands : Stands script.code.toList s v.code)
    (holding : Holding script.data annotations.texts v.pool) (holds : Holds s.frames store)
    (hm : m.At s.position store.bytes) :
    Realizes capacity script.view bound m (Evaluation.expression annotations store e)
      fun x t => x.length = v.ty.size ∧
        t.At (s.position + v.code.length) (store.bytes ++ x) :=
  coded.realized setting.sound setting.small ready.known ready.agree holds ready.tiled
    (setting.size_lt stands) setting.notes_eq setting.data holding stands.1 (List.prefix_refl _) hm

theorem realizes_drop {α : Type} {r : Except Ending α} {Q : α → State → Prop} {ip n : Nat}
    {base top : Bytes} (lies : Lies script.code.toList ip (drop n)) (hn : top.length = n)
    (hlt : n < 4294967296) (hm : m.At ip (base ++ top))
    (h : ∀ t : State, t.At (ip + (drop n).length) base →
      Realizes capacity script.view bound t r Q) :
    Realizes capacity script.view bound m r Q := by
  subst hn
  unfold drop at lies h
  split at lies
  · next hz =>
    rw [if_pos hz] at h
    rw [List.length_eq_zero_iff.mp hz, List.append_nil] at hm
    exact h m hm
  · next hz =>
    rw [if_neg hz] at h
    exact Realizes.turn lies (Instruction.turns_pop hlt) hm h

theorem realizes_guarded (setting : Setting env notes script annotations)
    (ready : Ready env scopes s) {e : Expr} (tested : Typing.Tested env notes scopes e) {v : Value}
    (hv : expression notes s.frames s.pool e = some v) {target : Nat}
    (stands : Stands script.code.toList s (guarded v target))
    (hl : target ≤ script.code.size)
    (holding : Holding script.data annotations.texts v.pool) (holds : Holds s.frames store)
    (hm : m.At s.position store.bytes) {α : Type} {f : Bytes → Except Ending α}
    {Q : α → State → Prop}
    (yes : ∀ x t, Evaluation.isTrue x = true →
      State.At (s.after (guarded v 0) v.pool).position store.bytes t →
      Realizes capacity script.view bound t (f x) Q)
    (no : ∀ x t, Evaluation.isTrue x = false → State.At target store.bytes t →
      Realizes capacity script.view bound t (f x) Q) :
    Realizes capacity script.view bound m (Evaluation.expression annotations store e >>= f) Q := by
  obtain ⟨coded, ht⟩ := tested.coded setting.sound ready.known ready.agree hv
  refine Realizes.bind (realizes_expression setting ready coded stands.left holding holds hm) ?_
  rintro x t ⟨hx, ht'⟩
  have hlen := setting.bounded.length
  rw [Array.length_toList] at hlen
  have hx1 : x.length = 1 := hx.trans (Ty.size_of_primitive ht)
  have flows : (jump true target).Flows capacity script.data (store.bytes ++ x) _ store.bytes :=
    Instruction.flows_jumpIfFalse (by omega) hx1
  have hp : (s.after (guarded v 0) v.pool).position = s.position + v.code.length + 1 := by
    simp [Scene.after, guarded, Nat.add_assoc]
  cases hb : Evaluation.isTrue x with
  | true =>
    rw [hb, if_pos rfl] at flows
    exact Realizes.turn stands.1.right flows ht' fun u hu => yes x u hb (hp ▸ hu)
  | false =>
    rw [hb, if_neg Bool.false_ne_true] at flows
    exact (Realizes.goto stands.1.right flows hl ht' fun u hu => no x u hb hu).mono
      (Nat.le_succ _) fun _ _ => id

/-- The machine executes a statement as it is evaluated. -/
def Simulates (env : Environment) (notes : Notes) (script : Script) (annotations : Annotations)
    (capacity : Nat) (stmt : Stmt) : Prop :=
  ∀ scopes after s b, Typing.Accepted env notes scopes stmt after → Ready env scopes s →
    statement env notes s stmt = some b → Stands script.code.toList s b.1 →
    s.pool.Grows b.2.pool ∧
      ∀ store fuel m, Holding script.data annotations.texts b.2.pool → Holds s.frames store →
        State.At s.position store.bytes m →
        Realizes capacity script.view fuel m (Evaluation.statement annotations fuel store stmt)
          fun later t => Holds b.2.frames later ∧ t.At b.2.position later.bytes

def SimulatesAll (env : Environment) (notes : Notes) (script : Script) (annotations : Annotations)
    (capacity : Nat) (body : List Stmt) : Prop :=
  ∀ scopes after s b, Typing.AcceptedAll env notes scopes body after → Ready env scopes s →
    statements env notes s body = some b → Stands script.code.toList s b.1 →
    s.pool.Grows b.2.pool ∧
      ∀ store fuel m, Holding script.data annotations.texts b.2.pool → Holds s.frames store →
        State.At s.position store.bytes m →
        Realizes capacity script.view fuel m (Evaluation.statements annotations fuel store body)
          fun later t => Holds b.2.frames later ∧ t.At b.2.position later.bytes

theorem frames_closed {body : List Stmt} {c : Body}
    (hc : statements env notes s.opened body = some c) : (closed c).2.frames = s.frames := by
  rw [((framed_statement_all env notes).2 _ _ _ hc).closed_eq]

theorem SimulatesAll.closed {body : List Stmt}
    (h : SimulatesAll env notes script annotations capacity body)
    (setting : Setting env notes script annotations) (ready : Ready env scopes s)
    {inner : Typing.Scopes} (accepted : Typing.AcceptedAll env notes ([] :: scopes) body inner)
    {c : Body} (hc : statements env notes s.opened body = some c)
    (stands : Stands script.code.toList s (closed c).1) :
    s.pool.Grows (closed c).2.pool ∧
      ∀ store fuel m, Holding script.data annotations.texts (closed c).2.pool →
        Holds s.frames store → State.At s.position store.bytes m →
        Realizes capacity script.view fuel m
          (Evaluation.statements annotations fuel ([] :: store) body >>=
            fun later => .ok later.tail)
          fun later t => Holds s.frames later ∧ t.At (closed c).2.position (Store.bytes later) := by
  have framed := (framed_statement_all env notes).2 _ _ _ hc
  have follows := (follows_statement_all env notes).2 _ _ _ hc
  obtain ⟨more, hframes⟩ := framed ⟨s.size, []⟩ s.frames rfl
  rw [framed.closed_eq] at stands ⊢
  have standsBody : Stands script.code.toList s.opened c.1 := stands.left
  have standsDrop := stands.right (s := s) follows
  obtain ⟨readyInner, -⟩ :=
    (level_statement_all setting.sound setting.small setting.bounded.depth).2
      _ _ _ _ _ accepted ready.opened hc standsBody
  obtain ⟨grows, simulates⟩ := h _ _ _ _ accepted ready.opened hc standsBody
  have hlt := setting.size_lt standsDrop
  refine ⟨grows, fun store fuel m holding holds hm => ?_⟩
  have hopened : State.At s.opened.position (Store.bytes ([] :: store)) m := by
    simpa [Store.bytes, Scene.opened] using hm
  refine Realizes.bind (simulates _ fuel m holding (holds.opened s.size) hopened) ?_
  rintro later t ⟨holdsInner, ht⟩
  have tiled := readyInner.tiled
  rw [hframes] at holdsInner tiled
  obtain ⟨holdsOuter, top, hbytes, htop⟩ := holdsInner.closed tiled
  rw [hbytes] at ht
  exact realizes_drop standsDrop.1 htop (by omega) ht fun u hu => realizes_ok ⟨holdsOuter, hu⟩

theorem initial_eq (setting : Setting env notes script annotations) {ty : Option TypeRef}
    {value : Option Expr} {t : Ty} (h : Typing.Initial env notes scopes ty value t) :
    Evaluation.initial annotations store ty value =
      value.elim (.ok (List.replicate t.size 0)) (Evaluation.expression annotations store) >>=
        fun x => .ok (t, x) := by
  match ty, value with
  | none, none => exact h.elim
  | none, some e =>
    obtain ⟨note, ⟨-, filed⟩, rfl⟩ := h
    rw [← setting.notes_eq] at filed
    simp only [Evaluation.initial, filed, require_some, ok_bind]
    rfl
  | some written, none =>
    simp only [Evaluation.initial, setting.types_eq, h.1, Except.toOption, require_some, ok_bind]
    rfl
  | some written, some e =>
    simp only [Evaluation.initial, setting.types_eq, h.1, Except.toOption, require_some, ok_bind]
    rfl

-- The equations of the evaluation, derived once for all lemmas below.
attribute [local simp] Evaluation.statement

theorem simulates_declare (setting : Setting env notes script annotations) (position : Position)
    (name : String) (ty : Option TypeRef) (value : Option Expr) :
    Simulates env notes script annotations capacity (.declare position name ty value) := by
  intro scopes after s b accepted ready hb stands
  obtain ⟨t, initial, -⟩ := accepted
  obtain ⟨v, u, hv, hu, rfl⟩ := statement_declare hb
  obtain ⟨frame, rest, hf, -, rfl⟩ := define_eq_some hu
  obtain ⟨rfl, hcode⟩ := initial.coded setting.sound ready.known ready.agree hv
  have hsize := setting.small.known (initial.known setting.sound ready.known)
  have hframes : s.frames = frame :: rest := hf
  -- The value on top of the stack is the variable's.
  have value : s.pool.Grows v.pool ∧ ∀ store fuel m,
      Holding script.data annotations.texts v.pool → Holds s.frames store →
      State.At s.position store.bytes m →
      Realizes capacity script.view fuel m
        (value.elim (.ok (List.replicate v.ty.size 0)) (Evaluation.expression annotations store))
        fun x t => x.length = v.ty.size ∧
          t.At (s.position + v.code.length) (store.bytes ++ x) := by
    rcases hcode with ⟨rfl, hc, hp⟩ | ⟨e, w, rfl, coded, hs, hc, hp⟩
    · refine ⟨hp ▸ Pool.Grows.refl _, fun store fuel m _ _ hm => ?_⟩
      rw [hc] at stands ⊢
      exact Realizes.turn stands.1 (Instruction.turns_pushZero (by omega)) hm fun t ht =>
        realizes_ok ⟨List.length_replicate .., ht⟩
    · refine ⟨hp ▸ coded.grows, fun store fuel m holding holds hm => ?_⟩
      rw [hc] at stands ⊢
      rw [hp] at holding
      rw [← hs]
      exact realizes_expression setting ready coded stands holding holds hm
  refine ⟨value.1, fun store fuel m holding holds hm => ?_⟩
  simp only [Evaluation.statement, initial_eq setting initial, bind_assoc, ok_bind]
  refine Realizes.bind (value.2 store fuel m holding holds hm) ?_
  rintro x t ⟨hx, ht⟩
  rw [hframes] at holds
  obtain ⟨holds', hbytes⟩ := holds.declare (v := ⟨name, v.ty, _⟩) (b := ⟨name, v.ty, x⟩)
    ⟨rfl, rfl, hx⟩
  refine realizes_ok ⟨holds', ?_⟩
  rw [hbytes]
  exact ht

theorem simulates_assign (setting : Setting env notes script annotations) (position : Position)
    (target : Place) (value : Expr) :
    Simulates env notes script annotations capacity (.assign position target value) := by
  intro scopes after s b accepted ready hb stands
  obtain ⟨⟨t, hp, fits⟩, -⟩ := accepted
  obtain ⟨v, offset, ty, hv, ho, rfl⟩ := statement_assign hb
  have known := Typing.known_of_placeType setting.sound ready.known hp
  obtain ⟨coded, hs⟩ := fits.coded setting.sound ready.known ready.agree known hv
  obtain ⟨o, ho'⟩ := Typing.placeType_ok ready.agree hp
  cases ho'.symm.trans ho
  refine ⟨coded.grows, fun store fuel m holding holds hm => ?_⟩
  have hlt := setting.size_lt stands
  have hsize := setting.small.known known
  have hlen := holds.length_bytes ready.tiled
  obtain ⟨hle, b, hfind, hset⟩ := holds.place ready.tiled setting.sound ready.known ready.agree ho
  simp only [Evaluation.statement, hfind, require_some, ok_bind]
  refine Realizes.bind (realizes_expression setting ready coded stands.left holding holds hm) ?_
  rintro x t ⟨hx, ht⟩
  rw [hs] at hx
  obtain ⟨whole, hw, holds', hbytes⟩ := hset x hx
  simp only [hw, require_some, ok_bind]
  refine Realizes.turn stands.1.right
    (hx ▸ Instruction.turns_assign (by omega) (by omega) (by omega)) ht fun u hu => ?_
  refine realizes_ok ⟨holds', ?_⟩
  rw [hbytes]
  simpa [Scene.after, Nat.add_assoc] using hu

theorem simulates_discard (setting : Setting env notes script annotations) (position : Position)
    (value : Expr) :
    Simulates env notes script annotations capacity (.discard position value) := by
  intro scopes after s b accepted ready hb stands
  obtain ⟨⟨note, has⟩, rfl⟩ := accepted
  obtain ⟨v, hv, rfl⟩ := statement_discard hb
  obtain ⟨coded, ht⟩ := has.coded setting.sound ready.known ready.agree hv
  have hsize := setting.small.known (ht ▸ has.1.known setting.sound ready.known : env.Known v.ty)
  refine ⟨coded.grows, fun store fuel m holding holds hm => ?_⟩
  simp only [Evaluation.statement]
  refine Realizes.bind (realizes_expression setting ready coded stands.left holding holds hm) ?_
  rintro x t ⟨hx, ht⟩
  refine realizes_drop stands.1.right hx (by omega) ht fun u hu => realizes_ok ⟨holds, ?_⟩
  simpa [Scene.after, Nat.add_assoc] using hu

theorem simulates_block (setting : Setting env notes script annotations) (position : Position)
    (body : List Stmt) (ih : SimulatesAll env notes script annotations capacity body) :
    Simulates env notes script annotations capacity (.block position body) := by
  intro scopes after s b accepted ready hb stands
  obtain ⟨⟨inner, acceptedBody⟩, rfl⟩ := accepted
  obtain ⟨c, hc, rfl⟩ := statement_block hb
  obtain ⟨grows, simulates⟩ := ih.closed setting ready acceptedBody hc stands
  rw [frames_closed hc]
  exact ⟨grows, simulates⟩

theorem simulates_branch (setting : Setting env notes script annotations) (position : Position)
    (condition : Expr) (body : List Stmt)
    (ih : SimulatesAll env notes script annotations capacity body) :
    Simulates env notes script annotations capacity (.branch position condition body none) := by
  intro scopes after s b accepted ready hb stands
  obtain ⟨tested, ⟨inner, acceptedBody⟩, rfl⟩ := accepted
  have follows := (follows_statement_all env notes).1 _ _ _ hb
  obtain ⟨v, c, hv, hc, rfl⟩ := statement_branch hb
  obtain ⟨coded, -⟩ := tested.coded setting.sound ready.known ready.agree hv
  have hend := stands.end_le follows
  obtain ⟨grows, simulates⟩ := ih.closed setting
    (ready.guarded setting.sound setting.small tested hv) acceptedBody hc
    (stands.right (follows_guarded s v _))
  rw [frames_closed hc]
  refine ⟨coded.grows.trans grows, fun store fuel m holding holds hm => ?_⟩
  rw [Evaluation.statement]
  refine realizes_guarded setting ready tested hv stands.left hend (holding.of_grows grows) holds hm
    (fun x t hx ht => ?_) fun x t hx ht => ?_
  · rw [if_pos hx]
    exact simulates store fuel t holding holds ht
  · rw [if_neg (by rw [hx]; exact Bool.false_ne_true)]
    exact realizes_ok ⟨holds, ht⟩

/-- The positions of the parts of a branch with two bodies. The scene in front of the second body is
as ready as the one in front of the branch, and has its frames. -/
theorem Stands.branchElse {condition : Expr} {body otherwise : List Stmt} {v : Value} {c d : Body}
    {inner : Typing.Scopes} {front : Scene}
    (stands : Stands script.code.toList s (guarded v front.position ++ (closed c).1 ++
      jump false (closed d).2.position :: (closed d).1))
    (setting : Setting env notes script annotations) (ready : Ready env scopes s)
    (tested : Typing.Tested env notes scopes condition)
    (accepted : Typing.AcceptedAll env notes ([] :: scopes) body inner)
    (hv : expression notes s.frames s.pool condition = some v)
    (hc : statements env notes (s.after (guarded v 0) v.pool).opened body = some c)
    (hd : statements env notes front.opened otherwise = some d)
    (hf : front = (closed c).2.after [jump false 0] (closed c).2.pool) :
    Stands script.code.toList (s.after (guarded v 0) v.pool) (closed c).1 ∧
      Lies script.code.toList (closed c).2.position [jump false (closed d).2.position] ∧
      Stands script.code.toList front (closed d).1 ∧ Ready env scopes front ∧
      front.frames = s.frames ∧ front.position ≤ script.code.size := by
  obtain ⟨standsBody, liesJump, standsOther, hsize, hframes⟩ :=
    stands.bodies ((level_statement_all setting.sound setting.small setting.bounded.depth).2 body)
      setting.sound setting.small setting.bounded.depth ready tested accepted hv hc hf
  have followsOther := ((follows_statement_all env notes).2 _ _ _ hd).closed
  exact ⟨standsBody, liesJump, standsOther, ready.of_eq hsize hframes, hframes,
    Nat.le_trans (Nat.le_add_right ..) (followsOther.1 ▸ standsOther.end_le followsOther)⟩

theorem simulates_branchElse (setting : Setting env notes script annotations)
    (position : Position) (condition : Expr) (body otherwise : List Stmt)
    (ihb : SimulatesAll env notes script annotations capacity body)
    (iho : SimulatesAll env notes script annotations capacity otherwise) :
    Simulates env notes script annotations capacity
      (.branch position condition body (some otherwise)) := by
  intro scopes after s b accepted ready hb stands
  obtain ⟨tested, ⟨inner, acceptedBody⟩, ⟨outer, acceptedOther⟩, rfl⟩ := accepted
  have follows := (follows_statement_all env notes).1 _ _ _ hb
  obtain ⟨v, c, d, hv, hc, hd, rfl⟩ := statement_branchElse hb
  obtain ⟨coded, -⟩ := tested.coded setting.sound ready.known ready.agree hv
  have hend := stands.end_le follows
  obtain ⟨standsBody, liesJump, standsOther, readyOther, hframes, htarget⟩ :=
    stands.branchElse setting ready tested acceptedBody hv hc hd rfl
  obtain ⟨growsBody, simulatesBody⟩ := ihb.closed setting
    (ready.guarded setting.sound setting.small tested hv) acceptedBody hc standsBody
  obtain ⟨growsOther, simulatesOther⟩ :=
    iho.closed setting readyOther acceptedOther hd standsOther
  have hlen := setting.bounded.length
  rw [Array.length_toList] at hlen
  rw [frames_closed hd]
  refine ⟨coded.grows.trans (growsBody.trans growsOther), fun store fuel m holding holds hm => ?_⟩
  have holdingBody := holding.of_grows growsOther
  rw [Evaluation.statement]
  refine realizes_guarded setting ready tested hv stands.left.left htarget
    (holdingBody.of_grows growsBody) holds hm (fun x t hx ht => ?_) fun x t hx ht => ?_
  · rw [if_pos hx]
    refine (simulatesBody store fuel t holdingBody holds ht).then ?_
    rintro later u ⟨holds', hu⟩
    refine (Realizes.goto liesJump (Instruction.flows_jump (by omega) _) hend hu
      fun w hw => ?_).mono (Nat.le_succ _) fun _ _ => id
    exact realizes_ok ⟨hframes ▸ holds', hw⟩
  · rw [if_neg (by rw [hx]; exact Bool.false_ne_true)]
    exact simulatesOther store fuel t holding (hframes ▸ holds) ht

theorem iterate_succ (round : Store → Except Ending (Option Store)) (n : Nat) (store : Store) :
    iterate round (n + 1) store =
      round store >>= fun next => next.elim (.ok store) (iterate round n) := by
  rw [iterate]
  cases round store with
  | error e => rfl
  | ok next => cases next <;> rfl

theorem simulates_loop (setting : Setting env notes script annotations) (position : Position)
    (condition : Expr) (body : List Stmt)
    (ih : SimulatesAll env notes script annotations capacity body) :
    Simulates env notes script annotations capacity (.loop position condition body) := by
  intro scopes after s b accepted ready hb stands
  obtain ⟨tested, ⟨inner, acceptedBody⟩, rfl⟩ := accepted
  have follows := (follows_statement_all env notes).1 _ _ _ hb
  obtain ⟨v, c, hv, hc, rfl⟩ := statement_loop hb
  obtain ⟨coded, -⟩ := tested.coded setting.sound ready.known ready.agree hv
  have hend := stands.end_le follows
  have hlen := setting.bounded.length
  rw [Array.length_toList] at hlen
  have followsBody := ((follows_statement_all env notes).2 _ _ _ hc).closed
  dsimp only at stands
  rw [List.append_assoc] at stands
  have standsBody := stands.right (follows_guarded s v _)
  have standsJump := standsBody.right followsBody
  have hstart : s.position ≤ script.code.size :=
    Nat.le_trans (Nat.le_add_right ..) (Array.length_toList ▸ stands.1.le)
  obtain ⟨grows, simulates⟩ := ih.closed setting
    (ready.guarded setting.sound setting.small tested hv) acceptedBody hc standsBody.left
  have hframes : ((closed c).2.after [jump false s.position] (closed c).2.pool).frames = s.frames :=
    (frames_closed hc :)
  rw [hframes]
  refine ⟨coded.grows.trans grows, fun store fuel m holding holds hm => ?_⟩
  rw [Evaluation.statement]
  -- With `k` rounds left an exhausted evaluation has seen the machine go back `k` times.
  suffices rounds : ∀ k ≤ fuel, ∀ store m, Holds s.frames store →
      State.At s.position store.bytes m → Realizes capacity script.view k m
        (iterate (fun store => do
          let x ← Evaluation.expression annotations store condition
          if Evaluation.isTrue x then
            let store ← Evaluation.statements annotations fuel ([] :: store) body
            return some store.tail
          else return none) k store)
        fun later t => Holds s.frames later ∧ t.At _ later.bytes by
    exact rounds fuel (Nat.le_refl _) store m holds hm
  intro k
  induction k with
  | zero => exact fun _ _ _ _ _ => realizes_exhausted
  | succ k ih =>
    intro hk store m holds hm
    rw [iterate_succ, bind_assoc]
    refine realizes_guarded setting ready tested hv stands.left hend (holding.of_grows grows)
      holds hm (fun x t hx ht => ?_) fun x t hx ht => ?_
    · rw [if_pos hx, bind_assoc]
      have round := ((simulates store fuel t holding holds ht).mono hk fun _ _ => id).bind
        fun later u h => Realizes.goto standsJump.1 (Instruction.flows_jump (by omega) _)
          hstart h.2 fun w hw => ih (by omega) later w h.1 hw
      rw [bind_assoc] at round
      exact round
    · rw [if_neg (by rw [hx]; exact Bool.false_ne_true)]
      exact realizes_ok ⟨holds, ht⟩

/-- The machine executes accepted statements as they are evaluated, for every capacity. -/
theorem simulates_statement_all (setting : Setting env notes script annotations)
    (capacity : Nat) : (∀ stmt, Simulates env notes script annotations capacity stmt) ∧
      ∀ body, SimulatesAll env notes script annotations capacity body := by
  have cases : Stmt.Cases (Simulates env notes script annotations capacity)
      (SimulatesAll env notes script annotations capacity) := {
    declare := simulates_declare setting
    assign := simulates_assign setting
    discard := simulates_discard setting
    block := simulates_block setting
    branch := simulates_branch setting
    branchElse := simulates_branchElse setting
    loop := simulates_loop setting
    halt := by
      intro _ code scopes after s b _ _ hb stands
      cases hb
      exact ⟨Pool.Grows.refl _, fun store fuel m _ _ hm => realizes_halt stands.1 hm⟩
    debug := by
      intro _ scopes after s b _ _ hb stands
      cases hb
      refine ⟨Pool.Grows.refl _, fun store fuel m _ holds hm => ?_⟩
      exact Realizes.turn stands.1 (Instruction.turns_debug _) hm
        fun t ht => realizes_ok ⟨holds, ht⟩
    nil := by
      intro scopes after s b _ _ hb _
      cases hb
      exact ⟨Pool.Grows.refl _, fun store fuel m _ holds hm => realizes_ok ⟨holds, hm⟩⟩
    cons := by
      intro stmt rest ihs ihr scopes after s b accepted ready hb stands
      obtain ⟨middle, acceptedOne, acceptedRest⟩ := accepted
      obtain ⟨c, d, hc, hd, rfl⟩ := statements_cons hb
      obtain ⟨readyMiddle, -⟩ :=
        (level_statement_all setting.sound setting.small setting.bounded.depth).1 _ _ _ _ _
          acceptedOne ready hc stands.left
      have standsRest := stands.right ((follows_statement_all env notes).1 _ _ _ hc)
      obtain ⟨grows, simulates⟩ := ihs _ _ _ _ acceptedOne ready hc stands.left
      obtain ⟨growsRest, simulatesRest⟩ := ihr _ _ _ _ acceptedRest readyMiddle hd standsRest
      refine ⟨grows.trans growsRest, fun store fuel m holding holds hm => ?_⟩
      rw [Evaluation.statements]
      exact (simulates store fuel m (holding.of_grows growsRest) holds hm).bind
        fun later t h => simulatesRest later fuel t holding h.1 h.2 }
  exact ⟨cases.one, cases.all⟩

end Bytescript.Lowering
