import Mathlib
import Bytescript.Proofs.Operations
import Bytescript.Proofs.Variables

/-!
# Runs that realize evaluations

A run realizes the result of an evaluation if it reaches a state that matches the value, or stops as
the evaluation does, or has no room on its stack. Results that are realized in sequence are realized
as a whole, so the code of an expression can be followed along its evaluation. An exhausted
evaluation is realized by a run that is still running after as many steps as the evaluation had
rounds.
-/
namespace Bytescript

open Evaluation Exec

namespace Machine

/-- A machine in front of an instruction, with some bytes on its stack. -/
def State.At (ip : Nat) (bs : Bytes) (s : State) : Prop := s.ip = ip ∧ s.stack = .ofList bs

def Overflows (capacity : Nat) (status : Status) : Prop :=
  ∃ f s, status = .faulted f s ∧ IsOverflow capacity (.fault f.cause)

section

variable {α β : Type}

/-- The status of a run after `n` steps matches the result of an evaluation. -/
def Shows (bound : Nat) (Q : α → State → Prop) (n : Nat) (status : Status) :
    Except Ending α → Prop
  | .ok a => ∃ s, status = .running s ∧ Q a s
  | .error (.halted code store) =>
    ∃ s, status = .ended (.halted code) s ∧ s.stack = .ofList store.bytes
  | .error .divisionByZero => ∃ f s, status = .faulted f s ∧ f.cause = .divisionByZero
  | .error .stuck => False
  | .error .exhausted => bound ≤ n ∧ ∃ s, status = .running s

/-- A run from a state matches the result of an evaluation after some number of steps. -/
def Realizes (capacity : Nat) (view : View) (bound : Nat) (s : State) (r : Except Ending α)
    (Q : α → State → Prop) : Prop :=
  ∃ n, Overflows capacity (runFor capacity view n s) ∨
    Shows bound Q n (runFor capacity view n s) r

variable {Q : α → State → Prop} {bound n m : Nat} {status : Status} {r : Except Ending α}

theorem Shows.mono {bound' : Nat} {Q' : α → State → Prop} (h : Shows bound Q n status r)
    (hb : bound' + n ≤ bound + m) (hq : ∀ a s, Q a s → Q' a s) : Shows bound' Q' m status r := by
  match r with
  | .ok a =>
    obtain ⟨s, hs, ha⟩ := h
    exact ⟨s, hs, hq a s ha⟩
  | .error (.halted code store) => exact h
  | .error .divisionByZero => exact h
  | .error .stuck => exact h
  | .error .exhausted =>
    obtain ⟨hn, hs⟩ := h
    exact ⟨by omega, hs⟩

theorem Shows.error {e : Ending} {Q' : β → State → Prop}
    (h : Shows bound Q n status (.error e : Except Ending α)) :
    Shows bound Q' n status (.error e : Except Ending β) := by
  cases e <;> exact h

variable {capacity : Nat} {view : View} {s : State}

theorem Realizes.mono {bound' : Nat} {Q' : α → State → Prop}
    (h : Realizes capacity view bound s r Q) (hb : bound' ≤ bound) (hq : ∀ a s, Q a s → Q' a s) :
    Realizes capacity view bound' s r Q' := by
  obtain ⟨n, hn | hn⟩ := h
  · exact ⟨n, Or.inl hn⟩
  · exact ⟨n, Or.inr (hn.mono (by omega) hq)⟩

theorem realizes_ok {a : α} (h : Q a s) : Realizes capacity view bound s (.ok a) Q :=
  ⟨0, Or.inr ⟨s, rfl, h⟩⟩

theorem realizes_exhausted : Realizes capacity view 0 s (.error .exhausted) Q :=
  ⟨0, Or.inr ⟨Nat.le_refl 0, s, rfl⟩⟩

/-- One evaluation after another. -/
theorem Realizes.bind {f : α → Except Ending β} {Q' : β → State → Prop}
    (h : Realizes capacity view bound s r Q)
    (hf : ∀ a t, Q a t → Realizes capacity view bound t (f a) Q') :
    Realizes capacity view bound s (r >>= f) Q' := by
  obtain ⟨n, hn | hn⟩ := h
  · exact ⟨n, Or.inl hn⟩
  · cases r with
    | error e => exact ⟨n, Or.inr hn.error⟩
    | ok a =>
      obtain ⟨t, ht, ha⟩ := hn
      obtain ⟨m, hm⟩ := hf a t ha
      have hr : runFor capacity view (n + m) s = runFor capacity view m t := by
        rw [runFor_add, ht]
      refine ⟨n + m, ?_⟩
      rw [hr]
      exact hm.imp id fun hs => hs.mono (by omega) fun _ _ => id

theorem Realizes.then {Q' : α → State → Prop} (h : Realizes capacity view bound s r Q)
    (hf : ∀ a t, Q a t → Realizes capacity view bound t (.ok a) Q') :
    Realizes capacity view bound s r Q' := by
  rw [← bind_pure r]
  exact h.bind hf

/-- A step of the machine counts as one of the rounds of an exhausted evaluation. -/
theorem Realizes.step {t : State} (ht : tick capacity view s = .running t)
    (h : Realizes capacity view bound t r Q) : Realizes capacity view (bound + 1) s r Q := by
  obtain ⟨n, hn⟩ := h
  have hr : runFor capacity view (n + 1) s = runFor capacity view n t := by
    simp only [runFor, ht]
  refine ⟨n + 1, ?_⟩
  rw [hr]
  exact hn.imp id fun hs => hs.mono (by omega) fun _ _ => id

theorem realizes_of_tick {f : Stop} {length ip steps : Nat} {stack : Stack}
    (ht : tick capacity view s = advance length ip steps stack (.error f))
    (hf : IsOverflow capacity f) : Realizes capacity view bound s r Q := by
  obtain ⟨needed, rfl⟩ := hf
  refine ⟨1, Or.inl ⟨⟨ip, .stackOverflow needed capacity⟩, ⟨ip, steps, stack⟩, ?_, needed, rfl⟩⟩
  simp only [runFor, ht, advance]

end

section

variable {α : Type} {Q : α → State → Prop} {r : Except Ending α} {capacity bound ip : Nat}
  {script : Script} {s : State} {i : Instruction} {before after : Bytes}

theorem tick_eq (capacity : Nat) (lies : Lies script.code.toList ip [i]) (hs : s.At ip before) :
    ∃ result stack, (i.step capacity script.data).run.run (.ofList before) = (result, stack) ∧
      tick capacity script.view s = advance script.code.size ip (s.steps + 1) stack result := by
  obtain ⟨ip, steps, stack⟩ := s
  obtain ⟨rfl, rfl⟩ := hs
  have hi : script.code[ip]? = some i := by
    rw [← Array.getElem?_toList]
    exact lies.head
  have hlt : ip < script.code.size := by
    have := lies.le
    simpa using this
  obtain ⟨result, stack, hr⟩ : ∃ result stack,
      (i.step capacity script.data).run.run (.ofList before) = (result, stack) := ⟨_, _, rfl⟩
  refine ⟨result, stack, hr, ?_⟩
  simp only [tick, Script.view, hlt, if_true, hi, hr]

theorem Realizes.turn (lies : Lies script.code.toList ip [i])
    (turns : i.Turns capacity script.data before after) (hs : s.At ip before)
    (h : ∀ t : State, t.At (ip + 1) after → Realizes capacity script.view bound t r Q) :
    Realizes capacity script.view bound s r Q := by
  obtain ⟨result, stack, hr, ht⟩ := tick_eq capacity lies hs
  unfold Instruction.Turns Instruction.Flows Meets at turns
  rw [hr] at turns
  cases result with
  | error f => exact realizes_of_tick ht turns
  | ok flow =>
    obtain ⟨rfl, rfl⟩ := turns
    exact (Realizes.step ht (h _ ⟨rfl, rfl⟩)).mono (Nat.le_succ _) fun _ _ => id

theorem Realizes.goto {target : Nat} (lies : Lies script.code.toList ip [i])
    (flows : i.Flows capacity script.data before (.goto target) after)
    (hl : target ≤ script.code.size) (hs : s.At ip before)
    (h : ∀ t : State, t.At target after → Realizes capacity script.view bound t r Q) :
    Realizes capacity script.view (bound + 1) s r Q := by
  obtain ⟨result, stack, hr, ht⟩ := tick_eq capacity lies hs
  unfold Instruction.Flows Meets at flows
  rw [hr] at flows
  cases result with
  | error f => exact realizes_of_tick ht flows
  | ok flow =>
    obtain ⟨rfl, rfl⟩ := flows
    rw [advance, if_neg (Nat.not_lt.mpr hl)] at ht
    exact Realizes.step ht (h _ ⟨rfl, rfl⟩)

theorem realizes_halt {code : Int32} {store : Store}
    (lies : Lies script.code.toList ip [.halt code]) (hs : s.At ip store.bytes) :
    Realizes capacity script.view bound s (.error (.halted code store)) Q := by
  obtain ⟨result, stack, hr, ht⟩ := tick_eq capacity lies hs
  have flows : (Instruction.halt code).Flows capacity script.data store.bytes _ _ :=
    Instruction.flows_halt code _
  unfold Instruction.Flows Meets at flows
  rw [hr] at flows
  cases result with
  | error f => exact realizes_of_tick ht flows
  | ok flow =>
    obtain ⟨rfl, rfl⟩ := flows
    have hr : runFor capacity script.view 1 s =
        .ended (.halted code) ⟨ip, s.steps + 1, .ofList store.bytes⟩ := by
      simp only [runFor, ht]
      rfl
    exact ⟨1, Or.inr ⟨_, hr, rfl⟩⟩

theorem realizes_divisionByZero (lies : Lies script.code.toList ip [i])
    (faults : Meets (i.step capacity script.data) (.ofList before) (fun _ _ => False)
      (fun f => f = .fault .divisionByZero)) (hs : s.At ip before) :
    Realizes capacity script.view bound s (.error .divisionByZero) Q := by
  obtain ⟨result, stack, hr, ht⟩ := tick_eq capacity lies hs
  unfold Meets at faults
  rw [hr] at faults
  cases result with
  | error f =>
    obtain rfl : f = .fault .divisionByZero := faults
    have hr : runFor capacity script.view 1 s =
        .faulted ⟨ip, .divisionByZero⟩ ⟨ip, s.steps + 1, stack⟩ := by
      simp only [runFor, ht]
      rfl
    exact ⟨1, Or.inr ⟨_, _, hr, rfl⟩⟩
  | ok flow => exact faults.elim

end

end Machine

namespace Evaluation

variable {x y z : Bytes} {p q : Primitive}

@[simp] theorem length_ofWord {w : Nat} (z : BitVec (8 * w)) : (Bytes.ofWord z).length = w :=
  Bytes.length_ofNat ..

@[simp] theorem length_ofFloat (p : Primitive) (v : Floating.Value) :
    (ofFloat p v).length = p.size :=
  Bytes.length_ofNat ..

theorem length_numeric (f : Floating.Value → Floating.Value → Floating.Value)
    (g : BitVec (8 * p.size) → BitVec (8 * p.size) → BitVec (8 * p.size)) :
    (numeric p f g x y).length = p.size := by
  unfold numeric
  split
  · exact length_ofFloat ..
  · exact length_ofWord _

theorem length_divided {f : Floating.Value → Floating.Value → Floating.Value}
    {g : BitVec (8 * p.size) → BitVec (8 * p.size) → BitVec (8 * p.size)}
    (h : divided p f g x y = .ok z) : z.length = p.size := by
  unfold divided at h
  split at h
  · cases h
  · cases h
    exact length_numeric ..

theorem length_binary {op : BinaryOp} (h : binary op p x y = .ok z) :
    z.length = Typing.resultSize op p := by
  cases op with
  | div => exact length_divided h
  | mod => exact length_divided h
  | add => cases h; exact length_numeric ..
  | sub => cases h; exact length_numeric ..
  | mul => cases h; exact length_numeric ..
  | shiftLeft | shiftRight | bitAnd | bitOr | bitXor | and | or => cases h; exact length_ofWord _
  | eq | ne | lt | le | gt | ge => cases h; rfl

theorem length_unary (op : UnaryOp) : (unary op p x).length = p.size := by
  cases op with
  | not => exact length_ofWord _
  | neg | inc | dec =>
    simp only [unary]
    split
    · exact length_ofFloat ..
    · exact length_ofWord _

theorem length_convert {c : Conversion} (suits : c.Suits p q) :
    (convert c p q x).length = q.size := by
  cases c with
  | unneeded | impossible => exact suits.elim
  | widenInteger | resizeInteger | floatToInteger => exact length_ofWord _
  | widenFloat | narrowFloat | integerToFloat => exact length_ofFloat ..

end Evaluation

/-- The data contain the constants of a pool, and the addresses of texts are known. -/
def Holding (data : Bytes) (texts : String → Option Nat) (pool : Pool) : Prop :=
  ∀ k offset, pool.find? k = some offset → Bytes.slice? data offset k.size = some k.toBytes ∧
    ∀ value, k = .text value → texts value = some offset

theorem Holding.of_grows {data : Bytes} {texts : String → Option Nat} {pool later : Pool}
    (h : Holding data texts later) (grows : pool.Grows later) : Holding data texts pool :=
  fun k offset hk => h k offset (grows.find? hk)

namespace Typing

open Machine

variable {env : Environment} {notes : Notes} {scopes : Scopes} {frames : List Frame} {pool : Pool}
  {e : Expr} {v : Lowering.Value}

theorem Coded.grows (h : Coded env notes scopes frames pool e v) : pool.Grows v.pool := by
  induction h with
  | literal _ _ _ _ settled => exact Lowering.grows_settle settled (Pool.grows_store ..)
  | place _ _ _ _ _ _ _ _ settled => exact Lowering.grows_settle settled (.refl _)
  | binary _ _ _ _ _ _ _ _ settled ihl ihr =>
    have grown := ihl.trans ihr
    exact Lowering.grows_settle settled grown
  | unary _ _ _ _ _ _ settled ih =>
    have grown := ih
    exact Lowering.grows_settle settled grown
  | cast _ _ _ _ settled ih =>
    have grown := ih
    exact Lowering.grows_settle settled grown

variable {capacity bound ip : Nat} {script : Script} {s : State} {base x : Bytes}

theorem realizes_coerced {note : Note} (suited : Suited note) {cs : List Instruction}
    (hc : Lowering.coercion note = some cs) (lies : Lies script.code.toList ip cs)
    (hx : x.length = note.ty.size) (hs : s.At ip (base ++ x)) :
    Realizes capacity script.view bound s (coerced note x)
      fun y t => y.length = note.finalType.size ∧ t.At (ip + cs.length) (base ++ y) := by
  unfold Lowering.coercion at hc
  unfold coerced Note.finalType
  cases hk : note.coercion with
  | none =>
    rw [hk] at hc
    cases hc
    exact realizes_ok ⟨hx, hs⟩
  | some k =>
    obtain ⟨p, q, hp, hq, suits⟩ := suited k hk
    obtain ⟨i, hi⟩ := suits.instruction?
    simp only [hk, hp, hq, Option.bind_some, Option.map_some, hi, Option.toList_some,
      Option.some.injEq] at hc
    subst hc
    have hxp : x.length = p.size := hx.trans (Ty.size_of_primitive hp)
    simp only [hp, hq, require_some, ok_bind]
    refine Realizes.turn lies (Conversion.turns_convert suits hi hxp) hs fun t ht => ?_
    exact realizes_ok ⟨(length_convert suits).trans (Ty.size_of_primitive hq).symm, ht⟩

theorem realizes_settled {note : Note} (suited : Suited note) {b : Lowering.Value}
    (settled : Lowering.settle note b = some v) (hb : b.ty = note.ty) {front : List Instruction}
    {i : Instruction} (hcode : b.code = front ++ [i]) (lies : Lies script.code.toList ip v.code)
    {before : Bytes} (turns : i.Turns capacity script.data before (base ++ x))
    (hx : x.length = note.ty.size) (hs : s.At (ip + front.length) before) :
    Realizes capacity script.view bound s (coerced note x)
      fun y t => y.length = v.ty.size ∧ t.At (ip + v.code.length) (base ++ y) := by
  have hty := Coded.settled_ty settled hb
  obtain ⟨cs, hc, rfl⟩ := Option.map_eq_some_iff.mp settled
  dsimp only at hty
  rw [hcode, List.append_assoc] at lies
  have hl : ip + (b.code ++ cs).length = ip + front.length + 1 + cs.length := by
    simp [hcode]
    omega
  simp only [hty, hl]
  refine Realizes.turn lies.right.left turns hs fun t ht => ?_
  exact realizes_coerced suited hc lies.right.right hx ht

theorem part_of_prefix {bs base : Bytes} (h : bs <+: base) {a n : Nat} (hn : a + n ≤ bs.length) :
    part base a n = part bs a n := by
  obtain ⟨rest, rfl⟩ := h
  have h : part ([] ++ bs ++ rest) (([] : Bytes).length + a) n = part bs a n := part_append hn
  simpa using h

/-- The code of an expression leaves its value on the stack, above the variables. -/
theorem Coded.realized (h : Coded env notes scopes frames pool e v) (sound : env.Sound)
    (small : env.Small) (known : KnownScopes env scopes) (agree : Agree frames scopes)
    {store : Store} (holds : Holds frames store) {n : Nat} (tiled : Tiled frames n)
    (hn : n < 4294967296) {annotations : Annotations} (ha : annotations.notes = notes)
    (data : script.data.length ≤ 4294967296)
    (holding : Holding script.data annotations.texts v.pool)
    (lies : Lies script.code.toList ip v.code) (bottom : store.bytes <+: base)
    (hs : s.At ip base) :
    Realizes capacity script.view bound s (Evaluation.expression annotations store e)
      fun x t => x.length = v.ty.size ∧ t.At (ip + v.code.length) (base ++ x) := by
  subst ha
  induction h generalizing ip base s with
  | @literal pool mark value note k v filed constant stored suited settled =>
    have hk := Pool.find?_store_self pool k
    have stored' : (pool.store k).2.Grows v.pool := Lowering.grows_settle settled (.refl _)
    obtain ⟨hd, ht⟩ := holding.of_grows stored' k _ hk
    have hsize : (pool.store k).1 + k.size ≤ script.data.length := by
      by_contra hlt
      simp [Bytes.slice?, hlt] at hd
    rcases literal_code pool stored with ⟨p, bits, rfl, hp, hcode⟩ | ⟨value, rfl, hp, hcode⟩
    · have hpos := p.word_width.1
      have hle := p.size_le
      simp only [Constant.size] at hsize
      simp only [Evaluation.expression, filed, constant, Evaluation.constant, require_some, ok_bind]
      exact realizes_settled suited settled rfl (hcode.trans (List.nil_append _).symm) lies
        (Instruction.turns_pushData (by omega) (by omega) hd) ((length_ofWord _).trans hp.symm) hs
    · simp only [Constant.size] at hsize
      simp only [Evaluation.expression, filed, constant, Evaluation.constant, ht value rfl,
        Option.map_some, require_some, ok_bind]
      exact realizes_settled suited settled rfl (hcode.trans (List.nil_append _).symm) lies
        (Instruction.turns_pushHandle (by omega) (by omega))
        ((Bytes.length_ofNat ..).trans hp.symm) hs
  | @place pool e bare note p offset v noted isPlace filed ty place found knownType suited
      settled =>
    rw [noted.evaluated isPlace sound known agree holds tiled rfl place (ty ▸ found) filed, ← ty]
    obtain ⟨hle, -⟩ := holds.place tiled sound known agree found
    have hlen := holds.length_bytes tiled
    have hbase := bottom.length_le
    refine realizes_settled suited settled rfl (List.nil_append _).symm lies ?_ (length_part hle) hs
    rw [← part_of_prefix bottom hle]
    exact Instruction.turns_pushStack (by omega) (small.known knownType) (by omega)
  | @binary pool mark op left right note l r v p filed onLeft onRight leftType rightType accepted
      size suited settled ihl ihr =>
    obtain ⟨leftNote, filedLeft, hleft⟩ := onLeft.ty_eq
    obtain ⟨cs, -, rfl⟩ := Option.map_eq_some_iff.mp settled
    have liesOperands := lies.left.left
    have liesOperation := lies.left.right
    have lengths : ip + (l.code ++ r.code).length = ip + l.code.length + r.code.length := by
      rw [List.length_append, Nat.add_assoc]
    simp only [Evaluation.expression, filed, filedLeft, ← hleft, leftType, require_some, ok_bind]
    refine Realizes.bind (ihl (holding.of_grows onRight.grows) liesOperands.left bottom hs) ?_
    rintro x t ⟨hx, ht⟩
    have above := bottom.trans (List.prefix_append base x)
    refine Realizes.bind (ihr holding liesOperands.right above ht) ?_
    rintro y u ⟨hy, hu⟩
    rw [Ty.size_of_primitive leftType] at hx
    rw [Ty.size_of_primitive rightType] at hy
    rw [← lengths] at hu
    cases hz : Evaluation.binary op p x y with
    | error e =>
      obtain ⟨rfl, faults⟩ := Lowering.faults_binary op hx hy hz
      exact realizes_divisionByZero liesOperation faults hu
    | ok z =>
      exact realizes_settled suited settled rfl rfl lies (Lowering.turns_binary op hx hy hz)
        ((length_binary hz).trans size.symm) hu
  | @unary pool mark op operand note w v p filed inner innerType accepted size suited settled ih =>
    obtain ⟨operandNote, filedOperand, hoperand⟩ := inner.ty_eq
    obtain ⟨cs, -, rfl⟩ := Option.map_eq_some_iff.mp settled
    simp only [Evaluation.expression, filed, filedOperand, ← hoperand, innerType, require_some,
      ok_bind]
    refine Realizes.bind (ih holding lies.left.left bottom hs) ?_
    rintro x t ⟨hx, ht⟩
    rw [Ty.size_of_primitive innerType] at hx
    exact realizes_settled suited settled rfl rfl lies (Lowering.turns_unary op hx)
      ((length_unary op).trans size.symm) ht
  | @cast pool mark operand written note w v filed inner size suited settled ih =>
    have hty := settled_ty settled rfl
    obtain ⟨cs, hc, rfl⟩ := Option.map_eq_some_iff.mp settled
    simp only [Evaluation.expression, filed, require_some, ok_bind]
    refine Realizes.bind (ih holding lies.left bottom hs) ?_
    rintro x t ⟨hx, ht⟩
    refine (realizes_coerced suited hc lies.right (hx.trans size) ht).mono (Nat.le_refl _) ?_
    rintro y u ⟨hy, hu⟩
    dsimp only at hty ⊢
    rw [List.length_append, ← Nat.add_assoc, hty]
    exact ⟨hy, hu⟩

end Typing

end Bytescript
