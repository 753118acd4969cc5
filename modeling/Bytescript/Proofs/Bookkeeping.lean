import Mathlib
import Bytescript.Proofs.Depth
import Bytescript.Proofs.Generation

/-!
# Counting, frames and jumps of an assembly

An assembly counts the bytes on the stack, keeps its frames and reserves the slots of jumps that are
directed later. This module is about any sequence of actions, not only those of the generator. An
action changes the frames, the constants or one open jump, and then appends instructions.
-/
namespace Bytescript

namespace Instruction

/-- The number of bytes that some instructions push less those that they pop. -/
def net (is : List Instruction) : Int := (is.map fun i => (i.effect.2 : Int) - i.effect.1).sum

theorem net_cons (i : Instruction) (is : List Instruction) :
    net (i :: is) = i.effect.2 - i.effect.1 + net is := rfl

theorem net_append (is js : List Instruction) : net (is ++ js) = net is + net js := by
  simp [net]

/-- On a stack of `n` bytes, each of some instructions finds the bytes that it pops. -/
def Afforded : Nat → List Instruction → Prop
  | _, [] => True
  | n, i :: is => i.effect.1 ≤ n ∧ Afforded (n - i.effect.1 + i.effect.2) is

/-- The size of the stack after each of some instructions fits in 32 bits. -/
def Held : Nat → List Instruction → Prop
  | _, [] => True
  | n, i :: is =>
    n - i.effect.1 + i.effect.2 < wordLimit ∧ Held (n - i.effect.1 + i.effect.2) is

instance decidableAfforded : (n : Nat) → (is : List Instruction) → Decidable (Afforded n is)
  | _, [] => inferInstanceAs (Decidable True)
  | n, i :: is =>
    have := decidableAfforded (n - i.effect.1 + i.effect.2) is
    inferInstanceAs (Decidable (_ ∧ _))

instance decidableHeld : (n : Nat) → (is : List Instruction) → Decidable (Held n is)
  | _, [] => inferInstanceAs (Decidable True)
  | n, i :: is =>
    have := decidableHeld (n - i.effect.1 + i.effect.2) is
    inferInstanceAs (Decidable (_ ∧ _))

theorem counted_of_afforded {n : Nat} {is : List Instruction} (afforded : Afforded n is)
    (held : Held n is) : Counted n is := by
  induction is generalizing n with
  | nil => trivial
  | cons i is ih => exact ⟨⟨afforded.1, held.1⟩, ih afforded.2 held.2⟩

theorem depthAfter_eq_of_counted {n : Nat} {is : List Instruction} (h : Counted n is) :
    (depthAfter n is : Int) = n + net is := by
  induction is generalizing n with
  | nil => simp [net]
  | cons i is ih =>
    obtain ⟨⟨enough, -⟩, rest⟩ := h
    rw [depthAfter_cons, ih rest, net_cons]
    omega

theorem net_set {is : List Instruction} {k : Nat} {i j : Instruction} (hk : is[k]? = some i)
    (same : j.effect = i.effect) : net (is.set k j) = net is := by
  induction is generalizing k with
  | nil => rfl
  | cons x is ih =>
    cases k with
    | zero =>
      cases hk
      rw [List.set_cons_zero, net_cons, net_cons, same]
    | succ k => rw [List.set_cons_succ, net_cons, net_cons, ih hk]

end Instruction

namespace Assembly

open Instruction

/-- The actions on an assembly. The constants may be changed in any way. -/
inductive Action where
  | emit (i : Instruction)
  | openFrame
  | closeFrame
  | define (name : String) (ty : Ty)
  | replacePool (pool : Pool)
  | pushConstant (c : Constant) (ty : Ty)
  | pushStack (offset : Nat) (ty : Ty)
  | pushZero (ty : Ty)
  | assign (offset size : Nat)
  | pop (count : Nat)
  | discard (s : Slot)
  | flush (s : Slot)
  | binary (op : Opcode) (operand : Primitive) (result : Ty)
  | unary (op : Opcode) (operand : Primitive) (result : Ty)
  | convert (source target : Primitive) (c : Conversion)
  | openJump (conditional : Bool)
  | closeJump (j : Jump) (conditional : Bool)
  | halt (code : Int32)
  | debug

namespace Action

def opens? : Action → Option Bool
  | openJump conditional => some conditional
  | _ => none

def directs? : Action → Option (Nat × Bool)
  | closeJump (.forward slot) conditional => some (slot, conditional)
  | _ => none

def stores? : Action → Option Constant
  | pushConstant c _ => some c
  | _ => none

end Action

def perform (a : Assembly) : Action → Checked Assembly
  | .emit i => a.emit i
  | .openFrame => .ok a.openFrame
  | .closeFrame => a.closeFrame.map Prod.snd
  | .define name ty => .ok (((a.define name ty).map Prod.snd).toOption.getD a)
  | .replacePool pool => .ok { a with pool }
  | .pushConstant c ty => (a.pushConstant c ty).map Prod.snd
  | .pushStack offset ty => (a.pushStack offset ty).map Prod.snd
  | .pushZero ty => (a.pushZero ty).map Prod.snd
  | .assign offset size => a.assign offset size
  | .pop count => a.pop count
  | .discard s => a.discard s
  | .flush s => (a.flush s).map Prod.snd
  | .binary op operand result => (a.binary op operand result).map Prod.snd
  | .unary op operand result => (a.unary op operand result).map Prod.snd
  | .convert source target c => (a.convert source target c).map Prod.snd
  | .openJump conditional => (a.openJump conditional).map Prod.snd
  | .closeJump j conditional => a.closeJump j conditional
  | .halt code => a.halt code
  | .debug => a.debug

def storing (a : Assembly) (c : Constant) : Nat × Pool := (a.pool.add c).toOption.getD (0, a.pool)

/-- The assembly after an action, before its instructions are appended. -/
def prepared (a : Assembly) : Action → Assembly
  | .openFrame => a.openFrame
  | .closeFrame => { a with frames := a.frames.tail }
  | .define name ty => ((a.define name ty).map Prod.snd).toOption.getD a
  | .replacePool pool => { a with pool }
  | .pushConstant c _ => { a with pool := (a.storing c).2 }
  | .closeJump (.forward slot) conditional =>
    { a with code := a.code.setIfInBounds slot (Lowering.jump conditional a.position) }
  | _ => a

def issued (a : Assembly) : Action → List Instruction
  | .emit i => [i]
  | .closeFrame =>
    match a.frames with
    | [] => []
    | frame :: _ => Lowering.drop (a.stackSize - frame.entrySize)
  | .pushConstant c ty =>
    let offset := (a.storing c).1
    [if ty.isHandle then .worded .pushHandle offset else .sized .pushData ty.size offset]
  | .pushStack offset ty => [.sized .pushStack ty.size offset]
  | .pushZero ty => [.worded .pushZero ty.size]
  | .assign offset size => [.sized .assign size offset]
  | .pop count => [.worded .pop count]
  | .discard s => Lowering.drop s.size
  | .flush s => s.pending
  | .binary op operand _ | .unary op operand _ => [.typed op operand.size (.ofPrimitive operand)]
  | .convert source target c => (c.instruction? source target).toList
  | .openJump conditional => [Lowering.jump conditional noTarget]
  | .closeJump (.back target) conditional => [Lowering.jump conditional target]
  | .halt code => [.halt code]
  | .debug => [.plain .debug]
  | _ => []

def Ready (a : Assembly) (x : Action) : Prop :=
  (∀ j ∈ x.directs?, ∃ i, a.code[j.1]? = some i ∧ i.opcode? = some (jumpOpcode j.2)) ∧
    ∀ c ∈ x.stores?, ∃ r, a.pool.add c = .ok r

theorem map_snd_eq_ok_iff {α : Type} {x : Checked Assembly} {y : α} {b : Assembly} :
    (do return (y, ← x) : Checked (α × Assembly)).map Prod.snd = .ok b ↔ x = .ok b := by
  cases x <;> simp [Except.map, bind, Except.bind, pure, Except.pure]

theorem nothing_eq_ok_iff {a b : Assembly} :
    (.ok a : Checked Assembly) = .ok b ↔ Counted a.stackSize [] ∧ b = a.appended [] a.pool := by
  have same : a.appended [] a.pool = a := by simp [appended]
  simp [same, eq_comm]

theorem drop_eq_ok_iff {a b : Assembly} {n : Nat} :
    (if n = 0 then .ok a else a.pop n) = .ok b ↔
      Counted a.stackSize (Lowering.drop n) ∧ b = a.appended (Lowering.drop n) a.pool := by
  unfold Lowering.drop
  split
  · exact nothing_eq_ok_iff
  · exact emit_eq_ok_iff

/-- An action prepares the assembly and appends the instructions that it issues. -/
theorem perform_eq_ok_iff {a b : Assembly} {x : Action} :
    a.perform x = .ok b ↔ a.Ready x ∧ Counted (a.prepared x).stackSize (a.issued x) ∧
      b = (a.prepared x).appended (a.issued x) (a.prepared x).pool := by
  have ready (hd : x.directs? = none) (hs : x.stores? = none) : a.Ready x := by simp [Ready, hd, hs]
  cases x with
  | closeFrame =>
    simp only [ready rfl rfl, true_and, perform, prepared, issued, closeFrame]
    split
    · next empty =>
      simp only [empty, List.tail_nil]
      rw [← empty]
      exact nothing_eq_ok_iff
    · next frame rest frames =>
      simp only [frames, List.tail_cons, Lowering.drop]
      by_cases h : a.stackSize - frame.entrySize = 0
      · simp only [h, if_true]
        exact map_snd_eq_ok_iff.trans nothing_eq_ok_iff
      · simp only [h, if_false]
        exact map_snd_eq_ok_iff.trans emit_eq_ok_iff
  | convert source target c =>
    simp only [ready rfl rfl, true_and, perform, convert, prepared, issued]
    split
    · next i hi =>
      rw [map_snd_eq_ok_iff, hi]
      exact emit_eq_ok_iff
    · next hi =>
      rw [hi]
      exact nothing_eq_ok_iff
  | pushConstant c ty =>
    simp only [perform, prepared, issued, storing, pushConstant]
    cases stored : a.pool.add c with
    | error p =>
      have full : ¬ a.Ready (.pushConstant c ty) := by simp [Ready, Action.stores?, stored]
      simp [full, bind, Except.bind, Except.map]
    | ok r =>
      have room : a.Ready (.pushConstant c ty) := by
        refine ⟨by simp [Action.directs?], fun c hc => ?_⟩
        cases hc
        exact ⟨r, stored⟩
      simp only [room, true_and]
      exact map_snd_eq_ok_iff.trans emit_eq_ok_iff
  | closeJump j conditional =>
    cases j with
    | forward slot =>
      have open' : a.Ready (.closeJump (.forward slot) conditional) ↔
          ∃ i, a.code[slot]? = some i ∧ i.opcode? = some (jumpOpcode conditional) := by
        simp [Ready, Action.directs?, Action.stores?]
      rw [open', perform, closeJump_forward_eq_ok_iff]
      constructor
      · rintro ⟨i, hi, kind, rfl⟩
        exact ⟨⟨i, hi, kind⟩, nothing_eq_ok_iff.mp rfl⟩
      · rintro ⟨⟨i, hi, kind⟩, done⟩
        exact ⟨i, hi, kind, (Except.ok.inj (nothing_eq_ok_iff.mpr done)).symm⟩
    | back target =>
      simp only [ready rfl rfl, true_and, perform, prepared, issued, closeJump]
      exact emit_eq_ok_iff
  | openFrame | define | replacePool =>
    simp only [ready rfl rfl, true_and, perform, prepared, issued]
    exact nothing_eq_ok_iff
  | flush s =>
    simp only [ready rfl rfl, true_and, perform, prepared, issued, flush]
    exact map_snd_eq_ok_iff.trans emitAll_eq_ok_iff
  | discard s =>
    simp only [ready rfl rfl, true_and, perform, prepared, issued, discard]
    exact drop_eq_ok_iff
  | pushStack | pushZero | binary | unary | openJump =>
    simp only [ready rfl rfl, true_and, perform, prepared, issued, pushStack, pushZero, binary,
      unary, operate, openJump]
    exact map_snd_eq_ok_iff.trans emit_eq_ok_iff
  | emit | assign | pop | halt | debug =>
    simp only [ready rfl rfl, true_and, perform, prepared, issued, assign, pop, halt, debug]
    exact emit_eq_ok_iff

@[simp] theorem stackSize_prepared (a : Assembly) (x : Action) :
    (a.prepared x).stackSize = a.stackSize := by
  cases x with
  | define name ty =>
    simp only [prepared, define]
    split
    · rfl
    · split <;> rfl
  | closeJump j conditional => cases j <;> rfl
  | _ => rfl

theorem code_prepared {a : Assembly} {x : Action} (h : x.directs? = none) :
    (a.prepared x).code = a.code := by
  cases x with
  | define name ty =>
    simp only [prepared, define]
    split
    · rfl
    · split <;> rfl
  | closeJump j conditional =>
    cases j with
    | forward slot => cases h
    | back target => rfl
  | _ => rfl

theorem net_prepared {a : Assembly} {x : Action} (ready : a.Ready x) :
    net (a.prepared x).code.toList = net a.code.toList ∧
      ∀ k : Nat, (a.prepared x).code[k]?.map opcode? = a.code[k]?.map opcode? := by
  cases directs : x.directs? with
  | none => simp [code_prepared directs]
  | some j =>
    obtain ⟨slot, conditional⟩ := j
    obtain rfl : x = .closeJump (.forward slot) conditional := by
      cases x with
      | closeJump j conditional =>
        cases j <;> cases directs
        rfl
      | _ => cases directs
    obtain ⟨i, hi, kind⟩ := ready.1 _ rfl
    have new : (Lowering.jump conditional a.position).opcode? = some (jumpOpcode conditional) :=
      opcode?_worded _ _
    simp only [prepared]
    constructor
    · rw [Array.toList_setIfInBounds]
      refine net_set (i := i) (by rw [Array.getElem?_toList, hi]) ?_
      rw [Lowering.effect_of_jump kind, Lowering.effect_jump]
    · intro k
      rw [Array.getElem?_setIfInBounds]
      split
      · next here =>
        subst here
        have inside : slot < a.code.size := (Array.getElem?_eq_some_iff.mp hi).1
        rw [if_pos inside, hi, Option.map_some, Option.map_some, new, kind]
      · rfl

def Action.Plain (x : Action) : Prop := x ≠ .openFrame ∧ x ≠ .closeFrame

/-- A plain action changes only the innermost frame, and not where it starts. -/
theorem frames_perform {a b : Assembly} {x : Action} (plain : x.Plain) (h : a.perform x = .ok b)
    {f : Frame} {rest : List Frame} (hf : a.frames = f :: rest) :
    ∃ g, b.frames = g :: rest ∧ g.entrySize = f.entrySize := by
  obtain ⟨-, -, rfl⟩ := perform_eq_ok_iff.mp h
  rw [frames_appended]
  cases x with
  | openFrame => exact absurd rfl plain.1
  | closeFrame => exact absurd rfl plain.2
  | define name ty =>
    simp only [prepared, define, hf]
    split
    · exact ⟨f, hf, rfl⟩
    · exact ⟨_, rfl, rfl⟩
  | closeJump j conditional => cases j <;> exact ⟨f, hf, rfl⟩
  | _ => exact ⟨f, hf, rfl⟩

def performAll (a : Assembly) : List Action → Checked Assembly
  | [] => .ok a
  | x :: xs => a.perform x >>= fun b => b.performAll xs

theorem performAll_append {a c : Assembly} {xs ys : List Action} :
    a.performAll (xs ++ ys) = .ok c ↔ ∃ b, a.performAll xs = .ok b ∧ b.performAll ys = .ok c := by
  induction xs generalizing a with
  | nil => simp [performAll]
  | cons x xs ih =>
    simp only [List.cons_append, performAll, bind_eq_ok_iff, ih]
    constructor
    · rintro ⟨d, hd, b, hb, hc⟩
      exact ⟨b, ⟨d, hd, hb⟩, hc⟩
    · rintro ⟨b, ⟨d, hd, hb⟩, hc⟩
      exact ⟨d, hd, b, hb, hc⟩

theorem stackSize_perform_lt {a b : Assembly} {x : Action} (h : a.perform x = .ok b)
    (ha : a.stackSize < wordLimit) : b.stackSize < wordLimit := by
  obtain ⟨-, counted, rfl⟩ := perform_eq_ok_iff.mp h
  exact counted.depthAfter_lt (by rwa [stackSize_prepared])

theorem stackSize_performAll_lt {a b : Assembly} {xs : List Action} (h : a.performAll xs = .ok b)
    (ha : a.stackSize < wordLimit) : b.stackSize < wordLimit := by
  induction xs generalizing a with
  | nil =>
    cases h
    exact ha
  | cons x xs ih =>
    obtain ⟨c, hc, hb⟩ := bind_eq_ok_iff.mp h
    exact ih hb (stackSize_perform_lt hc ha)

/-- The sequences of actions that close the frames that they open, and no others. -/
inductive Balanced : List Action → Prop
  | nil : Balanced []
  | plain {x : Action} {xs : List Action} (h : x.Plain) (rest : Balanced xs) : Balanced (x :: xs)
  | nested {inner xs : List Action} (h : Balanced inner) (rest : Balanced xs) :
      Balanced (.openFrame :: inner ++ .closeFrame :: xs)

theorem Balanced.frames_performAll {xs : List Action} (balanced : Balanced xs) {a b : Assembly}
    (h : a.performAll xs = .ok b) {f : Frame} {rest : List Frame} (hf : a.frames = f :: rest) :
    ∃ g, b.frames = g :: rest ∧ g.entrySize = f.entrySize := by
  induction balanced generalizing a b f rest with
  | nil =>
    cases h
    exact ⟨f, hf, rfl⟩
  | plain plain _ ih =>
    obtain ⟨c, hc, hb⟩ := bind_eq_ok_iff.mp h
    obtain ⟨g, hg, same⟩ := frames_perform plain hc hf
    obtain ⟨k, hk, same'⟩ := ih hb hg
    exact ⟨k, hk, same'.trans same⟩
  | nested _ _ ihInner ihRest =>
    -- inside, this frame is one of those further out, which are left alone
    obtain ⟨c, hc, hb⟩ := performAll_append.mp h
    obtain ⟨_, opened, inner⟩ := bind_eq_ok_iff.mp hc
    cases opened
    obtain ⟨d, closed, others⟩ := bind_eq_ok_iff.mp hb
    have hf' : a.openFrame.frames = ⟨a.stackSize, []⟩ :: a.frames := rfl
    obtain ⟨g, hg, -⟩ := ihInner inner hf'
    obtain ⟨-, -, rfl⟩ := perform_eq_ok_iff.mp closed
    refine ihRest others ?_
    rw [frames_appended]
    simp only [prepared, hg, List.tail_cons, hf]

/-- A frame that is closed when at least as many bytes are on the stack as when it was opened leaves
the stack and the frames unchanged, with at most one more instruction. -/
theorem Balanced.closeFrame {inner : List Action} (balanced : Balanced inner) {a b : Assembly}
    (h : a.openFrame.performAll inner = .ok b) (ha : a.stackSize < wordLimit)
    (above : a.stackSize ≤ b.stackSize) :
    ∃ c, b.perform .closeFrame = .ok c ∧ c.stackSize = a.stackSize ∧ c.frames = a.frames ∧
      (c.code = b.code ∨ ∃ n, c.code = b.code.push (.worded .pop n)) := by
  obtain ⟨g, frames, entry⟩ := balanced.frames_performAll h (f := ⟨a.stackSize, []⟩) rfl
  have fits : b.stackSize - a.stackSize < wordLimit :=
    (Nat.sub_le ..).trans_lt (stackSize_performAll_lt h ha)
  have issued : b.issued .closeFrame = Lowering.drop (b.stackSize - a.stackSize) := by
    simp only [Assembly.issued, frames, entry]
  obtain ⟨counted, depth, code⟩ : Counted b.stackSize (b.issued .closeFrame) ∧
      depthAfter b.stackSize (b.issued .closeFrame) = a.stackSize ∧
      (b.issued .closeFrame = [] ∨ ∃ n, b.issued .closeFrame = [.worded .pop n]) := by
    rw [issued, Lowering.drop]
    split
    · next nothing => exact ⟨trivial, by rw [depthAfter_nil]; omega, .inl rfl⟩
    · have effect := effect_pop fits
      refine ⟨⟨?_, trivial⟩, ?_, .inr ⟨_, rfl⟩⟩
      · rw [effect]
        dsimp only
        omega
      · rw [depthAfter_cons, depthAfter_nil, effect]
        dsimp only
        omega
  have ready : b.Ready .closeFrame := by simp [Ready, Action.directs?, Action.stores?]
  refine ⟨_, perform_eq_ok_iff.mpr ⟨ready, ?_, rfl⟩, ?_, ?_, ?_⟩
  · rwa [stackSize_prepared]
  · change depthAfter (b.prepared .closeFrame).stackSize _ = _
    rw [stackSize_prepared, depth]
  · rw [frames_appended]
    simp only [prepared, frames, List.tail_cons]
  · obtain none | ⟨n, one⟩ := code
    · exact .inl (by rw [none]; simp [appended, prepared])
    · exact .inr ⟨n, by rw [one]; simp [appended, prepared]⟩

/-- An assembly, and the jumps that have been opened, with the kind of each. -/
structure Session where
  assembly : Assembly
  opened : List (Nat × Bool)

namespace Session

def start : Session := ⟨.start, []⟩

def perform (s : Session) (x : Action) : Checked Session := do
  let assembly ← s.assembly.perform x
  let opened := x.opens?.map fun conditional => (s.assembly.position, conditional)
  return ⟨assembly, opened.toList ++ s.opened⟩

def performAll (s : Session) : List Action → Checked Session
  | [] => .ok s
  | x :: xs => s.perform x >>= fun t => t.performAll xs

/-- The stack has the bytes that an action pops, and the jump that it directs, if any, was opened as
one of that kind. -/
def Permits (s : Session) (x : Action) : Prop :=
  Afforded s.assembly.stackSize (s.assembly.issued x) ∧ ∀ j ∈ x.directs?, j ∈ s.opened

/-- The sizes that an action counts and the offset of the constant that it stores fit in 32 bits. -/
def Holds (s : Session) (x : Action) : Prop :=
  Held s.assembly.stackSize (s.assembly.issued x) ∧
    ∀ c ∈ x.stores?, (s.assembly.pool.add c).isOk

instance (s : Session) (x : Action) : Decidable (s.Permits x) :=
  inferInstanceAs (Decidable (_ ∧ _))

instance (s : Session) (x : Action) : Decidable (s.Holds x) :=
  inferInstanceAs (Decidable (_ ∧ _))

/-- Each of some actions has a property when its turn comes. -/
def Along (p : Session → Action → Prop) (s : Session) : List Action → Prop
  | [] => True
  | x :: xs => p s x ∧ ∀ t, s.perform x = .ok t → t.Along p xs

instance decidableAlong (p : Session → Action → Prop) [∀ s x, Decidable (p s x)] :
    (s : Session) → (xs : List Action) → Decidable (s.Along p xs)
  | _, [] => inferInstanceAs (Decidable True)
  | s, x :: xs =>
    have : Decidable (∀ t, s.perform x = .ok t → t.Along p xs) :=
      match h : s.perform x with
      | .ok t =>
        have := decidableAlong p t xs
        decidable_of_iff (t.Along p xs) (by simp)
      | .error _ => .isTrue (by simp)
    inferInstanceAs (Decidable (_ ∧ _))

theorem perform_eq_ok_iff {s t : Session} {x : Action} :
    s.perform x = .ok t ↔ ∃ b, s.assembly.perform x = .ok b ∧
      t = ⟨b, (x.opens?.map fun conditional => (s.assembly.position, conditional)).toList ++
        s.opened⟩ := by
  rw [perform, bind_eq_ok_iff]
  simp [pure, Except.pure, eq_comm]

theorem assembly_performAll {s t : Session} {xs : List Action} (h : s.performAll xs = .ok t) :
    s.assembly.performAll xs = .ok t.assembly := by
  induction xs generalizing s with
  | nil =>
    cases h
    rfl
  | cons x xs ih =>
    obtain ⟨u, hu, ht⟩ := bind_eq_ok_iff.mp h
    obtain ⟨b, hb, rfl⟩ := perform_eq_ok_iff.mp hu
    exact bind_eq_ok_iff.mpr ⟨b, hb, ih ht⟩

/-- The count is right and fits in 32 bits, and at each opened slot there is a jump of its kind. -/
structure Kept (s : Session) : Prop where
  size : (s.assembly.stackSize : Int) = net s.assembly.code.toList
  low : s.assembly.stackSize < wordLimit
  jump : ∀ slot conditional, (slot, conditional) ∈ s.opened →
    ∃ i, s.assembly.code[slot]? = some i ∧ i.opcode? = some (jumpOpcode conditional)

theorem kept_start : start.Kept := ⟨rfl, by decide, by simp [start]⟩

theorem mem_opened {x : Action} {opened : List (Nat × Bool)} {position slot : Nat}
    {conditional : Bool}
    (h : (slot, conditional) ∈ (x.opens?.map fun kind => (position, kind)).toList ++ opened) :
    (slot, conditional) ∈ opened ∨ x = .openJump conditional ∧ slot = position := by
  cases x with
  | openJump kind =>
    rcases List.mem_cons.mp h with new | old
    · cases new
      exact .inr ⟨rfl, rfl⟩
    · exact .inl old
  | _ => exact .inl h

theorem Kept.perform {s t : Session} (kept : s.Kept) {x : Action} (h : s.perform x = .ok t) :
    t.Kept := by
  obtain ⟨b, hb, rfl⟩ := perform_eq_ok_iff.mp h
  obtain ⟨ready, counted, rfl⟩ := Assembly.perform_eq_ok_iff.mp hb
  obtain ⟨sum, kinds⟩ := net_prepared ready
  refine ⟨?_, stackSize_perform_lt hb kept.low, fun slot conditional member => ?_⟩
  · have size := depthAfter_eq_of_counted counted
    rw [stackSize_prepared, kept.size] at size
    simp only [Assembly.appended, Array.toList_append, net_append, sum, stackSize_prepared, size]
  · rcases mem_opened member with old | ⟨rfl, rfl⟩
    · obtain ⟨i, hi, kind⟩ := kept.jump slot conditional old
      have same := kinds slot
      rw [hi, Option.map_some, Option.map_eq_some_iff] at same
      obtain ⟨j, hj, hk⟩ := same
      have inside : slot < (s.assembly.prepared x).code.size :=
        (Array.getElem?_eq_some_iff.mp hj).1
      refine ⟨j, ?_, hk.trans kind⟩
      simp only [Assembly.appended]
      rw [Array.getElem?_append_left inside, hj]
    · refine ⟨Lowering.jump conditional noTarget, ?_, opcode?_worded _ _⟩
      simp [Assembly.appended, Assembly.prepared, Assembly.issued, position]

theorem Kept.exists_perform {s : Session} (kept : s.Kept) {x : Action} (permits : s.Permits x)
    (holds : s.Holds x) : ∃ t, s.perform x = .ok t := by
  have ready : s.assembly.Ready x := by
    refine ⟨fun j hj => kept.jump j.1 j.2 (permits.2 j hj), fun c hc => ?_⟩
    have stored := holds.2 c hc
    cases h : s.assembly.pool.add c with
    | ok r => exact ⟨r, rfl⟩
    | error p => simp [h, Except.isOk, Except.toBool] at stored
  have counted : Counted (s.assembly.prepared x).stackSize (s.assembly.issued x) := by
    rw [stackSize_prepared]
    exact counted_of_afforded permits.1 holds.1
  exact ⟨_, perform_eq_ok_iff.mpr ⟨_, Assembly.perform_eq_ok_iff.mpr ⟨ready, counted, rfl⟩, rfl⟩⟩

theorem Kept.performAll {s : Session} (kept : s.Kept) {xs : List Action}
    (permits : s.Along Permits xs) (holds : s.Along Holds xs) :
    ∃ t, s.performAll xs = .ok t ∧ t.Kept := by
  induction xs generalizing s with
  | nil => exact ⟨s, rfl, kept⟩
  | cons x xs ih =>
    obtain ⟨u, hu⟩ := kept.exists_perform permits.1 holds.1
    obtain ⟨t, ht, done⟩ := ih (kept.perform hu) (permits.2 u hu) (holds.2 u hu)
    exact ⟨t, bind_eq_ok_iff.mpr ⟨u, hu, ht⟩, done⟩

/-- For any sequence of actions that pop no more than the stack has, direct each jump as the kind
that it was opened as, and fit in 32 bits: all of them succeed. The count is the number of bytes
that all instructions push less those that they pop. Directing a jump changes only its instruction,
whose target is then the current position modulo 2 ^ 32. A frame that is opened and closed again,
with no fewer bytes on the stack than at first, leaves the count and the variable of each name
unchanged, and closing it appends at most one instruction, which pops. -/
theorem books_kept (xs : List Action) (permits : start.Along Permits xs)
    (holds : start.Along Holds xs) :
    ∃ s, start.performAll xs = .ok s ∧
      (s.assembly.stackSize : Int) = net s.assembly.code.toList ∧
      (∀ slot conditional, (slot, conditional) ∈ s.opened →
        ∃ t, s.perform (.closeJump (.forward slot) conditional) = .ok t ∧
          t.assembly.stackSize = s.assembly.stackSize ∧ t.assembly.frames = s.assembly.frames ∧
          t.assembly.pool = s.assembly.pool ∧ t.assembly.code.size = s.assembly.code.size ∧
          (∀ k, k ≠ slot → t.assembly.code[k]? = s.assembly.code[k]?) ∧
          t.assembly.code[slot]? = some (Lowering.jump conditional s.assembly.position) ∧
          (Lowering.jump conditional s.assembly.position).target? =
            some (s.assembly.position % 2 ^ 32)) ∧
      ∀ inner t, Balanced inner → s.performAll (.openFrame :: inner) = .ok t →
        s.assembly.stackSize ≤ t.assembly.stackSize →
        ∃ u, t.perform .closeFrame = .ok u ∧ u.assembly.stackSize = s.assembly.stackSize ∧
          (u.assembly.code = t.assembly.code ∨
            ∃ n, u.assembly.code = t.assembly.code.push (.worded .pop n)) ∧
          ∀ name, u.assembly.find? name = s.assembly.find? name := by
  obtain ⟨s, done, kept⟩ := kept_start.performAll permits holds
  refine ⟨s, done, kept.size, fun slot conditional member => ?_,
    fun inner t balanced ht above => ?_⟩
  · obtain ⟨i, hi, kind⟩ := kept.jump slot conditional member
    have inside : slot < s.assembly.code.size := (Array.getElem?_eq_some_iff.mp hi).1
    have directed := closeJump_forward_eq_ok_iff.mpr ⟨i, hi, kind, rfl⟩
    refine ⟨_, perform_eq_ok_iff.mpr ⟨_, directed, rfl⟩, rfl, rfl, rfl, Array.size_setIfInBounds,
      fun k hk => Array.getElem?_setIfInBounds_ne hk.symm,
      Array.getElem?_setIfInBounds_self_of_lt inside, target?_jump_mod _ _⟩
  · have inside := assembly_performAll ht
    obtain ⟨c, closed, size, frames, code⟩ := balanced.closeFrame inside kept.low above
    refine ⟨_, perform_eq_ok_iff.mpr ⟨c, closed, rfl⟩, size, code, fun name => ?_⟩
    simp only [find?, frames]

def short : Ty := .of (.ofPrimitive Module.coreName .i16)

def outerActions : List Action :=
  [.pushZero short, .define "x" short, .pushZero (.of (.ofPrimitive Module.coreName .bool)),
    .openJump true]

def innerActions : List Action :=
  [.pushZero short, .define "x" short, .openFrame, .pushZero short, .closeFrame,
    .closeJump (.forward 2) true]

theorem shadowed_books_kept :
    start.Along Permits outerActions ∧ start.Along Holds outerActions ∧ Balanced innerActions ∧
      ∃ s t u, start.performAll outerActions = .ok s ∧
        s.performAll (.openFrame :: innerActions) = .ok t ∧ t.perform .closeFrame = .ok u ∧
        (s.assembly.stackSize : Int) = net s.assembly.code.toList ∧
        (t.assembly.find? "x").map (·.offset) = some 2 ∧ t.assembly.stackSize = 4 ∧
        u.assembly.stackSize = 2 ∧ (u.assembly.find? "x").map (·.offset) = some 0 := by
  have permits : start.Along Permits outerActions := by decide +kernel
  have holds : start.Along Holds outerActions := by decide +kernel
  have balanced : Balanced innerActions :=
    .plain (by simp [Action.Plain]) (.plain (by simp [Action.Plain])
      (.nested (.plain (by simp [Action.Plain]) .nil) (.plain (by simp [Action.Plain]) .nil)))
  obtain ⟨s, t, hs, ht, above, inside, grown, depth, outside⟩ : ∃ s t,
      start.performAll outerActions = .ok s ∧ s.performAll (.openFrame :: innerActions) = .ok t ∧
        s.assembly.stackSize ≤ t.assembly.stackSize ∧
        (t.assembly.find? "x").map (·.offset) = some 2 ∧ t.assembly.stackSize = 4 ∧
        s.assembly.stackSize = 2 ∧ (s.assembly.find? "x").map (·.offset) = some 0 :=
    ⟨_, _, rfl, rfl, by decide +kernel⟩
  obtain ⟨s', done, size, -, framed⟩ := books_kept outerActions permits holds
  cases hs.symm.trans done
  obtain ⟨u, closed, restored, -, names⟩ := framed innerActions t balanced ht above
  exact ⟨permits, holds, balanced, s, t, u, hs, ht, closed, size, inside, grown,
    restored.trans depth, by rw [names, outside]⟩

/-- The second instruction takes the count to 2 ^ 32, and appending it panics. -/
theorem count_past_words :
    let xs : List Action := [.emit (.worded .pushZero 4294967295), .emit (.worded .pushZero 1)]
    start.Along Permits xs ∧ ¬ start.Along Holds xs ∧ start.performAll xs = .error .addition := by
  refine ⟨by decide +kernel, by decide +kernel, rfl⟩

end Session

end Assembly

end Bytescript
