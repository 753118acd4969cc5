import Mathlib
import Bytescript.Proofs.Depth
import Bytescript.Proofs.Evaluation
import Bytescript.Proofs.Placement

/-!
# Variables on the stack

The variables of an evaluation correspond to those of the frames, scope by scope. Their values in a
row are the bytes of the stack: a new variable is pushed on top, a variable is at its offset, and a
part of it at the offset of its place.
-/
namespace Bytescript

open Evaluation

@[simp] theorem Evaluation.require_some {α : Type} (a : α) : require (some a) = .ok a := rfl

@[simp] theorem Evaluation.ok_bind {α β : Type} (a : α) (f : α → Except Ending β) :
    (Except.ok a >>= f) = f a := rfl

theorem Bytes.overwrite_append {front a back y : Bytes} {d : Nat} (h : d + y.length ≤ a.length) :
    Bytes.overwrite (front ++ a ++ back) (front.length + d) y =
      front ++ Bytes.overwrite a d y ++ back := by
  simp only [Bytes.overwrite, List.append_assoc]
  rw [List.take_length_add_append, List.take_append_of_le_length (by omega), Nat.add_assoc,
    List.drop_length_add_append, List.drop_append_of_le_length h]
  simp

theorem Bytes.overwrite_overwrite_part {old new : Bytes} {a n d : Nat} (ha : a + n ≤ old.length)
    (hd : d + new.length ≤ n) :
    Bytes.overwrite old a (Bytes.overwrite (part old a n) d new) =
      Bytes.overwrite old (a + d) new := by
  have hp : (part old a n).length = n := by
    simp only [part, List.length_take, List.length_drop]
    omega
  have hf : (old.take a).length = a := by
    rw [List.length_take]
    omega
  have split : old = old.take a ++ part old a n ++ old.drop (a + n) := by
    rw [List.append_assoc, part, ← List.drop_drop, List.take_append_drop, List.take_append_drop]
  have inner : Bytes.overwrite (old.take a ++ part old a n ++ old.drop (a + n))
      ((old.take a).length + d) new = _ := Bytes.overwrite_append (hp.symm ▸ hd)
  rw [hf, ← split] at inner
  rw [inner, Bytes.overwrite, Bytes.length_overwrite (hp.symm ▸ hd), hp]

theorem Evaluation.part_append {front a back : Bytes} {d n : Nat} (h : d + n ≤ a.length) :
    part (front ++ a ++ back) (front.length + d) n = part a d n := by
  simp only [part, List.append_assoc]
  rw [List.drop_length_add_append, List.drop_append_of_le_length (by omega),
    List.take_append_of_le_length (by rw [List.length_drop]; omega)]

theorem Evaluation.part_self {a : Bytes} {n : Nat} (h : a.length = n) : part a 0 n = a := by
  simp [part, ← h]

theorem Evaluation.part_part (bs : Bytes) {a n b m : Nat} (h : b + m ≤ n) :
    part (part bs a n) b m = part bs (a + b) m := by
  simp only [part]
  rw [List.drop_take, List.take_take, List.drop_drop, Nat.min_eq_left (by omega)]

theorem Evaluation.length_part {bs : Bytes} {a n : Nat} (h : a + n ≤ bs.length) :
    (part bs a n).length = n := by
  simp only [part, List.length_take, List.length_drop]
  omega

def Variable.Binds (v : Variable) (b : Binding) : Prop :=
  b.name = v.name ∧ b.ty = v.ty ∧ b.value.length = v.ty.size

/-- The variables of an evaluation are those of the frames. -/
def Holds (frames : List Frame) (store : Store) : Prop :=
  List.Forall₂ (fun f scope => List.Forall₂ Variable.Binds f.declared scope) frames store

variable {frames : List Frame} {store : Store} {name : String} {n : Nat}

theorem Row.length_flatMap {start stop : Nat} {vs : List Variable} {scope : List Binding}
    (row : Row start vs stop) (binds : List.Forall₂ Variable.Binds vs scope) :
    start + (scope.flatMap Binding.value).length = stop := by
  induction binds generalizing start with
  | nil => exact row
  | cons hb _ ih =>
    have := ih row.2
    rw [List.flatMap_cons, List.length_append, hb.2.2]
    omega

theorem names_eq {vs : List Variable} {scope : List Binding}
    (binds : List.Forall₂ Variable.Binds vs scope) :
    scope.map Binding.name = vs.map Variable.name := by
  induction binds with
  | nil => rfl
  | cons hb _ ih => rw [List.map_cons, List.map_cons, hb.1, ih]

theorem map_updated_of_ne {scope : List Binding} (h : ∀ b ∈ scope, b.name ≠ name) (x : Bytes) :
    scope.map (Binding.updated name x) = scope := by
  rw [List.map_congr_left (g := id), List.map_id]
  intro b hb
  exact if_neg (h b hb)

/-- A variable is between other bytes of its scope, and setting it changes nothing else. -/
structure Lodged (vs : List Variable) (scope : List Binding) (v : Variable) (b : Binding)
    (front back : Bytes) : Prop where
  binds : v.Binds b
  find? : scope.find? (fun c => c.name == v.name) = some b
  bytes : scope.flatMap Binding.value = front ++ b.value ++ back
  set : ∀ x : Bytes, x.length = v.ty.size →
    List.Forall₂ Variable.Binds vs (scope.map (Binding.updated v.name x)) ∧
      (scope.map (Binding.updated v.name x)).flatMap Binding.value = front ++ x ++ back

theorem Row.find? {start stop : Nat} {vs : List Variable} {scope : List Binding}
    (row : Row start vs stop) (binds : List.Forall₂ Variable.Binds vs scope)
    (nodup : (vs.map Variable.name).Nodup) {v : Variable}
    (hv : vs.find? (fun v => v.name == name) = some v) :
    ∃ b front back, Lodged vs scope v b front back ∧ start + front.length = v.offset := by
  induction binds generalizing start with
  | nil => cases hv
  | @cons u b vs scope hb binds ih =>
    rw [List.map_cons, List.nodup_cons] at nodup
    by_cases hn : u.name = name
    · obtain rfl : u = v := by simpa [List.find?_cons, hn] using hv
      have others : ∀ c ∈ scope, c.name ≠ u.name := by
        intro c hc he
        rw [← names_eq binds] at nodup
        exact nodup.1 (he ▸ List.mem_map_of_mem hc)
      refine ⟨b, [], scope.flatMap Binding.value, ⟨hb, ?_, rfl, fun x hx => ?_⟩, row.1.symm⟩
      · simp [hb.1]
      · have hu : b.updated u.name x = { b with value := x } := if_pos hb.1
        rw [List.map_cons, map_updated_of_ne others, hu]
        exact ⟨.cons ⟨hb.1, hb.2.1, hx⟩ binds, rfl⟩
    · have hv' : vs.find? (fun v => v.name == name) = some v := by
        simpa [List.find?_cons, hn] using hv
      obtain ⟨c, front, back, lodged, ho⟩ := ih row.2 nodup.2 hv'
      have hname : b.name ≠ v.name := by
        have : v.name = name := by simpa using List.find?_some hv'
        rw [hb.1, this]
        exact hn
      refine ⟨c, b.value ++ front, back, ⟨lodged.binds, ?_, ?_, fun x hx => ?_⟩, ?_⟩
      · simpa [List.find?_cons, hname] using lodged.find?
      · rw [List.flatMap_cons, lodged.bytes]
        simp
      · have hu : b.updated v.name x = b := if_neg hname
        rw [List.map_cons, hu, List.flatMap_cons, (lodged.set x hx).2]
        exact ⟨.cons hb (lodged.set x hx).1, by simp⟩
      · rw [List.length_append, hb.2.2]
        omega

namespace Holds

theorem length_bytes (holds : Holds frames store) (tiled : Tiled frames n) :
    store.bytes.length = n := by
  induction holds generalizing n with
  | nil => exact tiled.symm
  | cons hs _ ih =>
    rw [Store.bytes, List.length_append, ih tiled.2]
    exact tiled.1.length_flatMap hs

theorem find? (holds : Holds frames store) (tiled : Tiled frames n)
    (nodup : ∀ f ∈ frames, (f.declared.map Variable.name).Nodup) {v : Variable}
    (hv : (frames.findSome? fun f => f.find? name) = some v) :
    ∃ b front back, v.Binds b ∧ store.find? name = some b ∧ front.length = v.offset ∧
      store.bytes = front ++ b.value ++ back ∧
      ∀ x : Bytes, x.length = v.ty.size →
        Holds frames (store.set name x) ∧ (store.set name x).bytes = front ++ x ++ back := by
  induction holds generalizing n with
  | nil => cases hv
  | @cons f scope frames store hs holds ih =>
    have nodupHere := nodup f (List.mem_cons_self ..)
    have hl := length_bytes holds tiled.2
    cases hf : f.find? name with
    | some u =>
      obtain rfl : u = v := by simpa [List.findSome?_cons, hf] using hv
      have hn : u.name = name := by simpa using List.find?_some hf
      subst hn
      obtain ⟨b, front, back, lodged, ho⟩ := tiled.1.find? hs nodupHere hf
      have hany : (scope.any fun b => b.name == u.name) = true :=
        List.any_eq_true.mpr ⟨b, List.mem_of_find?_eq_some lodged.find?, by
          simpa using lodged.binds.1⟩
      refine ⟨b, Store.bytes store ++ front, back, lodged.binds, ?_, ?_, ?_, fun x hx => ?_⟩
      · simp [Store.find?, lodged.find?]
      · rw [List.length_append]
        omega
      · rw [Store.bytes, lodged.bytes]
        simp
      · rw [Store.set, if_pos hany, Store.bytes, (lodged.set x hx).2]
        exact ⟨.cons (lodged.set x hx).1 holds, by simp⟩
    | none =>
      have hv' : (frames.findSome? fun f => f.find? name) = some v := by
        simpa [List.findSome?_cons, hf] using hv
      obtain ⟨b, front, back, binds, hb, ho, hbytes, hset⟩ :=
        ih tiled.2 (fun g hg => nodup g (List.mem_cons_of_mem _ hg)) hv'
      have others : ∀ c ∈ scope, c.name ≠ name := by
        intro c hc he
        have hm : name ∈ f.declared.map Variable.name := by
          rw [← names_eq hs, ← he]
          exact List.mem_map_of_mem hc
        obtain ⟨u, hu, rfl⟩ := List.mem_map.mp hm
        simpa using List.find?_eq_none.mp hf u hu
      have hnone : scope.find? (fun b => b.name == name) = none :=
        List.find?_eq_none.mpr fun c hc => by simpa using others c hc
      have hany : ¬ (scope.any fun b => b.name == name) = true := by
        simpa using others
      refine ⟨b, front, back ++ scope.flatMap Binding.value, binds, ?_, ho, ?_, fun x hx => ?_⟩
      · simpa [Store.find?, List.findSome?_cons, hnone] using hb
      · rw [Store.bytes, hbytes]
        simp
      · rw [Store.set, if_neg hany, Store.bytes, (hset x hx).2]
        exact ⟨.cons hs (hset x hx).1, by simp⟩

theorem opened (holds : Holds frames store) (n : Nat) : Holds (⟨n, []⟩ :: frames) ([] :: store) :=
  .cons .nil holds

theorem declare {frame : Frame} (holds : Holds (frame :: frames) store) {v : Variable}
    {b : Binding} (hb : v.Binds b) :
    Holds ({ frame with declared := frame.declared ++ [v] } :: frames) (store.declare b) ∧
      (store.declare b).bytes = store.bytes ++ b.value := by
  obtain ⟨⟩ | ⟨hs, holds⟩ := holds
  refine ⟨.cons (List.rel_append hs (.cons hb .nil)) holds, ?_⟩
  simp [Store.declare, Store.bytes]

theorem closed {frame : Frame} (holds : Holds (frame :: frames) store)
    (tiled : Tiled (frame :: frames) n) :
    Holds frames store.tail ∧ ∃ top, store.bytes = Store.bytes store.tail ++ top ∧
      top.length = n - frame.entrySize := by
  obtain ⟨⟩ | ⟨hs, holds⟩ := holds
  have := tiled.1.length_flatMap hs
  exact ⟨holds, _, rfl, by omega⟩

end Holds

/-- The part at the end of a path is within the value, and is replaced there. -/
theorem followPath_replaced {env : Environment} (sound : env.Sound) {path : List String}
    {ty last : Ty} {offset o : Nat} (known : env.Known ty)
    (h : Assembly.followPath offset ty path = some (o, last)) :
    ∃ d, o = offset + d ∧ d + last.size ≤ ty.size ∧
      ∀ old new : Bytes, old.length = ty.size → new.length = last.size →
        replaced ty path old new = some (Bytes.overwrite old d new) := by
  induction path generalizing offset ty with
  | nil =>
    cases h
    refine ⟨0, rfl, by omega, fun old new hold hnew => ?_⟩
    have hd : old.drop new.length = [] := List.drop_eq_nil_of_le (by omega)
    simp [replaced, Bytes.overwrite, hd]
  | cons name rest ih =>
    simp only [Assembly.followPath] at h
    split at h
    · next field hf =>
      obtain ⟨knownField, hle⟩ := sound.fields known field (List.mem_of_find?_eq_some hf)
      obtain ⟨d, rfl, hd, hr⟩ := ih knownField h
      refine ⟨field.offset + d, by omega, by omega, fun old new hold hnew => ?_⟩
      have hp : (part old field.offset field.ty.size).length = field.ty.size :=
        length_part (by omega)
      rw [replaced, hf, Option.bind_some, hr _ _ hp hnew, Option.map_some,
        Bytes.overwrite_overwrite_part (by omega) (by omega)]
    · cases h

section

variable {env : Environment} {scopes : Typing.Scopes} {notes : Notes}

/-- The bytes at a place are a part of the stack, and overwriting them sets the variable. -/
theorem Holds.place (holds : Holds frames store) (tiled : Tiled frames n) (sound : env.Sound)
    (known : Typing.KnownScopes env scopes) (agree : Agree frames scopes) {p : Place} {o : Nat}
    {ty : Ty} (found : Lowering.place? frames p = some (o, ty)) :
    o + ty.size ≤ store.bytes.length ∧ ∃ b, store.find? p.name = some b ∧
      ∀ x : Bytes, x.length = ty.size → ∃ whole, replaced b.ty p.path b.value x = some whole ∧
        Holds frames (store.set p.name whole) ∧
        (store.set p.name whole).bytes = Bytes.overwrite store.bytes o x := by
  obtain ⟨v, hv, path⟩ := Option.bind_eq_some_iff.mp found
  have knownVariable : env.Known v.ty := Typing.Within.find? known (by rw [agree.find?, hv]; rfl)
  obtain ⟨b, front, back, ⟨-, hty, hlen⟩, hb, ho, hbytes, hset⟩ := holds.find? tiled agree.nodup hv
  obtain ⟨d, rfl, hd, hr⟩ := followPath_replaced sound knownVariable path
  refine ⟨by simp only [hbytes, List.length_append]; omega, b, hb, fun x hx => ?_⟩
  obtain ⟨holds', hbytes'⟩ := hset (Bytes.overwrite b.value d x)
    ((Bytes.length_overwrite (by omega)).trans hlen)
  refine ⟨_, hty ▸ hr b.value x hlen hx, holds', ?_⟩
  rw [hbytes', hbytes, ← ho, Bytes.overwrite_append (by omega)]

/-- A place evaluates to the bytes that the frames have there. -/
theorem Typing.Noted.evaluated {e : Expr} {bare : Note} (h : Typing.Noted env scopes notes e bare)
    (isPlace : e.isPlace) (sound : env.Sound) (known : Typing.KnownScopes env scopes)
    (agree : Agree frames scopes) (holds : Holds frames store) (tiled : Tiled frames n)
    {annotations : Annotations} (ha : annotations.notes = notes) {p : Place} {o : Nat}
    (place : e.place? = some p) (found : Lowering.place? frames p = some (o, bare.ty)) {note : Note}
    (filed : notes.find? e.id = some note) :
    Evaluation.expression annotations store e =
      coerced note (part store.bytes o bare.ty.size) := by
  subst ha
  induction h generalizing p o note with
  | @«variable» mark name ty hname =>
    have hm : annotations.notes.find? mark.id = some note := filed
    cases place
    obtain ⟨v, hv, path⟩ := Option.bind_eq_some_iff.mp found
    cases path
    obtain ⟨b, front, back, ⟨-, -, hlen⟩, hb, ho, hbytes, -⟩ := holds.find? tiled agree.nodup hv
    have hp : part (front ++ b.value ++ back) (front.length + 0) v.ty.size = _ :=
      part_append (by omega)
    rw [Nat.add_zero, ho, ← hbytes, part_self hlen] at hp
    simp only [Evaluation.expression, hm, hb, require_some, ok_bind]
    exact congrArg (coerced note) hp.symm
  | @field mark target name owner ty isInner inner inside rule ih =>
    have hm : annotations.notes.find? mark.id = some note := filed
    obtain ⟨q, i, hq, hi⟩ := inner.place isInner agree
    have hx := ih isInner hq hi inside
    obtain ⟨field, hf, rfl⟩ := Typing.fieldType_ok rule
    have hpath : { q with path := q.path ++ [name] } = p := by simpa [Expr.place?, hq] using place
    subst hpath
    have ho : i + field.offset = o := by
      simp only [Lowering.place?, Assembly.followPath_append] at hi found
      rw [← Option.bind_assoc, hi] at found
      simpa [Assembly.followPath, hf, Note.ofType] using found
    obtain ⟨-, hle⟩ := sound.fields (inner.known sound known) field (List.mem_of_find?_eq_some hf)
    simp only [coerced, inner.coercion_eq] at hx
    simp only [Evaluation.expression, hm, inside, hx, hf, require_some, ok_bind]
    rw [part_part _ hle, ho]
    rfl
  | literal _ => simp [Expr.isPlace] at isPlace
  | binary => simp [Expr.isPlace] at isPlace
  | unary => simp [Expr.isPlace] at isPlace
  | cast => simp [Expr.isPlace] at isPlace

end

end Bytescript
