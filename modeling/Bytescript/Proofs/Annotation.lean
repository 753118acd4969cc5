import Mathlib
import Bytescript.Proofs.TruthBytes

/-!
# Annotated code

An annotation gives the marks of the stack at every place in the code. If each instruction turns a
stack that respects the marks in front of it into one that respects the marks where the run
continues, then every state of a run respects the marks at its place. Annotations are composed along
the code: two adjacent stretches are annotated as one, and a jump out of a stretch is an exit that
is resolved in the larger stretch with its target.
-/
namespace Bytescript

open Evaluation Exec Machine

def Flow.landing? (index : Nat) : Flow → Option Nat
  | .next => some (index + 1)
  | .goto target => some target
  | .halt _ => none

theorem Exec.Meets.unless_fault {α : Type} {m : Exec α} {s : Stack} {P Q : α → Stack → Prop}
    {E : Stop → Prop} (h : Meets m s P E) (hq : ∀ a t, P a t → Q a t) :
    Meets m s Q fun _ => True := by
  unfold Meets at *
  split <;> simp_all

def Instruction.Carries (data : Bytes) (i : Instruction) (before after : Marks) : Prop :=
  ∀ capacity bs, Respects before bs → Meets (i.step capacity data) (.ofList bs)
    (fun flow t => flow = .next ∧ Respects after t.toList) fun _ => True

theorem Instruction.carries_of_turns {data : Bytes} {i : Instruction} {before after : Marks}
    (h : ∀ capacity bs, Respects before bs →
      ∃ bs', i.Turns capacity data bs bs' ∧ Respects after bs') :
    i.Carries data before after := by
  intro capacity bs hb
  obtain ⟨bs', turns, hb'⟩ := h capacity bs hb
  refine turns.unless_fault ?_
  rintro flow t ⟨rfl, rfl⟩
  exact ⟨rfl, hb'⟩

/-- The marks of the stack at every place in the code. -/
abbrev Annotation := Nat → Marks

/-- Places outside a stretch of code where jumps may go, with the marks there. -/
abbrev Exits := Nat → Marks → Prop

def Exits.none : Exits := fun _ _ => False

namespace Annotation

/-- The instruction at an index tests only truth values, and the run continues within a stretch or
at an exit, with a stack that respects the marks there. -/
def Keeps (data : Bytes) (exits : Exits) (A : Annotation) (start stop index : Nat)
    (i : Instruction) : Prop :=
  (i.opcode? = some .jumpIfFalse → ∃ front, A index = front ++ [true]) ∧
    ∀ capacity bs, Respects (A index) bs → Meets (i.step capacity data) (.ofList bs)
      (fun flow t => ∀ j ∈ flow.landing? index,
        start ≤ j ∧ j ≤ stop ∧ Respects (A j) t.toList ∨
          ∃ marks, exits j marks ∧ Respects marks t.toList)
      fun _ => True

/-- An annotation of a stretch of code leads from some marks to others, and every instruction keeps
it. -/
structure Covers (script : Script) (exits : Exits) (A : Annotation) (start stop : Nat)
    (before after : Marks) : Prop where
  le : start ≤ stop
  first : A start = before
  last : A stop = after
  keeps : ∀ index i, start ≤ index → index < stop → script.code.toList[index]? = some i →
    A.Keeps script.data exits start stop index i

def join (A : Annotation) (place : Nat) (B : Annotation) : Annotation :=
  fun j => if j < place then A j else B j

theorem join_of_ge (A B : Annotation) {place j : Nat} (h : place ≤ j) : A.join place B j = B j :=
  if_neg (Nat.not_lt.mpr h)

theorem join_of_le {A B : Annotation} {place j : Nat} (same : A place = B place) (h : j ≤ place) :
    A.join place B j = A j := by
  rcases Nat.lt_or_eq_of_le h with hlt | rfl
  · exact if_pos hlt
  · rw [join_of_ge A B (Nat.le_refl j), same]

theorem Keeps.mono {data : Bytes} {exits more : Exits} {A B : Annotation}
    {start stop start' stop' index : Nat} {i : Instruction}
    (h : A.Keeps data exits start stop index i) (here : B index = A index)
    (inside : ∀ j, start ≤ j → j ≤ stop → start' ≤ j ∧ j ≤ stop' ∧ B j = A j)
    (outside : ∀ j marks, exits j marks → start' ≤ j ∧ j ≤ stop' ∧ B j = marks ∨ more j marks) :
    B.Keeps data more start' stop' index i := by
  refine ⟨here ▸ h.1, fun capacity bs hb => ?_⟩
  refine (h.2 capacity bs (here ▸ hb)).mono fun flow t lands j hj => ?_
  rcases lands j hj with ⟨hl, hr, hm⟩ | ⟨marks, he, hm⟩
  · obtain ⟨hl', hr', same⟩ := inside j hl hr
    exact Or.inl ⟨hl', hr', same ▸ hm⟩
  · rcases outside j marks he with ⟨hl, hr, rfl⟩ | he
    · exact Or.inl ⟨hl, hr, hm⟩
    · exact Or.inr ⟨marks, he, hm⟩

namespace Covers

variable {script : Script} {exits : Exits} {A B : Annotation} {start middle stop : Nat}
  {before between after : Marks}

theorem nil (script : Script) (exits : Exits) (place : Nat) (marks : Marks) :
    Covers script exits (fun _ => marks) place place marks marks where
  le := Nat.le_refl _
  first := rfl
  last := rfl
  keeps := fun _ _ hl hr => absurd hr (Nat.not_lt.mpr hl)

theorem append (h : Covers script exits A start middle before between)
    (g : Covers script exits B middle stop between after) :
    Covers script exits (A.join middle B) start stop before after := by
  have same : A middle = B middle := h.last.trans g.first.symm
  have left : ∀ j ≤ middle, A.join middle B j = A j := fun j hj => join_of_le same hj
  have right : ∀ j, middle ≤ j → A.join middle B j = B j := fun j hj => join_of_ge A B hj
  refine ⟨h.le.trans g.le, (left _ h.le).trans h.first, (right _ g.le).trans g.last, ?_⟩
  intro index i hl hr hi
  by_cases hm : index < middle
  · refine (h.keeps index i hl hm hi).mono (left _ (Nat.le_of_lt hm)) ?_ fun _ _ => Or.inr
    exact fun j hj hj' => ⟨hj, hj'.trans g.le, left j hj'⟩
  · have hm := Nat.le_of_not_lt hm
    refine (g.keeps index i hm hr hi).mono (right _ hm) ?_ fun _ _ => Or.inr
    exact fun j hj hj' => ⟨h.le.trans hj, hj', right j hj⟩

/-- Exits that are within the stretch itself can be dropped. -/
theorem settle {more : Exits} (h : Covers script exits A start stop before after)
    (inside : ∀ j marks, exits j marks → start ≤ j ∧ j ≤ stop ∧ A j = marks ∨ more j marks) :
    Covers script more A start stop before after where
  le := h.le
  first := h.first
  last := h.last
  keeps := fun index i hl hr hi =>
    (h.keeps index i hl hr hi).mono rfl (fun _ hj hj' => ⟨hj, hj', rfl⟩) inside

end Covers

def single (index : Nat) (before after : Marks) : Annotation :=
  fun j => if j = index then before else after

section

variable {script : Script} {exits : Exits} {i : Instruction} {index : Nat} {before after : Marks}

theorem covers_single (lies : Lies script.code.toList index [i])
    (tests : i.opcode? = some .jumpIfFalse → ∃ front, before = front ++ [true])
    (h : ∀ capacity bs, Respects before bs → Meets (i.step capacity script.data) (.ofList bs)
      (fun flow t => ∀ j ∈ flow.landing? index, j = index + 1 ∧ Respects after t.toList ∨
        ∃ marks, exits j marks ∧ Respects marks t.toList) fun _ => True) :
    Covers script exits (single index before after) index (index + 1) before after := by
  have here : single index before after index = before := if_pos rfl
  have behind : single index before after (index + 1) = after := if_neg (by omega)
  refine ⟨Nat.le_succ _, here, behind, fun k j hl hr hj => ?_⟩
  obtain rfl : k = index := by omega
  cases lies.head.symm.trans hj
  refine ⟨here.symm ▸ tests, fun capacity bs hb => ?_⟩
  refine (h capacity bs (here ▸ hb)).mono fun flow t lands m hm => ?_
  refine (lands m hm).imp ?_ id
  rintro ⟨rfl, ht⟩
  exact ⟨Nat.le_succ _, Nat.le_refl _, behind.symm ▸ ht⟩

theorem covers_of_carries (lies : Lies script.code.toList index [i]) (straight : i.target? = none)
    (h : i.Carries script.data before after) :
    Covers script exits (single index before after) index (index + 1) before after := by
  refine covers_single lies (fun tests => ?_) fun capacity bs hb => ?_
  · simp [Instruction.target?, tests] at straight
  · refine (h capacity bs hb).mono ?_
    rintro _ t ⟨rfl, ht⟩ j hj
    cases hj
    exact Or.inl ⟨rfl, ht⟩

end

end Annotation

namespace Machine

variable {script : Script} {A : Annotation} {after : Marks}

def State.Obeys (script : Script) (A : Annotation) (s : State) : Prop :=
  s.ip ≤ script.code.size ∧ Respects (A s.ip) s.stack.toList

theorem tick_obeys
    (covers : A.Covers script .none 0 script.code.size [] after) (capacity : Nat)
    {s t : State} (obeys : s.Obeys script A) (ht : tick capacity script.view s = .running t) :
    t.Obeys script A := by
  obtain ⟨ip, steps, stack⟩ := s
  obtain ⟨-, respects⟩ := obeys
  by_cases hlt : ip < script.code.size
  · have hi : script.code[ip]? = some script.code[ip] := Array.getElem?_eq_getElem hlt
    have keeps := (covers.keeps ip script.code[ip] (Nat.zero_le _) hlt
      (by rw [Array.getElem?_toList, hi])).2 capacity stack.toList respects
    simp only [tick, Script.view, hlt, if_true, hi] at ht
    rw [Stack.ofList_toList] at keeps
    unfold Meets at keeps
    generalize (script.code[ip].step capacity script.data).run.run stack = result at ht keeps
    obtain ⟨result, stack'⟩ := result
    have lands : ∀ flow j, result = .ok flow → j ∈ flow.landing? ip →
        j ≤ script.code.size ∧ Respects (A j) stack'.toList := by
      rintro flow j rfl hj
      obtain ⟨-, hle, hr⟩ | ⟨_, he, -⟩ := keeps j hj
      · exact ⟨hle, hr⟩
      · exact he.elim
    rcases result with (fault | panic) | _ | target | c
    · cases ht
    · cases ht
    · cases ht
      exact lands .next _ rfl rfl
    · simp only [advance] at ht
      split at ht
      · cases ht
      · cases ht
        exact lands (.goto target) _ rfl rfl
    · cases ht
  · simp [tick, Script.view, hlt] at ht

/-- Every state of a run of annotated code respects the marks at its place. -/
theorem runFor_obeys
    (covers : A.Covers script .none 0 script.code.size [] after) (capacity n : Nat)
    {s t : State} (obeys : s.Obeys script A) (ht : runFor capacity script.view n s = .running t) :
    t.Obeys script A := by
  induction n generalizing s with
  | zero =>
    cases ht
    exact obeys
  | succ n ih =>
    simp only [runFor] at ht
    cases hs : tick capacity script.view s with
    | running u =>
      rw [hs] at ht
      exact ih (tick_obeys covers capacity obeys hs) ht
    | ended exit u => simp [hs] at ht
    | faulted fault u => simp [hs] at ht
    | panicked p u => simp [hs] at ht

end Machine

end Bytescript
