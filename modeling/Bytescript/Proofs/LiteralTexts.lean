import Mathlib
import Bytescript.Proofs.Numerals

/-!
# Which texts are integer literals

Without its prefix and its separators, a text must consist of digits of the radix that the prefix
selects, at least one of them, and the number must fit in 128 bits with its sign. The main statement
says this exactly, and which of the two errors any other text gets: reading goes on until a
character is not a digit, or the number so far exceeds 128 bits.
-/
namespace Bytescript.Numeral

/-- The radix that the front of a text selects, and the text behind its prefix. -/
inductive Prefixed : List Char → Nat → List Char → Prop
  | hexadecimal {x : Char} (mark : x = 'x' ∨ x = 'X') (body : List Char) :
      Prefixed ('0' :: x :: body) 16 body
  | binary {x : Char} (mark : x = 'b' ∨ x = 'B') (body : List Char) :
      Prefixed ('0' :: x :: body) 2 body
  | decimal {body : List Char} (unmarked : ∀ x ∈ ['x', 'X', 'b', 'B'], ¬ ['0', x] <+: body) :
      Prefixed body 10 body

theorem prefixed_splitRadix (cs : List Char) : Prefixed cs (splitRadix cs).1 (splitRadix cs).2 := by
  unfold splitRadix
  split
  · next rest => exact .hexadecimal (.inl rfl) rest
  · next rest => exact .hexadecimal (.inr rfl) rest
  · next rest => exact .binary (.inl rfl) rest
  · next rest => exact .binary (.inr rfl) rest
  · next x X b B =>
    refine .decimal fun c hc hp => ?_
    obtain ⟨rest, rfl⟩ := hp
    simp only [List.mem_cons, List.not_mem_nil, or_false] at hc
    rcases hc with rfl | rfl | rfl | rfl
    · exact x rest rfl
    · exact X rest rfl
    · exact b rest rfl
    · exact B rest rfl

theorem Prefixed.radix {cs body : List Char} {radix : Nat} (h : Prefixed cs radix body) :
    1 ≤ radix ∧ radix ≤ 16 := by
  cases h <;> decide

def IsDigit (radix : Nat) (c : Char) (d : Nat) : Prop :=
  d < radix ∧ (c = d.digitChar ∨ c = d.digitChar.toUpper)

/-- The characters are the digits of a number in a radix, highest first. -/
def Spells (radix : Nat) (cs : List Char) (m : Nat) : Prop :=
  ∃ ds, List.Forall₂ (IsDigit radix) cs ds ∧ m = Nat.ofDigits radix ds.reverse

theorem toNat_lt_of_digit? {radix d : Nat} {c : Char} (h : digit? radix c = some d) :
    c.toNat < 128 := by
  obtain ⟨found, -⟩ := Option.filter_eq_some_iff.mp h
  split_ifs at found with figure small capital
  · exact (show c.toNat ≤ 57 from figure.2).trans_lt (by decide)
  · exact (show c.toNat ≤ 102 from small.2).trans_lt (by decide)
  · exact (show c.toNat ≤ 70 from capital.2).trans_lt (by decide)

theorem digit?_sixteen_eq_some_iff {c : Char} {d : Nat} :
    digit? 16 c = some d ↔ IsDigit 16 c d := by
  constructor
  · intro h
    have each : ∀ n < 128, ∀ d ∈ digit? 16 (Char.ofNat n),
        d < 16 ∧ (Char.ofNat n = d.digitChar ∨ Char.ofNat n = d.digitChar.toUpper) := by decide
    have own := each c.toNat (toNat_lt_of_digit? h)
    rw [Char.ofNat_toNat] at own
    exact own d h
  · have each : ∀ e < 16, digit? 16 e.digitChar = some e ∧
        digit? 16 e.digitChar.toUpper = some e := by decide
    rintro ⟨lt, rfl | rfl⟩
    · exact (each d lt).1
    · exact (each d lt).2

theorem digit?_eq_some_iff {radix : Nat} (h : radix ≤ 16) {c : Char} {d : Nat} :
    digit? radix c = some d ↔ IsDigit radix c d := by
  have cut : digit? radix c = some d ↔ digit? 16 c = some d ∧ d < radix := by
    simp only [digit?, Option.filter_eq_some_iff, decide_eq_true_eq, and_assoc]
    exact and_congr_right fun _ => ⟨fun lt => ⟨lt.trans_le h, lt⟩, And.right⟩
  rw [cut, digit?_sixteen_eq_some_iff, IsDigit, IsDigit]
  exact ⟨fun hd => ⟨hd.2, hd.1.2⟩, fun hd => ⟨⟨hd.1.trans_le h, hd.2⟩, hd.1⟩⟩

def worth? (radix total : Nat) : List Char → Option Nat
  | [] => some total
  | c :: cs => (digit? radix c).bind fun d => worth? radix (total * radix + d) cs

theorem worth?_cons {radix total m : Nat} {c : Char} {cs : List Char} :
    worth? radix total (c :: cs) = some m ↔
      ∃ d, digit? radix c = some d ∧ worth? radix (total * radix + d) cs = some m :=
  Option.bind_eq_some_iff

theorem le_of_worth? {radix total m : Nat} (h : 1 ≤ radix) {cs : List Char}
    (hm : worth? radix total cs = some m) : total ≤ m := by
  induction cs generalizing total with
  | nil => exact (Option.some.inj hm).le
  | cons c cs ih =>
    obtain ⟨d, -, rest⟩ := worth?_cons.mp hm
    calc total ≤ total * radix := Nat.le_mul_of_pos_right total h
      _ ≤ total * radix + d := Nat.le_add_right ..
      _ ≤ m := ih rest

theorem worth?_eq_some_iff {radix m : Nat} (h : radix ≤ 16) {cs : List Char} :
    worth? radix 0 cs = some m ↔ Spells radix cs m := by
  have fold : ∀ total, worth? radix total cs = some m ↔ ∃ ds,
      List.Forall₂ (IsDigit radix) cs ds ∧
        m = ds.foldl (fun total d => total * radix + d) total := by
    induction cs with
    | nil => simp [worth?, eq_comm]
    | cons c cs ih =>
      intro total
      simp only [worth?_cons, ih, digit?_eq_some_iff h, List.forall₂_cons_left_iff]
      constructor
      · rintro ⟨d, hd, ds, hds, rfl⟩
        exact ⟨_, ⟨d, ds, hd, hds, rfl⟩, rfl⟩
      · rintro ⟨_, ⟨d, ds, hd, hds, rfl⟩, rfl⟩
        exact ⟨d, hd, ds, hds, rfl⟩
  rw [fold, Spells]
  simp only [foldl_eq_ofDigits]

theorem readDigits_filter (radix total : Nat) (seen : Bool) (cs : List Char) :
    readDigits radix total seen (cs.filter (· ≠ '_')) = readDigits radix total seen cs := by
  induction cs generalizing total seen with
  | nil => rfl
  | cons c cs ih =>
    by_cases hc : c = '_'
    · rw [List.filter_cons_of_neg (by simpa using hc), ih, readDigits, if_pos hc]
    · rw [List.filter_cons_of_pos (by simpa using hc), readDigits, readDigits]
      simp only [ih]

section

variable {radix total : Nat} {seen : Bool} {cs : List Char}

def Passes (radix total : Nat) (cs : List Char) : Prop :=
  ∃ front back m, cs = front ++ back ∧ worth? radix total front = some m ∧ limit < m

theorem not_passes_nil (start : total ≤ limit) : ¬ Passes radix total [] := by
  rintro ⟨front, back, m, hcs, hm, past⟩
  obtain ⟨rfl, -⟩ := List.nil_eq_append_iff.mp hcs
  cases hm
  exact past.not_ge start

theorem passes_cons (start : total ≤ limit) {c : Char} :
    Passes radix total (c :: cs) ↔
      ∃ d, digit? radix c = some d ∧ Passes radix (total * radix + d) cs := by
  constructor
  · rintro ⟨front, back, m, hcs, hm, past⟩
    rcases List.cons_eq_append_iff.mp hcs with ⟨rfl, -⟩ | ⟨front, rfl, rfl⟩
    · cases hm
      exact absurd start past.not_ge
    · obtain ⟨d, hd, rest⟩ := worth?_cons.mp hm
      exact ⟨d, hd, front, back, m, rfl, rest, past⟩
  · rintro ⟨d, hd, front, back, m, rfl, rest, past⟩
    exact ⟨c :: front, back, m, rfl, worth?_cons.mpr ⟨d, hd, rest⟩, past⟩

/-- Digits are read if there is at least one and their value fits in 128 bits. -/
theorem readDigits_eq_ok_iff (h : 1 ≤ radix) (plain : '_' ∉ cs) (start : total ≤ limit) {m : Nat} :
    readDigits radix total seen cs = .ok m ↔
      (seen = true ∨ cs ≠ []) ∧ worth? radix total cs = some m ∧ m ≤ limit := by
  induction cs generalizing total seen with
  | nil =>
    cases seen with
    | false => simp [readDigits]
    | true =>
      simp only [readDigits, worth?, if_true, true_or, true_and, Except.ok.injEq, Option.some.injEq]
      exact ⟨fun same => ⟨same, same ▸ start⟩, And.left⟩
  | cons c cs ih =>
    rw [List.mem_cons, not_or] at plain
    rw [readDigits, if_neg (Ne.symm plain.1), worth?_cons]
    cases hd : digit? radix c with
    | none => simp
    | some d =>
      dsimp only
      split_ifs with past
      · refine iff_of_false (by simp) ?_
        rintro ⟨-, ⟨e, he, rest⟩, le⟩
        cases he
        exact le.not_gt (past.trans_le (le_of_worth? h rest))
      · rw [ih plain.2 (Nat.le_of_not_lt past)]
        simp

theorem readDigits_eq_tooLarge_iff (plain : '_' ∉ cs) (start : total ≤ limit) :
    readDigits radix total seen cs = .error .tooLarge ↔ Passes radix total cs := by
  induction cs generalizing total seen with
  | nil => cases seen <;> simp [readDigits, not_passes_nil start]
  | cons c cs ih =>
    rw [List.mem_cons, not_or] at plain
    rw [readDigits, if_neg (Ne.symm plain.1), passes_cons start]
    cases hd : digit? radix c with
    | none => simp
    | some d =>
      dsimp only
      split_ifs with past
      · exact iff_of_true rfl ⟨d, rfl, [], cs, _, rfl, rfl, past⟩
      · rw [ih plain.2 (Nat.le_of_not_lt past)]
        simp

end

def largest (negative : Bool) : Nat := if negative then 2 ^ 127 else 2 ^ 127 - 1

/-- The characters, without separators, are a literal for a number. -/
structure Fits (radix : Nat) (cs : List Char) (negative : Bool) (m : Nat) : Prop where
  nonempty : cs ≠ []
  spells : Spells radix cs m
  le : m ≤ largest negative

/-- The characters, without separators, are too large for a literal: digits at the front exceed 128
bits, or all are digits of a number above the largest. -/
def Exceeds (radix : Nat) (cs : List Char) (negative : Bool) : Prop :=
  (∃ front back m, cs = front ++ back ∧ Spells radix front m ∧ 2 ^ 128 - 1 < m) ∨
    ∃ m, Spells radix cs m ∧ largest negative < m

theorem largest_le (negative : Bool) : largest negative ≤ limit := by
  cases negative <;> decide

section

variable {radix : Nat} {cs : List Char} {negative : Bool}

theorem passes_iff (le : radix ≤ 16) : Passes radix 0 cs ↔
    ∃ front back m, cs = front ++ back ∧ Spells radix front m ∧ 2 ^ 128 - 1 < m := by
  simp only [Passes, worth?_eq_some_iff le]
  rfl

theorem fits_iff (pos : 1 ≤ radix) (le : radix ≤ 16) (plain : '_' ∉ cs) {m : Nat} :
    Fits radix cs negative m ↔
      readDigits radix 0 false cs = .ok m ∧ m ≤ largest negative := by
  rw [readDigits_eq_ok_iff pos plain (Nat.zero_le limit), worth?_eq_some_iff le]
  constructor
  · rintro ⟨nonempty, spells, bound⟩
    exact ⟨⟨.inr nonempty, spells, bound.trans (largest_le negative)⟩, bound⟩
  · rintro ⟨⟨nonempty, spells, -⟩, bound⟩
    exact ⟨nonempty.resolve_left Bool.false_ne_true, spells, bound⟩

theorem exceeds_iff (pos : 1 ≤ radix) (le : radix ≤ 16) (plain : '_' ∉ cs) :
    Exceeds radix cs negative ↔ readDigits radix 0 false cs = .error .tooLarge ∨
      ∃ m, readDigits radix 0 false cs = .ok m ∧ largest negative < m := by
  rw [readDigits_eq_tooLarge_iff plain (Nat.zero_le limit), passes_iff le, Exceeds]
  simp only [readDigits_eq_ok_iff pos plain (Nat.zero_le limit), worth?_eq_some_iff le]
  constructor
  · rintro (past | ⟨m, spells, large⟩)
    · exact .inl past
    · by_cases wide : m ≤ limit
      · -- no digits would be worth nothing
        have nonempty : cs ≠ [] := by
          rintro rfl
          obtain ⟨ds, digits, rfl⟩ := spells
          cases digits
          exact absurd large (by simp)
        exact .inr ⟨m, ⟨.inr nonempty, spells, wide⟩, large⟩
      · exact .inl ⟨cs, [], m, (List.append_nil cs).symm, spells, Nat.lt_of_not_le wide⟩
  · rintro (past | ⟨m, ⟨-, spells, -⟩, large⟩)
    · exact .inl past
    · exact .inr ⟨m, spells, large⟩

end

theorem parse_eq_bind (text : String) (negative : Bool) :
    parse text negative =
      (readDigits (splitRadix text.toList).1 0 false (splitRadix text.toList).2).bind fun m =>
        if largest negative < m then .error .tooLarge else .ok ⟨m, negative && m != 0⟩ := by
  unfold parse
  dsimp only
  cases readDigits (splitRadix text.toList).1 0 false (splitRadix text.toList).2 with
  | error e => rfl
  | ok m => cases negative <;> rfl

/-- The outcome of reading a text. Without its prefix and its separators it is a literal exactly if
it is not empty, consists of digits and its number fits in 128 bits with its sign; zero has no sign.
It is too large exactly if its digits exceed 128 bits before a character that is not a digit, or if
all are digits and the number is above the largest. Any other text is malformed. -/
theorem parse_outcome (text : String) (negative : Bool) :
    ∃ radix body, Prefixed text.toList radix body ∧
      (∀ n, parse text negative = .ok n ↔
        ∃ m, Fits radix (body.filter (· ≠ '_')) negative m ∧ n = ⟨m, negative && m != 0⟩) ∧
      (parse text negative = .error .tooLarge ↔
        Exceeds radix (body.filter (· ≠ '_')) negative) ∧
      (parse text negative = .error .malformed ↔
        (¬ ∃ m, Fits radix (body.filter (· ≠ '_')) negative m) ∧
          ¬ Exceeds radix (body.filter (· ≠ '_')) negative) := by
  have selected := prefixed_splitRadix text.toList
  obtain ⟨pos, le⟩ := selected.radix
  refine ⟨_, _, selected, ?_⟩
  have plain : '_' ∉ (splitRadix text.toList).2.filter (· ≠ '_') := by simp
  simp only [fits_iff pos le plain, exceeds_iff pos le plain, readDigits_filter, parse_eq_bind]
  cases readDigits (splitRadix text.toList).1 0 false (splitRadix text.toList).2 with
  | error e => cases e <;> simp [Except.bind]
  | ok m =>
    by_cases large : largest negative < m
    · have bound : ¬ m ≤ largest negative := large.not_ge
      simp [Except.bind, large, bound]
    · have bound : m ≤ largest negative := Nat.le_of_not_lt large
      simp [Except.bind, large, bound, eq_comm]

end Bytescript.Numeral
