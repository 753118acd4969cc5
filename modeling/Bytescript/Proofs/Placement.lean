import Mathlib
import Bytescript.Script.Basic

/-!
# Where constants are placed

`Pool.store` places a constant without a bound; `Pool.add` does the same as long as the mark fits in
32 bits (`add_eq_ok_iff`). Constants and holes never overlap, so writing one constant leaves the
others unchanged, and each can be read back from the finished pool at the offset that was returned
for it. Adding more constants moves none of them.
-/
namespace Bytescript

/-- The `n` bytes from `a` on and the `m` bytes from `b` on have none in common. -/
def Clear (a n b m : Nat) : Prop := a + n ≤ b ∨ b + m ≤ a

theorem Clear.symm {a n b m : Nat} (h : Clear a n b m) : Clear b m a n := Or.symm h

theorem Clear.part {a n b m c k : Nat} (h : Clear a n b m) (hl : b ≤ c) (hr : c + k ≤ b + m) :
    Clear a n c k := by
  unfold Clear at *
  omega

namespace Bytes

theorem length_overwrite {bs part : Bytes} {start : Nat} (h : start + part.length ≤ bs.length) :
    (overwrite bs start part).length = bs.length := by
  simp only [overwrite, List.length_append, List.length_take, List.length_drop]
  omega

theorem getElem?_overwrite {bs part : Bytes} {start : Nat}
    (h : start + part.length ≤ bs.length) (i : Nat) :
    (overwrite bs start part)[i]? =
      if start ≤ i ∧ i < start + part.length then part[i - start]? else bs[i]? := by
  have hl : (bs.take start).length = start := by
    rw [List.length_take]
    omega
  rw [overwrite, List.append_assoc, List.getElem?_append, hl, List.getElem?_append,
    List.getElem?_take, List.getElem?_drop]
  by_cases h1 : i < start
  · simp [h1, show ¬ start ≤ i by omega]
  · by_cases h2 : i < start + part.length
    · simp [h1, h2, show start ≤ i by omega, show i - start < part.length by omega]
    · rw [if_neg h1, if_neg (by omega), if_neg (by omega)]
      congr 1
      omega

theorem part_overwrite_self {bs part : Bytes} {start : Nat}
    (h : start + part.length ≤ bs.length) :
    ((overwrite bs start part).drop start).take part.length = part := by
  apply List.ext_getElem?
  intro i
  rw [List.getElem?_take, List.getElem?_drop, getElem?_overwrite h]
  by_cases hi : i < part.length
  · rw [if_pos hi, if_pos (by omega), Nat.add_sub_cancel_left]
  · rw [if_neg hi, List.getElem?_eq_none (by omega)]

/-- Bytes that are clear of those written are unchanged. -/
theorem part_overwrite_of_clear {bs part : Bytes} {start a n : Nat}
    (h : start + part.length ≤ bs.length) (hc : Clear a n start part.length) :
    ((overwrite bs start part).drop a).take n = (bs.drop a).take n := by
  apply List.ext_getElem?
  intro i
  rw [List.getElem?_take, List.getElem?_take, List.getElem?_drop, List.getElem?_drop,
    getElem?_overwrite h]
  split
  · unfold Clear at hc
    rw [if_neg (by omega)]
  · rfl

end Bytes

theorem Constant.length_toBytes (c : Constant) : c.toBytes.length = c.size := by
  cases c with
  | primitive p bits => exact Bytes.length_ofWord bits
  | text value =>
    have units : ∀ us : List UInt16, (Utf16.toBytes us).length = 2 * us.length := by
      intro us
      induction us with
      | nil => rfl
      | cons u us ih =>
        rw [Utf16.toBytes, List.flatMap_cons, List.length_append, Bytes.length_ofNat,
          List.length_cons]
        rw [Utf16.toBytes] at ih
        omega
    simp [toBytes, size, units]

namespace Pool

/-- The first multiple of `unit` from `n` on, however large. -/
def ceil (n unit : Nat) : Nat := (n + unit - 1) / unit * unit

theorem le_ceil (n unit : Nat) (h : 0 < unit) : n ≤ ceil n unit := by
  unfold ceil
  have := Nat.div_add_mod (n + unit - 1) unit
  have := Nat.mod_lt (n + unit - 1) h
  rw [Nat.mul_comm]
  omega

theorem ceil_lt (n unit : Nat) (h : 0 < unit) : ceil n unit < n + unit := by
  have hd := Nat.div_mul_le_self (n + unit - 1) unit
  unfold ceil
  omega

theorem dvd_ceil (n unit : Nat) : unit ∣ ceil n unit := Nat.dvd_mul_left ..

theorem ceil_grid_of_mod_eq_zero {n : Nat} (h : n % grid = 0) : ceil n grid = n := by
  unfold ceil
  unfold grid at *
  omega

def extended (pool : Pool) (n : Nat) : Nat × Pool :=
  (pool.mark, { pool with
    mark := pool.mark + ceil n grid
    holes := if n % grid = 0 then pool.holes else
      pool.holes ++ [⟨pool.mark + n, ceil n grid - n⟩] })

def allocated (pool : Pool) (n : Nat) : Nat × Pool :=
  if n % grid ≠ 0 ∧ n < grid then
    match takeHole n pool.holes with
    | some (start, holes) => (start, { pool with holes })
    | none => pool.extended n
  else pool.extended n

def placing (pool : Pool) (c : Constant) (offset : Nat) : Pool :=
  { pool with placed := pool.placed ++ [⟨c, offset⟩] }

/-- The pool with a constant, and its offset. -/
def store (pool : Pool) (c : Constant) : Nat × Pool :=
  match pool.find? c with
  | some offset => (offset, pool)
  | none =>
    let r := pool.allocated c.cell
    (r.1, r.2.placing c r.1)

theorem extend_eq_ok_iff {pool : Pool} {n : Nat} {r : Nat × Pool} (h : n % grid ≠ 0) :
    pool.extend n = .ok r ↔ (pool.extended n).2.mark < wordLimit ∧ r = pool.extended n := by
  have rounded : ∀ m, roundUp n grid = .ok m ↔ ceil n grid < wordLimit ∧ m = ceil n grid :=
    fun m => Checked.mul_eq_ok_iff
  have end_eq : pool.extended n = (pool.mark, { pool with
      mark := pool.mark + ceil n grid
      holes := pool.holes ++ [⟨pool.mark + n, ceil n grid - n⟩] }) := by
    simp only [extended, if_neg h]
  rw [extend, end_eq, bind_eq_ok_iff]
  constructor
  · rintro ⟨m, hm, rest⟩
    obtain ⟨-, rfl⟩ := (rounded m).mp hm
    obtain ⟨mark, hmark, rest⟩ := bind_eq_ok_iff.mp rest
    obtain ⟨lt, rfl⟩ := Checked.add_eq_ok_iff.mp hmark
    cases rest
    exact ⟨lt, rfl⟩
  · rintro ⟨lt, rfl⟩
    dsimp only at lt
    refine ⟨_, (rounded _).mpr ⟨by omega, rfl⟩, bind_eq_ok_iff.mpr ⟨_, ?_, rfl⟩⟩
    exact Checked.add_eq_ok_iff.mpr ⟨lt, rfl⟩

theorem allocate_eq_ok_iff {pool : Pool} {n : Nat} {r : Nat × Pool} (h : pool.mark < wordLimit) :
    pool.allocate n = .ok r ↔ (pool.allocated n).2.mark < wordLimit ∧ r = pool.allocated n := by
  unfold allocate allocated
  by_cases whole : n % grid = 0
  · simp only [whole, if_true, ne_eq, not_true_eq_false, false_and, if_false, extended,
      ceil_grid_of_mod_eq_zero whole]
    rw [bind_eq_ok_iff]
    constructor
    · rintro ⟨mark, hmark, rest⟩
      obtain ⟨lt, rfl⟩ := Checked.add_eq_ok_iff.mp hmark
      cases rest
      exact ⟨lt, rfl⟩
    · rintro ⟨lt, rfl⟩
      exact ⟨_, Checked.add_eq_ok_iff.mpr ⟨lt, rfl⟩, rfl⟩
  · simp only [whole, if_false, ne_eq, not_false_eq_true, true_and]
    split
    · cases takeHole n pool.holes with
      | none => exact extend_eq_ok_iff whole
      | some found => simp [h, eq_comm]
    · exact extend_eq_ok_iff whole

/-- A constant can be stored exactly if the mark still fits, and then as without a bound. -/
theorem add_eq_ok_iff {pool : Pool} {c : Constant} {r : Nat × Pool} (h : pool.mark < wordLimit) :
    pool.add c = .ok r ↔ (pool.store c).2.mark < wordLimit ∧ r = pool.store c := by
  unfold add store
  cases pool.find? c with
  | some offset => simp [h, eq_comm]
  | none =>
    rw [bind_eq_ok_iff]
    constructor
    · rintro ⟨q, hq, rest⟩
      obtain ⟨lt, rfl⟩ := (allocate_eq_ok_iff h).mp hq
      cases rest
      exact ⟨lt, rfl⟩
    · rintro ⟨lt, rfl⟩
      exact ⟨_, (allocate_eq_ok_iff h).mpr ⟨lt, rfl⟩, rfl⟩

/-- Cutting bytes off a hole leaves the holes before and behind it, and the rest of it if there is
one. -/
theorem takeHole_eq_some {n start : Nat} {holes rest : List Hole}
    (h : takeHole n holes = some (start, rest)) :
    ∃ front hole back, holes = front ++ hole :: back ∧ start = hole.start ∧ n ≤ hole.length ∧
      rest = front ++ (if hole.length = n then [] else
        [⟨hole.start + n, hole.length - n⟩]) ++ back := by
  induction holes generalizing rest with
  | nil => cases h
  | cons hole holes ih =>
    rw [takeHole] at h
    split at h
    · next hle =>
      cases h
      refine ⟨[], hole, holes, rfl, rfl, hle, ?_⟩
      split <;> rfl
    · obtain ⟨⟨start', rest'⟩, hr, he⟩ := Option.map_eq_some_iff.mp h
      cases he
      obtain ⟨front, found, back, rfl, hs, hle, rfl⟩ := ih hr
      exact ⟨hole :: front, found, back, rfl, hs, hle, by simp⟩

/-- The constants and holes of a pool are below its mark, and no two of them overlap. -/
structure Tidy (pool : Pool) : Prop where
  placed : pool.placed.Pairwise fun x y => Clear x.offset x.constant.cell y.offset y.constant.cell
  holes : pool.holes.Pairwise fun h k => Clear h.start h.length k.start k.length
  between : ∀ x ∈ pool.placed, ∀ h ∈ pool.holes, Clear x.offset x.constant.cell h.start h.length
  placed_le : ∀ x ∈ pool.placed, x.offset + x.constant.cell ≤ pool.mark
  holes_le : ∀ h ∈ pool.holes, h.start + h.length ≤ pool.mark

theorem tidy_empty : empty.Tidy := by
  constructor <;> simp [empty]

theorem Tidy.placing {pool : Pool} (h : pool.Tidy) {c : Constant} {offset : Nat}
    (placed : ∀ x ∈ pool.placed, Clear x.offset x.constant.cell offset c.cell)
    (holes : ∀ k ∈ pool.holes, Clear offset c.cell k.start k.length)
    (le : offset + c.cell ≤ pool.mark) : (pool.placing c offset).Tidy where
  placed := by
    refine List.pairwise_append.mpr ⟨h.placed, List.pairwise_singleton .., fun x hx y hy => ?_⟩
    cases List.mem_singleton.mp hy
    exact placed x hx
  holes := h.holes
  between := by
    intro x hx k hk
    rcases List.mem_append.mp hx with hx | hx
    · exact h.between x hx k hk
    · cases List.mem_singleton.mp hx
      exact holes k hk
  placed_le := by
    intro x hx
    rcases List.mem_append.mp hx with hx | hx
    · exact h.placed_le x hx
    · cases List.mem_singleton.mp hx
      exact le
  holes_le := h.holes_le

/-- A stretch of a pool is clear of the constants and the holes that remain. -/
structure Free (pool : Pool) (start n : Nat) : Prop where
  tidy : pool.Tidy
  placed : ∀ x ∈ pool.placed, Clear x.offset x.constant.cell start n
  holes : ∀ k ∈ pool.holes, Clear start n k.start k.length
  le : start + n ≤ pool.mark

theorem Tidy.takeHole {pool : Pool} (h : pool.Tidy) {n start : Nat} {rest : List Hole}
    (ht : Pool.takeHole n pool.holes = some (start, rest)) :
    ({ pool with holes := rest } : Pool).Free start n := by
  obtain ⟨front, hole, back, hh, rfl, hle, rfl⟩ := takeHole_eq_some ht
  have hm : hole ∈ pool.holes := by simp [hh]
  have others : ∀ k, k ∈ front ∨ k ∈ back → k ∈ pool.holes ∧
      Clear hole.start hole.length k.start k.length := by
    intro k hk
    have hp := h.holes
    rw [hh, List.pairwise_append, List.pairwise_cons] at hp
    obtain ⟨-, ⟨hb, -⟩, hf⟩ := hp
    rcases hk with hk | hk
    · exact ⟨by simp [hh, hk], (hf k hk hole (List.mem_cons_self ..)).symm⟩
    · exact ⟨by simp [hh, hk], hb k hk⟩
  -- Each hole that remains is another one or the rest of the hole that was cut.
  have remaining : ∀ k ∈ front ++ (if hole.length = n then [] else
      [⟨hole.start + n, hole.length - n⟩]) ++ back,
      (k ∈ front ∨ k ∈ back) ∨ k = ⟨hole.start + n, hole.length - n⟩ := by
    intro k hk
    rw [List.mem_append, List.mem_append] at hk
    rcases hk with (hk | hk) | hk
    · exact Or.inl (Or.inl hk)
    · split at hk
      · cases hk
      · exact Or.inr (List.mem_singleton.mp hk)
    · exact Or.inl (Or.inr hk)
  refine ⟨⟨h.placed, ?_, fun x hx k hk => ?_, h.placed_le, fun k hk => ?_⟩, fun x hx => ?_,
    fun k hk => ?_, ?_⟩
  · have hp := h.holes
    rw [hh, List.pairwise_append, List.pairwise_cons] at hp
    obtain ⟨hf, ⟨hb, hbb⟩, hfb⟩ := hp
    have cut : ∀ k, k ∈ front ∨ k ∈ back →
        Clear k.start k.length (hole.start + n) (hole.length - n) := fun k hk =>
      (others k hk).2.symm.part (Nat.le_add_right ..) (by omega)
    dsimp only
    split
    · rw [List.append_nil]
      exact List.pairwise_append.mpr ⟨hf, hbb, fun k hk l hl =>
        hfb k hk l (List.mem_cons_of_mem _ hl)⟩
    · rw [List.append_assoc, List.singleton_append]
      refine List.pairwise_append.mpr ⟨hf, List.pairwise_cons.mpr ⟨fun k hk =>
        (cut k (Or.inr hk)).symm, hbb⟩, fun k hk l hl => ?_⟩
      rcases List.mem_cons.mp hl with rfl | hl
      · exact cut k (Or.inl hk)
      · exact hfb k hk l (List.mem_cons_of_mem _ hl)
  · rcases remaining k hk with hk | rfl
    · exact h.between x hx k (others k hk).1
    · exact (h.between x hx hole hm).part (Nat.le_add_right ..) (by dsimp only; omega)
  · rcases remaining k hk with hk | rfl
    · exact h.holes_le k (others k hk).1
    · have := h.holes_le hole hm
      dsimp only
      omega
  · exact (h.between x hx hole hm).part (Nat.le_refl _) (by omega)
  · rcases remaining k hk with hk | rfl
    · exact ((others k hk).2.symm.part (Nat.le_refl _) (by omega)).symm
    · exact Or.inl (Nat.le_refl _)
  · have := h.holes_le hole hm
    dsimp only
    omega

theorem Tidy.extended {pool : Pool} (h : pool.Tidy) (n : Nat) :
    (pool.extended n).2.Free (pool.extended n).1 n := by
  have hle := le_ceil n grid (by decide)
  have new : ∀ k ∈ (pool.extended n).2.holes, k ∈ pool.holes ∨
      k = ⟨pool.mark + n, ceil n grid - n⟩ := by
    intro k hk
    simp only [Pool.extended] at hk
    split at hk
    · exact Or.inl hk
    · rcases List.mem_append.mp hk with hk | hk
      · exact Or.inl hk
      · exact Or.inr (List.mem_singleton.mp hk)
  have mark : (pool.extended n).2.mark = pool.mark + ceil n grid := rfl
  have start : (pool.extended n).1 = pool.mark := rfl
  refine ⟨⟨h.placed, ?_, fun x hx k hk => ?_, fun x hx => ?_, fun k hk => ?_⟩, fun x hx => ?_,
    fun k hk => ?_, ?_⟩
  · simp only [Pool.extended]
    split
    · exact h.holes
    · refine List.pairwise_append.mpr ⟨h.holes, List.pairwise_singleton .., fun k hk l hl => ?_⟩
      cases List.mem_singleton.mp hl
      have := h.holes_le k hk
      exact Or.inl (by dsimp only; omega)
  · rcases new k hk with hk | rfl
    · exact h.between x hx k hk
    · have := h.placed_le x hx
      exact Or.inl (by dsimp only; omega)
  · have := h.placed_le x hx
    rw [mark]
    omega
  · rw [mark]
    rcases new k hk with hk | rfl
    · have := h.holes_le k hk
      omega
    · dsimp only
      omega
  · exact Or.inl (h.placed_le x hx)
  · rw [start]
    rcases new k hk with hk | rfl
    · exact Or.inr (h.holes_le k hk)
    · exact Or.inl (Nat.le_refl _)
  · rw [mark, start]
    omega

theorem Tidy.allocated {pool : Pool} (h : pool.Tidy) (n : Nat) :
    (pool.allocated n).2.Free (pool.allocated n).1 n := by
  unfold Pool.allocated
  split
  · split
    · next ht => exact h.takeHole ht
    · exact h.extended n
  · exact h.extended n

/-- Storing a constant keeps a pool tidy. -/
theorem Tidy.store {pool : Pool} (h : pool.Tidy) (c : Constant) : (pool.store c).2.Tidy := by
  unfold Pool.store
  split
  · exact h
  · have free := h.allocated c.cell
    exact free.tidy.placing free.placed free.holes free.le

def blob (pool : Pool) : Bytes :=
  pool.placed.foldl (fun bs x => Bytes.overwrite bs x.offset x.constant.toBytes)
    (List.replicate (ceil pool.mark blockSize) 0)

theorem foldlM_write_eq_ok_iff {placed : List Placed} {bs out : Bytes} :
    placed.foldlM write bs = .ok out ↔
      (∀ x ∈ placed, x.offset + x.constant.size ≤ bs.length) ∧
        out = placed.foldl (fun bs x => Bytes.overwrite bs x.offset x.constant.toBytes) bs := by
  induction placed generalizing bs with
  | nil => exact ⟨fun h => ⟨nofun, by cases h; rfl⟩, fun h => congrArg _ h.2.symm⟩
  | cons x rest ih =>
    rw [List.foldlM_cons, bind_eq_ok_iff, List.forall_mem_cons, List.foldl_cons, write]
    have kept (fits : x.offset + x.constant.size ≤ bs.length) :
        (Bytes.overwrite bs x.offset x.constant.toBytes).length = bs.length :=
      Bytes.length_overwrite (by rwa [Constant.length_toBytes])
    constructor
    · rintro ⟨b, hb, hr⟩
      split at hb
      · next fits =>
        cases hb
        obtain ⟨others, rfl⟩ := ih.mp hr
        rw [kept fits] at others
        exact ⟨⟨fits, others⟩, rfl⟩
      · cases hb
    · rintro ⟨⟨fits, others⟩, rfl⟩
      refine ⟨_, if_pos fits, ih.mpr ⟨?_, rfl⟩⟩
      rwa [kept fits]

/-- A pool can be finished exactly if its length fits and no constant ends beyond it. -/
theorem toBytes_eq_ok_iff {pool : Pool} {out : Bytes} :
    pool.toBytes = .ok out ↔ ceil pool.mark blockSize < wordLimit ∧
      (∀ x ∈ pool.placed, x.offset + x.constant.size ≤ ceil pool.mark blockSize) ∧
        out = pool.blob := by
  rw [toBytes, bind_eq_ok_iff]
  constructor
  · rintro ⟨n, hn, written⟩
    obtain ⟨lt, rfl⟩ := Checked.mul_eq_ok_iff.mp hn
    obtain ⟨fits, rfl⟩ := foldlM_write_eq_ok_iff.mp written
    rw [List.length_replicate] at fits
    exact ⟨lt, fits, rfl⟩
  · rintro ⟨lt, fits, rfl⟩
    refine ⟨_, Checked.mul_eq_ok_iff.mpr ⟨lt, rfl⟩, foldlM_write_eq_ok_iff.mpr ⟨?_, rfl⟩⟩
    rwa [List.length_replicate]

def Short (pool : Pool) : Prop := ∀ x ∈ pool.placed, x.constant.size < wordLimit

theorem cell_eq_size {c : Constant} (h : c.size < wordLimit) : c.cell = c.size :=
  Nat.mod_eq_of_lt h

theorem short_of_toBytes {pool : Pool} {out : Bytes} (h : pool.toBytes = .ok out) : pool.Short := by
  obtain ⟨lt, fits, -⟩ := toBytes_eq_ok_iff.mp h
  intro x hx
  have := fits x hx
  omega

/-- Writing constants that do not overlap: each can be read back, and bytes that are clear of all of
them are unchanged. -/
theorem part_foldl_overwrite {placed : List Placed} {bs : Bytes}
    (apart : placed.Pairwise fun x y => Clear x.offset x.constant.size y.offset y.constant.size)
    (le : ∀ x ∈ placed, x.offset + x.constant.size ≤ bs.length) :
    (placed.foldl (fun bs x => Bytes.overwrite bs x.offset x.constant.toBytes) bs).length =
        bs.length ∧
      (∀ a n, (∀ x ∈ placed, Clear a n x.offset x.constant.size) →
        ((placed.foldl (fun bs x => Bytes.overwrite bs x.offset x.constant.toBytes) bs).drop
          a).take n = (bs.drop a).take n) ∧
      ∀ x ∈ placed,
        ((placed.foldl (fun bs x => Bytes.overwrite bs x.offset x.constant.toBytes) bs).drop
          x.offset).take x.constant.size = x.constant.toBytes := by
  induction placed generalizing bs with
  | nil => simp
  | cons y rest ih =>
    rw [List.pairwise_cons] at apart
    have hy : y.offset + y.constant.toBytes.length ≤ bs.length := by
      rw [Constant.length_toBytes]
      exact le y (List.mem_cons_self ..)
    have hl := Bytes.length_overwrite hy
    obtain ⟨length, others, back⟩ := @ih (Bytes.overwrite bs y.offset y.constant.toBytes) apart.2
      (fun x hx => by rw [hl]; exact le x (List.mem_cons_of_mem _ hx))
    simp only [List.foldl_cons]
    refine ⟨length.trans hl, fun a n hc => ?_, fun x hx => ?_⟩
    · rw [others a n fun x hx => hc x (List.mem_cons_of_mem _ hx)]
      refine Bytes.part_overwrite_of_clear hy ?_
      rw [Constant.length_toBytes]
      exact hc y (List.mem_cons_self ..)
    · rcases List.mem_cons.mp hx with rfl | hx
      · rw [others x.offset x.constant.size apart.1, ← Constant.length_toBytes]
        exact Bytes.part_overwrite_self hy
      · exact back x hx

section

variable {pool : Pool} (h : pool.Tidy) (short : pool.Short)

include h short

theorem Tidy.sizes : pool.placed.Pairwise (fun x y =>
      Clear x.offset x.constant.size y.offset y.constant.size) ∧
    ∀ x ∈ pool.placed, x.offset + x.constant.size ≤ ceil pool.mark blockSize := by
  have hmark := le_ceil pool.mark blockSize (by decide)
  refine ⟨h.placed.imp_of_mem fun {x y} hx hy apart => ?_, fun x hx => ?_⟩
  · rwa [cell_eq_size (short x hx), cell_eq_size (short y hy)] at apart
  · have := h.placed_le x hx
    rw [cell_eq_size (short x hx)] at this
    omega

theorem Tidy.toBytes_eq_ok (fits : ceil pool.mark blockSize < wordLimit) :
    pool.toBytes = .ok pool.blob :=
  toBytes_eq_ok_iff.mpr ⟨fits, (h.sizes short).2, rfl⟩

theorem Tidy.length_blob : pool.blob.length = ceil pool.mark blockSize := by
  obtain ⟨apart, le⟩ := h.sizes short
  rw [blob, (part_foldl_overwrite apart (by rwa [List.length_replicate])).1, List.length_replicate]

/-- A stored constant is read back at its offset. -/
theorem Tidy.slice?_blob {c : Constant} {offset : Nat} (hf : pool.find? c = some offset) :
    Bytes.slice? pool.blob offset c.size = some c.toBytes := by
  obtain ⟨x, hx, rfl⟩ := Option.map_eq_some_iff.mp hf
  have hm := List.mem_of_find?_eq_some hx
  obtain rfl : x.constant = c := by simpa using List.find?_some hx
  obtain ⟨apart, le⟩ := h.sizes short
  have inside : ∀ y ∈ pool.placed, y.offset + y.constant.size ≤
      (List.replicate (ceil pool.mark blockSize) (0 : UInt8)).length := by
    rwa [List.length_replicate]
  obtain ⟨-, -, back⟩ := part_foldl_overwrite apart inside
  refine Bytes.slice?_eq_some_iff.mpr ⟨?_, (back x hm).symm⟩
  rw [h.length_blob short]
  exact le x hm

end

/-- A pool results from another by storing constants. -/
def Grows (pool later : Pool) : Prop :=
  ∃ cs : List Constant, later = cs.foldl (fun pool c => (pool.store c).2) pool

theorem Grows.refl (pool : Pool) : pool.Grows pool := ⟨[], rfl⟩

theorem Grows.trans {p q r : Pool} (h : p.Grows q) (g : q.Grows r) : p.Grows r := by
  obtain ⟨cs, rfl⟩ := h
  obtain ⟨ds, rfl⟩ := g
  exact ⟨cs ++ ds, by rw [List.foldl_append]⟩

theorem grows_store (pool : Pool) (c : Constant) : pool.Grows (pool.store c).2 := ⟨[c], rfl⟩

theorem Grows.tidy {pool later : Pool} (h : pool.Grows later) (tidy : pool.Tidy) :
    later.Tidy := by
  obtain ⟨cs, rfl⟩ := h
  induction cs generalizing pool with
  | nil => exact tidy
  | cons c cs ih => exact ih (tidy.store c)

theorem mark_allocated (pool : Pool) (n : Nat) :
    pool.mark ≤ (pool.allocated n).2.mark ∧
      (pool.allocated n).2.mark ≤ pool.mark + ceil n grid := by
  have moved : pool.mark ≤ (pool.extended n).2.mark ∧
      (pool.extended n).2.mark ≤ pool.mark + ceil n grid :=
    ⟨Nat.le_add_right .., Nat.le_refl _⟩
  unfold allocated
  split
  · split
    · exact ⟨Nat.le_refl _, Nat.le_add_right ..⟩
    · exact moved
  · exact moved

theorem mark_store (pool : Pool) (c : Constant) :
    pool.mark ≤ (pool.store c).2.mark ∧ (pool.store c).2.mark ≤ pool.mark + ceil c.cell grid := by
  unfold store
  split
  · exact ⟨Nat.le_refl _, Nat.le_add_right ..⟩
  · exact mark_allocated pool c.cell

theorem Grows.mark_le {pool later : Pool} (h : pool.Grows later) : pool.mark ≤ later.mark := by
  obtain ⟨cs, rfl⟩ := h
  induction cs generalizing pool with
  | nil => exact Nat.le_refl _
  | cons c cs ih => exact (mark_store pool c).1.trans ih

theorem placed_allocated (pool : Pool) (n : Nat) : (pool.allocated n).2.placed = pool.placed := by
  unfold allocated
  split
  · split <;> rfl
  · rfl

theorem store_of_find?_eq_none {pool : Pool} {c : Constant} (h : pool.find? c = none) :
    (pool.store c).2.placed = pool.placed ++ [⟨c, (pool.store c).1⟩] := by
  simp only [store, h, placing, placed_allocated]

theorem find?_store_self (pool : Pool) (c : Constant) :
    (pool.store c).2.find? c = some (pool.store c).1 := by
  cases h : pool.find? c with
  | some offset => simp only [store, h]
  | none =>
    have hn : (pool.placed.find? fun x => x.constant = c) = none := Option.map_eq_none_iff.mp h
    rw [find?, store_of_find?_eq_none h, List.find?_append, hn]
    simp

theorem find?_store {pool : Pool} {c : Constant} {offset : Nat} (h : pool.find? c = some offset)
    (d : Constant) : (pool.store d).2.find? c = some offset := by
  cases hd : pool.find? d with
  | some other =>
    have he : (pool.store d).2 = pool := by simp only [store, hd]
    rw [he, h]
  | none =>
    obtain ⟨x, hx, rfl⟩ := Option.map_eq_some_iff.mp h
    rw [find?, store_of_find?_eq_none hd, List.find?_append, hx]
    rfl

theorem Grows.find? {pool later : Pool} (h : pool.Grows later) {c : Constant} {offset : Nat}
    (hf : pool.find? c = some offset) : later.find? c = some offset := by
  obtain ⟨cs, rfl⟩ := h
  induction cs generalizing pool with
  | nil => exact hf
  | cons d cs ih => exact ih (find?_store hf d)

theorem Grows.mark_lt {pool later : Pool} (h : pool.Grows later) (low : later.mark < wordLimit) :
    pool.mark < wordLimit :=
  Nat.lt_of_le_of_lt h.mark_le low

end Pool

namespace Script

def named (pool : Pool) : Option String → Int32 × Pool
  | some name => (Int32.ofNat (pool.store (.text name)).1, (pool.store (.text name)).2)
  | none => (Header.unnamed, pool)

def assembled (pool : Pool) (code : Array Instruction) (name : Option String)
    (compiledAt : Int64) : Script where
  header := {
    version := .current
    compiledAt
    dataStart := Int32.ofNat Header.length
    codeStart := Int32.ofNat (Header.length + (named pool name).2.blob.length)
    moduleName := (named pool name).1 }
  data := (named pool name).2.blob
  code

theorem addName_eq_ok_iff {pool : Pool} (low : pool.mark < wordLimit) {name : Option String}
    {r : Int32 × Pool} :
    addName pool name = .ok r ↔ (named pool name).2.mark < wordLimit ∧ r = named pool name := by
  cases name with
  | none => simp [addName, named, low, eq_comm]
  | some name =>
    rw [addName, bind_eq_ok_iff]
    simp only [Pool.add_eq_ok_iff low, named]
    constructor
    · rintro ⟨-, ⟨stored, rfl⟩, hr⟩
      cases hr
      exact ⟨stored, rfl⟩
    · rintro ⟨stored, rfl⟩
      exact ⟨_, ⟨stored, rfl⟩, rfl⟩

/-- A program can be assembled exactly if its constants, with its name, can be stored and finished.
-/
theorem assemble_eq_ok_iff {pool : Pool} (low : pool.mark < wordLimit) {code : Array Instruction}
    {name : Option String} {compiledAt : Int64} {s : Script} :
    assemble pool code name compiledAt = .ok s ↔
      ((named pool name).2.mark < wordLimit ∧
        (named pool name).2.toBytes = .ok (named pool name).2.blob) ∧
      s = assembled pool code name compiledAt := by
  rw [assemble, bind_eq_ok_iff]
  simp only [addName_eq_ok_iff low, bind_eq_ok_iff]
  constructor
  · rintro ⟨-, ⟨stored, rfl⟩, data, finished, hs⟩
    obtain rfl : data = (named pool name).2.blob := (Pool.toBytes_eq_ok_iff.mp finished).2.2
    cases hs
    exact ⟨⟨stored, finished⟩, rfl⟩
  · rintro ⟨⟨stored, finished⟩, rfl⟩
    exact ⟨_, ⟨stored, rfl⟩, _, finished, rfl⟩

end Script

end Bytescript
