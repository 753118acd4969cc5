import Mathlib
import Bytescript.Proofs.Placement

/-!
# Constants and holes partition the pool

In a pool that is filled one constant after the other, the constants and the holes partition the
bytes below the mark. The mark is a multiple of the grid and every hole ends at one. So each
constant is in the finished pool at the offset that was returned for it, whatever was stored later.
Constants whose sizes, each rounded up to the grid, add up to less than 2 ^ 32 can all be stored,
and the pool can be finished.
-/
namespace Bytescript.Pool

def Takes (pool : Pool) (i : Nat) : Prop :=
  (∃ x ∈ pool.placed, x.offset ≤ i ∧ i < x.offset + x.constant.cell) ∨
    ∃ h ∈ pool.holes, h.start ≤ i ∧ i < h.start + h.length

/-- The mark of a pool is a multiple of the grid, and every hole is the rest of a cell. -/
structure Gridded (pool : Pool) : Prop where
  mark : grid ∣ pool.mark
  holes : ∀ h ∈ pool.holes, 0 < h.length ∧ h.length < grid ∧ grid ∣ h.start + h.length

theorem gridded_empty : empty.Gridded := by
  constructor <;> simp [empty]

theorem Gridded.takeHole {pool : Pool} (h : pool.Gridded) {n start : Nat} {rest : List Hole}
    (ht : Pool.takeHole n pool.holes = some (start, rest)) :
    ({ pool with holes := rest } : Pool).Gridded := by
  obtain ⟨front, hole, back, hh, -, hle, rfl⟩ := takeHole_eq_some ht
  refine ⟨h.mark, fun k hk => ?_⟩
  rw [List.mem_append, List.mem_append] at hk
  rcases hk with (hk | hk) | hk
  · exact h.holes k (by simp [hh, hk])
  · split at hk
    · cases hk
    · next hne =>
      rw [List.mem_singleton.mp hk]
      obtain ⟨-, hlt, hend⟩ := h.holes hole (by simp [hh])
      have hsum : hole.start + n + (hole.length - n) = hole.start + hole.length := by omega
      refine ⟨?_, ?_, ?_⟩
      · dsimp only
        omega
      · dsimp only
        omega
      · dsimp only
        rwa [hsum]
  · exact h.holes k (by simp [hh, hk])

theorem Gridded.extended {pool : Pool} (h : pool.Gridded) (n : Nat) :
    (pool.extended n).2.Gridded := by
  have hdvd := dvd_ceil n grid
  have hle := le_ceil n grid (by decide)
  have hlt := ceil_lt n grid (by decide)
  refine ⟨dvd_add h.mark hdvd, fun k hk => ?_⟩
  simp only [Pool.extended] at hk
  split at hk
  · exact h.holes k hk
  · next part =>
    rcases List.mem_append.mp hk with hk | hk
    · exact h.holes k hk
    · rw [List.mem_singleton.mp hk]
      have hne : ceil n grid ≠ n := fun same => part (Nat.mod_eq_zero_of_dvd (same ▸ hdvd))
      have hsum : pool.mark + n + (ceil n grid - n) = pool.mark + ceil n grid := by omega
      refine ⟨?_, ?_, ?_⟩
      · dsimp only
        omega
      · dsimp only
        omega
      · dsimp only
        rw [hsum]
        exact dvd_add h.mark hdvd

theorem Gridded.allocated {pool : Pool} (h : pool.Gridded) (n : Nat) :
    (pool.allocated n).2.Gridded := by
  unfold Pool.allocated
  split
  · split
    · next ht => exact h.takeHole ht
    · exact h.extended n
  · exact h.extended n

theorem Gridded.store {pool : Pool} (h : pool.Gridded) (c : Constant) :
    (pool.store c).2.Gridded := by
  unfold Pool.store
  split
  · exact h
  · exact ⟨(h.allocated c.cell).mark, (h.allocated c.cell).holes⟩

/-- The bytes below the mark of a pool are those of its constants and holes, and those of one more
stretch that is meant for a constant. -/
def CoveredWith (pool : Pool) (start n : Nat) : Prop :=
  ∀ i, i < pool.mark ↔ pool.Takes i ∨ start ≤ i ∧ i < start + n

/-- The bytes below the mark of a pool are those of its constants and holes. -/
def Covered (pool : Pool) : Prop := ∀ i, i < pool.mark ↔ pool.Takes i

theorem covered_empty : empty.Covered := by
  intro i
  simp [empty, Takes]

theorem takeHole_bytes {n start : Nat} {holes rest : List Hole}
    (ht : takeHole n holes = some (start, rest)) (i : Nat) :
    (∃ h ∈ holes, h.start ≤ i ∧ i < h.start + h.length) ↔
      (∃ h ∈ rest, h.start ≤ i ∧ i < h.start + h.length) ∨ start ≤ i ∧ i < start + n := by
  obtain ⟨front, hole, back, rfl, rfl, hle, rfl⟩ := takeHole_eq_some ht
  -- Only the hole that is used changes: it is split, or it is gone if it fits exactly.
  have cut : (hole.start ≤ i ∧ i < hole.start + hole.length) ↔
      (∃ h ∈ (if hole.length = n then [] else [⟨hole.start + n, hole.length - n⟩] : List Hole),
        h.start ≤ i ∧ i < h.start + h.length) ∨ hole.start ≤ i ∧ i < hole.start + n := by
    split
    · next heq => simp [heq]
    · simp only [List.mem_singleton, exists_eq_left]
      omega
  simp only [List.mem_append, List.mem_cons, or_and_right, exists_or, exists_eq_left, cut]
  rw [or_assoc, or_assoc, or_assoc]
  exact or_congr_right (or_congr_right or_comm)

theorem Covered.takeHole {pool : Pool} (h : pool.Covered) {n start : Nat} {rest : List Hole}
    (ht : Pool.takeHole n pool.holes = some (start, rest)) :
    ({ pool with holes := rest } : Pool).CoveredWith start n := by
  intro i
  have hi := h i
  rw [Takes, takeHole_bytes ht] at hi
  rw [Takes, or_assoc]
  exact hi

theorem Covered.extended {pool : Pool} (h : pool.Covered) (n : Nat) :
    (pool.extended n).2.CoveredWith (pool.extended n).1 n := by
  intro i
  have hi := h i
  have hle := le_ceil n grid (by decide)
  have hole : ((∃ k ∈ (pool.extended n).2.holes, k.start ≤ i ∧ i < k.start + k.length) ↔
      (∃ k ∈ pool.holes, k.start ≤ i ∧ i < k.start + k.length) ∨
        pool.mark + n ≤ i ∧ i < pool.mark + ceil n grid) := by
    simp only [Pool.extended]
    split
    · next whole =>
      have none : ¬ (pool.mark + n ≤ i ∧ i < pool.mark + ceil n grid) := by
        rw [ceil_grid_of_mod_eq_zero whole]
        omega
      simp [none]
    · have hsum : pool.mark + n + (ceil n grid - n) = pool.mark + ceil n grid := by omega
      simp only [List.mem_append, List.mem_singleton, or_and_right, exists_or, exists_eq_left, hsum]
  rw [Takes] at hi ⊢
  rw [hole]
  change i < pool.mark + ceil n grid ↔
    ((∃ x ∈ pool.placed, x.offset ≤ i ∧ i < x.offset + x.constant.cell) ∨ _) ∨
      pool.mark ≤ i ∧ i < pool.mark + n
  rw [← or_assoc, ← hi]
  omega

theorem Covered.allocated {pool : Pool} (h : pool.Covered) (n : Nat) :
    (pool.allocated n).2.CoveredWith (pool.allocated n).1 n := by
  unfold Pool.allocated
  split
  · split
    · next ht => exact h.takeHole ht
    · exact h.extended n
  · exact h.extended n

theorem CoveredWith.placing {pool : Pool} {c : Constant} {offset : Nat}
    (h : pool.CoveredWith offset c.cell) : (pool.placing c offset).Covered := by
  intro i
  have hi := h i
  rw [Takes] at hi ⊢
  change i < pool.mark ↔ _
  rw [hi]
  simp only [Pool.placing, List.mem_append, List.mem_singleton, or_and_right, exists_or,
    exists_eq_left]
  exact or_right_comm

theorem Covered.store {pool : Pool} (h : pool.Covered) (c : Constant) :
    (pool.store c).2.Covered := by
  unfold Pool.store
  split
  · exact h
  · exact (h.allocated c.cell).placing

theorem mem_store (pool : Pool) (c d : Constant) :
    d ∈ (pool.store c).2.placed.map Placed.constant ↔
      d ∈ pool.placed.map Placed.constant ∨ d = c := by
  cases h : pool.find? c with
  | none => rw [store_of_find?_eq_none h]; simp
  | some offset =>
    have hp : (pool.store c).2 = pool := by simp only [store, h]
    obtain ⟨x, hx, -⟩ := Option.map_eq_some_iff.mp h
    have hm : c ∈ pool.placed.map Placed.constant :=
      List.mem_map.mpr ⟨x, List.mem_of_find?_eq_some hx, by simpa using List.find?_some hx⟩
    rw [hp]
    constructor
    · exact Or.inl
    · rintro (hd | rfl)
      · exact hd
      · exact hm

theorem nodup_store {pool : Pool} (h : (pool.placed.map Placed.constant).Nodup) (c : Constant) :
    ((pool.store c).2.placed.map Placed.constant).Nodup := by
  cases hf : pool.find? c with
  | none =>
    have new : c ∉ pool.placed.map Placed.constant := by
      intro hm
      obtain ⟨x, hx, hc⟩ := List.mem_map.mp hm
      have := List.find?_eq_none.mp (Option.map_eq_none_iff.mp hf) x hx
      simp [hc] at this
    rw [store_of_find?_eq_none hf, List.map_append, List.nodup_append]
    refine ⟨h, by simp, fun a ha b hb => ?_⟩
    cases List.mem_singleton.mp hb
    rintro rfl
    exact new ha
  | some offset =>
    have hp : (pool.store c).2 = pool := by simp only [store, hf]
    rwa [hp]

structure Ordered (pool : Pool) : Prop where
  tidy : pool.Tidy
  covered : pool.Covered
  gridded : pool.Gridded
  nodup : (pool.placed.map Placed.constant).Nodup

theorem ordered_empty : empty.Ordered :=
  ⟨tidy_empty, covered_empty, gridded_empty, by simp [empty]⟩

theorem Ordered.store {pool : Pool} (h : pool.Ordered) (c : Constant) : (pool.store c).2.Ordered :=
  ⟨h.tidy.store c, h.covered.store c, h.gridded.store c, nodup_store h.nodup c⟩

def addAll (pool : Pool) : List Constant → Checked (List Nat × Pool)
  | [] => .ok ([], pool)
  | c :: cs => do
    let (offset, pool) ← pool.add c
    let (offsets, pool) ← pool.addAll cs
    return (offset :: offsets, pool)

/-- The result of `addAll` as long as the mark fits. -/
def storeAll (pool : Pool) : List Constant → List Nat × Pool
  | [] => ([], pool)
  | c :: cs =>
    ((pool.store c).1 :: ((pool.store c).2.storeAll cs).1, ((pool.store c).2.storeAll cs).2)

theorem grows_storeAll (pool : Pool) (cs : List Constant) : pool.Grows (pool.storeAll cs).2 := by
  induction cs generalizing pool with
  | nil => exact .refl pool
  | cons c cs ih => exact (grows_store pool c).trans (ih _)

theorem storeAll_append (pool : Pool) (cs ds : List Constant) :
    (pool.storeAll (cs ++ ds)).2 = ((pool.storeAll cs).2.storeAll ds).2 := by
  induction cs generalizing pool with
  | nil => rfl
  | cons c cs ih => exact ih (pool.store c).2

/-- Constants can be stored exactly if the mark behind all of them fits. -/
theorem addAll_eq_ok_iff {pool : Pool} {cs : List Constant} {r : List Nat × Pool}
    (h : pool.mark < wordLimit) :
    pool.addAll cs = .ok r ↔ (pool.storeAll cs).2.mark < wordLimit ∧ r = pool.storeAll cs := by
  induction cs generalizing pool r with
  | nil => simp [addAll, storeAll, h, eq_comm]
  | cons c cs ih =>
    rw [addAll, bind_eq_ok_iff, storeAll]
    have later := (grows_storeAll (pool.store c).2 cs).mark_le
    constructor
    · rintro ⟨q, hq, rest⟩
      obtain ⟨lt, rfl⟩ := (add_eq_ok_iff h).mp hq
      obtain ⟨all, hall, rest⟩ := bind_eq_ok_iff.mp rest
      obtain ⟨fits, rfl⟩ := (ih lt).mp hall
      cases rest
      exact ⟨fits, rfl⟩
    · rintro ⟨fits, rfl⟩
      dsimp only at fits
      have lt : (pool.store c).2.mark < wordLimit := by omega
      exact ⟨_, (add_eq_ok_iff h).mpr ⟨lt, rfl⟩,
        bind_eq_ok_iff.mpr ⟨_, (ih lt).mpr ⟨fits, rfl⟩, rfl⟩⟩

theorem storeAll_induction {P : Pool → Prop} (step : ∀ pool c, P pool → P (pool.store c).2)
    {pool : Pool} (start : P pool) (cs : List Constant) : P (pool.storeAll cs).2 := by
  induction cs generalizing pool with
  | nil => exact start
  | cons c cs ih => exact ih (step pool c start)

theorem ordered_storeAll (cs : List Constant) : (empty.storeAll cs).2.Ordered :=
  storeAll_induction (fun _ c h => h.store c) ordered_empty cs

theorem mem_storeAll (pool : Pool) (cs : List Constant) (d : Constant) :
    d ∈ (pool.storeAll cs).2.placed.map Placed.constant ↔
      d ∈ pool.placed.map Placed.constant ∨ d ∈ cs := by
  induction cs generalizing pool with
  | nil => simp [storeAll]
  | cons c cs ih => rw [storeAll, ih, mem_store, List.mem_cons, or_assoc]

theorem short_storeAll_iff {cs : List Constant} :
    (empty.storeAll cs).2.Short ↔ ∀ c ∈ cs, c.size < wordLimit := by
  have stored (c : Constant) : c ∈ (empty.storeAll cs).2.placed.map Placed.constant ↔ c ∈ cs := by
    simp [mem_storeAll, empty]
  constructor
  · intro short c hc
    obtain ⟨x, hx, rfl⟩ := List.mem_map.mp ((stored c).mpr hc)
    exact short x hx
  · intro small x hx
    exact small _ ((stored x.constant).mp (List.mem_map_of_mem hx))

end Bytescript.Pool
