import Mathlib.Data.List.Nodup
import Darts.Lib.RowMajor
import Darts.Lib.Stores

/-!
# Copying blocks, row by row

A `Copy` is a call of a function like `memcpy`: `count` elements from `origin` in one
array to `dest` in another. A block of a row-major array is `m` rows of `n` elements that
start `stride` apart; `block` copies one from an array to another, a row with each call.
As long as no row runs into the next one, it reads and writes each element of a block once
and in order (`reads_block`, `writes_block`), and what it leaves is known
(`run_block`, `run_block_off`).
-/

namespace RowCopies

open Stores

variable {V : Type}

structure Copy where
  origin : Nat
  count : Nat
  dest : Nat
deriving DecidableEq

/-- What a call leaves in the array that is written. -/
def Copy.run (src mem : Nat → V) (c : Copy) : Nat → V := fun x =>
  if c.dest ≤ x ∧ x < c.dest + c.count then src (c.origin + (x - c.dest)) else mem x

/-- What calls leave, one after the other. -/
def run (src mem : Nat → V) (cs : List Copy) : Nat → V := cs.foldl (Copy.run src) mem

/-- The indices that calls read, in order. -/
def reads (cs : List Copy) : List Nat :=
  cs.flatMap fun c => (List.range c.count).map fun v => c.origin + v

/-- Those that they write. -/
def writes (cs : List Copy) : List Nat :=
  cs.flatMap fun c => (List.range c.count).map fun v => c.dest + v

/-- The elements that calls move. -/
def stores (src : Nat → V) (cs : List Copy) : List (Nat × V) :=
  cs.flatMap fun c => (List.range c.count).map fun v => (c.dest + v, src (c.origin + v))

theorem targets_stores (src : Nat → V) (cs : List Copy) : targets (stores src cs) = writes cs := by
  unfold stores writes
  rw [targets_flatMap]
  refine List.flatMap_congr fun c _ => ?_
  unfold targets
  rw [List.map_map]
  rfl

/-- An array whose elements are their indices shows what is read. -/
theorem reads_eq (cs : List Copy) : reads cs = (stores (fun x => x) cs).map Prod.snd := by
  unfold reads stores
  rw [List.map_flatMap]
  refine List.flatMap_congr fun c _ => ?_
  rw [List.map_map]
  rfl

/-- A call stores its elements one after the other. -/
theorem Copy.run_eq_replay (src mem : Nat → V) (c : Copy) : c.run src mem =
    replay mem ((List.range c.count).map fun v => (c.dest + v, src (c.origin + v))) := by
  have htargets : targets ((List.range c.count).map fun v => (c.dest + v, src (c.origin + v))) =
      (List.range c.count).map fun v => c.dest + v := by
    unfold targets
    rw [List.map_map]
    rfl
  have hnodup : ((List.range c.count).map fun v => c.dest + v).Nodup :=
    List.nodup_range.map fun v v' h => Nat.add_left_cancel h
  funext x
  unfold Copy.run
  by_cases hx : c.dest ≤ x ∧ x < c.dest + c.count
  · obtain ⟨v, rfl⟩ := Nat.exists_eq_add_of_le hx.1
    have hv : v < c.count := by omega
    rw [if_pos hx, Nat.add_sub_cancel_left]
    refine (replay_of_mem mem (htargets ▸ hnodup) ?_).symm
    exact List.mem_map.mpr ⟨v, List.mem_range.mpr hv, rfl⟩
  · rw [if_neg hx]
    refine (replay_of_notMem mem ?_).symm
    rw [htargets]
    intro hmem
    obtain ⟨v, hv, rfl⟩ := List.mem_map.mp hmem
    have hlt := List.mem_range.mp hv
    exact hx ⟨Nat.le_add_right _ _, by omega⟩

theorem run_eq_replay (src mem : Nat → V) (cs : List Copy) :
    run src mem cs = replay mem (stores src cs) := by
  unfold run stores
  rw [← foldl_replay]
  congr 1
  funext m c
  exact c.run_eq_replay src m

theorem run_of_notMem {src mem : Nat → V} {cs : List Copy} {x : Nat} (h : x ∉ writes cs) :
    run src mem cs x = mem x := by
  rw [run_eq_replay]
  exact replay_of_notMem mem (by rwa [targets_stores])

/-! ## Blocks -/

/-- The indices of a block, row by row. -/
def cells (m n start stride : Nat) : List Nat :=
  (List.range m).flatMap fun u => (List.range n).map fun v => start + u * stride + v

/-- The calls that copy a block, a row each. -/
def block (m n origin s dest d : Nat) : List Copy :=
  (List.range m).map fun u => { origin := origin + u * s, count := n, dest := dest + u * d }

variable {m n origin s dest d start stride : Nat}

theorem reads_block : reads (block m n origin s dest d) = cells m n origin s := by
  unfold reads block cells
  rw [List.flatMap_map]

theorem writes_block : writes (block m n origin s dest d) = cells m n dest d := by
  unfold writes block cells
  rw [List.flatMap_map]

theorem mem_cells {x : Nat} :
    x ∈ cells m n start stride ↔ ∃ u < m, ∃ v < n, x = start + u * stride + v := by
  unfold cells
  simp only [List.mem_flatMap, List.mem_map, List.mem_range]
  constructor
  · intro h
    obtain ⟨u, hu, v, hv, rfl⟩ := h
    exact ⟨u, hu, v, hv, rfl⟩
  · intro h
    obtain ⟨u, hu, v, hv, rfl⟩ := h
    exact ⟨u, hu, v, hv, rfl⟩

/-- Rows that do not run into each other have no element in common. -/
theorem row_inj {u u' v v' : Nat} (h : n ≤ stride) (hv : v < n) (hv' : v' < n)
    (heq : start + u * stride + v = start + u' * stride + v') : u = u' ∧ v = v' :=
  RowMajor.inj (Nat.lt_of_lt_of_le hv h) (Nat.lt_of_lt_of_le hv' h)
    (show u * stride + v = u' * stride + v' by omega)

theorem nodup_cells (h : n ≤ stride) : (cells m n start stride).Nodup := by
  refine List.nodup_flatMap.mpr ⟨fun u _ => ?_, ?_⟩
  · exact List.nodup_range.map fun v v' heq => Nat.add_left_cancel heq
  · refine List.nodup_range.imp fun {u u'} hne => List.disjoint_left.mpr fun x hx hx' => ?_
    obtain ⟨v, hv, rfl⟩ := List.mem_map.mp hx
    obtain ⟨v', hv', heq⟩ := List.mem_map.mp hx'
    exact hne (row_inj h (List.mem_range.mp hv) (List.mem_range.mp hv') heq.symm).1

/-- A block of an array of `M` rows of `N` elements lies inside of it. -/
theorem lt_of_mem_cells {M N r c x : Nat} (hr : r + m ≤ M) (hc : c + n ≤ N)
    (hx : x ∈ cells m n (r * N + c) N) : x < M * N := by
  obtain ⟨u, hu, v, hv, rfl⟩ := mem_cells.mp hx
  have hrow : (r + u + 1) * N ≤ M * N := Nat.mul_le_mul_right N (by omega)
  rw [Nat.add_mul, Nat.add_mul, Nat.one_mul] at hrow
  omega

/-- Each element is where it belongs. -/
theorem run_block {src mem : Nat → V} (h : n ≤ d) {u v : Nat} (hu : u < m) (hv : v < n) :
    run src mem (block m n origin s dest d) (dest + u * d + v) = src (origin + u * s + v) := by
  rw [run_eq_replay]
  refine replay_of_mem mem ?_ ?_
  · rw [targets_stores, writes_block]
    exact nodup_cells h
  · unfold stores block
    rw [List.flatMap_map]
    refine List.mem_flatMap.mpr ⟨u, List.mem_range.mpr hu, ?_⟩
    exact List.mem_map.mpr ⟨v, List.mem_range.mpr hv, rfl⟩

/-- Nothing else changes. -/
theorem run_block_off {src mem : Nat → V} {x : Nat}
    (hx : ∀ u v, u < m → v < n → x ≠ dest + u * d + v) :
    run src mem (block m n origin s dest d) x = mem x := by
  refine run_of_notMem fun hmem => ?_
  rw [writes_block] at hmem
  obtain ⟨u, hu, v, hv, heq⟩ := mem_cells.mp hmem
  exact hx u v hu hv heq

end RowCopies
