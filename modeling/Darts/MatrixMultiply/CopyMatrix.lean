import Darts.Lib.RowCopies
import Darts.MatrixMultiply.Tiles

/-!
# `copyMatrix`, for any two matrices (`matrix.cpp`)

`copyMatrix` compares the sizes of the two matrices, for the rows and for the columns on
their own, and applies the offset to the larger one. Which calls of `memcpy` it makes
depends on the sizes and the offsets alone (`copyMatrixCalls`). Whatever the comparisons
say, these calls copy one block, as high and as wide as the smaller matrix, from where
the offsets are in the source to where they are in the destination (`stores_calls`). That it
extracts and inserts blocks follows from that.

The two matrices do not overlap. An offset is a natural number, as sizes are.
-/

namespace Darts.Mat

open RowCopies Stores

variable {R : Type}

/-- The calls of `memcpy` that `copyMatrix` makes. -/
def copyMatrixCalls (dM dN sM sN x y : Nat) : List Copy :=
  let col := if dM < sM then dM else sM
  let row := if dN < sN then dN else sN
  let dYoff := if dN > sN then y else 0
  let sYoff := if dN > sN then 0 else if sN > dN then y else 0
  let dXoff := if dM > sM then x else 0
  let sXoff := if dM > sM then 0 else if dM < sM then x else 0
  if dN = sN ∧ dM = sM then [{ origin := 0, count := dN * dM, dest := 0 }]
  else (List.range col).map fun i =>
    { origin := (i + sXoff) * sN + sYoff, count := row, dest := (i + dXoff) * dN + dYoff }

/-- `copyMatrix(dest, source, x, y)`. -/
def copyMatrix (dest source : Mat R) (x y : Nat) : Mat R :=
  { dest with ptr := run source.ptr dest.ptr (copyMatrixCalls dest.M dest.N source.M source.N x y) }

/-- The copies to `C` are these calls, each with one more write to what it copies. -/
theorem copyMatrix_eq_foldl (dM dN : Nat) (source : Mat (Option R)) (x y : Nat)
    (m : MatrixMultiply.Memory R) : MatrixMultiply.copyMatrix dM dN source x y m =
      (copyMatrixCalls dM dN source.M source.N x y).foldl (fun m c =>
        MatrixMultiply.memcpy m c.dest (offset source.ptr c.origin) c.count) m := by
  unfold MatrixMultiply.copyMatrix copyMatrixCalls
  dsimp only
  split
  next =>
    have hwhole : offset source.ptr 0 = source.ptr := by
      funext z
      exact congrArg source.ptr (Nat.zero_add z)
    rw [List.foldl_cons, hwhole]
    rfl
  next =>
    generalize (if dM < source.M then dM else source.M) = col
    rw [List.foldl_map]
    induction col with
    | zero => rfl
    | succ i ih =>
      rw [List.range_succ, List.foldl_append, ← ih]
      rfl

/-! ## The block -/

/-- The offset in the first of two matrices of sizes `a` and `b`: that of the larger one. -/
def shift (a b x : Nat) : Nat := if b < a then x else 0

theorem shift_of_fits {a b x : Nat} (h : x + b ≤ a) : shift a b x = x := by
  unfold shift
  split <;> omega

theorem shift_of_le {a b x : Nat} (h : a ≤ b) : shift a b x = 0 := if_neg (by omega)

/-- A whole array is a block, too. -/
theorem stores_whole (src : Nat → R) (m n : Nat) :
    stores src [{ origin := 0, count := m * n, dest := 0 }] = stores src (block m n 0 n 0 n) := by
  unfold stores block
  rw [List.flatMap_singleton, List.flatMap_map]
  induction m with
  | zero => simp
  | succ m ih =>
    rw [List.range_succ, List.flatMap_append, ← ih, Nat.succ_mul, List.range_add, List.map_append,
      List.map_map, List.flatMap_singleton]
    congr 1
    refine List.map_congr_left fun v _ => ?_
    simp

/-- **The calls** move the elements of one block. -/
theorem stores_calls (src : Nat → R) (dM dN sM sN x y : Nat) :
    stores src (copyMatrixCalls dM dN sM sN x y) =
      stores src (block (min dM sM) (min dN sN) (shift sM dM x * sN + shift sN dN y) sN
        (shift dM sM x * dN + shift dN sN y) dN) := by
  unfold copyMatrixCalls
  dsimp only
  split
  next hall =>
    obtain ⟨rfl, rfl⟩ := hall
    rw [Nat.mul_comm, stores_whole, Nat.min_self, Nat.min_self, shift_of_le le_rfl,
      shift_of_le le_rfl, Nat.zero_mul]
  next =>
    have hcol : (if dM < sM then dM else sM) = min dM sM := by
      split <;> omega
    have hrow : (if dN < sN then dN else sN) = min dN sN := by
      split <;> omega
    have hsrc : ∀ a b z : Nat,
        (if a > b then 0 else if b > a then z else 0) = shift b a z := by
      intro a b z
      unfold shift
      split
      next => exact (if_neg (by omega)).symm
      next => rfl
    rw [hcol, hrow, show (if dN > sN then 0 else if sN > dN then y else 0) = _ from hsrc dN sN y,
      show (if dM > sM then 0 else if dM < sM then x else 0) = _ from hsrc dM sM x]
    show stores src ((List.range _).map fun i =>
      { origin := (i + shift sM dM x) * sN + shift sN dN y, count := min dN sN
        dest := (i + shift dM sM x) * dN + shift dN sN y }) = _
    congr 1
    refine List.map_congr_left fun i _ => ?_
    rw [Nat.add_mul, Nat.add_mul, Nat.add_comm (i * sN), Nat.add_comm (i * dN), Nat.add_right_comm,
      Nat.add_right_comm (_ * dN)]

section Common

variable (dest source : Mat R) (x y : Nat)

/-- The block in the destination, and that in the source. -/
def destStart : Nat := shift dest.M source.M x * dest.N + shift dest.N source.N y

def sourceStart : Nat := shift source.M dest.M x * source.N + shift source.N dest.N y

theorem copyMatrix_ptr : (copyMatrix dest source x y).ptr = run source.ptr dest.ptr
    (block (min dest.M source.M) (min dest.N source.N) (sourceStart dest source x y) source.N
      (destStart dest source x y) dest.N) := by
  unfold copyMatrix
  rw [run_eq_replay, run_eq_replay, stores_calls]
  rfl

theorem reads_calls : reads (copyMatrixCalls dest.M dest.N source.M source.N x y) =
    cells (min dest.M source.M) (min dest.N source.N) (sourceStart dest source x y) source.N := by
  rw [reads_eq, stores_calls, ← reads_eq, reads_block]
  rfl

theorem writes_calls : writes (copyMatrixCalls dest.M dest.N source.M source.N x y) =
    cells (min dest.M source.M) (min dest.N source.N) (destStart dest source x y) dest.N := by
  rw [← targets_stores (fun z => z), stores_calls, targets_stores, writes_block]
  rfl

/-- An element of the block. -/
theorem copyMatrix_block {i j : Nat} (hi : i < min dest.M source.M) (hj : j < min dest.N source.N) :
    (copyMatrix dest source x y).ptr
      ((shift dest.M source.M x + i) * dest.N + (shift dest.N source.N y + j)) =
    source.ptr ((shift source.M dest.M x + i) * source.N + (shift source.N dest.N y + j)) := by
  have hrun := @run_block _ (min dest.M source.M) _ (sourceStart dest source x y) source.N
    (destStart dest source x y) _ source.ptr dest.ptr (min_le_left dest.N source.N) i j hi hj
  rw [copyMatrix_ptr, Nat.add_mul, Nat.add_mul]
  unfold sourceStart destStart at hrun
  unfold sourceStart destStart
  rw [show shift dest.M source.M x * dest.N + i * dest.N + (shift dest.N source.N y + j) =
    shift dest.M source.M x * dest.N + shift dest.N source.N y + i * dest.N + j by omega, hrun]
  congr 1
  omega

/-- An element outside of it. -/
theorem copyMatrix_off {k : Nat} (hk : ∀ i j, i < min dest.M source.M → j < min dest.N source.N →
      k ≠ (shift dest.M source.M x + i) * dest.N + (shift dest.N source.N y + j)) :
    (copyMatrix dest source x y).ptr k = dest.ptr k := by
  rw [copyMatrix_ptr]
  refine run_block_off fun i j hi hj heq => hk i j hi hj ?_
  rw [heq, Nat.add_mul]
  unfold destStart
  omega

end Common

/-! ## Any shapes -/

/-- An offset at which the smaller one fits into the larger one. -/
def Fits (a b x : Nat) : Prop := a = b ∨ x + min a b ≤ max a b

theorem Fits.shift_le {a b x : Nat} (h : Fits a b x) : shift a b x + min a b ≤ a := by
  unfold shift
  rcases h with h | h
  · rw [if_neg (by omega)]
    omega
  · split <;> omega

theorem Fits.symm {a b x : Nat} (h : Fits a b x) : Fits b a x := by
  unfold Fits at h ⊢
  omega

/-- A block as high and as wide as the smaller matrix is copied, from and to where the offset is in
the larger one; nothing else changes, and no index is out of bounds. -/
structure CopiesCommon (dest source : Mat R) (x y : Nat) : Prop where
  block : ∀ i j, i < min dest.M source.M → j < min dest.N source.N →
    (copyMatrix dest source x y).ptr
      ((shift dest.M source.M x + i) * dest.N + (shift dest.N source.N y + j)) =
    source.ptr ((shift source.M dest.M x + i) * source.N + (shift source.N dest.N y + j))
  frame : ∀ k, (∀ i j, i < min dest.M source.M → j < min dest.N source.N →
      k ≠ (shift dest.M source.M x + i) * dest.N + (shift dest.N source.N y + j)) →
    (copyMatrix dest source x y).ptr k = dest.ptr k
  reads : ∀ k ∈ reads (copyMatrixCalls dest.M dest.N source.M source.N x y), k < source.M * source.N
  writes : ∀ k ∈ writes (copyMatrixCalls dest.M dest.N source.M source.N x y), k < dest.M * dest.N

theorem copiesCommon {dest source : Mat R} {x y : Nat} (hx : Fits dest.M source.M x)
    (hy : Fits dest.N source.N y) : CopiesCommon dest source x y where
  block i j hi hj := copyMatrix_block dest source x y hi hj
  frame k hk := copyMatrix_off dest source x y hk
  reads k hk := by
    rw [reads_calls] at hk
    have hM := hx.symm.shift_le
    have hN := hy.symm.shift_le
    rw [Nat.min_comm] at hM hN
    exact lt_of_mem_cells hM hN hk
  writes k hk := by
    rw [writes_calls] at hk
    exact lt_of_mem_cells hx.shift_le hy.shift_le hk

/-! ## A part of a matrix -/

section Part

variable {S D : Mat R} {x y : Nat}

/-- Out of a larger matrix. -/
theorem extract_ptr (hx : x + D.M ≤ S.M) (hy : y + D.N ≤ S.N) {i j : Nat} (hi : i < D.M)
    (hj : j < D.N) :
    (copyMatrix D S x y).ptr (i * D.N + j) = S.ptr ((x + i) * S.N + (y + j)) := by
  have hblock := copyMatrix_block D S x y (i := i) (j := j) (by omega) (by omega)
  rw [shift_of_le (by omega : D.M ≤ S.M), shift_of_le (by omega : D.N ≤ S.N), shift_of_fits hx,
    shift_of_fits hy, Nat.zero_add, Nat.zero_add] at hblock
  exact hblock

/-- Into a larger matrix. -/
theorem insert_ptr (hx : x + D.M ≤ S.M) (hy : y + D.N ≤ S.N) {i j : Nat} (hi : i < D.M)
    (hj : j < D.N) :
    (copyMatrix S D x y).ptr ((x + i) * S.N + (y + j)) = D.ptr (i * D.N + j) := by
  have hblock := copyMatrix_block S D x y (i := i) (j := j) (by omega) (by omega)
  rw [shift_of_le (by omega : D.M ≤ S.M), shift_of_le (by omega : D.N ≤ S.N), shift_of_fits hx,
    shift_of_fits hy, Nat.zero_add, Nat.zero_add] at hblock
  exact hblock

theorem insert_off (hx : x + D.M ≤ S.M) (hy : y + D.N ≤ S.N) {k : Nat}
    (hk : ∀ i j, i < D.M → j < D.N → k ≠ (x + i) * S.N + (y + j)) :
    (copyMatrix S D x y).ptr k = S.ptr k := by
  refine copyMatrix_off S D x y fun i j hi hj => ?_
  rw [shift_of_fits hx, shift_of_fits hy]
  exact hk i j (by omega) (by omega)

/-- What is known of a part `D` of `S` at `(x, y)`. -/
structure ExtractsAndInserts [Zero R] (S D : Mat R) (x y : Nat) : Prop where
  /-- Extracted, it is what the constructor of a part makes. -/
  extract : ∀ i j, i < D.M → j < D.N → (copyMatrix D S x y).ptr (i * D.N + j) =
    (MatrixMultiply.subMatrix S x y D.M D.N).ptr (i * D.N + j)
  /-- Inserted, it is there, and everything else is as it was. -/
  insert : ∀ i j, i < D.M → j < D.N →
    (copyMatrix S D x y).ptr ((x + i) * S.N + (y + j)) = D.ptr (i * D.N + j)
  frame : ∀ k, (∀ i j, i < D.M → j < D.N → k ≠ (x + i) * S.N + (y + j)) →
    (copyMatrix S D x y).ptr k = S.ptr k
  /-- To extract it and insert it again changes nothing. -/
  insert_extract : copyMatrix S (copyMatrix D S x y) x y = S
  /-- What has been inserted is extracted, into any matrix of its size. -/
  extract_insert : ∀ D' : Mat R, D'.M = D.M → D'.N = D.N → ∀ k < D.M * D.N,
    (copyMatrix D' (copyMatrix S D x y) x y).ptr k = D.ptr k

theorem extractsAndInserts [Zero R] (hx : x + D.M ≤ S.M) (hy : y + D.N ≤ S.N) :
    ExtractsAndInserts S D x y where
  extract i j hi hj := by
    rw [extract_ptr hx hy hi hj, MatrixMultiply.subMatrix_ptr S x y D.M hi hj, Nat.add_comm x i,
      Nat.add_assoc]
  insert i j hi hj := insert_ptr hx hy hi hj
  frame k hk := insert_off hx hy hk
  insert_extract := by
    have hptr : (copyMatrix S (copyMatrix D S x y) x y).ptr = S.ptr := by
      funext k
      by_cases hk : ∃ i j, i < D.M ∧ j < D.N ∧ k = (x + i) * S.N + (y + j)
      · obtain ⟨i, j, hi, hj, rfl⟩ := hk
        rw [insert_ptr (D := copyMatrix D S x y) hx hy hi hj]
        exact extract_ptr hx hy hi hj
      · refine insert_off (D := copyMatrix D S x y) hx hy fun i j hi hj heq => hk ?_
        exact ⟨i, j, hi, hj, heq⟩
    show ({ S with ptr := (copyMatrix S (copyMatrix D S x y) x y).ptr } : Mat R) = S
    rw [hptr]
  extract_insert D' hM hN k hk := by
    obtain ⟨i, hi, j, hj, rfl⟩ := RowMajor.exists_eq hk
    have hextract := extract_ptr (S := copyMatrix S D x y) (D := D') (x := x) (y := y)
      (by rw [hM]; exact hx) (by rw [hN]; exact hy) (by rwa [hM]) (by rwa [hN])
    rw [hN] at hextract
    rw [hextract]
    exact insert_ptr hx hy hi hj

end Part

/-- **`copyMatrix` extracts and inserts blocks**, in agreement with the constructor of a part, and
copies what two matrices of any shapes have in common. -/
theorem copyMatrix_exact (R : Type) [Zero R] :
    (∀ (S D : Mat R) (x y : Nat), x + D.M ≤ S.M → y + D.N ≤ S.N → ExtractsAndInserts S D x y) ∧
    ∀ (dest source : Mat R) (x y : Nat), Fits dest.M source.M x → Fits dest.N source.N y →
      CopiesCommon dest source x y :=
  ⟨fun _ _ _ _ hx hy => extractsAndInserts hx hy, fun _ _ _ _ hx hy => copiesCommon hx hy⟩

/-- Two rows and two columns of three rows and four columns, and three rows and two columns of
four. -/
theorem copyMatrix_exact_three_four :
    ExtractsAndInserts (R := Nat) ⟨3, 4, fun k => k⟩ ⟨2, 2, fun k => 10 * k⟩ 1 1 ∧
      CopiesCommon (R := Nat) ⟨4, 2, fun k => k⟩ ⟨3, 4, fun k => 10 * k⟩ 1 2 :=
  ⟨(copyMatrix_exact Nat).1 ⟨3, 4, fun k => k⟩ ⟨2, 2, fun k => 10 * k⟩ 1 1 (by decide) (by decide),
    (copyMatrix_exact Nat).2 ⟨4, 2, fun k => k⟩ ⟨3, 4, fun k => 10 * k⟩ 1 2 (Or.inr (by decide))
      (Or.inr (by decide))⟩

end Darts.Mat
