import Mathlib.Algebra.BigOperators.Ring.Finset
import Darts.Lib.CLoop
import Darts.Lib.RowCopies

/-!
# `class matrix`, row copies and `DGEMM`

`apps/Cannon/matrix.h` and its twin in `apps/Cannon-dfswp`. A `double *` is a
function from offsets to entries; entries live in any commutative ring, so that
sums are exact. Entries outside an allocation are never looked at by the code,
and the theorems never mention them.

`DGEMM` is a BLAS library call, so it is a parameter (`Blas`) with the documented
row-major meaning as its specification; `Blas.reference` shows that meaning can
be had.
-/

namespace Darts

variable {R : Type}

/-- `class matrix`: `INT M`, `INT N` and the storage. -/
structure Mat (R : Type) where
  M : Nat
  N : Nat
  ptr : Nat → R

/-- Pointer arithmetic, `p + i`. -/
def offset (p : Nat → R) (i : Nat) : Nat → R := fun x => p (i + x)

/-- `std::copy_n(src, count, mem + dest)`. -/
def copyN (src : Nat → R) (count : Nat) (mem : Nat → R) (dest : Nat) : Nat → R :=
  fun x => if dest ≤ x ∧ x < dest + count then src (x - dest) else mem x

/-- The copy constructor of `matrix`: fresh storage of `M * N` entries. -/
def Mat.copy [Zero R] (obj : Mat R) : Mat R :=
  ⟨obj.M, obj.N, copyN obj.ptr (obj.M * obj.N) (fun _ => 0) 0⟩

theorem copyN_of_mem {src mem : Nat → R} {count dest x : Nat} (h : x < count) :
    copyN src count mem dest (dest + x) = src x := by
  rw [copyN, if_pos (by omega), Nat.add_sub_cancel_left]

theorem copyN_of_lt {src mem : Nat → R} {count dest x : Nat} (h : x < dest) :
    copyN src count mem dest x = mem x :=
  if_neg (by omega)

/-! ## A tile in and out of a matrix

The loop of `cannonCodCopyA::fire` and its siblings: `sqrtP` rows of `sqrtP`
entries, the matrix pointer advancing by `M` per turn, the tile pointer by
`sqrtP`. -/

/-- Where a tile starts in the matrix: `initial_index`. -/
def initialIndex (sqrtNT M sqrtP tileIndex : Nat) : Nat :=
  (tileIndex / sqrtNT) * M * sqrtP + (tileIndex % sqrtNT) * sqrtP

/-- The copy loop from the matrix `src` into the tile at `mem + dest`. -/
def gatherTile (M sqrtP initial : Nat) (src mem : Nat → R) (dest : Nat) : Nat → R :=
  (CLoop.forStep (initial + sqrtP * M) M
    (fun i (st : Nat × (Nat → R)) => (st.1 + sqrtP, copyN (offset src i) sqrtP st.2 st.1))
    initial (dest, mem)).2

/-- The copy loop from the tile at `mem + origin` into the matrix `dst`. -/
def scatterTile (M sqrtP initial : Nat) (mem : Nat → R) (origin : Nat) (dst : Nat → R) :
    Nat → R :=
  (CLoop.forStep (initial + sqrtP * M) M
    (fun i (st : Nat × (Nat → R)) => (st.1 + sqrtP, copyN (offset mem st.1) sqrtP st.2 i))
    initial (origin, dst)).2

/-- The copy loop, whatever a call does: it is given the index into the matrix and that into the
tile. -/
def copyLoop {σ : Type} (M sqrtP initial : Nat) (call : Nat → Nat → σ → σ) (ptr : Nat) (s : σ) : σ :=
  (CLoop.forStep (initial + sqrtP * M) M
    (fun i (st : Nat × σ) => (st.1 + sqrtP, call i st.1 st.2)) initial (ptr, s)).2

/-- **The loop** makes a turn for each row of the tile. -/
theorem copyLoop_eq {σ : Type} {M : Nat} (hM : 0 < M) (sqrtP initial : Nat)
    (call : Nat → Nat → σ → σ) (ptr : Nat) (s : σ) : copyLoop M sqrtP initial call ptr s =
      (List.range sqrtP).foldl (fun s u => call (initial + u * M) (ptr + u * sqrtP) s) s := by
  have main := CLoop.forStep_rule M sqrtP initial
    (fun i (st : Nat × σ) => (st.1 + sqrtP, call i st.1 st.2)) (ptr, s)
    (fun k st => st = (ptr + k * sqrtP,
      (List.range k).foldl (fun s u => call (initial + u * M) (ptr + u * sqrtP) s) s)) hM
    (by simp)
    (by
      intro k st _ hst
      rw [hst, List.range_succ, List.foldl_append, Nat.succ_mul, ← Nat.add_assoc]
      rfl)
  unfold copyLoop
  rw [main]

/-- The gathered tile is copied row by row. -/
theorem gatherTile_eq {M : Nat} (hM : 0 < M) (sqrtP initial : Nat) (src mem : Nat → R)
    (dest : Nat) : gatherTile M sqrtP initial src mem dest =
      RowCopies.run src mem (RowCopies.block sqrtP sqrtP initial M dest sqrtP) := by
  have hloop := copyLoop_eq hM sqrtP initial
    (fun i ptr (m : Nat → R) => copyN (offset src i) sqrtP m ptr) dest mem
  unfold RowCopies.run RowCopies.block
  rw [List.foldl_map]
  exact hloop

/-- And so is the scattered one. -/
theorem scatterTile_eq {M : Nat} (hM : 0 < M) (sqrtP initial : Nat) (mem : Nat → R)
    (origin : Nat) (dst : Nat → R) : scatterTile M sqrtP initial mem origin dst =
      RowCopies.run mem dst (RowCopies.block sqrtP sqrtP origin sqrtP initial M) := by
  have hloop := copyLoop_eq hM sqrtP initial
    (fun i ptr (m : Nat → R) => copyN (offset mem ptr) sqrtP m i) origin dst
  unfold RowCopies.run RowCopies.block
  rw [List.foldl_map]
  exact hloop

/-- The gathered tile is the `sqrtP` rows of the matrix, one after another; the
rest of the memory is untouched. -/
theorem gatherTile_apply {M sqrtP initial dest : Nat} {src mem : Nat → R} (hM : 0 < M) (x : Nat) :
    gatherTile M sqrtP initial src mem dest x =
      if dest ≤ x ∧ x < dest + sqrtP * sqrtP then
        src (initial + (x - dest) / sqrtP * M + (x - dest) % sqrtP)
      else mem x := by
  rw [gatherTile_eq hM]
  by_cases hx : dest ≤ x ∧ x < dest + sqrtP * sqrtP
  · obtain ⟨k, rfl⟩ := Nat.exists_eq_add_of_le hx.1
    obtain ⟨u, hu, v, hv, rfl⟩ := RowMajor.exists_eq (show k < sqrtP * sqrtP by omega)
    obtain ⟨hdiv, hmod⟩ := RowMajor.div_mod (u := u) hv
    rw [if_pos hx, Nat.add_sub_cancel_left, hdiv, hmod, ← Nat.add_assoc]
    exact RowCopies.run_block le_rfl hu hv
  · rw [if_neg hx]
    apply RowCopies.run_block_off
    rintro u v hu hv rfl
    have hin := RowMajor.lt hu hv
    exact hx ⟨by omega, by omega⟩

/-- What the scatter loop leaves behind: the tile's entries at their places, and
everything else as it was. -/
theorem scatterTile_spec {M sqrtP : Nat} (initial origin : Nat) (mem dst : Nat → R) (hM : 0 < M)
    (hp : sqrtP ≤ M) :
    (∀ u v, u < sqrtP → v < sqrtP →
      scatterTile M sqrtP initial mem origin dst (initial + u * M + v) =
        mem (origin + u * sqrtP + v)) ∧
    (∀ z, (∀ u v, u < sqrtP → v < sqrtP → z ≠ initial + u * M + v) →
      scatterTile M sqrtP initial mem origin dst z = dst z) := by
  rw [scatterTile_eq hM]
  constructor
  · intro u v hu hv
    exact RowCopies.run_block hp hu hv
  · intro z hz
    exact RowCopies.run_block_off hz

/-! ## `DGEMM` -/

/-- The library's `cblas_dgemm(CblasRowMajor, CblasNoTrans, CblasNoTrans, ...)`:
the contents of `C` after the call. -/
structure Blas (R : Type) [CommRing R] where
  dgemm : (i j k : Nat) → (alpha : R) → (aPtr : Nat → R) → (aSize : Nat) →
    (bPtr : Nat → R) → (bSize : Nat) → (beta : R) → (cPtr : Nat → R) → (cSize : Nat) → Nat → R
  dgemm_entry : ∀ {i j k alpha aPtr aSize bPtr bSize beta cPtr cSize x y},
    k ≤ aSize → j ≤ bSize → j ≤ cSize → x < i → y < j →
    dgemm i j k alpha aPtr aSize bPtr bSize beta cPtr cSize (x * cSize + y) =
      alpha * (∑ l ∈ Finset.range k, aPtr (x * aSize + l) * bPtr (l * bSize + y)) +
        beta * cPtr (x * cSize + y)
  dgemm_frame : ∀ {i j k alpha aPtr aSize bPtr bSize beta cPtr cSize z},
    (∀ x y, x < i → y < j → z ≠ x * cSize + y) →
    dgemm i j k alpha aPtr aSize bPtr bSize beta cPtr cSize z = cPtr z

/-- The documented meaning, as a program. -/
def Blas.reference (R : Type) [CommRing R] : Blas R where
  dgemm i j k alpha aPtr aSize bPtr bSize beta cPtr cSize := fun z =>
    if z / cSize < i ∧ z % cSize < j then
      alpha * (∑ l ∈ Finset.range k, aPtr (z / cSize * aSize + l) * bPtr (l * bSize + z % cSize)) +
        beta * cPtr z
    else cPtr z
  dgemm_entry := by
    intro i j k alpha aPtr aSize bPtr bSize beta cPtr cSize x y _ _ hj hx hy
    obtain ⟨hdiv, hmod⟩ := RowMajor.div_mod (u := x) (show y < cSize by omega)
    simp only [hdiv, hmod, hx, hy, and_self, if_true]
  dgemm_frame := by
    intro i j k alpha aPtr aSize bPtr bSize beta cPtr cSize z hz
    refine if_neg fun hc => hz (z / cSize) (z % cSize) hc.1 hc.2 ?_
    rw [Nat.mul_comm, Nat.div_add_mod]

/-- An entry of the product of two row-major `s` by `s` matrices. -/
def mulEntry [CommRing R] (s : Nat) (a b : Nat → R) (row col : Nat) : R :=
  ∑ k ∈ Finset.range s, a (row * s + k) * b (k * s + col)

end Darts
