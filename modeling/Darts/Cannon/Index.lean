import Mathlib.Logic.Equiv.Fin.Basic
import Darts.Lib.Torus
import Darts.Matrix.Mat

/-!
# Tile indices of `cannonTP`

The constructor of `cannonTP` (the same in `apps/Cannon/cannonTP.h` and in
`apps/Cannon-dfswp/cannonTP.h`) precomputes four index maps per tile. This file
translates them and identifies them with the moves of `Torus`: with tile `i` at
row `i / n` and column `i % n`, `destRow`/`destCol` are the skew and
`nextRow`/`nextCol` one step right and one step down. All four are therefore
permutations of the tiles, the row maps keep the row and the column maps the
column.

The second half says where a tile lies inside an `n*p` by `n*p` matrix, and
splits a matrix product into products of tiles.
-/

namespace Darts.Cannon

/-- `numTiles = sqrtNumTiles * sqrtNumTiles` tiles, numbered row by row. -/
abbrev Tile (n : Nat) : Type := Fin (n * n)

/-! ## The constructor's arithmetic -/

/-- `int theI = i % sqrtNumTiles;` -/
def theI (n i : Nat) : Nat := i % n

/-- `int theJ = i / sqrtNumTiles;` -/
def theJ (n i : Nat) : Nat := i / n

/-- `(theI - theJ + sqrtNumTiles) % sqrtNumTiles`, with the addition first so
that no intermediate value is negative. -/
def destI (n i : Nat) : Nat := (theI n i + n - theJ n i) % n

/-- `(theJ - theI + sqrtNumTiles) % sqrtNumTiles`. -/
def destJ (n i : Nat) : Nat := (theJ n i + n - theI n i) % n

/-- `(theI+1) % sqrtNumTiles`. -/
def nextI (n i : Nat) : Nat := (theI n i + 1) % n

/-- `(theJ+1) % sqrtNumTiles`. -/
def nextJ (n i : Nat) : Nat := (theJ n i + 1) % n

variable {n : Nat}

theorem side_pos (i : Tile n) : 0 < n :=
  Nat.pos_of_mul_pos_left (Nat.lt_of_le_of_lt (Nat.zero_le _) i.isLt)

theorem theJ_lt (i : Tile n) : theJ n i < n := Nat.div_lt_of_lt_mul i.isLt

theorem theI_lt (i : Tile n) : theI n i < n := Nat.mod_lt _ (side_pos i)

/-- `int nextRow = theJ*sqrtNumTiles + nextI;` -/
def nextRow (i : Tile n) : Tile n :=
  ⟨theJ n i * n + nextI n i, RowMajor.lt (theJ_lt i) (Nat.mod_lt _ (side_pos i))⟩

/-- `int nextCol = nextJ*sqrtNumTiles + theI;` -/
def nextCol (i : Tile n) : Tile n :=
  ⟨nextJ n i * n + theI n i, RowMajor.lt (Nat.mod_lt _ (side_pos i)) (theI_lt i)⟩

/-- `int destRow = theJ*sqrtNumTiles + destI;` -/
def destRow (i : Tile n) : Tile n :=
  ⟨theJ n i * n + destI n i, RowMajor.lt (theJ_lt i) (Nat.mod_lt _ (side_pos i))⟩

/-- `int destCol = destJ*sqrtNumTiles + theI;` -/
def destCol (i : Tile n) : Tile n :=
  ⟨destJ n i * n + theI n i, RowMajor.lt (Nat.mod_lt _ (side_pos i)) (theI_lt i)⟩

/-! ## Tiles as points of the torus -/

/-- Row and column of a tile. -/
def pos : Tile n ≃ Fin n × Fin n := finProdFinEquiv.symm

@[simp] theorem pos_row (i : Tile n) : ((pos i).1 : Nat) = theJ n i := rfl

@[simp] theorem pos_col (i : Tile n) : ((pos i).2 : Nat) = theI n i := rfl

/-- The tile at row `r` and column `c` has number `r * n + c`. -/
theorem pos_symm_val (t : Fin n × Fin n) : (pos.symm t : Nat) = t.1 * n + t.2 := by
  show (t.2 : Nat) + n * t.1 = t.1 * n + t.2
  rw [Nat.add_comm, Nat.mul_comm]

/-- A tile number written as `r * n + c` has row `r` and column `c`. -/
theorem pos_eq {i : Tile n} {t : Fin n × Fin n} (h : (i : Nat) = t.1 * n + t.2) : pos i = t := by
  have : i = pos.symm t := Fin.ext (h.trans (pos_symm_val t).symm)
  rw [this, Equiv.apply_symm_apply]

@[simp] theorem theJ_symm (t : Fin n × Fin n) : theJ n (pos.symm t) = t.1 := by
  rw [← pos_row, Equiv.apply_symm_apply]

@[simp] theorem theI_symm (t : Fin n × Fin n) : theI n (pos.symm t) = t.2 := by
  rw [← pos_col, Equiv.apply_symm_apply]

/-- `(a + n - b) % n` is subtraction in `Fin n`. -/
private theorem sub_val (a b : Fin n) : (a + n - b : Nat) % n = ((a - b : Fin n) : Nat) := by
  rw [Fin.sub_def]
  have := b.isLt
  congr 1
  omega

/-- A torus move as a permutation of tile numbers. -/
def movePerm (e : Fin n × Fin n ≃ Fin n × Fin n) : Equiv.Perm (Tile n) :=
  (pos.trans e).trans pos.symm

theorem movePerm_eq {f : Tile n → Tile n} {e : Fin n × Fin n ≃ Fin n × Fin n}
    (h : ∀ i, pos (f i) = e (pos i)) (i : Tile n) : movePerm e i = f i := by
  show pos.symm (e (pos i)) = f i
  rw [← h i, Equiv.symm_apply_apply]

section Moves

variable [NeZero n]

theorem pos_nextRow (i : Tile n) : pos (nextRow i) = Torus.right 1 (pos i) := by
  apply pos_eq
  simp [nextRow, nextI, Fin.val_add]

theorem pos_nextCol (i : Tile n) : pos (nextCol i) = Torus.down 1 (pos i) := by
  apply pos_eq
  simp [nextCol, nextJ, Fin.val_add]

theorem pos_destRow (i : Tile n) : pos (destRow i) = Torus.skewRow (pos i) := by
  apply pos_eq
  show theJ n i * n + destI n i = theJ n i * n + ((pos i).2 - (pos i).1 : Fin n)
  rw [← sub_val]
  rfl

theorem pos_destCol (i : Tile n) : pos (destCol i) = Torus.skewCol (pos i) := by
  apply pos_eq
  show destJ n i * n + theI n i = ((pos i).1 - (pos i).2 : Fin n) * n + theI n i
  rw [← sub_val]
  rfl

/-- `nextRow` permutes the tiles. -/
def nextRowPerm (n : Nat) [NeZero n] : Equiv.Perm (Tile n) := movePerm (Torus.right 1)

/-- `nextCol` permutes the tiles. -/
def nextColPerm (n : Nat) [NeZero n] : Equiv.Perm (Tile n) := movePerm (Torus.down 1)

/-- `destRow` permutes the tiles. -/
def destRowPerm (n : Nat) [NeZero n] : Equiv.Perm (Tile n) := movePerm Torus.skewRow

/-- `destCol` permutes the tiles. -/
def destColPerm (n : Nat) [NeZero n] : Equiv.Perm (Tile n) := movePerm Torus.skewCol

theorem nextRowPerm_apply (i : Tile n) : nextRowPerm n i = nextRow i := movePerm_eq pos_nextRow i
theorem nextColPerm_apply (i : Tile n) : nextColPerm n i = nextCol i := movePerm_eq pos_nextCol i
theorem destRowPerm_apply (i : Tile n) : destRowPerm n i = destRow i := movePerm_eq pos_destRow i
theorem destColPerm_apply (i : Tile n) : destColPerm n i = destCol i := movePerm_eq pos_destCol i

/-! ## What a tile holds after `k` steps -/

/-- The block of `A` at tile `t` after `k` steps. -/
def heldA (t : Tile n) (k : Nat) : Tile n :=
  pos.symm ((pos t).1, Torus.held (pos t) (Fin.ofNat n k))

/-- The block of `B` at tile `t` after `k` steps. -/
def heldB (t : Tile n) (k : Nat) : Tile n :=
  pos.symm (Torus.held (pos t) (Fin.ofNat n k), (pos t).2)

theorem heldA_destRow (i : Tile n) : heldA (destRow i) 0 = i := by
  rw [heldA, pos_destRow, Fin.ofNat_zero, Torus.held_skewRow]
  exact pos.symm_apply_apply i

theorem heldB_destCol (i : Tile n) : heldB (destCol i) 0 = i := by
  rw [heldB, pos_destCol, Fin.ofNat_zero, Torus.held_skewCol]
  exact pos.symm_apply_apply i

private theorem ofNat_succ (k : Nat) : Fin.ofNat n (k + 1) = Fin.ofNat n k + 1 := by
  apply Fin.ext
  simp [Fin.val_add]

theorem heldA_nextRow (t : Tile n) (k : Nat) : heldA (nextRow t) (k + 1) = heldA t k := by
  rw [heldA, pos_nextRow, ofNat_succ, Torus.held_right, heldA]
  rfl

theorem heldB_nextCol (t : Tile n) (k : Nat) : heldB (nextCol t) (k + 1) = heldB t k := by
  rw [heldB, pos_nextCol, ofNat_succ, Torus.held_down, heldB]
  rfl

/-- After `n` steps everything is back. -/
theorem heldA_side (t : Tile n) : heldA t n = heldA t 0 := by
  rw [heldA, heldA, Fin.ofNat_self, Fin.ofNat_zero]

theorem heldB_side (t : Tile n) : heldB t n = heldB t 0 := by
  rw [heldB, heldB, Fin.ofNat_self, Fin.ofNat_zero]

end Moves

/-! ## Tiles of a row-major matrix -/

section Blocks

variable {p : Nat}

/-- The place of entry `(u, v)` of tile `i` in an `n*p` by `n*p` matrix. -/
def entry (n p : Nat) (i : Tile n) (u v : Nat) : Nat :=
  initialIndex n (n * p) p i + u * (n * p) + v

theorem entry_eq (i : Tile n) (u v : Nat) :
    entry n p i u v = (theJ n i * p + u) * (n * p) + (theI n i * p + v) := by
  simp only [entry, initialIndex, theJ, theI, Nat.add_mul]
  rw [Nat.mul_right_comm]
  omega

/-- Entries of tiles occupy different places. -/
theorem entry_inj {i i' : Tile n} {u v u' v' : Nat} (hu : u < p) (hv : v < p) (hu' : u' < p)
    (hv' : v' < p) (h : entry n p i u v = entry n p i' u' v') : i = i' ∧ u = u' ∧ v = v' := by
  rw [entry_eq, entry_eq] at h
  have hc := RowMajor.lt (theI_lt i) hv
  have hc' := RowMajor.lt (theI_lt i') hv'
  obtain ⟨hrow, hcol⟩ := RowMajor.inj hc hc' h
  obtain ⟨hJ, hu⟩ := RowMajor.inj hu hu' hrow
  obtain ⟨hI, hv⟩ := RowMajor.inj hv hv' hcol
  refine ⟨?_, hu, hv⟩
  apply pos.injective
  exact Prod.ext (Fin.ext hJ) (Fin.ext hI)

/-- Every place of the matrix is the place of an entry of a tile. -/
theorem exists_entry {row col : Nat} (hrow : row < n * p) (hcol : col < n * p) :
    ∃ (i : Tile n) (u v : Nat), u < p ∧ v < p ∧ row = theJ n i * p + u ∧ col = theI n i * p + v := by
  have hp : 0 < p := Nat.pos_of_mul_pos_left (Nat.lt_of_le_of_lt (Nat.zero_le _) hrow)
  have hr : row / p < n := Nat.div_lt_of_lt_mul (by rwa [Nat.mul_comm])
  have hc : col / p < n := Nat.div_lt_of_lt_mul (by rwa [Nat.mul_comm])
  refine ⟨pos.symm (⟨row / p, hr⟩, ⟨col / p, hc⟩), row % p, col % p, Nat.mod_lt _ hp,
    Nat.mod_lt _ hp, ?_, ?_⟩
  · rw [theJ_symm, Nat.mul_comm, Nat.div_add_mod]
  · rw [theI_symm, Nat.mul_comm, Nat.div_add_mod]

/-- A sum over `n * p` indices, `p` at a time. -/
private theorem sum_range_mul {R : Type} [AddCommMonoid R] (n p : Nat) (f : Nat → R) :
    ∑ k ∈ Finset.range (n * p), f k =
      ∑ l ∈ Finset.range n, ∑ w ∈ Finset.range p, f (l * p + w) := by
  induction n with
  | zero => simp
  | succ n ih => rw [Nat.succ_mul, Finset.sum_range_add, ih, Finset.sum_range_succ]

/-- An entry of the product, as a sum over the tiles of its row and column. -/
theorem mulEntry_tile {R : Type} [CommRing R] (a b : Nat → R) (i : Tile n) (u v : Nat) :
    mulEntry (n * p) a b (theJ n i * p + u) (theI n i * p + v) =
      ∑ l : Fin n, ∑ w ∈ Finset.range p,
        a (entry n p (pos.symm ((pos i).1, l)) u w) * b (entry n p (pos.symm (l, (pos i).2)) w v) := by
  rw [mulEntry, sum_range_mul, Fin.sum_univ_eq_sum_range (fun l => ∑ w ∈ Finset.range p,
    a ((theJ n i * p + u) * (n * p) + (l * p + w)) *
      b ((l * p + w) * (n * p) + (theI n i * p + v))) n |>.symm]
  refine Finset.sum_congr rfl fun l _ => Finset.sum_congr rfl fun w _ => ?_
  rw [entry_eq, entry_eq, theJ_symm, theI_symm, theJ_symm, theI_symm]
  rfl

/-- The product of tile `i` after `k` turns: what it holds, turn by turn. -/
def partialSum {R : Type} [CommRing R] [NeZero n] (p : Nat) (a b : Nat → R) (i : Tile n)
    (k u v : Nat) : R :=
  ∑ l ∈ Finset.range k, ∑ w ∈ Finset.range p,
    a (entry n p (heldA i l) u w) * b (entry n p (heldB i l) w v)

/-- The blocks a tile holds in its `n` turns make up its entry of the product. -/
theorem partialSum_side {R : Type} [CommRing R] [NeZero n] (a b : Nat → R) (i : Tile n)
    (u v : Nat) : partialSum p a b i n u v =
      mulEntry (n * p) a b (theJ n i * p + u) (theI n i * p + v) := by
  rw [mulEntry_tile, ← Torus.sum_held_range (pos i)]
  rfl

end Blocks

end Darts.Cannon
