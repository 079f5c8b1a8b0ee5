import Darts.Cannon.Index
import Darts.Lib.RowCopies

/-!
# Scatter and gather are inverse

What the loops of `cannonCodCopyA`, `cannonCodCopyB` and `cannonCodCopyC` copy, call by
call. They are one loop (`copyLoop`), with a linear index into the matrix and a pointer
into the tile that goes along with it: from the start of tile `i` it makes `sqrtP` turns,
one for each row (`copyLoop_eq`), so that the calls copy a block, row by row. The blocks
of all tiles are the matrix (`cells_tiles`), and what was gathered can be scattered again,
in any order (`tilesCopied`).

The two applications have the same loops. The index goes up to the last row of the tile
and one row further, which is less than the size of the matrix and one row of it
(`loop_bound`). It is an `int`, as `M * N` is one where the matrix is allocated (`loop_int`).
-/

namespace Darts.Cannon

open RowCopies Stores

variable {n p : Nat}

/-! ## The calls -/

/-- The calls of `cannonCodCopyA::fire` and `cannonCodCopyB::fire`. -/
def gatherCalls (M sqrtP initial dest : Nat) : List Copy :=
  copyLoop M sqrtP initial
    (fun i ptr cs => cs ++ [{ origin := i, count := sqrtP, dest := ptr }]) dest []

/-- Those of `cannonCodCopyC::fire`. -/
def scatterCalls (M sqrtP initial origin : Nat) : List Copy :=
  copyLoop M sqrtP initial
    (fun i ptr cs => cs ++ [{ origin := ptr, count := sqrtP, dest := i }]) origin []

theorem foldl_concat {α : Type} (f : Nat → α) (l : List Nat) (acc : List α) :
    l.foldl (fun cs u => cs ++ [f u]) acc = acc ++ l.map f := by
  induction l generalizing acc with
  | nil => exact (List.append_nil acc).symm
  | cons u l ih =>
    rw [List.foldl_cons, ih, List.append_assoc]
    rfl

theorem gatherCalls_eq {M : Nat} (hM : 0 < M) (sqrtP initial dest : Nat) :
    gatherCalls M sqrtP initial dest = block sqrtP sqrtP initial M dest sqrtP := by
  unfold gatherCalls
  rw [copyLoop_eq hM, foldl_concat]
  rfl

theorem scatterCalls_eq {M : Nat} (hM : 0 < M) (sqrtP initial origin : Nat) :
    scatterCalls M sqrtP initial origin = block sqrtP sqrtP origin sqrtP initial M := by
  unfold scatterCalls
  rw [copyLoop_eq hM, foldl_concat]
  rfl

variable {R : Type}

/-- What the loop leaves in the tile is what the calls leave there. -/
theorem gatherTile_eq_run {M : Nat} (hM : 0 < M) (sqrtP initial : Nat) (src mem : Nat → R)
    (dest : Nat) :
    gatherTile M sqrtP initial src mem dest = run src mem (gatherCalls M sqrtP initial dest) := by
  rw [gatherCalls_eq hM]
  exact gatherTile_eq hM sqrtP initial src mem dest

theorem scatterTile_eq_run {M : Nat} (hM : 0 < M) (sqrtP initial : Nat) (mem : Nat → R)
    (origin : Nat) (dst : Nat → R) :
    scatterTile M sqrtP initial mem origin dst =
      run mem dst (scatterCalls M sqrtP initial origin) := by
  rw [scatterCalls_eq hM]
  exact scatterTile_eq hM sqrtP initial mem origin dst

/-! ## All tiles -/

/-- The indices of tile `i` in the matrix. -/
def tileCells (n p i : Nat) : List Nat := cells p p (initialIndex n (n * p) p i) (n * p)

/-- No index that the loop computes is larger than the matrix and a row of it. -/
theorem loop_bound (i : Tile n) : initialIndex n (n * p) p i + p * (n * p) ≤
    n * p * (n * p) + n * p - p := by
  have hrow : (theJ n i + 1) * (n * p * p) ≤ n * (n * p * p) := Nat.mul_le_mul_right _ (theJ_lt i)
  have hcol : (theI n i + 1) * p ≤ n * p := Nat.mul_le_mul_right p (theI_lt i)
  unfold theJ at hrow
  unfold theI at hcol
  unfold initialIndex
  rw [Nat.add_mul, Nat.one_mul] at hrow hcol
  have h1 : (i : Nat) / n * (n * p) * p = (i : Nat) / n * (n * p * p) := Nat.mul_assoc _ _ _
  have h2 : p * (n * p) = n * p * p := Nat.mul_comm _ _
  have h3 : n * p * (n * p) = n * (n * p * p) := by
    rw [Nat.mul_assoc n p, Nat.mul_comm p]
  omega

/-- So they are an `int` whenever the size of the matrix is one. -/
theorem loop_int (i : Tile n) (hsize : n * p * (n * p) ≤ 2147483647) :
    initialIndex n (n * p) p i + p * (n * p) ≤ 2147483647 := by
  have hbound := loop_bound (p := p) i
  have hside : n * p ≤ 46340 := by
    by_contra hlt
    have hsq : 46341 * 46341 ≤ n * p * (n * p) := Nat.mul_le_mul (by omega) (by omega)
    omega
  have hsq : n * p * (n * p) ≤ 46340 * (n * p) := Nat.mul_le_mul_right _ hside
  omega

/-- The indices of all tiles are those of the matrix, each of them once. -/
theorem cells_tiles (n p : Nat) :
    ((List.range (n * n)).flatMap (tileCells n p)).Perm (List.range (n * p * (n * p))) := by
  have hwide : ∀ i < n * n, p ≤ n * p := fun i hi =>
    Nat.le_mul_of_pos_left p (side_pos ⟨i, hi⟩)
  refine (List.perm_ext_iff_of_nodup ?_ List.nodup_range).mpr fun x => ?_
  · refine List.nodup_flatMap.mpr ⟨fun i hi => nodup_cells (hwide i (List.mem_range.mp hi)), ?_⟩
    refine List.Nodup.pairwise_of_forall_ne List.nodup_range fun i hi j hj hne => ?_
    -- an element in two tiles is the same one
    refine List.disjoint_left.mpr fun x hx hx' => hne ?_
    obtain ⟨u, hu, v, hv, rfl⟩ := mem_cells.mp hx
    obtain ⟨u', hu', v', hv', heq⟩ := mem_cells.mp hx'
    have hsame : entry n p ⟨i, List.mem_range.mp hi⟩ u v = entry n p ⟨j, List.mem_range.mp hj⟩ u' v' :=
      heq
    exact congrArg Fin.val (entry_inj hu hv hu' hv' hsame).1
  · simp only [List.mem_flatMap, List.mem_range]
    constructor
    · intro h
      obtain ⟨i, hi, hx⟩ := h
      obtain ⟨u, hu, v, hv, rfl⟩ := mem_cells.mp hx
      have heq := entry_eq (p := p) ⟨i, hi⟩ u v
      unfold entry at heq
      rw [heq]
      exact RowMajor.lt (RowMajor.lt (theJ_lt ⟨i, hi⟩) hu) (RowMajor.lt (theI_lt ⟨i, hi⟩) hv)
    · intro h
      have hpos : 0 < n * p := Nat.pos_of_mul_pos_left (Nat.zero_lt_of_lt h)
      obtain ⟨i, u, v, hu, hv, hrow, hcol⟩ :=
        exists_entry (Nat.div_lt_of_lt_mul h) (Nat.mod_lt x hpos)
      refine ⟨i, i.isLt, mem_cells.mpr ⟨u, hu, v, hv, ?_⟩⟩
      have heq := entry_eq (p := p) i u v
      rw [← hrow, ← hcol, Nat.mul_comm, Nat.div_add_mod] at heq
      exact heq.symm

theorem reads_gatherCalls (hM : 0 < n * p) (i dest : Nat) :
    reads (gatherCalls (n * p) p (initialIndex n (n * p) p i) dest) = tileCells n p i := by
  rw [gatherCalls_eq hM, reads_block]
  rfl

theorem writes_scatterCalls (hM : 0 < n * p) (i origin : Nat) :
    writes (scatterCalls (n * p) p (initialIndex n (n * p) p i) origin) = tileCells n p i := by
  rw [scatterCalls_eq hM, writes_block]
  rfl

/-- Where an element of the tile in row `r` and column `c` comes from. -/
theorem initialIndex_rowcol {r c : Nat} (hr : r < n) (hc : c < n) (u v : Nat) :
    initialIndex n (n * p) p (r * n + c) + u * (n * p) + v =
      (r * p + u) * (n * p) + (c * p + v) := by
  have heq := entry_eq (p := p) ⟨r * n + c, RowMajor.lt hr hc⟩ u v
  obtain ⟨hdiv, hmod⟩ := RowMajor.div_mod (u := r) hc
  unfold entry theJ theI at heq
  simp only [hdiv, hmod] at heq
  exact heq

/-- The tiles that were gathered, scattered in some order. -/
theorem scatter_gathered (hM : 0 < n * p) {src dst : Nat → R} {filled tiles : Nat → Nat → R}
    {dest origin : Nat} {order : List Nat} (horder : order.Perm (List.range (n * n)))
    (hfilled : ∀ i < n * n, ∀ x < p * p, tiles i (origin + x) =
      gatherTile (n * p) p (initialIndex n (n * p) p i) src (filled i) dest (dest + x)) (x : Nat) :
    order.foldl (fun m i =>
      scatterTile (n * p) p (initialIndex n (n * p) p i) (tiles i) origin m) dst x =
        if x < n * p * (n * p) then src x else dst x := by
  have hp : 0 < p := Nat.pos_of_mul_pos_left hM
  -- all stores of all tiles, one after the other
  have hreplay : order.foldl (fun m i =>
      scatterTile (n * p) p (initialIndex n (n * p) p i) (tiles i) origin m) dst =
        replay dst (order.flatMap fun i =>
          stores (tiles i) (scatterCalls (n * p) p (initialIndex n (n * p) p i) origin)) := by
    rw [← foldl_replay]
    congr 1
    funext m i
    rw [scatterTile_eq_run hM, run_eq_replay]
  have htargets : targets (order.flatMap fun i =>
      stores (tiles i) (scatterCalls (n * p) p (initialIndex n (n * p) p i) origin)) =
        order.flatMap (tileCells n p) := by
    rw [targets_flatMap]
    refine List.flatMap_congr fun i _ => ?_
    rw [targets_stores, writes_scatterCalls hM]
  have hperm := (horder.flatMap_right (tileCells n p)).trans (cells_tiles n p)
  rw [hreplay]
  by_cases hx : x < n * p * (n * p)
  · rw [if_pos hx]
    obtain ⟨i, hi, hcell⟩ := List.mem_flatMap.mp (hperm.mem_iff.mpr (List.mem_range.mpr hx))
    obtain ⟨u, hu, v, hv, rfl⟩ := mem_cells.mp hcell
    refine replay_of_mem dst ?_ (List.mem_flatMap.mpr ⟨i, hi, ?_⟩)
    · rw [htargets]
      exact hperm.nodup_iff.mpr List.nodup_range
    · -- what the tile holds there is what was gathered
      have hgathered : tiles i (origin + u * p + v) =
          src (initialIndex n (n * p) p i + u * (n * p) + v) := by
        have hlt := List.mem_range.mp (horder.mem_iff.mp hi)
        rw [Nat.add_assoc, hfilled i hlt _ (RowMajor.lt hu hv), gatherTile_eq_run hM,
          gatherCalls_eq hM, ← Nat.add_assoc]
        exact run_block le_rfl hu hv
      rw [scatterCalls_eq hM, ← hgathered]
      unfold stores block
      rw [List.flatMap_map]
      refine List.mem_flatMap.mpr ⟨u, List.mem_range.mpr hu, ?_⟩
      exact List.mem_map.mpr ⟨v, List.mem_range.mpr hv, rfl⟩
  · rw [if_neg hx]
    refine replay_of_notMem dst fun hmem => hx ?_
    rw [htargets] at hmem
    exact List.mem_range.mp (hperm.mem_iff.mp hmem)

/-- What the copies of all tiles of an `n * p` by `n * p` matrix do. -/
structure TilesCopied (R : Type) (n p : Nat) : Prop where
  /-- The loops make these calls, and they make rows of a tile: `p` of them, of `p` elements. -/
  gathers : ∀ (i dest : Nat) (src mem : Nat → R),
    gatherTile (n * p) p (initialIndex n (n * p) p i) src mem dest =
      run src mem (gatherCalls (n * p) p (initialIndex n (n * p) p i) dest)
  rows : ∀ i dest : Nat, gatherCalls (n * p) p (initialIndex n (n * p) p i) dest =
    (List.range p).map fun u =>
      { origin := initialIndex n (n * p) p i + u * (n * p), count := p, dest := dest + u * p }
  /-- The tiles together read each element of the matrix once, and nothing else. -/
  read : ∀ dest : Nat, ((List.range (n * n)).flatMap fun i =>
    reads (gatherCalls (n * p) p (initialIndex n (n * p) p i) dest)).Perm
      (List.range (n * p * (n * p)))
  /-- What is written is in the tile, at the place of the element. -/
  inside : ∀ i dest : Nat, ∀ x ∈ writes (gatherCalls (n * p) p (initialIndex n (n * p) p i) dest),
    dest ≤ x ∧ x < dest + p * p
  position : ∀ (src mem : Nat → R) (dest r c u v : Nat), r < n → c < n → u < p → v < p →
    gatherTile (n * p) p (initialIndex n (n * p) p (r * n + c)) src mem dest (dest + (u * p + v)) =
      src ((r * p + u) * (n * p) + (c * p + v))
  /-- In any order, the tiles write each element of the matrix once, and nothing else. -/
  scatters : ∀ (i origin : Nat) (tile dst : Nat → R),
    scatterTile (n * p) p (initialIndex n (n * p) p i) tile origin dst =
      run tile dst (scatterCalls (n * p) p (initialIndex n (n * p) p i) origin)
  written : ∀ (origin : Nat) (order : List Nat), order.Perm (List.range (n * n)) →
    (order.flatMap fun i =>
      writes (scatterCalls (n * p) p (initialIndex n (n * p) p i) origin)).Perm
        (List.range (n * p * (n * p)))
  /-- When they hold what was gathered, it is the matrix again. -/
  restored : ∀ (src dst : Nat → R) (filled tiles : Nat → Nat → R) (dest origin : Nat)
    (order : List Nat), order.Perm (List.range (n * n)) →
    (∀ i < n * n, ∀ x < p * p, tiles i (origin + x) =
      gatherTile (n * p) p (initialIndex n (n * p) p i) src (filled i) dest (dest + x)) →
    ∀ x, order.foldl (fun m i =>
      scatterTile (n * p) p (initialIndex n (n * p) p i) (tiles i) origin m) dst x =
        if x < n * p * (n * p) then src x else dst x

/-- **Scatter and gather are inverse**, and stay in bounds. -/
theorem tilesCopied (R : Type) (hn : 1 ≤ n) (hp : 1 ≤ p) : TilesCopied R n p := by
  have hM : 0 < n * p := Nat.mul_pos hn hp
  exact
    { gathers := fun i dest src mem => gatherTile_eq_run hM p _ src mem dest
      rows := fun i dest => gatherCalls_eq hM p _ dest
      read := fun dest => by
        simp only [reads_gatherCalls hM]
        exact cells_tiles n p
      inside := fun i dest x hx => by
        rw [gatherCalls_eq hM, writes_block] at hx
        obtain ⟨u, hu, v, hv, rfl⟩ := mem_cells.mp hx
        have hlt := RowMajor.lt hu hv
        omega
      position := fun src mem dest r c u v hr hc hu hv => by
        rw [gatherTile_eq_run hM, gatherCalls_eq hM, ← Nat.add_assoc, run_block le_rfl hu hv,
          initialIndex_rowcol hr hc]
      scatters := fun i origin tile dst => scatterTile_eq_run hM p _ tile origin dst
      written := fun origin order horder => by
        simp only [writes_scatterCalls hM]
        exact (horder.flatMap_right _).trans (cells_tiles n p)
      restored := fun src dst filled tiles dest origin order horder hfilled x =>
        scatter_gathered hM horder hfilled x }

/-- Four tiles of nine elements. -/
theorem tilesCopied_two_three : TilesCopied Nat 2 3 := tilesCopied Nat (by decide) (by decide)

end Darts.Cannon
