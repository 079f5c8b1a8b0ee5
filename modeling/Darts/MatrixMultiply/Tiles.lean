import Darts.MatrixMultiply.Program

/-!
# Tiles

How the rows and columns are cut, with the remainder in the last piece, what the copies
into and out of a tile move, and what one `tileMult` leaves in `C`. An index of the
storage of `C` is read as a row and a column.
-/

namespace Darts

namespace MatrixMultiply

variable {R : Type}

/-! ## Cutting `0, ..., size - 1` in `cut` pieces -/

/-- The length of piece `i`. -/
def piece (size cut i : Nat) : Nat := if i + 1 = cut then size / cut + size % cut else size / cut

theorem tempISize_eq (args : MmArgs R) (i : Nat) : tempISize args i = piece args.msi args.iCut i := rfl

theorem tempJSize_eq (args : MmArgs R) (j : Nat) : tempJSize args j = piece args.msj args.jCut j := rfl

variable {size cut i j : Nat}

theorem piece_pos (hcut : 1 ≤ cut) (h : cut ≤ size) (i : Nat) : 1 ≤ piece size cut i := by
  have hpos : 0 < size / cut := Nat.div_pos h hcut
  unfold piece
  split <;> omega

/-- Where piece `i` ends: at the start of the next one, or with the range. -/
theorem piece_end (size cut i : Nat) : i * (size / cut) + piece size cut i =
    if i + 1 = cut then size else (i + 1) * (size / cut) := by
  have hsize := Nat.div_add_mod size cut
  unfold piece
  generalize size / cut = t at hsize ⊢
  generalize size % cut = r at hsize ⊢
  have hsucc : (i + 1) * t = i * t + t := Nat.succ_mul i t
  split
  next hlast =>
    rw [hlast] at hsucc
    omega
  next => exact hsucc.symm

theorem piece_end_le (h : i < cut) : i * (size / cut) + piece size cut i ≤ size := by
  rw [piece_end]
  split
  next => exact le_rfl
  next =>
    refine (Nat.mul_le_mul_right _ h).trans ?_
    exact Nat.mul_div_le size cut

/-- Pieces do not overlap. -/
theorem piece_unique (hi : i < cut) (hj : j < cut) {x : Nat}
    (hix : i * (size / cut) ≤ x ∧ x < i * (size / cut) + piece size cut i)
    (hjx : j * (size / cut) ≤ x ∧ x < j * (size / cut) + piece size cut j) : i = j := by
  have hlt : ∀ i j, i < cut → j < cut → i < j →
      i * (size / cut) + piece size cut i ≤ j * (size / cut) := by
    intro i j hi hj hij
    rw [piece_end, if_neg (by omega)]
    exact Nat.mul_le_mul_right _ hij
  rcases lt_trichotomy i j with hij | hij | hij
  · have := hlt i j hi hj hij
    omega
  · exact hij
  · have := hlt j i hj hi hij
    omega

/-- And leave nothing out. -/
theorem exists_piece (hcut : 1 ≤ cut) (h : cut ≤ size) {x : Nat} (hx : x < size) :
    ∃ i < cut, i * (size / cut) ≤ x ∧ x < i * (size / cut) + piece size cut i := by
  have hpos : 0 < size / cut := Nat.div_pos h hcut
  have hmod := Nat.div_add_mod' x (size / cut)
  have hlt := Nat.mod_lt x hpos
  by_cases hlast : x / (size / cut) + 1 < cut
  · refine ⟨x / (size / cut), by omega, by omega, ?_⟩
    unfold piece
    rw [if_neg (by omega)]
    omega
  · refine ⟨cut - 1, by omega, ?_, ?_⟩
    · have hle : cut - 1 ≤ x / (size / cut) := by omega
      have := Nat.mul_le_mul_right (size / cut) hle
      omega
    · rw [piece_end, if_pos (by omega)]
      exact hx

/-! ## The copies -/

/-- Row and column of an index, and the index of a row and a column. -/
theorem index_eq_iff {N k r s : Nat} (hs : s < N) : k = r * N + s ↔ k / N = r ∧ k % N = s := by
  constructor
  · intro h
    rw [h]
    exact RowMajor.div_mod hs
  · intro ⟨hr, hs⟩
    rw [← hr, ← hs]
    exact (Nat.div_add_mod' k N).symm

/-- The copy that an `iloop` takes. -/
theorem subMatrix_ptr [Zero R] (source : Mat R) (x y m : Nat) {n r s : Nat} (hr : r < m) (hs : s < n) :
    (subMatrix source x y m n).ptr (r * n + s) = source.ptr ((r + x) * source.N + y + s) := by
  have main : ∀ i, r < i → subMatrixLoop source x y n i (r * n + s) =
      source.ptr ((r + x) * source.N + y + s) := by
    intro i hri
    induction i with
    | zero => omega
    | succ i ih =>
      unfold subMatrixLoop
      rcases Nat.lt_succ_iff_lt_or_eq.mp hri with hlt | rfl
      · -- an earlier row
        rw [copyN_of_lt (RowMajor.lt hlt hs)]
        exact ih hlt
      · rw [copyN_of_mem hs]
        rfl
  exact main m hr

/-- One row of a copy to `C`. -/
theorem memcpy_row {N r c n : Nat} (hN : c + n ≤ N) (m : Memory R) (src : Nat → Option R) (k : Nat) :
    memcpy m (r * N + c) src n k =
      if k / N = r ∧ c ≤ k % N ∧ k % N < c + n then
        { val := src (k % N - c), writes := (m k).writes + 1 }
      else m k := by
  unfold memcpy
  have hk := Nat.div_add_mod' k N
  by_cases hrow : k / N = r
  · rw [hrow] at hk
    by_cases hcol : c ≤ k % N ∧ k % N < c + n
    · rw [if_pos (by omega), if_pos ⟨hrow, hcol⟩, show k - (r * N + c) = k % N - c by omega]
    · rw [if_neg (by omega), if_neg fun h => hcol h.2]
  · rw [if_neg ?_, if_neg fun h => hrow h.1]
    intro ⟨h1, h2⟩
    have hin : k - r * N < N := by omega
    refine hrow ((index_eq_iff hin).mp ?_).1
    omega

variable {dM dN x y : Nat} {source : Mat (Option R)}

/-- The loop of `copyMatrix`, when its rows end before those of `C`. -/
theorem copyMatrixLoop_apply {dXoff dYoff sXoff sYoff row : Nat} (h : dYoff + row ≤ dN)
    (m : Memory R) (n k : Nat) :
    copyMatrixLoop dN dXoff dYoff source sXoff sYoff row m n k =
      if (dXoff ≤ k / dN ∧ k / dN < dXoff + n) ∧ dYoff ≤ k % dN ∧ k % dN < dYoff + row then
        { val := source.ptr ((k / dN - dXoff + sXoff) * source.N + sYoff + (k % dN - dYoff))
          writes := (m k).writes + 1 }
      else m k := by
  induction n with
  | zero =>
    rw [if_neg (by omega)]
    rfl
  | succ n ih =>
    unfold copyMatrixLoop
    rw [memcpy_row h]
    by_cases hnow : k / dN = n + dXoff
    · -- the row of this turn has not been written before
      rw [if_neg (by omega)] at ih
      rw [ih, hnow]
      by_cases hcol : dYoff ≤ k % dN ∧ k % dN < dYoff + row
      · rw [if_pos ⟨rfl, hcol⟩, if_pos ⟨by omega, hcol⟩]
        simp only [offset, Nat.add_sub_cancel]
      · rw [if_neg fun h => hcol h.2, if_neg fun h => hcol h.2]
    · rw [if_neg fun h => hnow h.1, ih]
      by_cases hold : (dXoff ≤ k / dN ∧ k / dN < dXoff + n) ∧ dYoff ≤ k % dN ∧ k % dN < dYoff + row
      · rw [if_pos hold, if_pos (by omega)]
      · rw [if_neg hold, if_neg (by omega)]

/-- `copyMatrix` of a part that lies inside of `C` at the offsets. -/
theorem copyMatrix_apply (hx : x + source.M ≤ dM) (hy : y + source.N ≤ dN) (hN : 1 ≤ source.N)
    (m : Memory R) (k : Nat) :
    copyMatrix dM dN source x y m k =
      if (x ≤ k / dN ∧ k / dN < x + source.M) ∧ y ≤ k % dN ∧ k % dN < y + source.N then
        { val := source.ptr ((k / dN - x) * source.N + (k % dN - y)), writes := (m k).writes + 1 }
      else m k := by
  have hmod : k % dN < dN := Nat.mod_lt k (by omega)
  unfold copyMatrix
  by_cases hall : dN = source.N ∧ dM = source.M
  · -- all of `C` at once
    obtain ⟨hdN, hdM⟩ := hall
    obtain rfl : x = 0 := by omega
    obtain rfl : y = 0 := by omega
    have hlt : 0 + dN * dM > k ↔ k / dN < dM := by
      rw [Nat.zero_add, Nat.div_lt_iff_lt_mul (by omega), Nat.mul_comm]
    have hk := Nat.div_add_mod' k dN
    rw [if_pos ⟨hdN, hdM⟩]
    unfold memcpy
    rw [← hdN, ← hdM]
    by_cases hin : k / dN < dM
    · have hin' : 0 ≤ k / dN ∧ k / dN < 0 + dM := ⟨Nat.zero_le _, by omega⟩
      rw [if_pos ⟨Nat.zero_le _, hlt.mpr hin⟩, if_pos ⟨hin', by omega⟩, Nat.sub_zero, Nat.sub_zero,
        Nat.sub_zero, hk]
    · rw [if_neg fun h => hin (hlt.mp h.2), if_neg fun h => hin (by omega)]
  · have hcol : (if dM < source.M then dM else source.M) = source.M := if_neg (by omega)
    have hrow : (if dN < source.N then dN else source.N) = source.N := if_neg (by omega)
    have hdY : (if dN > source.N then y else 0) = y := by split <;> omega
    have hsY : (if dN > source.N then 0 else if source.N > dN then y else 0) = 0 := by
      split
      next => rfl
      next => exact if_neg (by omega)
    have hdX : (if dM > source.M then x else 0) = x := by split <;> omega
    have hsX : (if dM > source.M then 0 else if dM < source.M then x else 0) = 0 := by
      split
      next => rfl
      next => exact if_neg (by omega)
    rw [if_neg hall, hcol, hrow, hdY, hsY, hdX, hsX, copyMatrixLoop_apply hy]
    simp only [Nat.add_zero]

/-- Wherever the offsets are, the loop of `copyMatrix` leaves an element as it was or gives it an
element of the source. -/
theorem copyMatrixLoop_cases (dN dXoff dYoff sXoff sYoff row : Nat) (m : Memory R) (n k : Nat) :
    copyMatrixLoop dN dXoff dYoff source sXoff sYoff row m n k = m k ∨
      ∃ r < n, ∃ s < row, k = (r + dXoff) * dN + dYoff + s ∧
        (copyMatrixLoop dN dXoff dYoff source sXoff sYoff row m n k).val =
          source.ptr ((r + sXoff) * source.N + sYoff + s) := by
  induction n with
  | zero => exact Or.inl rfl
  | succ n ih =>
    unfold copyMatrixLoop
    by_cases hrow : (n + dXoff) * dN + dYoff ≤ k ∧ k < (n + dXoff) * dN + dYoff + row
    · refine Or.inr ⟨n, Nat.lt_succ_self n, k - ((n + dXoff) * dN + dYoff), by omega, by omega, ?_⟩
      unfold memcpy
      rw [if_pos hrow]
      rfl
    · have hkeep : memcpy (copyMatrixLoop dN dXoff dYoff source sXoff sYoff row m n)
          ((n + dXoff) * dN + dYoff) (offset source.ptr ((n + sXoff) * source.N + sYoff)) row k =
          copyMatrixLoop dN dXoff dYoff source sXoff sYoff row m n k := if_neg hrow
      rw [hkeep]
      refine ih.imp_right fun ⟨r, hr, s, hs, hk⟩ => ⟨r, Nat.lt_succ_of_lt hr, s, hs, hk⟩

/-- A source without values. -/
theorem copyMatrix_none (hnone : ∀ z, source.ptr z = none) (dM dN x y : Nat) (m : Memory R) (k : Nat) :
    copyMatrix dM dN source x y m k = m k ∨ (copyMatrix dM dN source x y m k).val = none := by
  unfold copyMatrix
  split
  next =>
    unfold memcpy
    split
    next => exact Or.inr (hnone _)
    next => exact Or.inl rfl
  next =>
    refine (copyMatrixLoop_cases ..).imp_right fun ⟨r, _, s, _, _, hval⟩ => ?_
    rw [hval]
    exact hnone _

/-- A source that is not larger than `C`, at offsets that `copyMatrix` only looks at when it is
smaller. -/
theorem copyMatrix_cases (hM : source.M ≤ dM) (hN : source.N ≤ dN) (x y : Nat) (m : Memory R) (k : Nat) :
    copyMatrix dM dN source x y m k = m k ∨ ∃ r < source.M, ∃ s < source.N,
      k = (r + if dM > source.M then x else 0) * dN + (if dN > source.N then y else 0) + s ∧
        (copyMatrix dM dN source x y m k).val = source.ptr (r * source.N + s) := by
  unfold copyMatrix
  by_cases hall : dN = source.N ∧ dM = source.M
  · -- all of `C` at once
    obtain ⟨hdN, hdM⟩ := hall
    rw [if_pos ⟨hdN, hdM⟩]
    unfold memcpy
    split
    next hk =>
      have hpos : 0 < source.N := by
        refine Nat.pos_of_ne_zero fun hzero => ?_
        rw [hdN, hzero, Nat.zero_mul] at hk
        omega
      have hdiv := Nat.div_add_mod' k source.N
      refine Or.inr ⟨k / source.N, ?_, k % source.N, Nat.mod_lt k hpos, ?_, ?_⟩
      · rw [Nat.div_lt_iff_lt_mul hpos, ← hdM, ← hdN, Nat.mul_comm]
        omega
      · rw [if_neg (by omega), if_neg (by omega), Nat.add_zero, Nat.add_zero, hdN]
        exact hdiv.symm
      · rw [hdiv]
        rfl
    next => exact Or.inl rfl
  · have hcol : (if dM < source.M then dM else source.M) = source.M := if_neg (by omega)
    have hrow : (if dN < source.N then dN else source.N) = source.N := if_neg (by omega)
    have hsY : (if dN > source.N then 0 else if source.N > dN then y else 0) = 0 := by
      split
      next => rfl
      next => exact if_neg (by omega)
    have hsX : (if dM > source.M then 0 else if dM < source.M then x else 0) = 0 := by
      split
      next => rfl
      next => exact if_neg (by omega)
    rw [if_neg hall, hcol, hrow, hsY, hsX]
    exact copyMatrixLoop_cases ..

/-! ## One `tileMult` -/

/-- What `mmTile` is given: matrices of the sizes it is told, and cuts into pieces that are not
empty. -/
structure MmArgs.Fits (args : MmArgs R) : Prop where
  a : args.a.M = args.msi ∧ args.a.N = args.msk
  b : args.b.M = args.msk ∧ args.b.N = args.msj
  c : args.cM = args.msi ∧ args.cN = args.msj
  msk : 1 ≤ args.msk
  iCut : 1 ≤ args.iCut ∧ args.iCut ≤ args.msi
  jCut : 1 ≤ args.jCut ∧ args.jCut ≤ args.msj

/-- The indices of tile `(i, j)` of `C`. -/
def block (args : MmArgs R) (i j : Nat) : Set Nat :=
  {k | (i * args.iTile ≤ k / args.msj ∧ k / args.msj < i * args.iTile + tempISize args i) ∧
    j * args.jTile ≤ k % args.msj ∧ k % args.msj < j * args.jTile + tempJSize args j}

instance (args : MmArgs R) (i j : Nat) : DecidablePred (· ∈ block args i j) := fun _ =>
  inferInstanceAs (Decidable (_ ∧ _))

variable [CommRing R] {args : MmArgs R}

/-- Row `r`, column `s` of `A * B`. -/
def product (args : MmArgs R) (r s : Nat) : R :=
  ∑ l ∈ Finset.range args.msk, args.a.ptr (r * args.msk + l) * args.b.ptr (l * args.msj + s)

theorem tempA_M (args : MmArgs R) (i : Nat) : (tempA args i).M = tempISize args i := by
  unfold tempA tempISize subMatrix
  rw [Nat.add_comm args.iMod]

/-- Only the matrix `C` decides whether a call of `DGEMM` is as documented. -/
theorem documented_iff (h : args.Fits) (hj : j < args.jCut) (i cM cN : Nat) :
    Documented (tempISize args i) (tempJSize args j) args.msk
        ((tempA args i).M * (tempA args i).N) (tempA args i).N
        (args.b.M * args.b.N - j * args.jTile) args.b.N (cM * cN) cN ↔
      tempJSize args j ≤ cN ∧ (tempISize args i - 1) * cN + tempJSize args j ≤ cM * cN := by
  have hI : 1 ≤ tempISize args i := piece_pos h.iCut.1 h.iCut.2 i
  have hJ : j * args.jTile + tempJSize args j ≤ args.msj := piece_end_le hj
  have hA : (tempA args i).N = args.msk := rfl
  have hrows : (tempISize args i - 1) * args.msk + args.msk = tempISize args i * args.msk := by
    rw [← Nat.succ_mul, Nat.succ_eq_add_one, Nat.sub_add_cancel hI]
  have hdepth : (args.msk - 1) * args.msj + args.msj = args.msk * args.msj := by
    rw [← Nat.succ_mul, Nat.succ_eq_add_one, Nat.sub_add_cancel h.msk]
  unfold Documented
  rw [tempA_M, hA, h.b.1, h.b.2]
  constructor
  · intro ⟨_, _, h1, _, _, h2⟩
    exact ⟨h1, h2⟩
  · intro ⟨h1, h2⟩
    exact ⟨le_rfl, by omega, h1, by omega, by omega, h2⟩

/-- What `DGEMM` leaves in the tile: the part of the product. -/
theorem DGEMM_tile (h : args.Fits) (blas : Blas R) {C : Mat R}
    (hdoc : Documented (tempISize args i) (tempJSize args j) args.msk
      ((tempA args i).M * (tempA args i).N) (tempA args i).N
      (args.b.M * args.b.N - j * args.jTile) args.b.N (C.M * C.N) C.N)
    {r s : Nat} (hr : r < tempISize args i) (hs : s < tempJSize args j) :
    (DGEMM blas (tempISize args i) (tempJSize args j) args.msk 1 (tempA args i) args.b
        (j * args.jTile) 0 C).ptr (r * C.N + s) =
      some (product args (r + i * args.iTile) (s + j * args.jTile)) := by
  unfold DGEMM
  rw [if_pos hdoc]
  simp only
  rw [blas.dgemm_entry hdoc.1 hdoc.2.1 hdoc.2.2.1 hr hs, one_mul, zero_mul, add_zero]
  unfold product
  congr 1
  refine Finset.sum_congr rfl fun l hl => ?_
  have hl := Finset.mem_range.mp hl
  have hcopy : (tempA args i).ptr (r * args.msk + l) =
      args.a.ptr ((r + i * args.iTile) * args.msk + l) := by
    have hsub := subMatrix_ptr args.a (i * args.iTile) 0 (tempA args i).M (r := r) (s := l)
      (by rw [tempA_M]; exact hr) hl
    rwa [h.a.2, Nat.add_zero] at hsub
  have hb : offset args.b.ptr (j * args.jTile) (l * args.b.N + s) =
      args.b.ptr (l * args.msj + (s + j * args.jTile)) := by
    rw [offset, h.b.2]
    congr 1
    omega
  rw [hb, ← hcopy]
  rfl

/-- The MKL build: `tileMult` writes its tile of `C`, every element once. -/
theorem tileMultFire_mkl (h : args.Fits) (blas : Blas R) (hi : i < args.iCut) (hj : j < args.jCut)
    (m : Memory R) (k : Nat) : tileMultFire blas .MKL args i j (tempA args i) m k =
      if k ∈ block args i j then
        { val := some (product args (k / args.msj) (k % args.msj)), writes := (m k).writes + 1 }
      else m k := by
  have hI : i * args.iTile + tempISize args i ≤ args.msi := piece_end_le hi
  have hJ : j * args.jTile + tempJSize args j ≤ args.msj := piece_end_le hj
  have hI1 : 1 ≤ tempISize args i := piece_pos h.iCut.1 h.iCut.2 i
  have hJ1 : 1 ≤ tempJSize args j := piece_pos h.jCut.1 h.jCut.2 j
  have hdoc := (documented_iff h hj i (tempISize args i) (tempJSize args j)).mpr ⟨le_rfl, by
    rw [← Nat.succ_mul, Nat.succ_eq_add_one, Nat.sub_add_cancel hI1]⟩
  unfold tileMultFire
  simp only
  generalize hC : DGEMM blas (tempISize args i) (tempJSize args j) args.msk 1 (tempA args i) args.b
    (j * args.jTile) 0 { M := tempISize args i, N := tempJSize args j, ptr := fun _ => 0 } = C
  have hM : C.M = tempISize args i := by
    rw [← hC]
    unfold DGEMM
    rw [if_pos hdoc]
  have hN : C.N = tempJSize args j := by
    rw [← hC]
    unfold DGEMM
    rw [if_pos hdoc]
  rw [h.c.1, h.c.2, copyMatrix_apply (by rw [hM]; exact hI) (by rw [hN]; exact hJ) (by rw [hN]; exact hJ1),
    hM, hN]
  by_cases hk : k ∈ block args i j
  · obtain ⟨⟨hr, hr'⟩, hs, hs'⟩ := id hk
    rw [if_pos hk, if_pos ⟨⟨hr, hr'⟩, hs, hs'⟩]
    have htile := DGEMM_tile (C := { M := tempISize args i, N := tempJSize args j, ptr := fun _ => 0 })
      (r := k / args.msj - i * args.iTile) (s := k % args.msj - j * args.jTile) h blas hdoc
      (by omega) (by omega)
    rw [hC, Nat.sub_add_cancel hr, Nat.sub_add_cancel hs] at htile
    rw [htile]
  · rw [if_neg hk]
    exact if_neg hk

/-- In the CBLAS build it does the same when the tile is square and on the diagonal. -/
theorem tileMultFire_cblas (blas : Blas R) (hsize : tempISize args i = tempJSize args j)
    (hoff : i * args.iTile = j * args.jTile) (A : Mat R) (m : Memory R) :
    tileMultFire blas .CBLAS args i j A m = tileMultFire blas .MKL args i j A m := by
  unfold tileMultFire
  simp only
  rw [hsize, hoff]

/-- The call of `DGEMM` in the CBLAS build is as documented for square tiles only: with more columns
than rows the leading dimension of `C` is too short, with less `C` is too small. -/
theorem documented_cblas_iff (h : args.Fits) (hj : j < args.jCut) (i : Nat) :
    Documented (tempISize args i) (tempJSize args j) args.msk
        ((tempA args i).M * (tempA args i).N) (tempA args i).N
        (args.b.M * args.b.N - j * args.jTile) args.b.N
        (tempJSize args j * tempISize args i) (tempISize args i) ↔
      tempISize args i = tempJSize args j := by
  have hI : 1 ≤ tempISize args i := piece_pos h.iCut.1 h.iCut.2 i
  have hJ : 1 ≤ tempJSize args j := piece_pos h.jCut.1 h.jCut.2 j
  rw [documented_iff h hj]
  generalize tempISize args i = I at hI ⊢
  generalize tempJSize args j = J at hJ ⊢
  constructor
  · intro ⟨hle, hlen⟩
    by_contra hne
    have hmul : J * I ≤ (I - 1) * I := Nat.mul_le_mul_right I (by omega)
    omega
  · intro heq
    subst heq
    rw [← Nat.succ_mul, Nat.succ_eq_add_one, Nat.sub_add_cancel hI]
    exact ⟨le_rfl, le_rfl⟩

/-- What a `tileMult` of the CBLAS build can do to an element of `C`: keep it, leave it without a
value, or, with a square tile, give it an element of the product. -/
theorem tileMultFire_cblas_cases (h : args.Fits) (blas : Blas R) (hi : i < args.iCut)
    (hj : j < args.jCut) (m : Memory R) (k : Nat) :
    tileMultFire blas .CBLAS args i j (tempA args i) m k = m k ∨
      (tileMultFire blas .CBLAS args i j (tempA args i) m k).val = none ∨
      tempISize args i = tempJSize args j ∧ ∃ r < tempISize args i, ∃ s < tempJSize args j,
        k = (r + if args.msi > tempJSize args j then j * args.jTile else 0) * args.msj +
            (if args.msj > tempISize args i then i * args.iTile else 0) + s ∧
          (tileMultFire blas .CBLAS args i j (tempA args i) m k).val =
            some (product args (r + i * args.iTile) (s + j * args.jTile)) := by
  unfold tileMultFire
  simp only
  by_cases hsize : tempISize args i = tempJSize args j
  · have hdoc := (documented_cblas_iff h hj i).mpr hsize
    have hI : i * args.iTile + tempISize args i ≤ args.msi := piece_end_le hi
    have hJ : j * args.jTile + tempJSize args j ≤ args.msj := piece_end_le hj
    have htile := fun {r s : Nat} => DGEMM_tile (r := r) (s := s)
      (C := { M := tempJSize args j, N := tempISize args i, ptr := fun _ => 0 }) h blas hdoc
    generalize hC : DGEMM blas (tempISize args i) (tempJSize args j) args.msk 1 (tempA args i) args.b
      (j * args.jTile) 0 { M := tempJSize args j, N := tempISize args i, ptr := fun _ => 0 } = C at htile
    have hM : C.M = tempJSize args j := by
      rw [← hC]
      unfold DGEMM
      rw [if_pos hdoc]
    have hN : C.N = tempISize args i := by
      rw [← hC]
      unfold DGEMM
      rw [if_pos hdoc]
    rw [h.c.1, h.c.2]
    refine (copyMatrix_cases (by omega) (by omega) ..).imp_right fun ⟨r, hr, s, hs, hk, hval⟩ => ?_
    rw [hM, hN] at hk
    rw [hN, htile (by omega) (by omega)] at hval
    exact Or.inr ⟨hsize, r, by omega, s, by omega, hk, hval⟩
  · have hdoc := mt (documented_cblas_iff h hj i).mp hsize
    have hnone : ∀ z, (DGEMM blas (tempISize args i) (tempJSize args j) args.msk 1 (tempA args i)
        args.b (j * args.jTile) 0
        { M := tempJSize args j, N := tempISize args i, ptr := fun _ => 0 }).ptr z = none := fun z => by
      unfold DGEMM
      rw [if_neg hdoc]
    exact (copyMatrix_none hnone ..).imp_right Or.inl

end MatrixMultiply

end Darts
