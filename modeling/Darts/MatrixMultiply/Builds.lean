import Mathlib.Algebra.BigOperators.Group.Finset.Piecewise
import Mathlib.Algebra.Ring.Int.Defs
import Darts.MatrixMultiply.Correct

/-!
# Which build multiplies

The MKL build, and the CBLAS build only when there is one tile and `C` is square. In all
other cases of the CBLAS build some element of the product never gets to its place:
`A` and `B` are chosen to have a single one each, and what holds of every run is that
there is no one where it should be.
-/

namespace Darts

namespace MatrixMultiply

open ForkJoin Transition

variable {R : Type} [CommRing R] {args : MmArgs R} {blas : Blas R} {build : Build} {m : Memory R}

/-! ## Runs -/

/-- The codelets that `mmTile` leads to. -/
def OfRun (args : MmArgs R) : Codelet R → Prop
  | .il _ => True
  | .iloop it => it < args.iCut
  | .jl it A _ => it < args.iCut ∧ A = tempA args it
  | .mul it A j => it < args.iCut ∧ A = tempA args it ∧ j < args.jCut

/-- What every `tileMult` preserves holds in every run. -/
theorem tileMult_invariant {I : Memory R → Prop}
    (hmul : ∀ i < args.iCut, ∀ j < args.jCut, ∀ m, I m →
      I (tileMultFire blas build args i j (tempA args i) m))
    (hm : I m) {s : State (Codelet R) Nat (Entry R)}
    (hs : Reachable (step (fire blas build args)) (launch mmTile m) s) : I s.mem := by
  have hstart : (mmTile : Proc (Codelet R)).Forall (OfRun args) := trivial
  refine mem_invariant (fun c ω m hc q hq => ?_) (fun c ω m hc hI => ?_) hstart hm hs
  · cases c with
    | il fired =>
      cases fired with
      | true => cases hq
      | false =>
        obtain rfl := Option.some.inj hq
        refine ⟨trivial, Proc.forall_all fun p hp => ?_⟩
        obtain ⟨it, hit, rfl⟩ := List.mem_map.mp hp
        exact List.mem_range.mp hit
    | iloop it =>
      obtain rfl := Option.some.inj hq
      exact ⟨hc, rfl⟩
    | jl it A fired =>
      cases fired with
      | true => cases hq
      | false =>
        simp only [fire] at hq
        split at hq
        next => cases hq
        next =>
          obtain rfl := Option.some.inj hq
          refine ⟨hc, Proc.forall_all fun p hp => ?_⟩
          obtain ⟨j, hj, rfl⟩ := List.mem_map.mp hp
          exact ⟨hc.1, hc.2, List.mem_range.mp hj⟩
    | mul it A j => cases hq
  · cases c with
    | il fired => cases fired <;> exact hI
    | iloop it => exact hI
    | jl it A fired =>
      cases fired with
      | true => exact hI
      | false =>
        simp only [fire]
        split <;> exact hI
    | mul it A j =>
      obtain ⟨hi, rfl, hj⟩ := hc
      exact hmul it hi j hj m hI

/-! ## A single one -/

/-- Zero but for one element. -/
def single (k : Nat) : Nat → R := fun x => if x = k then 1 else 0

/-- Column 0 of `A` has a one in row `p`, and row 0 of `B` in column `q`. -/
theorem product_single {p q : Nat} (ha : args.a.ptr = single (p * args.msk))
    (hb : args.b.ptr = single q) (hmsk : 1 ≤ args.msk) (hq : q < args.msj) (r : Nat) {s : Nat}
    (hs : s < args.msj) : product args r s = if r = p ∧ s = q then (1 : R) else 0 := by
  unfold product
  rw [ha, hb]
  unfold single
  have hterm : ∀ l ∈ Finset.range args.msk, (if r * args.msk + l = p * args.msk then (1 : R) else 0) *
      (if l * args.msj + s = q then 1 else 0) = if l = 0 then if r = p ∧ s = q then 1 else 0 else 0 := by
    intro l hl
    have hl := Finset.mem_range.mp hl
    have hrow : r * args.msk + l = p * args.msk ↔ r = p ∧ l = 0 := by
      constructor
      · intro heq
        exact RowMajor.inj hl hmsk (heq.trans (Nat.add_zero _).symm)
      · intro ⟨hr, hl⟩
        rw [hr, hl, Nat.add_zero]
    have hcol : l * args.msj + s = q ↔ l = 0 ∧ s = q := by
      constructor
      · intro heq
        exact RowMajor.inj hs hq (by omega)
      · intro ⟨hl, hs⟩
        rw [hl, hs, Nat.zero_mul, Nat.zero_add]
    rw [if_congr hrow rfl rfl, if_congr hcol rfl rfl]
    by_cases hzero : l = 0
    · by_cases hr : r = p <;> simp [hzero, hr]
    · simp [hzero]
  rw [Finset.sum_congr rfl hterm, Finset.sum_ite_eq', if_pos (Finset.mem_range.mpr hmsk)]

/-! ## The CBLAS build -/

/-- Where a square tile of the CBLAS build gets element `(r, s)` of the product. -/
def Lands (args : MmArgs R) (i j r s : Nat) : Prop :=
  tempISize args i = tempJSize args j ∧ ∃ r' < tempISize args i, ∃ s' < tempJSize args j,
    r = r' + i * args.iTile ∧ s = s' + j * args.jTile ∧
    r * args.msj + s = (r' + if args.msi > tempJSize args j then j * args.jTile else 0) * args.msj +
      (if args.msj > tempISize args i then i * args.iTile else 0) + s'

omit [CommRing R] in
/-- With a second row of tiles, its first element is lost: the tile is put beside the first one. -/
theorem not_lands_second_row (h : args.Fits) (hcut : 2 ≤ args.iCut) {i j : Nat} :
    ¬Lands args i j args.iTile 0 := by
  intro ⟨hsize, r, hr, s, hs, hrow, hcol, hplace⟩
  have hI : 0 < args.iTile := Nat.div_pos h.iCut.2 h.iCut.1
  obtain ⟨hs0, hj0⟩ : s = 0 ∧ j * args.jTile = 0 := by omega
  have hi : i = 1 := by
    rcases Nat.lt_trichotomy i 1 with hlt | heq | hgt
    · obtain rfl : i = 0 := by omega
      rw [Nat.zero_mul] at hrow
      have hlen : tempISize args 0 = args.iTile := if_neg (by omega)
      omega
    · exact heq
    · have := Nat.mul_le_mul_right args.iTile hgt
      omega
  subst hi hs0
  rw [Nat.one_mul] at hrow hplace
  obtain rfl : r = 0 := by omega
  rw [hj0, ite_self, Nat.add_zero, Nat.zero_mul, Nat.zero_add, Nat.add_zero] at hplace
  have hpos : 1 ≤ tempISize args 1 := piece_pos h.iCut.1 h.iCut.2 1
  have hmul : 0 < args.iTile * args.msj := Nat.mul_pos hI (by have := h.jCut; omega)
  split at hplace
  next hgt =>
    have := Nat.mul_le_mul_left args.iTile (show 2 ≤ args.msj by omega)
    omega
  next => omega

omit [CommRing R] in
/-- And so is that of a second column. -/
theorem not_lands_second_column (h : args.Fits) (hcut : 2 ≤ args.jCut) {i j : Nat} :
    ¬Lands args i j 0 args.jTile := by
  intro ⟨hsize, r, hr, s, hs, hrow, hcol, hplace⟩
  have hJ : 0 < args.jTile := Nat.div_pos h.jCut.2 h.jCut.1
  obtain ⟨hr0, hi0⟩ : r = 0 ∧ i * args.iTile = 0 := by omega
  have hj : j = 1 := by
    rcases Nat.lt_trichotomy j 1 with hlt | heq | hgt
    · obtain rfl : j = 0 := by omega
      rw [Nat.zero_mul] at hcol
      have hlen : tempJSize args 0 = args.jTile := if_neg (by omega)
      omega
    · exact heq
    · have := Nat.mul_le_mul_right args.jTile hgt
      omega
  subst hj hr0
  rw [Nat.one_mul] at hcol hplace
  obtain rfl : s = 0 := by omega
  rw [hi0, ite_self, Nat.zero_mul, Nat.zero_add, Nat.zero_add, Nat.add_zero] at hplace
  split at hplace
  next =>
    have := Nat.mul_le_mul_left args.jTile (show 2 ≤ args.msj by have := h.jCut; omega)
    omega
  next =>
    rw [Nat.zero_mul] at hplace
    omega

/-- An element of the product that no tile puts in its place is missing in some `C`. -/
theorem not_multiplied [Nontrivial R] {p q : Nat} (h : args.Fits)
    (ha : args.a.ptr = single (p * args.msk)) (hb : args.b.ptr = single q) (hp : p < args.msi)
    (hq : q < args.msj) (hlands : ∀ i < args.iCut, ∀ j < args.jCut, ¬Lands args i j p q)
    {s : State (Codelet R) Nat (Entry R)}
    (hs : Reachable (step (fire blas .CBLAS args))
      (launch mmTile fun _ => { val := some 0, writes := 0 }) s) : ¬Multiplied args s.mem := by
  intro hmul
  have hnever : (s.mem (p * args.msj + q)).val ≠ some 1 := by
    refine tileMult_invariant (I := fun m => (m (p * args.msj + q)).val ≠ some 1)
      (fun i hi j hj m hm => ?_) ?_ hs
    · obtain hkeep | hnone | ⟨hsize, r, hr, t, ht, hk, hval⟩ :=
        tileMultFire_cblas_cases h blas hi hj m (p * args.msj + q)
      · rw [hkeep]
        exact hm
      · rw [hnone]
        exact fun h => by cases h
      · have hJ : j * args.jTile + tempJSize args j ≤ args.msj := piece_end_le hj
        rw [hval, product_single ha hb h.msk hq _ (by omega)]
        split
        next hpq => exact absurd ⟨hsize, r, hr, t, ht, hpq.1.symm, hpq.2.symm, hk⟩ (hlands i hi j hj)
        next => exact fun h => zero_ne_one (Option.some.inj h)
    · exact fun h => zero_ne_one (Option.some.inj h)
  have hone := congrArg Entry.val (hmul p hp q hq)
  rw [product_single ha hb h.msk hq p hq, if_pos ⟨rfl, rfl⟩] at hone
  exact hnever hone

/-- One tile that is not square: whatever `C` was, it stays that or has no value. -/
theorem not_multiplied_oblong [Nontrivial R] (h : args.Fits) (hcut : args.iCut = 1 ∧ args.jCut = 1)
    (hne : args.msi ≠ args.msj) (ha : args.a.ptr = fun _ => 0)
    {s : State (Codelet R) Nat (Entry R)}
    (hs : Reachable (step (fire blas .CBLAS args))
      (launch mmTile fun _ => { val := some 1, writes := 0 }) s) : ¬Multiplied args s.mem := by
  intro hmul
  have hnever : (s.mem (0 * args.msj + 0)).val ≠ some 0 := by
    refine tileMult_invariant (I := fun m => (m (0 * args.msj + 0)).val ≠ some 0)
      (fun i hi j hj m hm => ?_) ?_ hs
    · obtain rfl : i = 0 := by omega
      obtain rfl : j = 0 := by omega
      obtain hkeep | hnone | ⟨hsize, -⟩ := tileMultFire_cblas_cases h blas hi hj m (0 * args.msj + 0)
      · rw [hkeep]
        exact hm
      · rw [hnone]
        exact fun h => by cases h
      · refine absurd ?_ hne
        rw [tempISize_eq, tempJSize_eq, hcut.1, hcut.2] at hsize
        simpa [piece, Nat.mod_one] using hsize
    · exact fun h => one_ne_zero (Option.some.inj h)
  have hzero := congrArg Entry.val (hmul 0 (by have := h.iCut; omega) 0 (by have := h.jCut; omega))
  refine hnever (hzero.trans ?_)
  simp [product, ha]

/-! ## Both builds -/

/-- `mmArgs(A, B, C, msi, msj, msk, iCut, jCut)`, with `A`, `B` and `C` of the sizes given. -/
def mmArgs (msi msj msk iCut jCut : Nat) (aPtr bPtr : Nat → R) : MmArgs R :=
  { a := { M := msi, N := msk, ptr := aPtr }, b := { M := msk, N := msj, ptr := bPtr }
    cM := msi, cN := msj, msi, msj, msk, iCut, jCut }

omit [CommRing R] in
theorem mmArgs_fits {msi msj msk iCut jCut : Nat} (hmsk : 1 ≤ msk) (hi : 1 ≤ iCut ∧ iCut ≤ msi)
    (hj : 1 ≤ jCut ∧ jCut ≤ msj) (aPtr bPtr : Nat → R) :
    (mmArgs msi msj msk iCut jCut aPtr bPtr).Fits where
  a := ⟨rfl, rfl⟩
  b := ⟨rfl, rfl⟩
  c := ⟨rfl, rfl⟩
  msk := hmsk
  iCut := hi
  jCut := hj

/-- **When `mmTile` multiplies**: for given sizes and cuts the completion codelet of every run finds
the product in `C`, each element written once, for all `A`, `B` and `C`, if and only if the build
is MKL, or `C` is square and has one tile. -/
theorem mmTile_multiplies_iff [Nontrivial R] (blas : Blas R) (build : Build)
    {msi msj msk iCut jCut : Nat} (hmsk : 1 ≤ msk) (hi : 1 ≤ iCut ∧ iCut ≤ msi)
    (hj : 1 ≤ jCut ∧ jCut ≤ msj) :
    (∀ (aPtr bPtr : Nat → R) (m : Memory R), (∀ k, (m k).writes = 0) →
      Completes (fire blas build (mmArgs msi msj msk iCut jCut aPtr bPtr)) mmTile m
        (iCut * (jCut + 3) + 2) (Multiplied (mmArgs msi msj msk iCut jCut aPtr bPtr))) ↔
      build = .MKL ∨ iCut = 1 ∧ jCut = 1 ∧ msi = msj := by
  constructor
  · intro hall
    cases build with
    | MKL => exact Or.inl rfl
    | CBLAS =>
      refine Or.inr (by_contra fun hcut => ?_)
      have hwrong : ∃ (aPtr bPtr : Nat → R) (m : Memory R), (∀ k, (m k).writes = 0) ∧
          ∀ s, Reachable (step (fire blas .CBLAS (mmArgs msi msj msk iCut jCut aPtr bPtr)))
            (launch mmTile m) s → ¬Multiplied (mmArgs msi msj msk iCut jCut aPtr bPtr) s.mem := by
        by_cases hrows : 2 ≤ iCut
        · have hfits := mmArgs_fits hmsk hi hj (single (msi / iCut * msk) : Nat → R) (single 0)
          refine ⟨_, _, _, fun _ => rfl, fun s hs => not_multiplied hfits rfl rfl ?_ (hj.1.trans hj.2)
            (fun i _ j _ => not_lands_second_row hfits hrows) hs⟩
          exact Nat.div_lt_self (by omega) hrows
        by_cases hcols : 2 ≤ jCut
        · have hfits := mmArgs_fits hmsk hi hj (single (0 * msk) : Nat → R) (single (msj / jCut))
          refine ⟨_, _, _, fun _ => rfl, fun s hs => not_multiplied hfits rfl rfl (hi.1.trans hi.2) ?_
            (fun i _ j _ => not_lands_second_column hfits hcols) hs⟩
          exact Nat.div_lt_self (by omega) hcols
        · have hfits := mmArgs_fits hmsk hi hj (fun _ => 0 : Nat → R) fun _ => 0
          refine ⟨_, _, _, fun _ => rfl, fun s hs => not_multiplied_oblong hfits ?_ ?_ rfl hs⟩
          · exact ⟨by simp only [mmArgs]; omega, by simp only [mmArgs]; omega⟩
          · simp only [mmArgs]
            omega
      obtain ⟨aPtr, bPtr, m, hm, hnever⟩ := hwrong
      obtain ⟨s, hs, -, hmul⟩ := (hall aPtr bPtr m hm).reaches .start
      exact hnever s hs hmul
  · intro hbuild aPtr bPtr m hm
    have hfits := mmArgs_fits hmsk hi hj aPtr bPtr
    refine mmTile_completes hfits (fun i hi j hj m' => ?_) hm
    obtain rfl | ⟨rfl, rfl, rfl⟩ := hbuild
    · rfl
    · cases build with
      | MKL => rfl
      | CBLAS =>
        obtain rfl : i = 0 := Nat.lt_one_iff.mp hi
        obtain rfl : j = 0 := Nat.lt_one_iff.mp hj
        exact tileMultFire_cblas blas rfl rfl _ _

/-- Four tiles of one element: the MKL build multiplies, the CBLAS build does not. -/
theorem mmTile_multiplies_iff_two :
    (∀ (aPtr bPtr : Nat → Int) (m : Memory Int), (∀ k, (m k).writes = 0) →
      Completes (fire (Blas.reference Int) .MKL (mmArgs 2 2 2 2 2 aPtr bPtr)) mmTile m 12
        (Multiplied (mmArgs 2 2 2 2 2 aPtr bPtr))) ∧
    ¬∀ (aPtr bPtr : Nat → Int) (m : Memory Int), (∀ k, (m k).writes = 0) →
      Completes (fire (Blas.reference Int) .CBLAS (mmArgs 2 2 2 2 2 aPtr bPtr)) mmTile m 12
        (Multiplied (mmArgs 2 2 2 2 2 aPtr bPtr)) := by
  constructor
  · exact (mmTile_multiplies_iff _ .MKL (by decide) (by decide) (by decide)).mpr (.inl rfl)
  · intro hall
    have hbuild := (mmTile_multiplies_iff _ .CBLAS (by decide) (by decide) (by decide)).mp hall
    exact absurd hbuild (by decide)

/-- `size` 2 and both cuts 2: the one of the product is in row 1, column 0, that of `C` in row 0,
column 1. -/
theorem tiles_transposed :
    ∃ s, run (step (fire (Blas.reference Int) .CBLAS (mmArgs 2 2 2 2 2 (single 2) (single 0))))
        (launch mmTile fun _ => { val := some 0, writes := 0 }) (List.replicate 12 (0, ())) = some s ∧
      s.signalled = 1 ∧
      product (mmArgs 2 2 2 2 2 (single 2) (single 0) : MmArgs Int) 1 0 = 1 ∧
      (s.mem (1 * 2 + 0)).val = some 0 ∧ (s.mem (0 * 2 + 1)).val = some 1 :=
  ⟨_, rfl, rfl, by decide, by decide, by decide⟩

end MatrixMultiply

end Darts
