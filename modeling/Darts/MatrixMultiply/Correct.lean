import Darts.Lib.ForkJoinLogic
import Darts.MatrixMultiply.Tiles

/-!
# `mmTile` multiplies

In the MKL build every `tileMult` writes its own tile of `C`, and the tiles partition `C`:
in every order of the iterations each element is written once, with its element of the
product. The CBLAS build has the sizes and the place of a tile the other way round. That
is right for the only tile of a square `C`, and in all other cases wrong.
-/

namespace Darts

namespace MatrixMultiply

open ForkJoin Transition

variable {R : Type}

/-! ## The tiles partition `C` -/

section Partition

variable {args : MmArgs R}

/-- The rows of `C` of an `iloop`. -/
def band (args : MmArgs R) (i : Nat) : Set Nat := ⋃ j ∈ List.range args.jCut, block args i j

theorem block_disjoint {i j j' : Nat} (hj : j ∈ List.range args.jCut) (hj' : j' ∈ List.range args.jCut)
    (hne : j ≠ j') : Disjoint (block args i j) (block args i j') := by
  refine Set.disjoint_left.mpr fun k hk hk' => hne ?_
  exact piece_unique (List.mem_range.mp hj) (List.mem_range.mp hj') hk.2 hk'.2

theorem band_disjoint {i i' : Nat} (hi : i ∈ List.range args.iCut) (hi' : i' ∈ List.range args.iCut)
    (hne : i ≠ i') : Disjoint (band args i) (band args i') := by
  refine Set.disjoint_left.mpr fun k hk hk' => hne ?_
  obtain ⟨j, -, hk⟩ := Set.mem_iUnion₂.mp hk
  obtain ⟨j', -, hk'⟩ := Set.mem_iUnion₂.mp hk'
  exact piece_unique (List.mem_range.mp hi) (List.mem_range.mp hi') hk.1 hk'.1

/-- The bands are all of `C`. -/
theorem mem_band (h : args.Fits) {r s : Nat} (hr : r < args.msi) (hs : s < args.msj) :
    r * args.msj + s ∈ ⋃ i ∈ List.range args.iCut, band args i := by
  obtain ⟨i, hi, hir⟩ := exists_piece h.iCut.1 h.iCut.2 hr
  obtain ⟨j, hj, hjs⟩ := exists_piece h.jCut.1 h.jCut.2 hs
  obtain ⟨hdiv, hmod⟩ := (index_eq_iff hs).mp rfl
  refine Set.mem_iUnion₂.mpr ⟨i, List.mem_range.mpr hi, Set.mem_iUnion₂.mpr ⟨j, List.mem_range.mpr hj, ?_⟩⟩
  refine ⟨?_, ?_⟩
  · rw [hdiv]
    exact hir
  · rw [hmod]
    exact hjs

end Partition

variable [CommRing R] {args : MmArgs R}

/-- `C` is the product in row-major order, and every element has been written once. -/
def Multiplied (args : MmArgs R) (m : Memory R) : Prop :=
  ∀ r < args.msi, ∀ s < args.msj, m (r * args.msj + s) = { val := some (product args r s), writes := 1 }

/-- The same, for the indices of a part of the storage. -/
def Done (args : MmArgs R) (U : Set Nat) (m : Memory R) : Prop :=
  ∀ k ∈ U, m k = { val := some (product args (k / args.msj) (k % args.msj)), writes := 1 }

theorem Done.congr {U : Set Nat} {m m' : Memory R} (h : Done args U m) (hm : Set.EqOn m m' U) :
    Done args U m' := fun k hk => hm hk ▸ h k hk

theorem done_iUnion {ι : Type} {l : List ι} {U : ι → Set Nat} {m : Memory R} :
    Done args (⋃ i ∈ l, U i) m ↔ ∀ i ∈ l, Done args (U i) m := by
  constructor
  · intro h i hi k hk
    exact h k (Set.mem_biUnion hi hk)
  · intro h k hk
    obtain ⟨i, hi, hk⟩ := Set.mem_iUnion₂.mp hk
    exact h i hi k hk

/-! ## The loops -/

/-- Every `tileMult` does what it does in the MKL build. -/
def LikeMKL (blas : Blas R) (build : Build) (args : MmArgs R) : Prop :=
  ∀ i < args.iCut, ∀ j < args.jCut, ∀ m, tileMultFire blas build args i j (tempA args i) m =
    tileMultFire blas .MKL args i j (tempA args i) m

variable {blas : Blas R} {build : Build} {m : Memory R}

theorem mul_ok (h : args.Fits) (hlike : LikeMKL blas build args) {i j : Nat} (hi : i < args.iCut)
    (hj : j < args.jCut) (hm : ∀ k ∈ block args i j, (m k).writes = 0) :
    Ok (fire blas build args) 1 (.run (.mul i (tempA args i) j)) (block args i j) (block args i j)
      (Done args (block args i j)) m := by
  refine .of_run fun _ m' hm' => ?_
  have hfire : ∀ k, tileMultFire blas build args i j (tempA args i) m' k = _ := fun k => by
    rw [hlike i hi j hj, tileMultFire_mkl h blas hi hj]
  refine ⟨fun k hk => ?_, (fun q hq => by cases hq), .done fun m'' hm'' => Done.congr (fun k hk => ?_) hm''⟩
  · exact ((hfire k).trans (if_neg hk)).symm
  · have hzero : (m' k).writes = 0 := by
      rw [← hm' hk]
      exact hm k hk
    refine (hfire k).trans ?_
    rw [if_pos hk, hzero]

/-- The second firing of a loop only signals. -/
theorem fired_ok {c : Codelet R} {U : Set Nat} (hfire : ∀ m, fire blas build args c () m = (m, none))
    (hm : Done args U m) : Ok (fire blas build args) 1 (.run c) U U (Done args U) m := by
  refine .of_run fun _ m' hm' => ?_
  rw [hfire]
  exact ⟨Set.eqOn_refl .., (fun q hq => by cases hq), .done fun m'' hm'' => hm.congr (hm'.trans hm'')⟩

/-- A loop of either kind that waits for `n` bodies with parts of `C` of their own. -/
theorem loop_ok {c : Codelet R} {n k : Nat} {body : Nat → Codelet R} {U : Nat → Set Nat} (hn : 1 ≤ n)
    (hfire : ∀ m, fire blas build args c () m = (m, none))
    (hd : ∀ i ∈ List.range n, ∀ j ∈ List.range n, i ≠ j → Disjoint (U i) (U j))
    (h : ∀ i ∈ List.range n, Ok (fire blas build args) k (.run (body i)) (U i) (U i)
      (Done args (U i)) m) :
    Ok (fire blas build args) (n * k + 1) (.wait n c (.all ((List.range n).map fun i => .run (body i))))
      (⋃ i ∈ List.range n, U i) (⋃ i ∈ List.range n, U i) (Done args (⋃ i ∈ List.range n, U i)) m := by
  have hsignals : (Proc.all ((List.range n).map fun i => Proc.run (body i))).signals = n := by
    rw [Proc.signals_all, List.length_map, List.length_range]
    intro p hp
    obtain ⟨i, -, rfl⟩ := List.mem_map.mp hp
    rfl
  have hall := Ok.all List.nodup_range hd h
  rw [List.length_range] at hall
  exact .wait hsignals.symm hn hall (fun m' hm' => fired_ok hfire (done_iUnion.mpr hm')) le_rfl

/-- An iteration of the `paraFor`: an `iloop` and its `codeletFor` over the column tiles. -/
theorem iloop_ok (h : args.Fits) (hlike : LikeMKL blas build args) {i : Nat} (hi : i < args.iCut)
    (hm : ∀ k ∈ band args i, (m k).writes = 0) :
    Ok (fire blas build args) (args.jCut + 3) (.run (.iloop i)) (band args i) (band args i)
      (Done args (band args i)) m := by
  have hzero : ∀ m', Set.EqOn m m' (band args i) → ∀ k ∈ band args i, (m' k).writes = 0 :=
    fun m' hm' k hk => by
      rw [← hm' hk]
      exact hm k hk
  refine .of_run fun _ m' hm' => ⟨Set.eqOn_refl .., fun q hq => Option.some.inj hq ▸ rfl, ?_⟩
  refine .of_run fun _ m'' hm'' => ?_
  have hfire : fire blas build args (.jl i (tempA args i) false) () m'' =
      (m'', some (.wait args.jCut (.jl i (tempA args i) true)
        (.all ((List.range args.jCut).map fun j => .run (.mul i (tempA args i) j))))) :=
    if_neg (Nat.one_le_iff_ne_zero.mp h.jCut.1)
  rw [hfire]
  refine ⟨Set.eqOn_refl .., fun q hq => Option.some.inj hq ▸ rfl, ?_⟩
  have hbodies : ∀ j ∈ List.range args.jCut, Ok (fire blas build args) 1
      (.run (.mul i (tempA args i) j)) (block args i j) (block args i j)
      (Done args (block args i j)) m'' := fun j hj => by
    refine mul_ok h hlike hi (List.mem_range.mp hj) fun k hk => ?_
    exact hzero m'' (hm'.trans hm'') k (Set.mem_biUnion hj hk)
  have hloop := loop_ok (c := .jl i (tempA args i) true) h.jCut.1 (fun _ => rfl)
    (fun j hj j' hj' => block_disjoint hj hj') hbodies
  rw [Nat.mul_one] at hloop
  exact hloop

/-- **All of `mmTile`**, for a build that does what the MKL build does. -/
theorem mmTile_completes (h : args.Fits) (hlike : LikeMKL blas build args)
    (hm : ∀ k, (m k).writes = 0) :
    Completes (fire blas build args) mmTile m (args.iCut * (args.jCut + 3) + 2) (Multiplied args) := by
  have hok : Ok (fire blas build args) (args.iCut * (args.jCut + 3) + 2) mmTile
      (⋃ i ∈ List.range args.iCut, band args i) (⋃ i ∈ List.range args.iCut, band args i)
      (Done args (⋃ i ∈ List.range args.iCut, band args i)) m := by
    refine .of_run fun _ m' hm' => ⟨Set.eqOn_refl .., fun q hq => Option.some.inj hq ▸ rfl, ?_⟩
    refine loop_ok h.iCut.1 (fun _ => rfl) (fun i hi i' hi' => band_disjoint hi hi') fun i hi => ?_
    refine iloop_ok h hlike (List.mem_range.mp hi) fun k hk => ?_
    have hk' : m k = m' k := hm' (Set.mem_biUnion hi hk)
    exact (congrArg Entry.writes hk').symm.trans (hm k)
  refine (hok.completes rfl).imp fun m' hm' r hr s hs => ?_
  obtain ⟨hdiv, hmod⟩ := (index_eq_iff hs).mp rfl
  have hdone := hm'.1 _ (mem_band h hr hs)
  rwa [hdiv, hmod] at hdone

end MatrixMultiply

end Darts
