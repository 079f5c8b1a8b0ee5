import Mathlib.Tactic.Ring
import Darts.FastMergesort.Merge

/-!
# `MergeSort` sorts

The arrays swap their roles at every level: a `MergeSort` sorts `src` and uses `dst`, its
two halves sort `dst` and use `src`, and the merge brings them back. What makes this work
is that both arrays hold the same when a range is handed down (`MergeSort.Holds`); what
is left in the scratch range is of no interest.

`qsort` is assumed to do what the C library says when the comparison is an order of the
elements. `intcmp` is, as long as no difference overflows.
-/

namespace Darts

namespace FastMergesort

open ForkJoin Arrays Sorting

/-- `cmp` orders the elements of `l`. -/
structure Consistent (cmp : Int → Int → Int) (l : List Int) : Prop where
  swap : ∀ x ∈ l, ∀ y ∈ l, 0 < cmp x y ↔ cmp y x < 0
  trans : ∀ x ∈ l, ∀ y ∈ l, ∀ z ∈ l, cmp x y ≤ 0 → cmp y z ≤ 0 → cmp x z ≤ 0

/-- What is relied on of the library function. -/
structure IsQsort (qsort : (Int → Int → Int) → List Int → List Int) : Prop where
  perm : ∀ cmp l, Consistent cmp l → (qsort cmp l).Perm l
  sorted : ∀ cmp l, Consistent cmp l → (qsort cmp l).Pairwise fun x y => cmp x y ≤ 0

/-- Every difference of two elements is an `int`. -/
def Representable (l : List Int) : Prop :=
  ∀ x ∈ l, ∀ y ∈ l, -2147483648 ≤ x - y ∧ x - y < 2147483648

theorem Representable.subset {l l' : List Int} (h : Representable l) (hsub : l' ⊆ l) :
    Representable l' :=
  fun x hx y hy => h x (hsub hx) y (hsub hy)

theorem intcmp_eq {l : List Int} (h : Representable l) {x y : Int} (hx : x ∈ l) (hy : y ∈ l) :
    intcmp x y = x - y :=
  int32_of_fits (h x hx y hy).1 (h x hx y hy).2

theorem intcmp_consistent {l : List Int} (h : Representable l) : Consistent intcmp l where
  swap x hx y hy := by
    rw [intcmp_eq h hx hy, intcmp_eq h hy hx]
    omega
  trans x hx y hy z hz := by
    rw [intcmp_eq h hx hy, intcmp_eq h hy hz, intcmp_eq h hx hz]
    omega

theorem qsort_sorts {qsort : (Int → Int → Int) → List Int → List Int} (hq : IsQsort qsort)
    {l : List Int} (h : Representable l) : Sorts l (qsort intcmp l) := by
  have hperm := hq.perm intcmp l (intcmp_consistent h)
  refine ⟨hperm, (hq.sorted intcmp l (intcmp_consistent h)).imp_of_mem fun {x y} hx hy hle => ?_⟩
  rw [intcmp_eq h (hperm.mem_iff.mp hx) (hperm.mem_iff.mp hy)] at hle
  omega

/-- The range of a frame holds the list `L`, in both arrays. -/
structure MergeSort.Holds (frame : MergeSort) (L : List Int) (m : Memory) : Prop where
  ne : frame.src ≠ frame.dst
  lo : 0 ≤ frame.lo
  hi : frame.hi + 1 = frame.lo + L.length
  fits : frame.hi < 1073741824
  pos : 0 < L.length
  source : seg m frame.src frame.lo L.length = L
  scratch : seg m frame.dst frame.lo L.length = L
  representable : Representable L

/-- What a `MergeSort` of `n` elements reads and writes. -/
def MergeSort.uses (frame : MergeSort) (n : Nat) : Set (Buf × Int) :=
  cells frame.src frame.lo n ∪ cells frame.dst frame.lo n

/-- What it leaves in its range of `src`. -/
def MergeSort.Sorted (frame : MergeSort) (L : List Int) (m : Memory) : Prop :=
  Sorts L (seg m frame.src frame.lo L.length)

variable {frame : MergeSort} {L : List Int} {m m' : Memory}

theorem MergeSort.Holds.congr (h : frame.Holds L m) (hm : Set.EqOn m m' (frame.uses L.length)) :
    frame.Holds L m' :=
  { h with
    source := by
      rw [← h.source, seg_length]
      exact (seg_congr (hm.mono Set.subset_union_left)).symm
    scratch := by
      rw [← h.scratch, seg_length]
      exact (seg_congr (hm.mono Set.subset_union_right)).symm }

/-- The frames that `MergeSortSplit` invokes. -/
def MergeSort.lower (frame : MergeSort) : MergeSort :=
  { src := frame.dst, lo := frame.lo, hi := mid frame.lo frame.hi, dst := frame.src }

def MergeSort.upper (frame : MergeSort) : MergeSort :=
  { src := frame.dst, lo := mid frame.lo frame.hi + 1, hi := frame.hi, dst := frame.src }

/-- The frame that `MergeSortSync` invokes. -/
def MergeSort.back (frame : MergeSort) : Merge :=
  { src := frame.dst, lo1 := frame.lo, hi1 := mid frame.lo frame.hi, lo2 := mid frame.lo frame.hi + 1
    hi2 := frame.hi, dst := frame.src, lo3 := frame.lo }

/-- A range of more than one element is cut into two that are not empty. -/
theorem MergeSort.Holds.halves (h : frame.Holds L m) (hlen : 1 < L.length) :
    ∃ L1 L2, L = L1 ++ L2 ∧ mid frame.lo frame.hi + 1 = frame.lo + L1.length ∧
      frame.lower.Holds L1 m ∧ frame.upper.Holds L2 m := by
  have hlo := h.lo
  have hhi := h.hi
  have hfits := h.fits
  obtain ⟨k, hk⟩ : ∃ k, k = (L.length - 1) / 2 + 1 := ⟨_, rfl⟩
  have hmid : mid frame.lo frame.hi + 1 = frame.lo + k := by
    rw [mid_eq hlo (by omega) (by omega)]
    omega
  have hsource := seg_append m frame.src frame.lo k (L.length - k)
  have hscratch := seg_append m frame.dst frame.lo k (L.length - k)
  rw [Nat.add_sub_cancel' (by omega : k ≤ L.length), ← hmid] at hsource hscratch
  rw [h.source] at hsource
  rw [h.scratch] at hscratch
  have heq : seg m frame.src frame.lo k ++ seg m frame.src (mid frame.lo frame.hi + 1) (L.length - k) =
      seg m frame.dst frame.lo k ++ seg m frame.dst (mid frame.lo frame.hi + 1) (L.length - k) :=
    hsource.symm.trans hscratch
  obtain ⟨heq1, heq2⟩ := List.append_inj heq (by simp)
  have hsub1 : seg m frame.dst frame.lo k ⊆ L := fun z hz =>
    (congrArg (z ∈ ·) hscratch).mpr (List.mem_append_left _ hz)
  have hsub2 : seg m frame.dst (mid frame.lo frame.hi + 1) (L.length - k) ⊆ L :=
    fun z hz => (congrArg (z ∈ ·) hscratch).mpr (List.mem_append_right _ hz)
  refine ⟨_, _, hscratch, by simpa using hmid, ?_, ?_⟩
  · exact
      { ne := h.ne.symm, lo := hlo, hi := by simpa [MergeSort.lower] using hmid
        fits := by simp only [MergeSort.lower]; omega
        pos := by simp; omega
        source := by simp [MergeSort.lower]
        scratch := by simpa [MergeSort.lower] using heq1
        representable := h.representable.subset hsub1 }
  · exact
      { ne := h.ne.symm, lo := by simp only [MergeSort.upper]; omega
        hi := by simp only [MergeSort.upper, seg_length]; omega
        fits := hfits
        pos := by simp; omega
        source := by simp [MergeSort.upper]
        scratch := by simpa [MergeSort.upper] using heq2
        representable := h.representable.subset hsub2 }

/-! ## The codelets -/

/-- `qsort` on a short range. -/
theorem qsortRange_sorts {G : Globals} (hqsort : IsQsort G.qsort) (h : frame.Holds L m) :
    Set.EqOn m (qsortRange G frame.src frame.lo L.length m) (frame.uses L.length)ᶜ ∧
      frame.Sorted L (qsortRange G frame.src frame.lo L.length m) := by
  have hsorts := qsort_sorts hqsort h.representable
  have hlen : (G.qsort intcmp L).length = L.length := hsorts.perm.length_eq
  have hoff := store_off m frame.src frame.lo (G.qsort intcmp L)
  have hseg := seg_store m frame.src frame.lo (G.qsort intcmp L)
  rw [hlen] at hoff hseg
  unfold qsortRange MergeSort.Sorted
  rw [h.source]
  refine ⟨hoff.mono (Set.compl_subset_compl.mpr Set.subset_union_left), ?_⟩
  rw [hseg]
  exact hsorts

/-- Sorted halves are what the merge back needs. -/
theorem MergeSort.Holds.back {L1 L2 L1' L2' : List Int} (h : frame.Holds (L1 ++ L2) m)
    (hmid : mid frame.lo frame.hi + 1 = frame.lo + L1.length)
    (h1 : seg m' frame.dst frame.lo L1.length = L1')
    (h2 : seg m' frame.dst (mid frame.lo frame.hi + 1) L2.length = L2')
    (hsorts1 : Sorts L1 L1') (hsorts2 : Sorts L2 L2') : frame.back.Holds L1' L2' m' := by
  have hlo := h.lo
  have hhi := h.hi
  have hfits := h.fits
  rw [List.length_append] at hhi
  have hlen1 : L1'.length = L1.length := hsorts1.perm.length_eq
  have hlen2 : L2'.length = L2.length := hsorts2.perm.length_eq
  exact
    { ne := h.ne.symm
      lo1 := hlo
      hi1 := by simp only [MergeSort.back]; omega
      fits1 := by simp only [MergeSort.back]; omega
      lo2 := by simp only [MergeSort.back]; omega
      hi2 := by simp only [MergeSort.back]; omega
      fits2 := hfits
      first := by rw [hlen1]; exact h1
      second := by rw [hlen2]; exact h2
      sorted1 := hsorts1.sorted
      sorted2 := hsorts2.sorted }

/-- It works on the range of the frame. -/
theorem MergeSort.back_uses {n1 : Nat} (hmid : mid frame.lo frame.hi + 1 = frame.lo + n1)
    (n2 : Nat) : frame.back.reads n1 n2 ⊆ frame.uses (n1 + n2) ∧
      frame.back.writes n1 n2 ⊆ frame.uses (n1 + n2) := by
  refine ⟨Set.union_subset ?_ ?_, Set.subset_union_left⟩
  · exact (cells_subset le_rfl (by simp only [MergeSort.back]; omega)).trans Set.subset_union_right
  · exact (cells_subset (by simp only [MergeSort.back]; omega)
      (by simp only [MergeSort.back]; omega)).trans Set.subset_union_right

/-- When both halves are sorted in `dst`, `MergeSortSync` has them merged back. -/
theorem mergeSortSync_ok {G : Globals} (hcut : 1 ≤ G.CUTOFF_MERGE) {L1 L2 : List Int}
    (h : frame.Holds (L1 ++ L2) m) (hmid : mid frame.lo frame.hi + 1 = frame.lo + L1.length)
    (h1 : frame.lower.Sorted L1 m') (h2 : frame.upper.Sorted L2 m') :
    Ok (fire G) (3 * (L1 ++ L2).length + 1 + 1) (.run (.mergeSortSync frame))
      (frame.uses (L1 ++ L2).length) (frame.uses (L1 ++ L2).length) (frame.Sorted (L1 ++ L2)) m' := by
  rw [List.length_append]
  unfold MergeSort.Sorted at h1 h2
  simp only [MergeSort.lower] at h1
  simp only [MergeSort.upper] at h2
  refine .of_run fun _ m'' hm'' => ⟨Set.eqOn_refl .., fun q hq => Option.some.inj hq ▸ rfl, ?_⟩
  -- what it finds in `dst` has not been touched
  have hseg1 : seg m' frame.dst frame.lo L1.length = seg m'' frame.dst frame.lo L1.length := by
    refine seg_congr (hm''.mono ?_)
    exact (cells_subset le_rfl (by omega)).trans Set.subset_union_right
  have hseg2 : seg m' frame.dst (mid frame.lo frame.hi + 1) L2.length =
      seg m'' frame.dst (mid frame.lo frame.hi + 1) L2.length := by
    refine seg_congr (hm''.mono ?_)
    exact (cells_subset (by omega) (by omega)).trans Set.subset_union_right
  rw [hseg1] at h1
  rw [hseg2] at h2
  generalize hL1' : seg m'' frame.dst frame.lo L1.length = L1' at h1
  generalize hL2' : seg m'' frame.dst (mid frame.lo frame.hi + 1) L2.length = L2' at h2
  have hlen1 : L1'.length = L1.length := h1.perm.length_eq
  have hlen2 : L2'.length = L2.length := h2.perm.length_eq
  have hok := merge_ok hcut (L1.length + L2.length) (h.back hmid hL1' hL2' h1 h2) (by omega)
  rw [hlen1, hlen2] at hok
  obtain ⟨hreads, hwrites⟩ := MergeSort.back_uses hmid L2.length
  refine hok.weaken (Set.union_subset hreads hwrites) hwrites fun m₃ hm₃ => ?_
  unfold Merge.Merged at hm₃
  unfold MergeSort.Sorted
  rw [hlen1, hlen2] at hm₃
  rw [List.length_append]
  exact hm₃.of_parts h1 h2

/-- The halves use disjoint ranges, both inside the range of the frame. -/
theorem MergeSort.halves_uses {n1 : Nat} (hmid : mid frame.lo frame.hi + 1 = frame.lo + n1)
    (n2 : Nat) :
    frame.lower.uses n1 ⊆ frame.uses (n1 + n2) ∧ frame.upper.uses n2 ⊆ frame.uses (n1 + n2) ∧
      Disjoint (frame.lower.uses n1) (frame.upper.uses n2) := by
  simp only [MergeSort.uses, MergeSort.lower, MergeSort.upper]
  have hapart : ∀ x y : Buf,
      Disjoint (cells x frame.lo n1) (cells y (mid frame.lo frame.hi + 1) n2) := by
    intro x y
    exact cells_disjoint (Or.inr (Or.inl (by omega)))
  refine ⟨?_, ?_, ?_⟩
  · rw [Set.union_comm]
    exact Set.union_subset_union (cells_subset le_rfl (by omega)) (cells_subset le_rfl (by omega))
  · rw [Set.union_comm]
    exact Set.union_subset_union (cells_subset (by omega) (by omega))
      (cells_subset (by omega) (by omega))
  · exact Set.disjoint_union_left.mpr
      ⟨Set.disjoint_union_right.mpr ⟨hapart _ _, hapart _ _⟩,
        Set.disjoint_union_right.mpr ⟨hapart _ _, hapart _ _⟩⟩

/-! ## The whole sort -/

/-- `MergeSortSplit` on a short range. -/
theorem mergeSortSplitFire_short {G : Globals} (h : frame.Holds L m)
    (hlen : (L.length : Int) ≤ G.CUTOFF_SORT) :
    mergeSortSplitFire G frame m = (qsortRange G frame.src frame.lo L.length m, none) := by
  have hhi := h.hi
  unfold mergeSortSplitFire
  simp only
  rw [if_pos (by omega), show (frame.hi - frame.lo + 1).toNat = L.length by omega]

/-- And on a longer one. -/
theorem mergeSortSplitFire_long {G : Globals} (h : frame.Holds L m)
    (hlen : G.CUTOFF_SORT < (L.length : Int)) :
    mergeSortSplitFire G frame m = (m, some (.wait 2 (.mergeSortSync frame)
      (.par frame.lower.invoke frame.upper.invoke))) := by
  have hhi := h.hi
  unfold mergeSortSplitFire
  simp only
  rw [if_neg (by omega)]
  rfl

/-- Five times the square of the length is enough for the halves, the merge and the two codelets
of the frame itself. -/
theorem codelets_le {n1 n2 : Nat} (h1 : 0 < n1) (h2 : 0 < n2) :
    5 * (n1 * n1) + 5 * (n2 * n2) + (3 * (n1 + n2) + 1 + 1) + 1 ≤
      5 * ((n1 + n2) * (n1 + n2)) := by
  have hexpand : (n1 + n2) * (n1 + n2) = n1 * n1 + n2 * n2 + 2 * (n1 * n2) := by ring
  -- a product is not smaller than the sum less one
  have hsum : n1 + n2 ≤ n1 * n2 + 1 := by
    obtain ⟨i, rfl⟩ := Nat.exists_eq_add_of_lt h1
    obtain ⟨j, rfl⟩ := Nat.exists_eq_add_of_lt h2
    ring_nf
    omega
  have hpos : 0 < n1 * n2 := Nat.mul_pos h1 h2
  rw [hexpand]
  omega

/-- **`MergeSort` sorts**: one induction over the number of elements. -/
theorem sort_ok {G : Globals} (hqsort : IsQsort G.qsort) (hsort : 1 ≤ G.CUTOFF_SORT)
    (hmerge : 1 ≤ G.CUTOFF_MERGE) (n : Nat) {frame : MergeSort} {L : List Int} {m : Memory}
    (h : frame.Holds L m) (hn : L.length = n) :
    Ok (fire G) (5 * (n * n)) frame.invoke (frame.uses n) (frame.uses n) (frame.Sorted L) m := by
  induction n using Nat.strong_induction_on generalizing frame L m with
  | _ n ih =>
    subst hn
    have hsquare : 1 ≤ L.length * L.length := Nat.mul_pos h.pos h.pos
    obtain ⟨k, hk⟩ : ∃ k, 5 * (L.length * L.length) = k + 1 :=
      ⟨_, (Nat.succ_pred_eq_of_pos (by omega)).symm⟩
    rw [hk]
    refine .of_run fun _ m' hm' => ?_
    have hheld := h.congr hm'
    by_cases hlen : (L.length : Int) ≤ G.CUTOFF_SORT
    · -- sorted at once
      obtain ⟨hoff, hsorted⟩ := qsortRange_sorts hqsort hheld
      simp only [fire, mergeSortSplitFire_short hheld hlen]
      refine ⟨hoff, (fun q hq => by cases hq), .done fun m'' hm'' => ?_⟩
      unfold MergeSort.Sorted at hsorted ⊢
      rwa [← seg_congr (hm''.mono Set.subset_union_left)]
    · -- the halves on the swapped arrays, and then the merge back
      have hfire := mergeSortSplitFire_long hheld (not_le.mp hlen)
      obtain ⟨L1, L2, rfl, hmid, hlower, hupper⟩ := hheld.halves (by omega)
      have hpos1 := hlower.pos
      have hpos2 := hupper.pos
      rw [List.length_append] at hk ⊢
      obtain ⟨huses1, huses2, hapart⟩ := MergeSort.halves_uses hmid L2.length
      have hok1 := ih L1.length (by simp; omega) hlower rfl
      have hok2 := ih L2.length (by simp; omega) hupper rfl
      simp only [fire, hfire]
      refine ⟨Set.eqOn_refl .., fun q hq => Option.some.inj hq ▸ rfl, ?_⟩
      have hsync := fun m'' (hm'' : frame.lower.Sorted L1 m'' ∧ frame.upper.Sorted L2 m'') =>
        mergeSortSync_ok hmerge hheld hmid hm''.1 hm''.2
      rw [List.length_append] at hsync
      have hcount := codelets_le hpos1 hpos2
      exact .wait rfl (by decide) (.par hapart hapart.symm huses1 huses2 huses1 huses2 hok1 hok2
        (fun m'' _ h1 h2 => ⟨h1, h2⟩) le_rfl) hsync (by omega)

/-- **`MergeSort` on `a`, with an equal `b`, sorts `a`**: whatever the cutoffs and the order in
which the codelets run, `final` is signalled exactly once, and then `a` is sorted. -/
theorem mergeSort_sorts {G : Globals} (hqsort : IsQsort G.qsort) (hsort : 1 ≤ G.CUTOFF_SORT)
    (hmerge : 1 ≤ G.CUTOFF_MERGE) {N : Nat} (hN : 1 ≤ N) (hN' : N ≤ 2 ^ 30) {m : Memory}
    (hrep : Representable (seg m .a 0 N)) (hcopy : seg m .b 0 N = seg m .a 0 N) :
    Completes (fire G) (MergeSort.invoke { src := .a, lo := 0, hi := N - 1, dst := .b }) m
      (5 * (N * N)) fun m' => Sorts (seg m .a 0 N) (seg m' .a 0 N) := by
  have hholds : MergeSort.Holds { src := .a, lo := 0, hi := N - 1, dst := .b } (seg m .a 0 N) m :=
    { ne := fun h => by cases h
      lo := le_rfl
      hi := by simp
      fits := by simp only; omega
      pos := by rw [seg_length]; exact hN
      source := by rw [seg_length]
      scratch := by rw [seg_length]; exact hcopy
      representable := hrep }
  have hok := sort_ok hqsort hsort hmerge N hholds (seg_length ..)
  refine (hok.completes rfl).imp fun m' hm' => ?_
  have hsorted := hm'.1
  unfold MergeSort.Sorted at hsorted
  rwa [seg_length] at hsorted

/-- A `qsort`. -/
def listQsort (cmp : Int → Int → Int) (l : List Int) : List Int :=
  (l.attach.mergeSort fun x y => decide (cmp x.1 y.1 ≤ 0)).map Subtype.val

theorem listQsort_isQsort : IsQsort listQsort where
  perm cmp l _ := by
    have hperm := (List.mergeSort_perm l.attach fun x y => decide (cmp x.1 y.1 ≤ 0)).map Subtype.val
    rwa [List.attach_map_subtype_val] at hperm
  sorted cmp l h := by
    refine List.pairwise_map.mpr ?_
    refine (List.pairwise_mergeSort ?_ ?_ l.attach).imp fun hle => of_decide_eq_true hle
    · intro x y z hxy hyz
      exact decide_eq_true (h.trans x x.2 y y.2 z z.2 (of_decide_eq_true hxy) (of_decide_eq_true hyz))
    · intro x y
      have hswap := h.swap x x.2 y y.2
      simp only [Bool.or_eq_true, decide_eq_true_eq]
      omega

/-- Three elements, down to single ones. -/
theorem mergeSort_sorts_three :
    Completes (fire { CUTOFF_SORT := 1, CUTOFF_MERGE := 1, qsort := listQsort })
      (MergeSort.invoke { src := .a, lo := 0, hi := 2, dst := .b })
      (fun l => if l.2 = 0 then 2 else if l.2 = 1 then 0 else 1) 45
      fun m' => Sorts [2, 0, 1] (seg m' .a 0 3) :=
  mergeSort_sorts (G := { CUTOFF_SORT := 1, CUTOFF_MERGE := 1, qsort := listQsort })
    (N := 3) (m := fun l => if l.2 = 0 then 2 else if l.2 = 1 then 0 else 1)
    listQsort_isQsort le_rfl le_rfl (by decide) (by decide)
    (by simp [Representable, seg, List.range_succ]) (by decide)

end FastMergesort

end Darts
