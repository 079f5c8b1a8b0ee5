import Darts.Lib.Sorting
import Darts.Mergesort.Program

/-!
# `quicksort` sorts

Whatever `rand` returns: the pivot only decides where the range is cut. `Parted` is the
invariant of the loop of `partition`, what is in front of `storeIndex` is not greater than
the pivot and what follows it, up to `i`, is greater.
-/

namespace Darts

namespace Mergesort

open Arrays Sorting

@[simp] theorem Ptr.add_inj {p : Ptr} {i j : Int} : p.add i = p.add j ↔ i = j := by
  simp [Ptr.add]

/-- The addresses of `p[lo], ..., p[lo + n - 1]`. -/
theorem Ptr.add_mem_cells {p : Ptr} {lo i : Int} {n : Nat} (h : lo ≤ i) (h' : i < lo + n) :
    p.add i ∈ cells p.1 (p.2 + lo) n :=
  ⟨rfl, by simp only [Ptr.add]; omega, by simp only [Ptr.add]; omega⟩

/-- The invariant of the loop of `partition`. -/
structure Parted (array : Ptr) (pivotValue left storeIndex i right : Int) (m : Memory) : Prop where
  small : ∀ k, left ≤ k → k < storeIndex → m (array.add k) ≤ pivotValue
  large : ∀ k, storeIndex ≤ k → k < i → pivotValue < m (array.add k)
  pivot : m (array.add right) = pivotValue

variable {array : Ptr} {pivotValue left storeIndex i right : Int} {m : Memory}

/-- A greater element stays where it is. -/
theorem Parted.skip (h : Parted array pivotValue left storeIndex i right m)
    (hi : pivotValue < m (array.add i)) : Parted array pivotValue left storeIndex (i + 1) right m :=
  { h with
    large := fun k hk hki => by
      rcases eq_or_lt_of_le (Int.lt_add_one_iff.mp hki) with rfl | hlt
      · exact hi
      · exact h.large k hk hlt }

/-- Another one changes places with the first greater one. -/
theorem Parted.take (h : Parted array pivotValue left storeIndex i right m) (hstore : storeIndex ≤ i)
    (hright : i < right) (hi : m (array.add i) ≤ pivotValue) :
    Parted array pivotValue left (storeIndex + 1) (i + 1) right
      (swap m (array.add i) (array.add storeIndex)) where
  small k hk hks := by
    rcases eq_or_lt_of_le (Int.lt_add_one_iff.mp hks) with rfl | hlt
    · rw [swap_right]
      exact hi
    · rw [swap_of_ne _ (by simp; omega) (by simp; omega)]
      exact h.small k hk hlt
  large k hk hki := by
    rcases eq_or_lt_of_le (Int.lt_add_one_iff.mp hki) with rfl | hlt
    · rw [swap_left]
      exact h.large storeIndex le_rfl (by omega)
    · rw [swap_of_ne _ (by simp; omega) (by simp; omega)]
      exact h.large k (by omega) hlt
  pivot := by
    rw [swap_of_ne _ (by simp; omega) (by simp; omega)]
    exact h.pivot

/-- The loop of `partition` keeps its invariant and only rearranges. -/
theorem partitionLoop_spec {N : Nat} (n : Nat) (h : Parted array pivotValue left storeIndex i right m)
    (hleft : left ≤ storeIndex) (hstore : storeIndex ≤ i) (hn : i + n = right)
    (hN : right + 1 = left + N) :
    Parted array pivotValue left (partitionLoop array pivotValue n i storeIndex m).2 right right
        (partitionLoop array pivotValue n i storeIndex m).1 ∧
      Rearranges array.1 (array.2 + left) N m (partitionLoop array pivotValue n i storeIndex m).1 := by
  induction n generalizing i storeIndex m with
  | zero =>
    obtain rfl : i = right := by omega
    exact ⟨h, .refl⟩
  | succ n ih =>
    unfold partitionLoop
    split
    next hsmall =>
      have hswap : Rearranges array.1 (array.2 + left) N m
          (swap m (array.add i) (array.add storeIndex)) :=
        .swap m (Ptr.add_mem_cells (by omega) (by omega)) (Ptr.add_mem_cells (by omega) (by omega))
      obtain ⟨hparted, hrest⟩ :=
        ih (h.take hstore (by omega) hsmall) (by omega) (by omega) (by omega)
      exact ⟨hparted, hswap.trans hrest⟩
    next hlarge => exact ih (h.skip (not_le.mp hlarge)) hleft (by omega) (by omega)

/-- `partition` puts the pivot in its place. -/
theorem partition_spec (array : Ptr) {N : Nat} {pivotIndex : Int} (h : left < right)
    (hpivot : left ≤ pivotIndex) (hpivot' : pivotIndex < right) (hN : right + 1 = left + N) (m : Memory) :
    Rearranges array.1 (array.2 + left) N m (partition array left right pivotIndex m).1 ∧
      (∀ k, left ≤ k → k < (partition array left right pivotIndex m).2 →
        (partition array left right pivotIndex m).1 (array.add k) ≤
          (partition array left right pivotIndex m).1
            (array.add (partition array left right pivotIndex m).2)) ∧
      ∀ k, (partition array left right pivotIndex m).2 < k → k ≤ right →
        (partition array left right pivotIndex m).1
            (array.add (partition array left right pivotIndex m).2) ≤
          (partition array left right pivotIndex m).1 (array.add k) := by
  have hmem : ∀ k, left ≤ k → k ≤ right → array.add k ∈ cells array.1 (array.2 + left) N :=
    fun k hk hk' => Ptr.add_mem_cells hk (by omega)
  have hstart : Parted array (m (array.add pivotIndex)) left left left right
      (swap m (array.add pivotIndex) (array.add right)) :=
    { small := fun k hk hk' => by omega
      large := fun k hk hk' => by omega
      pivot := swap_right .. }
  obtain ⟨hparted, hloop⟩ :=
    partitionLoop_spec (N := N) (right - left).toNat hstart le_rfl le_rfl (by omega) hN
  have hbounds := partition_bounds array h pivotIndex m
  unfold partition at hbounds ⊢
  simp only at hbounds ⊢
  generalize partitionLoop array (m (array.add pivotIndex)) (right - left).toNat left left
    (swap m (array.add pivotIndex) (array.add right)) = r at hparted hloop hbounds
  refine ⟨?_, fun k hk hks => ?_, fun k hk hkr => ?_⟩
  · refine ((Rearranges.swap m ?_ ?_).trans hloop).trans (.swap r.1 ?_ ?_)
    all_goals exact hmem _ (by omega) (by omega)
  · rw [swap_left, hparted.pivot, swap_of_ne _ (by simp; omega) (by simp; omega)]
    exact hparted.small k hk hks
  · rw [swap_left, hparted.pivot]
    rcases eq_or_lt_of_le hkr with rfl | hlt
    · rw [swap_right]
      exact (hparted.large r.2 le_rfl (by omega)).le
    · rw [swap_of_ne _ (by simp; omega) (by simp; omega)]
      exact (hparted.large k (by omega) hlt).le

/-- The pivot is never the last element. -/
theorem pivotIndex_bounds (h : left < right) (r : Nat) :
    left ≤ (r : Int).tmod (right - left) + left ∧ (r : Int).tmod (right - left) + left < right := by
  have h1 := Int.tmod_nonneg (right - left) (Int.natCast_nonneg r)
  have h2 := Int.tmod_lt_of_pos (r : Int) (by omega : 0 < right - left)
  omega

/-- Two calls on what is in front of the pivot and behind it sort the whole range. -/
theorem sorts_around_pivot (array : Ptr) {s : Int} {n₁ n₂ : Nat} {m q q' : Memory}
    (hs : s = left + n₁)
    (hsmall : ∀ k, left ≤ k → k < s → m (array.add k) ≤ m (array.add s))
    (hlarge : ∀ k, s < k → k ≤ s + n₂ → m (array.add s) ≤ m (array.add k))
    (hoff₁ : Set.EqOn m q (cells array.1 (array.2 + left) n₁)ᶜ)
    (hsorts₁ : Sorts (seg m array.1 (array.2 + left) n₁) (seg q array.1 (array.2 + left) n₁))
    (hoff₂ : Set.EqOn q q' (cells array.1 (array.2 + (s + 1)) n₂)ᶜ)
    (hsorts₂ : Sorts (seg q array.1 (array.2 + (s + 1)) n₂)
      (seg q' array.1 (array.2 + (s + 1)) n₂)) :
    Set.EqOn m q' (cells array.1 (array.2 + left) (n₁ + 1 + n₂))ᶜ ∧
      Sorts (seg m array.1 (array.2 + left) (n₁ + 1 + n₂))
        (seg q' array.1 (array.2 + left) (n₁ + 1 + n₂)) := by
  have hmid : array.2 + left + n₁ = array.2 + s := by omega
  have hbehind : array.2 + s + 1 = array.2 + (s + 1) := by omega
  -- each call leaves the range of the other one and the pivot alone
  have hseg₁ : seg q' array.1 (array.2 + left) n₁ = seg q array.1 (array.2 + left) n₁ := by
    refine (seg_congr (hoff₂.mono (Set.subset_compl_iff_disjoint_right.mpr ?_))).symm
    exact cells_disjoint (Or.inr (Or.inl (by omega)))
  have hseg₂ : seg q array.1 (array.2 + (s + 1)) n₂ = seg m array.1 (array.2 + (s + 1)) n₂ := by
    refine (seg_congr (hoff₁.mono (Set.subset_compl_iff_disjoint_right.mpr ?_))).symm
    exact cells_disjoint (Or.inr (Or.inr (by omega)))
  have hpivot : q' (array.1, array.2 + s) = m (array.1, array.2 + s) := by
    rw [← hoff₂ (fun hl => by have := hl.2.1; simp only at this; omega),
      ← hoff₁ (fun hl => by have := hl.2.2; simp only at this; omega)]
  constructor
  · refine (hoff₁.mono ?_).trans (hoff₂.mono ?_)
    · exact Set.compl_subset_compl.mpr (cells_subset le_rfl (by omega))
    · exact Set.compl_subset_compl.mpr (cells_subset (by omega) (by omega))
  · rw [seg_split, seg_split, hmid, hbehind, hpivot, hseg₁]
    rw [hseg₂] at hsorts₂
    refine hsorts₁.around hsorts₂ (forall_mem_seg.mpr fun k hk hk' => ?_)
      (forall_mem_seg.mpr fun k hk hk' => ?_)
    · have := hsmall (k - array.2) (by omega) (by omega)
      simpa [Ptr.add] using this
    · have := hlarge (k - array.2) (by omega) (by omega)
      simpa [Ptr.add] using this

/-- **`quicksort` sorts**, and does not touch what is outside of its range. -/
theorem quicksort_spec (array : Ptr) {n : Nat} (hn : right + 1 = left + n) (m : Memory) (rands : Rands) :
    Set.EqOn m (quicksort array left right m rands).1 (cells array.1 (array.2 + left) n)ᶜ ∧
      Sorts (seg m array.1 (array.2 + left) n)
        (seg (quicksort array left right m rands).1 array.1 (array.2 + left) n) := by
  induction n using Nat.strong_induction_on generalizing left right m rands with
  | _ n ih =>
    rw [quicksort]
    split
    next h =>
      have hpivot := pivotIndex_bounds h (rands 0)
      have hbounds := partition_bounds array h ((rands 0 : Int).tmod (right - left) + left) m
      obtain ⟨hrearr, hsmall, hlarge⟩ := partition_spec array h hpivot.1 hpivot.2 hn m
      simp only
      generalize partition array left right ((rands 0 : Int).tmod (right - left) + left) m = p
        at hbounds hrearr hsmall hlarge ⊢
      obtain ⟨m', s⟩ := p
      simp only at hbounds hrearr hsmall hlarge ⊢
      -- `n₁` elements in front of the pivot, `n₂` behind it
      obtain ⟨n₁, hn₁⟩ : ∃ n₁ : Nat, s = left + n₁ := ⟨(s - left).toNat, by omega⟩
      obtain ⟨n₂, hn₂⟩ : ∃ n₂ : Nat, right = s + n₂ := ⟨(right - s).toNat, by omega⟩
      obtain ⟨hoff₁, hsorts₁⟩ := ih n₁ (by omega) (show s - 1 + 1 = left + n₁ by omega) m'
        fun i => rands (i + 1)
      generalize quicksort array left (s - 1) m' (fun i => rands (i + 1)) = q at hoff₁ hsorts₁ ⊢
      obtain ⟨hoff₂, hsorts₂⟩ := ih n₂ (by omega) (show right + 1 = s + 1 + n₂ by omega) q.1 q.2
      generalize quicksort array (s + 1) right q.1 q.2 = q' at hoff₂ hsorts₂ ⊢
      obtain rfl : n = n₁ + 1 + n₂ := by omega
      obtain ⟨hoff, hsorts⟩ := sorts_around_pivot array hn₁ hsmall (hn₂ ▸ hlarge)
        hoff₁ hsorts₁ hoff₂ hsorts₂
      exact ⟨hrearr.off.trans hoff, hsorts.of_perm hrearr.perm⟩
    next h =>
      -- one element or none
      refine ⟨Set.eqOn_refl .., .refl (pairwise_seg.mpr fun i j hi hij hj => ?_)⟩
      omega

end Mergesort

end Darts
