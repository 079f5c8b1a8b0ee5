import Darts.FastMergesort.Program
import Darts.Lib.ForkJoinLogic
import Darts.Lib.Sorting

/-!
# `Merge` merges

The invariant of a `Merge` is what its frame says about the two ranges of `src`: they hold
sorted lists `L1` and `L2` (`Merge.Holds`). `merge_ok` shows by induction on the number of
elements that the process of the frame writes `L1 ++ L2`, sorted, to its range of `dst`,
and nothing else.
-/

namespace Darts

namespace FastMergesort

open ForkJoin Arrays Sorting

theorem int32_of_fits {v : Int} (h : -2147483648 ≤ v) (h' : v < 2147483648) : int32 v = v := by
  unfold int32
  omega

theorem int32_le {v : Int} (h : 0 ≤ v) : int32 v ≤ v := by
  unfold int32
  omega

theorem mid_eq {lo hi : Int} (hlo : 0 ≤ lo) (hhi : 0 ≤ hi) (h : lo + hi < 2147483648) :
    mid lo hi = (lo + hi) / 2 := by
  unfold mid
  rw [int32_of_fits (by omega) h, Int.tdiv_eq_ediv_of_nonneg (by omega)]

/-- `merge` stores the merged lists. -/
theorem merge_eq {src dst : Buf} (hne : src ≠ dst) (lo1 hi1 lo2 hi2 lo3 : Int) (m : Memory) :
    merge src lo1 hi1 lo2 hi2 dst lo3 m = store m dst lo3
      (mergeLt (seg m src lo1 (hi1 + 1 - lo1).toNat) (seg m src lo2 (hi2 + 1 - lo2).toNat)) := by
  have hsrc : ∀ (m : Memory) (lo3 v lo : Int) (n : Nat),
      seg (Function.update m (dst, lo3) v) src lo n = seg m src lo n := fun m lo3 v lo n =>
    seg_update (fun h => hne (mem_cells.mp h).1.symm) v
  fun_induction merge src lo1 hi1 lo2 hi2 dst lo3 m with
  | case1 lo1 lo2 lo3 m hboth hlt ih =>
    obtain ⟨n1, hn1⟩ : ∃ n1, (hi1 + 1 - lo1).toNat = n1 + 1 := ⟨(hi1 - lo1).toNat, by omega⟩
    obtain ⟨n2, hn2⟩ : ∃ n2, (hi2 + 1 - lo2).toNat = n2 + 1 := ⟨(hi2 - lo2).toNat, by omega⟩
    have hnext : (hi1 + 1 - (lo1 + 1)).toNat = n1 := by omega
    rw [ih, hsrc, hsrc, hnext, hn1, hn2, seg_succ, seg_succ, mergeLt_cons_lt hlt]
    rfl
  | case2 lo1 lo2 lo3 m hboth hge ih =>
    obtain ⟨n1, hn1⟩ : ∃ n1, (hi1 + 1 - lo1).toNat = n1 + 1 := ⟨(hi1 - lo1).toNat, by omega⟩
    obtain ⟨n2, hn2⟩ : ∃ n2, (hi2 + 1 - lo2).toNat = n2 + 1 := ⟨(hi2 - lo2).toNat, by omega⟩
    have hnext : (hi2 + 1 - (lo2 + 1)).toNat = n2 := by omega
    rw [ih, hsrc, hsrc, hnext, hn1, hn2, seg_succ, seg_succ, mergeLt_cons_ge hge]
    rfl
  | case3 lo1 lo2 lo3 m hboth h1 ih =>
    obtain ⟨n1, hn1⟩ : ∃ n1, (hi1 + 1 - lo1).toNat = n1 + 1 := ⟨(hi1 - lo1).toNat, by omega⟩
    have hn2 : (hi2 + 1 - lo2).toNat = 0 := by omega
    have hnext : (hi1 + 1 - (lo1 + 1)).toNat = n1 := by omega
    rw [ih, hsrc, hsrc, hnext, hn1, hn2, seg_succ]
    simp only [seg_zero, mergeLt_nil_right]
    rfl
  | case4 lo1 lo2 lo3 m hboth h1 h2 ih =>
    have hn1 : (hi1 + 1 - lo1).toNat = 0 := by omega
    obtain ⟨n2, hn2⟩ : ∃ n2, (hi2 + 1 - lo2).toNat = n2 + 1 := ⟨(hi2 - lo2).toNat, by omega⟩
    have hnext : (hi2 + 1 - (lo2 + 1)).toNat = n2 := by omega
    rw [ih, hsrc, hsrc, hnext, hn1, hn2, seg_succ]
    simp only [seg_zero, mergeLt_nil_left]
    rfl
  | case5 lo1 lo2 lo3 m hboth h1 h2 =>
    have hn1 : (hi1 + 1 - lo1).toNat = 0 := by omega
    have hn2 : (hi2 + 1 - lo2).toNat = 0 := by omega
    rw [hn1, hn2, seg_zero, seg_zero, mergeLt_nil_left]
    rfl

/-- `bin_search` stays in the range, sorted or not. -/
theorem binSearchLoop_bounds (m : Memory) (src : Buf) (elem : Int) (fuel : Nat) {lo hi : Int}
    (hlo : 0 ≤ lo) (hle : lo ≤ hi) (hhi : hi ≤ 1073741824) :
    lo ≤ binSearchLoop m src elem fuel lo hi ∧ binSearchLoop m src elem fuel lo hi ≤ hi := by
  induction fuel generalizing lo hi with
  | zero => exact ⟨hle, le_rfl⟩
  | succ fuel ih =>
    unfold binSearchLoop
    by_cases hlt : lo < hi
    · rw [if_pos hlt]
      have hmid : mid lo hi = (lo + hi) / 2 := mid_eq hlo (by omega) (by omega)
      have hin : lo ≤ mid lo hi ∧ mid lo hi < hi := by omega
      split
      next =>
        obtain ⟨h1, h2⟩ := ih (by omega : 0 ≤ mid lo hi + 1) (by omega) hhi
        exact ⟨by omega, h2⟩
      next =>
        obtain ⟨h1, h2⟩ := ih hlo hin.1 (by omega)
        exact ⟨h1, by omega⟩
    · rw [if_neg hlt]
      exact ⟨hle, le_rfl⟩

theorem binSearch_eq {m : Memory} {src : Buf} {lo hi : Int} (elem : Int) (h : lo ≤ hi + 1) :
    binSearch m src lo hi elem = binSearchLoop m src elem (hi + 1 - lo).toNat lo (hi + 1) := by
  unfold binSearch
  rw [if_neg (by omega)]

/-- The loop of `bin_search` cuts a sorted range in front of the first element that is not
smaller. -/
theorem binSearchLoop_spec {m : Memory} {src : Buf} (elem : Int) (fuel : Nat) (lo hi : Int)
    (hlo : 0 ≤ lo) (hle : lo ≤ hi) (hhi : hi ≤ 1073741824) (hfuel : hi - lo ≤ fuel)
    (hsorted : ∀ i j, lo ≤ i → i < j → j < hi → m (src, i) ≤ m (src, j)) :
    (∀ i, lo ≤ i → i < binSearchLoop m src elem fuel lo hi → m (src, i) < elem) ∧
      ∀ i, binSearchLoop m src elem fuel lo hi ≤ i → i < hi → elem ≤ m (src, i) := by
  induction fuel generalizing lo hi with
  | zero =>
    obtain rfl : lo = hi := by omega
    exact ⟨fun i h1 h2 => by simp only [binSearchLoop] at h2; omega,
      fun i h1 h2 => by simp only [binSearchLoop] at h1; omega⟩
  | succ fuel ih =>
    unfold binSearchLoop
    by_cases hlt : lo < hi
    · rw [if_pos hlt]
      have hmid : mid lo hi = (lo + hi) / 2 := mid_eq hlo (by omega) (by omega)
      have hin : lo ≤ mid lo hi ∧ mid lo hi < hi := by omega
      generalize mid lo hi = mid at hin
      split
      next hsmall =>
        -- everything up to `mid` is smaller, too
        obtain ⟨h3, h4⟩ := ih (mid + 1) hi (by omega) (by omega) hhi (by omega)
          fun i j hi' => hsorted i j (by omega)
        refine ⟨fun i hi' hr => ?_, h4⟩
        rcases lt_trichotomy i mid with hbefore | rfl | hbehind
        · exact (hsorted i mid hi' hbefore hin.2).trans_lt hsmall
        · exact hsmall
        · exact h3 i (by omega) hr
      next hlarge =>
        obtain ⟨h3, h4⟩ := ih lo mid hlo hin.1 (by omega) (by omega)
          fun i j hi' hij hj => hsorted i j hi' hij (by omega)
        refine ⟨h3, fun i hr hi' => ?_⟩
        rcases lt_trichotomy i mid with hbefore | rfl | hbehind
        · exact h4 i hr hbefore
        · exact not_lt.mp hlarge
        · exact (not_lt.mp hlarge).trans (hsorted mid i hin.1 hbehind hi')
    · rw [if_neg hlt]
      exact ⟨fun i h1 h2 => by omega, fun i h1 h2 => by omega⟩

/-- `bin_search` on a sorted range of `n` elements. -/
theorem binSearch_spec {m : Memory} {src : Buf} {lo hi : Int} (elem : Int) {n : Nat} (hlo : 0 ≤ lo)
    (hn : hi + 1 = lo + n) (hhi : hi < 1073741824) (hsorted : (seg m src lo n).Pairwise (· ≤ ·)) :
    ∃ j ≤ n, binSearch m src lo hi elem = lo + j ∧ (∀ a ∈ seg m src lo j, a < elem) ∧
      ∀ b ∈ seg m src (lo + j) (n - j), elem ≤ b := by
  obtain ⟨h1, h2⟩ := binSearchLoop_bounds m src elem (hi + 1 - lo).toNat hlo
    (by omega : lo ≤ hi + 1) (by omega)
  obtain ⟨h3, h4⟩ := binSearchLoop_spec elem (hi + 1 - lo).toNat lo (hi + 1) hlo (by omega)
    (by omega) (by omega) fun i j hi hij hj => pairwise_seg.mp hsorted i j hi hij (by omega)
  rw [← binSearch_eq elem (by omega)] at h1 h2 h3 h4
  refine ⟨(binSearch m src lo hi elem - lo).toNat, by omega, by omega, ?_, ?_⟩
  · exact forall_mem_seg.mpr fun i hi hij => h3 i hi (by omega)
  · exact forall_mem_seg.mpr fun i hi hij => h4 i (by omega) (by omega)

/-- The ranges of a frame hold the lists `L1` and `L2`, both sorted. -/
structure Merge.Holds (frame : Merge) (L1 L2 : List Int) (m : Memory) : Prop where
  ne : frame.src ≠ frame.dst
  lo1 : 0 ≤ frame.lo1
  hi1 : frame.hi1 + 1 = frame.lo1 + L1.length
  fits1 : frame.hi1 < 1073741824
  lo2 : 0 ≤ frame.lo2
  hi2 : frame.hi2 + 1 = frame.lo2 + L2.length
  fits2 : frame.hi2 < 1073741824
  first : seg m frame.src frame.lo1 L1.length = L1
  second : seg m frame.src frame.lo2 L2.length = L2
  sorted1 : L1.Pairwise (· ≤ ·)
  sorted2 : L2.Pairwise (· ≤ ·)

/-- What a merge of `n1` and `n2` elements reads, and what it writes. -/
def Merge.reads (frame : Merge) (n1 n2 : Nat) : Set (Buf × Int) :=
  cells frame.src frame.lo1 n1 ∪ cells frame.src frame.lo2 n2

def Merge.writes (frame : Merge) (n1 n2 : Nat) : Set (Buf × Int) :=
  cells frame.dst frame.lo3 (n1 + n2)

/-- What a merge leaves in its range of `dst`. -/
def Merge.Merged (frame : Merge) (L1 L2 : List Int) (m : Memory) : Prop :=
  Sorts (L1 ++ L2) (seg m frame.dst frame.lo3 (L1.length + L2.length))

variable {frame : Merge} {L1 L2 : List Int} {m m' : Memory}

namespace Merge

/-- The invariant depends only on what the merge reads. -/
theorem Holds.congr (h : frame.Holds L1 L2 m)
    (hm : Set.EqOn m m' (frame.reads L1.length L2.length)) : frame.Holds L1 L2 m' :=
  { h with
    first := by
      rw [← h.first, seg_length]
      exact (seg_congr (hm.mono Set.subset_union_left)).symm
    second := by
      rw [← h.second, seg_length]
      exact (seg_congr (hm.mono Set.subset_union_right)).symm }

theorem Merged.congr (h : frame.Merged L1 L2 m)
    (hm : Set.EqOn m m' (frame.writes L1.length L2.length)) : frame.Merged L1 L2 m' := by
  unfold Merged at h ⊢
  rwa [← seg_congr hm]

/-- A merge does not write what it reads. -/
theorem Holds.disjoint (h : frame.Holds L1 L2 m) (n1 n2 k1 k2 : Nat) :
    Disjoint (frame.writes n1 n2) (frame.reads k1 k2) :=
  Set.disjoint_union_right.mpr
    ⟨cells_disjoint (Or.inl h.ne.symm), cells_disjoint (Or.inl h.ne.symm)⟩

/-! ## One `MergeSplit` -/

/-- After the swap the first range is the longer one; for the result it does not matter. -/
theorem Holds.swap (h : frame.Holds L1 L2 m) :
    ∃ L1' L2', frame.swap.Holds L1' L2' m ∧ (L1' ++ L2').Perm (L1 ++ L2) ∧
      L2'.length ≤ L1'.length ∧ frame.swap.dst = frame.dst ∧ frame.swap.lo3 = frame.lo3 ∧
      frame.swap.reads L1'.length L2'.length = frame.reads L1.length L2.length := by
  have hlen1 : frame.len1 = L1.length := by have := h.hi1; unfold len1; omega
  have hlen2 : frame.len2 = L2.length := by have := h.hi2; unfold len2; omega
  unfold Merge.swap
  by_cases hlt : frame.len1 < frame.len2
  · rw [if_pos hlt]
    exact ⟨L2, L1, { ne := h.ne, lo1 := h.lo2, hi1 := h.hi2, fits1 := h.fits2, lo2 := h.lo1
                     hi2 := h.hi1, fits2 := h.fits1, first := h.second, second := h.first
                     sorted1 := h.sorted2, sorted2 := h.sorted1 },
      List.perm_append_comm, by omega, rfl, rfl, Set.union_comm ..⟩
  · rw [if_neg hlt]
    exact ⟨L1, L2, h, .refl _, by omega, rfl, rfl, rfl⟩

/-- A pair of ranges is cut around the middle `x` of the first: what is not greater than `x`
comes before it, what is not smaller behind it. -/
theorem Holds.cut (h : frame.Holds L1 L2 m) (hpos : 0 < L1.length) :
    ∃ A1 x B1 A2 B2, L1 = A1 ++ x :: B1 ∧ L2 = A2 ++ B2 ∧
      mid frame.lo1 frame.hi1 = frame.lo1 + A1.length ∧
      m (frame.src, mid frame.lo1 frame.hi1) = x ∧
      binSearch m frame.src frame.lo2 frame.hi2 x = frame.lo2 + A2.length ∧
      (∀ a ∈ A1 ++ A2, a ≤ x) ∧ ∀ b ∈ B1 ++ B2, x ≤ b := by
  have hlo1 := h.lo1
  have hhi1 := h.hi1
  have hfits1 := h.fits1
  -- the middle of the first range
  obtain ⟨k, hk⟩ : ∃ k, k = (L1.length - 1) / 2 := ⟨_, rfl⟩
  have hmid : mid frame.lo1 frame.hi1 = frame.lo1 + k := by
    rw [mid_eq hlo1 (by omega) (by omega)]
    omega
  have hsplit1 := seg_split m frame.src frame.lo1 k (L1.length - k - 1)
  rw [show k + 1 + (L1.length - k - 1) = L1.length by omega, h.first] at hsplit1
  -- where it belongs in the second
  obtain ⟨j, hj, hsearch, hsmall, hlarge⟩ := binSearch_spec (m (frame.src, frame.lo1 + k))
    h.lo2 h.hi2 h.fits2 (h.second.symm ▸ h.sorted2)
  have hsplit2 := seg_append m frame.src frame.lo2 j (L2.length - j)
  rw [Nat.add_sub_cancel' hj, h.second] at hsplit2
  have hfirst := h.sorted1
  rw [hsplit1] at hfirst
  obtain ⟨-, hxB, hAx⟩ := List.pairwise_append.mp hfirst
  refine ⟨_, _, _, _, _, hsplit1, hsplit2, ?_, ?_, ?_, fun a ha => ?_, fun b hb => ?_⟩
  · rw [seg_length, hmid]
  · rw [hmid]
  · rw [seg_length, hsearch]
  · rcases List.mem_append.mp ha with ha | ha
    · exact hAx a ha _ (List.mem_cons_self ..)
    · exact (hsmall a ha).le
  · rcases List.mem_append.mp hb with hb | hb
    · exact (List.pairwise_cons.mp hxB).1 b hb
    · exact hlarge b hb

/-- The frames that `MergeSplit` invokes: the part of the two ranges in front of the middle and
the part behind it. -/
def before (frame : Merge) (mid1 mid2 : Int) : Merge :=
  { frame with hi1 := mid1 - 1, hi2 := mid2 - 1 }

def behind (frame : Merge) (mid1 mid2 mid3 : Int) : Merge :=
  { frame with lo1 := mid1 + 1, lo2 := mid2, lo3 := mid3 + 1 }

variable {A1 B1 A2 B2 : List Int} {x : Int}

theorem Holds.before (h : frame.Holds (A1 ++ x :: B1) (A2 ++ B2) m) :
    (frame.before (frame.lo1 + A1.length) (frame.lo2 + A2.length)).Holds A1 A2 m := by
  have hfirst := h.first
  have hsecond := h.second
  have hhi1 := h.hi1
  have hhi2 := h.hi2
  have hfits1 := h.fits1
  have hfits2 := h.fits2
  rw [List.length_append, List.length_cons] at hhi1
  rw [List.length_append] at hhi2
  rw [List.length_append, seg_append] at hfirst hsecond
  exact
    { ne := h.ne, lo1 := h.lo1, lo2 := h.lo2
      hi1 := by simp [Merge.before], hi2 := by simp [Merge.before]
      fits1 := by simp only [Merge.before]; omega
      fits2 := by simp only [Merge.before]; omega
      first := (List.append_inj hfirst (seg_length ..)).1
      second := (List.append_inj hsecond (seg_length ..)).1
      sorted1 := (List.pairwise_append.mp h.sorted1).1
      sorted2 := (List.pairwise_append.mp h.sorted2).1 }

theorem Holds.behind (h : frame.Holds (A1 ++ x :: B1) (A2 ++ B2) m) (mid3 : Int) :
    (frame.behind (frame.lo1 + A1.length) (frame.lo2 + A2.length) mid3).Holds B1 B2 m := by
  have hfirst := h.first
  have hsecond := h.second
  have hlo1 := h.lo1
  have hlo2 := h.lo2
  have hhi1 := h.hi1
  have hhi2 := h.hi2
  rw [List.length_append, List.length_cons] at hhi1
  rw [List.length_append] at hhi2
  rw [List.length_append, seg_append] at hfirst hsecond
  have htail := (List.append_inj hfirst (seg_length ..)).2
  rw [List.length_cons, seg_succ] at htail
  exact
    { ne := h.ne
      lo1 := by simp only [Merge.behind]; omega
      lo2 := by simp only [Merge.behind]; omega
      hi1 := by simp only [Merge.behind]; omega
      hi2 := by simp only [Merge.behind]; omega
      fits1 := h.fits1, fits2 := h.fits2
      first := (List.cons.inj htail).2
      second := (List.append_inj hsecond (seg_length ..)).2
      sorted1 := (List.pairwise_cons.mp (List.pairwise_append.mp h.sorted1).2.1).2
      sorted2 := (List.pairwise_append.mp h.sorted2).2.1 }

end Merge

/-- `MergeSplit` on short ranges. -/
theorem mergeSplitFire_short {G : Globals} (h : frame.Holds L1 L2 m)
    (hlen : int32 (L1.length + L2.length) ≤ G.CUTOFF_MERGE) :
    ∃ vs, mergeSplitFire G frame m = (store m frame.dst frame.lo3 vs, none) ∧
      Sorts (L1 ++ L2) vs := by
  obtain ⟨L1', L2', h', hperm, hle, hdst, hlo3, -⟩ := h.swap
  have hn : L1'.length + L2'.length = L1.length + L2.length := by
    simpa using hperm.length_eq
  have hhi1 := h'.hi1
  have hhi2 := h'.hi2
  have hsorts := (mergeLt_sorts h'.sorted1 h'.sorted2).of_perm hperm
  have hsum : frame.swap.hi1 - frame.swap.lo1 + 1 + (frame.swap.hi2 - frame.swap.lo2 + 1) =
      (L1.length + L2.length : Int) := by omega
  unfold mergeSplitFire
  simp only
  rw [if_pos (hsum ▸ hlen)]
  by_cases hzero : frame.swap.hi1 - frame.swap.lo1 + 1 = 0
  · -- both are empty
    obtain rfl : L1' = [] := List.eq_nil_of_length_eq_zero (by omega)
    obtain rfl : L2' = [] := List.eq_nil_of_length_eq_zero (by simpa using hle)
    exact ⟨[], by simp [hzero, store], by simpa using hsorts⟩
  · rw [if_pos hzero, merge_eq h'.ne, hdst, hlo3]
    refine ⟨_, rfl, ?_⟩
    rwa [show (frame.swap.hi1 + 1 - frame.swap.lo1).toNat = L1'.length by omega,
      show (frame.swap.hi2 + 1 - frame.swap.lo2).toNat = L2'.length by omega, h'.first, h'.second]

/-- What `MergeSplit` does with longer ranges: `x` is put between what the two frames are to
merge. -/
structure Merge.Split (frame before behind : Merge) (L1 L2 A1 A2 B1 B2 : List Int) (x : Int)
    (m : Memory) : Prop where
  perm : ((A1 ++ A2) ++ x :: (B1 ++ B2)).Perm (L1 ++ L2)
  small : ∀ a ∈ A1 ++ A2, a ≤ x
  large : ∀ b ∈ B1 ++ B2, x ≤ b
  holdsBefore : before.Holds A1 A2 m
  holdsBehind : behind.Holds B1 B2 m
  dst : before.dst = frame.dst ∧ behind.dst = frame.dst
  lo3 : before.lo3 = frame.lo3 ∧ behind.lo3 = frame.lo3 + (A1.length + A2.length : Nat) + 1
  reads : before.reads A1.length A2.length ⊆ frame.reads L1.length L2.length ∧
    behind.reads B1.length B2.length ⊆ frame.reads L1.length L2.length

theorem mergeSplitFire_long {G : Globals} (hcut : 1 ≤ G.CUTOFF_MERGE) (h : frame.Holds L1 L2 m)
    (hlen : G.CUTOFF_MERGE < int32 (L1.length + L2.length)) :
    ∃ before behind A1 A2 B1 B2 x, mergeSplitFire G frame m =
        (Function.update m (frame.dst, frame.lo3 + (A1.length + A2.length : Nat)) x,
          some (.wait 2 (.mergeSync frame) (.par before.invoke behind.invoke))) ∧
      frame.Split before behind L1 L2 A1 A2 B1 B2 x
        (Function.update m (frame.dst, frame.lo3 + (A1.length + A2.length : Nat)) x) := by
  obtain ⟨L1', L2', h', hperm, hle, hdst, hlo3, hreads⟩ := h.swap
  have hn : L1'.length + L2'.length = L1.length + L2.length := by
    simpa using hperm.length_eq
  have hcount : int32 (L1.length + L2.length) ≤ (L1.length + L2.length : Int) :=
    int32_le (by omega)
  obtain ⟨A1, x, B1, A2, B2, rfl, rfl, hmid, hx, hsearch, hsmall, hlarge⟩ := h'.cut (by omega)
  have hhi1 := h'.hi1
  have hhi2 := h'.hi2
  have hmid3 : frame.swap.lo3 + (mid frame.swap.lo1 frame.swap.hi1 - frame.swap.lo1) +
      (frame.swap.lo2 + A2.length - frame.swap.lo2) =
        frame.lo3 + (A1.length + A2.length : Nat) := by
    rw [hmid, hlo3]
    omega
  -- the write to `dst` leaves `src` as it is
  have hsrc : (frame.dst, frame.lo3 + (A1.length + A2.length : Nat)) ∉
      frame.swap.reads (A1 ++ x :: B1).length (A2 ++ B2).length := by
    intro hl
    have heq : frame.dst = frame.swap.src := hl.elim (fun h => h.1) (fun h => h.1)
    exact h'.ne (heq.symm.trans hdst.symm)
  have hm := h'.congr (update_off m hsrc x)
  refine ⟨frame.swap.before (frame.swap.lo1 + A1.length) (frame.swap.lo2 + A2.length),
    frame.swap.behind (frame.swap.lo1 + A1.length) (frame.swap.lo2 + A2.length)
      (frame.lo3 + (A1.length + A2.length : Nat)), A1, A2, B1, B2, x, ?_, ?_⟩
  · have hsum : frame.swap.hi1 - frame.swap.lo1 + 1 + (frame.swap.hi2 - frame.swap.lo2 + 1) =
        (L1.length + L2.length : Int) := by omega
    unfold mergeSplitFire
    simp only
    rw [if_neg (hsum ▸ not_le.mpr hlen), hx, hsearch, hmid3, hmid]
    simp only [Merge.before, Merge.behind, hdst]
  · exact
      { perm := by
          refine List.Perm.trans ?_ hperm
          rw [List.append_assoc, List.append_assoc]
          refine List.Perm.append_left A1 ?_
          refine List.perm_middle.trans ?_
          rw [List.cons_append]
          refine List.Perm.cons x ?_
          rw [← List.append_assoc, ← List.append_assoc]
          exact List.perm_append_comm.append_right B2
        small := hsmall, large := hlarge
        holdsBefore := hm.before, holdsBehind := hm.behind _
        dst := ⟨hdst, hdst⟩, lo3 := ⟨hlo3, rfl⟩
        reads := by
          rw [← hreads]
          simp only [List.length_append, List.length_cons, Merge.reads, Merge.before, Merge.behind]
          constructor
          · exact Set.union_subset_union (cells_subset le_rfl (by omega))
              (cells_subset le_rfl (by omega))
          · exact Set.union_subset_union (cells_subset (by omega) (by omega))
              (cells_subset (by omega) (by omega)) }

/-! ## The parts of a merge -/

namespace Merge.Split

variable {before behind : Merge} {A1 A2 B1 B2 : List Int} {x : Int}

theorem length (h : frame.Split before behind L1 L2 A1 A2 B1 B2 x m) :
    L1.length + L2.length = A1.length + A2.length + 1 + (B1.length + B2.length) := by
  have hlen := h.perm.length_eq
  simp only [List.length_append, List.length_cons] at hlen
  omega

theorem writes_before (h : frame.Split before behind L1 L2 A1 A2 B1 B2 x m) :
    before.writes A1.length A2.length = cells frame.dst frame.lo3 (A1.length + A2.length) := by
  unfold Merge.writes
  rw [h.dst.1, h.lo3.1]

theorem writes_behind (h : frame.Split before behind L1 L2 A1 A2 B1 B2 x m) :
    behind.writes B1.length B2.length =
      cells frame.dst (frame.lo3 + (A1.length + A2.length : Nat) + 1) (B1.length + B2.length) := by
  unfold Merge.writes
  rw [h.dst.2, h.lo3.2]

theorem writes_subset (h : frame.Split before behind L1 L2 A1 A2 B1 B2 x m) :
    before.writes A1.length A2.length ⊆ frame.writes L1.length L2.length ∧
      behind.writes B1.length B2.length ⊆ frame.writes L1.length L2.length := by
  have hlen := h.length
  rw [h.writes_before, h.writes_behind]
  exact ⟨cells_subset le_rfl (by omega), cells_subset (by omega) (by omega)⟩

/-- The two frames write different parts, with the place of `x` between them. -/
theorem writes_disjoint (h : frame.Split before behind L1 L2 A1 A2 B1 B2 x m) :
    Disjoint (before.writes A1.length A2.length) (behind.writes B1.length B2.length) := by
  rw [h.writes_before, h.writes_behind]
  exact cells_disjoint (Or.inr (Or.inl (by omega)))

theorem middle_mem (h : frame.Split before behind L1 L2 A1 A2 B1 B2 x m) :
    (frame.dst, frame.lo3 + (A1.length + A2.length : Nat)) ∈ frame.writes L1.length L2.length := by
  have hlen := h.length
  exact ⟨rfl, by simp only; omega, by simp only; omega⟩

theorem middle_notMem (h : frame.Split before behind L1 L2 A1 A2 B1 B2 x m) :
    (frame.dst, frame.lo3 + (A1.length + A2.length : Nat)) ∉
      before.writes A1.length A2.length ∪ behind.writes B1.length B2.length := by
  rw [h.writes_before, h.writes_behind]
  intro hl
  rcases hl with hl | hl
  · have hlt := hl.2.2
    simp only at hlt
    omega
  · have hle := hl.2.1
    simp only at hle
    omega

/-- The results of the two frames and `x` between them are the result. -/
theorem merged (h : frame.Split before behind L1 L2 A1 A2 B1 B2 x m) (hb : before.Merged A1 A2 m')
    (hh : behind.Merged B1 B2 m')
    (hx : m' (frame.dst, frame.lo3 + (A1.length + A2.length : Nat)) = x) : frame.Merged L1 L2 m' := by
  unfold Merge.Merged at hb hh ⊢
  rw [h.dst.1, h.lo3.1] at hb
  rw [h.dst.2, h.lo3.2] at hh
  rw [h.length, seg_split, hx]
  exact (hb.around hh h.small h.large).of_perm h.perm

end Merge.Split

/-! ## The whole merge -/

/-- The last codelet of a merge only signals. -/
theorem mergeSync_ok {G : Globals} {S : Set (Buf × Int)} (hS : frame.writes L1.length L2.length ⊆ S)
    (hm : frame.Merged L1 L2 m) : Ok (fire G) 1 (.run (.mergeSync frame)) S
      (frame.writes L1.length L2.length) (frame.Merged L1 L2) m := by
  refine .of_run fun _ m' h => ⟨Set.eqOn_refl .., (fun q hq => by cases hq), ?_⟩
  exact .done fun m'' h' => hm.congr ((h.trans h').mono hS)

/-- **`Merge` merges**: one induction over the number of elements. -/
theorem merge_ok {G : Globals} (hcut : 1 ≤ G.CUTOFF_MERGE) (n : Nat) {frame : Merge}
    {L1 L2 : List Int} {m : Memory} (h : frame.Holds L1 L2 m) (hn : L1.length + L2.length = n) :
    Ok (fire G) (3 * n + 1) frame.invoke
      (frame.reads L1.length L2.length ∪ frame.writes L1.length L2.length)
      (frame.writes L1.length L2.length) (frame.Merged L1 L2) m := by
  induction n using Nat.strong_induction_on generalizing frame L1 L2 m with
  | _ n ih =>
    refine .of_run fun _ m' hm' => ?_
    have hheld := h.congr (hm'.mono Set.subset_union_left)
    by_cases hlen : int32 (L1.length + L2.length) ≤ G.CUTOFF_MERGE
    · -- merged at once
      obtain ⟨vs, hfire, hsorts⟩ := mergeSplitFire_short hheld hlen
      have hvs : vs.length = L1.length + L2.length := by simpa using hsorts.perm.length_eq
      have hoff := store_off m' frame.dst frame.lo3 vs
      rw [hvs] at hoff
      simp only [fire, hfire]
      refine ⟨hoff, (fun q hq => by cases hq), .done fun m'' hm'' => ?_⟩
      refine Merge.Merged.congr ?_ (hm''.mono Set.subset_union_right)
      unfold Merge.Merged
      rw [← hvs, seg_store]
      exact hsorts
    · obtain ⟨before, behind, A1, A2, B1, B2, x, hfire, hsplit⟩ :=
        mergeSplitFire_long hcut hheld (not_le.mp hlen)
      have hcount := hsplit.length
      simp only [fire, hfire]
      obtain ⟨hbefore, hbehind⟩ := hsplit.writes_subset
      have hapart := hsplit.writes_disjoint
      -- neither frame writes what the other one reads, for that is all in `src`
      have hreads := h.disjoint L1.length L2.length L1.length L2.length
      have hmiddle : (frame.dst, frame.lo3 + (A1.length + A2.length : Nat)) ∉
          (frame.writes L1.length L2.length)ᶜ := fun hno => hno hsplit.middle_mem
      refine ⟨update_off m' hmiddle x, fun q hq => Option.some.inj hq ▸ rfl, ?_⟩
      have hok1 := ih (A1.length + A2.length) (by omega) hsplit.holdsBefore rfl
      have hok2 := ih (B1.length + B2.length) (by omega) hsplit.holdsBehind rfl
      refine .wait rfl (by decide) (.par ?_ ?_ (Set.union_subset_union hsplit.reads.1 hbefore)
        (Set.union_subset_union hsplit.reads.2 hbehind) hbefore hbehind hok1 hok2
        (fun m'' hm'' hb hh => hsplit.merged hb hh ?_) le_rfl)
        (fun m'' hm'' => mergeSync_ok Set.subset_union_right hm'') (by omega)
      · exact Set.disjoint_union_right.mpr
          ⟨hreads.mono hbefore hsplit.reads.2, hapart⟩
      · exact Set.disjoint_union_right.mpr
          ⟨hreads.mono hbehind hsplit.reads.1, hapart.symm⟩
      · -- `x` is still where `MergeSplit` has put it
        rw [← hm'' ⟨Or.inr hsplit.middle_mem, hsplit.middle_notMem⟩, Function.update_self]

end FastMergesort

end Darts
