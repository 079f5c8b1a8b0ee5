import Darts.Lib.ForkJoinLogic
import Darts.Mergesort.Quicksort
import Darts.Mergesort.Unrolled

/-!
# `mergeSort` computes `outcome`

Every process here works on a range of each of the two arrays and leaves its result in one
of them. `join_ok` is the step from two processes to the `merge` that waits for them; the
three levels of `mergeBase` and the recursion of `mergeSort` are put together from it.
What is left in the end depends neither on the order of the codelets nor on the pivots.
-/

namespace Darts

namespace Mergesort

open ForkJoin Arrays Sorting Transition

/-- `p[0], ..., p[n - 1]`. -/
def Ptr.content (p : Ptr) (n : Nat) (m : Memory) : List Int := seg m p.1 p.2 n

def Ptr.cells (p : Ptr) (n : Nat) : Set (Buf × Int) := Arrays.cells p.1 p.2 n

/-- What a process on two ranges of `n` elements reads and writes. -/
def uses (p q : Ptr) (n : Nat) : Set (Buf × Int) := p.cells n ∪ q.cells n

variable {p q P Q R : Ptr} {n n₁ n₂ : Nat} {m m' : Memory}

@[simp] theorem Ptr.add_zero (p : Ptr) : p.add 0 = p := by simp [Ptr.add]

theorem Ptr.add_add (p : Ptr) (i j : Int) : (p.add i).add j = p.add (i + j) := by
  simp [Ptr.add, Int.add_assoc]

@[simp] theorem Ptr.content_length (p : Ptr) (n : Nat) (m : Memory) : (p.content n m).length = n :=
  seg_length ..

@[simp] theorem Ptr.content_zero (p : Ptr) (m : Memory) : p.content 0 m = [] := rfl

theorem Ptr.content_add (p : Ptr) (n₁ n₂ : Nat) (m : Memory) :
    p.content (n₁ + n₂) m = p.content n₁ m ++ (p.add n₁).content n₂ m :=
  seg_append ..

theorem Ptr.content_congr (h : Set.EqOn m m' (p.cells n)) : p.content n m = p.content n m' :=
  seg_congr h

theorem uses_comm (p q : Ptr) (n : Nat) : uses p q n = uses q p n := Set.union_comm ..

theorem uses_lower (p q : Ptr) (n₁ n₂ : Nat) : uses p q n₁ ⊆ uses p q (n₁ + n₂) :=
  Set.union_subset_union (cells_subset le_rfl (by omega)) (cells_subset le_rfl (by omega))

theorem uses_upper (p q : Ptr) (n₁ n₂ : Nat) : uses (p.add n₁) (q.add n₁) n₂ ⊆ uses p q (n₁ + n₂) :=
  Set.union_subset_union (cells_subset (by simp [Ptr.add]) (by simp only [Ptr.add]; omega))
    (cells_subset (by simp [Ptr.add]) (by simp only [Ptr.add]; omega))

theorem uses_apart (h : p.1 ≠ q.1) (n₁ n₂ : Nat) :
    Disjoint (uses p q n₁) (uses (p.add n₁) (q.add n₁) n₂) := by
  have hbehind : ∀ r : Ptr, Disjoint (r.cells n₁) ((r.add n₁).cells n₂) := fun r =>
    cells_disjoint (Or.inr (Or.inl (by simp [Ptr.add])))
  exact Set.disjoint_union_left.mpr
    ⟨Set.disjoint_union_right.mpr ⟨hbehind p, cells_disjoint (Or.inl h)⟩,
      Set.disjoint_union_right.mpr ⟨cells_disjoint (Or.inl h.symm), hbehind q⟩⟩

/-! ## The codelets -/

/-- The loop of a merge stores the merged rests of the two halves. -/
theorem mergeLoop_eq (h : P.1 ≠ Q.1) (length n i j k : Nat) (m : Memory) (hj : j ≤ length / 2)
    (hk : length / 2 ≤ k) (hkl : k ≤ length) (hn : n = length / 2 - j + (length - k)) :
    mergeLoop P Q length n i j k m = store m Q.1 (Q.2 + i)
      (mergeLt ((P.add j).content (length / 2 - j) m) ((P.add k).content (length - k) m)) := by
  -- the writes do not reach what is read
  have hsrc : ∀ (m : Memory) (i j n : Nat) (v : Int), (P.add j).content n
      (Function.update m (Q.add i) v) = (P.add j).content n m := fun m i j n v =>
    seg_update (l := Q.add i) (fun hl => h (mem_cells.mp hl).1.symm) v
  have hcons : ∀ (m : Memory) (j n : Nat), (P.add j).content (n + 1) m =
      m (P.add j) :: (P.add (j + 1 : Nat)).content n m := fun m j n => by
    simp only [Ptr.content, Ptr.add]
    rw [seg_succ, Int.add_assoc]
    rfl
  have hlo : ∀ i : Nat, Q.2 + ((i + 1 : Nat) : Int) = Q.2 + i + 1 := fun i => by omega
  induction n generalizing i j k m with
  | zero =>
    obtain rfl : k = length := by omega
    obtain rfl : j = k / 2 := by omega
    simp [mergeLoop, Ptr.content, store]
  | succ n ih =>
    unfold mergeLoop
    by_cases hfirst : j < length / 2
    · obtain ⟨a, ha⟩ : ∃ a, length / 2 - j = a + 1 := ⟨length / 2 - j - 1, by omega⟩
      have ha' : length / 2 - (j + 1) = a := by omega
      by_cases hsecond : k < length
      · obtain ⟨b, hb⟩ : ∃ b, length - k = b + 1 := ⟨length - k - 1, by omega⟩
        have hb' : length - (k + 1) = b := by omega
        rw [if_pos ⟨hfirst, hsecond⟩, ha, hb, hcons m j, hcons m k]
        split
        next hlt =>
          rw [ih _ _ _ _ (by omega) hk hkl (by omega), hlo, ha', hb, hsrc,
            hsrc, hcons m k, mergeLt_cons_lt hlt]
          rfl
        next hge =>
          rw [ih _ _ _ _ hj (by omega) (by omega) (by omega), hlo, ha, hb', hsrc,
            hsrc, hcons m j, mergeLt_cons_ge hge]
          rfl
      · have hb : length - k = 0 := by omega
        rw [if_neg (fun hboth => hsecond hboth.2), if_pos hfirst,
          ih _ _ _ _ (by omega) hk hkl (by omega), hlo, ha, ha', hb, hsrc, hcons m j,
          Ptr.content_zero, Ptr.content_zero, mergeLt_nil_right, mergeLt_nil_right]
        rfl
    · have ha : length / 2 - j = 0 := by omega
      obtain ⟨b, hb⟩ : ∃ b, length - k = b + 1 := ⟨length - k - 1, by omega⟩
      have hb' : length - (k + 1) = b := by omega
      rw [if_neg (fun hboth => hfirst hboth.1), if_neg hfirst, if_pos (by omega),
        ih _ _ _ _ hj (by omega) (by omega) (by omega), hlo, ha, hb, hb', hcons m k,
        Ptr.content_zero, Ptr.content_zero, mergeLt_nil_left, mergeLt_nil_left, hsrc]
      rfl

/-- `merge` stores the merged halves. -/
theorem merge_eq (h : P.1 ≠ Q.1) (n : Nat) (m : Memory) :
    merge P Q n m = store m Q.1 Q.2 (mergeHalves (P.content n m)) := by
  unfold merge mergeHalves
  rw [mergeLoop_eq h n n 0 0 (n / 2) m (Nat.zero_le _) le_rfl (Nat.div_le_self ..) (by omega),
    Ptr.content_length]
  have htake : (P.content n m).take (n / 2) = P.content (n / 2) m :=
    seg_take m P.1 P.2 (Nat.div_le_self n 2)
  have hdrop : (P.content n m).drop (n / 2) = (P.add (n / 2 : Nat)).content (n - n / 2) m :=
    seg_drop m P.1 P.2 (Nat.div_le_self n 2)
  rw [htake, hdrop]
  simp

/-- A codelet that sorts a range in place. -/
theorem quick_ok {c : Codelet} {array : Ptr} {left right : Int}
    (hfire : ∀ rands m, fire c rands m = ((quicksort array left right m rands).1, none))
    (hP : P = array.add left) (hn : right + 1 = left + n) (Q : Ptr) (m : Memory) :
    Ok fire 1 (.run c) (uses P Q n) (uses P Q n) (fun m' => P.content n m' = sort (P.content n m)) m := by
  subst hP
  refine .of_run fun rands m' hm' => ?_
  obtain ⟨hoff, hsorts⟩ := quicksort_spec array hn m' rands
  have hcontent := Ptr.content_congr (hm'.mono Set.subset_union_left)
  rw [hfire]
  refine ⟨hoff.mono (Set.compl_subset_compl.mpr Set.subset_union_left), (fun q hq => by cases hq),
    .done fun m'' hm'' => ?_⟩
  rw [← Ptr.content_congr (hm''.mono Set.subset_union_left), hcontent]
  exact hsorts.eq_sort

/-- A codelet that merges from `P` to `Q`. -/
theorem merge_ok {c : Codelet} {xs : List Int} (hfire : ∀ rands m, fire c rands m = (merge P Q n m, none))
    (h : P.1 ≠ Q.1) (hm : P.content n m = xs) :
    Ok fire 1 (.run c) (uses P Q n) (uses P Q n) (fun m' => Q.content n m' = mergeHalves xs) m := by
  refine .of_run fun rands m' hm' => ?_
  have hcontent := Ptr.content_congr (hm'.mono Set.subset_union_left)
  have hlen : (mergeHalves xs).length = n := by
    rw [(mergeHalves_perm xs).length_eq, ← hm, Ptr.content_length]
  have hoff := store_off m' Q.1 Q.2 (mergeHalves xs)
  have hstore := seg_store m' Q.1 Q.2 (mergeHalves xs)
  rw [hlen] at hoff hstore
  rw [hfire, merge_eq h, ← hcontent, hm]
  refine ⟨hoff.mono (Set.compl_subset_compl.mpr Set.subset_union_right), (fun q hq => by cases hq),
    .done fun m'' hm'' => ?_⟩
  rw [← Ptr.content_congr (hm''.mono Set.subset_union_right)]
  exact hstore

variable {p₁ p₂ : Proc Codelet} {k k₁ k₂ : Nat} {xs ys : List Int}

/-- Two processes that leave their results side by side in `P`, and the codelet that waits for
both and merges to `Q`. -/
theorem join_ok {c : Codelet} (hfire : ∀ rands m, fire c rands m = (merge P Q n m, none))
    (h : P.1 ≠ Q.1) (hn : n = n₁ + n₂) (hsig₁ : p₁.signals = 1) (hsig₂ : p₂.signals = 1)
    (hok₁ : Ok fire k₁ p₁ (uses P Q n₁) (uses P Q n₁) (fun m' => P.content n₁ m' = xs) m)
    (hok₂ : Ok fire k₂ p₂ (uses (P.add n₁) (Q.add n₁) n₂) (uses (P.add n₁) (Q.add n₁) n₂)
      (fun m' => (P.add n₁).content n₂ m' = ys) m) :
    Ok fire (k₁ + k₂ + 1) (.wait 2 c (.par p₁ p₂)) (uses P Q n) (uses P Q n)
      (fun m' => Q.content n m' = mergeHalves (xs ++ ys)) m := by
  subst hn
  have hapart := uses_apart h n₁ n₂
  have hsub₁ := uses_lower P Q n₁ n₂
  have hsub₂ := uses_upper P Q n₁ n₂
  have hsig : 2 = (Proc.par p₁ p₂).signals := by simp only [Proc.signals, hsig₁, hsig₂]
  have hboth : Ok fire (k₁ + k₂) (.par p₁ p₂) (uses P Q (n₁ + n₂)) (uses P Q (n₁ + n₂))
      (fun m' => P.content (n₁ + n₂) m' = xs ++ ys) m := by
    refine .par hapart hapart.symm hsub₁ hsub₂ hsub₁ hsub₂ hok₁ hok₂ (fun m' _ hxs hys => ?_) le_rfl
    rw [Ptr.content_add, hxs, hys]
  exact .wait hsig (by decide) hboth (fun m' hm' => merge_ok hfire h hm') le_rfl

/-! ## `mergeBase` -/

/-- A process of `mergeBase` with `k` levels of merges: it sorts the runs that it finds in `R`
and leaves in `P` what they are merged to. -/
def Unrolls (div k cost : Nat) (p : Proc Codelet) (P Q R : Ptr) (n : Nat) (m : Memory) : Prop :=
  p.signals = 1 ∧ Ok fire cost p (uses P Q n) (uses P Q n)
    (fun m' => P.content n m' = unrolled div k (R.content n m)) m

/-- One run. -/
theorem Unrolls.quick {IN : Ptr} {left right : Int} (div : Nat) (hP : P = IN.add left)
    (hn : right + 1 = left + n) (Q : Ptr) (m : Memory) :
    Unrolls div 0 1 (.run (.mergeBaseQuick IN left right)) P Q P n m :=
  ⟨rfl, quick_ok (fun _ _ => rfl) hP hn Q m⟩

/-- One more level. -/
theorem Unrolls.merge {div : Nat} {P' Q' R' : Ptr} (h₁ : Unrolls div k k₁ p₁ P Q R n₁ m)
    (h₂ : Unrolls div k k₂ p₂ P' Q' R' n₂ m) (h : P.1 ≠ Q.1) (hP : P' = P.add n₁) (hQ : Q' = Q.add n₁)
    (hR : R' = R.add n₁) (hn₁ : n₁ = 2 ^ k * div) (hn : n = n₁ + n₂) :
    Unrolls div (k + 1) (k₁ + k₂ + 1) (.wait 2 (.mergeBaseMerge P Q n) (.par p₁ p₂)) Q P R n m := by
  subst hP hQ hR
  refine ⟨rfl, ?_⟩
  have hok := join_ok (c := .mergeBaseMerge P Q n) (fun _ _ => rfl) h hn h₁.1 h₂.1 h₁.2 h₂.2
  have htake : (R.content n m).take n₁ = R.content n₁ m := seg_take m R.1 R.2 (by omega)
  have hdrop : (R.content n m).drop n₁ = (R.add n₁).content n₂ m := by
    have hdrop := seg_drop m R.1 R.2 (show n₁ ≤ n by omega)
    rwa [show n - n₁ = n₂ by omega] at hdrop
  unfold unrolled
  rw [← hn₁, htake, hdrop, uses_comm Q P]
  exact hok

/-- The fifteen codelets. -/
theorem mergeBase_ok (IN OUT : Ptr) (h : IN.1 ≠ OUT.1) (SIZE : Nat) (m : Memory) :
    (mergeBase IN OUT SIZE).signals = 1 ∧
      Ok fire 15 (mergeBase IN OUT SIZE) (uses OUT IN SIZE) (uses OUT IN SIZE)
        (fun m' => OUT.content SIZE m' = unrolled (SIZE / 8) 3 (IN.content SIZE m)) m := by
  have hsize := Nat.div_add_mod SIZE 8
  unfold mergeBase
  simp only
  generalize SIZE / 8 = div at hsize ⊢
  generalize SIZE % 8 = last at hsize ⊢
  have hptr : ∀ (p : Ptr) {i j l : Int}, l = i + j → p.add l = (p.add i).add j := fun p _ _ _ h => by
    rw [Ptr.add_add, h]
  -- two runs at `a`, four of them, and all eight
  have hpair : ∀ (a : Int) (n : Nat) (l r l' r' : Int), l = a → r + 1 = a + div → l' = a + div →
      r' + 1 = a + n → div ≤ n → Unrolls div 1 3 (.wait 2 (.mergeBaseMerge (IN.add a) (OUT.add a) n)
        (.par (.run (.mergeBaseQuick IN l r)) (.run (.mergeBaseQuick IN l' r'))))
        (OUT.add a) (IN.add a) (IN.add a) n m := by
    intro a n l r l' r' hl hr hl' hr' hle
    have h₁ : Unrolls div 0 1 (.run (.mergeBaseQuick IN l r)) (IN.add a) (OUT.add a) (IN.add a) div m :=
      .quick div (by rw [hl]) (by omega) _ m
    have h₂ : Unrolls div 0 1 (.run (.mergeBaseQuick IN l' r')) (IN.add l') (OUT.add l') (IN.add l')
        (n - div) m := .quick div rfl (by omega) _ m
    exact h₁.merge h₂ h (hptr IN hl') (hptr OUT hl') (hptr IN hl') (by simp) (by omega)
  have h01 := hpair 0 (div * 2) 0 (div - 1) div (2 * div - 1) rfl (by omega) (by omega) (by omega)
    (by omega)
  have h23 := hpair (div * 2) (div * 2) (2 * div) (3 * div - 1) (3 * div) (4 * div - 1) (by omega)
    (by omega) (by omega) (by omega) (by omega)
  have h45 := hpair (2 * div * 2) (div * 2) (4 * div) (5 * div - 1) (5 * div) (6 * div - 1)
    (by omega) (by omega) (by omega) (by omega) (by omega)
  have h67 := hpair (3 * div * 2) (div * 2 + last) (6 * div) (7 * div - 1) (7 * div)
    (8 * div - 1 + last) (by omega) (by omega) (by omega) (by omega) (by omega)
  have h03 := h01.merge (n := div * 4) h23 h.symm (hptr OUT (by omega)) (hptr IN (by omega))
    (hptr IN (by omega)) (by omega) (by omega)
  have h47 := h45.merge (n := div * 4 + last) h67 h.symm (hptr OUT (by omega)) (hptr IN (by omega))
    (hptr IN (by omega)) (by omega) (by omega)
  have h07 := h03.merge (n := SIZE) h47 h (hptr IN (by omega)) (hptr OUT (by omega))
    (hptr IN (by omega)) (by omega) (by omega)
  rw [show (div : Int) * 4 = 2 * div * 2 by omega]
  simpa only [Unrolls, Ptr.add_zero] using h07

/-! ## `mergeSort` -/

/-- Both ranges of a `mergeSort` hold the same list. -/
structure MergeSort.Holds (frame : MergeSort) (xs : List Int) (m : Memory) : Prop where
  ne : frame.IN.1 ≠ frame.OUT.1
  size : xs.length = frame.size
  source : frame.IN.content frame.size m = xs
  copy : frame.OUT.content frame.size m = xs

variable {frame : MergeSort}

theorem MergeSort.Holds.congr (h : frame.Holds xs m)
    (hm : Set.EqOn m m' (uses frame.IN frame.OUT frame.size)) : frame.Holds xs m' :=
  { h with
    source := (Ptr.content_congr (hm.mono Set.subset_union_left)).symm.trans h.source
    copy := (Ptr.content_congr (hm.mono Set.subset_union_right)).symm.trans h.copy }

/-- The frames for the halves. -/
def MergeSort.lower (frame : MergeSort) : MergeSort :=
  { IN := frame.OUT, OUT := frame.IN, size := frame.size / 2, base := frame.base }

def MergeSort.upper (frame : MergeSort) : MergeSort :=
  { IN := frame.OUT.add (frame.size / 2 : Nat), OUT := frame.IN.add (frame.size / 2 : Nat)
    size := frame.size - frame.size / 2, base := frame.base }

/-- What the halves hold, in both arrays. -/
theorem MergeSort.Holds.halves (h : frame.Holds xs m) :
    frame.lower.Holds (xs.take (frame.size / 2)) m ∧
      frame.upper.Holds (xs.drop (frame.size / 2)) m := by
  have hle := Nat.div_le_self frame.size 2
  have htake : ∀ p : Ptr, p.content frame.size m = xs →
      p.content (frame.size / 2) m = xs.take (frame.size / 2) := fun p hp => by
    rw [← hp]
    exact (seg_take m p.1 p.2 hle).symm
  have hdrop : ∀ p : Ptr, p.content frame.size m = xs →
      (p.add (frame.size / 2 : Nat)).content (frame.size - frame.size / 2) m =
        xs.drop (frame.size / 2) := fun p hp => by
    rw [← hp]
    exact (seg_drop m p.1 p.2 hle).symm
  constructor
  · exact
      { ne := h.ne.symm
        size := by
          rw [List.length_take, h.size]
          exact Nat.min_eq_left hle
        source := htake _ h.copy
        copy := htake _ h.source }
  · exact
      { ne := h.ne.symm
        size := by
          rw [List.length_drop, h.size]
          rfl
        source := hdrop _ h.copy
        copy := hdrop _ h.source }

/-- The results of the two halves in `IN`, and the `merge` that waits for them. -/
theorem mergeSortMerge_ok {ys zs : List Int} (h : frame.IN.1 ≠ frame.OUT.1)
    (hys : ys.length = frame.size / 2) (hzs : zs.length = frame.size - frame.size / 2)
    (hsig₁ : p₁.signals = 1) (hsig₂ : p₂.signals = 1)
    (hok₁ : Ok fire k₁ p₁ (uses frame.IN frame.OUT frame.lower.size)
      (uses frame.IN frame.OUT frame.lower.size)
      (fun m' => frame.IN.content frame.lower.size m' = ys) m)
    (hok₂ : Ok fire k₂ p₂ (uses frame.upper.OUT frame.upper.IN frame.upper.size)
      (uses frame.upper.OUT frame.upper.IN frame.upper.size)
      (fun m' => frame.upper.OUT.content frame.upper.size m' = zs) m) :
    Ok fire (k₁ + k₂ + 1) (.wait 2 (.mergeSortMerge frame) (.par p₁ p₂))
      (uses frame.IN frame.OUT frame.size) (uses frame.IN frame.OUT frame.size)
      (fun m' => frame.OUT.content frame.size m' = mergeLt ys zs) m := by
  have hsize : frame.size = frame.size / 2 + (frame.size - frame.size / 2) := by omega
  have hok := join_ok (c := .mergeSortMerge frame) (fun _ _ => rfl) h hsize hsig₁ hsig₂ hok₁ hok₂
  rwa [mergeHalves_append (by rw [hys, hzs, ← hsize])] at hok

/-- Short halves are sorted in place by `quicksort`. -/
theorem quickSort_ok (hlower : frame.lower.Holds xs m) (hupper : frame.upper.Holds ys m) :
    Ok fire 3 (.wait 2 (.mergeSortMerge frame) (quickSort frame.IN frame.size))
      (uses frame.IN frame.OUT frame.size) (uses frame.IN frame.OUT frame.size)
      (fun m' => frame.OUT.content frame.size m' = mergeLt (sort xs) (sort ys)) m := by
  have hn₁ : ((frame.size / 2 : Nat) - 1 : Int) + 1 = 0 + (frame.lower.size : Nat) := by
    simp only [MergeSort.lower]
    omega
  have hn₂ : (frame.size - 1 : Int) + 1 = (frame.size / 2 : Nat) + (frame.upper.size : Nat) := by
    simp only [MergeSort.upper]
    omega
  have hok₁ := quick_ok (c := .quickSortQuick frame.IN 0 ((frame.size / 2 : Nat) - 1))
    (fun _ _ => rfl) (Ptr.add_zero frame.IN).symm hn₁ frame.OUT m
  have hok₂ := quick_ok (c := .quickSortQuick frame.IN (frame.size / 2 : Nat) (frame.size - 1))
    (fun _ _ => rfl) rfl hn₂ frame.upper.IN m
  -- the halves are in `IN` as well as in `OUT`
  have hcopy₁ : frame.IN.content frame.lower.size m = xs := hlower.copy
  have hcopy₂ : (frame.IN.add (frame.size / 2 : Nat)).content frame.upper.size m = ys := hupper.copy
  rw [hcopy₁] at hok₁
  rw [hcopy₂] at hok₂
  exact mergeSortMerge_ok hlower.ne.symm ((sort_length xs).trans hlower.size)
    ((sort_length ys).trans hupper.size) rfl rfl hok₁ hok₂

/-- Halves of middle size by one `mergeBase` each. -/
theorem mergeBases_ok (hlower : frame.lower.Holds xs m) (hupper : frame.upper.Holds ys m) :
    Ok fire 31 (.wait 2 (.mergeSortMerge frame)
        (.par (mergeBase frame.lower.IN frame.lower.OUT frame.lower.size)
          (mergeBase frame.upper.IN frame.upper.OUT frame.upper.size)))
      (uses frame.IN frame.OUT frame.size) (uses frame.IN frame.OUT frame.size)
      (fun m' => frame.OUT.content frame.size m' =
        mergeLt (unrolled (frame.lower.size / 8) 3 xs) (unrolled (frame.upper.size / 8) 3 ys)) m := by
  obtain ⟨hsig₁, hok₁⟩ := mergeBase_ok frame.lower.IN frame.lower.OUT hlower.ne frame.lower.size m
  obtain ⟨hsig₂, hok₂⟩ := mergeBase_ok frame.upper.IN frame.upper.OUT hupper.ne frame.upper.size m
  rw [hlower.source] at hok₁
  rw [hupper.source] at hok₂
  exact mergeSortMerge_ok hlower.ne.symm ((unrolled_length ..).trans hlower.size)
    ((unrolled_length ..).trans hupper.size) hsig₁ hsig₂ hok₁ hok₂

/-- **`mergeSort` computes `outcome`**: one induction over the size. -/
theorem mergeSort_ok {base : Nat} (hbase : 1 ≤ base) (size : Nat) (hpos : 1 ≤ size)
    {frame : MergeSort} {xs : List Int} {m : Memory} (h : frame.Holds xs m)
    (hsize : frame.size = size) (hfbase : frame.base = base) :
    Ok fire (34 * size - 33) frame.invoke (uses frame.IN frame.OUT size)
      (uses frame.IN frame.OUT size)
      (fun m' => frame.OUT.content size m' = outcome base xs) m := by
  induction size using Nat.strong_induction_on generalizing frame xs m with
  | _ size ih =>
    subst hsize hfbase
    obtain ⟨k, hk⟩ : ∃ k, 34 * frame.size - 33 = k + 1 := ⟨34 * frame.size - 34, by omega⟩
    rw [hk]
    refine .of_run fun rands m' hm' => ?_
    have hheld := h.congr hm'
    obtain ⟨hlower, hupper⟩ := hheld.halves
    unfold outcome
    simp only [fire, checkFire]
    rw [h.size]
    by_cases hone : frame.size = 1
    · -- one element is in `OUT` already
      rw [if_pos hone, if_pos hone]
      refine ⟨Set.eqOn_refl .., (fun q hq => by cases hq), .done fun m'' hm'' => ?_⟩
      rw [← Ptr.content_congr (hm''.mono Set.subset_union_right)]
      exact hheld.copy
    rw [if_neg hone, if_neg hone]
    by_cases hquick : frame.size / 2 < frame.base
    · rw [if_pos hquick, if_pos hquick]
      refine ⟨Set.eqOn_refl .., fun q hq => Option.some.inj hq ▸ rfl, ?_⟩
      exact (quickSort_ok hlower hupper).mono (by omega)
    rw [if_neg hquick, if_neg hquick]
    by_cases hfew : frame.size / 2 / frame.base < 9
    · rw [if_pos hfew, dif_pos hfew]
      refine ⟨Set.eqOn_refl .., fun q hq => Option.some.inj hq ▸ rfl, ?_⟩
      exact (mergeBases_ok hlower hupper).mono (by omega)
    · -- the halves, with the arrays swapped
      rw [if_neg hfew, dif_neg hfew]
      refine ⟨Set.eqOn_refl .., fun q hq => Option.some.inj hq ▸ rfl, ?_⟩
      have hle := Nat.div_le_self (frame.size / 2) frame.base
      have hok₁ := ih (frame.size / 2) (by omega) (by omega) hlower rfl rfl
      have hok₂ := ih (frame.size - frame.size / 2) (by omega) (by omega) hupper rfl rfl
      rw [uses_comm] at hok₁ hok₂
      have hok := mergeSortMerge_ok h.ne ((outcome_length ..).trans hlower.size)
        ((outcome_length ..).trans hupper.size) rfl rfl hok₁ hok₂
      exact hok.mono (by omega)

/-! ## The launched `mergeSort` -/

/-- `mergeSort(in, out, size, base, ..)`. -/
def launched (size base : Nat) : MergeSort := { IN := (.inArray, 0), OUT := (.outArray, 0), size, base }

/-- What `initUnrolledMerge` sets up: any `int`s, the same in both arrays. -/
structure Initialised (size : Nat) (m : Memory) : Prop where
  copy : seg m .outArray 0 size = seg m .inArray 0 size
  int : ∀ v ∈ seg m .inArray 0 size, -2147483648 ≤ v ∧ v < 2147483648

/-- Whatever the order and the pivots, `outcome` is what is found in `out`. -/
theorem launched_computes {size base : Nat} (hsize : 1 ≤ size) (hbase : 1 ≤ base)
    (h : Initialised size m) : Completes fire (launched size base).invoke m (34 * size - 33)
      fun m' => seg m' .outArray 0 size = outcome base (seg m .inArray 0 size) := by
  have hholds : (launched size base).Holds (seg m .inArray 0 size) m :=
    { ne := fun h => by cases h
      size := seg_length ..
      source := rfl
      copy := h.copy }
  exact ((mergeSort_ok hbase size hsize hholds rfl rfl).completes rfl).imp fun m' hm' => hm'.1

/-- **When the unrolled merge sort sorts**: for a given `size` and `base` it sorts every array,
with all pivots and in every order, if and only if the merges of every `mergeBase` cut where its
runs end. -/
theorem sorts_iff {size base : Nat} (hsize : 1 ≤ size) (hbase : 1 ≤ base) :
    (∀ m, Initialised size m → Completes fire (launched size base).invoke m (34 * size - 33)
      fun m' => Sorts (seg m .inArray 0 size) (seg m' .outArray 0 size)) ↔ Splits base size := by
  constructor
  · intro hsorts
    by_contra hsplits
    obtain ⟨xs, hlen, hval, hxs⟩ := exists_outcome_unsorted hsplits
    have hcontent : ∀ b, seg (fun l : Buf × Int => xs.getD l.2.toNat 0) b 0 size = xs := fun b =>
      hlen ▸ seg_getD xs 0 b
    have hinit : Initialised size fun l : Buf × Int => xs.getD l.2.toNat 0 :=
      { copy := by rw [hcontent, hcontent]
        int := fun v hv => by
          rw [hcontent] at hv
          have := hval v hv
          omega }
    obtain ⟨s, hs, hsig, hout⟩ := (launched_computes hsize hbase hinit).reaches .start
    obtain hzero | ⟨-, hsorted, -⟩ := (hsorts _ hinit).once s hs
    · omega
    · rw [hout, hcontent] at hsorted
      exact hxs hsorted.sorted
  · intro hsplits m hinit
    refine (launched_computes hsize hbase hinit).imp fun m' hm' => ?_
    rw [hm']
    exact outcome_sorts hsplits (seg_length ..)

/-- With `base` 2, sixteen elements that come in descending order are sorted, and there are twenty
that are not. -/
theorem sorts_iff_sixteen :
    (∃ m, Initialised 16 m ∧
      seg m .inArray 0 16 = [16, 15, 14, 13, 12, 11, 10, 9, 8, 7, 6, 5, 4, 3, 2, 1] ∧
      Completes fire (launched 16 2).invoke m 511
        fun m' => Sorts (seg m .inArray 0 16) (seg m' .outArray 0 16)) ∧
    ¬∀ m, Initialised 20 m → Completes fire (launched 20 2).invoke m 647
      fun m' => Sorts (seg m .inArray 0 20) (seg m' .outArray 0 20) := by
  have hsplits : Splits 2 16 := by
    rw [Splits, if_neg (by decide), dif_pos (by decide)]
    decide
  have hcuts : ¬Splits 2 20 := by
    rw [Splits, if_neg (by decide), dif_pos (by decide)]
    decide
  have hinit : Initialised 16 fun l : Buf × Int => 16 - l.2 :=
    { copy := by decide
      int := by decide }
  exact ⟨⟨_, hinit, by decide, (sorts_iff (by decide) (by decide)).mpr hsplits _ hinit⟩,
    fun hsorts => hcuts ((sorts_iff (by decide) (by decide)).mp hsorts)⟩

/-- Twenty elements with `base` 2: four ones and then zeros. Each `mergeBase` has ten elements,
and cuts them after the first five of its runs `1 1 1 1 0 0 0 000`. -/
theorem twenty_unsorted :
    ∃ m, Initialised 20 m ∧ seg m .inArray 0 20 = [1, 1, 1, 1] ++ List.replicate 16 0 ∧
      ∃ s, Reachable (step fire) (launch (launched 20 2).invoke m) s ∧ s.signalled = 1 ∧
        ¬Sorts (seg m .inArray 0 20) (seg s.mem .outArray 0 20) := by
  have hinit : Initialised 20 fun l : Buf × Int => if l.2 < 4 then 1 else 0 :=
    { copy := by decide
      int := by decide }
  refine ⟨_, hinit, by decide, ?_⟩
  have hcompletes : Completes fire (launched 20 2).invoke _ _ _ :=
    launched_computes (by decide) (by decide) hinit
  obtain ⟨s, hs, hsig, hout⟩ := hcompletes.reaches .start
  refine ⟨s, hs, hsig, fun hsorts => ?_⟩
  have hsorted := hsorts.sorted
  rw [hout, outcome] at hsorted
  have hhalf := (sorted_of_mergeLt hsorted).1
  exact unrolled_unsorted 2 Nat.one_pos le_rfl hhalf

end Mergesort

end Darts
