import Darts.FastMergesort.Merge
import Darts.Lib.Ledger

/-!
# `Merge` writes each element once

`stores` is what a codelet stores, in order: `fire` makes these stores (`fire_eq_replay`).
A `Merge` owes a store to each element of its range of `dst`. `MergeSplit` either makes
them all, or one in the middle, and leaves those in front of it to one frame and those
behind it to the other (`mergeLedger`). This needs the bounds of the ranges, not what they
hold. With `merge_ok`, what a complete run has stored is known (`merge_exact`).
-/

namespace Darts

namespace FastMergesort

open Transition ForkJoin Arrays Stores

/-! ## The stores -/

/-- The stores of `merge`. -/
def mergeStores (src : Buf) (lo1 hi1 lo2 hi2 : Int) (dst : Buf) (lo3 : Int) (m : Memory) :
    List ((Buf × Int) × Int) :=
  if lo1 ≤ hi1 ∧ lo2 ≤ hi2 then
    if m (src, lo1) < m (src, lo2) then
      ((dst, lo3), m (src, lo1)) :: mergeStores src (lo1 + 1) hi1 lo2 hi2 dst (lo3 + 1)
        (Function.update m (dst, lo3) (m (src, lo1)))
    else
      ((dst, lo3), m (src, lo2)) :: mergeStores src lo1 hi1 (lo2 + 1) hi2 dst (lo3 + 1)
        (Function.update m (dst, lo3) (m (src, lo2)))
  else if lo1 ≤ hi1 then
    ((dst, lo3), m (src, lo1)) :: mergeStores src (lo1 + 1) hi1 lo2 hi2 dst (lo3 + 1)
      (Function.update m (dst, lo3) (m (src, lo1)))
  else if lo2 ≤ hi2 then
    ((dst, lo3), m (src, lo2)) :: mergeStores src lo1 hi1 (lo2 + 1) hi2 dst (lo3 + 1)
      (Function.update m (dst, lo3) (m (src, lo2)))
  else []
termination_by (hi1 + 1 - lo1).toNat + (hi2 + 1 - lo2).toNat
decreasing_by all_goals omega

/-- Those of `MergeSplit::fire`. -/
def mergeSplitStores (G : Globals) (frame : Merge) (m : Memory) : List ((Buf × Int) × Int) :=
  let { src, lo1, hi1, lo2, hi2, dst, lo3 } := frame.swap
  if int32 (hi1 - lo1 + 1 + (hi2 - lo2 + 1)) ≤ G.CUTOFF_MERGE then
    if hi1 - lo1 + 1 ≠ 0 then mergeStores src lo1 hi1 lo2 hi2 dst lo3 m else []
  else
    let mid1 := mid lo1 hi1
    let mid2 := binSearch m src lo2 hi2 (m (src, mid1))
    [((dst, lo3 + (mid1 - lo1) + (mid2 - lo2)), m (src, mid1))]

/-- What each codelet stores; `qsort` is taken to store each element once. -/
def stores (G : Globals) : Codelet → Memory → List ((Buf × Int) × Int)
  | .mergeSortSplit frame, m =>
    if frame.hi - frame.lo + 1 ≤ G.CUTOFF_SORT then
      Arrays.stores frame.src frame.lo
        (G.qsort intcmp (seg m frame.src frame.lo (frame.hi - frame.lo + 1).toNat))
    else []
  | .mergeSortSync _, _ => []
  | .mergeSplit frame, m => mergeSplitStores G frame m
  | .mergeSync _, _ => []

theorem merge_eq_replay (src : Buf) (lo1 hi1 lo2 hi2 : Int) (dst : Buf) (lo3 : Int) (m : Memory) :
    merge src lo1 hi1 lo2 hi2 dst lo3 m = replay m (mergeStores src lo1 hi1 lo2 hi2 dst lo3 m) := by
  fun_induction merge src lo1 hi1 lo2 hi2 dst lo3 m with
  | case1 lo1 lo2 lo3 m hboth hlt ih =>
    rw [mergeStores, if_pos hboth, if_pos hlt]
    exact ih
  | case2 lo1 lo2 lo3 m hboth hge ih =>
    rw [mergeStores, if_pos hboth, if_neg hge]
    exact ih
  | case3 lo1 lo2 lo3 m hboth h1 ih =>
    rw [mergeStores, if_neg hboth, if_pos h1]
    exact ih
  | case4 lo1 lo2 lo3 m hboth h1 h2 ih =>
    rw [mergeStores, if_neg hboth, if_neg h1, if_pos h2]
    exact ih
  | case5 lo1 lo2 lo3 m hboth h1 h2 =>
    rw [mergeStores, if_neg hboth, if_neg h1, if_neg h2]
    rfl

/-- `fire()` makes the stores of the codelet, and no others. -/
theorem fire_eq_replay (G : Globals) (c : Codelet) (ω : Unit) (m : Memory) :
    (fire G c ω m).1 = replay m (stores G c m) := by
  cases c with
  | mergeSortSplit frame =>
    show (mergeSortSplitFire G frame m).1 = replay m (if _ then _ else _)
    unfold mergeSortSplitFire
    dsimp only
    split
    next => exact store_eq_replay ..
    next => rfl
  | mergeSortSync frame => rfl
  | mergeSplit frame =>
    show (mergeSplitFire G frame m).1 = replay m (mergeSplitStores G frame m)
    unfold mergeSplitFire mergeSplitStores
    dsimp only
    split
    next =>
      split
      next => exact merge_eq_replay ..
      next => rfl
    next => rfl
  | mergeSync frame => rfl

/-- `merge` stores to the elements of its range one after the other. -/
theorem mergeStores_targets (src : Buf) (lo1 hi1 lo2 hi2 : Int) (dst : Buf) (lo3 : Int)
    (m : Memory) : targets (mergeStores src lo1 hi1 lo2 hi2 dst lo3 m) =
      addresses dst lo3 ((hi1 + 1 - lo1).toNat + (hi2 + 1 - lo2).toNat) := by
  fun_induction mergeStores src lo1 hi1 lo2 hi2 dst lo3 m with
  | case1 lo1 lo2 lo3 m hboth hlt ih | case3 lo1 lo2 lo3 m hboth hlt ih =>
    rw [targets_cons, ih, ← addresses_succ]
    congr 1
    omega
  | case2 lo1 lo2 lo3 m hboth hge ih | case4 lo1 lo2 lo3 m hboth h1 h2 ih =>
    rw [targets_cons, ih, ← addresses_succ]
    congr 1
    omega
  | case5 lo1 lo2 lo3 m hboth h1 h2 =>
    have hzero : (hi1 + 1 - lo1).toNat + (hi2 + 1 - lo2).toNat = 0 := by omega
    rw [hzero]
    rfl

/-! ## Who owes them -/

/-- The ranges of a frame are ranges of indices. -/
structure Merge.Fits (frame : Merge) : Prop where
  lo1 : 0 ≤ frame.lo1
  hi1 : frame.lo1 ≤ frame.hi1 + 1
  fits1 : frame.hi1 < 1073741824
  lo2 : 0 ≤ frame.lo2
  hi2 : frame.lo2 ≤ frame.hi2 + 1
  fits2 : frame.hi2 < 1073741824

/-- How many elements a frame merges. -/
def Merge.size (frame : Merge) : Nat :=
  (frame.hi1 + 1 - frame.lo1).toNat + (frame.hi2 + 1 - frame.lo2).toNat

/-- The elements that it is to write. -/
def Merge.owes (frame : Merge) : Multiset (Buf × Int) := addresses frame.dst frame.lo3 frame.size

variable {frame : Merge} {m : Memory} {G : Globals}

theorem Merge.Fits.swap (h : frame.Fits) : frame.swap.Fits ∧ frame.swap.owes = frame.owes ∧
    frame.swap.hi2 + 1 - frame.swap.lo2 ≤ frame.swap.hi1 + 1 - frame.swap.lo1 := by
  unfold Merge.swap
  split
  next hlt =>
    unfold Merge.len1 Merge.len2 at hlt
    refine ⟨⟨h.lo2, h.hi2, h.fits2, h.lo1, h.hi1, h.fits1⟩, ?_, by dsimp only; omega⟩
    unfold Merge.owes Merge.size
    rw [Nat.add_comm]
  next hge =>
    unfold Merge.len1 Merge.len2 at hge
    exact ⟨h, rfl, by omega⟩

/-- What `MergeSplit` stores and what the frames owe that it invokes is what the frame owes. -/
theorem mergeSplit_balance (hcut : 1 ≤ G.CUTOFF_MERGE) (h : frame.Fits) (m : Memory) :
    (mergeSplitFire G frame m).2 = none ∧
      (targets (mergeSplitStores G frame m) : Multiset (Buf × Int)) = frame.owes ∨
    ∃ before behind : Merge, before.Fits ∧ behind.Fits ∧ (mergeSplitFire G frame m).2 =
        some (.wait 2 (.mergeSync frame) (.par before.invoke behind.invoke)) ∧
      (targets (mergeSplitStores G frame m) : Multiset (Buf × Int)) + (before.owes + behind.owes) =
        frame.owes := by
  obtain ⟨hfits, howes, hlonger⟩ := h.swap
  rw [← howes]
  obtain ⟨hlo1, hhi1, hfits1, hlo2, hhi2, hfits2⟩ := hfits
  unfold mergeSplitFire mergeSplitStores
  generalize frame.swap = swapped at *
  obtain ⟨src, lo1, hi1, lo2, hi2, dst, lo3⟩ := swapped
  dsimp only at hlo1 hhi1 hfits1 hlo2 hhi2 hfits2 hlonger ⊢
  by_cases hlen : int32 (hi1 - lo1 + 1 + (hi2 - lo2 + 1)) ≤ G.CUTOFF_MERGE
  · left
    rw [if_pos hlen, if_pos hlen]
    refine ⟨rfl, ?_⟩
    split
    next => exact congrArg Multiset.ofList (mergeStores_targets ..)
    next hzero =>
      -- both ranges are empty
      have hsize : (hi1 + 1 - lo1).toNat + (hi2 + 1 - lo2).toNat = 0 := by omega
      unfold Merge.owes Merge.size
      dsimp only
      rw [hsize]
      rfl
  · right
    have hle := int32_le (show 0 ≤ hi1 - lo1 + 1 + (hi2 - lo2 + 1) by omega)
    have hmid : mid lo1 hi1 = (lo1 + hi1) / 2 := mid_eq hlo1 (by omega) (by omega)
    have hmid1 : lo1 ≤ mid lo1 hi1 ∧ mid lo1 hi1 ≤ hi1 := by omega
    have hbounds := binSearchLoop_bounds m src (m (src, mid lo1 hi1)) (hi2 + 1 - lo2).toNat hlo2 hhi2
      (by omega)
    rw [← binSearch_eq _ hhi2] at hbounds
    rw [if_neg hlen, if_neg hlen]
    generalize mid lo1 hi1 = mid1 at hmid1 hbounds ⊢
    generalize binSearch m src lo2 hi2 (m (src, mid1)) = mid2 at hbounds ⊢
    refine ⟨_, _, ⟨hlo1, by dsimp only; omega, by dsimp only; omega, hlo2, by dsimp only; omega,
      by dsimp only; omega⟩, ⟨by dsimp only; omega, by dsimp only; omega, hfits1, by dsimp only; omega,
      by dsimp only; omega, hfits2⟩, rfl, ?_⟩
    -- the elements in front of the middle, the middle, and those behind it
    unfold Merge.owes Merge.size
    dsimp only
    obtain ⟨front, hfront⟩ : ∃ n, n = (mid1 - 1 + 1 - lo1).toNat + (mid2 - 1 + 1 - lo2).toNat :=
      ⟨_, rfl⟩
    obtain ⟨rest, hrest⟩ : ∃ n, n = (hi1 + 1 - (mid1 + 1)).toNat + (hi2 + 1 - mid2).toNat := ⟨_, rfl⟩
    have hmiddle : lo3 + (mid1 - lo1) + (mid2 - lo2) = lo3 + front := by omega
    have hsize : (hi1 + 1 - lo1).toNat + (hi2 + 1 - lo2).toNat = front + (rest + 1) := by omega
    rw [← hfront, ← hrest, hsize, addresses_append, addresses_succ, hmiddle, Multiset.coe_add,
      Multiset.coe_add]
    have hmove : ((dst, lo3 + (front : Int)) :: (addresses dst lo3 front ++
        addresses dst (lo3 + front + 1) rest)).Perm
        (addresses dst lo3 front ++ (dst, lo3 + (front : Int)) ::
          addresses dst (lo3 + front + 1) rest) := List.perm_middle.symm
    exact Multiset.coe_eq_coe.mpr hmove

/-- The stores of a merge, each owed by the frame whose range it is in. -/
def mergeLedger (hcut : 1 ≤ G.CUTOFF_MERGE) : Ledger (fire G) (Multiset (Buf × Int)) where
  Keeps
    | .mergeSplit frame => frame.Fits
    | .mergeSync _ => True
    | _ => False
  owes
    | .mergeSplit frame => frame.owes
    | _ => 0
  pays c _ m := targets (stores G c m)
  left c ω m hc q hq := by
    cases c with
    | mergeSplit frame =>
      have hq : (mergeSplitFire G frame m).2 = some q := hq
      rcases mergeSplit_balance hcut hc m with ⟨hnone, -⟩ | ⟨before, behind, hb, hh, hsome, -⟩
      · cases hnone.symm.trans hq
      · obtain rfl := Option.some.inj (hsome.symm.trans hq)
        exact ⟨⟨trivial, hb, hh⟩, rfl, trivial, trivial⟩
    | mergeSync frame => cases hq
    | mergeSortSplit frame | mergeSortSync frame => exact absurd hc id
  balance c ω m hc := by
    cases c with
    | mergeSplit frame =>
      show (targets (mergeSplitStores G frame m) : Multiset (Buf × Int)) +
        ((mergeSplitFire G frame m).2.getD .done).owed _ = frame.owes
      rcases mergeSplit_balance hcut hc m with ⟨hnone, heq⟩ | ⟨before, behind, -, -, hsome, heq⟩
      · rw [hnone, heq]
        exact add_zero _
      · rw [hsome, ← heq]
        rfl
    | mergeSync frame => exact add_zero _
    | mergeSortSplit frame | mergeSortSync frame => exact absurd hc id

/-- The addresses that a run stores to, as often as it does. -/
def written (G : Globals) (s : State Codelet (Buf × Int) Int) (ls : List (Nat × Unit)) :
    Multiset (Buf × Int) :=
  paid (fire G) (fun c _ m => targets (stores G c m)) s ls

theorem Merge.Holds.fits {L1 L2 : List Int} (h : frame.Holds L1 L2 m) : frame.Fits := by
  have hhi1 := h.hi1
  have hhi2 := h.hi2
  exact ⟨h.lo1, by omega, h.fits1, h.lo2, by omega, h.fits2⟩

/-- A run at whose end no task is ready has stored to each element of the range once. -/
theorem written_eq (hcut : 1 ≤ G.CUTOFF_MERGE) (h : frame.Fits) {ls : List (Nat × Unit)}
    {s : State Codelet (Buf × Int) Int} (hrun : run (step (fire G)) (launch frame.invoke m) ls = some s)
    (hs : s.ready = []) : written G (launch frame.invoke m) ls = frame.owes := by
  obtain ⟨hInv, howed⟩ := (mergeLedger hcut).inv_launch (p := frame.invoke) h trivial m
  have hpaid := (mergeLedger hcut).run_eq hInv hrun
  have hnothing : s.owed (mergeLedger hcut).owes = 0 := by
    unfold State.owed
    rw [hs]
    rfl
  rw [hnothing, add_zero, howed] at hpaid
  exact hpaid

/-- **The parallel merge merges**, in every order of the codelets. On two sorted ranges of `src`,
with the result in another array: `final` is signalled exactly once, after a bounded number of
steps; then the range of `dst` holds the elements of the two, sorted, nothing else has changed,
and of all the stores that the codelets have made one went to each element of the range, and none
elsewhere. -/
theorem merge_exact (hcut : 1 ≤ G.CUTOFF_MERGE) {L1 L2 : List Int} (h : frame.Holds L1 L2 m) :
    Completes (fire G) frame.invoke m (3 * (L1.length + L2.length) + 1)
      (fun m' => frame.Merged L1 L2 m' ∧ Set.EqOn m m' (frame.writes L1.length L2.length)ᶜ) ∧
    (∀ c ω m', (fire G c ω m').1 = replay m' (stores G c m')) ∧
    ∀ ls s, run (step (fire G)) (launch frame.invoke m) ls = some s → s.signalled = 1 →
      (∀ l ∈ frame.writes L1.length L2.length,
        (written G (launch frame.invoke m) ls).count l = 1) ∧
      ∀ l ∉ frame.writes L1.length L2.length,
        (written G (launch frame.invoke m) ls).count l = 0 := by
  have hcompletes := (merge_ok hcut _ h rfl).completes rfl
  refine ⟨hcompletes, fire_eq_replay G, fun ls s hrun hsignalled => ?_⟩
  have hdone : s.ready = [] := by
    obtain hzero | ⟨-, -, hready⟩ := hcompletes.once s (Reachable.of_run hrun)
    · omega
    · exact hready
  have hhi1 := h.hi1
  have hhi2 := h.hi2
  have howes : frame.owes = (addresses frame.dst frame.lo3 (L1.length + L2.length) : Multiset _) := by
    unfold Merge.owes Merge.size
    rw [show (frame.hi1 + 1 - frame.lo1).toNat = L1.length by omega,
      show (frame.hi2 + 1 - frame.lo2).toNat = L2.length by omega]
  rw [written_eq hcut h.fits hrun hdone, howes]
  constructor
  · intro l hl
    exact Multiset.count_eq_one_of_mem (Multiset.coe_nodup.mpr nodup_addresses)
      (mem_addresses.mpr hl)
  · intro l hl
    exact Multiset.count_eq_zero_of_notMem fun hmem => hl (mem_addresses.mp hmem)

/-- Two elements and one, down to single ones. -/
theorem merge_exact_three :
    Completes (fire { CUTOFF_SORT := 1, CUTOFF_MERGE := 1, qsort := fun _ l => l })
      (Merge.invoke { src := .a, lo1 := 0, hi1 := 1, lo2 := 2, hi2 := 2, dst := .b, lo3 := 0 })
      (fun l => if l.2 = 0 then 1 else if l.2 = 1 then 3 else 2) 10
      fun m' => Sorting.Sorts [1, 3, 2] (seg m' .b 0 3) := by
  have hholds : Merge.Holds
      { src := .a, lo1 := 0, hi1 := 1, lo2 := 2, hi2 := 2, dst := .b, lo3 := 0 } [1, 3] [2]
      (fun l => if l.2 = 0 then 1 else if l.2 = 1 then 3 else 2) :=
    { ne := by decide, lo1 := by decide, hi1 := by decide, fits1 := by decide, lo2 := by decide
      hi2 := by decide, fits2 := by decide, first := by decide, second := by decide
      sorted1 := by decide, sorted2 := by decide }
  have hmerge := merge_exact
    (G := { CUTOFF_SORT := 1, CUTOFF_MERGE := 1, qsort := fun _ l => l }) le_rfl hholds
  exact hmerge.1.imp fun _ hm => hm.1

end FastMergesort

end Darts
