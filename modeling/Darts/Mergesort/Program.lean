import Darts.Lib.Arrays
import Darts.Lib.ForkJoin

/-!
# The unrolled parallel merge sort (`apps/Mergesort`, `mergeUnrolled`)

Three TPs. `mergeSort` chooses by its `size` how the two halves are sorted: by `quickSort`
in place, by `mergeBase`, or by `mergeSort` again, the latter two with the arrays swapped;
its codelet `merge` then merges the halves. `mergeBase` sorts eight runs with `quicksort`
and merges them in three levels, up and down between its two arrays.

A pointer is an array and an offset. `rand` reads a stream, and a codelet may be given any
stream when it fires: this is the choice `ω` of `Darts/Lib/ForkJoin.lean`. What waits for
a codelet is not a field here, it is its place in the process.
-/

namespace Darts

namespace Mergesort

open ForkJoin Arrays

/-- The arrays `in` and `out` of `mergeUnrolledCheck`. -/
inductive Buf
  | inArray | outArray
deriving DecidableEq

abbrev Memory := Buf × Int → Int

abbrev Ptr := Buf × Int

/-- `p + i`, and the address of `p[i]`. -/
def Ptr.add (p : Ptr) (i : Int) : Ptr := (p.1, p.2 + i)

/-- What `rand()` is going to return. -/
abbrev Rands := Nat → Nat

/-! ## `mergeUnrolledCD.cpp`: the sequential functions -/

/-- The loop of `mergeSort::Merge::fire` and `mergeBase::merge::fire` for `n` more turns. -/
def mergeLoop (IN OUT : Ptr) (length : Nat) : Nat → Nat → Nat → Nat → Memory → Memory
  | 0, _, _, _, m => m
  | n + 1, i, j, k, m =>
    if j < length / 2 ∧ k < length then
      if m (IN.add j) < m (IN.add k) then
        mergeLoop IN OUT length n (i + 1) (j + 1) k (Function.update m (OUT.add i) (m (IN.add j)))
      else
        mergeLoop IN OUT length n (i + 1) j (k + 1) (Function.update m (OUT.add i) (m (IN.add k)))
    else if j < length / 2 then
      mergeLoop IN OUT length n (i + 1) (j + 1) k (Function.update m (OUT.add i) (m (IN.add j)))
    else if k < length then
      mergeLoop IN OUT length n (i + 1) j (k + 1) (Function.update m (OUT.add i) (m (IN.add k)))
    else mergeLoop IN OUT length n (i + 1) j k m

/-- The whole loop. -/
def merge (IN OUT : Ptr) (size : Nat) (m : Memory) : Memory :=
  mergeLoop IN OUT size size 0 0 (size / 2) m

/-- The loop of `partition` from `i` on, for `n` turns: the memory and `storeIndex`. -/
def partitionLoop (array : Ptr) (pivotValue : Int) : Nat → Int → Int → Memory → Memory × Int
  | 0, _, storeIndex, m => (m, storeIndex)
  | n + 1, i, storeIndex, m =>
    if m (array.add i) ≤ pivotValue then
      partitionLoop array pivotValue n (i + 1) (storeIndex + 1)
        (swap m (array.add i) (array.add storeIndex))
    else partitionLoop array pivotValue n (i + 1) storeIndex m

/-- `partition`. -/
def partition (array : Ptr) (left right pivotIndex : Int) (m : Memory) : Memory × Int :=
  let pivotValue := m (array.add pivotIndex)
  let r := partitionLoop array pivotValue (right - left).toNat left left
    (swap m (array.add pivotIndex) (array.add right))
  (swap r.1 (array.add r.2) (array.add right), r.2)

theorem partitionLoop_bounds (array : Ptr) (pivotValue : Int) (n : Nat) (i storeIndex : Int)
    (m : Memory) : storeIndex ≤ (partitionLoop array pivotValue n i storeIndex m).2 ∧
      (partitionLoop array pivotValue n i storeIndex m).2 ≤ storeIndex + n := by
  induction n generalizing i storeIndex m with
  | zero => exact ⟨le_rfl, by simp [partitionLoop]⟩
  | succ n ih =>
    unfold partitionLoop
    split
    next =>
      have := ih (i + 1) (storeIndex + 1) (swap m (array.add i) (array.add storeIndex))
      omega
    next =>
      have := ih (i + 1) storeIndex m
      omega

theorem partition_bounds (array : Ptr) {left right : Int} (h : left < right) (pivotIndex : Int)
    (m : Memory) : left ≤ (partition array left right pivotIndex m).2 ∧
      (partition array left right pivotIndex m).2 ≤ right := by
  have := partitionLoop_bounds array (m (array.add pivotIndex)) (right - left).toNat left left
    (swap m (array.add pivotIndex) (array.add right))
  simp only [partition]
  omega

/-- `quicksort`, with what is left of the stream. -/
def quicksort (array : Ptr) (left right : Int) (m : Memory) (rands : Rands) : Memory × Rands :=
  if h : left < right then
    let pivotIndex := (rands 0 : Int).tmod (right - left) + left
    let p := partition array left right pivotIndex m
    let q := quicksort array left (p.2 - 1) p.1 fun i => rands (i + 1)
    quicksort array (p.2 + 1) right q.1 q.2
  else (m, rands)
termination_by (right + 1 - left).toNat
decreasing_by
  all_goals
    have := partition_bounds array h ((rands 0 : Int).tmod (right - left) + left) m
    omega

/-! ## The codelets -/

/-- The fields of a `mergeSort`. -/
structure MergeSort where
  IN : Ptr
  OUT : Ptr
  size : Nat
  base : Nat

inductive Codelet
  | check (frame : MergeSort)
  | mergeSortMerge (frame : MergeSort)
  | mergeBaseQuick (IN : Ptr) (left right : Int)
  | mergeBaseMerge (IN OUT : Ptr) (size : Nat)
  | quickSortQuick (IN : Ptr) (left right : Int)

/-- `invoke<mergeSort>` and `launch<mergeSort>`: the constructor adds `check`. -/
def MergeSort.invoke (frame : MergeSort) : Proc Codelet := .run (.check frame)

/-- `invoke<mergeBase>`: the eight `quick` are added, and every `merge` waits for the two
codelets that were given it as `toSig`. -/
def mergeBase (IN OUT : Ptr) (SIZE : Nat) : Proc Codelet :=
  let div := SIZE / 8
  let last := SIZE % 8
  let quick0 := .run (.mergeBaseQuick IN 0 (div - 1))
  let quick1 := .run (.mergeBaseQuick IN div (2 * div - 1))
  let quick2 := .run (.mergeBaseQuick IN (2 * div) (3 * div - 1))
  let quick3 := .run (.mergeBaseQuick IN (3 * div) (4 * div - 1))
  let quick4 := .run (.mergeBaseQuick IN (4 * div) (5 * div - 1))
  let quick5 := .run (.mergeBaseQuick IN (5 * div) (6 * div - 1))
  let quick6 := .run (.mergeBaseQuick IN (6 * div) (7 * div - 1))
  let quick7 := .run (.mergeBaseQuick IN (7 * div) (8 * div - 1 + last))
  let merge01 := .wait 2 (.mergeBaseMerge IN OUT (div * 2)) (.par quick0 quick1)
  let merge23 := .wait 2 (.mergeBaseMerge (IN.add (div * 2)) (OUT.add (div * 2)) (div * 2))
    (.par quick2 quick3)
  let merge45 := .wait 2 (.mergeBaseMerge (IN.add (2 * div * 2)) (OUT.add (2 * div * 2)) (div * 2))
    (.par quick4 quick5)
  let merge67 := .wait 2
    (.mergeBaseMerge (IN.add (3 * div * 2)) (OUT.add (3 * div * 2)) (div * 2 + last))
    (.par quick6 quick7)
  let merge03 := .wait 2 (.mergeBaseMerge OUT IN (div * 4)) (.par merge01 merge23)
  let merge47 := .wait 2 (.mergeBaseMerge (OUT.add (div * 4)) (IN.add (div * 4)) (div * 4 + last))
    (.par merge45 merge67)
  .wait 2 (.mergeBaseMerge IN OUT SIZE) (.par merge03 merge47)

/-- `invoke<quickSort>`: both of its codelets signal `toSig`. -/
def quickSort (OUT : Ptr) (SIZE : Nat) : Proc Codelet :=
  .par (.run (.quickSortQuick OUT 0 ((SIZE / 2 : Nat) - 1)))
    (.run (.quickSortQuick OUT (SIZE / 2 : Nat) (SIZE - 1)))

/-- `mergeSort::Check::fire`. -/
def checkFire (myMerge : MergeSort) (m : Memory) : Memory × Option (Proc Codelet) :=
  let { IN, OUT, size, base } := myMerge
  if size = 1 then (m, none)
  else if size / 2 < base then
    (m, some (.wait 2 (.mergeSortMerge myMerge) (quickSort IN size)))
  else if size / 2 / base < 9 then
    (m, some (.wait 2 (.mergeSortMerge myMerge) (.par (mergeBase OUT IN (size / 2))
      (mergeBase (OUT.add (size / 2 : Nat)) (IN.add (size / 2 : Nat)) (size - size / 2)))))
  else
    let lower : MergeSort := { IN := OUT, OUT := IN, size := size / 2, base }
    let upper : MergeSort :=
      { IN := OUT.add (size / 2 : Nat), OUT := IN.add (size / 2 : Nat), size := size - size / 2, base }
    (m, some (.wait 2 (.mergeSortMerge myMerge) (.par lower.invoke upper.invoke)))

/-- `fire()` of each codelet. -/
def fire : Codelet → Rands → Memory → Memory × Option (Proc Codelet)
  | .check frame, _, m => checkFire frame m
  | .mergeSortMerge frame, _, m => (merge frame.IN frame.OUT frame.size m, none)
  | .mergeBaseQuick IN left right, rands, m => ((quicksort IN left right m rands).1, none)
  | .mergeBaseMerge IN OUT size, _, m => (merge IN OUT size m, none)
  | .quickSortQuick IN left right, rands, m => ((quicksort IN left right m rands).1, none)

end Mergesort

end Darts
