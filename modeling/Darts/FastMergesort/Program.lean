import Darts.Lib.Arrays
import Darts.Lib.ForkJoin

/-!
# The fast parallel merge sort (`apps/FastMergesort`)

Two TPs. `MergeSort` sorts a range of `src` with the same range of `dst` as scratch: its
`split` codelet calls `qsort` on a short range, and otherwise invokes `MergeSort` with the
arrays swapped on both halves and leaves it to `sync` to have the halves merged back.
`Merge` merges two ranges of `src` into `dst`, in parallel as well: it puts the middle of
the longer range in its place and merges what is before and behind it.

A codelet is one with its frame, the TP it is a member of. `invoke` of a TP makes its
`split` ready; a `sync` waits for two signals; `final` is whom a TP's process signals
(`Darts/Lib/ForkJoin.lean`). An `int` is an integer; sums of two indices or two lengths
and differences of two elements are cut to 32 bits, all other values are indices and lengths. `qsort` is
what the C library does with the elements of a range.
-/

namespace Darts

namespace FastMergesort

open ForkJoin

/-- The arrays `a` and `b` of `Monitor`. -/
inductive Buf
  | a | b
deriving DecidableEq

abbrev Memory := Buf × Int → Int

/-- The `int` that the value `v` is cut to. -/
def int32 (v : Int) : Int := (v + 2147483648) % 4294967296 - 2147483648

/-- `intcmp`. -/
def intcmp (x y : Int) : Int := int32 (x - y)

/-- `(lo + hi) / 2`. -/
def mid (lo hi : Int) : Int := (int32 (lo + hi)).tdiv 2

/-- The globals of the program, and `qsort`. -/
structure Globals where
  CUTOFF_SORT : Int
  CUTOFF_MERGE : Int
  qsort : (Int → Int → Int) → List Int → List Int

/-- The frame of a `MergeSort`. -/
structure MergeSort where
  src : Buf
  lo : Int
  hi : Int
  dst : Buf

/-- The frame of a `Merge`. -/
structure Merge where
  src : Buf
  lo1 : Int
  hi1 : Int
  lo2 : Int
  hi2 : Int
  dst : Buf
  lo3 : Int

inductive Codelet
  | mergeSortSplit (frame : MergeSort)
  | mergeSortSync (frame : MergeSort)
  | mergeSplit (frame : Merge)
  | mergeSync (frame : Merge)

/-- `invoke<MergeSort>`. -/
def MergeSort.invoke (frame : MergeSort) : Proc Codelet := .run (.mergeSortSplit frame)

/-- `invoke<Merge>`. -/
def Merge.invoke (frame : Merge) : Proc Codelet := .run (.mergeSplit frame)

/-! ## `Merge.cpp` -/

/-- `merge`: the three loops, of which the later ones copy what the first has left. -/
def merge (src : Buf) (lo1 hi1 lo2 hi2 : Int) (dst : Buf) (lo3 : Int) (m : Memory) : Memory :=
  if lo1 ≤ hi1 ∧ lo2 ≤ hi2 then
    if m (src, lo1) < m (src, lo2) then
      merge src (lo1 + 1) hi1 lo2 hi2 dst (lo3 + 1) (Function.update m (dst, lo3) (m (src, lo1)))
    else
      merge src lo1 hi1 (lo2 + 1) hi2 dst (lo3 + 1) (Function.update m (dst, lo3) (m (src, lo2)))
  else if lo1 ≤ hi1 then
    merge src (lo1 + 1) hi1 lo2 hi2 dst (lo3 + 1) (Function.update m (dst, lo3) (m (src, lo1)))
  else if lo2 ≤ hi2 then
    merge src lo1 hi1 (lo2 + 1) hi2 dst (lo3 + 1) (Function.update m (dst, lo3) (m (src, lo2)))
  else m
termination_by (hi1 + 1 - lo1).toNat + (hi2 + 1 - lo2).toNat
decreasing_by all_goals omega

/-- The loop of `bin_search`, for at most `fuel` turns. -/
def binSearchLoop (m : Memory) (src : Buf) (elem : Int) : Nat → Int → Int → Int
  | 0, _, hi => hi
  | fuel + 1, lo, hi =>
    if lo < hi then
      if m (src, mid lo hi) < elem then binSearchLoop m src elem fuel (mid lo hi + 1) hi
      else binSearchLoop m src elem fuel lo (mid lo hi)
    else hi

/-- `bin_search`. The range gets shorter with every turn, so its length is fuel enough. -/
def binSearch (m : Memory) (src : Buf) (lo hi elem : Int) : Int :=
  let hi := if lo > hi + 1 then lo else hi + 1
  binSearchLoop m src elem (hi - lo).toNat lo hi

def Merge.len1 (frame : Merge) : Int := frame.hi1 - frame.lo1 + 1

def Merge.len2 (frame : Merge) : Int := frame.hi2 - frame.lo2 + 1

/-- The ranges in the order in which `MergeSplit::fire` takes them: the longer one first. -/
def Merge.swap (frame : Merge) : Merge :=
  if frame.len1 < frame.len2 then
    { frame with lo1 := frame.lo2, hi1 := frame.hi2, lo2 := frame.lo1, hi2 := frame.hi1 }
  else frame

/-- `MergeSplit::fire`. -/
def mergeSplitFire (G : Globals) (frame : Merge) (m : Memory) : Memory × Option (Proc Codelet) :=
  let { src, lo1, hi1, lo2, hi2, dst, lo3 } := frame.swap
  if int32 (hi1 - lo1 + 1 + (hi2 - lo2 + 1)) ≤ G.CUTOFF_MERGE then
    (if hi1 - lo1 + 1 ≠ 0 then merge src lo1 hi1 lo2 hi2 dst lo3 m else m, none)
  else
    let mid1 := mid lo1 hi1
    let mid2 := binSearch m src lo2 hi2 (m (src, mid1))
    let mid3 := lo3 + (mid1 - lo1) + (mid2 - lo2)
    let before : Merge :=
      { src, lo1, hi1 := mid1 - 1, lo2, hi2 := mid2 - 1, dst, lo3 }
    let behind : Merge :=
      { src, lo1 := mid1 + 1, hi1, lo2 := mid2, hi2, dst, lo3 := mid3 + 1 }
    (Function.update m (dst, mid3) (m (src, mid1)),
      some (.wait 2 (.mergeSync frame) (.par before.invoke behind.invoke)))

/-- `MergeSync::fire`. -/
def mergeSyncFire (_frame : Merge) (m : Memory) : Memory × Option (Proc Codelet) := (m, none)

/-! ## `MergeSort.cpp` -/

/-- `qsort(src+lo, n, sizeof(int), intcmp)`. -/
def qsortRange (G : Globals) (src : Buf) (lo : Int) (n : Nat) (m : Memory) : Memory :=
  Arrays.store m src lo (G.qsort intcmp (Arrays.seg m src lo n))

/-- `MergeSortSplit::fire`. -/
def mergeSortSplitFire (G : Globals) (frame : MergeSort) (m : Memory) :
    Memory × Option (Proc Codelet) :=
  let { src, lo, hi, dst } := frame
  if hi - lo + 1 ≤ G.CUTOFF_SORT then
    (qsortRange G src lo (hi - lo + 1).toNat m, none)
  else
    let lower : MergeSort := { src := dst, lo, hi := mid lo hi, dst := src }
    let upper : MergeSort := { src := dst, lo := mid lo hi + 1, hi, dst := src }
    (m, some (.wait 2 (.mergeSortSync frame) (.par lower.invoke upper.invoke)))

/-- `MergeSortSync::fire`. -/
def mergeSortSyncFire (frame : MergeSort) (m : Memory) : Memory × Option (Proc Codelet) :=
  let { src, lo, hi, dst } := frame
  let back : Merge :=
    { src := dst, lo1 := lo, hi1 := mid lo hi, lo2 := mid lo hi + 1, hi2 := hi, dst := src, lo3 := lo }
  (m, some back.invoke)

/-- `fire()` of each codelet. Nothing is left to chance but the order. -/
def fire (G : Globals) : Codelet → Unit → Memory → Memory × Option (Proc Codelet)
  | .mergeSortSplit frame, _, m => mergeSortSplitFire G frame m
  | .mergeSortSync frame, _, m => mergeSortSyncFire frame m
  | .mergeSplit frame, _, m => mergeSplitFire G frame m
  | .mergeSync frame, _, m => mergeSyncFire frame m

end FastMergesort

end Darts
