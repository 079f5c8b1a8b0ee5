import Mathlib.Data.List.FinRange
import Mathlib.Tactic.DeriveFintype
import Darts.Cannon.Index
import Darts.Threading.OneShot

/-!
# `apps/Cannon-dfswp`: the software-pipelined `cannonTP`

Every tile owns a queue of blocks of `A` and one of blocks of `B`. After the
skew phase the compute codelet of a tile repeats: wait until both queues are
non-empty, multiply the heads into the tile of `C`, push the heads on to the
neighbours, pop them. No barrier separates the iterations.

`fireBody` lists what each `fire()` method does, operation by operation;
`exec` says what the operations on the frame do. A queue is a FIFO (the
`moodycamel` queue used by one producer and one consumer), a block in it is a
deep copy made by `matrix`'s copy constructor. Tile numbers and sizes are
unbounded; the program only makes sense while `sqrtNumTiles * sqrtNumTiles` and
the matrix indices fit an `int`.
-/

namespace Darts.CannonDfswp

open Cannon

/-- The codelets of `cannonTP`. -/
inductive Cod (n : Nat)
  | copyA (i : Tile n)
  | copyB (i : Tile n)
  | copyC (i : Tile n)
  | skew (i : Tile n)
  | skewBarrier
  | compute (i : Tile n)
  | endCodelet
deriving DecidableEq, Fintype

/-- What a codelet does to the frame between its counter operations. -/
inductive Act (n : Nat)
  /-- The copy loop of `cannonCodCopyA`. -/
  | gatherA (i : Tile n)
  | gatherB (i : Tile n)
  | scatterC (i : Tile n)
  /-- `(*matrices)[destRow]->pushA(A)` of the skew codelet. -/
  | pushScratchA (i : Tile n)
  | pushScratchB (i : Tile n)
  /-- `while (curIterations < numIterations)`. -/
  | test (i : Tile n)
  /-- Wait for both heads, then `DGEMM`. -/
  | multiply (i : Tile n)
  | pushA (i : Tile n)
  | pushB (i : Tile n)
  | popA (i : Tile n)
  | popB (i : Tile n)
  /-- `curIterations++`. -/
  | incr (i : Tile n)
  /-- `continuationCod->decDep()`. -/
  | continuation
deriving DecidableEq

/-- `class tile_mem`: three `p` by `p` tiles in one allocation, and the queues. -/
structure TileMem (R : Type) (p : Nat) where
  mem : Nat → R
  AQueue : List (Mat R)
  BQueue : List (Mat R)

/-- The data members of `cannonTP`, and `curIterations` of its compute codelets. -/
structure Frame (R : Type) (n p : Nat) where
  A : Mat R
  B : Mat R
  C : Mat R
  allMatrices : Tile n → TileMem R p
  curIterations : Tile n → Nat
  /-- How often `continuationCod` has been signalled. -/
  continuations : Nat

variable {R : Type} {n p : Nat}

namespace TileMem

/-- `tileP = sqrtP * sqrtP`. -/
def tileP (_ : TileMem R p) : Nat := p * p

/-- `tileA_scratch`, at `mem`. -/
def tileA_scratch (t : TileMem R p) : Mat R := ⟨p, p, t.mem⟩

/-- `tileB_scratch`, at `mem + tileP`. -/
def tileB_scratch (t : TileMem R p) : Mat R := ⟨p, p, offset t.mem t.tileP⟩

/-- `tileC`, at `mem + 2*tileP`. -/
def tileC (t : TileMem R p) : Mat R := ⟨p, p, offset t.mem (2 * t.tileP)⟩

/-- Store through the pointer of `tileC`. -/
def storeC (t : TileMem R p) (c : Nat → R) : TileMem R p :=
  { t with mem := fun z => if 2 * t.tileP ≤ z then c (z - 2 * t.tileP) else t.mem z }

@[simp] theorem tileC_storeC (t : TileMem R p) (c : Nat → R) : (t.storeC c).tileC.ptr = c := by
  funext y
  have hle : 2 * t.tileP ≤ 2 * (t.storeC c).tileP + y := Nat.le_add_right _ _
  have hsub : 2 * (t.storeC c).tileP + y - 2 * t.tileP = y := Nat.add_sub_cancel_left _ _
  exact (if_pos hle).trans (congrArg c hsub)

/-- `pushA`: the queue keeps a copy. -/
def pushA [Zero R] (t : TileMem R p) (toPush : Mat R) : TileMem R p :=
  { t with AQueue := t.AQueue ++ [toPush.copy] }

/-- `pushB`. -/
def pushB [Zero R] (t : TileMem R p) (toPush : Mat R) : TileMem R p :=
  { t with BQueue := t.BQueue ++ [toPush.copy] }

/-- `getCurrentHeadA`: the block at the head, or `NULL`. -/
def getCurrentHeadA (t : TileMem R p) : Option (Mat R) := t.AQueue.head?

/-- `getCurrentHeadB`. -/
def getCurrentHeadB (t : TileMem R p) : Option (Mat R) := t.BQueue.head?

/-- `popCurrentHeadA`. -/
def popCurrentHeadA (t : TileMem R p) : TileMem R p := { t with AQueue := t.AQueue.tail }

/-- `popCurrentHeadB`. -/
def popCurrentHeadB (t : TileMem R p) : TileMem R p := { t with BQueue := t.BQueue.tail }

end TileMem

/-- `*allMatrices[i]` after an update. -/
def Frame.setTile (f : Frame R n p) (i : Tile n) (t : TileMem R p) : Frame R n p :=
  { f with allMatrices := Function.update f.allMatrices i t }

/-! ## The bodies -/

/-- One turn of the loop of `cannonCodCompute::fire`, up to the next test. -/
def iteration (i : Tile n) : List (Op (Cod n) (Act n)) :=
  [.act (.multiply i), .act (.pushA i), .act (.pushB i), .act (.popA i), .act (.popB i),
    .act (.incr i), .act (.test i)]

/-- The `fire()` methods. -/
def fireBody : Cod n → List (Op (Cod n) (Act n))
  | .copyA i => [.act (.gatherA i), .decDep (.skew i)]
  | .copyB i => [.act (.gatherB i), .decDep (.skew i)]
  | .copyC i => [.act (.scatterC i), .decDep .endCodelet]
  | .skew i => [.act (.pushScratchA i), .act (.pushScratchB i), .decDep .skewBarrier]
  | .skewBarrier => (List.finRange (n * n)).map fun i => .decDep (.compute i)
  | .compute i => [.resetCodelet (.compute i), .act (.test i), .decDep (.copyC i)]
  | .endCodelet => [.act .continuation]

/-- `while (A == NULL || B == NULL)`, then `DGEMM(side, side, side, 1, A, side,
B, side, 1, C, side)`: `none` while a head is missing. -/
def multiply [CommRing R] (blas : Blas R) (t : TileMem R p) : Option (TileMem R p) :=
  match t.getCurrentHeadA, t.getCurrentHeadB with
  | some A, some B => some (t.storeC (blas.dgemm p p p 1 A.ptr p B.ptr p 1 t.tileC.ptr p))
  | _, _ => none

/-- What the actions do to the frame. The pointers `A` and `B` taken by the wait
loop point at the heads until the pops at the end of the turn, so the pushes read
the heads. -/
def exec [CommRing R] (blas : Blas R) :
    Act n → Frame R n p → Option (Frame R n p × List (Op (Cod n) (Act n)))
  | .gatherA i, f =>
    let t := f.allMatrices i
    some (f.setTile i
      { t with mem := gatherTile f.A.M p (initialIndex n f.A.M p i) f.A.ptr t.mem 0 }, [])
  | .gatherB i, f =>
    let t := f.allMatrices i
    some (f.setTile i
      { t with mem := gatherTile f.B.M p (initialIndex n f.B.M p i) f.B.ptr t.mem t.tileP }, [])
  | .scatterC i, f =>
    let t := f.allMatrices i
    some ({ f with C := { f.C with
      ptr := scatterTile f.C.M p (initialIndex n f.C.M p i) t.mem (2 * t.tileP) f.C.ptr } }, [])
  | .pushScratchA i, f =>
    some (f.setTile (destRow i)
      ((f.allMatrices (destRow i)).pushA (f.allMatrices i).tileA_scratch), [])
  | .pushScratchB i, f =>
    some (f.setTile (destCol i)
      ((f.allMatrices (destCol i)).pushB (f.allMatrices i).tileB_scratch), [])
  | .test i, f => some (f, if f.curIterations i < n then iteration i else [])
  | .multiply i, f => (multiply blas (f.allMatrices i)).map fun t => (f.setTile i t, [])
  | .pushA i, f => (f.allMatrices i).getCurrentHeadA.map fun A =>
      (f.setTile (nextRow i) ((f.allMatrices (nextRow i)).pushA A), [])
  | .pushB i, f => (f.allMatrices i).getCurrentHeadB.map fun B =>
      (f.setTile (nextCol i) ((f.allMatrices (nextCol i)).pushB B), [])
  | .popA i, f => (f.allMatrices i).getCurrentHeadA.map fun _ =>
      (f.setTile i (f.allMatrices i).popCurrentHeadA, [])
  | .popB i, f => (f.allMatrices i).getCurrentHeadB.map fun _ =>
      (f.setTile i (f.allMatrices i).popCurrentHeadB, [])
  | .incr i, f => some ({ f with
      curIterations := Function.update f.curIterations i (f.curIterations i + 1) }, [])
  | .continuation, f => some ({ f with continuations := f.continuations + 1 }, [])

/-- `cannonTP` as a program of codelets. -/
def cannonTP [CommRing R] (blas : Blas R) (n p : Nat) : Program (Cod n) (Act n) (Frame R n p) where
  fire := fireBody
  exec := exec blas

/-- The dependence and reset values given by the constructor. -/
def slot (n : Nat) : Cod n → SyncSlot
  | .copyA _ => ⟨0, 0⟩
  | .copyB _ => ⟨0, 0⟩
  | .copyC _ => ⟨1, 1⟩
  | .skew _ => ⟨2, 2⟩
  | .skewBarrier => ⟨n * n, n * n⟩
  | .compute _ => ⟨1, 1⟩
  | .endCodelet => ⟨n * n, n * n⟩

/-- `add(allCopyACod[i]); add(allCopyBCod[i]);` for every tile, once the codelets
exist. -/
def added (n : Nat) : Cod n → Nat
  | .copyA i => if (slot n (.copyA i)).ready then 1 else 0
  | .copyB i => if (slot n (.copyB i)).ready then 1 else 0
  | _ => 0

/-- The frame built by the constructor for `n*p` by `n*p` matrices. -/
def frame [Zero R] (n p : Nat) (a b c : Nat → R) : Frame R n p where
  A := ⟨n * p, n * p, a⟩
  B := ⟨n * p, n * p, b⟩
  C := ⟨n * p, n * p, c⟩
  allMatrices := fun _ => ⟨fun _ => 0, [], []⟩
  curIterations := fun _ => 0
  continuations := 0

/-- `cannonTP` after its constructor. -/
def launched [Zero R] (n p : Nat) (a b c : Nat → R) : State (Cod n) (Act n) (Frame R n p) :=
  State.start (slot n) (added n) (frame n p a b c)

/-! ## Who signals whom -/

/-- The codelets that send `k` its signals. -/
def sources : Cod n → List (Cod n)
  | .copyA _ => []
  | .copyB _ => []
  | .copyC i => [.compute i]
  | .skew i => [.copyA i, .copyB i]
  | .skewBarrier => (List.finRange (n * n)).map .skew
  | .compute _ => [.skewBarrier]
  | .endCodelet => (List.finRange (n * n)).map .copyC

/-- Sources come earlier in the pipeline. -/
def rank : Cod n → Nat
  | .copyA _ => 0
  | .copyB _ => 0
  | .skew _ => 1
  | .skewBarrier => 2
  | .compute _ => 3
  | .copyC _ => 4
  | .endCodelet => 5

theorem rank_sources (k k' : Cod n) (h : k' ∈ sources k) : rank k' < rank k := by
  cases k <;> simp [sources] at h
  case copyC i => subst h; simp [rank]
  case skew i => rcases h with rfl | rfl <;> simp [rank]
  case skewBarrier => obtain ⟨i, rfl⟩ := h; simp [rank]
  case compute i => subst h; simp [rank]
  case endCodelet => obtain ⟨i, rfl⟩ := h; simp [rank]

/-- Who has `decDep k` in its body. -/
theorem decDep_mem_fireBody {k k' : Cod n} : .decDep k ∈ fireBody k' ↔ k' ∈ sources k := by
  cases k' <;> cases k <;> simp [fireBody, sources, eq_comm]

/-- Nobody sends the same signal twice. -/
theorem nodup_fireBody (k : Cod n) : (fireBody k).Nodup := by
  cases k <;> simp [fireBody]
  case skewBarrier =>
    exact (List.nodup_finRange _).map fun i j h => by simpa using h

theorem resetCodelet_mem_fireBody {k k' : Cod n} :
    .resetCodelet k ∈ fireBody k' ↔ k' = k ∧ ∃ i, k = .compute i := by
  cases k' <;> cases k <;> simp [fireBody, eq_comm]

/-- What an action unfolds into contains only actions. -/
theorem exec_acts [CommRing R] {blas : Blas R} {a : Act n} {f f' : Frame R n p}
    {os : List (Op (Cod n) (Act n))} (h : exec blas a f = some (f', os)) :
    os = [] ∨ ∃ i, a = .test i ∧ os = iteration i := by
  cases a with
  | test i =>
    obtain ⟨-, rfl⟩ := Prod.mk.inj (Option.some.inj h)
    split
    · exact Or.inr ⟨i, rfl, rfl⟩
    · exact Or.inl rfl
  | multiply i | pushA i | pushB i | popA i | popB i =>
    obtain ⟨_, -, he⟩ := Option.map_eq_some_iff.mp h
    exact Or.inl (Prod.mk.inj he).2.symm
  | gatherA i | gatherB i | scatterC i | pushScratchA i | pushScratchB i | incr i | continuation =>
    exact Or.inl (Prod.mk.inj (Option.some.inj h)).2.symm

/-- All codelets of `cannonTP` form one group of codelets that fire once. -/
theorem oneShot [CommRing R] (blas : Blas R) (n p : Nat) :
    OneShot (cannonTP blas n p) (fun _ => True) (slot n) sources where
  quiet := by
    intro a m m' os k h _
    rcases exec_acts h with rfl | ⟨i, -, rfl⟩ <;> simp [iteration]
  dec_src k k' _ h := decDep_mem_fireBody.mp h
  dec_once k k' _ := List.nodup_iff_count_le_one.mp (nodup_fireBody k') _
  reset_own k k' _ h := (resetCodelet_mem_fireBody.mp h).1
  reset_once k _ := List.nodup_iff_count_le_one.mp (nodup_fireBody k) _
  srcs_mem k k' _ h := ⟨trivial, decDep_mem_fireBody.mpr h⟩
  srcs_nodup k _ := by
    cases k <;> simp [sources]
    all_goals exact (List.nodup_finRange _).map fun i j h => by simpa using h
  counter k _ := by cases k <;> simp [sources, slot]

/-- What the constructor added is what starts with a zero counter. -/
theorem added_eq (hn : 0 < n) (k : Cod n) :
    added n k = if (slot n k).counter_ = 0 then 1 else 0 := by
  have : n ≠ 0 := by omega
  cases k <;> simp [added, slot, SyncSlot.ready, this]

end Darts.CannonDfswp
