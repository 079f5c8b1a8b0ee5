import Mathlib.Data.List.FinRange
import Mathlib.Tactic.DeriveFintype
import Darts.Cannon.Side
import Darts.Threading.OneShot

/-!
# `apps/Cannon`: the double-buffered `cannonTP`

Every tile owns a read and a write buffer for its block of `A` and for its block
of `B`, and one buffer for its block of `C`, in one allocation. The skew codelets
fill the write buffers; then the loop codelet swaps the buffers of all tiles and
releases all compute codelets, which multiply what they read and write it to the
neighbours; the last of them makes the loop codelet ready again. After `n` rounds
the loop codelet releases the codelets that copy `C` back.

`fireBody` lists what each `fire()` method does, operation by operation; the two
branches of the loop codelet are `roundBody` and `finishBody`. The code loads the
buffer pointers at the beginning of `fire()`, the model at the copy itself: the
pointers are only written by the loop codelet, when no such codelet is under way.
-/

namespace Darts.CannonDouble

open Cannon

/-- The codelets of `cannonTP`. -/
inductive Cod (n : Nat)
  | copyA (i : Tile n)
  | copyB (i : Tile n)
  | copyC (i : Tile n)
  | skew (i : Tile n)
  | compute (i : Tile n)
  | loop
  | endCodelet
deriving DecidableEq, Fintype

/-- What a codelet does to the frame between its counter operations. The actions
on blocks come in two, for `A` and for `B`. -/
inductive Act (n : Nat)
  /-- The copy loop of `cannonCodCopyA` or `cannonCodCopyB`. -/
  | gather (d : Side) (i : Tile n)
  | scatterC (i : Tile n)
  /-- `std::copy_n(A, wholeTile, A_write)` of the skew codelet. -/
  | skewShift (d : Side) (i : Tile n)
  /-- `if (curIterations < numIterations)`. -/
  | test
  /-- `swap_write_read()` of one tile. -/
  | swap (i : Tile n)
  /-- `curIterations++`. -/
  | incr
  /-- `DGEMM`. -/
  | multiply (i : Tile n)
  /-- `std::copy_n(A, wholeTile, A_write)` of the compute codelet. -/
  | shift (d : Side) (i : Tile n)
  /-- `continuationCod->decDep()`. -/
  | continuation
deriving DecidableEq

/-- `class tile_mem`: five `p` by `p` buffers in one allocation. The four matrices
that are swapped are the offsets of their pointers in it. -/
structure TileMem (R : Type) (p : Nat) where
  mem : Nat → R
  tileA : Nat
  tileA_write : Nat
  tileB : Nat
  tileB_write : Nat

/-- The data members of `cannonTP`, and `curIterations` of its loop codelet. -/
structure Frame (R : Type) (n p : Nat) where
  A : Mat R
  B : Mat R
  C : Mat R
  allMatrices : Tile n → TileMem R p
  curIterations : Nat
  /-- How often `continuationCod` has been signalled. -/
  continuations : Nat

variable {R : Type} {n p : Nat}

namespace TileMem

/-- `tileP = sqrtP * sqrtP`. -/
def tileP (_ : TileMem R p) : Nat := p * p

/-- `tileC`, at `mem + 4*tileP`. -/
def tileC (t : TileMem R p) : Nat := 4 * t.tileP

/-- The pointer of `tileA` or of `tileB`. -/
def read (t : TileMem R p) : Side → Nat
  | .A => t.tileA
  | .B => t.tileB

/-- The pointer of `tileA_write` or of `tileB_write`. -/
def write (t : TileMem R p) : Side → Nat
  | .A => t.tileA_write
  | .B => t.tileB_write

/-- `swap_write_read`. -/
def swap_write_read (t : TileMem R p) : TileMem R p :=
  { t with tileA := t.tileA_write, tileA_write := t.tileA,
           tileB := t.tileB_write, tileB_write := t.tileB }

/-- `std::copy_n(src, tileP, write)`. -/
def store (t : TileMem R p) (d : Side) (src : Nat → R) : TileMem R p :=
  { t with mem := copyN src t.tileP t.mem (t.write d) }

/-- Store through the pointer of `tileC`. -/
def storeC (t : TileMem R p) (c : Nat → R) : TileMem R p :=
  { t with mem := fun z => if t.tileC ≤ z then c (z - t.tileC) else t.mem z }

end TileMem

/-- `*allMatrices[i]` after an update. -/
def Frame.setTile (f : Frame R n p) (i : Tile n) (t : TileMem R p) : Frame R n p :=
  { f with allMatrices := Function.update f.allMatrices i t }

/-- The matrix a side is copied from. -/
def Frame.factor (f : Frame R n p) : Side → Mat R
  | .A => f.A
  | .B => f.B

/-! ## The bodies -/

/-- The `fire()` methods. -/
def fireBody : Cod n → List (Op (Cod n) (Act n))
  | .copyA i => [.act (.gather .A i), .decDep (.skew i)]
  | .copyB i => [.act (.gather .B i), .decDep (.skew i)]
  | .copyC i => [.act (.scatterC i), .decDep .endCodelet]
  | .skew i => [.act (.skewShift .A i), .act (.skewShift .B i), .decDep .loop]
  | .compute i => [.resetCodelet (.compute i), .act (.multiply i), .act (.shift .A i),
      .act (.shift .B i), .decDep .loop]
  | .loop => [.resetCodelet .loop, .act .test]
  | .endCodelet => [.act .continuation]

/-- The loop codelet while iterations are left. -/
def roundBody (n : Nat) : List (Op (Cod n) (Act n)) :=
  (List.finRange (n * n)).map (fun i => .act (.swap i)) ++
    .act .incr :: (List.finRange (n * n)).map fun i => .decDep (.compute i)

/-- The loop codelet after the last iteration. -/
def finishBody (n : Nat) : List (Op (Cod n) (Act n)) :=
  (List.finRange (n * n)).map fun i => .decDep (.copyC i)

/-- What the actions do to the frame. -/
def exec [CommRing R] (blas : Blas R) :
    Act n → Frame R n p → Option (Frame R n p × List (Op (Cod n) (Act n)))
  | .gather d i, f =>
    let t := f.allMatrices i
    let M := (f.factor d).M
    some (f.setTile i { t with
      mem := gatherTile M p (initialIndex n M p i) (f.factor d).ptr t.mem (t.read d) }, [])
  | .scatterC i, f =>
    let t := f.allMatrices i
    some ({ f with C := { f.C with
      ptr := scatterTile f.C.M p (initialIndex n f.C.M p i) t.mem t.tileC f.C.ptr } }, [])
  | .skewShift d i, f =>
    let t := f.allMatrices i
    some (f.setTile (d.dest i)
      ((f.allMatrices (d.dest i)).store d (offset t.mem (t.read d))), [])
  | .test, f => some (f, if f.curIterations < n then roundBody n else finishBody n)
  | .swap i, f => some (f.setTile i (f.allMatrices i).swap_write_read, [])
  | .incr, f => some ({ f with curIterations := f.curIterations + 1 }, [])
  | .multiply i, f =>
    let t := f.allMatrices i
    some (f.setTile i (t.storeC (blas.dgemm p p p 1 (offset t.mem t.tileA) p
      (offset t.mem t.tileB) p 1 (offset t.mem t.tileC) p)), [])
  | .shift d i, f =>
    let t := f.allMatrices i
    some (f.setTile (d.next i)
      ((f.allMatrices (d.next i)).store d (offset t.mem (t.read d))), [])
  | .continuation, f => some ({ f with continuations := f.continuations + 1 }, [])

/-- `cannonTP` as a program of codelets. -/
def cannonTP [CommRing R] (blas : Blas R) (n p : Nat) : Program (Cod n) (Act n) (Frame R n p) where
  fire := fireBody
  exec := exec blas

/-- The dependence and reset values given by the constructor. -/
def slot (n : Nat) : Cod n → SyncSlot
  | .copyA _ => ⟨0, 0⟩
  | .copyB _ => ⟨0, 0⟩
  | .copyC _ => ⟨1, 1⟩
  | .skew _ => ⟨2, 2⟩
  | .compute _ => ⟨1, 1⟩
  | .loop => ⟨n * n, n * n⟩
  | .endCodelet => ⟨n * n, n * n⟩

/-- `add(allCopyACod[i]); add(allCopyBCod[i]);` for every tile, once the codelets
exist. -/
def added (n : Nat) : Cod n → Nat
  | .copyA i => if (slot n (.copyA i)).ready then 1 else 0
  | .copyB i => if (slot n (.copyB i)).ready then 1 else 0
  | _ => 0

/-- The frame built by the constructor for `n*p` by `n*p` matrices. -/
def frame [Zero R] (n p : Nat) (a b c : Nat → R) : Frame R n p where
  A := ⟨n * p, n * p, a⟩
  B := ⟨n * p, n * p, b⟩
  C := ⟨n * p, n * p, c⟩
  allMatrices := fun _ => ⟨fun _ => 0, 0, p * p, 2 * (p * p), 3 * (p * p)⟩
  curIterations := 0
  continuations := 0

/-- `cannonTP` after its constructor. -/
def launched [Zero R] (n p : Nat) (a b c : Nat → R) : State (Cod n) (Act n) (Frame R n p) :=
  State.start (slot n) (added n) (frame n p a b c)

/-- No action ever waits. -/
theorem exec_ne_none [CommRing R] (blas : Blas R) (a : Act n) (f : Frame R n p) :
    exec blas a f ≠ none := by
  cases a <;> simp [exec]

/-- Only the test of the loop codelet unfolds. -/
theorem exec_rest [CommRing R] {blas : Blas R} {a : Act n} {f f' : Frame R n p}
    {os : List (Op (Cod n) (Act n))} (h : exec blas a f = some (f', os)) :
    os = if a = .test then (if f.curIterations < n then roundBody n else finishBody n) else [] := by
  cases a <;> exact (Prod.mk.inj (Option.some.inj h)).2.symm

/-! ## The first phase: copy and skew -/

/-- The copy and skew codelets. -/
def Early : Cod n → Prop
  | .copyA _ | .copyB _ | .skew _ => True
  | _ => False

/-- The codelets that send `k` its signals, in the first phase. -/
def sources : Cod n → List (Cod n)
  | .skew i => [.copyA i, .copyB i]
  | _ => []

theorem nodup_fireBody (k : Cod n) : (fireBody k).Nodup := by
  cases k <;> simp [fireBody]

theorem early_oneShot [CommRing R] (blas : Blas R) (n p : Nat) :
    OneShot (cannonTP blas n p) Early (slot n) sources where
  quiet := by
    intro a m m' os k h hk
    have hos : os = if a = .test then (if m.curIterations < n then roundBody n else finishBody n)
        else [] := exec_rest h
    cases k <;> simp only [Early] at hk <;> rw [hos] <;>
      split <;> try split
    all_goals simp [roundBody, finishBody]
  dec_src k k' hk h := by
    cases k <;> simp only [Early] at hk <;> cases k' <;> simp [cannonTP, fireBody] at h <;>
      simp [sources, h]
  dec_once k k' _ := List.nodup_iff_count_le_one.mp (nodup_fireBody k') _
  reset_own k k' hk h := by
    cases k <;> simp only [Early] at hk <;> cases k' <;> simp [cannonTP, fireBody] at h
  reset_once k _ := List.nodup_iff_count_le_one.mp (nodup_fireBody k) _
  srcs_mem k k' _ h := by
    cases k <;> simp [sources] at h
    rcases h with rfl | rfl <;> simp [Early, cannonTP, fireBody]
  srcs_nodup k _ := by cases k <;> simp [sources]
  counter k hk := by cases k <;> simp only [Early] at hk <;> rfl

/-- What the constructor added is what starts with a zero counter. -/
theorem added_eq (hn : 0 < n) (k : Cod n) :
    added n k = if (slot n k).counter_ = 0 then 1 else 0 := by
  have : n ≠ 0 := by omega
  cases k <;> simp [added, slot, SyncSlot.ready, this]

end Darts.CannonDouble
