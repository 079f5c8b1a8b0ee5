import Darts.CannonDfswp.Queues
import Darts.Queue.Wakeup
import Darts.Threading.Refine

/-!
# `cannonTP` on the queues it really has

`Program` has queues that push, peek and pop in one step. Here the queues of a
`tile_mem` are `moodycamel::BlockingReaderWriterQueue<matrix>`, made for 15 blocks, and
an action of a codelet on them is a call: an `Access` is either the action itself, up to
the call it begins with, or one access of the call. `getCurrentHeadA()` asks
`size_approx()` and then `peek()`s; what it returns is a pointer into the queue, which
the codelet goes on using until it pops.

Two threads in the same kind of call of one queue and a null or dangling pointer raise
`fault`. `malloc` says for each queue which of its allocations succeed.
-/

namespace Darts.CannonDfswp

open Cannon Queue

/-- What a firing executes next. -/
inductive Access (n : Nat)
  /-- An action without queues, or up to the call it makes. -/
  | act (x : Act n)
  /-- In `enqueue(*toPush)` of the push `x`, on queue `d` of tile `i`. -/
  | enqueue (x : Act n) (d : Side) (i : Tile n)
  /-- `getCurrentHeadA()` or `getCurrentHeadB()` is called. -/
  | getCurrentHead (d : Side) (i : Tile n)
  /-- In its `size_approx()`. -/
  | size (d : Side) (i : Tile n)
  /-- In its `peek()`. -/
  | peek (d : Side) (i : Tile n)
  /-- `A == NULL || B == NULL`, else `DGEMM`. -/
  | heads (i : Tile n)
  /-- In `pop()`. -/
  | pop (d : Side) (i : Tile n)

variable {R : Type} {n p : Nat}

/-- What comes after `A = ..` or `B = ..`. -/
def Access.afterHead : Side → Tile n → Access n
  | .A, i => .getCurrentHead .B i
  | .B, i => .heads i

/-- The action of `Program` an access is a part of. -/
def Access.action : Access n → Act n
  | .act x => x
  | .enqueue x _ _ => x
  | .getCurrentHead _ i | .size _ i | .peek _ i | .heads i => .multiply i
  | .pop d i => CannonDfswp.pop d i

/-- `f` with `v` at side `d` of tile `i`. -/
def setAt {α : Type} (f : Side → Tile n → α) (d : Side) (i : Tile n) (v : α) :
    Side → Tile n → α :=
  fun d' i' => if d' = d ∧ i' = i then v else f d' i'

/-- The data members of `cannonTP`, and the local variables of its compute codelets. -/
structure LiveFrame (R : Type) (n p : Nat) where
  A : Mat R
  B : Mat R
  C : Mat R
  /-- `mem` of every `tile_mem`. -/
  mem : Tile n → Nat → R
  /-- `AQueue` and `BQueue`. -/
  queues : Side → Tile n → Blocking (Mat R)
  /-- `matrix * A` and `matrix * B` of the compute codelet: into a block of its queue. -/
  heads : Side → Tile n → Option (Nat × Nat)
  curIterations : Tile n → Nat
  continuations : Nat
  fault : Bool

namespace LiveFrame

variable (f : LiveFrame R n p)

/-- What comes next in the firing. -/
abbrev Next (n : Nat) := List (Op (Cod n) (Access n))

/-- The `tile_mem` without its queues. -/
def tile (i : Tile n) : TileMem R p := ⟨f.mem i, [], []⟩

/-- `*A` or `*B`. -/
def deref (d : Side) (i : Tile n) : Option (Mat R) :=
  (f.heads d i).bind fun e => ((f.queues d i).inner.blocks e.1).data e.2

/-- The queue after an access. -/
def setQueue (d : Side) (i : Tile n) (b : Blocking (Mat R)) : LiveFrame R n p :=
  { f with queues := setAt f.queues d i b }

def fail : LiveFrame R n p × Next n := ({ f with fault := true }, [])

/-- `pushA(toPush)` or `pushB(toPush)`: the queue is given a copy of the block. The copy is
made while the call runs; nobody writes to the block then (`Ctl.pushed_stable`). -/
def push [Zero R] (x : Act n) (d : Side) (i : Tile n) (toPush : Option (Mat R)) :
    LiveFrame R n p × Next n :=
  match toPush with
  | none => f.fail
  | some toPush =>
    match (f.queues d i).callEnqueue toPush.copy .CanAlloc with
    | some (b, _) => (f.setQueue d i b, [.act (.enqueue x d i)])
    | none => f.fail

/-- An access in `enqueue`. What it returns is not looked at. -/
def enqueue (malloc : Side → Tile n → Nat → Bool) (x : Act n) (d : Side) (i : Tile n) :
    LiveFrame R n p × Next n :=
  match (f.queues d i).producer 512 (malloc d i (f.queues d i).inner.brk) with
  | some (b, _) => (f.setQueue d i b, if b.enq.busy then [.act (.enqueue x d i)] else [])
  | none => f.fail

/-- A call of the consumer, whose accesses are `next`. -/
def consume (d : Side) (i : Tile n) (op : BlockingOp) (next : Access n) :
    LiveFrame R n p × Next n :=
  match (f.queues d i).callConsume op with
  | some (b, _) => (f.setQueue d i b, [.act next])
  | none => f.fail

/-- An access of the consumer, and what is done with what the call returns. -/
def access (d : Side) (i : Tile n) (again : Access n)
    (returned : LiveFrame R n p → Result (Mat R) → LiveFrame R n p × Next n) :
    LiveFrame R n p × Next n :=
  match (f.queues d i).consumer false with
  | some (b, _) =>
    match b.deq with
    | .returned result => returned (f.setQueue d i b) result
    | _ => (f.setQueue d i b, [.act again])
  | none => f.fail

/-- `A = ..getCurrentHeadA(); B = ..getCurrentHeadB();` -/
def setHead (d : Side) (i : Tile n) (head : Option (Nat × Nat)) : LiveFrame R n p × Next n :=
  ({ f with heads := setAt f.heads d i head }, [.act (.afterHead d i)])

/-- `DGEMM` on what `A` and `B` point at. -/
def multiply [CommRing R] (blas : Blas R) (i : Tile n) : LiveFrame R n p × Next n :=
  match f.deref .A i, f.deref .B i with
  | some A, some B =>
    let t := (f.tile i).storeC (blas.dgemm p p p 1 A.ptr p B.ptr p 1 (f.tile i).tileC.ptr p)
    ({ f with mem := Function.update f.mem i t.mem }, [])
  | _, _ => f.fail

end LiveFrame

/-- What an action does up to its first call. -/
def beginAct [Zero R] (f : LiveFrame R n p) : Act n → LiveFrame R n p × LiveFrame.Next n
  | .gatherA i =>
    let mem := gatherTile f.A.M p (initialIndex n f.A.M p i) f.A.ptr (f.mem i) 0
    ({ f with mem := Function.update f.mem i mem }, [])
  | .gatherB i =>
    let mem := gatherTile f.B.M p (initialIndex n f.B.M p i) f.B.ptr (f.mem i) (f.tile i).tileP
    ({ f with mem := Function.update f.mem i mem }, [])
  | .scatterC i =>
    let ptr := scatterTile f.C.M p (initialIndex n f.C.M p i) (f.mem i) (2 * (f.tile i).tileP)
      f.C.ptr
    ({ f with C := { f.C with ptr := ptr } }, [])
  | .pushScratchA i => f.push (.pushScratchA i) .A (destRow i) (some (f.tile i).tileA_scratch)
  | .pushScratchB i => f.push (.pushScratchB i) .B (destCol i) (some (f.tile i).tileB_scratch)
  | .test i => (f, if f.curIterations i < n then (iteration i).map (Op.map .act) else [])
  | .multiply i => ({ f with heads := setAt (setAt f.heads .A i none) .B i none },
      [.act (.getCurrentHead .A i)])
  | .pushA i => f.push (.pushA i) .A (nextRow i) (f.deref .A i)
  | .pushB i => f.push (.pushB i) .B (nextCol i) (f.deref .B i)
  | .popA i => f.consume .A i .pop (.pop .A i)
  | .popB i => f.consume .B i .pop (.pop .B i)
  | .incr i => ({ f with
      curIterations := Function.update f.curIterations i (f.curIterations i + 1) }, [])
  | .continuation => ({ f with continuations := f.continuations + 1 }, [])

/-- What a firing executes next, on the frame. -/
def execAccess [CommRing R] (malloc : Side → Tile n → Nat → Bool) (blas : Blas R)
    (f : LiveFrame R n p) : Access n → LiveFrame R n p × LiveFrame.Next n
  | .act x => beginAct f x
  | .enqueue x d i => f.enqueue malloc x d i
  | .getCurrentHead d i => f.consume d i .size_approx (.size d i)
  | .size d i => f.access d i (.size d i) fun f result =>
    match result with
    | .size 0 => f.setHead d i none
    | _ => f.consume d i .peek (.peek d i)
  | .peek d i => f.access d i (.peek d i) fun f result =>
    match result with
    | .peeked head => f.setHead d i head
    | _ => f.fail
  | .heads i =>
    if f.heads .A i = none ∨ f.heads .B i = none then (f, [.act (.getCurrentHead .A i)])
    else f.multiply blas i
  | .pop d i => f.access d i (.pop d i) fun f _ => (f, [])

/-- `cannonTP` on its queues. -/
def realTP [CommRing R] (malloc : Side → Tile n → Nat → Bool) (blas : Blas R) (p : Nat) :
    Program (Cod n) (Access n) (LiveFrame R n p) where
  fire k := (fireBody k).map (Op.map .act)
  exec x f := some (execAccess malloc blas f x)

/-- The frame built by the constructor, with the queues `q`. -/
def liveFrame [Zero R] (n p : Nat) (a b c : Nat → R) (q : Side → Tile n → Rwq (Mat R)) :
    LiveFrame R n p where
  A := ⟨n * p, n * p, a⟩
  B := ⟨n * p, n * p, b⟩
  C := ⟨n * p, n * p, c⟩
  mem := fun _ _ => 0
  queues := fun d i => Blocking.start (q d i)
  heads := fun _ _ => none
  curIterations := fun _ => 0
  continuations := 0
  fault := false

/-- `cannonTP` after its constructor. -/
def realLaunched [Zero R] (n p : Nat) (a b c : Nat → R) (q : Side → Tile n → Rwq (Mat R)) :
    State (Cod n) (Access n) (LiveFrame R n p) :=
  State.start (slot n) (added n) (liveFrame n p a b c q)

end Darts.CannonDfswp
