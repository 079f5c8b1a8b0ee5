import Mathlib.Logic.Function.Basic
import Mathlib.Data.BitVec

/-!
# `moodycamel::ReaderWriterQueue`

The lock-free queue of one producer and one consumer
(`src/include/common/readerwriterqueue.h`): circular buffers, called blocks, in
a circular linked list. The producer owns the tail of every block and
`tailBlock`, the consumer the front of every block and `frontBlock`; each keeps
a shadow copy of the other's index (`localFront`, `localTail`).

`inner_enqueue` and `dequeue` execute a call step by step: a step either reads at most
one location that the other thread writes, or writes at most one that the other thread
reads, so any interleaving of the two threads is a sequence of such steps. Memory is
sequentially consistent. A cell of a block holds a constructed element or raw
memory; constructing over an element, touching raw memory and a failed `assert`
raise `fault`.
-/

namespace Darts.Queue

/-- `struct Block`. Addresses are numbers, `nullptr` is 0. -/
structure Block (T : Type) where
  front : Nat
  localTail : Nat
  tail : Nat
  localFront : Nat
  next : Nat
  /-- `none` is raw memory. -/
  data : Nat → Option T
  sizeMask : Nat

/-- The block made by `make_block(capacity)`. -/
def Block.make (T : Type) (capacity : Nat) : Block T :=
  { front := 0, localTail := 0, tail := 0, localFront := 0, next := 0, data := fun _ => none,
    sizeMask := capacity - 1 }

/-- The data members of `ReaderWriterQueue`, and the heap its blocks are in. -/
structure Rwq (T : Type) where
  blocks : Nat → Block T
  /-- The address the next `malloc` returns. -/
  brk : Nat
  frontBlock : Nat
  tailBlock : Nat
  largestBlockSize : Nat
  /-- An `assert` failed, or an element was used outside its lifetime. -/
  fault : Bool

/-- The template argument of `inner_enqueue`. -/
inductive AllocationMode
  | CanAlloc
  | CannotAlloc
deriving DecidableEq

/-- Where a call of `inner_enqueue` is, with its local variables. -/
inductive Enqueue
  /-- Room according to `localFront`? -/
  | check
  /-- `tailBlock_->localFront = tailBlock_->front.load()`. -/
  | loadFront (tailBlock_ blockTail nextBlockTail : Nat)
  /-- `new (location) T(element)` in the tail block. -/
  | write (tailBlock_ blockTail nextBlockTail : Nat)
  /-- `tailBlock_->tail = nextBlockTail`. -/
  | store (tailBlock_ nextBlockTail : Nat)
  /-- `tailBlock_->next.load() != frontBlock`. -/
  | full (tailBlock_ : Nat)
  /-- Look at the free block ahead. -/
  | nextFront (tailBlock_ : Nat)
  /-- `new (location) T(element)` in the block ahead. -/
  | writeNext (tailBlockNext nextBlockTail : Nat)
  | storeNext (tailBlockNext nextBlockTail : Nat)
  /-- `make_block(newBlockSize)`, and what is done to the block while it is private. -/
  | grow (tailBlock_ : Nat)
  /-- `tailBlock_->next = newBlock`. -/
  | link (tailBlock_ newBlock : Nat)
  /-- `tailBlock = newBlock`. -/
  | advance (newBlock : Nat)
  | returned (ok : Bool)
deriving DecidableEq

/-- The three calls of the consumer. -/
inductive ConsumerOp
  | try_dequeue
  | peek
  | pop
deriving DecidableEq

/-- Where a call of the consumer is, with its local variables. -/
inductive Dequeue (T : Type)
  /-- An element according to `localTail`? -/
  | check
  /-- `frontBlock_->localTail = frontBlock_->tail.load()`. -/
  | loadTail (frontBlock_ blockFront : Nat)
  /-- `frontBlock_ != tailBlock.load()`. -/
  | loadTailBlock (frontBlock_ : Nat)
  /-- Look at the front block once more. -/
  | reload
  /-- `nextBlock = frontBlock_->next`. -/
  | loadNext (frontBlock_ : Nat)
  /-- `nextBlock->localTail = nextBlock->tail.load()`. -/
  | nextTail (nextBlock : Nat)
  /-- `frontBlock = nextBlock`. -/
  | moveFront (nextBlock nextBlockFront : Nat)
  /-- `result = std::move(*element); element->~T()`. -/
  | take (frontBlock_ blockFront : Nat)
  /-- `frontBlock_->front = blockFront`. -/
  | release (frontBlock_ blockFront : Nat) (result : T)
  /-- `try_dequeue` or `pop` returned, with the element that left the queue. -/
  | removed (result : Option T)
  /-- `peek` returned a pointer, a block and an index into its data. -/
  | peeked (element : Option (Nat × Nat))

namespace Rwq

variable {T : Type}

/-- A store into a member of the block at `b`. -/
def setBlock (q : Rwq T) (b : Nat) (f : Block T → Block T) : Rwq T :=
  { q with blocks := Function.update q.blocks b (f (q.blocks b)) }

/-- `assert`. -/
def assert (q : Rwq T) (p : Bool) : Rwq T := { q with fault := q.fault || !p }

/-- `new (data + i) T(element)`. -/
def construct (q : Rwq T) (b i : Nat) (element : T) : Rwq T :=
  (q.assert ((q.blocks b).data i).isNone).setBlock b fun B =>
    { B with data := Function.update B.data i (some element) }

/-- `element->~T()` of the element at `data + i`. -/
def destroy (q : Rwq T) (b i : Nat) : Rwq T :=
  (q.assert ((q.blocks b).data i).isSome).setBlock b fun B =>
    { B with data := Function.update B.data i none }

/-- `make_block`, with the address it returns. -/
def make_block (q : Rwq T) (capacity : Nat) : Rwq T :=
  { q with blocks := Function.update q.blocks q.brk (Block.make T capacity), brk := q.brk + 1 }

/-- One step of `inner_enqueue<canAlloc>(element)`; `malloc` says whether memory
is available. -/
def inner_enqueue (MAX_BLOCK_SIZE : Nat) (canAlloc : AllocationMode) (element : T) (malloc : Bool)
    (q : Rwq T) : Enqueue → Option (Rwq T × Enqueue)
  | .check =>
    let tailBlock_ := q.tailBlock
    let blockFront := (q.blocks tailBlock_).localFront
    let blockTail := (q.blocks tailBlock_).tail
    let nextBlockTail := (blockTail + 1) &&& (q.blocks tailBlock_).sizeMask
    some (q, if nextBlockTail ≠ blockFront then .write tailBlock_ blockTail nextBlockTail
      else .loadFront tailBlock_ blockTail nextBlockTail)
  | .loadFront tailBlock_ blockTail nextBlockTail =>
    let front := (q.blocks tailBlock_).front
    some (q.setBlock tailBlock_ fun B => { B with localFront := front },
      if nextBlockTail ≠ front then .write tailBlock_ blockTail nextBlockTail
      else .full tailBlock_)
  | .write tailBlock_ blockTail nextBlockTail =>
    some (q.construct tailBlock_ blockTail element, .store tailBlock_ nextBlockTail)
  | .store tailBlock_ nextBlockTail =>
    some (q.setBlock tailBlock_ fun B => { B with tail := nextBlockTail }, .returned true)
  | .full tailBlock_ =>
    some (q, if (q.blocks tailBlock_).next ≠ q.frontBlock then .nextFront tailBlock_
      else match canAlloc with
        | .CanAlloc => .grow tailBlock_
        | .CannotAlloc => .returned false)
  | .nextFront tailBlock_ =>
    let tailBlockNext := (q.blocks tailBlock_).next
    let nextBlockFront := (q.blocks tailBlockNext).front
    let nextBlockTail := (q.blocks tailBlockNext).tail
    some ((q.setBlock tailBlockNext fun B => { B with localFront := nextBlockFront }).assert
      (nextBlockFront == nextBlockTail), .writeNext tailBlockNext nextBlockTail)
  | .writeNext tailBlockNext nextBlockTail =>
    some (q.construct tailBlockNext nextBlockTail element, .storeNext tailBlockNext nextBlockTail)
  | .storeNext tailBlockNext nextBlockTail =>
    some (q.setBlock tailBlockNext fun B =>
      { B with tail := (nextBlockTail + 1) &&& B.sizeMask }, .advance tailBlockNext)
  | .grow tailBlock_ =>
    if malloc then
      let newBlockSize := if q.largestBlockSize ≥ MAX_BLOCK_SIZE then q.largestBlockSize
        else q.largestBlockSize * 2
      let newBlock := q.brk
      let q := { q.make_block newBlockSize with largestBlockSize := newBlockSize }
      let q := (q.construct newBlock 0 element).assert ((q.blocks newBlock).front == 0)
      some (q.setBlock newBlock fun B =>
        { B with tail := 1, localTail := 1, next := (q.blocks tailBlock_).next },
        .link tailBlock_ newBlock)
    else some (q, .returned false)
  | .link tailBlock_ newBlock =>
    some (q.setBlock tailBlock_ fun B => { B with next := newBlock }, .advance newBlock)
  | .advance newBlock => some ({ q with tailBlock := newBlock }, .returned true)
  | .returned _ => none

/-- Where a nonempty front block leads: `peek` is done, the others take the element. -/
def found (op : ConsumerOp) (frontBlock_ blockFront : Nat) : Dequeue T :=
  match op with
  | .peek => .peeked (some (frontBlock_, blockFront))
  | _ => .take frontBlock_ blockFront

/-- What a call returns when there is nothing in the queue. -/
def nothing (op : ConsumerOp) : Dequeue T :=
  match op with
  | .peek => .peeked none
  | _ => .removed none

/-- One step of `try_dequeue`, `peek` or `pop`. -/
def dequeue (op : ConsumerOp) (q : Rwq T) : Dequeue T → Option (Rwq T × Dequeue T)
  | .check =>
    let frontBlock_ := q.frontBlock
    let blockTail := (q.blocks frontBlock_).localTail
    let blockFront := (q.blocks frontBlock_).front
    some (q, if blockFront ≠ blockTail then found op frontBlock_ blockFront
      else .loadTail frontBlock_ blockFront)
  | .loadTail frontBlock_ blockFront =>
    let tail := (q.blocks frontBlock_).tail
    some (q.setBlock frontBlock_ fun B => { B with localTail := tail },
      if blockFront ≠ tail then found op frontBlock_ blockFront else .loadTailBlock frontBlock_)
  | .loadTailBlock frontBlock_ =>
    some (q, if frontBlock_ ≠ q.tailBlock then .reload else nothing op)
  | .reload =>
    let frontBlock_ := q.frontBlock
    let blockTail := (q.blocks frontBlock_).tail
    let blockFront := (q.blocks frontBlock_).front
    some (q.setBlock frontBlock_ fun B => { B with localTail := blockTail },
      if blockFront ≠ blockTail then found op frontBlock_ blockFront else .loadNext frontBlock_)
  | .loadNext frontBlock_ => some (q, .nextTail (q.blocks frontBlock_).next)
  | .nextTail nextBlock =>
    let nextBlockFront := (q.blocks nextBlock).front
    let nextBlockTail := (q.blocks nextBlock).tail
    let q := q.assert (nextBlockFront != nextBlockTail)
    match op with
    | .peek => some (q, .peeked (some (nextBlock, nextBlockFront)))
    | _ => some (q.setBlock nextBlock fun B => { B with localTail := nextBlockTail },
        .moveFront nextBlock nextBlockFront)
  | .moveFront nextBlock nextBlockFront =>
    some ({ q with frontBlock := nextBlock }, .take nextBlock nextBlockFront)
  | .take frontBlock_ blockFront =>
    match (q.blocks frontBlock_).data blockFront with
    | some result => some (q.destroy frontBlock_ blockFront,
        .release frontBlock_ ((blockFront + 1) &&& (q.blocks frontBlock_).sizeMask) result)
    | none => some ({ q with fault := true }, .removed none)
  | .release frontBlock_ blockFront result =>
    some (q.setBlock frontBlock_ fun B => { B with front := blockFront }, .removed (some result))
  | .removed _ => none
  | .peeked _ => none

end Rwq

end Darts.Queue
