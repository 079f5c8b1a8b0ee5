import Darts.Lib.Circular
import Darts.Queue.ReaderWriterQueue

/-!
# What holds between any two accesses to the queue

The blocks from `frontBlock` to `tailBlock` are `used`, the rest of the circle
is `free`. The indices of a block are the remainders of counters that only grow
(`Marks`); what a used block contributes to the queue is its `content`, and the
queue holds the contents of the used blocks in this order (`Ghost.items`).

`Rel` ties this picture to the heap while both threads are in the middle of a
call: `Threads.enqInv` and `Threads.deqInv` say what each thread knows at its
place in the source. Three facts about the order of blocks carry the whole
protocol: a used block behind the front one was never consumed from, a used
block before the tail one was left full, and a free block is empty.
-/

namespace Darts.Queue

open Circular

variable {T : Type}

/-- The counters behind `localFront`, `front`, `localTail` and `tail`. -/
structure Marks where
  lf : Nat
  f : Nat
  lt : Nat
  t : Nat

/-! ## One block -/

namespace Block

/-- The number of cells. -/
def size (B : Block T) : Nat := B.sizeMask + 1

/-- The indices are the counters' remainders; a shadow copy is never ahead of its
original, and the tail never a whole turn ahead of the front it knows. -/
structure Inv (B : Block T) (m : Marks) (content : List T) : Prop where
  pow : ∃ k < 63, B.size = 2 ^ (k + 1)
  localFront : B.localFront = m.lf % B.size
  front : B.front = m.f % B.size
  localTail : B.localTail = m.lt % B.size
  tail : B.tail = m.t % B.size
  lf_le : m.lf ≤ m.f
  f_le : m.f ≤ m.lt
  lt_le : m.lt ≤ m.t
  room : m.t < m.lf + B.size
  length : m.f + content.length = m.t

/-- The cells: the content, without the element that was `taken` from the front but not
released and with the one `staged` behind the tail but not published. -/
def Cells (B : Block T) (m : Marks) (content taken staged : List T) : Prop :=
  ∃ live, taken ++ live = content ++ staged ∧ Holds B.data B.size (m.f + taken.length) live

namespace Inv

variable {B : Block T} {m : Marks} {content : List T}

theorem size_pos (h : B.Inv m content) : 1 < B.size := by
  obtain ⟨k, -, hk⟩ := h.pow
  rw [hk, Nat.pow_succ]
  have := Nat.two_pow_pos k
  omega

/-- `x & sizeMask` is a remainder. -/
theorem and_mask (h : B.Inv m content) (x : Nat) : x &&& B.sizeMask = x % B.size := by
  obtain ⟨k, -, hk⟩ := h.pow
  have hmask : B.sizeMask = 2 ^ (k + 1) - 1 := by rw [← hk]; rfl
  rw [hmask, Nat.and_two_pow_sub_one_eq_mod, hk]

theorem next_tail (h : B.Inv m content) :
    (B.tail + 1) &&& B.sizeMask = (m.t + 1) % B.size := by
  rw [h.and_mask, h.tail, Nat.mod_add_mod]

theorem next_front (h : B.Inv m content) :
    (B.front + 1) &&& B.sizeMask = (m.f + 1) % B.size := by
  rw [h.and_mask, h.front, Nat.mod_add_mod]

theorem front_eq_localTail (h : B.Inv m content) : B.front = B.localTail ↔ m.f = m.lt := by
  have := h.lf_le; have := h.f_le; have := h.lt_le; have := h.room
  rw [h.front, h.localTail, mod_eq_iff h.f_le (by omega)]

theorem front_eq_tail (h : B.Inv m content) : B.front = B.tail ↔ content = [] := by
  have := h.lf_le; have := h.f_le; have := h.lt_le; have := h.room; have := h.length
  rw [h.front, h.tail, mod_eq_iff (by omega) (by omega), ← List.length_eq_zero_iff]
  omega

/-- The producer sees a full block, according to its copy of the front. -/
theorem tail_eq_localFront (h : B.Inv m content) :
    (m.t + 1) % B.size = B.localFront ↔ m.t + 1 = m.lf + B.size := by
  have := h.lf_le; have := h.f_le; have := h.lt_le; have := h.room
  rw [h.localFront, mod_eq_iff_full (by omega) (by omega)]

/-- The producer sees a full block, according to the front itself. -/
theorem tail_eq_front (h : B.Inv m content) :
    (m.t + 1) % B.size = B.front ↔ m.t + 1 = m.f + B.size := by
  have := h.lf_le; have := h.f_le; have := h.lt_le; have := h.room
  rw [h.front, mod_eq_iff_full (by omega) (by omega)]

/-- The cells do not matter. -/
theorem of_data (h : B.Inv m content) (data : Nat → Option T) :
    ({ B with data } : Block T).Inv m content :=
  { h with }

theorem content_ne_nil (h : B.Inv m content) (hlt : m.f < m.lt) : content ≠ [] := by
  have := h.lt_le; have := h.length
  rintro rfl
  simp only [List.length_nil] at this
  omega

end Inv

namespace Cells

variable {B : Block T} {m : Marks} {content taken staged : List T}

/-- The element behind the tail is constructed in raw memory. -/
theorem stage (h : B.Cells m content taken []) (hinv : B.Inv m content) (v : T) :
    B.data B.tail = none ∧ ({ B with data := Function.update B.data B.tail (some v) } :
      Block T).Cells m content taken [v] := by
  obtain ⟨live, hlive, hcells⟩ := h
  have hlen := congrArg List.length hlive
  simp only [List.length_append, List.length_nil] at hlen
  have := hinv.length; have := hinv.room; have := hinv.lf_le
  have htail : B.tail = (m.f + taken.length + live.length) % B.size := by
    rw [hinv.tail, Nat.add_assoc, hlen, Nat.add_zero, hinv.length]
  have hroom : live.length < B.size := by omega
  rw [htail]
  refine ⟨hcells.free hroom, live ++ [v], ?_, hcells.push hroom v⟩
  rw [← List.append_assoc, hlive, List.append_nil]

/-- The element at the front is there, and taking it leaves raw memory. -/
theorem take {x : T} (h : B.Cells m (x :: content) [] staged) (hinv : B.Inv m (x :: content))
    (hstaged : staged.length ≤ 1) :
    B.data B.front = some x ∧ ({ B with data := Function.update B.data B.front none } :
      Block T).Cells m (x :: content) [x] staged := by
  obtain ⟨live, hlive, hcells⟩ := h
  obtain rfl : live = x :: (content ++ staged) := hlive
  have hlen := hinv.length; have := hinv.room; have := hinv.lf_le
  rw [List.length_cons] at hlen
  have hsize := hinv.size_pos
  rw [hinv.front]
  refine ⟨hcells.head (by omega), content ++ staged, rfl, hcells.pop ?_⟩
  rw [List.length_append]
  omega

end Cells

end Block

/-! ## The circle of blocks -/

/-- The picture behind a state of the queue. -/
structure Ghost (T : Type) where
  /-- The blocks from `frontBlock` to `tailBlock`. -/
  used : List Nat
  /-- The blocks behind `tailBlock`. -/
  free : List Nat
  marks : Nat → Marks
  content : Nat → List T
  /-- How many elements were in the queue when the producer's call began. -/
  held : Nat
  /-- The queue was empty when the consumer's call began. -/
  wasEmpty : Prop

namespace Ghost

/-- All blocks in the order of the circle. -/
def ring (g : Ghost T) : List Nat := g.used ++ g.free

/-- The elements in the queue, the oldest first. -/
def items (g : Ghost T) : List T := g.used.flatMap g.content

/-- New counters and content for one block. -/
def setBlock (g : Ghost T) (b : Nat) (m : Marks) (content : List T) : Ghost T :=
  { g with marks := Function.update g.marks b m, content := Function.update g.content b content }

end Ghost

/-- What the two threads are doing: the arguments of their calls and where they are. -/
structure Threads (T : Type) where
  element : Option T
  canAlloc : AllocationMode
  enq : Enqueue
  op : ConsumerOp
  deq : Dequeue T

/-- The producer is in a call. -/
def Enqueue.busy : Enqueue → Bool
  | .returned _ => false
  | _ => true

/-- The consumer is in a call. -/
def Dequeue.busy : Dequeue T → Bool
  | .removed _ | .peeked _ => false
  | _ => true

/-- The element the producer has put behind the tail of `b` without publishing it. -/
def Enqueue.staged (element : Option T) (b : Nat) : Enqueue → List T
  | .store b' _ | .storeNext b' _ => if b = b' then element.toList else []
  | _ => []

/-- The element the consumer has taken from the front of `b` without releasing the cell. -/
def Dequeue.taken (b : Nat) : Dequeue T → List T
  | .release b' _ result => if b = b' then [result] else []
  | _ => []

/-- The block the producer has made and not linked into the circle. -/
def Enqueue.unlinked : Enqueue → Option Nat
  | .link _ newBlock => some newBlock
  | _ => none

namespace Threads

variable (q : Rwq T) (g : Ghost T) (th : Threads T)

/-- The tail block was full when the producer last looked at its front. -/
def TailFull : Prop :=
  (g.marks q.tailBlock).t + 1 = (g.marks q.tailBlock).lf + (q.blocks q.tailBlock).size

/-- The free block ahead, which the producer is about to use. -/
def Ahead (n : Nat) : Prop :=
  g.free.head? = some n ∧ (g.marks n).lf = (g.marks n).f

/-- What the producer knows. `cap` elements fit without `malloc`, and every block
has at least `least` usable cells. -/
def enqInv (cap least : Nat) : Prop :=
  match th.enq with
  | .check => True
  | .loadFront b blockTail nextBlockTail =>
    b = q.tailBlock ∧ blockTail = (q.blocks b).tail ∧
      nextBlockTail = ((g.marks b).t + 1) % (q.blocks b).size
  | .write b blockTail nextBlockTail =>
    b = q.tailBlock ∧ blockTail = (q.blocks b).tail ∧
      nextBlockTail = ((g.marks b).t + 1) % (q.blocks b).size ∧
      (g.marks b).t + 1 < (g.marks b).lf + (q.blocks b).size
  | .store b nextBlockTail =>
    b = q.tailBlock ∧ nextBlockTail = ((g.marks b).t + 1) % (q.blocks b).size ∧
      (g.marks b).t + 1 < (g.marks b).lf + (q.blocks b).size
  | .full b => b = q.tailBlock ∧ TailFull q g ∧ (q.blocks b).sizeMask ≤ g.held
  | .nextFront b => b = q.tailBlock ∧ TailFull q g ∧ g.free ≠ []
  | .writeNext n nextBlockTail | .storeNext n nextBlockTail =>
    TailFull q g ∧ Ahead g n ∧ nextBlockTail = (q.blocks n).tail
  | .grow b => b = q.tailBlock ∧ TailFull q g ∧ th.canAlloc = .CanAlloc ∧ cap ≤ g.held
  | .link b n =>
    b = q.tailBlock ∧ TailFull q g ∧ n ∉ g.ring ∧ (0 < n ∧ n < q.brk) ∧
      (q.blocks n).next = (q.blocks b).next ∧ (q.blocks n).Inv (g.marks n) (g.content n) ∧
      (q.blocks n).Cells (g.marks n) (g.content n) [] [] ∧ g.content n = th.element.toList ∧
      (g.marks n).lf = (g.marks n).f ∧ least ≤ (q.blocks n).sizeMask
  | .advance n => TailFull q g ∧ Ahead g n ∧ g.content n = th.element.toList
  | .returned _ => True

/-- The element a pointer of `peek` points at is the head of the queue. -/
def PointsAtHead (b i : Nat) : Prop :=
  ∃ pre post, g.used = pre ++ b :: post ∧ (∀ x ∈ pre, g.content x = []) ∧ g.content b ≠ [] ∧
    i = (q.blocks b).front

/-- What the consumer knows. -/
def deqInv : Prop :=
  match th.deq with
  | .check => True
  | .loadTail b blockFront => b = q.frontBlock ∧ blockFront = (q.blocks b).front
  | .loadTailBlock b => b = q.frontBlock ∧ (g.used = [b] → g.wasEmpty)
  | .reload => g.used.tail ≠ []
  | .loadNext b => b = q.frontBlock ∧ g.used.tail ≠ [] ∧ g.content b = []
  | .nextTail n => g.used.tail.head? = some n ∧ g.content q.frontBlock = []
  | .moveFront n nextBlockFront =>
    g.used.tail.head? = some n ∧ g.content q.frontBlock = [] ∧
      nextBlockFront = (q.blocks n).front ∧ (g.marks n).f < (g.marks n).lt ∧ th.op ≠ .peek
  | .take b blockFront =>
    b = q.frontBlock ∧ blockFront = (q.blocks b).front ∧ (g.marks b).f < (g.marks b).lt ∧
      th.op ≠ .peek
  | .release b blockFront _ =>
    b = q.frontBlock ∧ blockFront = ((g.marks b).f + 1) % (q.blocks b).size ∧
      (g.marks b).f < (g.marks b).lt ∧ th.op ≠ .peek
  | .removed _ => True
  | .peeked none => True
  | .peeked (some (b, i)) => th.op = .peek ∧ PointsAtHead q g b i

end Threads

/-- **The invariant.** `cap` is the size the queue was made for, `least` the number
of usable cells of its smallest block. -/
structure Rel (cap least : Nat) (q : Rwq T) (th : Threads T) (g : Ghost T) : Prop where
  ok : q.fault = false
  linked : Linked (fun b => (q.blocks b).next) g.ring
  nodup : g.ring.Nodup
  pos : ∀ b ∈ g.ring, 0 < b
  below : ∀ b ∈ g.ring, b < q.brk
  /-- No block is lost. -/
  owned : ∀ b, 0 < b → b < q.brk → b ∈ g.ring ∨ th.enq.unlinked = some b
  first : g.used.head? = some q.frontBlock
  last : g.used.getLast? = some q.tailBlock
  inv : ∀ b ∈ g.ring, (q.blocks b).Inv (g.marks b) (g.content b)
  cells : ∀ b ∈ g.ring, (q.blocks b).Cells (g.marks b) (g.content b) (th.deq.taken b)
    (th.enq.staged th.element b)
  /-- A free block is empty, unless the producer is about to make it the tail block. -/
  free_empty : ∀ b ∈ g.free, g.content b ≠ [] → th.enq = .advance b
  /-- A used block behind the front one is not empty and was never consumed from. -/
  behind : ∀ b ∈ g.used.tail, g.content b ≠ [] ∧ (g.marks b).lf = (g.marks b).f
  /-- A used block before the tail one was left full. -/
  left_full : ∀ b ∈ g.used.dropLast, (g.marks b).t + 1 = (g.marks b).lf + (q.blocks b).size
  enq : th.enqInv q g cap least
  deq : th.deqInv q g
  held : th.enq.busy → g.items.length ≤ g.held
  wasEmpty : th.deq.busy → g.items = [] → g.wasEmpty
  large : ∃ k < 63, q.largestBlockSize = 2 ^ (k + 1) ∧ least < q.largestBlockSize
  least_le : ∀ b ∈ g.ring, least ≤ (q.blocks b).sizeMask
  capacity : cap ≤ max 1 (g.ring.length - 1) * least

end Darts.Queue
