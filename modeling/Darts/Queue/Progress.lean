import Darts.Queue.Spsc

/-!
# Calls on the lock-free queue go on

Each step of a call brings it nearer to its return, and the next step is never blocked.
The pointer `peek` returned stays good until the consumer calls again.
-/

namespace Darts.Queue

open Transition

variable {T : Type}

/-- How many steps `inner_enqueue` still makes at most. -/
def Enqueue.left : Enqueue → Nat
  | .check => 7
  | .loadFront .. => 6
  | .full _ => 5
  | .nextFront _ => 4
  | .writeNext .. | .grow _ => 3
  | .write .. | .storeNext .. | .link .. => 2
  | .store .. | .advance _ => 1
  | .returned _ => 0

/-- How many steps `try_dequeue`, `peek` or `pop` still makes at most. -/
def Dequeue.left : Dequeue T → Nat
  | .check => 9
  | .loadTail .. => 8
  | .loadTailBlock _ => 7
  | .reload => 6
  | .loadNext _ => 5
  | .nextTail _ => 4
  | .moveFront .. => 3
  | .take .. => 2
  | .release .. => 1
  | .removed _ | .peeked _ => 0

namespace Rwq

/-- A step of the producer brings its call nearer to the return. -/
theorem inner_enqueue_left {MAX : Nat} {ca : AllocationMode} {v : T} {malloc : Bool} {q q' : Rwq T}
    {pe pe' : Enqueue} (h : q.inner_enqueue MAX ca v malloc pe = some (q', pe')) :
    pe'.left < pe.left := by
  cases pe with
  | returned ok => exact absurd h (by simp [inner_enqueue])
  | check | loadFront =>
    simp only [inner_enqueue, Option.some.injEq, Prod.mk.injEq] at h
    obtain ⟨-, rfl⟩ := h
    split <;> simp [Enqueue.left]
  | full =>
    simp only [inner_enqueue, Option.some.injEq, Prod.mk.injEq] at h
    obtain ⟨-, rfl⟩ := h
    split
    next => simp [Enqueue.left]
    next => cases ca <;> simp [Enqueue.left]
  | grow =>
    cases malloc <;>
    · simp only [inner_enqueue, Bool.false_eq_true, if_false, if_true, Option.some.injEq,
        Prod.mk.injEq] at h
      obtain ⟨-, rfl⟩ := h
      simp [Enqueue.left]
  | write | store | nextFront | writeNext | storeNext | link | advance =>
    simp only [inner_enqueue, Option.some.injEq, Prod.mk.injEq] at h
    obtain ⟨-, rfl⟩ := h
    simp [Enqueue.left]

theorem found_left (op : ConsumerOp) (b i : Nat) : (found op b i : Dequeue T).left ≤ 2 := by
  cases op <;> simp [found, Dequeue.left]

/-- A step of the consumer brings its call nearer to the return. -/
theorem dequeue_left {op : ConsumerOp} {q q' : Rwq T} {pd pd' : Dequeue T}
    (h : q.dequeue op pd = some (q', pd')) : pd'.left < pd.left := by
  cases pd with
  | removed result => exact absurd h (by simp [dequeue])
  | peeked element => exact absurd h (by simp [dequeue])
  | check | loadTail | reload =>
    simp only [dequeue, Option.some.injEq, Prod.mk.injEq] at h
    obtain ⟨-, rfl⟩ := h
    split
    next => exact (found_left _ _ _).trans_lt (by simp [Dequeue.left])
    next => simp [Dequeue.left]
  | loadTailBlock =>
    simp only [dequeue, Option.some.injEq, Prod.mk.injEq] at h
    obtain ⟨-, rfl⟩ := h
    split
    next => simp [Dequeue.left]
    next => cases op <;> simp [nothing, Dequeue.left]
  | nextTail =>
    cases op <;>
    · simp only [dequeue, Option.some.injEq, Prod.mk.injEq] at h
      obtain ⟨-, rfl⟩ := h
      simp [Dequeue.left]
  | take =>
    simp only [dequeue] at h
    split at h <;>
    · simp only [Option.some.injEq, Prod.mk.injEq] at h
      obtain ⟨-, rfl⟩ := h
      simp [Dequeue.left]
  | loadNext | moveFront | release =>
    simp only [dequeue, Option.some.injEq, Prod.mk.injEq] at h
    obtain ⟨-, rfl⟩ := h
    simp [Dequeue.left]

theorem inner_enqueue_ne_none (MAX : Nat) (ca : AllocationMode) (v : T) (malloc : Bool) (q : Rwq T)
    {pe : Enqueue} (hb : pe.busy) : q.inner_enqueue MAX ca v malloc pe ≠ none := by
  cases pe with
  | returned ok => exact absurd hb (by simp [Enqueue.busy])
  | grow =>
    simp only [inner_enqueue]
    split <;> simp
  | _ => simp [inner_enqueue]

theorem dequeue_ne_none (op : ConsumerOp) (q : Rwq T) {pd : Dequeue T} (hb : pd.busy) :
    q.dequeue op pd ≠ none := by
  cases pd with
  | removed result => exact absurd hb (by simp [Dequeue.busy])
  | peeked element => exact absurd hb (by simp [Dequeue.busy])
  | nextTail =>
    simp only [dequeue]
    split <;> simp
  | take =>
    simp only [dequeue]
    split <;> simp
  | _ => simp [dequeue]

end Rwq

namespace Spsc

variable {MAX size : Nat} {s : Spsc T}

/-- **The pointer of `peek`** points at the head of the queue in every state until the
consumer calls again, whatever the producer does meanwhile. -/
theorem peek_stable {malloc : Nat → Bool} {q : Rwq T} (hs : Sizes MAX size)
    (hq : construct T MAX size malloc = some q) (h : Reachable (step MAX) (start q) s) {b i : Nat}
    (hp : s.th.deq = .peeked (some (b, i))) :
    ∃ a v, Fifo.History size s.log a ∧ a.items.head? = some v ∧ (s.q.blocks b).data i = some v := by
  obtain ⟨least, g, a, hrel, hhist, htied⟩ := inv_reachable hs hq h
  obtain ⟨v, hdata, hhead⟩ := hrel.deref_peeked hp
  exact ⟨a, v, hhist, by rw [htied.items, hhead], hdata⟩

/-- A `peek`, and then an `enqueue` that has to make a new block. -/
def peekBefore : Option (Spsc Nat) :=
  (construct Nat 2 1 fun _ => true).bind fun q => run (step 2) (start q)
    [.enqueue 7 .CanAlloc, .producer true, .producer true, .producer true, .consume .peek,
      .consumer, .consumer, .enqueue 8 .CanAlloc, .producer true, .producer true, .producer true,
      .producer true, .producer true, .producer true]

theorem peek_stable_one : ∃ s, peekBefore = some s ∧ ∃ a v, Fifo.History 1 s.log a ∧
    a.items.head? = some v ∧ (s.q.blocks 1).data 0 = some v := by
  have hmap : peekBefore.map (fun s => s.th.deq) = some (.peeked (some (1, 0))) := rfl
  obtain ⟨s, hs, hp⟩ := Option.map_eq_some_iff.mp hmap
  obtain ⟨q, hq, hrun⟩ := Option.bind_eq_some_iff.mp hs
  exact ⟨s, hs, peek_stable ⟨by decide, by decide, 0, by decide, by decide⟩ hq (.of_run hrun) hp⟩

end Spsc

end Darts.Queue
