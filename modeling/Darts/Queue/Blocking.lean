import Darts.Queue.Construct
import Darts.Queue.Semaphore

/-!
# `moodycamel::BlockingReaderWriterQueue`

The lock-free queue with a `LightweightSemaphore` that counts its elements: the producer
signals after every element it has enqueued, the consumer waits before it dequeues one.
`peek` looks at the queue without asking the semaphore, `size_approx` at the semaphore
without asking the queue.

`Blocking` is such a queue together with the calls of its two threads. A step is one
access, as in `ReaderWriterQueue` and `Semaphore`, and says what it shows.
-/

namespace Darts.Queue

variable {T : Type}

/-- The calls of the consumer. -/
inductive BlockingOp
  | try_dequeue
  | wait_dequeue
  | wait_dequeue_timed
  | pop
  | peek
  | size_approx
deriving DecidableEq

/-- How the call waits for the semaphore. -/
def BlockingOp.mode : BlockingOp → WaitMode
  | .wait_dequeue => .wait
  | .wait_dequeue_timed => .timed
  | _ => .tryWait

/-- What it then calls on `inner`. -/
def BlockingOp.inner : BlockingOp → ConsumerOp
  | .pop => .pop
  | .peek => .peek
  | _ => .try_dequeue

/-- The call waits for the semaphore first. -/
def BlockingOp.waits : BlockingOp → Bool
  | .peek | .size_approx => false
  | _ => true

/-- Where a call of `enqueue` or `try_enqueue` is. -/
inductive EnqueueCall
  /-- In `inner.enqueue(element)`. -/
  | inner
  /-- In `sema->signal()`. -/
  | signal (ps : Signal)
  | returned (ok : Bool)
deriving DecidableEq

/-- What a call of the consumer returns. -/
inductive Result (T : Type)
  /-- The element that left the queue; `none` is `false`. -/
  | removed (element : Option T)
  /-- A pointer, a block and an index into its data; `none` is `nullptr`. -/
  | peeked (element : Option (Nat × Nat))
  | size (count : Nat)

/-- Where a call of the consumer is. -/
inductive DequeueCall (T : Type)
  /-- In `sema->tryWait()` or `sema->wait(..)`. -/
  | wait (pw : Wait)
  /-- In `inner.try_dequeue(result)`, `inner.pop()` or `inner.peek()`. -/
  | inner
  /-- `sema->availableApprox()`. -/
  | load
  | returned (result : Result T)

/-- `BlockingReaderWriterQueue` and its two threads. -/
structure Blocking (T : Type) where
  inner : Rwq T
  sema : LightweightSemaphore
  /-- The calls on `inner`. -/
  th : Threads T
  enq : EnqueueCall
  op : BlockingOp
  deq : DequeueCall T
  /-- An `assert(success)` failed. -/
  fault : Bool

/-- What a step shows. -/
inductive BlockingEvent (T : Type)
  | enqueue (element : T) (canAlloc : AllocationMode)
  | malloc (ok : Bool)
  /-- The element is in `inner`. -/
  | published (element : T)
  /-- The counter of the semaphore was increased. -/
  | signalled
  | enqueued (element : T) (ok : Bool)
  | consume (op : BlockingOp)
  /-- The semaphore let the consumer pass. -/
  | granted
  | removed (result : Option T)
  | peeked (result : Option T)
  | size (count : Nat)

/-- A thread calls, or executes its next access. -/
inductive BlockingLabel (T : Type)
  | enqueue (element : T) (canAlloc : AllocationMode)
  | producer (malloc : Bool)
  | consume (op : BlockingOp)
  | consumer (timeout : Bool)

namespace Blocking

/-- `BlockingReaderWriterQueue(size)`, with `inner(size)` given. -/
def start (inner : Rwq T) : Blocking T :=
  { inner, sema := .make 0, th := .idle T, enq := .returned true, op := .peek,
    deq := .returned (.removed none), fault := false }

/-- `enqueue` is called. -/
def callEnqueue (b : Blocking T) (element : T) (canAlloc : AllocationMode) :
    Option (Blocking T × List (BlockingEvent T)) :=
  match b.enq with
  | .returned _ => some ({ b with
      th := { b.th with element := some element, canAlloc, enq := .check }
      enq := .inner }, [.enqueue element canAlloc])
  | _ => none

/-- A call of the consumer. -/
def callConsume (b : Blocking T) (op : BlockingOp) :
    Option (Blocking T × List (BlockingEvent T)) :=
  match b.deq with
  | .returned _ =>
    some (match op with
      | .peek => { b with th := { b.th with op := .peek, deq := .check }, op, deq := .inner }
      | .size_approx => { b with op, deq := .load }
      | _ => { b with op, deq := .wait .load }, [.consume op])
  | _ => none

/-- The next access of the producer. -/
def producer (MAX_BLOCK_SIZE : Nat) (b : Blocking T) (malloc : Bool) :
    Option (Blocking T × List (BlockingEvent T)) :=
  b.th.element.bind fun element =>
    match b.enq with
    | .inner =>
      (b.inner.inner_enqueue MAX_BLOCK_SIZE b.th.canAlloc element malloc b.th.enq).map fun r =>
        let asked := match b.th.enq with
          | .grow _ => [.malloc malloc]
          | _ => []
        let b := { b with inner := r.1, th := { b.th with enq := r.2 } }
        match r.2 with
        | .returned true => ({ b with enq := .signal .add }, asked ++ [.published element])
        | .returned false => ({ b with enq := .returned false }, asked ++ [.enqueued element false])
        | _ => (b, asked)
    | .signal ps =>
      (b.sema.signal ps).map fun r =>
        let signalled := match ps with
          | .add => [.signalled]
          | _ => []
        let b := { b with sema := r.1 }
        match r.2 with
        | .returned => ({ b with enq := .returned true }, signalled ++ [.enqueued element true])
        | ps => ({ b with enq := .signal ps }, signalled)
    | .returned _ => none

/-- The next access of the consumer. -/
def consumer (b : Blocking T) (timeout : Bool) : Option (Blocking T × List (BlockingEvent T)) :=
  match b.deq with
  | .wait pw =>
    (b.sema.wait b.op.mode timeout pw).map fun r =>
      let b := { b with sema := r.1 }
      match r.2 with
      | .returned true =>
        ({ b with th := { b.th with op := b.op.inner, deq := .check }, deq := .inner }, [.granted])
      | .returned false =>
        -- `while (!sema->wait());`
        if b.op = .wait_dequeue then ({ b with deq := .wait .load }, [])
        else ({ b with deq := .returned (.removed none) }, [.removed none])
      | pw => ({ b with deq := .wait pw }, [])
  | .inner =>
    (b.inner.dequeue b.th.op b.th.deq).map fun r =>
      let b := { b with inner := r.1, th := { b.th with deq := r.2 } }
      match r.2 with
      | .removed (some v) => ({ b with deq := .returned (.removed (some v)) }, [.removed (some v)])
      | .removed none =>
        ({ b with deq := .returned (.removed none), fault := true }, [.removed none])
      | .peeked none => ({ b with deq := .returned (.peeked none) }, [.peeked none])
      | .peeked (some (x, i)) =>
        ({ b with deq := .returned (.peeked (some (x, i))) }, [.peeked ((r.1.blocks x).data i)])
      | _ => (b, [])
  | .load =>
    some ({ b with deq := .returned (.size b.sema.availableApprox) },
      [.size b.sema.availableApprox])
  | .returned _ => none

/-- One step of the interleaving. -/
def step (MAX_BLOCK_SIZE : Nat) (b : Blocking T) :
    BlockingLabel T → Option (Blocking T × List (BlockingEvent T))
  | .enqueue element canAlloc => b.callEnqueue element canAlloc
  | .producer malloc => b.producer MAX_BLOCK_SIZE malloc
  | .consume op => b.callConsume op
  | .consumer timeout => b.consumer timeout

/-- The queue, and what was seen of it. -/
def logged (MAX_BLOCK_SIZE : Nat) (s : Blocking T × List (BlockingEvent T))
    (l : BlockingLabel T) : Option (Blocking T × List (BlockingEvent T)) :=
  (s.1.step MAX_BLOCK_SIZE l).map fun r => (r.1, s.2 ++ r.2)

end Blocking

/-! ## The specification -/

/-- How far a call of `enqueue` is. -/
inductive Stage
  | called
  | published
  | signalled
deriving DecidableEq

/-- A queue with a count of the elements the consumer may take. -/
structure BlockingFifo (T : Type) where
  items : List T
  permits : Nat
  /-- The call of the producer in progress. -/
  producer : Option (T × AllocationMode × Stage)
  /-- How many elements were held when it began. -/
  held : Nat
  outOfMemory : Bool
  /-- The call of the consumer in progress, and whether it was let pass. -/
  consumer : Option (BlockingOp × Bool)
  /-- The queue was empty when it began. -/
  wasEmpty : Prop

namespace BlockingFifo

/-- The empty queue. -/
def initial (T : Type) : BlockingFifo T :=
  { items := [], permits := 0, producer := none, held := 0, outOfMemory := false, consumer := none,
    wasEmpty := True }

/-- The events of a queue made for `size` elements. -/
inductive Step (size : Nat) (a : BlockingFifo T) : BlockingEvent T → BlockingFifo T → Prop
  | enqueue (element : T) (canAlloc : AllocationMode) (hidle : a.producer = none) :
      Step size a (.enqueue element canAlloc) { a with
        producer := some (element, canAlloc, .called), held := a.items.length
        outOfMemory := false }
  | malloc (ok : Bool) {element : T} (hcall : a.producer = some (element, .CanAlloc, .called))
      (hheld : size ≤ a.held) : Step size a (.malloc ok) { a with outOfMemory := !ok }
  | published {element : T} {canAlloc : AllocationMode}
      (hcall : a.producer = some (element, canAlloc, .called)) :
      Step size a (.published element) { a with
        producer := some (element, canAlloc, .published), items := a.items ++ [element] }
  | signalled {element : T} {canAlloc : AllocationMode}
      (hcall : a.producer = some (element, canAlloc, .published)) :
      Step size a .signalled { a with
        producer := some (element, canAlloc, .signalled), permits := a.permits + 1 }
  | enqueued {element : T} {canAlloc : AllocationMode}
      (hcall : a.producer = some (element, canAlloc, .signalled)) :
      Step size a (.enqueued element true) { a with producer := none }
  /-- A call fails only with `size` elements held, and `enqueue` only without memory. -/
  | refused {element : T} {canAlloc : AllocationMode}
      (hcall : a.producer = some (element, canAlloc, .called)) (hheld : size ≤ a.held)
      (hmemory : canAlloc = .CanAlloc → a.outOfMemory = true) :
      Step size a (.enqueued element false) { a with producer := none }
  | consume (op : BlockingOp) (hidle : a.consumer = none) :
      Step size a (.consume op) { a with consumer := some (op, false), wasEmpty := a.items = [] }
  | granted {op : BlockingOp} {permits : Nat} (hcall : a.consumer = some (op, false))
      (hop : op.waits) (hpermits : a.permits = permits + 1) :
      Step size a .granted { a with consumer := some (op, true), permits }
  /-- Whoever was let pass finds an element. -/
  | removed {op : BlockingOp} {v : T} {rest : List T} (hcall : a.consumer = some (op, true))
      (hitems : a.items = v :: rest) :
      Step size a (.removed (some v)) { a with consumer := none, items := rest }
  /-- A call returns `false` only when there is no permit, and `wait_dequeue` never does. -/
  | empty {op : BlockingOp} (hcall : a.consumer = some (op, false)) (hop : op.waits)
      (hwait : op ≠ .wait_dequeue) (hpermits : a.permits = 0) :
      Step size a (.removed none) { a with consumer := none }
  | peeked {v : T} (hcall : a.consumer = some (.peek, false)) (hitems : a.items.head? = some v) :
      Step size a (.peeked (some v)) { a with consumer := none }
  | peekedNull (hcall : a.consumer = some (.peek, false)) (hempty : a.wasEmpty) :
      Step size a (.peeked none) { a with consumer := none }
  | size (hcall : a.consumer = some (.size_approx, false)) :
      Step size a (.size a.permits) { a with consumer := none }

/-- A sequence of events. -/
inductive Steps (size : Nat) : BlockingFifo T → List (BlockingEvent T) → BlockingFifo T → Prop
  | nil {a : BlockingFifo T} : Steps size a [] a
  | snoc {a b c : BlockingFifo T} {log : List (BlockingEvent T)} {e : BlockingEvent T}
      (h : Steps size a log b) (hstep : Step size b e c) : Steps size a (log ++ [e]) c

theorem Steps.one {size : Nat} {a b : BlockingFifo T} {e : BlockingEvent T}
    (h : Step size a e b) : Steps size a [e] b :=
  .snoc .nil h

theorem Steps.append {size : Nat} {a b c : BlockingFifo T} {log log' : List (BlockingEvent T)}
    (h : Steps size a log b) (h' : Steps size b log' c) : Steps size a (log ++ log') c := by
  induction h' with
  | nil => rwa [List.append_nil]
  | snoc _ hstep ih =>
    rw [← List.append_assoc]
    exact ih.snoc hstep

/-- The elements that were put into the queue. -/
def sent (log : List (BlockingEvent T)) : List T :=
  log.filterMap fun
    | .published element => some element
    | _ => none

/-- The elements that left the queue. -/
def received (log : List (BlockingEvent T)) : List T :=
  log.filterMap fun
    | .removed result => result
    | _ => none

/-- The elements whose call of `enqueue` has returned. -/
def enqueued (log : List (BlockingEvent T)) : List T :=
  log.filterMap fun
    | .enqueued element true => some element
    | _ => none

/-- The element in the queue that was not signalled. -/
def unsignalled (a : BlockingFifo T) : Nat :=
  match a.producer with
  | some (_, _, .published) => 1
  | _ => 0

/-- The permit of the call that was let pass. -/
def claimed (a : BlockingFifo T) : Nat :=
  match a.consumer with
  | some (_, true) => 1
  | _ => 0

variable {size : Nat} {a : BlockingFifo T} {log : List (BlockingEvent T)}

/-- **First in, first out**: what left the queue and what is in it is what was sent. -/
theorem Steps.fifo (h : Steps size (initial T) log a) : sent log = received log ++ a.items := by
  induction h with
  | nil => rfl
  | snoc h hstep ih =>
    unfold sent received at ih ⊢
    rw [List.filterMap_append, List.filterMap_append, ih]
    cases hstep with
    | published hcall => simp
    | removed hcall hitems => simp [hitems]
    | _ => simp

/-- **The semaphore counts the queue**, but for an element not yet signalled and for the
permit of a consumer on its way. -/
theorem Steps.counted (h : Steps size (initial T) log a) :
    a.items.length = a.permits + a.unsignalled + a.claimed := by
  induction h with
  | nil => rfl
  | snoc h hstep ih =>
    unfold unsignalled claimed at ih ⊢
    cases hstep with
    | enqueue element canAlloc hidle => simpa [hidle] using ih
    | malloc ok hcall hheld => exact ih
    | consume op hidle => simpa [hidle] using ih
    | granted hcall hop hpermits =>
      simp [hcall, hpermits] at ih ⊢
      omega
    | removed hcall hitems =>
      simp [hcall, hitems] at ih ⊢
      omega
    | published hcall | signalled hcall | enqueued hcall | refused hcall | empty hcall
      | peeked hcall | peekedNull hcall | size hcall =>
      simp [hcall] at ih ⊢
      omega

end BlockingFifo

end Darts.Queue
