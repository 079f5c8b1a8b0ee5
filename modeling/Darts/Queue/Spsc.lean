import Darts.Lib.Transition
import Darts.Queue.Construct
import Darts.Queue.Consumer
import Darts.Queue.Producer

/-!
# Two threads on one queue

`Spsc` interleaves the calls of one producer and one consumer, access by access,
and logs what they see of each other: the calls and what they return. `Fifo` is
the specification: a list, on which a call takes effect in one step, when it
returns. `Spsc.refines_fifo` says that every log is a history of that list.
-/

namespace Darts.Queue

open Transition

variable {T : Type}

/-! ## The specification -/

/-- What happens at the interface of the queue. -/
inductive Event (T : Type)
  | enqueue (element : T) (canAlloc : AllocationMode)
  /-- The call in progress asked for memory. -/
  | malloc (ok : Bool)
  | enqueued (element : T) (ok : Bool)
  | consume (op : ConsumerOp)
  /-- `try_dequeue` or `pop` returned; `none` is `false`. -/
  | removed (result : Option T)
  /-- `peek` returned; `none` is `nullptr`, else what the pointer points at. -/
  | peeked (result : Option T)

/-- A queue whose calls take effect in one step. -/
structure Fifo (T : Type) where
  items : List T
  /-- The call of the producer in progress. -/
  producer : Option (T × AllocationMode)
  /-- How many elements were held when it began. -/
  held : Nat
  outOfMemory : Bool
  /-- The call of the consumer in progress. -/
  consumer : Option ConsumerOp
  /-- The queue was empty when it began. -/
  wasEmpty : Prop

namespace Fifo

/-- The empty queue. -/
def initial (T : Type) : Fifo T :=
  { items := [], producer := none, held := 0, outOfMemory := false, consumer := none,
    wasEmpty := True }

/-- The events of a queue made for `size` elements. -/
inductive Step (size : Nat) (a : Fifo T) : Event T → Fifo T → Prop
  | enqueue (element : T) (canAlloc : AllocationMode) (hidle : a.producer = none) :
      Step size a (.enqueue element canAlloc) { a with
        producer := some (element, canAlloc), held := a.items.length, outOfMemory := false }
  /-- Memory is asked for only by `enqueue`, and only with `size` elements held. -/
  | malloc (ok : Bool) {element : T} (hcall : a.producer = some (element, .CanAlloc))
      (hheld : size ≤ a.held) : Step size a (.malloc ok) { a with outOfMemory := !ok }
  | enqueued {element : T} {canAlloc : AllocationMode}
      (hcall : a.producer = some (element, canAlloc)) :
      Step size a (.enqueued element true)
        { a with producer := none, items := a.items ++ [element] }
  /-- A call fails only with `size` elements held, and `enqueue` only without memory. -/
  | refused {element : T} {canAlloc : AllocationMode}
      (hcall : a.producer = some (element, canAlloc)) (hheld : size ≤ a.held)
      (hmemory : canAlloc = .CanAlloc → a.outOfMemory = true) :
      Step size a (.enqueued element false) { a with producer := none }
  | consume (op : ConsumerOp) (hidle : a.consumer = none) :
      Step size a (.consume op) { a with consumer := some op, wasEmpty := a.items = [] }
  | removed {op : ConsumerOp} {v : T} {rest : List T} (hcall : a.consumer = some op)
      (hop : op ≠ .peek) (hitems : a.items = v :: rest) :
      Step size a (.removed (some v)) { a with consumer := none, items := rest }
  /-- Nothing is returned only if the queue was empty when the call began. -/
  | empty {op : ConsumerOp} (hcall : a.consumer = some op) (hop : op ≠ .peek)
      (hempty : a.wasEmpty) : Step size a (.removed none) { a with consumer := none }
  | peeked {v : T} (hcall : a.consumer = some .peek) (hitems : a.items.head? = some v) :
      Step size a (.peeked (some v)) { a with consumer := none }
  | peekedNull (hcall : a.consumer = some .peek) (hempty : a.wasEmpty) :
      Step size a (.peeked none) { a with consumer := none }

/-- The histories of a queue made for `size` elements. -/
inductive History (size : Nat) : List (Event T) → Fifo T → Prop
  | start : History size [] (initial T)
  | next {log : List (Event T)} {a b : Fifo T} {e : Event T} (h : History size log a)
      (hstep : Step size a e b) : History size (log ++ [e]) b

/-- The elements of the enqueuing calls that returned `true`. -/
def sent (log : List (Event T)) : List T :=
  log.filterMap fun
    | .enqueued element true => some element
    | _ => none

/-- The elements that left the queue. -/
def received (log : List (Event T)) : List T :=
  log.filterMap fun
    | .removed result => result
    | _ => none

/-- **First in, first out**: what left the queue and what is in it is what was sent. -/
theorem History.fifo {size : Nat} {log : List (Event T)} {a : Fifo T} (h : History size log a) :
    sent log = received log ++ a.items := by
  induction h with
  | start => rfl
  | next h hstep ih =>
    unfold sent received at ih ⊢
    rw [List.filterMap_append, List.filterMap_append, ih]
    cases hstep with
    | enqueued hcall => simp
    | removed hcall hop hitems => simp [hitems]
    | _ => simp

end Fifo

/-! ## The system -/

/-- The queue, the two threads, and what was seen of them. -/
structure Spsc (T : Type) where
  q : Rwq T
  th : Threads T
  log : List (Event T)

/-- A thread calls, or executes its next access. -/
inductive Label (T : Type)
  | enqueue (element : T) (canAlloc : AllocationMode)
  | producer (malloc : Bool)
  | consume (op : ConsumerOp)
  | consumer

namespace Spsc

/-- What the step of the producer from `pe` to `pe'` shows. -/
def producerEvents (element : T) (malloc : Bool) (pe pe' : Enqueue) : List (Event T) :=
  (match pe with
    | .grow _ => [.malloc malloc]
    | _ => []) ++
  match pe' with
  | .returned ok => [.enqueued element ok]
  | _ => []

/-- What the step of the consumer to `pd` shows. -/
def consumerEvents (q : Rwq T) : Dequeue T → List (Event T)
  | .removed result => [.removed result]
  | .peeked none => [.peeked none]
  | .peeked (some (b, i)) => [.peeked ((q.blocks b).data i)]
  | _ => []

/-- One step of the interleaving. -/
def step (MAX_BLOCK_SIZE : Nat) (s : Spsc T) : Label T → Option (Spsc T)
  | .enqueue element canAlloc =>
    if s.th.enq.busy then none
    else some { s with
      th := { s.th with element := some element, canAlloc, enq := .check }
      log := s.log ++ [.enqueue element canAlloc] }
  | .producer malloc =>
    match s.th.element with
    | none => none
    | some element =>
      (s.q.inner_enqueue MAX_BLOCK_SIZE s.th.canAlloc element malloc s.th.enq).map fun r =>
        { s with
          q := r.1
          th := { s.th with enq := r.2 }
          log := s.log ++ producerEvents element malloc s.th.enq r.2 }
  | .consume op =>
    if s.th.deq.busy then none
    else some { s with
      th := { s.th with op, deq := .check }
      log := s.log ++ [.consume op] }
  | .consumer =>
    (s.q.dequeue s.th.op s.th.deq).map fun r =>
      { s with
        q := r.1
        th := { s.th with deq := r.2 }
        log := s.log ++ consumerEvents r.1 r.2 }

/-- Right after the constructor. -/
def start (q : Rwq T) : Spsc T := { q, th := .idle T, log := [] }

end Spsc

/-! ## The calls -/

variable {cap least : Nat} {q q' : Rwq T} {th : Threads T} {g : Ghost T}

theorem Enqueue.staged_of_idle {pe : Enqueue} (h : pe.busy = false) (element : Option T) (b : Nat) :
    pe.staged element b = [] := by
  cases pe with
  | returned ok => rfl
  | _ => exact absurd h (by simp [Enqueue.busy])

theorem Dequeue.taken_of_idle {pd : Dequeue T} (h : pd.busy = false) (b : Nat) :
    pd.taken b = [] := by
  cases pd with
  | removed result => rfl
  | peeked element => rfl
  | _ => exact absurd h (by simp [Dequeue.busy])

/-- Between calls every block is in the circle. -/
theorem Rel.mem_ring_of_idle (h : Rel cap least q th g) (hidle : th.enq.busy = false) {b : Nat}
    (hpos : 0 < b) (hb : b < q.brk) : b ∈ g.ring := by
  refine (h.owned b hpos hb).resolve_right fun hlink => ?_
  cases he : th.enq with
  | link t n =>
    rw [he] at hidle
    exact absurd hidle (by simp [Enqueue.busy])
  | _ =>
    rw [he] at hlink
    exact absurd hlink (by simp [Enqueue.unlinked])

/-- The producer calls. -/
theorem Rel.call_enqueue (h : Rel cap least q th g) (hidle : th.enq.busy = false) (v : T)
    (ca : AllocationMode) :
    Rel cap least q { th with element := some v, canAlloc := ca, enq := .check }
      { g with held := g.items.length } :=
  { h with
    cells := fun b hb => by
      have := h.cells b hb
      rw [Enqueue.staged_of_idle hidle] at this
      exact this
    owned := fun b hpos hb => Or.inl (h.mem_ring_of_idle hidle hpos hb)
    free_empty := fun b hb hne => by
      have := h.free_empty b hb hne
      rw [this] at hidle
      exact absurd hidle (by simp [Enqueue.busy])
    enq := trivial
    held := fun _ => Nat.le_refl _ }

/-- The consumer calls. -/
theorem Rel.call_dequeue (h : Rel cap least q th g) (hidle : th.deq.busy = false)
    (op : ConsumerOp) :
    Rel cap least q { th with op, deq := .check } { g with wasEmpty := g.items = [] } :=
  { h with
    cells := fun b hb => by
      have := h.cells b hb
      rw [Dequeue.taken_of_idle hidle] at this
      exact this
    deq := trivial
    wasEmpty := fun _ hnil => hnil }

/-! ## The refinement -/

/-- The call of the producer in progress. -/
def Threads.producerCall (th : Threads T) : Option (T × AllocationMode) :=
  if th.enq.busy then th.element.map (·, th.canAlloc) else none

/-- The call of the consumer in progress. -/
def Threads.consumerCall (th : Threads T) : Option ConsumerOp :=
  if th.deq.busy then some th.op else none

theorem Threads.producerCall_of_busy (hb : th.enq.busy) {v : T} (hv : th.element = some v) :
    th.producerCall = some (v, th.canAlloc) := by
  rw [producerCall, if_pos hb, hv]
  rfl

theorem Threads.consumerCall_of_busy (hb : th.deq.busy) : th.consumerCall = some th.op :=
  if_pos hb

/-- The specification is where the queue is. -/
structure Tied (th : Threads T) (g : Ghost T) (a : Fifo T) : Prop where
  items : a.items = g.items
  producer : a.producer = th.producerCall
  consumer : a.consumer = th.consumerCall
  held : a.held = g.held
  wasEmpty : a.wasEmpty = g.wasEmpty
  element : th.enq.busy → ∃ v, th.element = some v

namespace Spsc

variable {MAX size : Nat} {s t : Spsc T}

/-- The invariant of the system. -/
def Inv (size : Nat) (s : Spsc T) : Prop :=
  ∃ least g a, Rel size least s.q s.th g ∧ Fifo.History size s.log a ∧ Tied s.th g a

theorem inv_start {malloc : Nat → Bool} {q : Rwq T} (hs : Sizes MAX size)
    (h : construct T MAX size malloc = some q) : Inv size (start q) := by
  obtain ⟨least, k, hrel⟩ := construct_rel hs h
  have hitems : (Ghost.fresh T k).items = [] := rfl
  exact ⟨least, _, _, hrel, .start, hitems.symm, rfl, rfl, rfl, rfl,
    fun hb => absurd hb (by simp [start, Threads.idle, Enqueue.busy])⟩

/-- Asking for memory is an event of its own. -/
theorem exists_malloc (malloc : Bool) {least : Nat} {g : Ghost T} {a : Fifo T} {v : T}
    (hrel : Rel size least s.q s.th g) (hhist : Fifo.History size s.log a) (htied : Tied s.th g a)
    (hcall : a.producer = some (v, s.th.canAlloc)) :
    ∃ a', Fifo.History size (s.log ++ match s.th.enq with
        | .grow _ => [.malloc malloc]
        | _ => []) a' ∧ Tied s.th g a' ∧
      ((∃ b, s.th.enq = .grow b) → a'.outOfMemory = !malloc) := by
  cases he : s.th.enq with
  | grow b =>
    have hknow := hrel.enq
    rw [Threads.enqInv, he] at hknow
    obtain ⟨-, -, hmode, hcap⟩ := hknow
    rw [hmode] at hcall
    exact ⟨_, hhist.next (.malloc malloc hcall (by rw [htied.held]; exact hcap)),
      { htied with }, fun _ => rfl⟩
  | _ =>
    refine ⟨a, by simpa using hhist, htied, ?_⟩
    rintro ⟨b, hb⟩
    exact absurd hb (by simp)

/-- A step of the producer is at most two events of the specification. -/
theorem inv_producer (hMAX : MAX ≤ 2 ^ 63) {malloc : Bool} (hinv : Inv size s)
    (h : step MAX s (.producer malloc) = some t) : Inv size t := by
  obtain ⟨least, g, a, hrel, hhist, htied⟩ := hinv
  simp only [step] at h
  split at h
  next => exact absurd h (by simp)
  next v hv =>
    obtain ⟨⟨q', pe⟩, hs, rfl⟩ := Option.map_eq_some_iff.mp h
    have hbusy : s.th.enq.busy := by
      cases he : s.th.enq with
      | returned ok =>
        rw [he] at hs
        exact absurd hs (by simp [Rwq.inner_enqueue])
      | _ => rfl
    have hcalled := Threads.producerCall_of_busy hbusy hv
    obtain ⟨items, ⟨g', hrel', hitems, hheld, hempty⟩, heffect⟩ := hrel.enqueue_step hMAX hv hs
    obtain ⟨a', hhist', htied', hmemory⟩ := exists_malloc malloc hrel hhist htied
      (htied.producer.trans hcalled)
    have hcall := htied'.producer.trans hcalled
    have hheld' := htied'.held.trans hheld.symm
    have hempty' := htied'.wasEmpty.trans hempty.symm
    have hgoing : pe.busy → ({ s.th with enq := pe } : Threads T).producerCall =
        some (v, s.th.canAlloc) := fun hb => Threads.producerCall_of_busy hb hv
    refine ⟨least, g', ?_⟩
    unfold producerEvents
    rw [← List.append_assoc]
    cases pe with
    | returned ok =>
      cases ok with
      | true =>
        obtain rfl : items = g.items ++ [v] := heffect
        exact ⟨_, hrel', hhist'.next (.enqueued hcall), (congrArg (· ++ [v]) htied'.items).trans
          hitems.symm, rfl, htied'.consumer, hheld', hempty', fun hb =>
          absurd hb (by simp [Enqueue.busy])⟩
      | false =>
        obtain ⟨rfl, hcap, hmode⟩ := heffect
        refine ⟨_, hrel', hhist'.next (.refused hcall (by rw [htied'.held]; exact hcap) fun hcan => ?_),
          htied'.items.trans hitems.symm, rfl, htied'.consumer, hheld', hempty', fun hb =>
          absurd hb (by simp [Enqueue.busy])⟩
        obtain ⟨rfl, hgrow⟩ := hmode hcan
        exact hmemory hgrow
    | _ =>
      obtain rfl : items = g.items := heffect
      rw [List.append_nil]
      exact ⟨a', hrel', hhist', htied'.items.trans hitems.symm, hcall.trans
        (hgoing rfl).symm, htied'.consumer, hheld', hempty', fun _ => ⟨v, hv⟩⟩

/-- A step of the consumer is at most one event of the specification. -/
theorem inv_consumer (hinv : Inv size s) (h : step MAX s .consumer = some t) : Inv size t := by
  obtain ⟨least, g, a, hrel, hhist, htied⟩ := hinv
  simp only [step] at h
  obtain ⟨⟨q', pd⟩, hs, rfl⟩ := Option.map_eq_some_iff.mp h
  have hbusy : s.th.deq.busy := by
    cases hd : s.th.deq with
    | removed result =>
      rw [hd] at hs
      exact absurd hs (by simp [Rwq.dequeue])
    | peeked element =>
      rw [hd] at hs
      exact absurd hs (by simp [Rwq.dequeue])
    | _ => rfl
  have hcall := htied.consumer.trans (Threads.consumerCall_of_busy hbusy)
  obtain ⟨items, ⟨g', hrel', hitems, hheld, hempty⟩, heffect⟩ := hrel.dequeue_step hs
  have hheld' := htied.held.trans hheld.symm
  have hempty' := htied.wasEmpty.trans hempty.symm
  have hgoing : pd.busy → ({ s.th with deq := pd } : Threads T).consumerCall = some s.th.op :=
    fun hb => Threads.consumerCall_of_busy hb
  refine ⟨least, g', ?_⟩
  cases pd with
  | removed result =>
    cases result with
    | none =>
      obtain ⟨hop, rfl, hnil⟩ := heffect
      exact ⟨_, hrel', hhist.next (.empty hcall hop (by rw [htied.wasEmpty]; exact hnil)),
        htied.items.trans hitems.symm, htied.producer, rfl, hheld', hempty', htied.element⟩
    | some v =>
      obtain ⟨hop, hcons⟩ := heffect
      exact ⟨_, hrel', hhist.next (.removed hcall hop (htied.items.trans hcons)), hitems.symm,
        htied.producer, rfl, hheld', hempty', htied.element⟩
  | peeked element =>
    cases element with
    | none =>
      obtain ⟨hop, rfl, hnil⟩ := heffect
      rw [hop] at hcall
      exact ⟨_, hrel', hhist.next (.peekedNull hcall (by rw [htied.wasEmpty]; exact hnil)),
        htied.items.trans hitems.symm, htied.producer, rfl, hheld', hempty', htied.element⟩
    | some pointer =>
      obtain ⟨b, i⟩ := pointer
      obtain rfl : items = g.items := heffect
      obtain ⟨v, hdata, hhead⟩ := hrel'.deref_peeked rfl
      have hop := hrel'.deq.1
      rw [show s.th.op = .peek from hop] at hcall
      have hsome : a.items.head? = some v := by rw [htied.items, ← hitems, hhead]
      have hnext := hhist.next (.peeked hcall hsome)
      rw [← hdata] at hnext
      exact ⟨_, hrel', hnext, htied.items.trans hitems.symm, htied.producer, rfl, hheld', hempty',
        htied.element⟩
  | _ =>
    obtain rfl : items = g.items := heffect
    exact ⟨a, hrel', by simpa [consumerEvents] using hhist, htied.items.trans hitems.symm,
      htied.producer, hcall.trans (hgoing rfl).symm, hheld', hempty',
      htied.element⟩

/-- Every step keeps the invariant. -/
theorem inv_step (hMAX : MAX ≤ 2 ^ 63) {l : Label T} (hinv : Inv size s)
    (h : step MAX s l = some t) : Inv size t := by
  cases l with
  | producer malloc => exact inv_producer hMAX hinv h
  | consumer => exact inv_consumer hinv h
  | enqueue element canAlloc =>
    obtain ⟨least, g, a, hrel, hhist, htied⟩ := hinv
    simp only [step] at h
    split at h
    next => exact absurd h (by simp)
    next hidle =>
      obtain rfl := Option.some.inj h
      have hnone : a.producer = none := htied.producer.trans (if_neg hidle)
      exact ⟨least, _, _, hrel.call_enqueue (by simpa using hidle) element canAlloc,
        hhist.next (.enqueue element canAlloc hnone), htied.items, rfl, htied.consumer,
        congrArg List.length htied.items, htied.wasEmpty, fun _ => ⟨element, rfl⟩⟩
  | consume op =>
    obtain ⟨least, g, a, hrel, hhist, htied⟩ := hinv
    simp only [step] at h
    split at h
    next => exact absurd h (by simp)
    next hidle =>
      obtain rfl := Option.some.inj h
      have hnone : a.consumer = none := htied.consumer.trans (if_neg hidle)
      exact ⟨least, _, _, hrel.call_dequeue (by simpa using hidle) op,
        hhist.next (.consume op hnone), htied.items, htied.producer, rfl, htied.held,
        congrArg (· = []) htied.items, htied.element⟩

theorem inv_reachable {malloc : Nat → Bool} {q : Rwq T} (hs : Sizes MAX size)
    (hq : construct T MAX size malloc = some q) (h : Reachable (step MAX) (start q) s) :
    Inv size s :=
  h.invariant (Inv size) (inv_start hs hq) fun _ _ _ _ hinv hl => inv_step hs.max_le hinv hl

/-- **The lock-free queue is a FIFO queue.** Whatever the interleaving, no assertion
fails and no cell is used outside its element's lifetime, and the log is a history
of the specification: elements leave in the order they came, each once; a call of
the consumer finds nothing only if the queue was empty when it began; a call of the
producer fails, or asks for memory, only with `size` elements held. -/
theorem refines_fifo {malloc : Nat → Bool} {q : Rwq T} (hs : Sizes MAX size)
    (hq : construct T MAX size malloc = some q) (h : Reachable (step MAX) (start q) s) :
    s.q.fault = false ∧ ∃ a, Fifo.History size s.log a ∧
      Fifo.sent s.log = Fifo.received s.log ++ a.items := by
  obtain ⟨least, g, a, hrel, hhist, -⟩ := inv_reachable hs hq h
  exact ⟨hrel.ok, a, hhist, hhist.fifo⟩

/-- A `pop` between two calls of the producer, in a queue made for one element. -/
def popBetween : Option (Spsc Nat) :=
  (construct Nat 2 1 fun _ => true).bind fun q => run (step 2) (start q)
    [.enqueue 7 .CanAlloc, .producer true, .producer true, .producer true, .consume .pop,
      .consumer, .consumer, .enqueue 8 .CannotAlloc, .consumer, .consumer, .producer true,
      .producer true, .producer true, .producer true]

theorem refines_fifo_one : ∃ s, popBetween = some s ∧ Fifo.received s.log = [7] ∧
    ∃ a, Fifo.History 1 s.log a ∧ Fifo.sent s.log = Fifo.received s.log ++ a.items := by
  have hmap : popBetween.map (fun s => Fifo.received s.log) = some [7] := rfl
  obtain ⟨s, hs, hreceived⟩ := Option.map_eq_some_iff.mp hmap
  obtain ⟨q, hq, hrun⟩ := Option.bind_eq_some_iff.mp hs
  exact ⟨s, hs, hreceived, (refines_fifo ⟨by decide, by decide, 0, by decide, by decide⟩ hq
    (.of_run hrun)).2⟩

end Spsc

end Darts.Queue
