import Darts.Queue.Progress
import Darts.Queue.Signalled

/-!
# Runs of the blocking queue

What the two threads see of each other over a whole run: nothing is lost, a call comes
back with nothing only when nothing was left for it, and a sleeping consumer is woken.
-/

namespace Darts.Queue

open Transition

variable {T : Type}

namespace BlockingFifo

variable {size : Nat} {a : BlockingFifo T} {log : List (BlockingEvent T)}

/-- The element of the call in progress, once it is in the queue. -/
def pending (a : BlockingFifo T) : List T :=
  match a.producer with
  | some (_, _, .called) | none => []
  | some (element, _, _) => [element]

/-- What was put into the queue was put there by calls that have returned, or by the
one in progress. -/
theorem Steps.sent_eq (h : Steps size (initial T) log a) :
    sent log = enqueued log ++ a.pending := by
  induction h with
  | nil => rfl
  | snoc h hstep ih =>
    unfold sent enqueued pending at ih ⊢
    rw [List.filterMap_append, List.filterMap_append, ih]
    cases hstep with
    | enqueue element canAlloc hidle => simp [hidle]
    | published hcall | signalled hcall | enqueued hcall | refused hcall => simp [hcall]
    | _ => simp

/-- **Without a permit, and with nobody let pass, nothing is kept from the consumer.** -/
theorem Steps.enqueued_prefix (h : Steps size (initial T) log a) (hpermits : a.permits = 0)
    (hclaimed : a.claimed = 0) : enqueued log <+: received log := by
  have hall : enqueued log ++ a.pending = received log ++ a.items := h.sent_eq ▸ h.fifo
  have hlen := congrArg List.length hall
  rw [List.length_append, List.length_append, h.counted, hpermits, hclaimed] at hlen
  have hle : a.unsignalled ≤ a.pending.length := by
    unfold unsignalled pending
    split <;> simp_all
  exact List.prefix_of_prefix_length_le ⟨_, hall⟩ ⟨_, rfl⟩ (by omega)

/-- The same for a call that comes back with nothing, anywhere in the log. -/
theorem Steps.prefix_of_empty (h : Steps size (initial T) log a)
    {log₁ log₂ : List (BlockingEvent T)} (hlog : log = log₁ ++ .removed none :: log₂) :
    enqueued log₁ <+: received log₁ := by
  induction h generalizing log₂ with
  | nil => exact absurd hlog (by simp)
  | @snoc b c log e h hstep ih =>
    rcases List.eq_nil_or_concat log₂ with rfl | ⟨log₂, e', rfl⟩
    · obtain ⟨rfl, he⟩ := List.append_inj' hlog rfl
      obtain rfl := List.singleton_inj.mp he
      cases hstep with
      | empty hcall hop hwait hpermits =>
        exact h.enqueued_prefix hpermits (by rw [claimed, hcall])
    · rw [List.concat_eq_append, ← List.cons_append, ← List.append_assoc] at hlog
      exact ih (List.append_inj' hlog rfl).1

end BlockingFifo

/-- The producer is in a call. -/
def EnqueueCall.busy : EnqueueCall → Bool
  | .returned _ => false
  | _ => true

/-- The consumer is in a call. -/
def DequeueCall.busy : DequeueCall T → Bool
  | .returned _ => false
  | _ => true

namespace Blocking

variable {MAX size cap : Nat} {b b' : Blocking T} {a : BlockingFifo T}
  {s : Blocking T × List (BlockingEvent T)} {malloc : Nat → Bool} {q : Rwq T}

/-- A reachable state is tied to the specification, and the log says how it got there. -/
theorem sim_reachable (hs : Sizes MAX size) (hq : construct T MAX size malloc = some q)
    (h : Reachable (logged MAX) (start q, []) s) :
    ∃ a, BlockingFifo.Steps size (.initial T) s.2 a ∧ Sim size s.1 a := by
  refine h.invariant (fun s => ∃ a, BlockingFifo.Steps size (.initial T) s.2 a ∧ Sim size s.1 a)
    ⟨_, .nil, sim_start hs hq⟩ ?_
  rintro s l t - ⟨a, hlog, hsim⟩ hstep
  obtain ⟨r, hr, rfl⟩ := Option.map_eq_some_iff.mp hstep
  obtain ⟨a', hsteps, hsim'⟩ := hsim.step hs.max_le hr
  exact ⟨a', hlog.append hsteps, hsim'⟩

/-- **The blocking queue is a FIFO queue whose semaphore counts it.** Whatever the
interleaving, no assertion fails: whoever the semaphore let pass finds an element. The
elements leave in the order they came, each once, and a call of the consumer comes back
with nothing only when every element whose `enqueue` has returned has left the queue. -/
theorem fifo_counted (hs : Sizes MAX size) (hq : construct T MAX size malloc = some q)
    (h : Reachable (logged MAX) (start q, []) s) :
    (s.1.inner.fault = false ∧ s.1.sema.fault = false ∧ s.1.fault = false) ∧
    (∃ a, BlockingFifo.Steps size (.initial T) s.2 a ∧
      BlockingFifo.sent s.2 = BlockingFifo.received s.2 ++ a.items ∧
      a.items.length = a.permits + a.unsignalled + a.claimed) ∧
    ∀ log₁ log₂, s.2 = log₁ ++ .removed none :: log₂ →
      BlockingFifo.enqueued log₁ <+: BlockingFifo.received log₁ := by
  obtain ⟨a, hlog, hsim⟩ := sim_reachable hs hq h
  exact ⟨hsim.ok, ⟨a, hlog, hlog.fifo, hlog.counted⟩,
    fun log₁ log₂ he => hlog.prefix_of_empty he⟩

/-- An element passed on by `pop`, after which there is none for `try_dequeue`. -/
def passedOn : Option (Blocking Nat × List (BlockingEvent Nat)) :=
  (construct Nat 2 1 fun _ => true).bind fun q => run (logged 2) (start q, [])
    ([.enqueue 7 .CanAlloc, .producer true, .producer true, .producer true, .producer true,
      .consume .pop] ++ .replicate 6 (.consumer false) ++ [.consume .try_dequeue, .consumer false])

theorem fifo_counted_seven : ∃ s, passedOn = some s ∧ BlockingFifo.received s.2 = [7] ∧
    ∀ log₁ log₂, s.2 = log₁ ++ .removed none :: log₂ →
      BlockingFifo.enqueued log₁ <+: BlockingFifo.received log₁ := by
  have hmap : passedOn.map (fun s => BlockingFifo.received s.2) = some [7] := rfl
  obtain ⟨s, hs, hreceived⟩ := Option.map_eq_some_iff.mp hmap
  obtain ⟨q, hq, hrun⟩ := Option.bind_eq_some_iff.mp hs
  exact ⟨s, hs, hreceived, (fifo_counted ⟨by decide, by decide, 0, by decide, by decide⟩ hq
    (.of_run hrun)).2.2⟩

/-! ## Nobody sleeps for nothing -/

theorem producer_ne_none (h : Sim cap b a) (hbusy : b.enq.busy) (malloc : Bool) :
    b.producer MAX malloc ≠ none := by
  obtain ⟨least, g, htie⟩ := h
  have henq := htie.enq
  unfold producer
  cases he : b.enq with
  | inner =>
    rw [EnqTied, he] at henq
    obtain ⟨hcall, v, hv, -⟩ := henq
    rw [hv, Option.bind_some, ne_eq, Option.map_eq_none_iff]
    exact Rwq.inner_enqueue_ne_none MAX _ v malloc b.inner hcall
  | signal ps =>
    rw [EnqTied, he] at henq
    obtain ⟨-, hps, v, hv, -⟩ := henq
    rw [hv, Option.bind_some, ne_eq, Option.map_eq_none_iff]
    cases ps with
    | returned => exact absurd rfl hps
    | add | post => simp [LightweightSemaphore.signal]
  | returned ok =>
    rw [he] at hbusy
    exact absurd hbusy Bool.false_ne_true

/-- The only access that can wait is the one to the kernel semaphore. -/
theorem asleep_of_blocked (h : Sim cap b a) (hbusy : b.deq.busy) {timeout : Bool}
    (hblocked : b.consumer timeout = none) : b.deq = .wait .sleep ∧ b.sema.m_sema = 0 := by
  obtain ⟨least, g, htie⟩ := h
  have hdeq := htie.deq
  unfold consumer at hblocked
  cases hd : b.deq with
  | wait pw =>
    rw [DeqTied, hd] at hdeq
    rw [hd, Option.map_eq_none_iff] at hblocked
    cases pw with
    | sleep =>
      refine ⟨rfl, ?_⟩
      rw [LightweightSemaphore.wait] at hblocked
      split at hblocked
      next => exact absurd hblocked (by simp)
      next =>
        split at hblocked
        next => exact absurd hblocked (by simp)
        next hnone => omega
    | kernelTry =>
      rw [LightweightSemaphore.wait] at hblocked
      split at hblocked <;> exact absurd hblocked (by simp)
    | returned ok => exact absurd hdeq.2.1 Bool.false_ne_true
    | _ => exact absurd hblocked (by simp [LightweightSemaphore.wait])
  | inner =>
    rw [DeqTied, hd] at hdeq
    rw [hd, Option.map_eq_none_iff] at hblocked
    exact absurd hblocked (Rwq.dequeue_ne_none _ _ hdeq.1)
  | load =>
    rw [hd] at hblocked
    exact absurd hblocked (by simp)
  | returned result =>
    rw [hd] at hbusy
    exact absurd hbusy Bool.false_ne_true

/-- A post wakes the sleeper. -/
theorem consumer_of_post (hd : b.deq = .wait .sleep) (he : b.enq = .signal .post) {malloc : Bool}
    {es : List (BlockingEvent T)} (hs : b.producer MAX malloc = some (b', es)) (timeout : Bool) :
    b'.consumer timeout ≠ none := by
  obtain ⟨v, -, hs⟩ := Option.bind_eq_some_iff.mp hs
  rw [he] at hs
  obtain ⟨rfl, -⟩ := Prod.mk.inj (Option.some.inj hs)
  rw [consumer, ne_eq]
  simp only [hd, Option.map_eq_none_iff, LightweightSemaphore.wait, Nat.succ_pos, if_true]
  split <;> simp

/-- **No wake-up is lost.** The producer is never blocked. The consumer is blocked only
while it sleeps in the kernel, and then either every element whose `enqueue` has
returned has left the queue, or the producer's next access posts what wakes it. -/
theorem no_lost_wakeup (hs : Sizes MAX size) (hq : construct T MAX size malloc = some q)
    (h : Reachable (logged MAX) (start q, []) s) :
    (s.1.enq.busy → ∀ malloc, s.1.producer MAX malloc ≠ none) ∧
    ∀ timeout, s.1.deq.busy → s.1.consumer timeout = none →
      s.1.deq = .wait .sleep ∧
      (BlockingFifo.enqueued s.2 <+: BlockingFifo.received s.2 ∨
        s.1.enq.busy ∧ ∀ malloc b es, s.1.producer MAX malloc = some (b, es) →
          ∀ timeout, b.consumer timeout ≠ none) := by
  obtain ⟨a, hlog, hsim⟩ := sim_reachable hs hq h
  refine ⟨fun hbusy malloc => producer_ne_none hsim hbusy malloc,
    fun timeout hbusy hblocked => ?_⟩
  obtain ⟨hd, hzero⟩ := asleep_of_blocked hsim hbusy hblocked
  obtain ⟨least, g, htie⟩ := hsim
  refine ⟨hd, ?_⟩
  rcases Nat.eq_zero_or_pos a.permits with hnone | hpos
  · have hdeq := htie.deq
    rw [DeqTied, hd] at hdeq
    exact Or.inl (hlog.enqueued_prefix hnone (by rw [BlockingFifo.claimed, hdeq.2.2.2]))
  · have hawake := htie.sema.awake (by rw [hd]; rfl) hpos
    have hpost : s.1.enq = .signal .post := by
      rcases hawake with hm | hps
      · omega
      · unfold EnqueueCall.signaller at hps
        split at hps
        next ps he => rw [he, hps]
        next => exact absurd hps (by simp)
    exact Or.inr ⟨by rw [hpost]; rfl, fun malloc b es hstep timeout =>
      consumer_of_post hd hpost hstep timeout⟩

/-- The spinning loop gives up when nothing is signalled. -/
theorem spin_reachable {n : Nat} (hd : b.deq = .wait (.spin n)) (hnone : ¬0 < b.sema.m_count)
    (log : List (BlockingEvent T)) :
    Reachable (logged MAX) (b, log) ({ b with deq := .wait .borrow }, log) := by
  induction n generalizing b with
  | zero =>
    refine .next (l := .consumer false) .start ?_
    simp [logged, step, consumer, hd, LightweightSemaphore.wait, hnone,
      LightweightSemaphore.spinning]
  | succ n ih =>
    refine .trans (.next (l := .consumer false) (t := ({ b with deq := .wait (.spin n) }, log))
      .start ?_) (ih (b := { b with deq := .wait (.spin n) }) rfl hnone)
    simp [logged, step, consumer, hd, LightweightSemaphore.wait, hnone,
      LightweightSemaphore.spinning]

/-- A consumer that has gone to sleep on an empty queue. -/
def asleep (q : Rwq T) : Blocking T :=
  { start q with
    sema := { LightweightSemaphore.make 0 with m_count := -1 }, op := .wait_dequeue,
    deq := .wait .sleep }

theorem asleep_reachable (q : Rwq T) :
    Reachable (logged MAX) (start q, []) (asleep q, [.consume .wait_dequeue]) := by
  have hspin : Reachable (logged MAX) (start q, [])
      ({ start q with op := .wait_dequeue, deq := .wait (.spin 9999) },
        [.consume .wait_dequeue]) :=
    .next (l := .consumer false) (.next (l := .consume .wait_dequeue) .start rfl) rfl
  have hborrow := hspin.trans (spin_reachable rfl (Int.lt_irrefl 0) _)
  exact hborrow.next (l := .consumer false) rfl

/-- While the consumer sleeps the producer has put 7 into the queue and counted it, and has not
posted yet. -/
def beforePost : Option (Blocking Nat × List (BlockingEvent Nat)) :=
  (construct Nat 2 1 fun _ => true).bind fun q =>
    run (logged 2) (asleep q, [.consume .wait_dequeue])
      [.enqueue 7 .CanAlloc, .producer true, .producer true, .producer true, .producer true]

theorem no_lost_wakeup_asleep : ∃ s, beforePost = some s ∧ s.1.enq = .signal .post ∧
    BlockingFifo.sent s.2 = [7] ∧ s.1.producer 2 true ≠ none ∧ s.1.consumer false = none ∧
    (BlockingFifo.enqueued s.2 <+: BlockingFifo.received s.2 ∨
      s.1.enq.busy ∧ ∀ malloc b es, s.1.producer 2 malloc = some (b, es) →
        ∀ timeout, b.consumer timeout ≠ none) := by
  have hmap : beforePost.map (fun s => (s.1.enq, BlockingFifo.sent s.2, s.1.deq.busy,
      (s.1.consumer false).isNone)) = some (.signal .post, [7], true, true) := rfl
  obtain ⟨s, hs, heq⟩ := Option.map_eq_some_iff.mp hmap
  simp only [Prod.mk.injEq, Option.isNone_iff_eq_none] at heq
  obtain ⟨henq, hsent, hdeq, hblocked⟩ := heq
  obtain ⟨q, hq, hrun⟩ := Option.bind_eq_some_iff.mp hs
  obtain ⟨hproducer, hconsumer⟩ := no_lost_wakeup ⟨by decide, by decide, 0, by decide, by decide⟩ hq
    ((asleep_reachable q).trans (.of_run hrun))
  exact ⟨s, hs, henq, hsent, hproducer (by rw [henq]; rfl) true, hblocked,
    (hconsumer false hdeq hblocked).2⟩

end Blocking

end Darts.Queue
