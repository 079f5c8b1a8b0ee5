import Darts.Queue.Blocking
import Darts.Queue.Spsc

/-!
# The blocking queue does what it says

`Blocking.Sim` ties a state of the blocking queue to a state of `BlockingFifo`: the
permits of the semaphore are the elements in the lock-free queue, less the one the
producer has not signalled yet and the one a consumer that was let pass is about to
take. So the consumer that was let pass finds an element, and the semaphore says of the
queue what its callers rely on. Each step of the code is at most three events of the
specification (`Sim.step`).
-/

namespace Darts.Queue

open Transition

variable {T : Type}

/-- Where the producer is in `sema->signal()`. -/
def EnqueueCall.signaller : EnqueueCall → Signal
  | .signal ps => ps
  | _ => .returned

/-- Where the consumer is in `sema->tryWait()` or `sema->wait(..)`. -/
def DequeueCall.waiter : DequeueCall T → Wait
  | .wait pw => pw
  | _ => .returned true

namespace Blocking

/-- The producer's call is where the specification has it. -/
def EnqTied (b : Blocking T) (a : BlockingFifo T) : Prop :=
  match b.enq with
  | .inner => b.th.enq.busy ∧ ∃ v, b.th.element = some v ∧
      a.producer = some (v, b.th.canAlloc, .called)
  | .signal ps => b.th.enq.busy = false ∧ ps ≠ .returned ∧ ∃ v, b.th.element = some v ∧
      ∃ ca, a.producer = some (v, ca, if ps = .add then .published else .signalled)
  | .returned _ => b.th.enq.busy = false ∧ a.producer = none

/-- The consumer's call is where the specification has it. Whoever was let pass saw the
lock-free queue when it had an element. -/
def DeqTied (b : Blocking T) (g : Ghost T) (a : BlockingFifo T) : Prop :=
  match b.deq with
  | .wait pw => b.th.deq.busy = false ∧ pw.busy ∧ b.op.waits ∧ a.consumer = some (b.op, false)
  | .inner => b.th.deq.busy ∧ b.op ≠ .size_approx ∧ b.th.op = b.op.inner ∧
      a.consumer = some (b.op, b.op.waits) ∧
      if b.op.waits then ¬g.wasEmpty else a.wasEmpty = g.wasEmpty
  | .load => b.th.deq.busy = false ∧ b.op = .size_approx ∧
      a.consumer = some (.size_approx, false)
  | .returned result => b.th.deq.busy = false ∧ a.consumer = none ∧
      ∀ p, result = .peeked p → b.th.deq = .peeked p

theorem DeqTied.of_wasEmpty {b : Blocking T} {g g' : Ghost T} {a : BlockingFifo T}
    (h : b.DeqTied g a) (he : g'.wasEmpty = g.wasEmpty) : b.DeqTied g' a := by
  unfold DeqTied at h ⊢
  rw [he]
  exact h

/-- The invariant of the blocking queue. -/
structure Tie (cap least : Nat) (b : Blocking T) (g : Ghost T) (a : BlockingFifo T) : Prop where
  rel : Rel cap least b.inner b.th g
  sema : b.sema.Inv b.enq.signaller b.deq.waiter a.permits
  ok : b.fault = false
  items : a.items = g.items
  held : a.held = g.held
  counted : a.items.length = a.permits + a.unsignalled + a.claimed
  enq : b.EnqTied a
  deq : b.DeqTied g a

/-- **The specification is where the queue is.** -/
def Sim (cap : Nat) (b : Blocking T) (a : BlockingFifo T) : Prop :=
  ∃ least g, Tie cap least b g a

variable {cap least MAX : Nat} {b b' : Blocking T} {g : Ghost T} {a : BlockingFifo T}
  {es : List (BlockingEvent T)}

theorem sim_start {size : Nat} {malloc : Nat → Bool} {q : Rwq T} (hs : Sizes MAX size)
    (h : construct T MAX size malloc = some q) : Sim size (start q) (.initial T) := by
  obtain ⟨least, k, hrel⟩ := construct_rel hs h
  have hitems : (Ghost.fresh T k).items = [] := rfl
  exact ⟨least, _, hrel,
    LightweightSemaphore.inv_make 0 (by simp [EnqueueCall.signaller, start]) true, rfl,
    hitems.symm, rfl, rfl, ⟨rfl, rfl⟩, ⟨rfl, rfl, fun p hp => by simp at hp⟩⟩

/-! ## The calls -/

theorem Tie.call_enqueue (h : Tie cap least b g a) {v : T} {ca : AllocationMode}
    (hs : b.callEnqueue v ca = some (b', es)) :
    ∃ a', BlockingFifo.Steps cap a es a' ∧ Sim cap b' a' := by
  have henq := h.enq
  unfold EnqTied at henq
  unfold callEnqueue at hs
  split at hs
  next ok he =>
    obtain ⟨rfl, rfl⟩ := Prod.mk.inj (Option.some.inj hs)
    rw [he] at henq
    obtain ⟨hidle, hnone⟩ := henq
    have hsema := h.sema
    rw [he] at hsema
    have hcounted := h.counted
    rw [BlockingFifo.unsignalled, hnone] at hcounted
    refine ⟨_, .one (.enqueue v ca hnone), least, _,
      { rel := h.rel.call_enqueue hidle v ca
        sema := hsema
        ok := h.ok
        items := h.items
        held := congrArg List.length h.items
        counted := hcounted
        enq := ⟨rfl, v, rfl, rfl⟩
        deq := h.deq }⟩
  next => exact absurd hs (by simp)

theorem Tie.call_consume (h : Tie cap least b g a) {op : BlockingOp}
    (hs : b.callConsume op = some (b', es)) :
    ∃ a', BlockingFifo.Steps cap a es a' ∧ Sim cap b' a' := by
  have hdeq := h.deq
  unfold DeqTied at hdeq
  unfold callConsume at hs
  split at hs
  next result hd =>
    obtain ⟨rfl, rfl⟩ := Prod.mk.inj (Option.some.inj hs)
    rw [hd] at hdeq
    obtain ⟨hidle, hnone, -⟩ := hdeq
    have hsema := h.sema
    rw [hd] at hsema
    have hcounted := h.counted
    rw [BlockingFifo.claimed, hnone] at hcounted
    refine ⟨_, .one (.consume op hnone), least, ?_⟩
    cases op with
    | peek =>
      exact ⟨_,
        { h with
          rel := h.rel.call_dequeue hidle .peek
          sema := hsema
          counted := hcounted
          deq := ⟨rfl, by simp, rfl, rfl, congrArg (· = []) h.items⟩ }⟩
    | size_approx =>
      exact ⟨g,
        { h with
          sema := hsema
          counted := hcounted
          deq := ⟨hidle, rfl, rfl⟩ }⟩
    | try_dequeue | wait_dequeue | wait_dequeue_timed | pop =>
      exact ⟨g,
        { h with
          sema := hsema.call_wait rfl
          counted := hcounted
          deq := ⟨hidle, rfl, rfl, rfl⟩ }⟩
  next => exact absurd hs (by simp)

/-! ## The producer -/

/-- Asking for memory is an event of its own. -/
theorem Tie.exists_malloc (h : Tie cap least b g a) (malloc : Bool) {v : T}
    (hcall : a.producer = some (v, b.th.canAlloc, .called)) :
    ∃ a', BlockingFifo.Steps cap a (match b.th.enq with
        | .grow _ => [.malloc malloc]
        | _ => []) a' ∧ Tie cap least b g a' ∧
      a'.producer = some (v, b.th.canAlloc, .called) ∧
      ((∃ x, b.th.enq = .grow x) → a'.outOfMemory = !malloc) := by
  cases he : b.th.enq with
  | grow x =>
    have hknow := h.rel.enq
    rw [Threads.enqInv, he] at hknow
    obtain ⟨-, -, hmode, hcap⟩ := hknow
    exact ⟨_, .one (.malloc malloc (hmode ▸ hcall) (by rw [h.held]; exact hcap)), { h with },
      hcall, fun _ => rfl⟩
  | _ =>
    refine ⟨a, .nil, h, hcall, ?_⟩
    rintro ⟨x, hx⟩
    exact absurd hx (by simp)

/-- A step of `inner.enqueue`. -/
theorem Tie.producer_inner (h : Tie cap least b g a) (hMAX : MAX ≤ 2 ^ 63) {malloc : Bool}
    (he : b.enq = .inner) (hs : b.producer MAX malloc = some (b', es)) :
    ∃ a', BlockingFifo.Steps cap a es a' ∧ Sim cap b' a' := by
  have henq := h.enq
  rw [EnqTied, he] at henq
  obtain ⟨v', hv', hs⟩ := Option.bind_eq_some_iff.mp hs
  obtain ⟨-, v, hv, hcalled⟩ := henq
  obtain rfl : v = v' := Option.some.inj (hv.symm.trans hv')
  rw [he] at hs
  obtain ⟨⟨q', pe⟩, hq, hr⟩ := Option.map_eq_some_iff.mp hs
  obtain ⟨items, ⟨g', hrel, hitems, hheld, hempty⟩, heffect⟩ :=
    h.rel.enqueue_step hMAX hv hq
  obtain ⟨a', hsteps, htie, hcall, hmemory⟩ := h.exists_malloc malloc hcalled
  have hdeq := htie.deq.of_wasEmpty hempty
  have hcounted := htie.counted
  have hstill : a'.unsignalled = 0 := by rw [BlockingFifo.unsignalled, hcall]
  rw [hstill] at hcounted
  have hsema := htie.sema
  rw [he] at hsema
  cases pe with
  | returned ok =>
    cases ok with
    | true =>
      obtain ⟨rfl, rfl⟩ := Prod.mk.inj hr
      obtain rfl : items = g.items ++ [v] := heffect
      refine ⟨_, hsteps.snoc (.published hcall), least, g',
        { rel := hrel
          sema := hsema.call_signal
          ok := htie.ok
          items := (congrArg (· ++ [v]) htie.items).trans hitems.symm
          held := htie.held.trans hheld.symm
          counted := ?_
          enq := ⟨rfl, by simp, v, hv, _, rfl⟩
          deq := hdeq }⟩
      show (a'.items ++ [v]).length = a'.permits + 1 + a'.claimed
      rw [List.length_append, List.length_singleton, hcounted]
      omega
    | false =>
      obtain ⟨rfl, rfl⟩ := Prod.mk.inj hr
      obtain ⟨rfl, hcap, hmode⟩ := heffect
      refine ⟨_, hsteps.snoc (.refused hcall (by rw [htie.held]; exact hcap) fun hcan => ?_),
        least, g',
        { rel := hrel
          sema := hsema
          ok := htie.ok
          items := htie.items.trans hitems.symm
          held := htie.held.trans hheld.symm
          counted := hcounted
          enq := ⟨rfl, rfl⟩
          deq := hdeq }⟩
      obtain ⟨rfl, hgrow⟩ := hmode hcan
      exact hmemory hgrow
  | _ =>
    obtain ⟨rfl, rfl⟩ := Prod.mk.inj hr
    obtain rfl : items = g.items := heffect
    exact ⟨a', hsteps, least, g',
      { rel := hrel
        sema := hsema
        ok := htie.ok
        items := htie.items.trans hitems.symm
        held := htie.held.trans hheld.symm
        counted := htie.counted
        enq := ⟨rfl, v, hv, hcall⟩
        deq := hdeq }⟩

/-- A step of `sema->signal()`. -/
theorem Tie.producer_signal (h : Tie cap least b g a) {malloc : Bool} {ps : Signal}
    (he : b.enq = .signal ps) (hs : b.producer MAX malloc = some (b', es)) :
    ∃ a', BlockingFifo.Steps cap a es a' ∧ Sim cap b' a' := by
  have henq := h.enq
  rw [EnqTied, he] at henq
  obtain ⟨v', hv', hs⟩ := Option.bind_eq_some_iff.mp hs
  obtain ⟨hidle, hps, v, hv, ca, hcall⟩ := henq
  obtain rfl : v = v' := Option.some.inj (hv.symm.trans hv')
  rw [he] at hs
  obtain ⟨⟨s', ps'⟩, hq, hr⟩ := Option.map_eq_some_iff.mp hs
  have hsema := h.sema
  rw [he] at hsema
  have hsema' := hsema.signal_step hq
  have hcounted := h.counted
  rw [BlockingFifo.unsignalled, hcall] at hcounted
  have hne := LightweightSemaphore.signal_ne_add hq
  cases ps with
  | returned => exact absurd rfl hps
  | add =>
    have hcounted' : a.items.length = a.permits + 1 + a.claimed := hcounted
    have hstep : BlockingFifo.Steps cap a _ _ := .one (.signalled hcall)
    cases ps' with
    | add => exact absurd rfl hne
    | post =>
      obtain ⟨rfl, rfl⟩ := Prod.mk.inj hr
      exact ⟨_, hstep, least, g,
        { h with
          sema := hsema'
          counted := hcounted'
          enq := ⟨hidle, by simp, v, hv, ca, rfl⟩ }⟩
    | returned =>
      obtain ⟨rfl, rfl⟩ := Prod.mk.inj hr
      exact ⟨_, hstep.snoc (.enqueued rfl), least, g,
        { h with
          sema := hsema'
          counted := hcounted'
          enq := ⟨hidle, rfl⟩ }⟩
  | post =>
    obtain ⟨rfl, rfl⟩ := Prod.mk.inj (Option.some.inj hq)
    obtain ⟨rfl, rfl⟩ := Prod.mk.inj hr
    exact ⟨_, .one (.enqueued hcall), least, g,
      { h with
        sema := hsema'
        counted := hcounted
        enq := ⟨hidle, rfl⟩ }⟩

theorem Tie.producer_step (h : Tie cap least b g a) (hMAX : MAX ≤ 2 ^ 63) {malloc : Bool}
    (hs : b.producer MAX malloc = some (b', es)) :
    ∃ a', BlockingFifo.Steps cap a es a' ∧ Sim cap b' a' := by
  cases he : b.enq with
  | inner => exact h.producer_inner hMAX he hs
  | signal ps => exact h.producer_signal he hs
  | returned ok =>
    obtain ⟨v, -, hs⟩ := Option.bind_eq_some_iff.mp hs
    rw [he] at hs
    exact absurd hs (by simp)

/-! ## The consumer -/

/-- A step of `sema->tryWait()` or `sema->wait(..)`. -/
theorem Tie.consumer_wait (h : Tie cap least b g a) {timeout : Bool} {pw : Wait}
    (hd : b.deq = .wait pw) (hs : b.consumer timeout = some (b', es)) :
    ∃ a', BlockingFifo.Steps cap a es a' ∧ Sim cap b' a' := by
  have hdeq := h.deq
  rw [DeqTied, hd] at hdeq
  obtain ⟨hidle, -, hwaits, hcall⟩ := hdeq
  rw [consumer, hd] at hs
  obtain ⟨⟨s', pw'⟩, hq, hr⟩ := Option.map_eq_some_iff.mp hs
  have hsema := h.sema
  rw [hd] at hsema
  obtain ⟨permits', hgranted, hsema'⟩ := hsema.wait_step hq
  have hcounted : a.items.length = a.permits + a.unsignalled + 0 := by
    have := h.counted
    rwa [BlockingFifo.claimed, hcall] at this
  cases pw' with
  | returned ok =>
    cases ok with
    | true =>
      obtain ⟨rfl, rfl⟩ := Prod.mk.inj hr
      have hgranted : a.permits = permits' + 1 := hgranted
      have hne : ¬g.items = [] := fun hnil => by
        rw [h.items, hnil, List.length_nil] at hcounted
        omega
      refine ⟨_, .one (.granted hcall hwaits hgranted), least, _,
        { h with
          rel := h.rel.call_dequeue hidle b.op.inner
          sema := hsema'
          counted := ?_
          enq := h.enq
          deq := ⟨rfl, fun hop => ?_, rfl, by rw [hwaits], by rwa [if_pos hwaits]⟩ }⟩
      · show a.items.length = permits' + a.unsignalled + 1
        rw [hcounted, hgranted]
        omega
      · rw [hop] at hwaits
        exact absurd hwaits Bool.false_ne_true
    | false =>
      obtain ⟨hzero, rfl⟩ : a.permits = 0 ∧ permits' = 0 := hgranted
      rw [← hzero] at hsema'
      by_cases hop : b.op = .wait_dequeue
      · simp only [hop, if_true] at hr
        obtain ⟨rfl, rfl⟩ := Prod.mk.inj hr
        exact ⟨a, .nil, least, g,
          { h with
            sema := hsema'.call_wait rfl
            deq := ⟨hidle, rfl, hop ▸ hwaits, hop ▸ hcall⟩ }⟩
      · simp only [hop, if_false] at hr
        obtain ⟨rfl, rfl⟩ := Prod.mk.inj hr
        exact ⟨_, .one (.empty hcall hwaits hop hzero), least, g,
          { h with
            sema := hsema'.of_returned true
            counted := hcounted
            deq := ⟨hidle, rfl, fun p hp => by simp at hp⟩ }⟩
  | _ =>
    obtain ⟨rfl, rfl⟩ := Prod.mk.inj hr
    obtain rfl : permits' = a.permits := hgranted
    exact ⟨a, .nil, least, g,
      { h with
        sema := hsema'
        deq := ⟨hidle, rfl, hwaits, hcall⟩ }⟩

/-- A step of `inner.try_dequeue`, `inner.pop` or `inner.peek`. -/
theorem Tie.consumer_inner (h : Tie cap least b g a) {timeout : Bool}
    (hd : b.deq = .inner) (hs : b.consumer timeout = some (b', es)) :
    ∃ a', BlockingFifo.Steps cap a es a' ∧ Sim cap b' a' := by
  have hdeq := h.deq
  rw [DeqTied, hd] at hdeq
  obtain ⟨-, hsize, hop, hcall, hempty⟩ := hdeq
  rw [consumer, hd] at hs
  obtain ⟨⟨q', pd⟩, hq, hr⟩ := Option.map_eq_some_iff.mp hs
  obtain ⟨items, ⟨g', hrel, hitems, hheld, hwas⟩, heffect⟩ := h.rel.dequeue_step hq
  have hsema := h.sema
  rw [hd] at hsema
  have hheld := h.held.trans hheld.symm
  have hwaits : b.op.waits ↔ b.th.op ≠ .peek := by
    rw [hop]
    cases hb : b.op with
    | size_approx => exact absurd hb hsize
    | _ => simp [BlockingOp.inner, BlockingOp.waits]
  have hpeek : b.th.op = .peek → b.op = .peek := fun hp => by
    rw [hop] at hp
    cases hb : b.op <;> rw [hb] at hp <;> first | rfl | exact absurd hp (by simp [BlockingOp.inner])
  cases pd with
  | removed result =>
    cases result with
    | none =>
      -- the semaphore let the consumer pass when there was an element
      obtain ⟨hne, -, hnil⟩ := heffect
      rw [if_pos (hwaits.mpr hne)] at hempty
      exact absurd hnil hempty
    | some v =>
      obtain ⟨rfl, rfl⟩ := Prod.mk.inj hr
      obtain ⟨hne, hcons⟩ := heffect
      rw [show b.op.waits = true from hwaits.mpr hne] at hcall
      have hcons := h.items.trans hcons
      refine ⟨_, .one (.removed hcall hcons), least, g',
        { h with
          rel := hrel
          sema := hsema
          items := hitems.symm
          held := hheld
          counted := ?_
          deq := ⟨rfl, rfl, fun p hp => by simp at hp⟩ }⟩
      have hcounted := h.counted
      rw [BlockingFifo.claimed, hcall, hcons, List.length_cons] at hcounted
      exact Nat.succ_inj.mp hcounted
  | peeked p =>
    have hfalse : b.th.op = .peek → a.consumer = some (.peek, false) := fun hp => by
      rw [hcall, hpeek hp]
      rfl
    have hcounted : b.th.op = .peek → a.items.length = a.permits + a.unsignalled := fun hp => by
      have := h.counted
      rwa [BlockingFifo.claimed, hfalse hp] at this
    cases p with
    | none =>
      obtain ⟨rfl, rfl⟩ := Prod.mk.inj hr
      obtain ⟨hp, rfl, hnil⟩ := heffect
      rw [if_neg (fun hw => hwaits.mp hw hp)] at hempty
      exact ⟨_, .one (.peekedNull (hfalse hp) (hempty ▸ hnil)), least, g',
        { h with
          rel := hrel
          sema := hsema
          items := h.items.trans hitems.symm
          held := hheld
          counted := hcounted hp
          deq := ⟨rfl, rfl, fun p hp => by cases hp; rfl⟩ }⟩
    | some pointer =>
      obtain ⟨x, i⟩ := pointer
      obtain ⟨rfl, rfl⟩ := Prod.mk.inj hr
      obtain rfl : items = g.items := heffect
      obtain ⟨v, hdata, hhead⟩ := hrel.deref_peeked rfl
      have hp : b.th.op = .peek := hrel.deq.1
      have hsome : a.items.head? = some v := by rw [h.items, ← hitems, hhead]
      have hstep : BlockingFifo.Steps cap a _ _ := .one (.peeked (hfalse hp) hsome)
      rw [← hdata] at hstep
      exact ⟨_, hstep, least, g',
        { h with
          rel := hrel
          sema := hsema
          items := h.items.trans hitems.symm
          held := hheld
          counted := hcounted hp
          deq := ⟨rfl, rfl, fun p hp => by cases hp; rfl⟩ }⟩
  | _ =>
    obtain ⟨rfl, rfl⟩ := Prod.mk.inj hr
    obtain rfl : items = g.items := heffect
    exact ⟨a, .nil, least, g',
      { h with
        rel := hrel
        sema := hsema
        items := h.items.trans hitems.symm
        held := hheld
        deq := ⟨rfl, hsize, hop, hcall, by rwa [hwas]⟩ }⟩

/-- A load of the counter. -/
theorem Tie.consumer_load (h : Tie cap least b g a) {timeout : Bool}
    (hd : b.deq = .load) (hs : b.consumer timeout = some (b', es)) :
    ∃ a', BlockingFifo.Steps cap a es a' ∧ Sim cap b' a' := by
  have hdeq := h.deq
  rw [DeqTied, hd] at hdeq
  obtain ⟨hidle, -, hcall⟩ := hdeq
  rw [consumer, hd] at hs
  obtain ⟨rfl, rfl⟩ := Prod.mk.inj (Option.some.inj hs)
  have hsema := h.sema
  rw [hd] at hsema
  have hcounted := h.counted
  rw [BlockingFifo.claimed, hcall] at hcounted
  have hsize : b.sema.availableApprox = a.permits := by
    rw [LightweightSemaphore.availableApprox, hsema.count]
    simp [DequeueCall.waiter, Wait.borrowed]
  rw [hsize]
  exact ⟨_, .one (.size hcall), least, g,
    { h with
      sema := hsema
      counted := hcounted
      deq := ⟨hidle, rfl, fun p hp => by simp at hp⟩ }⟩

theorem Tie.consumer_step (h : Tie cap least b g a) {timeout : Bool}
    (hs : b.consumer timeout = some (b', es)) :
    ∃ a', BlockingFifo.Steps cap a es a' ∧ Sim cap b' a' := by
  cases hd : b.deq with
  | wait pw => exact h.consumer_wait hd hs
  | inner => exact h.consumer_inner hd hs
  | load => exact h.consumer_load hd hs
  | returned result =>
    rw [consumer, hd] at hs
    exact absurd hs (by simp)

/-! ## The refinement -/

/-- **Each step of the code** is what it shows, in the specification. -/
theorem Sim.step (h : Sim cap b a) (hMAX : MAX ≤ 2 ^ 63) {l : BlockingLabel T}
    (hs : b.step MAX l = some (b', es)) :
    ∃ a', BlockingFifo.Steps cap a es a' ∧ Sim cap b' a' := by
  obtain ⟨least, g, htie⟩ := h
  cases l with
  | enqueue element canAlloc => exact htie.call_enqueue hs
  | producer malloc => exact htie.producer_step hMAX hs
  | consume op => exact htie.call_consume hs
  | consumer timeout => exact htie.consumer_step hs

/-- No assertion failed, and no cell was used outside its element's lifetime. -/
theorem Sim.ok (h : Sim cap b a) :
    b.inner.fault = false ∧ b.sema.fault = false ∧ b.fault = false := by
  obtain ⟨least, g, htie⟩ := h
  exact ⟨htie.rel.ok, htie.sema.ok, htie.ok⟩

end Blocking

end Darts.Queue
