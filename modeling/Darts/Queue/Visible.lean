import Darts.Queue.Progress
import Darts.Queue.Wakeup

/-!
# The queue as its callers see it

`visible` are the elements the semaphore has counted, with the one a consumer that was
let pass is about to take: a call of `enqueue` adds its element when it signals, one of
`pop` or `try_dequeue` takes the first away when it returns. This is what a program that
uses the queue reasons about, access by access (`Sim.producer_access`,
`Sim.consumer_access`). A queue is `Calm` while nobody sleeps on it, so that no post is
ever needed.
-/

namespace Darts.Queue

variable {T : Type}

namespace BlockingFifo

/-- The elements the consumer may count on. -/
def visible (a : BlockingFifo T) : List T := a.items.take (a.permits + a.claimed)

variable {size : Nat} {a a' : BlockingFifo T} {e e' : BlockingEvent T}

theorem Steps.inv_nil (h : Steps size a [] a') : a' = a := by
  generalize hlog : ([] : List (BlockingEvent T)) = log at h
  cases h with
  | nil => rfl
  | snoc h hstep => exact absurd hlog (by simp)

theorem Steps.inv_snoc {log : List (BlockingEvent T)} (h : Steps size a (log ++ [e]) a') :
    ∃ b, Steps size a log b ∧ Step size b e a' := by
  generalize hlog : log ++ [e] = log' at h
  cases h with
  | nil => exact absurd hlog (by simp)
  | snoc h hstep =>
    obtain ⟨rfl, he⟩ := List.append_inj' hlog rfl
    obtain rfl := List.singleton_inj.mp he
    exact ⟨_, h, hstep⟩

theorem Steps.inv_one (h : Steps size a [e] a') : Step size a e a' := by
  obtain ⟨b, hb, hstep⟩ : ∃ b, Steps size a [] b ∧ Step size b e a' := Steps.inv_snoc h
  exact hb.inv_nil ▸ hstep

/-- The semaphore has counted everything but what is not signalled yet. -/
theorem visible_of_counted (h : a.items.length = a.permits + a.unsignalled + a.claimed)
    (hnone : a.unsignalled = 0) : a.visible = a.items :=
  List.take_of_length_le (by omega)

theorem length_visible (h : a.items.length = a.permits + a.unsignalled + a.claimed) :
    a.visible.length = a.permits + a.claimed := by
  rw [visible, List.length_take]
  omega

/-- The head that is counted is the head of the queue. -/
theorem head_visible (h : a.visible ≠ []) : a.visible.head? = a.items.head? := by
  unfold visible at h ⊢
  rw [List.head?_take, if_neg]
  intro hzero
  rw [hzero, List.take_zero] at h
  exact h rfl

/-- What is not signalled yet is the last element. -/
theorem Steps.last {log : List (BlockingEvent T)} (h : Steps size (initial T) log a) {v : T}
    {ca : AllocationMode} (hcall : a.producer = some (v, ca, .published)) :
    a.items.getLast? = some v := by
  induction h with
  | nil => exact absurd hcall (by simp [initial])
  | snoc h hstep ih =>
    have hcounted := h.counted
    cases hstep with
    | published hcalled =>
      obtain ⟨rfl, -⟩ := Prod.mk.inj (Option.some.inj hcall)
      exact List.getLast?_concat
    | removed hpassed hitems =>
      have hlast := ih hcall
      rw [unsignalled, claimed, hpassed, show _ = _ from hcall, hitems] at hcounted
      obtain ⟨w, ws, rfl⟩ := List.exists_cons_of_ne_nil (List.ne_nil_of_length_pos
        (Nat.lt_of_succ_lt_succ (hcounted ▸ Nat.le_add_left 2 _)))
      rwa [hitems, List.getLast?_cons_cons] at hlast
    | malloc | consume | granted | empty | peeked | peekedNull | size => exact ih hcall
    | enqueue | signalled | enqueued | refused => exact absurd hcall (by simp)

/-- Only calls that wait are let pass. -/
theorem Steps.waits {log : List (BlockingEvent T)} (h : Steps size (initial T) log a)
    {op : BlockingOp} (hcall : a.consumer = some (op, true)) : op.waits := by
  induction h with
  | nil => exact absurd hcall (by simp [initial])
  | snoc h hstep ih =>
    cases hstep with
    | granted _ hop =>
      obtain ⟨rfl, -⟩ := Prod.mk.inj (Option.some.inj hcall)
      exact hop
    | consume => exact absurd hcall (by simp)
    | enqueue | malloc | published | signalled | enqueued | refused => exact ih hcall
    | removed | empty | peeked | peekedNull | size => exact absurd hcall (by simp)

end BlockingFifo

namespace Blocking

variable {cap MAX : Nat} {b b' : Blocking T} {a : BlockingFifo T} {es : List (BlockingEvent T)}

/-- Nobody sleeps: the consumer only ever tries the semaphore. -/
def Calm (b : Blocking T) : Prop :=
  ∀ pw, b.deq = .wait pw → b.op.mode = .tryWait ∧ (pw = .load ∨ pw = .take)

/-- A calm queue in use. -/
structure Seen (cap : Nat) (b : Blocking T) (a : BlockingFifo T) : Prop where
  sim : Sim cap b a
  calm : b.Calm
  history : ∃ log, BlockingFifo.Steps cap (.initial T) log a

theorem Seen.counted (h : Seen cap b a) :
    a.items.length = a.permits + a.unsignalled + a.claimed := by
  obtain ⟨log, hlog⟩ := h.history
  exact hlog.counted

/-- The next state of a queue in use. -/
theorem Seen.step (h : Seen cap b a) (hMAX : MAX ≤ 2 ^ 63) {l : BlockingLabel T}
    (hs : b.step MAX l = some (b', es)) (hcalm : b'.Calm) :
    ∃ a', BlockingFifo.Steps cap a es a' ∧ Seen cap b' a' := by
  obtain ⟨a', hsteps, hsim⟩ := h.sim.step hMAX hs
  obtain ⟨log, hlog⟩ := h.history
  exact ⟨a', hsteps, hsim, hcalm, _, hlog.append hsteps⟩

theorem seen_start {size : Nat} {malloc : Nat → Bool} {q : Rwq T} (hs : Sizes MAX size)
    (hq : construct T MAX size malloc = some q) : Seen size (start q) (.initial T) :=
  ⟨sim_start hs hq, fun pw hpw => absurd hpw (by simp [start]), [], .nil⟩

/-- What the pointer of a finished `peek` points at: the head of the queue. -/
theorem Sim.deref_peeked (h : Sim cap b a) {x i : Nat}
    (hd : b.deq = .returned (.peeked (some (x, i)))) (hne : a.visible ≠ []) :
    ∃ v, (b.inner.blocks x).data i = some v ∧ a.visible.head? = some v := by
  obtain ⟨least, g, htie⟩ := h
  have hdeq := htie.deq
  rw [DeqTied, hd] at hdeq
  obtain ⟨v, hdata, hhead⟩ := htie.rel.deref_peeked (hdeq.2.2 _ rfl)
  exact ⟨v, hdata, by rw [BlockingFifo.head_visible hne, htie.items, hhead]⟩

/-! ## The calls -/

theorem Sim.enq_busy_iff (h : Sim cap b a) : b.enq.busy ↔ a.producer ≠ none := by
  obtain ⟨least, g, htie⟩ := h
  have henq := htie.enq
  unfold EnqTied at henq
  split at henq
  next he =>
    obtain ⟨-, v, -, hp⟩ := henq
    rw [he, hp]
    exact ⟨fun _ => by simp, fun _ => rfl⟩
  next ps he =>
    obtain ⟨-, -, v, -, ca, hp⟩ := henq
    rw [he, hp]
    exact ⟨fun _ => by simp, fun _ => rfl⟩
  next ok he =>
    rw [he, henq.2]
    exact ⟨fun hb => absurd hb Bool.false_ne_true, fun hne => absurd rfl hne⟩

theorem Sim.deq_busy_iff (h : Sim cap b a) : b.deq.busy ↔ a.consumer ≠ none := by
  obtain ⟨least, g, htie⟩ := h
  have hdeq := htie.deq
  unfold DeqTied at hdeq
  split at hdeq
  next he =>
    rw [he, hdeq.2.2.2]
    exact ⟨fun _ => by simp, fun _ => rfl⟩
  next he =>
    rw [he, hdeq.2.2.2.1]
    exact ⟨fun _ => by simp, fun _ => rfl⟩
  next he =>
    rw [he, hdeq.2.2]
    exact ⟨fun _ => by simp, fun _ => rfl⟩
  next result he =>
    rw [he, hdeq.2.1]
    exact ⟨fun hb => absurd hb Bool.false_ne_true, fun hne => absurd rfl hne⟩

/-- `enqueue` is called. -/
theorem Seen.enqueue_call (h : Seen cap b a) (hMAX : MAX ≤ 2 ^ 63) (hnone : a.producer = none)
    (v : T) (ca : AllocationMode) : ∃ b' es a', b.callEnqueue v ca = some (b', es) ∧
      Seen cap b' a' ∧ a' = { a with
        producer := some (v, ca, .called), held := a.items.length, outOfMemory := false } ∧
      b'.deq = b.deq ∧ b'.inner = b.inner := by
  cases he : b.enq with
  | returned ok =>
    have hs : b.callEnqueue v ca = some ({ b with
        th := { b.th with element := some v, canAlloc := ca, enq := .check }
        enq := .inner }, [.enqueue v ca]) := by rw [callEnqueue, he]
    obtain ⟨a', hsteps, hseen⟩ := h.step hMAX (l := .enqueue v ca) hs h.calm
    refine ⟨_, _, a', hs, hseen, ?_, rfl, rfl⟩
    cases hsteps.inv_one
    rfl
  | inner | signal ps => exact absurd hnone (h.sim.enq_busy_iff.mp (by rw [he]; rfl))

/-- The consumer calls. -/
theorem Seen.consume_call (h : Seen cap b a) (hMAX : MAX ≤ 2 ^ 63) (hnone : a.consumer = none)
    {op : BlockingOp} (hop : op.mode = .tryWait) :
    ∃ b' es a', b.callConsume op = some (b', es) ∧ Seen cap b' a' ∧
      a' = { a with consumer := some (op, false), wasEmpty := a.items = [] } ∧
      b'.enq = b.enq ∧ b'.inner = b.inner := by
  cases hd : b.deq with
  | returned result =>
    obtain ⟨b', hs, henq, hinner, hcalm⟩ : ∃ b', b.callConsume op = some (b', [.consume op]) ∧
        b'.enq = b.enq ∧ b'.inner = b.inner ∧ b'.Calm := by
      unfold callConsume
      rw [hd]
      refine ⟨_, rfl, ?_, ?_, fun pw hpw => ?_⟩
      · cases op <;> rfl
      · cases op <;> rfl
      · cases op with
        | peek | size_approx => exact absurd hpw (by simp)
        | try_dequeue | pop | wait_dequeue | wait_dequeue_timed =>
          obtain rfl : Wait.load = pw := DequeueCall.wait.inj hpw
          exact ⟨hop, Or.inl rfl⟩
    obtain ⟨a', hsteps, hseen⟩ := h.step hMAX (l := .consume op) hs hcalm
    have ha' : a' = { a with consumer := some (op, false), wasEmpty := a.items = [] } := by
      cases hsteps.inv_one
      rfl
    exact ⟨b', _, a', hs, hseen, ha', henq, hinner⟩
  | wait | inner | load => exact absurd hnone (h.sim.deq_busy_iff.mp (by rw [hd]; rfl))

/-! ## The accesses of the consumer -/

/-- What a call of the consumer shows when it returns. -/
def shows (q : Rwq T) : Result T → BlockingEvent T
  | .removed result => .removed result
  | .peeked none => .peeked none
  | .peeked (some (x, i)) => .peeked ((q.blocks x).data i)
  | .size count => .size count

/-- An access of the consumer, from outside. -/
theorem consumer_shape (hs : b.consumer false = some (b', es)) (hcalm : b.Calm) :
    b'.enq = b.enq ∧ b'.Calm ∧
      ((∀ result, b'.deq ≠ .returned result) ∧ (es = [] ∨ es = [.granted]) ∨
        ∃ result, b'.deq = .returned result ∧ es = [shows b'.inner result]) := by
  unfold consumer at hs
  split at hs
  next pw hd =>
    obtain ⟨⟨s', pw'⟩, hq, hr⟩ := Option.map_eq_some_iff.mp hs
    obtain ⟨hop, hpw⟩ := hcalm pw hd
    have hne : b.op ≠ .wait_dequeue := fun he => by
      rw [he] at hop
      exact absurd hop (by simp [BlockingOp.mode])
    rcases hpw with rfl | rfl <;> rw [hop] at hq
    · obtain ⟨rfl, rfl⟩ := Prod.mk.inj (Option.some.inj hq)
      by_cases hpos : 0 < b.sema.m_count
      · simp only [hpos, if_true] at hr
        obtain ⟨rfl, rfl⟩ := Prod.mk.inj hr
        refine ⟨rfl, fun pw hpw => ?_, Or.inl ⟨by simp, Or.inl rfl⟩⟩
        obtain rfl : Wait.take = pw := DequeueCall.wait.inj hpw
        exact ⟨hop, Or.inr rfl⟩
      · simp only [hpos, if_false, hne] at hr
        obtain ⟨rfl, rfl⟩ := Prod.mk.inj hr
        exact ⟨rfl, fun pw hpw => absurd hpw (by simp), Or.inr ⟨_, rfl, rfl⟩⟩
    · obtain ⟨rfl, rfl⟩ := Prod.mk.inj (Option.some.inj hq)
      obtain ⟨rfl, rfl⟩ := Prod.mk.inj hr
      exact ⟨rfl, fun pw hpw => absurd hpw (by simp), Or.inl ⟨by simp, Or.inr rfl⟩⟩
  next hd =>
    obtain ⟨⟨q', pd⟩, hq, hr⟩ := Option.map_eq_some_iff.mp hs
    cases pd with
    | removed result =>
      cases result <;>
      · obtain ⟨rfl, rfl⟩ := Prod.mk.inj hr
        exact ⟨rfl, fun pw hpw => absurd hpw (by simp), Or.inr ⟨_, rfl, rfl⟩⟩
    | peeked p =>
      cases p <;>
      · obtain ⟨rfl, rfl⟩ := Prod.mk.inj hr
        exact ⟨rfl, fun pw hpw => absurd hpw (by simp), Or.inr ⟨_, rfl, rfl⟩⟩
    | _ =>
      obtain ⟨rfl, rfl⟩ := Prod.mk.inj hr
      exact ⟨rfl, fun pw hpw => absurd hpw (by simp [hd]),
        Or.inl ⟨by simp [hd], Or.inl rfl⟩⟩
  next hd =>
    obtain ⟨rfl, rfl⟩ := Prod.mk.inj (Option.some.inj hs)
    exact ⟨rfl, fun pw hpw => absurd hpw (by simp), Or.inr ⟨_, rfl, rfl⟩⟩
  next => exact absurd hs (by simp)

/-- What the caller learns from what his call returned: the elements he can count on
before and after it. -/
def Answer (op : BlockingOp) (a a' : BlockingFifo T) : Result T → Prop
  | .removed (some v) => op.waits ∧ a.visible = v :: a'.visible
  | .removed none => op.waits ∧ a.visible = [] ∧ a'.visible = []
  | .size count => op = .size_approx ∧ count = a.visible.length ∧ a'.visible = a.visible
  | .peeked p => op = .peek ∧ (p = none → a.wasEmpty) ∧ a'.visible = a.visible

/-- What a call returns is what the specification has it return. -/
theorem answer_of_step {q : Rwq T} {result : Result T} {a' : BlockingFifo T} {op : BlockingOp}
    {passed : Bool} (h : BlockingFifo.Step cap a (shows q result) a')
    (hcounted : a.items.length = a.permits + a.unsignalled + a.claimed)
    (hop : a.consumer = some (op, passed)) (hwaits : passed → op.waits) :
    (a'.producer = a.producer ∧ a'.held = a.held ∧ a'.outOfMemory = a.outOfMemory) ∧
      a'.consumer = none ∧ Answer op a a' result := by
  have hlen := BlockingFifo.length_visible hcounted
  unfold BlockingFifo.visible BlockingFifo.claimed at hlen
  cases result with
  | removed element =>
    cases element with
    | none =>
      cases h with
      | empty hcall hw hwait hpermits =>
        refine ⟨⟨rfl, rfl, rfl⟩, rfl, ?_⟩
        obtain ⟨rfl, rfl⟩ := Prod.mk.inj (Option.some.inj (hop.symm.trans hcall))
        simp [Answer, BlockingFifo.visible, BlockingFifo.claimed, hcall, hpermits, hw]
    | some v =>
      cases h with
      | removed hcall hitems =>
        refine ⟨⟨rfl, rfl, rfl⟩, rfl, ?_⟩
        obtain ⟨rfl, rfl⟩ := Prod.mk.inj (Option.some.inj (hop.symm.trans hcall))
        simp [Answer, BlockingFifo.visible, BlockingFifo.claimed, hcall, hitems, hwaits rfl]
  | peeked p =>
    have hpeeked : ∀ {e : Option T}, BlockingFifo.Step cap a (.peeked e) a' →
        (a'.producer = a.producer ∧ a'.held = a.held ∧ a'.outOfMemory = a.outOfMemory) ∧
          a'.consumer = none ∧ op = .peek ∧ (e = none → a.wasEmpty) ∧
            a'.visible = a.visible := by
      intro e he
      cases he with
      | peeked hcall hitems | peekedNull hcall hempty =>
        refine ⟨⟨rfl, rfl, rfl⟩, rfl, ?_⟩
        obtain ⟨rfl, rfl⟩ := Prod.mk.inj (Option.some.inj (hop.symm.trans hcall))
        simp_all [BlockingFifo.visible, BlockingFifo.claimed]
    rcases p with _ | ⟨x, i⟩
    · obtain ⟨hsame, hnone, hpeek, hempty, hvisible⟩ := hpeeked h
      exact ⟨hsame, hnone, hpeek, fun _ => hempty rfl, hvisible⟩
    · obtain ⟨hsame, hnone, hpeek, -, hvisible⟩ := hpeeked h
      exact ⟨hsame, hnone, hpeek, fun he => absurd he (by simp), hvisible⟩
  | size count =>
    cases h with
    | size hcall =>
      refine ⟨⟨rfl, rfl, rfl⟩, rfl, ?_⟩
      obtain ⟨rfl, rfl⟩ := Prod.mk.inj (Option.some.inj (hop.symm.trans hcall))
      simp [Answer, BlockingFifo.visible, BlockingFifo.claimed, hcall] at hlen ⊢
      omega

/-- **An access of the consumer**: the call goes on and nothing is to be seen, or it returns. -/
theorem Seen.consumer_access (h : Seen cap b a) {op : BlockingOp} {passed : Bool}
    (hcall : a.consumer = some (op, passed)) :
    ∃ b' es a', b.consumer false = some (b', es) ∧ Seen cap b' a' ∧ b'.enq = b.enq ∧
      a'.producer = a.producer ∧ a'.held = a.held ∧ a'.outOfMemory = a.outOfMemory ∧
      ((∀ result, b'.deq ≠ .returned result) ∧ (∃ passed, a'.consumer = some (op, passed)) ∧
          a'.wasEmpty = a.wasEmpty ∧ a'.visible = a.visible ∨
        ∃ result, b'.deq = .returned result ∧ a'.consumer = none ∧
          Answer op a a' result) := by
  have hsome : ∃ r, b.consumer false = some r := by
    refine Option.ne_none_iff_exists'.mp fun hnone => ?_
    have hbusy : b.deq.busy := h.sim.deq_busy_iff.mpr (by rw [hcall]; simp)
    have hsleep := (asleep_of_blocked h.sim hbusy hnone).1
    exact absurd (h.calm _ hsleep).2 (by simp)
  obtain ⟨⟨b', es⟩, hs⟩ := hsome
  obtain ⟨henq, hcalm, hshape⟩ := consumer_shape hs h.calm
  obtain ⟨a', hsteps, hseen⟩ :=
    h.step (Nat.zero_le (2 ^ 63)) (l := .consumer false) hs hcalm
  refine ⟨b', es, a', hs, hseen, henq, ?_⟩
  obtain ⟨hgoing, rfl | rfl⟩ | ⟨result, hd, rfl⟩ := hshape
  · obtain rfl := hsteps.inv_nil
    exact ⟨rfl, rfl, rfl, Or.inl ⟨hgoing, ⟨_, hcall⟩, rfl, rfl⟩⟩
  · cases hsteps.inv_one with
    | granted hcall' hop hpermits =>
      obtain ⟨rfl, rfl⟩ := Prod.mk.inj (Option.some.inj (hcall.symm.trans hcall'))
      refine ⟨rfl, rfl, rfl, Or.inl ⟨hgoing, ⟨_, rfl⟩, rfl, ?_⟩⟩
      simp [BlockingFifo.visible, BlockingFifo.claimed, hpermits, hcall]
  · obtain ⟨log, hlog⟩ := h.history
    obtain ⟨hsame, hnone, hanswer⟩ := answer_of_step hsteps.inv_one h.counted hcall
      fun hp => hlog.waits (hp ▸ hcall)
    exact ⟨hsame.1, hsame.2.1, hsame.2.2, Or.inr ⟨result, hd, hnone, hanswer⟩⟩

/-! ## The accesses of the producer -/

/-- Asking for memory. -/
theorem asked_steps {pe : Enqueue} {malloc : Bool} {a' : BlockingFifo T}
    (h : BlockingFifo.Steps cap a (match pe with
      | .grow _ => [.malloc malloc]
      | _ => []) a') :
    ∃ out, a' = { a with outOfMemory := out } ∧
      (out = a.outOfMemory ∨ cap ≤ a.held ∧ out = !malloc) := by
  have hnone : BlockingFifo.Steps cap a [] a' → ∃ out, a' = { a with outOfMemory := out } ∧
      (out = a.outOfMemory ∨ cap ≤ a.held ∧ out = !malloc) := fun hn => by
    obtain rfl := hn.inv_nil
    exact ⟨_, rfl, Or.inl rfl⟩
  cases pe with
  | grow x =>
    cases h.inv_one with
    | malloc ok hcall hheld => exact ⟨_, rfl, Or.inr ⟨hheld, rfl⟩⟩
  | _ => exact hnone h

/-- While nobody sleeps the counter is not negative. -/
theorem Seen.count_nonneg (h : Seen cap b a) : 0 ≤ b.sema.m_count := by
  obtain ⟨least, g, htie⟩ := h.sim
  have hcount := htie.sema.count
  have hzero : b.deq.waiter.borrowed = 0 := by
    cases hd : b.deq with
    | wait pw => rcases (h.calm pw hd).2 with rfl | rfl <;> rfl
    | _ => rfl
  omega

/-- Between two calls of the consumer the semaphore counts the elements. -/
theorem Seen.availableApprox_eq (h : Seen cap b a) (hdeq : b.deq.busy = false) :
    b.sema.availableApprox = a.visible.length := by
  have hlen := BlockingFifo.length_visible h.counted
  have hconsumer : a.consumer = none := by
    by_contra hne
    rw [h.sim.deq_busy_iff.mpr hne] at hdeq
    exact absurd hdeq (by simp)
  rw [BlockingFifo.claimed, hconsumer] at hlen
  obtain ⟨least, g, htie⟩ := h.sim
  have hcount := htie.sema.count
  cases hd : b.deq with
  | returned result =>
    rw [hd] at hcount
    rw [LightweightSemaphore.availableApprox, hcount, hlen]
    simp [DequeueCall.waiter, Wait.borrowed]
  | wait | inner | load =>
    rw [hd] at hdeq
    exact absurd hdeq (by simp [DequeueCall.busy])

/-- What the caller of `enqueue` sees of an access: the call goes on, or it has put the
element into the queue, or there was no memory. -/
inductive EnqueueSeen (cap : Nat) (malloc : Bool) (v : T) (ca : AllocationMode)
    (a : BlockingFifo T) (b' : Blocking T) (a' : BlockingFifo T) : Prop
  | going (hbusy : b'.enq.busy) (stage : Stage) (hstage : stage ≠ .signalled)
      (hcall : a'.producer = some (v, ca, stage)) (hvisible : a'.visible = a.visible)
      (hheld : a'.held = a.held)
      (hmemory : a'.outOfMemory = a.outOfMemory ∨ cap ≤ a.held ∧ a'.outOfMemory = !malloc)
  | done (hidle : b'.enq.busy = false) (hcall : a'.producer = none)
      (hvisible : a'.visible = a.visible ++ [v])
  | refused (hidle : b'.enq.busy = false) (hcall : a'.producer = none)
      (hvisible : a'.visible = a.visible) (hheld : cap ≤ a.held)
      (hmemory : ca = .CanAlloc → a.outOfMemory = true ∨ malloc = false)

/-- An access inside `inner.enqueue`. -/
theorem Seen.access_inner (h : Seen cap b a) (hMAX : MAX ≤ 2 ^ 63) (he : b.enq = .inner)
    {v : T} {ca : AllocationMode} {stage : Stage} (hcall : a.producer = some (v, ca, stage))
    {malloc : Bool} (hs : b.producer MAX malloc = some (b', es)) :
    ∃ a', Seen cap b' a' ∧ b'.deq = b.deq ∧
      (a'.consumer = a.consumer ∧ a'.wasEmpty = a.wasEmpty) ∧ EnqueueSeen cap malloc v ca a b' a' := by
  obtain ⟨v', hv', hrun⟩ := Option.bind_eq_some_iff.mp hs
  have hcounted := h.counted
  obtain ⟨rfl, rfl⟩ : v' = v ∧ stage = .called := by
    obtain ⟨least, g, htie⟩ := h.sim
    have henq := htie.enq
    rw [EnqTied, he] at henq
    obtain ⟨-, w, hw, hp⟩ := henq
    have := hcall.symm.trans hp
    simp only [Option.some.injEq, Prod.mk.injEq] at this
    exact ⟨(Option.some.inj (hv'.symm.trans hw)).trans this.1.symm, this.2.2⟩
  have hzero : a.unsignalled = 0 := by rw [BlockingFifo.unsignalled, hcall]
  rw [he] at hrun
  obtain ⟨⟨q', pe⟩, hq, hr⟩ := Option.map_eq_some_iff.mp hrun
  cases pe with
  | returned ok =>
    cases ok with
    | true =>
      obtain ⟨rfl, rfl⟩ := Prod.mk.inj hr
      obtain ⟨a', hsteps, hseen⟩ := h.step hMAX (l := .producer malloc) hs h.calm
      obtain ⟨a₁, hasked, hstep⟩ := hsteps.inv_snoc
      obtain ⟨out, rfl, hout⟩ := asked_steps hasked
      refine ⟨a', hseen, rfl, ?_⟩
      cases hstep with
      | published hcalled =>
        obtain rfl : ca = _ := by simpa using hcall.symm.trans hcalled
        refine ⟨⟨rfl, rfl⟩, .going rfl .published (by simp) rfl ?_ rfl hout⟩
        exact List.take_append_of_le_length (by
          show a.permits + a.claimed ≤ a.items.length
          omega)
    | false =>
      obtain ⟨rfl, rfl⟩ := Prod.mk.inj hr
      obtain ⟨a', hsteps, hseen⟩ := h.step hMAX (l := .producer malloc) hs h.calm
      obtain ⟨a₁, hasked, hstep⟩ := hsteps.inv_snoc
      obtain ⟨out, rfl, hout⟩ := asked_steps hasked
      refine ⟨a', hseen, rfl, ?_⟩
      cases hstep with
      | refused hcalled hheld hmemory =>
        obtain rfl : ca = _ := by simpa using hcall.symm.trans hcalled
        refine ⟨⟨rfl, rfl⟩, .refused rfl rfl rfl hheld fun hca => ?_⟩
        have hmem : out = true := hmemory hca
        rcases hout with rfl | ⟨-, rfl⟩
        · exact Or.inl hmem
        · exact Or.inr (by simpa using hmem)
  | _ =>
    obtain ⟨rfl, rfl⟩ := Prod.mk.inj hr
    obtain ⟨a', hsteps, hseen⟩ := h.step hMAX (l := .producer malloc) hs h.calm
    obtain ⟨out, rfl, hout⟩ := asked_steps hsteps
    exact ⟨_, hseen, rfl, ⟨rfl, rfl⟩, .going rfl .called (by simp) hcall rfl rfl hout⟩

/-- The access that signals: nobody has to be woken. -/
theorem Seen.access_signal (h : Seen cap b a) (hMAX : MAX ≤ 2 ^ 63) {ps : Signal}
    (he : b.enq = .signal ps) {v : T} {ca : AllocationMode} {stage : Stage}
    (hcall : a.producer = some (v, ca, stage)) (hstage : stage ≠ .signalled)
    {malloc : Bool} (hs : b.producer MAX malloc = some (b', es)) :
    ∃ a', Seen cap b' a' ∧ b'.deq = b.deq ∧
      (a'.consumer = a.consumer ∧ a'.wasEmpty = a.wasEmpty) ∧ EnqueueSeen cap malloc v ca a b' a' := by
  obtain ⟨v', hv', hrun⟩ := Option.bind_eq_some_iff.mp hs
  have hcounted := h.counted
  have hnonneg := h.count_nonneg
  obtain ⟨rfl, rfl, rfl⟩ : v' = v ∧ ps = .add ∧ stage = .published := by
    obtain ⟨least, g, htie⟩ := h.sim
    have henq := htie.enq
    rw [EnqTied, he] at henq
    obtain ⟨-, -, w, hw, ca', hp⟩ := henq
    have := hcall.symm.trans hp
    simp only [Option.some.injEq, Prod.mk.injEq] at this
    obtain ⟨hvw, -, hst⟩ := this
    refine ⟨(Option.some.inj (hv'.symm.trans hw)).trans hvw.symm, ?_⟩
    by_cases hadd : ps = .add
    · rw [if_pos hadd] at hst
      exact ⟨hadd, hst⟩
    · rw [if_neg hadd] at hst
      exact absurd hst hstage
  rw [he] at hrun
  obtain ⟨⟨s', ps'⟩, hq, hr⟩ := Option.map_eq_some_iff.mp hrun
  obtain ⟨rfl, rfl⟩ := Prod.mk.inj (Option.some.inj hq)
  simp only [Int.not_lt.mpr hnonneg, if_false] at hr
  obtain ⟨rfl, rfl⟩ := Prod.mk.inj hr
  obtain ⟨a', hsteps, hseen⟩ := h.step hMAX (l := .producer malloc) hs h.calm
  obtain ⟨a₁, hone, hstep⟩ : ∃ a₁, BlockingFifo.Steps cap a [.signalled] a₁ ∧
      BlockingFifo.Step cap a₁ (.enqueued v' true) a' := BlockingFifo.Steps.inv_snoc hsteps
  refine ⟨a', hseen, rfl, ?_⟩
  cases hone.inv_one with
  | signalled hcalled =>
    cases hstep with
    | enqueued hsignalled =>
      refine ⟨⟨rfl, rfl⟩, .done rfl rfl ?_⟩
      obtain ⟨log, hlog⟩ := h.history
      have hlen : a.items.length = a.permits + 1 + a.claimed := by
        rwa [BlockingFifo.unsignalled, hcall] at hcounted
      have hsplit : a.items.take (a.permits + a.claimed) ++ [v'] = a.items := by
        rw [show a.permits + a.claimed = a.items.length - 1 by omega, ← List.dropLast_eq_take]
        exact List.dropLast_append_getLast? v' (hlog.last hcall)
      show a.items.take (a.permits + 1 + a.claimed) = a.items.take (a.permits + a.claimed) ++ [v']
      rw [hsplit]
      exact List.take_of_length_le (by omega)

/-- **An access of the producer.** -/
theorem Seen.producer_access (h : Seen cap b a) (hMAX : MAX ≤ 2 ^ 63) {v : T}
    {ca : AllocationMode} {stage : Stage} (hcall : a.producer = some (v, ca, stage))
    (hstage : stage ≠ .signalled) (malloc : Bool) :
    ∃ b' es a', b.producer MAX malloc = some (b', es) ∧ Seen cap b' a' ∧ b'.deq = b.deq ∧
      (a'.consumer = a.consumer ∧ a'.wasEmpty = a.wasEmpty) ∧ EnqueueSeen cap malloc v ca a b' a' := by
  have hbusy : b.enq.busy := h.sim.enq_busy_iff.mpr (by rw [hcall]; simp)
  have hne : b.producer MAX malloc ≠ none := producer_ne_none h.sim hbusy malloc
  obtain ⟨⟨b', es⟩, hs⟩ := Option.ne_none_iff_exists'.mp hne
  cases he : b.enq with
  | inner =>
    obtain ⟨a', hseen, hsame⟩ := h.access_inner hMAX he hcall hs
    exact ⟨b', es, a', hs, hseen, hsame⟩
  | signal ps =>
    obtain ⟨a', hseen, hsame⟩ := h.access_signal hMAX he hcall hstage hs
    exact ⟨b', es, a', hs, hseen, hsame⟩
  | returned ok =>
    rw [he] at hbusy
    exact absurd hbusy Bool.false_ne_true

/-! ## How long a call takes -/

/-- How many accesses a call of `enqueue` still makes at most. -/
def enqLeft (b : Blocking T) : Nat :=
  match b.enq with
  | .inner => b.th.enq.left + 2
  | .signal .add => 2
  | .signal .post => 1
  | .signal .returned | .returned _ => 0

/-- How many accesses a call of the consumer that does not sleep still makes at most. -/
def deqLeft (b : Blocking T) : Nat :=
  match b.deq with
  | .wait .load => 11
  | .wait _ => 10
  | .inner => b.th.deq.left
  | .load => 1
  | .returned _ => 0

/-- An access of the producer brings its call nearer to the return. -/
theorem producer_left {malloc : Bool} (hs : b.producer MAX malloc = some (b', es)) :
    b'.enqLeft < b.enqLeft := by
  obtain ⟨v, -, hrun⟩ := Option.bind_eq_some_iff.mp hs
  cases he : b.enq with
  | inner =>
    rw [he] at hrun
    obtain ⟨⟨q', pe⟩, hq, hr⟩ := Option.map_eq_some_iff.mp hrun
    have hleft := Rwq.inner_enqueue_left hq
    have hb : b.enqLeft = b.th.enq.left + 2 := by rw [enqLeft, he]
    cases pe with
    | returned ok =>
      have hpos : 0 < b.th.enq.left := Nat.zero_lt_of_lt hleft
      cases ok <;>
      · obtain ⟨rfl, rfl⟩ := Prod.mk.inj hr
        rw [hb]
        simp only [enqLeft]
        omega
    | _ =>
      obtain ⟨rfl, rfl⟩ := Prod.mk.inj hr
      rw [hb]
      simp only [enqLeft]
      omega
  | signal ps =>
    rw [he] at hrun
    obtain ⟨⟨s', ps'⟩, hq, hr⟩ := Option.map_eq_some_iff.mp hrun
    cases ps with
    | add =>
      obtain ⟨rfl, rfl⟩ := Prod.mk.inj (Option.some.inj hq)
      by_cases hneg : b.sema.m_count < 0
      · simp only [hneg, if_true] at hr
        obtain ⟨rfl, rfl⟩ := Prod.mk.inj hr
        simp [enqLeft, he]
      · simp only [hneg, if_false] at hr
        obtain ⟨rfl, rfl⟩ := Prod.mk.inj hr
        simp [enqLeft, he]
    | post =>
      obtain ⟨rfl, rfl⟩ := Prod.mk.inj (Option.some.inj hq)
      obtain ⟨rfl, rfl⟩ := Prod.mk.inj hr
      simp [enqLeft, he]
    | returned => exact absurd hq (by simp [LightweightSemaphore.signal])
  | returned ok =>
    rw [he] at hrun
    exact absurd hrun (by simp)

/-- An access of the consumer, while nobody sleeps. -/
theorem consumer_left (hcalm : b.Calm) (hs : b.consumer false = some (b', es)) :
    b'.deqLeft < b.deqLeft := by
  unfold consumer at hs
  split at hs
  next pw hd =>
    obtain ⟨⟨s', pw'⟩, hq, hr⟩ := Option.map_eq_some_iff.mp hs
    obtain ⟨hop, hpw⟩ := hcalm pw hd
    have hne : b.op ≠ .wait_dequeue := fun he => by
      rw [he] at hop
      exact absurd hop (by simp [BlockingOp.mode])
    rcases hpw with rfl | rfl <;> rw [hop] at hq <;>
      obtain ⟨rfl, rfl⟩ := Prod.mk.inj (Option.some.inj hq)
    · by_cases hpos : 0 < b.sema.m_count
      · simp only [hpos, if_true] at hr
        obtain ⟨rfl, rfl⟩ := Prod.mk.inj hr
        simp [deqLeft, hd]
      · simp only [hpos, if_false, hne] at hr
        obtain ⟨rfl, rfl⟩ := Prod.mk.inj hr
        simp [deqLeft, hd]
    · obtain ⟨rfl, rfl⟩ := Prod.mk.inj hr
      simp [deqLeft, hd, Dequeue.left]
  next hd =>
    obtain ⟨⟨q', pd⟩, hq, hr⟩ := Option.map_eq_some_iff.mp hs
    have hleft := Rwq.dequeue_left hq
    have hb : b.deqLeft = b.th.deq.left := by rw [deqLeft, hd]
    rw [hb]
    cases pd with
    | removed result =>
      cases result <;>
      · obtain ⟨rfl, rfl⟩ := Prod.mk.inj hr
        exact Nat.zero_lt_of_lt hleft
    | peeked p =>
      cases p <;>
      · obtain ⟨rfl, rfl⟩ := Prod.mk.inj hr
        exact Nat.zero_lt_of_lt hleft
    | _ =>
      obtain ⟨rfl, rfl⟩ := Prod.mk.inj hr
      simp only [deqLeft, hd]
      exact hleft
  next hd =>
    obtain ⟨rfl, rfl⟩ := Prod.mk.inj (Option.some.inj hs)
    simp [deqLeft, hd]
  next => exact absurd hs (by simp)

theorem callEnqueue_left {v : T} {ca : AllocationMode}
    (hs : b.callEnqueue v ca = some (b', es)) : b'.enqLeft = 9 := by
  unfold callEnqueue at hs
  split at hs
  next =>
    obtain ⟨rfl, -⟩ := Prod.mk.inj (Option.some.inj hs)
    rfl
  next => exact absurd hs (by simp)

theorem callConsume_left {op : BlockingOp} (hs : b.callConsume op = some (b', es)) :
    b'.deqLeft ≤ 11 := by
  unfold callConsume at hs
  split at hs
  next =>
    obtain ⟨rfl, -⟩ := Prod.mk.inj (Option.some.inj hs)
    cases op <;> simp [deqLeft, Dequeue.left]
  next => exact absurd hs (by simp)

end Blocking

end Darts.Queue
