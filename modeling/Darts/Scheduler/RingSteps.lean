import Darts.Lib.Transition
import Darts.Scheduler.RingBuffer

/-!
# One producer and one consumer on a ring buffer, step by step

`Darts/Scheduler/RingBuffer.lean` takes a call of `push` or of `pull` as one step. In
`MicroStandard` the calls run side by side: the TP scheduler of the cluster pushes,
the worker pulls, and nothing keeps the one from being between two steps of the
other. Here each of them goes statement by statement: the test, which reads the
counter of the other side, the access to the slot, and the addition to its own
counter, in any interleaving.

By the time of the addition the test is stale. It stays good enough: the other side
can only have made more room for the producer, or more items for the consumer
(`Inv`). Whoever is between test and addition owns a slot that the other side does
not touch until the addition.

The pointers are of a type with a zero, which `pull` returns for an empty buffer; items
are not zero. The counters may start anywhere as long as they start equal.
-/

namespace Darts

namespace RingSteps

open Transition RingBuffer

variable {T : Type} {k : Nat}

/-- Where the producer is. -/
inductive Producer (T : Type)
  | idle
  /-- Called, about to test for a full buffer. -/
  | test (toAdd : T)
  /-- About to write the slot. -/
  | write (toAdd : T)
  /-- About to add to `produceCount`, and to return true. -/
  | add (toAdd : T)

/-- Where the consumer is. -/
inductive Consumer (T : Type)
  | idle
  /-- Called, about to test for an empty buffer. -/
  | test
  /-- About to read the slot. -/
  | read
  /-- About to add to `consumeCount`, and to return `temp`. -/
  | add (temp : T)

structure State (T : Type) (k : Nat) where
  produceCount : BitVec 32
  consumeCount : BitVec 32
  buffer_ : Fin (2 ^ k) → T
  producer : Producer T
  consumer : Consumer T
  /-- The calls of `push` that have returned, with what they returned. -/
  pushes : List (T × Bool)
  /-- What the calls of `pull` returned. -/
  pulls : List T

/-- The steps. -/
inductive Label (T : Type)
  /-- A call of `push`. -/
  | push (toAdd : T)
  /-- The call goes on. -/
  | produce
  /-- A call of `pull`. -/
  | pull
  | consume

/-- Both counters at `count`, and nobody in a call. -/
def start (count : BitVec 32) (buffer_ : Fin (2 ^ k) → T) : State T k :=
  { produceCount := count, consumeCount := count, buffer_ := buffer_, producer := .idle
    consumer := .idle, pushes := [], pulls := [] }

namespace State

/-- `produceCount - consumeCount`. -/
def size (s : State T k) : Nat := (s.produceCount - s.consumeCount).toNat

/-- The items between the counters, the oldest first. -/
def contents (s : State T k) : List T := items s.buffer_ s.consumeCount s.size

/-- The items for which `push` returned true. -/
def pushed (s : State T k) : List T := (s.pushes.filter Prod.snd).map Prod.fst

/-- The items that `pull` returned. -/
def pulled [Zero T] [DecidableEq T] (s : State T k) : List T := s.pulls.filter (· ≠ 0)

/-- The rest of `ringBuffer::push`. -/
def produce (s : State T k) : Option (State T k) :=
  match s.producer with
  | .idle => none
  | .test toAdd =>
    if s.size = num k then some { s with producer := .idle, pushes := s.pushes ++ [(toAdd, false)] }
    else some { s with producer := .write toAdd }
  | .write toAdd =>
    some { s with
      buffer_ := Function.update s.buffer_ (slot k s.produceCount) toAdd, producer := .add toAdd }
  | .add toAdd =>
    some { s with
      produceCount := s.produceCount + 1, producer := .idle
      pushes := s.pushes ++ [(toAdd, true)] }

/-- The rest of `ringBuffer::pull`. -/
def consume [Zero T] (s : State T k) : Option (State T k) :=
  match s.consumer with
  | .idle => none
  | .test =>
    if s.size = 0 then some { s with consumer := .idle, pulls := s.pulls ++ [0] }
    else some { s with consumer := .read }
  | .read => some { s with consumer := .add (s.buffer_ (slot k s.consumeCount)) }
  | .add temp =>
    some { s with
      consumeCount := s.consumeCount + 1, consumer := .idle, pulls := s.pulls ++ [temp] }

end State

/-- A step of either side. Only items are pushed. -/
def step [Zero T] [DecidableEq T] (s : State T k) : Label T → Option (State T k)
  | .push toAdd =>
    match s.producer with
    | .idle => if toAdd ≠ 0 then some { s with producer := .test toAdd } else none
    | _ => none
  | .produce => s.produce
  | .pull =>
    match s.consumer with
    | .idle => some { s with consumer := .test }
    | _ => none
  | .consume => s.consume

/-! ## What the buffer is for -/

variable [Zero T] [DecidableEq T]

/-- A bounded queue between two sides. -/
structure Fifo (s : State T k) : Prop where
  /-- Items come out in the order they went in. -/
  order : s.pulled <+: s.pushed
  /-- The counters tell how many are inside, and there is room for them. -/
  count : s.pushed.length = s.pulled.length + s.size
  room : s.size ≤ num k
  /-- The producer writes no slot that the consumer has yet to read. -/
  unread : ∀ toAdd, s.producer = .write toAdd → ∀ d < s.size,
    slot k (s.consumeCount + BitVec.ofNat 32 d) ≠ slot k s.produceCount
  /-- A push that fails finds the buffer full. -/
  full : ∀ toAdd t, step s .produce = some t → t.pushes = s.pushes ++ [(toAdd, false)] →
    s.size = num k
  /-- A pull that returns nothing finds it empty. -/
  empty : ∀ t, step s .consume = some t → t.pulls = s.pulls ++ [0] → s.size = 0

/-! ## The invariant -/

/-- What the producer knows where it is: between test and addition there is room, and after the
write the item is in the slot. -/
def Ahead (s : State T k) : Prop :=
  match s.producer with
  | .idle => True
  | .test toAdd => toAdd ≠ 0
  | .write toAdd => toAdd ≠ 0 ∧ s.size < num k
  | .add toAdd => toAdd ≠ 0 ∧ s.size < num k ∧ s.buffer_ (slot k s.produceCount) = toAdd

/-- What the consumer knows: there is an item, and `temp` is the one in its slot. -/
def Behind (s : State T k) : Prop :=
  match s.consumer with
  | .idle | .test => True
  | .read => s.size ≠ 0
  | .add temp => s.size ≠ 0 ∧ s.buffer_ (slot k s.consumeCount) = temp

structure Inv (s : State T k) : Prop where
  order : s.pushed = s.pulled ++ s.contents
  room : s.size ≤ num k
  items : ∀ x ∈ s.contents, x ≠ 0
  ahead : Ahead s
  behind : Behind s

theorem inv_start (count : BitVec 32) (buffer_ : Fin (2 ^ k) → T) :
    Inv (start count buffer_) where
  order := by simp [start, State.pushed, State.pulled, State.contents, State.size, items]
  room := by simp [start, State.size]
  items := by simp [start, State.contents, State.size, items]
  ahead := trivial
  behind := trivial

variable {s t : State T k}

omit [Zero T] [DecidableEq T] in
/-- A call of `push` that has returned. -/
theorem accepted_snoc (calls : List (T × Bool)) (x : T) (b : Bool) :
    ((calls ++ [(x, b)]).filter Prod.snd).map Prod.fst =
      (calls.filter Prod.snd).map Prod.fst ++ if b then [x] else [] := by
  cases b <;> simp

/-- The producer's write leaves alone what the consumer has yet to read. -/
theorem write_inv {toAdd : T} (hk : k ≤ 31) (h : Inv s) (hne : toAdd ≠ 0) (hroom : s.size < num k) :
    Inv { s with
      buffer_ := Function.update s.buffer_ (slot k s.produceCount) toAdd
      producer := .add toAdd } := by
  have hsame : items (Function.update s.buffer_ (slot k s.produceCount) toAdd) s.consumeCount
      s.size = s.contents := items_update (by omega) hroom toAdd
  refine { order := ?_, room := h.room, items := ?_, ahead := ?_, behind := ?_ }
  · show s.pushed = s.pulled ++ items _ _ s.size
    rw [hsame]
    exact h.order
  · show ∀ x ∈ items _ _ s.size, x ≠ 0
    rw [hsame]
    exact h.items
  · exact ⟨hne, hroom, Function.update_self _ _ _⟩
  · have hbehind := h.behind
    unfold Behind at hbehind ⊢
    cases hc : s.consumer with
    | idle | test => trivial
    | read =>
      rw [hc] at hbehind
      exact hbehind
    | add temp =>
      rw [hc] at hbehind
      obtain ⟨hsize, htemp⟩ := hbehind
      -- the item that is being pulled is the first of those inside
      have hslot := slot_free (by omega) hroom (Nat.pos_of_ne_zero hsize)
      rw [BitVec.add_zero] at hslot
      exact ⟨hsize, (Function.update_of_ne hslot _ _).trans htemp⟩

/-- The producer's addition puts the item behind the others. -/
theorem produced_inv {toAdd : T} (hk : k ≤ 31) (h : Inv s) (hne : toAdd ≠ 0)
    (hroom : s.size < num k) (hwritten : s.buffer_ (slot k s.produceCount) = toAdd) :
    Inv { s with
      produceCount := s.produceCount + 1, producer := .idle
      pushes := s.pushes ++ [(toAdd, true)] } := by
  obtain ⟨hsize, hitems⟩ := items_produce s.buffer_ hk hroom
  rw [hwritten] at hitems
  refine { order := ?_, room := ?_, items := ?_, ahead := trivial, behind := ?_ }
  · unfold State.pushed
    rw [accepted_snoc]
    show s.pushed ++ [toAdd] = s.pulled ++ items s.buffer_ s.consumeCount
      (s.produceCount + 1 - s.consumeCount).toNat
    rw [hitems, h.order, List.append_assoc]
    rfl
  · show (s.produceCount + 1 - s.consumeCount).toNat ≤ num k
    rw [hsize]
    exact hroom
  · intro x hx
    have hx : x ∈ items _ _ (s.produceCount + 1 - s.consumeCount).toNat := hx
    rw [hitems] at hx
    rcases List.mem_append.mp hx with hold | hnew
    · exact h.items x hold
    · rw [List.mem_singleton.mp hnew]
      exact hne
  · have hbehind := h.behind
    have hpos : (s.produceCount + 1 - s.consumeCount).toNat ≠ 0 := by omega
    unfold Behind at hbehind ⊢
    cases hc : s.consumer with
    | idle | test => trivial
    | read => exact hpos
    | add temp =>
      rw [hc] at hbehind
      exact ⟨hpos, hbehind.2⟩

/-- The consumer's addition takes the first item out. -/
theorem consumed_inv (h : Inv s) (hsize : s.size ≠ 0) :
    Inv { s with
      consumeCount := s.consumeCount + 1, consumer := .idle
      pulls := s.pulls ++ [s.buffer_ (slot k s.consumeCount)] } := by
  obtain ⟨hone, hitems⟩ := items_consume s.buffer_ hsize
  have hcontents : s.contents = s.buffer_ (slot k s.consumeCount) :: items _ _ _ := hitems
  have hitem : s.buffer_ (slot k s.consumeCount) ≠ 0 :=
    h.items _ (by rw [hcontents]; exact List.mem_cons_self)
  have hless : (s.produceCount - (s.consumeCount + 1)).toNat < s.size := by
    unfold State.size
    omega
  have hroom := h.room
  refine { order := ?_, room := ?_, items := ?_, ahead := ?_, behind := trivial }
  · have hpulls : (s.pulls ++ [s.buffer_ (slot k s.consumeCount)]).filter (· ≠ 0) =
        s.pulled ++ [s.buffer_ (slot k s.consumeCount)] := by
      rw [List.filter_append, List.filter_singleton, decide_eq_true hitem]
      rfl
    show s.pushed = List.filter _ _ ++ items _ _ _
    rw [hpulls, h.order, hcontents, List.append_assoc]
    rfl
  · show (s.produceCount - (s.consumeCount + 1)).toNat ≤ num k
    omega
  · intro x hx
    refine h.items x ?_
    rw [hcontents]
    exact List.mem_cons_of_mem _ hx
  · -- more room than the producer has seen
    have hahead := h.ahead
    unfold Ahead at hahead ⊢
    cases hp : s.producer with
    | idle => trivial
    | test toAdd =>
      rw [hp] at hahead
      exact hahead
    | write toAdd =>
      rw [hp] at hahead
      exact ⟨hahead.1, hless.trans hahead.2⟩
    | add toAdd =>
      rw [hp] at hahead
      exact ⟨hahead.1, hless.trans hahead.2.1, hahead.2.2⟩

/-- The producer goes on. -/
theorem produce_inv (hk : k ≤ 31) (h : Inv s) (ht : s.produce = some t) : Inv t := by
  have hahead := h.ahead
  unfold State.produce at ht
  unfold Ahead at hahead
  cases hp : s.producer with
  | idle =>
    rw [hp] at ht
    cases ht
  | test toAdd =>
    rw [hp] at ht hahead
    simp only at ht
    split at ht
    next hfull =>
      obtain rfl := Option.some.inj ht
      refine { order := ?_, room := h.room, items := h.items, ahead := trivial, behind := h.behind }
      unfold State.pushed
      rw [accepted_snoc]
      exact (List.append_nil _).trans h.order
    next hroom =>
      obtain rfl := Option.some.inj ht
      exact { order := h.order, room := h.room, items := h.items, behind := h.behind
              ahead := ⟨hahead, Nat.lt_of_le_of_ne h.room hroom⟩ }
  | write toAdd =>
    rw [hp] at ht hahead
    obtain rfl := Option.some.inj ht
    exact write_inv hk h hahead.1 hahead.2
  | add toAdd =>
    rw [hp] at ht hahead
    obtain rfl := Option.some.inj ht
    exact produced_inv hk h hahead.1 hahead.2.1 hahead.2.2

/-- The consumer goes on. -/
theorem consume_inv (h : Inv s) (ht : s.consume = some t) : Inv t := by
  have hbehind := h.behind
  unfold State.consume at ht
  unfold Behind at hbehind
  cases hc : s.consumer with
  | idle =>
    rw [hc] at ht
    cases ht
  | test =>
    rw [hc] at ht
    simp only at ht
    split at ht
    next hempty =>
      obtain rfl := Option.some.inj ht
      refine { order := ?_, room := h.room, items := h.items, ahead := h.ahead, behind := trivial }
      -- a zero is no item
      have hpulls : (s.pulls ++ [0]).filter (· ≠ 0) = s.pulled := by
        simp [State.pulled]
      show s.pushed = List.filter _ _ ++ s.contents
      rw [hpulls]
      exact h.order
    next hsome =>
      obtain rfl := Option.some.inj ht
      exact { order := h.order, room := h.room, items := h.items, ahead := h.ahead
              behind := hsome }
  | read =>
    rw [hc] at ht hbehind
    obtain rfl := Option.some.inj ht
    exact { order := h.order, room := h.room, items := h.items, ahead := h.ahead
            behind := ⟨hbehind, rfl⟩ }
  | add temp =>
    rw [hc] at ht hbehind
    obtain rfl := Option.some.inj ht
    obtain ⟨hsize, rfl⟩ := hbehind
    exact consumed_inv h hsize

/-- **One step** of either side. -/
theorem step_inv {l : Label T} (hk : k ≤ 31) (h : Inv s) (ht : step s l = some t) : Inv t := by
  cases l with
  | push toAdd =>
    unfold step at ht
    cases hp : s.producer with
    | idle =>
      rw [hp] at ht
      obtain ⟨hne, ht⟩ := Option.ite_none_right_eq_some.mp ht
      obtain rfl := Option.some.inj ht
      exact { order := h.order, room := h.room, items := h.items, ahead := hne, behind := h.behind }
    | test | write | add =>
      rw [hp] at ht
      cases ht
  | produce => exact produce_inv hk h ht
  | pull =>
    unfold step at ht
    cases hc : s.consumer with
    | idle =>
      rw [hc] at ht
      obtain rfl := Option.some.inj ht
      exact { order := h.order, room := h.room, items := h.items, ahead := h.ahead
              behind := trivial }
    | test | read | add =>
      rw [hc] at ht
      cases ht
  | consume => exact consume_inv h ht

/-- **Every interleaving.** -/
theorem reachable_inv {count : BitVec 32} {buffer_ : Fin (2 ^ k) → T} (hk : k ≤ 31)
    (h : Reachable step (start count buffer_) s) : Inv s :=
  h.invariant Inv (inv_start count buffer_) fun _ _ _ _ hI hl => step_inv hk hI hl

/-! ## First in, first out -/

omit [Zero T] [DecidableEq T] in
/-- A push fails only in its test, and then the buffer is full. -/
theorem full_of_refused {toAdd : T} (ht : s.produce = some t)
    (hpushes : t.pushes = s.pushes ++ [(toAdd, false)]) : s.size = num k := by
  unfold State.produce at ht
  cases hp : s.producer with
  | idle =>
    rw [hp] at ht
    cases ht
  | test toAdd' =>
    rw [hp] at ht
    simp only at ht
    split at ht
    next hfull => exact hfull
    next =>
      obtain rfl := Option.some.inj ht
      exact absurd (congrArg List.length hpushes) (by simp)
  | write toAdd' =>
    rw [hp] at ht
    obtain rfl := Option.some.inj ht
    exact absurd (congrArg List.length hpushes) (by simp)
  | add toAdd' =>
    rw [hp] at ht
    obtain rfl := Option.some.inj ht
    have hlast : (toAdd', true) = (toAdd, false) :=
      List.singleton_inj.mp (List.append_cancel_left hpushes)
    cases hlast

/-- A pull returns 0 only from its test, for no item is 0. -/
theorem empty_of_zero (h : Inv s) (ht : s.consume = some t)
    (hpulls : t.pulls = s.pulls ++ [0]) : s.size = 0 := by
  have hbehind := h.behind
  unfold State.consume at ht
  unfold Behind at hbehind
  cases hc : s.consumer with
  | idle =>
    rw [hc] at ht
    cases ht
  | test =>
    rw [hc] at ht
    simp only at ht
    split at ht
    next hempty => exact hempty
    next =>
      obtain rfl := Option.some.inj ht
      exact absurd (congrArg List.length hpulls) (by simp)
  | read =>
    rw [hc] at ht
    obtain rfl := Option.some.inj ht
    exact absurd (congrArg List.length hpulls) (by simp)
  | add temp =>
    rw [hc] at ht hbehind
    obtain rfl := Option.some.inj ht
    obtain ⟨hsize, rfl⟩ := hbehind
    have hzero := List.singleton_inj.mp (List.append_cancel_left hpulls)
    -- the first item inside would be 0
    refine absurd hzero (h.items _ ?_)
    have hcontents : s.contents = _ := (items_consume _ hsize).2
    rw [hcontents]
    exact List.mem_cons_self

/-! ## Calls that do not overlap -/

/-- A buffer with nobody in a call. -/
def ofRing (r : RingBuffer T k) (pushes : List (T × Bool)) (pulls : List T) : State T k :=
  { produceCount := r.produceCount, consumeCount := r.consumeCount, buffer_ := r.buffer_
    producer := .idle, consumer := .idle, pushes := pushes, pulls := pulls }

/-- The steps of a push on its own are the push of `RingBuffer`. -/
theorem push_alone (r : RingBuffer T k) {x : T} (hx : x ≠ 0) (pushes : List (T × Bool))
    (pulls : List T) : ∃ ls, run step (ofRing r pushes pulls) (.push x :: ls) =
      some (ofRing (r.push x).2 (pushes ++ [(x, (r.push x).1)]) pulls) := by
  have hcall : step (ofRing r pushes pulls) (.push x) =
      some { ofRing r pushes pulls with producer := .test x } := if_pos hx
  by_cases hfull : r.size = num k
  · have htest : step { ofRing r pushes pulls with producer := .test x } .produce =
        some (ofRing r (pushes ++ [(x, false)]) pulls) := if_pos hfull
    refine ⟨[.produce], ?_⟩
    rw [push_full hfull, run_cons hcall, run_cons htest]
    rfl
  · have htest : step { ofRing r pushes pulls with producer := .test x } .produce =
        some { ofRing r pushes pulls with producer := .write x } := if_neg hfull
    refine ⟨[.produce, .produce, .produce], ?_⟩
    rw [push_room hfull, run_cons hcall, run_cons htest]
    rfl

/-- And those of a pull the pull. -/
theorem pull_alone (r : RingBuffer T k) (pushes : List (T × Bool)) (pulls : List T) :
    ∃ ls, run step (ofRing r pushes pulls) (.pull :: ls) =
      some (ofRing r.pull.2 pushes (pulls ++ [r.pull.1.getD 0])) := by
  have hcall : step (ofRing r pushes pulls) .pull =
      some { ofRing r pushes pulls with consumer := .test } := rfl
  by_cases hempty : r.size = 0
  · have htest : step { ofRing r pushes pulls with consumer := .test } .consume =
        some (ofRing r pushes (pulls ++ [0])) := if_pos hempty
    refine ⟨[.consume], ?_⟩
    rw [pull_empty hempty, run_cons hcall, run_cons htest]
    rfl
  · have htest : step { ofRing r pushes pulls with consumer := .test } .consume =
        some { ofRing r pushes pulls with consumer := .read } := if_neg hempty
    refine ⟨[.consume, .consume, .consume], ?_⟩
    rw [pull_some hempty, run_cons hcall, run_cons htest]
    rfl

/-- **A queue between two sides.** In every interleaving of one producer with one consumer, from
counters that start equal anywhere, the items come out in the order they went in, no slot is
written before it has been read, and each side is turned away only by a buffer that is full or
empty. -/
theorem fifo_of_reachable {count : BitVec 32} {buffer_ : Fin (2 ^ k) → T} (hk : k ≤ 31)
    (h : Reachable step (start count buffer_) s) : Fifo s := by
  have hI := reachable_inv hk h
  exact
    { order := ⟨s.contents, hI.order.symm⟩
      count := by
        rw [hI.order, List.length_append]
        simp [State.contents, items]
      room := hI.room
      unread := fun toAdd hp d hd => by
        have hahead := hI.ahead
        unfold Ahead at hahead
        rw [hp] at hahead
        exact slot_free (by omega) hahead.2 hd
      full := fun toAdd t ht => full_of_refused ht
      empty := fun t ht => empty_of_zero hI ht }

/-- A buffer of four from two before the wrap: four items fill it and a fifth is refused; when one
has been taken, the next goes in while the second comes out. -/
def acrossWrap : List (Label Nat) :=
  ([7, 8, 9, 10].flatMap fun x => [.push x, .produce, .produce, .produce]) ++
    [.push 11, .produce, .pull, .consume, .consume, .consume, .push 12, .produce, .pull, .produce,
      .consume, .consume, .produce, .consume]

theorem fifo_of_reachable_wrap :
    ∃ s : State Nat 2, run step (start (-2) fun _ => 0) acrossWrap = some s ∧
      s.pushed = [7, 8, 9, 10, 12] ∧ s.pulled = [7, 8] ∧ s.contents = [9, 10, 12] ∧
      s.produceCount = 3 ∧ s.consumeCount = 0 ∧ Fifo s := by
  obtain ⟨s, hrun, hpushed, hpulled, hcontents, hproduce, hconsume⟩ :
      ∃ s : State Nat 2, run step (start (-2) fun _ => 0) acrossWrap = some s ∧
        s.pushed = [7, 8, 9, 10, 12] ∧ s.pulled = [7, 8] ∧ s.contents = [9, 10, 12] ∧
        s.produceCount = 3 ∧ s.consumeCount = 0 :=
    ⟨_, rfl, by decide, by decide, by decide, by decide, by decide⟩
  exact ⟨s, hrun, hpushed, hpulled, hcontents, hproduce, hconsume,
    fifo_of_reachable (by decide) (.of_run hrun)⟩

end RingSteps

end Darts
