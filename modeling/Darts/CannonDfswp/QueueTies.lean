import Darts.CannonDfswp.Commits
import Darts.Queue.Visible

/-!
# What holds between any two accesses to the queues of `cannonTP`

`Live` ties a state of the program on its real queues to the blocks `Q` of `Program`.
For every queue (`QueueTied`): its visible elements are these blocks; the producer is in
a call exactly while some firing is in `enqueue`, with the block it is to push; the
consumer is in the call its compute codelet is in; and the pointers of that codelet
point at the head from the moment they were set until the pop.
-/

namespace Darts.CannonDfswp

open Cannon Queue Transition

variable {R : Type} {n p : Nat}

/-- The call the consumer of queue `d` is in. -/
def calling (d : Side) : Option (Access n) → Option BlockingOp
  | some (.size d' _) => if d' = d then some .size_approx else none
  | some (.peek d' _) => if d' = d then some .peek else none
  | some (.pop d' _) => if d' = d then some .pop else none
  | _ => none

/-- `A` or `B` is used as a pointer from here on. -/
def used (d : Side) : Option (Access n) → Bool
  | some (.act (.pushA _)) | some (.act (.pushB _)) | some (.act (.popA _))
  | some (.enqueue _ _ _) => true
  | some (.pop .A _) | some (.act (.popB _)) => d == .B
  | _ => false

/-- `A` or `B` was set in this turn of the waiting loop and is still needed. -/
def looked (d : Side) : Option (Access n) → Bool
  | some (.getCurrentHead .B _) | some (.size .B _) | some (.peek .B _) => d == .A
  | some (.heads _) => true
  | h => used d h

/-- Some firing is in `enqueue` on queue `d` of tile `i`. -/
def Pushing (s : State (Cod n) (Access n) (LiveFrame R n p)) (d : Side) (i : Tile n)
    (x : Act n) : Prop :=
  ∃ k j, Op.headAct (s.rest k j) = some (.enqueue x d i)

/-- Where a compute codelet is. -/
def current (s : State (Cod n) (Access n) (LiveFrame R n p)) (i : Tile n) : Option (Access n) :=
  Op.headAct (s.rest (.compute i) 0)

/-- One queue: `m` is the frame of `Program`, `blocks` what it has in the queue. `room`
says that memory is always available. -/
structure QueueTied [Zero R] (room : Prop) (m : Frame R n p) (pushing : Act n → Prop)
    (d : Side) (i : Tile n) (b : Blocking (Mat R)) (ptr : Option (Nat × Nat))
    (head : Option (Access n)) (blocks : List (Mat R)) (a : BlockingFifo (Mat R)) : Prop where
  seen : b.Seen 15 a
  visible : a.visible = blocks
  pushes : ∀ x, pushing x → x.pushesInto = some (d, i) ∧ ∃ v stage,
    a.producer = some (v, .CanAlloc, stage) ∧ stage ≠ .signalled ∧ pushed m x = some v ∧
      a.outOfMemory = false ∧ (room ∨ a.held < 15)
  idle : (∀ x, ¬pushing x) → a.producer = none
  calls : a.consumer.map Prod.fst = calling d head
  present : calling d head = some .peek ∨ calling d head = some .pop → blocks ≠ []
  /-- `peek` was called because there was a block. -/
  nonempty : calling d head = some .peek → ¬a.wasEmpty
  pointer : looked d head → ∀ e, ptr = some e →
    b.deq = .returned (.peeked (some e)) ∧ blocks ≠ []
  used : used d head → ptr ≠ none

/-- **The invariant.** -/
structure Live [Zero R] (room : Prop) (s : State (Cod n) (Access n) (LiveFrame R n p))
    (Q : Side → Tile n → List (Mat R)) : Prop where
  ok : s.mem.fault = false
  /-- Only the head of a body is in a call. -/
  fresh : ∀ k j o os, s.rest k j = o :: os →
    os = (os.map (Op.map Access.action)).map (Op.map .act)
  queues : ∀ d i, ∃ a, QueueTied room (s.mem.withQueues Q) (Pushing s d i) d i
    (s.mem.queues d i) (s.mem.heads d i) (current s i) (Q d i) a

/-! ## One queue -/

namespace QueueTied

variable [Zero R] {room : Prop} {m m' : Frame R n p} {pushing pushing' : Act n → Prop}
  {d : Side} {i : Tile n} {b b' : Blocking (Mat R)} {ptr ptr' : Option (Nat × Nat)}
  {head head' : Option (Access n)} {blocks : List (Mat R)} {a a' : BlockingFifo (Mat R)}

/-- Other threads, or other queues of the same thread. -/
theorem frame (h : QueueTied room m pushing d i b ptr head blocks a)
    (hpushing : ∀ x, pushing' x ↔ pushing x)
    (hpushed : ∀ x v, pushing x → x.pushesInto = some (d, i) → pushed m x = some v →
      pushed m' x = some v)
    (hcall : calling d head' = calling d head)
    (hlooked : looked d head' → looked d head ∧ ptr' = ptr)
    (hused : CannonDfswp.used d head' → ptr' ≠ none) :
    QueueTied room m' pushing' d i b ptr' head' blocks a where
  seen := h.seen
  visible := h.visible
  pushes x hx := by
    obtain ⟨hinto, v, stage, hp, hstage, hv, hmem⟩ := h.pushes x ((hpushing x).mp hx)
    exact ⟨hinto, v, stage, hp, hstage, hpushed x v ((hpushing x).mp hx) hinto hv, hmem⟩
  idle hnone := h.idle fun x hx => hnone x ((hpushing x).mpr hx)
  calls := h.calls.trans hcall.symm
  present hc := h.present (hcall ▸ hc)
  nonempty hc := h.nonempty (hcall ▸ hc)
  pointer hl e he := by
    obtain ⟨hold, rfl⟩ := hlooked hl
    exact h.pointer hold e he
  used := hused

/-- The pointer of the codelet points at the head. -/
theorem deref (h : QueueTied room m pushing d i b ptr head blocks a) (hl : looked d head)
    {e : Nat × Nat} (he : ptr = some e) :
    ∃ X, (b.inner.blocks e.1).data e.2 = some X ∧ blocks.head? = some X := by
  obtain ⟨hdeq, hne⟩ := h.pointer hl e he
  obtain ⟨X, hdata, hhead⟩ := h.seen.sim.deref_peeked hdeq (h.visible ▸ hne)
  exact ⟨X, hdata, h.visible ▸ hhead⟩

/-- A push calls `enqueue`. -/
theorem push_call (h : QueueTied room m pushing d i b ptr head blocks a)
    (hno : ∀ x, ¬pushing x) {x : Act n} (hx : x.pushesInto = some (d, i)) {v : Mat R}
    (hv : pushed m x = some v) (hroom : room ∨ blocks.length < 15) :
    ∃ b' es, b.callEnqueue v .CanAlloc = some (b', es) ∧
      ∀ pushing' : Act n → Prop, (∀ y, pushing' y ↔ y = x) →
        ∃ a', QueueTied room m pushing' d i b' ptr head blocks a' := by
  have hnone := h.idle hno
  obtain ⟨b', es, a', hs, hseen, rfl, hdeq, -⟩ :=
    h.seen.enqueue_call (by decide : 512 ≤ 2 ^ 63) hnone v .CanAlloc
  refine ⟨b', es, hs, fun pushing' hpushing => ?_⟩
  have hall : a.visible = a.items := BlockingFifo.visible_of_counted h.seen.counted (by
    rw [BlockingFifo.unsignalled, hnone])
  exact ⟨_,
    { seen := hseen
      visible := h.visible
      pushes := fun y hy => by
        obtain rfl := (hpushing y).mp hy
        refine ⟨hx, v, .called, rfl, by simp, hv, rfl, hroom.imp id fun hlt => ?_⟩
        show a.items.length < 15
        rw [← hall, h.visible]
        exact hlt
      idle := fun hnone' => absurd ((hpushing x).mpr rfl) (hnone' x)
      calls := h.calls
      present := h.present
      nonempty := h.nonempty
      pointer := fun hl e he => by
        rw [hdeq]
        exact h.pointer hl e he
      used := h.used }⟩

/-- An access in `enqueue`: it goes on, or it has pushed the block. -/
theorem push_access (h : QueueTied room m pushing d i b ptr head blocks a) {x : Act n}
    (hx : pushing x) (malloc : Bool) (hmalloc : room → malloc = true) :
    ∃ b' es, b.producer 512 malloc = some (b', es) ∧
      (b'.enq.busy ∧ (∃ a', QueueTied room m pushing d i b' ptr head blocks a') ∨
        b'.enq.busy = false ∧ ∃ v, pushed m x = some v ∧
          ∀ pushing' : Act n → Prop, (∀ y, ¬pushing' y) →
            ∃ a', QueueTied room m pushing' d i b' ptr head (blocks ++ [v]) a') := by
  obtain ⟨hinto, v, stage, hp, hstage, hv, hmemory, hroom⟩ := h.pushes x hx
  obtain ⟨b', es, a', hs, hseen, hdeq, ⟨hcons, hempty⟩, heff⟩ :=
    h.seen.producer_access (by decide : 512 ≤ 2 ^ 63) hp hstage malloc
  refine ⟨b', es, hs, ?_⟩
  cases heff with
  | going hbusy stage' hstage' hp' hvisible hheld hmemory' =>
    refine Or.inl ⟨hbusy, a',
      { seen := hseen
        visible := hvisible.trans h.visible
        pushes := fun y hy => ?_
        idle := fun hnone => absurd hx (hnone x)
        calls := by rw [hcons]; exact h.calls
        present := h.present
        nonempty := by rw [hempty]; exact h.nonempty
        pointer := fun hl e he => by
          rw [hdeq]
          exact h.pointer hl e he
        used := h.used }⟩
    obtain ⟨hy', w, stage'', hpy, -, hw, -⟩ := h.pushes y hy
    obtain ⟨rfl, -⟩ := Prod.mk.inj (Option.some.inj (hp.symm.trans hpy))
    refine ⟨hy', v, stage', hp', hstage', hw, ?_, by rwa [hheld]⟩
    rcases hmemory' with he | ⟨hle, he⟩
    · rw [he, hmemory]
    · rw [he, hmalloc (hroom.resolve_right (by omega))]
      rfl
  | done hidle hnone hvisible =>
    refine Or.inr ⟨hidle, v, hv, fun pushing' hpushing => ⟨a',
      { seen := hseen
        visible := by rw [hvisible, h.visible]
        pushes := fun y hy => absurd hy (hpushing y)
        idle := fun _ => hnone
        calls := by rw [hcons]; exact h.calls
        present := fun _ => by simp
        nonempty := by rw [hempty]; exact h.nonempty
        pointer := fun hl e he => by
          rw [hdeq]
          exact ⟨(h.pointer hl e he).1, by simp⟩
        used := h.used }⟩⟩
  | refused hidle hnone hvisible hheld hmemory' =>
    -- there was memory, or no need for it
    rcases hmemory' rfl with he | he
    · rw [hmemory] at he
      exact absurd he Bool.false_ne_true
    · rw [hmalloc (hroom.resolve_right (by omega))] at he
      exact absurd he.symm Bool.false_ne_true

theorem not_looked (hcall : calling d head ≠ none) : looked d head = false := by
  unfold calling at hcall
  unfold looked CannonDfswp.used
  split at hcall
  next d' _ =>
    split at hcall
    next he => subst he; cases d' <;> rfl
    next => exact absurd rfl hcall
  next d' _ =>
    split at hcall
    next he => subst he; cases d' <;> rfl
    next => exact absurd rfl hcall
  next d' _ =>
    split at hcall
    next he => subst he; cases d' <;> rfl
    next => exact absurd rfl hcall
  next => exact absurd rfl hcall

theorem looked_of_used (hused : CannonDfswp.used d head) : looked d head := by
  unfold looked
  split <;> first | exact hused | simp [CannonDfswp.used] at hused

theorem not_used (hcall : calling d head ≠ none) : CannonDfswp.used d head = false := by
  by_contra hused
  rw [Bool.not_eq_false] at hused
  exact absurd (looked_of_used hused) (by rw [not_looked hcall]; simp)

/-- A compute codelet calls the consumer's side. -/
theorem consume_call (h : QueueTied room m pushing d i b ptr head blocks a)
    (hno : calling d head = none) {op : BlockingOp} (hop : op.mode = .tryWait)
    (hcall : calling d head' = some op) (hne : op = .peek ∨ op = .pop → blocks ≠ []) :
    ∃ b' es, b.callConsume op = some (b', es) ∧
      ∃ a', QueueTied room m pushing d i b' ptr' head' blocks a' := by
  have hnone : a.consumer = none := Option.map_eq_none_iff.mp (h.calls.trans hno)
  obtain ⟨b', es, a', hs, hseen, rfl, -⟩ :=
    h.seen.consume_call (by decide : 512 ≤ 2 ^ 63) hnone hop
  have hbusy : calling d head' ≠ none := by rw [hcall]; simp
  refine ⟨b', es, hs, _,
    { seen := hseen
      visible := by
        rw [← h.visible]
        simp [BlockingFifo.visible, BlockingFifo.claimed, hnone]
      pushes := h.pushes
      idle := h.idle
      calls := hcall.symm
      present := fun hp => ?_
      nonempty := fun hp => ?_
      pointer := fun hl => absurd hl (by rw [not_looked hbusy]; simp)
      used := fun hu => absurd hu (by rw [not_used hbusy]; simp) }⟩
  · rw [hcall] at hp
    exact hne (hp.imp Option.some.inj Option.some.inj)
  · rw [hcall] at hp
    have hblocks := hne (Or.inl (Option.some.inj hp))
    show ¬a.items = []
    intro hnil
    rw [← h.visible, BlockingFifo.visible, hnil, List.take_nil] at hblocks
    exact hblocks rfl

/-- An access of the consumer: it goes on, or the call returns. -/
theorem access (h : QueueTied room m pushing d i b ptr head blocks a) {op : BlockingOp}
    (hcall : calling d head = some op) :
    ∃ b' es, b.consumer false = some (b', es) ∧
      ((∀ result, b'.deq ≠ .returned result) ∧
          (∃ a', QueueTied room m pushing d i b' ptr head blocks a') ∨
        ∃ result a', b'.deq = .returned result ∧ Blocking.Answer op a a' result ∧
          ∀ (m' : Frame R n p) head' ptr', (∀ x v, pushing x →
              x.pushesInto = some (d, i) → pushed m x = some v → pushed m' x = some v) →
            calling d head' = none →
            (looked d head' → ∀ e, ptr' = some e →
              result = .peeked (some e) ∧ a'.visible ≠ []) →
            (CannonDfswp.used d head' → ptr' ≠ none) →
            QueueTied room m' pushing d i b' ptr' head' a'.visible a') := by
  have hbusy : calling d head ≠ none := by rw [hcall]; simp
  obtain ⟨⟨op', passed⟩, hcons, rfl⟩ := Option.map_eq_some_iff.mp (h.calls.trans hcall)
  obtain ⟨b', es, a', hs, hseen, -, hprod, hheld, hmem, hgoing | hreturned⟩ :=
    h.seen.consumer_access hcons
  · obtain ⟨hgoing, ⟨passed', hcons'⟩, hempty, hvisible⟩ := hgoing
    exact ⟨b', es, hs, Or.inl ⟨hgoing, a',
      { seen := hseen
        visible := hvisible.trans h.visible
        pushes := by
          rw [hprod, hmem, hheld]
          exact h.pushes
        idle := by rw [hprod]; exact h.idle
        calls := by rw [hcons', hcall]; rfl
        present := h.present
        pointer := fun hl => absurd hl (by rw [not_looked hbusy]; simp)
        nonempty := by rw [hempty]; exact h.nonempty
        used := fun hu => absurd hu (by rw [not_used hbusy]; simp) }⟩⟩
  · obtain ⟨result, hdeq, hcons', hanswer⟩ := hreturned
    refine ⟨b', es, hs, Or.inr ⟨result, a', hdeq, hanswer, ?_⟩⟩
    intro m' head' ptr' hpushed hnone hpointer hused
    exact
      { seen := hseen
        visible := rfl
        pushes := fun x hx => by
          obtain ⟨hinto, v, stage, hp, hstage, hv, hmemory⟩ := h.pushes x hx
          rw [hprod, hmem, hheld]
          exact ⟨hinto, v, stage, hp, hstage, hpushed x v hx hinto hv, hmemory⟩
        idle := by rw [hprod]; exact h.idle
        calls := by rw [hcons', hnone]; rfl
        present := fun hp => absurd hp (by rw [hnone]; simp)
        nonempty := fun hp => absurd hp (by rw [hnone]; simp)
        pointer := fun hl e he => by
          obtain ⟨rfl, hne⟩ := hpointer hl e he
          exact ⟨hdeq, hne⟩
        used := hused }

end QueueTied

/-! ## What is left of a firing -/

theorem headAct_map {K A B : Type} (f : B → A) (os : List (Op K B)) :
    Op.headAct (os.map (Op.map f)) = (Op.headAct os).map f := by
  cases os with
  | nil => rfl
  | cons o os => cases o <;> rfl

/-- The action of a compute codelet after `x`. -/
def after : Act n → Option (Act n)
  | .multiply i => some (.pushA i)
  | .pushA i => some (.pushB i)
  | .pushB i => some (.popA i)
  | .popA i => some (.popB i)
  | .popB i => some (.incr i)
  | .incr i => some (.test i)
  | _ => none

section Rest

variable [CommRing R] {blas : Blas R} {u : State (Cod n) (Act n) (Frame R n p)}

theorem Ctl.headAct_tail (hc : Ctl blas u) {i : Tile n} {x : Act n}
    {os : List (Op (Cod n) (Act n))} (hrest : u.rest (.compute i) 0 = .act x :: os) :
    Op.headAct os = after x := by
  have hbody := hc.rest_compute i
  rw [hrest] at hbody
  cases hq : point u i <;> simp [hq, Point.rest, iteration, fireBody] at hbody <;>
    obtain ⟨rfl, rfl⟩ := hbody <;> rfl

/-- After a counter operation a compute codelet is at its loop test, or through. -/
theorem Ctl.headAct_plain (hc : Ctl blas u) {i : Tile n} {o : Op (Cod n) (Act n)}
    {os : List (Op (Cod n) (Act n))} (hrest : u.rest (.compute i) 0 = o :: os)
    (ho : ∀ x, o ≠ .act x) : Op.headAct os = none ∨ Op.headAct os = some (.test i) := by
  have hbody := hc.rest_compute i
  rw [hrest] at hbody
  cases hq : point u i <;> simp [hq, Point.rest, iteration, fireBody] at hbody <;>
    obtain ⟨rfl, rfl⟩ := hbody
  case reset => exact Or.inr rfl
  case signal => exact Or.inl rfl
  all_goals exact absurd rfl (ho _)

end Rest

end Darts.CannonDfswp
