import Darts.Runtime.Affinity
import Darts.Scheduler.Static
import Darts.Scheduler.Steal

/-!
# Every policy at work (`TPSchedPolicy.cpp`, `MSchedPolicy.cpp`)

The whole runtime behind its links: each TP scheduler under any of the five policies that
`TPScheduler::create` builds, each worker under any of the five of `MScheduler::create`,
and the codelets in between. A thread in its policy loop goes from one access to the
shared state to the next. A thread that executes a factory or `fire()` may in addition
schedule any codelet and push any closure, any number of times. `alive()` is not looked
at: a loop that ends takes no more steps.

What is asked here is whether a step can divide by zero, use a null pointer or use a TP
scheduler as a worker. Three policies never choose a worker, or look first whether there
are any. `TPRoundRobin` and `TPHintSched` do not, and `getSubIndexInc` divides by the
number of workers: they need one (`fault_free_iff`).

Pools are concurrent queues whose order depends on the build; a pop may take any element.
-/

namespace Darts.Dispatch

open Transition Startup TPStatic

/-! ## What can go wrong -/

inductive Fault
  | divisionByZero
  | nullPointer
  /-- A `static_cast` to the wrong class. -/
  | badCast
deriving DecidableEq

/-- `a % m`. -/
def modulo (a m : Nat) : Except Fault Nat := if m = 0 then .error .divisionByZero else .ok (a % m)

/-- The object behind a pointer. -/
def deref {α : Type} : Option α → Except Fault α
  | some x => .ok x
  | none => .error .nullPointer

/-- `static_cast<MScheduler*>(th)`. -/
def asWorker {N n : Nat} : Thread N n → Except Fault (Fin N × Fin n)
  | .tp _ => .error .badCast
  | .mc i j => .ok (i, j)

/-- `static_cast<TPScheduler*>(th)`. -/
def asTP {N n : Nat} : Thread N n → Except Fault (Fin N)
  | .tp i => .ok i
  | .mc _ _ => .error .badCast

/-! ## The machine -/

/-- The classes that `TPScheduler::create` builds objects of. -/
inductive TPPolicy
  | TPPushFull | TPRoundRobin | TPStatic | TPDynamic | TPHintSched
deriving DecidableEq

/-- `TPScheduler::create`. -/
def create : Nat → Option TPPolicy
  | 0 => some .TPPushFull
  | 1 => some .TPRoundRobin
  | 2 => some .TPStatic
  | 3 => some .TPDynamic
  | 5 => some .TPHintSched
  | _ => none

/-- A call of the virtual `pushCodelet` of a worker. -/
structure Call (C : Type) (N n : Nat) where
  codelet : C
  worker : Fin N × Fin n
  /-- It is made by `validateAndPush`, again and again until the codelet is taken. -/
  nested : Bool

/-- Where the policy loop of a TP scheduler is. -/
inductive TPAt (C : Type) (N n : Nat)
  | popTP
  | steal
  /-- In the factory of a closure. -/
  | factory
  | popCodelet
  /-- About to choose a worker for the codelet, at turn `i` of the loop of `TPPushFull`. -/
  | choose (tempCodelet : C) (i : Nat)
  /-- In `myCDS->pushCodelet(tempCodelet)`. -/
  | push (i : Nat) (call : Call C N n)
  /-- In the `fire()` of the codelet. -/
  | fire

/-- Where the policy loop of a worker is. -/
inductive MCAt
  | popCodelet
  | stealCodelet
  | fire
deriving DecidableEq

structure State (C : Type) (N n : Nat) where
  /-- How many closures are in a pool `ready_`. -/
  ready_ : Fin N → Nat
  codelets_ : Fin N → List C
  whichSub_ : Fin N → Nat
  workers : Fin N × Fin n → MScheduler C
  tp : Fin N → TPAt C N n
  mc : Fin N × Fin n → MCAt
  /-- The call of `pushCodelet` that a thread has made from a factory or a `fire()`. -/
  user : Thread N n → Option (Call C N n)
  fault : Option Fault

/-- The steps. The numbers are the value of `rand()` and the element that a pop takes. -/
inductive Label (C : Type) (N n : Nat)
  /-- The policy loop of a TP scheduler goes on. -/
  | tp (i : Fin N) (rand pos : Nat)
  /-- That of a worker. -/
  | mc (k : Fin N × Fin n) (rand pos : Nat)
  /-- The factory or `fire()` that a thread is in schedules a codelet, by `decDep` or by `add`. -/
  | decDep (th : Thread N n) (c : C)
  | add (th : Thread N n) (c : C)
  /-- The call that this has led to goes on. -/
  | user (th : Thread N n)
  /-- It pushes a closure. -/
  | pushTP (th : Thread N n)
  /-- It returns. -/
  | done (th : Thread N n)

/-- What the codelets say about where they want to go. -/
structure Wishes (C : Type) where
  getStatus : C → BitVec 32
  getSchedHint : C → BitVec 32

section Machine

variable {C : Type} {N n : Nat}

/-- `getSubScheduler(pos)`, to be used as a worker. -/
def subWorker (o : Sched N n) (pos : Nat) : Except Fault (Fin N × Fin n) := do
  let th ← deref (o.children_[pos]?).join
  asWorker th

/-- The cluster of a thread. -/
def cluster : Thread N n → Fin N
  | .tp i => i
  | .mc i _ => i

/-- A pop from the buffer of a worker. -/
def popBuff (pos : Nat) : MScheduler C → Option (C × MScheduler C)
  | .MicroStandard buff => buff.pull.1.map fun c => (c, .MicroStandard buff.pull.2)
  | .MicroStatic buff => buff[pos]?.map fun c => (c, .MicroStatic (buff.eraseIdx pos))
  | .MicroDynamic => none
  | .MicroSteal buff => buff[pos]?.map fun c => (c, .MicroSteal (buff.eraseIdx pos))
  | .MicroSchedHint buff => buff.pull.1.map fun c => (c, .MicroSchedHint buff.pull.2)

variable (links : Startup.State N n) (w : Wishes C)

/-- The test of `MicroSchedHint::validateAndPush`: the sibling that the codelet goes to, if any. -/
def victim (k : Fin N × Fin n) (c : C) : Except Fault (Option (Fin N × Fin n)) := do
  let o ← deref (links.obj (.mc k.1 k.2))
  let parent ← deref o.parent_
  let p ← deref (links.obj parent)
  let mySubID ← modulo (o.id_ - 1) p.children_.length
  if (w.getSchedHint c).toNat ≠ mySubID % 2 ^ 32 ∧ (w.getSchedHint c).toNat < p.children_.length then
    let sub ← subWorker p (w.getSchedHint c).toNat
    .ok (some sub)
  else .ok none

/-- What becomes of a call of `pushCodelet` of a worker in one step. -/
inductive Pushing (C : Type) (N n : Nat)
  /-- It is not over. -/
  | on (call : Call C N n)
  | returned (pushed : Bool) (s : State C N n)

/-- The worker keeps the codelet, if it can. -/
def keep (s : State C N n) (call : Call C N n) : Pushing C N n :=
  let own := (s.workers call.worker).pushOwn call.codelet
  if call.nested ∧ own.1 = false then .on call
  else .returned own.1 { s with workers := Function.update s.workers call.worker own.2 }

/-- `pushCodelet` of a worker. -/
def pushWorker (s : State C N n) (call : Call C N n) : Except Fault (Pushing C N n) :=
  match s.workers call.worker with
  | .MicroSchedHint _ => do
    match ← victim links w call.worker call.codelet with
    | some sub => .ok (.on { call with worker := sub, nested := true })
    | none => .ok (keep s call)
  | _ => .ok (keep s call)

/-- The virtual `pushCodelet` of a TP scheduler, called by thread `th` of its cluster. -/
def pushCodelet (P : TPPolicy) (s : State C N n) (th : Thread N n) (c : C) :
    Except Fault (State C N n) :=
  let i := cluster th
  let pool := { s with codelets_ := Function.update s.codelets_ i (s.codelets_ i ++ [c]) }
  match P with
  | .TPStatic => do
    let o ← deref (links.obj (.tp i))
    if (w.getStatus c).toNat = 0 ∨ o.children_.length = 0 then .ok pool
    else
      let pos ← modulo ((w.getStatus c).toNat - 1) o.children_.length
      let k ← subWorker o pos
      .ok { s with user := Function.update s.user th (some ⟨c, k, false⟩) }
  | _ => .ok pool

/-- `Codelet::decDep` of a codelet that becomes ready. -/
def decDep (P : TPPolicy) (s : State C N n) (th : Thread N n) (c : C) :
    Except Fault (State C N n) :=
  match th with
  | .tp _ => pushCodelet links w P s th c
  | .mc i j =>
    match s.workers (i, j) with
    -- `getLocal` holds, and `pushLocal` always succeeds
    | .MicroSteal buff => .ok
        { s with workers := Function.update s.workers (i, j) (.MicroSteal (buff ++ [c])) }
    | _ => pushCodelet links w P s th c

/-! ## The policy loops -/

/-- `TPScheduler::steal`: the pool that is popped from. -/
def steal (self : Thread N n) (rand : Nat) : Except Fault (Option (Fin N)) := do
  let o ← deref (links.obj self)
  if o.numberOfPeers ≠ 0 then
    let random ← modulo rand o.numberOfPeers
    if random ≠ o.id_ then
      let peers ← deref o.peers_
      let peer ← deref (peers random)
      let i ← asTP peer
      .ok (some i)
    else .ok none
  else .ok none

/-- `MicroSteal::stealCodelet`: the parent, or the sibling. -/
def stealCodelet (self : Thread N n) (rand : Nat) :
    Except Fault (Option (Fin N ⊕ Fin N × Fin n)) := do
  let o ← deref (links.obj self)
  let parent ← deref o.parent_
  let p ← deref (links.obj parent)
  let random ← modulo rand (p.children_.length + 1)
  if random ≠ o.id_ then
    if random = p.children_.length then
      let i ← asTP parent
      .ok (some (.inl i))
    else
      let k ← subWorker p random
      .ok (some (.inr k))
  else .ok none

/-- A closure from the pool of TP scheduler `from`, if there is one. -/
def takeTP (s : State C N n) (i source : Fin N) (otherwise : TPAt C N n) : State C N n :=
  if 0 < s.ready_ source then
    { s with
      ready_ := Function.update s.ready_ source (s.ready_ source - 1)
      tp := Function.update s.tp i .factory }
  else { s with tp := Function.update s.tp i otherwise }

/-- `getSubScheduler(getSubIndexInc())`, and the call of its `pushCodelet`. -/
def nextSub (s : State C N n) (i : Fin N) (o : Sched N n) (c : C) (turn : Nat) :
    Except Fault (State C N n) := do
  let whichSub_ ← modulo (s.whichSub_ i + 1) o.children_.length
  let k ← subWorker o (s.whichSub_ i)
  .ok { s with
    whichSub_ := Function.update s.whichSub_ i whichSub_
    tp := Function.update s.tp i (.push turn ⟨c, k, false⟩) }

/-- A TP scheduler chooses a worker for a codelet that it has popped, or fires it itself. -/
def choose (P : TPPolicy) (s : State C N n) (i : Fin N) (c : C) (turn : Nat) :
    Except Fault (State C N n) := do
  let o ← deref (links.obj (.tp i))
  match P with
  | .TPPushFull =>
    if turn < o.children_.length then nextSub s i o c turn
    else .ok { s with tp := Function.update s.tp i .fire }
  | .TPRoundRobin => nextSub s i o c turn
  | .TPStatic | .TPDynamic => .ok { s with tp := Function.update s.tp i .fire }
  | .TPHintSched =>
    if (w.getSchedHint c).toNat < o.children_.length then
      let k ← subWorker o (w.getSchedHint c).toNat
      .ok { s with tp := Function.update s.tp i (.push turn ⟨c, k, false⟩) }
    else nextSub s i o c turn

/-- Where a TP scheduler goes on when the worker has not taken the codelet. -/
def refused (P : TPPolicy) (o : Sched N n) (turn : Nat) (call : Call C N n) : TPAt C N n :=
  match P with
  | .TPPushFull => .choose call.codelet (turn + 1)
  | .TPHintSched =>
    if (w.getSchedHint call.codelet).toNat < o.children_.length then .push turn call
    else .choose call.codelet turn
  | _ => .choose call.codelet turn

/-- The policy loop of TP scheduler `i`. -/
def tpStep (P : TPPolicy) (s : State C N n) (i : Fin N) (rand pos : Nat) :
    Option (Except Fault (State C N n)) :=
  match s.tp i with
  | .popTP => some (.ok (takeTP s i i .steal))
  | .steal => some do
    match ← steal links (.tp i) rand with
    | some source => .ok (takeTP s i source .popCodelet)
    | none => .ok { s with tp := Function.update s.tp i .popCodelet }
  | .popCodelet =>
    match (s.codelets_ i)[pos]? with
    | some c => some (.ok { s with
        codelets_ := Function.update s.codelets_ i ((s.codelets_ i).eraseIdx pos)
        tp := Function.update s.tp i (.choose c 0) })
    | none =>
      if s.codelets_ i = [] then some (.ok { s with tp := Function.update s.tp i .popTP }) else none
  | .choose c turn => some (choose links w P s i c turn)
  | .push turn call => some do
    match ← pushWorker links w s call with
    | .on call' => .ok { s with tp := Function.update s.tp i (.push turn call') }
    | .returned true s' => .ok { s' with tp := Function.update s.tp i .popCodelet }
    | .returned false s' => do
      let o ← deref (links.obj (.tp i))
      .ok { s' with tp := Function.update s.tp i (refused w P o turn call) }
  | .factory | .fire => none

/-- A worker takes a codelet from the pool of a TP scheduler. -/
def takeCodelet (s : State C N n) (k : Fin N × Fin n) (source : Fin N) (pos : Nat) : State C N n :=
  match (s.codelets_ source)[pos]? with
  | some _ => { s with
      codelets_ := Function.update s.codelets_ source ((s.codelets_ source).eraseIdx pos)
      mc := Function.update s.mc k .fire }
  | none => { s with mc := Function.update s.mc k .popCodelet }

/-- Or from a buffer. -/
def takeBuff (s : State C N n) (k source : Fin N × Fin n) (pos : Nat) (otherwise : MCAt) :
    State C N n :=
  match popBuff pos (s.workers source) with
  | some (_, buff) => { s with
      workers := Function.update s.workers source buff
      mc := Function.update s.mc k .fire }
  | none => { s with mc := Function.update s.mc k otherwise }

/-- The policy loop of worker `k`. -/
def mcStep (s : State C N n) (k : Fin N × Fin n) (rand pos : Nat) :
    Option (Except Fault (State C N n)) :=
  match s.mc k with
  | .popCodelet =>
    match s.workers k with
    | .MicroDynamic => some do
      let o ← deref (links.obj (.mc k.1 k.2))
      let parent ← deref o.parent_
      let i ← asTP parent
      .ok (takeCodelet s k i pos)
    | .MicroSteal _ => some (.ok (takeBuff s k k pos .stealCodelet))
    | _ => some (.ok (takeBuff s k k pos .popCodelet))
  | .stealCodelet => some do
    match ← stealCodelet links (.mc k.1 k.2) rand with
    | some (.inl i) => .ok (takeCodelet s k i pos)
    | some (.inr sibling) => .ok (takeBuff s k sibling pos .popCodelet)
    | none => .ok { s with mc := Function.update s.mc k .popCodelet }
  | .fire => none

/-- A thread is in a factory or a `fire()`, and not in a call that it has made there. -/
def inUser (s : State C N n) (th : Thread N n) : Bool :=
  (s.user th).isNone &&
    match th with
    | .tp i => (match s.tp i with | .factory | .fire => true | _ => false)
    | .mc i j => s.mc (i, j) == .fire

/-- What a step does. -/
def act (P : TPPolicy) (s : State C N n) : Label C N n → Option (Except Fault (State C N n))
  | .tp i rand pos => tpStep links w P s i rand pos
  | .mc k rand pos => mcStep links s k rand pos
  | .decDep th c => if inUser s th then some (decDep links w P s th c) else none
  | .add th c => if inUser s th then some (pushCodelet links w P s th c) else none
  | .user th => (s.user th).map fun call => do
    match ← pushWorker links w s call with
    | .on call' => .ok { s with user := Function.update s.user th (some call') }
    | .returned _ s' => .ok { s' with user := Function.update s'.user th none }
  | .pushTP th =>
    if inUser s th then some (.ok
      { s with ready_ := Function.update s.ready_ (cluster th) (s.ready_ (cluster th) + 1) })
    else none
  | .done th =>
    if inUser s th then some (.ok (match th with
      | .tp i => { s with tp := Function.update s.tp i .popCodelet }
      | .mc i j => { s with mc := Function.update s.mc (i, j) .popCodelet }))
    else none

/-- A fault is the end. -/
def step (P : TPPolicy) (s : State C N n) (l : Label C N n) : Option (State C N n) :=
  if s.fault = none then
    (act links w P s l).map fun r =>
      match r with
      | .ok t => t
      | .error e => { s with fault := some e }
  else none

end Machine

variable {rt : Runtime} {C : Type}

/-- `Runtime::run`: the first closure is in the pool of TP scheduler 0. -/
def start (workers : Fin rt.numTPSched_ × Fin rt.numMCSched_ → MScheduler C) :
    State C rt.numTPSched_ rt.numMCSched_ :=
  { ready_ := fun i => if i = first rt then 1 else 0, codelets_ := fun _ => []
    whichSub_ := fun _ => 0, workers := workers, tp := fun _ => .popTP, mc := fun _ => .popCodelet
    user := fun _ => none, fault := none }

/-! ## With workers, or without choosing one -/

variable {links : Startup.State rt.numTPSched_ rt.numMCSched_} {w : Wishes C} {P : TPPolicy}
  {s t : State C rt.numTPSched_ rt.numMCSched_}

@[simp] theorem ok_bind {α β : Type} (a : α) (f : α → Except Fault β) :
    ((Except.ok a : Except Fault α) >>= f) = f a := rfl

@[simp] theorem deref_some {α : Type} (x : α) : deref (some x) = .ok x := rfl

theorem modulo_ok {a m : Nat} (h : m ≠ 0) : modulo a m = .ok (a % m) := if_neg h

/-- What the policies rest on. -/
structure Inv (s : State C rt.numTPSched_ rt.numMCSched_) : Prop where
  fault : s.fault = none
  whichSub : 0 < rt.numMCSched_ → ∀ i, s.whichSub_ i < rt.numMCSched_

/-- A step that has nothing to do with the choice of workers. -/
theorem Inv.kept (h : Inv s) (hfault : t.fault = s.fault) (hsub : t.whichSub_ = s.whichSub_) :
    Inv t where
  fault := hfault.trans h.fault
  whichSub := by
    rw [hsub]
    exact h.whichSub

theorem inv_start (workers : Fin rt.numTPSched_ × Fin rt.numMCSched_ → MScheduler C) :
    Inv (start workers) where
  fault := rfl
  whichSub hn _ := hn

/-- The policy chooses workers only when there are any. -/
def Served (P : TPPolicy) (n : Nat) : Prop := 1 ≤ n ∨ (P ≠ .TPRoundRobin ∧ P ≠ .TPHintSched)

/-- The TP scheduler of a cluster has the workers as children. -/
theorem tp_children (h : Steal.Ready links) (i : Fin rt.numTPSched_) : ∃ o,
    links.obj (.tp i) = some o ∧ o.children_.length = rt.numMCSched_ ∧
      ∀ pos (hpos : pos < rt.numMCSched_), subWorker o pos = .ok (i, ⟨pos, hpos⟩) := by
  obtain ⟨o, peers, ho, -, -, -, -, hchildren⟩ := h.objects.tp_obj h.counts h.last i
  refine ⟨o, ho, by rw [hchildren, List.length_map, List.length_finRange], fun pos hpos => ?_⟩
  unfold subWorker
  rw [hchildren]
  simp [hpos, asWorker]

theorem mc_parent (h : Steal.Ready links) (k : Fin rt.numTPSched_ × Fin rt.numMCSched_) : ∃ o,
    links.obj (.mc k.1 k.2) = some o ∧ o.parent_ = some (.tp k.1) := by
  obtain ⟨o, ho, -, hparent⟩ := h.objects.mc_obj h.counts h.last k.1 k.2
  exact ⟨o, ho, hparent⟩

/-- A worker that is asked has siblings, itself at least. -/
theorem victim_ok (h : Steal.Ready links) (k : Fin rt.numTPSched_ × Fin rt.numMCSched_) (c : C) :
    ∃ r, victim links w k c = .ok r := by
  obtain ⟨o, ho, hparent⟩ := mc_parent h k
  obtain ⟨p, hp, hlength, hsub⟩ := tp_children h k.1
  have hn : rt.numMCSched_ ≠ 0 := Nat.ne_of_gt (Nat.zero_lt_of_lt k.2.isLt)
  unfold victim
  rw [ho, deref_some, ok_bind, hparent, deref_some, ok_bind, hp, deref_some, ok_bind, hlength,
    modulo_ok hn, ok_bind]
  split
  next hlt => exact ⟨_, by rw [hsub _ hlt.2, ok_bind]⟩
  next => exact ⟨none, rfl⟩

/-- A push to a worker changes that worker's buffer at most. -/
theorem pushWorker_ok (h : Steal.Ready links) (s : State C rt.numTPSched_ rt.numMCSched_)
    (call : Call C rt.numTPSched_ rt.numMCSched_) :
    ∃ r, pushWorker links w s call = .ok r ∧ ∀ b s', r = .returned b s' →
      s'.fault = s.fault ∧ s'.whichSub_ = s.whichSub_ := by
  have hkeep : ∀ b s', keep s call = .returned b s' →
      s'.fault = s.fault ∧ s'.whichSub_ = s.whichSub_ := by
    intro b s' hk
    unfold keep at hk
    dsimp only at hk
    split at hk
    next => cases hk
    next =>
      cases hk
      exact ⟨rfl, rfl⟩
  unfold pushWorker
  split
  next =>
    obtain ⟨r, hr⟩ := victim_ok (w := w) h call.worker call.codelet
    rw [hr, ok_bind]
    cases r with
    | some sub => exact ⟨_, rfl, fun b s' hs' => by cases hs'⟩
    | none => exact ⟨_, rfl, hkeep⟩
  next => exact ⟨_, rfl, hkeep⟩

/-- `pushCodelet` of a TP scheduler: `TPStatic` looks whether there are workers. -/
theorem pushCodelet_ok (h : Steal.Ready links) (hs : Inv s)
    (th : RtThread rt) (c : C) : ∃ t, pushCodelet links w P s th c = .ok t ∧ Inv t := by
  cases P with
  | TPStatic =>
    obtain ⟨o, ho, hlength, hsub⟩ := tp_children h (cluster th)
    unfold pushCodelet
    simp only [ho, deref_some, ok_bind, hlength]
    split
    next => exact ⟨_, rfl, hs.kept rfl rfl⟩
    next hno =>
      have hn : rt.numMCSched_ ≠ 0 := fun hz => hno (.inr hz)
      rw [modulo_ok hn, ok_bind, hsub _ (Nat.mod_lt _ (Nat.pos_of_ne_zero hn)), ok_bind]
      exact ⟨_, rfl, hs.kept rfl rfl⟩
  | TPPushFull | TPRoundRobin | TPDynamic | TPHintSched => exact ⟨_, rfl, hs.kept rfl rfl⟩

theorem decDep_ok (h : Steal.Ready links) (hs : Inv s)
    (th : RtThread rt) (c : C) : ∃ t, decDep links w P s th c = .ok t ∧ Inv t := by
  unfold decDep
  split
  next => exact pushCodelet_ok h hs _ c
  next =>
    split
    next => exact ⟨_, rfl, hs.kept rfl rfl⟩
    next => exact pushCodelet_ok h hs _ c

/-- There is at least one peer, and all of them are TP schedulers: what `steal` pops from is what
`Steal.steal` says. -/
theorem steal_ok (h : Steal.Ready links) (i : Fin rt.numTPSched_) (rand : Nat) :
    ∃ r, steal links (.tp i) rand = .ok r ∧
      Steal.steal links (.tp i) rand = some (r.map fun v => .ready (.tp v)) := by
  obtain ⟨o, peers, ho, -, hnum, hpeers, hset, -⟩ := h.objects.tp_obj h.counts h.last i
  have hpos : rt.numTPSched_ ≠ 0 := Nat.ne_of_gt rt.clusters
  have hpeer := hset ⟨rand % rt.numTPSched_, Nat.mod_lt _ rt.clusters⟩
  have hpeer : peers (rand % rt.numTPSched_) = _ := hpeer
  unfold steal Steal.steal
  rw [ho, deref_some, ok_bind, hnum, if_pos hpos, modulo_ok hpos, ok_bind, Option.bind_some, hnum,
    if_pos hpos]
  split
  next =>
    rw [hpeers, deref_some, ok_bind, hpeer, deref_some, ok_bind, Option.bind_some, hpeer]
    exact ⟨_, rfl, rfl⟩
  next => exact ⟨none, rfl, rfl⟩

/-- A worker's parent has children, and all of them are workers. -/
theorem stealCodelet_ok (h : Steal.Ready links) (k : Fin rt.numTPSched_ × Fin rt.numMCSched_)
    (rand : Nat) : ∃ r, stealCodelet links (.mc k.1 k.2) rand = .ok r := by
  obtain ⟨o, ho, hparent⟩ := mc_parent h k
  obtain ⟨p, hp, hlength, hsub⟩ := tp_children h k.1
  unfold stealCodelet
  rw [ho, deref_some, ok_bind, hparent, deref_some, ok_bind, hp, deref_some, ok_bind, hlength,
    modulo_ok (by omega), ok_bind]
  split
  next =>
    split
    next => exact ⟨_, rfl⟩
    next hother =>
      have hlt := Nat.mod_lt rand (show 0 < rt.numMCSched_ + 1 by omega)
      rw [hsub _ (by omega), ok_bind]
      exact ⟨_, rfl⟩
  next => exact ⟨none, rfl⟩

/-- The next worker in turn, when there is one. -/
theorem nextSub_ok (hn : 0 < rt.numMCSched_) (hs : Inv s) {i : Fin rt.numTPSched_}
    {o : Sched rt.numTPSched_ rt.numMCSched_} (hlength : o.children_.length = rt.numMCSched_)
    (hsub : ∀ pos (hpos : pos < rt.numMCSched_), subWorker o pos = .ok (i, ⟨pos, hpos⟩)) (c : C)
    (turn : Nat) : ∃ t, nextSub s i o c turn = .ok t ∧ Inv t := by
  unfold nextSub
  rw [hlength, modulo_ok (Nat.ne_of_gt hn), ok_bind, hsub _ (hs.whichSub hn i), ok_bind]
  refine ⟨_, rfl, { fault := hs.fault, whichSub := fun _ j => ?_ }⟩
  show Function.update s.whichSub_ i _ j < rt.numMCSched_
  by_cases hj : j = i
  · subst hj
    rw [Function.update_self]
    exact Nat.mod_lt _ hn
  · rw [Function.update_of_ne hj]
    exact hs.whichSub hn j

/-- A policy that is served finds a worker, or does not look for one. -/
theorem choose_ok (hserved : Served P rt.numMCSched_) (h : Steal.Ready links) (hs : Inv s)
    (i : Fin rt.numTPSched_) (c : C) (turn : Nat) :
    ∃ t, choose links w P s i c turn = .ok t ∧ Inv t := by
  obtain ⟨o, ho, hlength, hsub⟩ := tp_children h i
  unfold choose
  rw [ho, deref_some, ok_bind]
  cases P with
  | TPPushFull =>
    dsimp only
    split
    next hlt => exact nextSub_ok (by omega) hs hlength hsub c turn
    next => exact ⟨_, rfl, hs.kept rfl rfl⟩
  | TPRoundRobin =>
    have hn := hserved.resolve_right fun hne => hne.1 rfl
    exact nextSub_ok hn hs hlength hsub c turn
  | TPStatic | TPDynamic => exact ⟨_, rfl, hs.kept rfl rfl⟩
  | TPHintSched =>
    have hn := hserved.resolve_right fun hne => hne.2 rfl
    dsimp only
    split
    next hlt =>
      rw [hsub _ (hlength ▸ hlt), ok_bind]
      exact ⟨_, rfl, hs.kept rfl rfl⟩
    next => exact nextSub_ok hn hs hlength hsub c turn

theorem takeTP_inv (hs : Inv s) (i source : Fin rt.numTPSched_)
    (otherwise : TPAt C rt.numTPSched_ rt.numMCSched_) : Inv (takeTP s i source otherwise) := by
  unfold takeTP
  split <;> exact hs.kept rfl rfl

/-- The policy loop of a TP scheduler. -/
theorem tpStep_ok (hserved : Served P rt.numMCSched_) (h : Steal.Ready links) (hs : Inv s)
    {i : Fin rt.numTPSched_} {rand pos : Nat}
    {r : Except Fault (State C rt.numTPSched_ rt.numMCSched_)}
    (hr : tpStep links w P s i rand pos = some r) : ∃ t, r = .ok t ∧ Inv t := by
  unfold tpStep at hr
  cases hat : s.tp i with
  | popTP =>
    rw [hat] at hr
    obtain rfl := Option.some.inj hr
    exact ⟨_, rfl, takeTP_inv hs i i _⟩
  | steal =>
    rw [hat] at hr
    obtain rfl := Option.some.inj hr
    obtain ⟨source, hsource, -⟩ := steal_ok h i rand
    rw [hsource, ok_bind]
    cases source with
    | some v => exact ⟨_, rfl, takeTP_inv hs i v _⟩
    | none => exact ⟨_, rfl, hs.kept rfl rfl⟩
  | popCodelet =>
    rw [hat] at hr
    simp only at hr
    split at hr
    next =>
      obtain rfl := Option.some.inj hr
      exact ⟨_, rfl, hs.kept rfl rfl⟩
    next =>
      obtain ⟨-, hr⟩ := Option.ite_none_right_eq_some.mp hr
      obtain rfl := Option.some.inj hr
      exact ⟨_, rfl, hs.kept rfl rfl⟩
  | choose c turn =>
    rw [hat] at hr
    obtain rfl := Option.some.inj hr
    exact choose_ok hserved h hs i c turn
  | push turn call =>
    rw [hat] at hr
    obtain rfl := Option.some.inj hr
    obtain ⟨pushing, hpush, hframe⟩ := pushWorker_ok (w := w) h s call
    rw [hpush, ok_bind]
    cases pushing with
    | on call' => exact ⟨_, rfl, hs.kept rfl rfl⟩
    | returned b s' =>
      obtain ⟨hfault, hsub⟩ := hframe b s' rfl
      cases b with
      | true => exact ⟨_, rfl, hs.kept hfault hsub⟩
      | false =>
        obtain ⟨o, ho, -⟩ := tp_children h i
        simp only [ho, deref_some, ok_bind]
        exact ⟨_, rfl, hs.kept hfault hsub⟩
  | factory | fire =>
    rw [hat] at hr
    cases hr

theorem takeCodelet_inv (hs : Inv s) (k : Fin rt.numTPSched_ × Fin rt.numMCSched_)
    (source : Fin rt.numTPSched_) (pos : Nat) : Inv (takeCodelet s k source pos) := by
  unfold takeCodelet
  split <;> exact hs.kept rfl rfl

theorem takeBuff_inv (hs : Inv s) (k source : Fin rt.numTPSched_ × Fin rt.numMCSched_) (pos : Nat)
    (otherwise : MCAt) : Inv (takeBuff s k source pos otherwise) := by
  unfold takeBuff
  split <;> exact hs.kept rfl rfl

/-- The policy loop of a worker. -/
theorem mcStep_ok (h : Steal.Ready links) (hs : Inv s)
    {k : Fin rt.numTPSched_ × Fin rt.numMCSched_} {rand pos : Nat}
    {r : Except Fault (State C rt.numTPSched_ rt.numMCSched_)}
    (hr : mcStep links s k rand pos = some r) : ∃ t, r = .ok t ∧ Inv t := by
  unfold mcStep at hr
  cases hat : s.mc k with
  | popCodelet =>
    rw [hat] at hr
    simp only at hr
    split at hr
    next =>
      obtain rfl := Option.some.inj hr
      obtain ⟨o, ho, hparent⟩ := mc_parent h k
      refine ⟨takeCodelet s k k.1 pos, ?_, takeCodelet_inv hs k k.1 pos⟩
      rw [ho, deref_some, ok_bind, hparent, deref_some, ok_bind]
      rfl
    next =>
      obtain rfl := Option.some.inj hr
      exact ⟨_, rfl, takeBuff_inv hs k k pos _⟩
    next =>
      obtain rfl := Option.some.inj hr
      exact ⟨_, rfl, takeBuff_inv hs k k pos _⟩
  | stealCodelet =>
    rw [hat] at hr
    obtain rfl := Option.some.inj hr
    obtain ⟨source, hsource⟩ := stealCodelet_ok h k rand
    rw [hsource, ok_bind]
    cases source with
    | some source =>
      cases source with
      | inl i => exact ⟨_, rfl, takeCodelet_inv hs k i pos⟩
      | inr sibling => exact ⟨_, rfl, takeBuff_inv hs k sibling pos _⟩
    | none => exact ⟨_, rfl, hs.kept rfl rfl⟩
  | fire =>
    rw [hat] at hr
    cases hr

/-- **One step** has a result. -/
theorem act_ok (hserved : Served P rt.numMCSched_) (h : Steal.Ready links) (hs : Inv s)
    {l : Label C rt.numTPSched_ rt.numMCSched_}
    {r : Except Fault (State C rt.numTPSched_ rt.numMCSched_)} (hr : act links w P s l = some r) :
    ∃ t, r = .ok t ∧ Inv t := by
  cases l with
  | tp i rand pos => exact tpStep_ok hserved h hs hr
  | mc k rand pos => exact mcStep_ok h hs hr
  | decDep th c =>
    obtain ⟨-, hr⟩ := Option.ite_none_right_eq_some.mp hr
    obtain rfl := Option.some.inj hr
    exact decDep_ok h hs th c
  | add th c =>
    obtain ⟨-, hr⟩ := Option.ite_none_right_eq_some.mp hr
    obtain rfl := Option.some.inj hr
    exact pushCodelet_ok h hs th c
  | user th =>
    obtain ⟨call, -, rfl⟩ := Option.map_eq_some_iff.mp hr
    obtain ⟨pushing, hpush, hframe⟩ := pushWorker_ok (w := w) h s call
    rw [hpush, ok_bind]
    cases pushing with
    | on call' => exact ⟨_, rfl, hs.kept rfl rfl⟩
    | returned b s' =>
      obtain ⟨hfault, hsub⟩ := hframe b s' rfl
      exact ⟨_, rfl, hs.kept hfault hsub⟩
  | pushTP th =>
    obtain ⟨-, hr⟩ := Option.ite_none_right_eq_some.mp hr
    obtain rfl := Option.some.inj hr
    exact ⟨_, rfl, hs.kept rfl rfl⟩
  | done th =>
    obtain ⟨-, hr⟩ := Option.ite_none_right_eq_some.mp hr
    obtain rfl := Option.some.inj hr
    cases th with
    | inl i => exact ⟨_, rfl, hs.kept rfl rfl⟩
    | inr k => exact ⟨_, rfl, hs.kept rfl rfl⟩

theorem step_inv (hserved : Served P rt.numMCSched_) (h : Steal.Ready links) (hs : Inv s)
    {l : Label C rt.numTPSched_ rt.numMCSched_} (hl : step links w P s l = some t) : Inv t := by
  unfold step at hl
  rw [if_pos hs.fault] at hl
  obtain ⟨r, hr, heq⟩ := Option.map_eq_some_iff.mp hl
  obtain ⟨t', rfl, ht'⟩ := act_ok hserved h hs hr
  obtain rfl : t' = t := heq
  exact ht'

/-- **Every run**, of any length and in any interleaving. -/
theorem reachable_inv (hserved : Served P rt.numMCSched_) (h : Steal.Ready links)
    {workers : Fin rt.numTPSched_ × Fin rt.numMCSched_ → MScheduler C}
    (hs : Reachable (step links w P) (start workers) s) : Inv s :=
  hs.invariant Inv (inv_start workers) fun _ _ _ _ hI hl => step_inv hserved h hI hl

/-! ## Without workers -/

/-- `getSubIndexInc` of a TP scheduler without workers. -/
theorem nextSub_divides (s : State C rt.numTPSched_ rt.numMCSched_) (i : Fin rt.numTPSched_)
    {o : Sched rt.numTPSched_ rt.numMCSched_} (hlength : o.children_.length = 0) (c : C)
    (turn : Nat) : nextSub s i o c turn = .error .divisionByZero := by
  unfold nextSub
  rw [hlength]
  rfl

theorem choose_divides (h : Steal.Ready links) (hn : rt.numMCSched_ = 0)
    (hP : P = .TPRoundRobin ∨ P = .TPHintSched) (s : State C rt.numTPSched_ rt.numMCSched_)
    (i : Fin rt.numTPSched_) (c : C) (turn : Nat) :
    choose links w P s i c turn = .error .divisionByZero := by
  obtain ⟨o, ho, hlength, -⟩ := tp_children h i
  have hzero : o.children_.length = 0 := hlength.trans hn
  unfold choose
  rw [ho, deref_some, ok_bind]
  rcases hP with rfl | rfl
  · exact nextSub_divides s i hzero c turn
  · dsimp only
    rw [if_neg (by omega)]
    exact nextSub_divides s i hzero c turn

theorem step_ok {l : Label C rt.numTPSched_ rt.numMCSched_} (hfault : s.fault = none)
    (hact : act links w P s l = some (.ok t)) : step links w P s l = some t := by
  unfold step
  rw [if_pos hfault, hact]
  rfl

theorem step_error {l : Label C rt.numTPSched_ rt.numMCSched_} {e : Fault} (hfault : s.fault = none)
    (hact : act links w P s l = some (.error e)) :
    step links w P s l = some { s with fault := some e } := by
  unfold step
  rw [if_pos hfault, hact]
  rfl

/-- The first closure schedules a codelet, which TP scheduler 0 pops and has no worker for. -/
theorem exists_fault [Inhabited C] (h : Steal.Ready links) (hn : rt.numMCSched_ = 0)
    (hP : P = .TPRoundRobin ∨ P = .TPHintSched)
    (workers : Fin rt.numTPSched_ × Fin rt.numMCSched_ → MScheduler C) :
    ∃ s, Reachable (step links w P) (start workers) s ∧ s.fault = some .divisionByZero := by
  obtain ⟨s₀, hs₀⟩ : ∃ s₀ : State C rt.numTPSched_ rt.numMCSched_, s₀ = start workers := ⟨_, rfl⟩
  -- it takes the closure,
  obtain ⟨s₁, h₁, hfault₁, htp₁, huser₁, hcodelets₁⟩ : ∃ s₁,
      step links w P s₀ (.tp (first rt) 0 0) = some s₁ ∧ s₁.fault = none ∧
        s₁.tp (first rt) = .factory ∧ s₁.user (.tp (first rt)) = none ∧
        s₁.codelets_ (first rt) = [] := by
    refine ⟨takeTP s₀ (first rt) (first rt) .steal, step_ok (by rw [hs₀]; rfl) ?_, ?_⟩
    · unfold act tpStep
      rw [hs₀]
      rfl
    · have hready : 0 < s₀.ready_ (first rt) := by
        rw [hs₀]
        simp [start]
      unfold takeTP
      rw [if_pos hready, hs₀]
      exact ⟨rfl, by simp, rfl, rfl⟩
  -- its factory schedules a codelet
  have hin₁ : inUser s₁ (.tp (first rt)) = true := by
    simp [inUser, htp₁, huser₁]
  obtain ⟨s₂, h₂, hfault₂, htp₂, huser₂, hcodelets₂⟩ : ∃ s₂,
      step links w P s₁ (.add (.tp (first rt)) default) = some s₂ ∧ s₂.fault = none ∧
        s₂.tp (first rt) = .factory ∧ s₂.user (.tp (first rt)) = none ∧
        s₂.codelets_ (first rt) = [default] := by
    refine ⟨{ s₁ with codelets_ := Function.update s₁.codelets_ (first rt) [default] },
      step_ok hfault₁ ?_, hfault₁, htp₁, huser₁, by simp⟩
    show (if inUser s₁ _ = true then _ else _) = _
    rw [if_pos hin₁]
    rcases hP with rfl | rfl <;>
    · show some (Except.ok { s₁ with
        codelets_ := Function.update s₁.codelets_ (first rt)
          (s₁.codelets_ (first rt) ++ [default]) }) = _
      rw [hcodelets₁]
      rfl
  -- and returns;
  have hin₂ : inUser s₂ (.tp (first rt)) = true := by
    simp [inUser, htp₂, huser₂]
  obtain ⟨s₃, h₃, hfault₃, htp₃, hcodelets₃⟩ : ∃ s₃,
      step links w P s₂ (.done (.tp (first rt))) = some s₃ ∧ s₃.fault = none ∧
        s₃.tp (first rt) = .popCodelet ∧ s₃.codelets_ (first rt) = [default] := by
    refine ⟨{ s₂ with tp := Function.update s₂.tp (first rt) .popCodelet },
      step_ok hfault₂ ?_, hfault₂, by simp, hcodelets₂⟩
    show (if inUser s₂ _ = true then _ else _) = _
    rw [if_pos hin₂]
  -- it pops the codelet
  obtain ⟨s₄, h₄, hfault₄, htp₄⟩ : ∃ s₄,
      step links w P s₃ (.tp (first rt) 0 0) = some s₄ ∧ s₄.fault = none ∧
        s₄.tp (first rt) = .choose default 0 := by
    refine ⟨{ s₃ with
      codelets_ := Function.update s₃.codelets_ (first rt) []
      tp := Function.update s₃.tp (first rt) (.choose default 0) },
      step_ok hfault₃ ?_, hfault₃, by simp⟩
    unfold act tpStep
    simp only [htp₃, hcodelets₃]
    rfl
  -- and looks for a worker
  have h₅ : step links w P s₄ (.tp (first rt) 0 0) =
      some { s₄ with fault := some .divisionByZero } := by
    refine step_error hfault₄ ?_
    unfold act tpStep
    simp only [htp₄]
    exact congrArg some (choose_divides h hn hP s₄ (first rt) default 0)
  subst hs₀
  exact ⟨_, ((((Reachable.start.next h₁).next h₂).next h₃).next h₄).next h₅, rfl⟩

/-- **Dispatch is safe where there is somebody to dispatch to.** For every TP policy, workers of any
policies, every number of clusters and of workers, and every interleaving: no step divides by zero
or uses a null pointer, just when each cluster has a worker or the TP policy looks before it
chooses one. -/
theorem fault_free_iff [Inhabited C] {th : RtThread rt}
    (hlinks : Reachable (Startup.step rt) (Startup.start rt) links) (hth : links.rest th = [])
    (w : Wishes C) (P : TPPolicy)
    (workers : Fin rt.numTPSched_ × Fin rt.numMCSched_ → MScheduler C) :
    (∀ s, Reachable (step links w P) (start workers) s → s.fault = none) ↔
      1 ≤ rt.numMCSched_ ∨ (P ≠ .TPRoundRobin ∧ P ≠ .TPHintSched) := by
  have h := Steal.ready_of_through hlinks hth
  constructor
  · intro hfree
    by_contra hno
    obtain ⟨hn, hP⟩ := not_or.mp hno
    obtain ⟨s, hs, hfault⟩ := exists_fault (w := w) h (by omega : rt.numMCSched_ = 0)
      (by by_contra hne; exact hP (not_or.mp hne)) workers
    rw [hfree s hs] at hfault
    cases hfault
  · intro hserved s hs
    exact (reachable_inv hserved h hs).fault

/-- With two clusters of one worker even the round robin is safe. -/
theorem fault_free_iff_two :
    ∃ links : Startup.State Steal.two.numTPSched_ Steal.two.numMCSched_,
      Reachable (Startup.step Steal.two) (Startup.start Steal.two) links ∧
      ∀ s, Reachable (step links ⟨fun _ : Nat => 0, fun _ => 0⟩ .TPRoundRobin)
        (start fun _ => .MicroDynamic) s → s.fault = none := by
  obtain ⟨links, hlinks, hdone⟩ := Steal.exists_through Steal.two
  exact ⟨links, hlinks, (fault_free_iff hlinks (hdone (.tp (first Steal.two))) _ _ _).mpr
    (.inl (by decide))⟩

/-- One TP scheduler without workers, on one unit. -/
def alone : Affinity.ThreadAffinity :=
  { mcPerTp := 0, numTPS := 1, mode := .COMPACT, fits := by decide }

def oneUnit : Affinity.Machine :=
  { maxCluster := 1, maxUnit := 1, cluster_pos := Nat.one_pos, unit_pos := Nat.one_pos
    fits := by decide }

def aloneRt : Runtime := ⟨alone.numTPS, alone.mcPerTp, by decide, by decide⟩

/-- `generateMask` admits it, and then the round robin divides by zero. -/
theorem roundRobin_divides :
    (∃ masks, Affinity.generateMask oneUnit (Affinity.noMasks alone) = some (true, masks)) ∧
    create 1 = some .TPRoundRobin ∧
    ∃ links : Startup.State aloneRt.numTPSched_ aloneRt.numMCSched_,
      Reachable (Startup.step aloneRt) (Startup.start aloneRt) links ∧
      (∀ th, links.rest th = []) ∧
      ¬ ∀ s, Reachable (step links ⟨fun _ : Nat => 0, fun _ => 0⟩ .TPRoundRobin)
        (start fun _ => .MicroDynamic) s → s.fault = none := by
  refine ⟨?_, rfl, ?_⟩
  · obtain ⟨masks, hmasks, -⟩ := Affinity.fills_compact (A := alone) (M := oneUnit) (by decide)
      (Affinity.noMasks alone)
    refine ⟨masks, ?_⟩
    unfold Affinity.generateMask
    rw [if_neg (by decide), if_neg (by decide)]
    show (Affinity.compact oneUnit _).map _ = _
    rw [hmasks]
    rfl
  · obtain ⟨links, hlinks, hdone⟩ := Steal.exists_through aloneRt
    refine ⟨links, hlinks, hdone, fun hfree => ?_⟩
    have hready := Steal.ready_of_through hlinks (hdone (.tp (first aloneRt)))
    obtain ⟨s, hs, hfault⟩ := exists_fault (C := Nat) (w := ⟨fun _ => 0, fun _ => 0⟩) hready rfl
      (.inl rfl) fun _ => .MicroDynamic
    rw [hfree s hs] at hfault
    cases hfault

end Darts.Dispatch
