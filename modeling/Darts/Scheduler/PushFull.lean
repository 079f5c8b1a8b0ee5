import Mathlib.Data.Fintype.Sum
import Mathlib.Tactic.DeriveFintype
import Darts.Lib.Transition
import Darts.Lib.Places
import Darts.Scheduler.RingBuffer

/-!
# The default pair of policies: `TPPushFull` over `MicroStandard`

The TP thread pops a codelet from its pool, tries each of its `m` workers once,
going on from where `whichSub_` stands, and fires the codelet itself when every
buffer was full. A worker pulls from its ring buffer and fires what it got
(`src/scheduler/TPSchedPolicy.cpp`, `src/scheduler/MSchedPolicy.cpp`).

A step is one access to shared state, and any thread may take the next one.
`pushCodelet` is enabled in every state: codelets come from the factory that the
TP thread runs for a closure, from codelets being fired by any worker or by the TP
thread, and from other clusters. A codelet object can be pushed again after it was
re-armed, so what is followed here is the push: push number `t` (a ticket) is one
scheduled firing of the codelet `pushed[t]`. The pool is a concurrent queue whose
order depends on the build; a pop may return any of its elements. When the policy
loops end (`alive()`), threads just stop taking steps.
-/

namespace Darts

namespace TPPushFull

/-- What the TP thread is at. -/
inductive Thread
  /-- About to call `popCodelet`. -/
  | popping
  /-- In the `for` loop over the workers at index `i`, with `fail` still true. -/
  | trying (tempCodelet i : Nat)
  /-- Firing the codelet itself. -/
  | firing (tempCodelet : Nat)
deriving DecidableEq

/-- A TP scheduler with `m` workers. `given`, `fired` and `firedSelf` are history. -/
structure State (C : Type) (m : Nat) where
  /-- The codelets of all `pushCodelet` calls so far, the first one first. -/
  pushed : List C
  /-- The pool of the TP scheduler. -/
  codelets_ : List Nat
  thread : Thread
  whichSub_ : Nat
  /-- `buff` of every worker. -/
  buff : Fin m → RingBuffer Nat 2
  /-- What a worker is firing. -/
  firing : Fin m → Option Nat
  /-- What was put into a worker's buffer, in this order. -/
  given : Fin m → List Nat
  /-- What a worker has fired, in this order. -/
  fired : Fin m → List Nat
  /-- What the TP thread has fired itself. -/
  firedSelf : List Nat
  /-- A null worker was dereferenced. -/
  faulted : Bool

/-- The threads' steps. -/
inductive Label (C : Type) (m : Nat)
  /-- Some thread calls `pushCodelet` on the TP scheduler. -/
  | pushCodelet (c : C)
  /-- The TP thread pops the element at position `k` of its pool. -/
  | popCodelet (k : Nat)
  /-- One turn of the `for` loop: try the worker at `getSubIndexInc()`. -/
  | tryWorker
  /-- The loop is over and `fail` is true. -/
  | fireSelf
  /-- The TP thread's `fire()` returns. -/
  | returnSelf
  /-- Worker `w` pulls from its buffer. -/
  | pull (w : Fin m)
  /-- Worker `w`'s `fire()` returns. -/
  | returnWorker (w : Fin m)

namespace State

variable {C : Type} {m : Nat}

/-- Nothing pushed yet; the slots of the buffers are whatever the memory held. -/
def start (junk : Fin m → Fin 4 → Nat) : State C m :=
  { pushed := [], codelets_ := [], thread := .popping, whichSub_ := 0
    buff := fun w => RingBuffer.new (junk w)
    firing := fun _ => none, given := fun _ => [], fired := fun _ => [], firedSelf := []
    faulted := false }

/-- `getSubScheduler`: 0 past the last worker. -/
def getSubScheduler (_ : State C m) (pos : Nat) : Option (Fin m) :=
  if h : pos < m then some ⟨pos, h⟩ else none

/-- `myCDS->pushCodelet(tempCodelet)` inside the `for` loop, on the worker that
`getSubIndexInc` returned: done with the codelet when it is taken, next turn when not. -/
def offer (s : State C m) (t i : Nat) (myCDS : Fin m) : State C m :=
  match (s.buff myCDS).push t with
  | (true, r) => { s with
      buff := Function.update s.buff myCDS r
      given := Function.update s.given myCDS (s.given myCDS ++ [t])
      thread := .popping }
  | (false, _) => { s with thread := .trying t (i + 1) }

/-- One turn of the `for` loop, `getSubIndexInc` included. -/
def tryWorker (s : State C m) (t i : Nat) : State C m :=
  let s' := { s with whichSub_ := (s.whichSub_ + 1) % m }
  match s.getSubScheduler s.whichSub_ with
  | some myCDS => s'.offer t i myCDS
  | none => { s' with faulted := true }

/-- `popCodelet` of a worker that is not firing. -/
def pull (s : State C m) (w : Fin m) : State C m :=
  match (s.buff w).pull with
  | (some t, r) => { s with
      buff := Function.update s.buff w r
      firing := Function.update s.firing w (some t) }
  | (none, _) => s

end State

variable {C : Type} {m : Nat}

/-- The steps of all threads. -/
def step (s : State C m) : Label C m → Option (State C m)
  | .pushCodelet c => some { s with
      pushed := s.pushed ++ [c]
      codelets_ := s.codelets_ ++ [s.pushed.length] }
  | .popCodelet k =>
    match s.thread, s.codelets_[k]? with
    | .popping, some t => some { s with
        codelets_ := s.codelets_.eraseIdx k
        thread := .trying t 0 }
    | _, _ => none
  | .tryWorker =>
    match s.thread with
    | .trying t i => if i < m then some (s.tryWorker t i) else none
    | _ => none
  | .fireSelf =>
    match s.thread with
    | .trying t i => if i < m then none else some { s with thread := .firing t }
    | _ => none
  | .returnSelf =>
    match s.thread with
    | .firing t => some { s with thread := .popping, firedSelf := s.firedSelf ++ [t] }
    | _ => none
  | .pull w =>
    match s.firing w with
    | none => some (s.pull w)
    | some _ => none
  | .returnWorker w =>
    match s.firing w with
    | some t => some { s with
        firing := Function.update s.firing w none
        fired := Function.update s.fired w (s.fired w ++ [t]) }
    | none => none

/-! ## Where a codelet can be -/

/-- The places a pushed codelet goes through. -/
inductive Place (m : Nat)
  | pool
  | hand
  | selfFiring
  | selfFired
  | buffer (w : Fin m)
  | workerFiring (w : Fin m)
  | workerFired (w : Fin m)
deriving DecidableEq, Fintype

/-- The tickets in a place. -/
def State.cell (s : State C m) : Place m → List Nat
  | .pool => s.codelets_
  | .hand => match s.thread with
    | .trying t _ => [t]
    | _ => []
  | .selfFiring => match s.thread with
    | .firing t => [t]
    | _ => []
  | .selfFired => s.firedSelf
  | .buffer w => (s.buff w).contents
  | .workerFiring w => (s.firing w).toList
  | .workerFired w => s.fired w

/-- What holds in every reachable state. -/
structure Inv (s : State C m) : Prop where
  /-- Every ticket is in one place. -/
  exact : Places.Exact s.cell (Finset.range s.pushed.length)
  /-- `whichSub_` is the index of a worker. -/
  whichSub : 0 < m → s.whichSub_ < m
  /-- What a worker was given it has fired, is firing, or has in its buffer, in this order. -/
  order : ∀ w, s.given w = s.fired w ++ (s.firing w).toList ++ (s.buff w).contents
  /-- No null worker was dereferenced. -/
  sound : s.faulted = false

theorem inv_start (junk : Fin m → Fin 4 → Nat) : Inv (State.start junk : State C m) where
  exact := Places.Exact.empty fun p => by cases p <;> simp [State.cell, State.start]
  whichSub := fun h => h
  order := fun w => by simp [State.start]
  sound := rfl

/-- A ticket moves from a place to another, and the other places stay. -/
private theorem exact_move {s s' : State C m} (hs : Inv s) (hpushed : s'.pushed = s.pushed)
    {p q : Place m} {t : Nat} (hpq : p ≠ q) (hp : (s.cell p).Perm (t :: s'.cell p))
    (hq : (s'.cell q).Perm (t :: s.cell q))
    (hrest : ∀ r, r ≠ p → r ≠ q → s'.cell r = s.cell r) :
    Places.Exact s'.cell (Finset.range s'.pushed.length) := by
  rw [hpushed]
  exact hs.exact.move hpq hp hq hrest

/-- The TP thread pops. -/
private theorem inv_popCodelet {s s' : State C m} {k : Nat} (hs : Inv s)
    (h : step s (.popCodelet k) = some s') : Inv s' := by
  simp only [step] at h
  split at h
  next t hthread ht =>
    obtain rfl := Option.some.inj h
    refine ⟨?_, hs.whichSub, hs.order, hs.sound⟩
    refine exact_move (p := .pool) (q := .hand) hs rfl (by simp) (Places.perm_eraseIdx ht) ?_ ?_
    · simp [State.cell, hthread]
    · intro r hp hq
      cases r with
      | pool => exact absurd rfl hp
      | hand => exact absurd rfl hq
      | selfFiring => simp [State.cell, hthread]
      | _ => rfl
  next => simp at h

/-- The TP thread turns to firing the codelet itself, or is done with that. -/
private theorem inv_self {s s' : State C m} (hs : Inv s)
    (h : step s .fireSelf = some s' ∨ step s .returnSelf = some s') : Inv s' := by
  rcases h with h | h
  · simp only [step] at h
    split at h
    next t i hthread =>
      split at h
      next => simp at h
      next hi =>
        obtain rfl := Option.some.inj h
        refine ⟨?_, hs.whichSub, hs.order, hs.sound⟩
        refine exact_move (p := .hand) (q := .selfFiring) (t := t) hs rfl (by simp) ?_ ?_ ?_
        · simp [State.cell, hthread]
        · simp [State.cell, hthread]
        · intro r hp hq
          cases r with
          | hand => exact absurd rfl hp
          | selfFiring => exact absurd rfl hq
          | _ => rfl
    next => simp at h
  · simp only [step] at h
    split at h
    next t hthread =>
      obtain rfl := Option.some.inj h
      refine ⟨?_, hs.whichSub, hs.order, hs.sound⟩
      refine exact_move (p := .selfFiring) (q := .selfFired) (t := t) hs rfl (by simp) ?_
        List.perm_append_comm ?_
      · simp [State.cell, hthread]
      · intro r hp hq
        cases r with
        | selfFiring => exact absurd rfl hp
        | selfFired => exact absurd rfl hq
        | hand => simp [State.cell, hthread]
        | _ => rfl
    next => simp at h

/-- One turn of the loop over the workers. -/
private theorem inv_tryWorker {s s' : State C m} (hs : Inv s)
    (h : step s .tryWorker = some s') : Inv s' := by
  simp only [step] at h
  split at h
  next t i hthread =>
    split at h
    next hi =>
      obtain rfl := Option.some.inj h
      have hm : 0 < m := by omega
      have hsub : s.getSubScheduler s.whichSub_ = some ⟨s.whichSub_, hs.whichSub hm⟩ := by
        unfold State.getSubScheduler
        rw [dif_pos (hs.whichSub hm)]
      unfold State.tryWorker
      rw [hsub]
      dsimp only
      generalize (⟨s.whichSub_, hs.whichSub hm⟩ : Fin m) = w
      have hnext : (s.whichSub_ + 1) % m < m := Nat.mod_lt _ hm
      unfold State.offer
      dsimp only
      rcases RingBuffer.push_spec (by decide) (s.buff w) t with ⟨-, hpush⟩ | ⟨-, hret, hcont⟩
      · -- the buffer is full: the codelet stays in hand
        rw [hpush]
        refine ⟨?_, fun _ => hnext, hs.order, hs.sound⟩
        have hcell : State.cell { s with
            whichSub_ := (s.whichSub_ + 1) % m, thread := .trying t (i + 1) } = s.cell := by
          funext p
          cases p <;> simp [State.cell, hthread]
        show Places.Exact _ (Finset.range s.pushed.length)
        rw [hcell]
        exact hs.exact
      · generalize hr : (s.buff w).push t = r at hret hcont
        obtain ⟨ok, r⟩ := r
        obtain rfl : ok = true := hret
        refine ⟨?_, fun _ => hnext, fun w' => ?_, hs.sound⟩
        · refine exact_move (p := .hand) (q := .buffer w) (t := t) hs rfl (by simp) ?_ ?_ ?_
          · simp [State.cell, hthread]
          · show (Function.update s.buff w r w).contents.Perm _
            rw [Function.update_self, hcont]
            exact List.perm_append_comm
          · intro p hp hq
            cases p with
            | hand => exact absurd rfl hp
            | selfFiring => simp [State.cell, hthread]
            | buffer w' =>
              have hw : w' ≠ w := fun hw => hq (by rw [hw])
              simp [State.cell, Function.update_of_ne hw]
            | _ => rfl
        · show Function.update s.given w (s.given w ++ [t]) w' = s.fired w' ++ (s.firing w').toList ++
            (Function.update s.buff w r w').contents
          by_cases hw : w' = w
          · subst hw
            rw [Function.update_self, Function.update_self, hcont, hs.order w']
            simp
          · rw [Function.update_of_ne hw, Function.update_of_ne hw, hs.order w']
    next => simp at h
  next => simp at h

/-- A worker pulls. -/
private theorem inv_pull {s s' : State C m} {w : Fin m} (hs : Inv s)
    (h : step s (.pull w) = some s') : Inv s' := by
  simp only [step] at h
  split at h
  next hidle =>
    obtain rfl := Option.some.inj h
    unfold State.pull
    rcases RingBuffer.pull_spec (s.buff w) with ⟨-, hpull⟩ | ⟨t, hret, hcont⟩
    · rw [hpull]
      exact hs
    · generalize hr : (s.buff w).pull = r at hret hcont
      obtain ⟨x, r⟩ := r
      obtain rfl : x = some t := hret
      refine ⟨?_, hs.whichSub, fun w' => ?_, hs.sound⟩
      · refine exact_move (p := .buffer w) (q := .workerFiring w) (t := t) hs rfl (by simp) ?_ ?_ ?_
        · show (s.buff w).contents.Perm (t :: (Function.update s.buff w r w).contents)
          rw [Function.update_self, hcont]
        · simp [State.cell, hidle]
        · intro p hp hq
          cases p with
          | buffer w' =>
            have hw : w' ≠ w := fun hw => hp (by rw [hw])
            simp [State.cell, Function.update_of_ne hw]
          | workerFiring w' =>
            have hw : w' ≠ w := fun hw => hq (by rw [hw])
            simp [State.cell, Function.update_of_ne hw]
          | _ => rfl
      · show s.given w' = s.fired w' ++ (Function.update s.firing w (some t) w').toList ++
          (Function.update s.buff w r w').contents
        by_cases hw : w' = w
        · subst hw
          rw [Function.update_self, Function.update_self, hs.order w', hcont, hidle]
          simp
        · rw [Function.update_of_ne hw, Function.update_of_ne hw, hs.order w']
  next => simp at h

/-- A worker is done with a codelet. -/
private theorem inv_returnWorker {s s' : State C m} {w : Fin m} (hs : Inv s)
    (h : step s (.returnWorker w) = some s') : Inv s' := by
  simp only [step] at h
  split at h
  next t hfiring =>
    obtain rfl := Option.some.inj h
    refine ⟨?_, hs.whichSub, fun w' => ?_, hs.sound⟩
    · refine exact_move (p := .workerFiring w) (q := .workerFired w) (t := t) hs rfl (by simp)
        ?_ ?_ ?_
      · simp [State.cell, hfiring]
      · show (Function.update s.fired w (s.fired w ++ [t]) w).Perm _
        rw [Function.update_self]
        exact List.perm_append_comm
      · intro p hp hq
        cases p with
        | workerFiring w' =>
          have hw : w' ≠ w := fun hw => hp (by rw [hw])
          simp [State.cell, Function.update_of_ne hw]
        | workerFired w' =>
          have hw : w' ≠ w := fun hw => hq (by rw [hw])
          simp [State.cell, Function.update_of_ne hw]
        | _ => rfl
    · show s.given w' = Function.update s.fired w (s.fired w ++ [t]) w' ++
        (Function.update s.firing w none w').toList ++ (s.buff w').contents
      by_cases hw : w' = w
      · subst hw
        rw [Function.update_self, Function.update_self, hs.order w', hfiring]
        simp
      · rw [Function.update_of_ne hw, Function.update_of_ne hw, hs.order w']
  next => simp at h

/-- Some thread pushes. -/
private theorem inv_pushCodelet {s s' : State C m} {c : C} (hs : Inv s)
    (h : step s (.pushCodelet c) = some s') : Inv s' := by
  obtain rfl := Option.some.inj h
  refine ⟨?_, hs.whichSub, hs.order, hs.sound⟩
  have hrange : Finset.range (s.pushed ++ [c]).length =
      insert s.pushed.length (Finset.range s.pushed.length) := by
    rw [List.length_append, List.length_singleton, Finset.range_add_one]
  show Places.Exact _ (Finset.range (s.pushed ++ [c]).length)
  rw [hrange]
  refine hs.exact.birth (q := .pool) Finset.notMem_range_self List.perm_append_comm ?_
  intro r hr
  cases r with
  | pool => exact absurd rfl hr
  | _ => rfl

/-- Every step keeps the invariant. -/
theorem inv_step {s s' : State C m} {l : Label C m} (hs : Inv s) (h : step s l = some s') :
    Inv s' := by
  cases l with
  | pushCodelet c => exact inv_pushCodelet hs h
  | popCodelet k => exact inv_popCodelet hs h
  | tryWorker => exact inv_tryWorker hs h
  | fireSelf => exact inv_self hs (.inl h)
  | returnSelf => exact inv_self hs (.inr h)
  | pull w => exact inv_pull hs h
  | returnWorker w => exact inv_returnWorker hs h

theorem reachable_inv {junk : Fin m → Fin 4 → Nat} {s : State C m}
    (h : Transition.Reachable step (State.start junk) s) : Inv s :=
  h.invariant Inv (inv_start junk) fun _ _ _ _ hs hl => inv_step hs hl

/-- **Every ready codelet is fired exactly once**: in every reachable state every
push is in exactly one place and there once, `whichSub_` is the index of a worker (and
is not used when there is none), no null worker is dereferenced, and every worker has
fired what it was given in the order in which it was put into its buffer. -/
theorem dispatch_exact (m : Nat) (junk : Fin m → Fin 4 → Nat) (s : State C m)
    (h : Transition.Reachable step (State.start junk) s) :
    (∀ t, t < s.pushed.length → ∃! p, t ∈ s.cell p) ∧
    (∀ p, (s.cell p).Nodup ∧ ∀ t ∈ s.cell p, t < s.pushed.length) ∧
    (0 < m → s.whichSub_ < m) ∧ (m = 0 → step s .tryWorker = none) ∧ s.faulted = false ∧
    ∀ w, s.given w = s.fired w ++ (s.firing w).toList ++ (s.buff w).contents := by
  have hinv := reachable_inv h
  refine ⟨fun t ht => hinv.exact.existsUnique (Finset.mem_range.mpr ht), fun p => ?_,
    hinv.whichSub, fun hm => ?_, hinv.sound, hinv.order⟩
  · exact ⟨hinv.exact.nodup p, fun t ht => Finset.mem_range.mp (hinv.exact.mem_born ht)⟩
  · simp only [step]
    split
    next => rw [if_neg (by omega)]
    next => rfl

/-- Nine codelets for two workers: the workers take four each in turn, both refuse the last one,
and the TP thread fires it. -/
def ninthRefused : List (Label Unit 2) :=
  List.replicate 9 (.pushCodelet ()) ++ (List.replicate 8 [.popCodelet 0, .tryWorker]).flatten ++
    [.popCodelet 0, .tryWorker, .tryWorker, .fireSelf, .returnSelf, .pull 1, .returnWorker 1]

theorem dispatch_exact_nine :
    ∃ s, Transition.run step (State.start fun _ _ => 0) ninthRefused = some s ∧
      s.given 0 = [0, 2, 4, 6] ∧ s.firedSelf = [8] ∧ (∃! p, 8 ∈ s.cell p) ∧
      s.given 1 = [1] ++ (s.firing 1).toList ++ (s.buff 1).contents := by
  obtain ⟨s, hrun, hpushed, hgiven, hfired, hself⟩ :
      ∃ s, Transition.run step (State.start fun _ _ => 0) ninthRefused = some s ∧
        s.pushed.length = 9 ∧ s.given 0 = [0, 2, 4, 6] ∧ s.fired 1 = [1] ∧ s.firedSelf = [8] :=
    ⟨_, rfl, rfl, rfl, rfl, rfl⟩
  obtain ⟨hplace, -, -, -, -, horder⟩ := dispatch_exact 2 (fun _ _ => 0) s (.of_run hrun)
  exact ⟨s, hrun, hgiven, hself, hplace 8 (by omega), hfired ▸ horder 1⟩

end TPPushFull

end Darts
