import Mathlib.Algebra.BigOperators.Group.Finset.Piecewise
import Mathlib.Algebra.Order.BigOperators.Group.Finset
import Mathlib.Logic.Function.Basic
import Darts.Lib.Places
import Darts.Lib.Transition
import Darts.Threading.SyncSlot

/-!
# `paraFor` and `codeletFor` (`include/threading/loop.h`)

Both loops are one codelet that fires twice in an activation: the first time it starts
all bodies, the second time, when they have sent their signals, it signals
`toSignal_`. The flag `fired` tells the two apart. A `paraFor` pushes a closure for
each iteration, which some TP scheduler pops and constructs the body from; a
`codeletFor` constructs the bodies itself. The number of the iteration is written to
the closure that the loop keeps, and read from there.

The machine is one such loop over any number of activations. `fire()` is one step up to
its first iteration, or to the signal; each iteration is two steps, and bodies run,
and signal the loop `Res` times each, in between. What they do is not looked at, nor
are the references on the enclosing TP (`Darts/Threading/RefCount.lean`) and the
lifetimes of the bodies of a `codeletFor` (`Darts/Loops/Lifetime.lean`).

Without iterations there is nobody to signal the loop. A `codeletFor` asks for this case
and signals `toSignal_` at once, but does not set its counter again; a `paraFor` does
not ask and waits for ever (`exact_iff`).
-/

namespace Darts

namespace FanOut

open Transition Word

/-- The two loops. -/
inductive Kind
  | paraFor | codeletFor
deriving DecidableEq

/-- What a loop is constructed with. -/
structure Loop where
  kind : Kind
  Dep : Nat
  Res : Nat
  iterations_ : Nat
  res_pos : 0 < Res
  /-- `Res * iterations_` is computed as an `unsigned int`. -/
  fits : Res * iterations_ ≤ uintMax

/-- What happens to the bodies. -/
inductive Event
  /-- The body of an iteration is constructed. -/
  | start (i : Nat)
  /-- It signals the loop. -/
  | signal (i : Nat)
  /-- `toSignal_->decDep()`. -/
  | toSignal
deriving DecidableEq

/-- Where a call of `fire()` is. -/
inductive Pc
  /-- About to write `i` to the closure. -/
  | write (i : Nat)
  /-- About to start the iteration that the closure names, in turn `i`. -/
  | start (i : Nat)
  /-- About to do `toSignal_->decDep()`. -/
  | signal
deriving DecidableEq

structure State where
  sync_ : SyncSlot
  fired : Bool
  /-- `*itPtr`, or `closure->iter`. -/
  iter : Nat
  /-- How often the loop is in a pool. -/
  queued : Nat
  /-- The calls of `fire()` that have not returned. -/
  firing : List Pc
  /-- The closures in the pools of the TP schedulers, by their iterations. -/
  closures : List Nat
  /-- Signals that the body of an iteration is still to send. -/
  owed : Nat → Nat
  /-- Signals for the next activation so far. -/
  arrived : Nat
  activations : Nat
  /-- What has happened since `toSignal_` was last signalled, and before. -/
  log : List Event
  rounds : List (List Event)

/-- The steps. -/
inductive Label
  /-- `add` of the loop by its TP. -/
  | add
  /-- A signal from outside. -/
  | decDep
  /-- A policy pops the loop and calls `fire()`. -/
  | fire
  /-- A call of `fire()` goes on. -/
  | advance (k : Nat)
  /-- A TP scheduler pops a closure and constructs the body. -/
  | begin (k : Nat)
  /-- The body of an iteration signals the loop. -/
  | signal (i : Nat)

/-- `Codelet(dep, res * it, ..)`, `fired(false)`. -/
def start (L : Loop) : State :=
  { sync_ := { counter_ := L.Dep, reset_ := L.Res * L.iterations_ }, fired := false, iter := 0
    queued := 0, firing := [], closures := [], owed := fun _ => 0, arrived := 0, activations := 0
    log := [], rounds := [] }

namespace State

/-- `Codelet::decDep` of the loop. -/
def decDep (s : State) : State :=
  { s with
    sync_ := s.sync_.decCounter.2
    queued := if s.sync_.decCounter.1 then s.queued + 1 else s.queued }

/-- The body of an iteration is constructed. -/
def begin (L : Loop) (s : State) (i : Nat) : State :=
  { s with
    owed := Function.update s.owed i (s.owed i + L.Res), log := s.log ++ [.start i] }

/-- `fire()` with `fired` now true: `initCodelet(Res*iterations_, Res, ..)` and the loop. -/
def fanOut (L : Loop) (s : State) : State :=
  { s with
    fired := true, sync_ := { counter_ := L.Res * L.iterations_, reset_ := L.Res }
    firing := s.firing ++ if 0 < L.iterations_ then [.write 0] else [] }

/-- `fire()` with `fired` now false: `initCodelet(Dep, Res, ..)` and the signal. -/
def fanIn (L : Loop) (s : State) : State :=
  { s with
    fired := false, sync_ := { counter_ := L.Dep, reset_ := L.Res }
    firing := s.firing ++ [.signal] }

/-- `paraFor::fire`. -/
def paraFire (L : Loop) (s : State) : State := if !s.fired then s.fanOut L else s.fanIn L

/-- `codeletFor::fire`. -/
def codeletFire (L : Loop) (s : State) : State :=
  if L.iterations_ ≠ 0 then
    if !s.fired then s.fanOut L else s.fanIn L
  else { s with firing := s.firing ++ [.signal] }

def fire (L : Loop) (s : State) : State :=
  match L.kind with
  | .paraFor => s.paraFire L
  | .codeletFor => s.codeletFire L

/-- One iteration is pushed, or constructed. -/
def iterate (L : Loop) (s : State) : State :=
  match L.kind with
  | .paraFor => { s with closures := s.closures ++ [s.iter] }
  | .codeletFor => s.begin L s.iter

/-- `toSignal_->decDep()`. -/
def toSignal (s : State) : State :=
  { s with rounds := s.rounds ++ [s.log ++ [.toSignal]], log := [] }

/-- Call `k` of `fire()` goes on from `pc`. -/
def advance (L : Loop) (s : State) (k : Nat) : Pc → State
  | .write i => { s with iter := i, firing := s.firing.set k (.start i) }
  | .start i =>
    if i + 1 < L.iterations_ then { s.iterate L with firing := s.firing.set k (.write (i + 1)) }
    else { s.iterate L with firing := s.firing.eraseIdx k }
  | .signal => { s.toSignal with firing := s.firing.eraseIdx k }

end State

/-- The steps of the loop, its bodies and the outside. The outside activates the loop by
`Dep` signals, by `add` when there are none to wait for, and again only after
`toSignal_` has been signalled. -/
def step (L : Loop) (s : State) : Label → Option State
  | .add =>
    if s.activations = s.rounds.length then
      some (if s.sync_.ready then { s with queued := s.queued + 1, activations := s.activations + 1 }
        else s)
    else none
  | .decDep =>
    if s.activations = s.rounds.length ∧ L.Dep ≠ 0 then
      some (if s.arrived + 1 = L.Dep
        then { s.decDep with arrived := 0, activations := s.activations + 1 }
        else { s.decDep with arrived := s.arrived + 1 })
    else none
  | .fire => if 0 < s.queued then some (State.fire L { s with queued := s.queued - 1 }) else none
  | .advance k => s.firing[k]?.map (s.advance L k)
  | .begin k =>
    s.closures[k]?.map fun i => State.begin L { s with closures := s.closures.eraseIdx k } i
  | .signal i =>
    if 0 < s.owed i then
      some { s.decDep with
        owed := Function.update s.owed i (s.owed i - 1), log := s.log ++ [.signal i] }
    else none

/-! ## What a loop is for -/

/-- One activation: the body of each iteration once, `Res` signals from each of them, and then
the signal to `toSignal_`. -/
structure Round (L : Loop) (r : List Event) : Prop where
  starts : ∀ i, r.count (.start i) = if i < L.iterations_ then 1 else 0
  signals : ∀ i, r.count (.signal i) = if i < L.iterations_ then L.Res else 0
  last : ∃ events, r = events ++ [.toSignal] ∧ .toSignal ∉ events

/-- The steps of the loop and of its bodies. -/
def own (L : Loop) (s : State) (l : Label) : Option State :=
  match l with
  | .add | .decDep => none
  | _ => step L s l

/-- What is required of the loop in a state of a run. -/
structure Exact (L : Loop) (s : State) : Prop where
  /-- What lies between two signals to `toSignal_` is an activation. -/
  rounds : ∀ r ∈ s.rounds, Round L r
  /-- No body is started twice or signals too often meanwhile. -/
  begun : ∀ i, s.log.count (.start i) ≤ (if i < L.iterations_ then 1 else 0) ∧
    s.log.count (.signal i) ≤ L.Res * s.log.count (.start i)
  /-- At most one activation is without its signal. -/
  once : s.activations = s.rounds.length ∨ s.activations = s.rounds.length + 1
  /-- Between activations the loop is armed. -/
  armed : s.activations = s.rounds.length → s.fired = false ∧
    s.sync_.counter_ + s.arrived = L.Dep ∧ s.queued = 0 ∧ s.firing = [] ∧ s.log = []
  /-- The loop and its bodies can always go on to the end of the activation, and do so in
  finitely many steps. -/
  ends : ∃ bound, ∀ ls t, run (own L) s ls = some t → ls.length ≤ bound ∧
    (Stuck (own L) t → t.activations = s.activations ∧ t.rounds.length = s.activations)

/-! ## The invariant -/

variable {L : Loop} {s t : State}

theorem State.decDep_eq (h : s.sync_.counter_ ≠ 0) : s.decDep =
    { s with
      sync_ := { s.sync_ with counter_ := s.sync_.counter_ - 1 }
      queued := s.queued + if s.sync_.counter_ = 1 then 1 else 0 } := by
  unfold State.decDep SyncSlot.decCounter
  rw [fetchSub_of_pos h]
  by_cases hone : s.sync_.counter_ = 1 <;> simp [hone]

/-- Nothing of a round is under way. -/
structure AtRest (s : State) : Prop where
  fired : s.fired = false
  closures : s.closures = []
  owed : ∀ i, s.owed i = 0

/-- The round so far, when the first `pushed` iterations have been started, or pushed. The counter
is what is missing of all signals. -/
structure Tally (L : Loop) (s : State) (pushed : Nat) : Prop where
  starts : ∀ i, s.log.count (.start i) + s.closures.count i = if i < pushed then 1 else 0
  signals : ∀ i, s.owed i + s.log.count (.signal i) = L.Res * s.log.count (.start i)
  quiet : .toSignal ∉ s.log
  counter : s.sync_.counter_ + ∑ i ∈ Finset.range L.iterations_, s.log.count (.signal i) =
    L.Res * L.iterations_

/-- How many iterations the call of `fire()` has pushed. -/
def pushed (L : Loop) : List Pc → Nat
  | .write i :: _ | .start i :: _ => i
  | _ => L.iterations_

/-- Between two activations. -/
structure Idle (L : Loop) (s : State) : Prop where
  rest : AtRest s
  firing : s.firing = []
  queued : s.queued = 0
  counter : s.sync_.counter_ + s.arrived = L.Dep
  arrived : s.arrived < L.Dep ∨ s.arrived = 0
  count : s.activations = s.rounds.length
  log : s.log = []

/-- Activated, and not fired yet. -/
structure Ready (L : Loop) (s : State) : Prop where
  rest : AtRest s
  firing : s.firing = []
  queued : s.queued = 1
  counter : s.sync_.counter_ = 0
  arrived : s.arrived = 0
  count : s.activations = s.rounds.length + 1
  log : s.log = []

/-- The bodies are started and run. -/
structure Out (L : Loop) (s : State) : Prop where
  fired : s.fired = true
  some : 0 < L.iterations_
  pc : s.firing = [] ∨ ∃ i < L.iterations_, s.firing = [.write i] ∨ s.firing = [.start i] ∧ s.iter = i
  tally : Tally L s (pushed L s.firing)
  queued : s.queued = if s.sync_.counter_ = 0 then 1 else 0
  arrived : s.arrived = 0
  count : s.activations = s.rounds.length + 1

/-- All bodies have signalled, and `toSignal_` is the next. -/
structure Closing (L : Loop) (s : State) : Prop where
  rest : AtRest s
  firing : s.firing = [.signal]
  queued : s.queued = 0
  counter : s.sync_.counter_ = L.Dep
  arrived : s.arrived = 0
  count : s.activations = s.rounds.length + 1
  starts : ∀ i, s.log.count (.start i) = if i < L.iterations_ then 1 else 0
  signals : ∀ i, s.log.count (.signal i) = if i < L.iterations_ then L.Res else 0
  quiet : .toSignal ∉ s.log

/-- Where an activation is. -/
inductive Phase (L : Loop) (s : State) : Prop
  | idle : Idle L s → Phase L s
  | ready : Ready L s → Phase L s
  | out : Out L s → Phase L s
  | closing : Closing L s → Phase L s

structure Inv (L : Loop) (s : State) : Prop where
  phase : Phase L s
  rounds : ∀ r ∈ s.rounds, Round L r

/-- The loop has somebody to signal it, or need not set its counter again. -/
def Served (L : Loop) : Prop := 1 ≤ L.iterations_ ∨ L.kind = .codeletFor ∧ L.Dep = 0

theorem inv_start : Inv L (start L) where
  phase := .idle
    { rest := { fired := rfl, closures := rfl, owed := fun _ => rfl }
      firing := rfl, queued := rfl, counter := rfl, arrived := Or.inr rfl, count := rfl, log := rfl }
  rounds r hr := by cases hr

/-! ## Where a step can be taken -/

/-- The outside signals or adds the loop only between activations. -/
theorem Inv.idle (h : Inv L s) (hc : s.activations = s.rounds.length) : Idle L s := by
  cases h.phase with
  | idle h => exact h
  | ready h => exact absurd h.count (by omega)
  | out h => exact absurd h.count (by omega)
  | closing h => exact absurd h.count (by omega)

/-- A closure is in a pool only while bodies are started. -/
theorem Inv.out_of_closure {k i : Nat} (h : Inv L s) (hi : s.closures[k]? = some i) : Out L s := by
  have hempty : s.closures = [] → False := fun hnil => by
    rw [hnil] at hi
    cases hi
  cases h.phase with
  | idle h => exact (hempty h.rest.closures).elim
  | ready h => exact (hempty h.rest.closures).elim
  | out h => exact h
  | closing h => exact (hempty h.rest.closures).elim

theorem Inv.out_of_owed {i : Nat} (h : Inv L s) (hi : 0 < s.owed i) : Out L s := by
  cases h.phase with
  | idle h => exact absurd (h.rest.owed i) (by omega)
  | ready h => exact absurd (h.rest.owed i) (by omega)
  | out h => exact h
  | closing h => exact absurd (h.rest.owed i) (by omega)

/-! ## The signals of a round -/

theorem Tally.signals_le {k : Nat} (h : Tally L s k) (i : Nat) :
    s.log.count (.start i) ≤ (if i < k then 1 else 0) ∧
      s.log.count (.signal i) ≤ L.Res * s.log.count (.start i) := by
  have hstarts := h.starts i
  have hsignals := h.signals i
  exact ⟨by omega, by omega⟩

/-- **The last signal.** The counter is at zero only when every iteration has been started and its
body has sent all its signals. -/
theorem Tally.complete {k : Nat} (h : Tally L s k) (hk : k ≤ L.iterations_)
    (hzero : s.sync_.counter_ = 0) : k = L.iterations_ ∧
      ∀ i, s.log.count (.start i) = (if i < L.iterations_ then 1 else 0) ∧
        s.log.count (.signal i) = if i < L.iterations_ then L.Res else 0 := by
  have hle : ∀ i ∈ Finset.range L.iterations_, s.log.count (.signal i) ≤ L.Res := by
    intro i _
    obtain ⟨hstart, hsignal⟩ := h.signals_le i
    have hone : s.log.count (.start i) ≤ 1 := by
      refine hstart.trans ?_
      split <;> omega
    have hmul := Nat.mul_le_mul_left L.Res hone
    omega
  have hsum : ∑ i ∈ Finset.range L.iterations_, s.log.count (.signal i) =
      ∑ _i ∈ Finset.range L.iterations_, L.Res := by
    have hcounter := h.counter
    rw [hzero, Nat.zero_add] at hcounter
    rw [hcounter, Finset.sum_const_nat fun _ _ => rfl, Finset.card_range, Nat.mul_comm]
  have hall := (Finset.sum_eq_sum_iff_of_le hle).mp hsum
  have hpos := L.res_pos
  have hin : ∀ i < L.iterations_, s.log.count (.start i) = 1 ∧ i < k := by
    intro i hi
    obtain ⟨hstart, hsignal⟩ := h.signals_le i
    rw [hall i (Finset.mem_range.mpr hi)] at hsignal
    have hone : s.log.count (.start i) ≠ 0 := by
      intro hno
      rw [hno, Nat.mul_zero] at hsignal
      omega
    split at hstart
    next hik => exact ⟨by omega, hik⟩
    next => omega
  refine ⟨Nat.le_antisymm hk ?_, fun i => ?_⟩
  · by_contra hlt
    exact absurd (hin k (by omega)).2 (lt_irrefl k)
  · by_cases hi : i < L.iterations_
    · rw [if_pos hi, if_pos hi]
      exact ⟨(hin i hi).1, hall i (Finset.mem_range.mpr hi)⟩
    · rw [if_neg hi, if_neg hi]
      obtain ⟨hstart, hsignal⟩ := h.signals_le i
      rw [if_neg (by omega)] at hstart
      have hnone : s.log.count (.start i) = 0 := by omega
      rw [hnone, Nat.mul_zero] at hsignal
      exact ⟨hnone, by omega⟩

/-! ## What the steps do to a round -/

private theorem count_start (es : List Event) (i j : Nat) :
    (es ++ [Event.start i]).count (.start j) = es.count (.start j) + if j = i then 1 else 0 := by
  by_cases h : j = i
  · simp [h]
  · simp [h, Ne.symm h]

private theorem count_signal (es : List Event) (i j : Nat) :
    (es ++ [Event.signal i]).count (.signal j) = es.count (.signal j) + if j = i then 1 else 0 := by
  by_cases h : j = i
  · simp [h]
  · simp [h, Ne.symm h]

private theorem count_start_signal (es : List Event) (i j : Nat) :
    (es ++ [Event.start i]).count (.signal j) = es.count (.signal j) := by
  simp

private theorem count_signal_start (es : List Event) (i j : Nat) :
    (es ++ [Event.signal i]).count (.start j) = es.count (.start j) := by
  simp

private theorem upto_succ (i j : Nat) :
    (if j < i then 1 else 0) + (if j = i then 1 else 0) = if j < i + 1 then 1 else 0 := by
  split_ifs <;> omega

/-- A closure is pushed. -/
theorem Tally.push {i : Nat} (h : Tally L s i) {fs : List Pc} :
    Tally L { s with closures := s.closures ++ [i], firing := fs } (i + 1) where
  starts j := by
    have hstarts := h.starts j
    simp only [List.count_append, List.count_singleton, beq_iff_eq]
    split at hstarts <;> split <;> split <;> omega
  signals := h.signals
  quiet := h.quiet
  counter := h.counter

/-- A body is started, by the loop itself or from a closure. -/
theorem Tally.begin {i k k' : Nat} {cs : List Nat} (h : Tally L s k)
    (hcs : ∀ j, cs.count j + (if j < k then 1 else 0) + (if j = i then 1 else 0) =
      s.closures.count j + if j < k' then 1 else 0) {fs : List Pc} :
    Tally L { State.begin L { s with closures := cs } i with firing := fs } k' where
  starts j := by
    have hstarts := h.starts j
    have hcount := hcs j
    simp only [State.begin, count_start]
    omega
  signals j := by
    have hsignals := h.signals j
    simp only [State.begin, count_start, count_start_signal]
    by_cases hj : j = i
    · subst hj
      rw [Function.update_self, if_pos rfl, Nat.mul_add, Nat.mul_one]
      omega
    · rw [Function.update_of_ne hj, if_neg hj]
      exact hsignals
  quiet := by
    simp only [State.begin, List.mem_append, List.mem_singleton, reduceCtorEq, or_false]
    exact h.quiet
  counter := by
    simp only [State.begin, count_start_signal]
    exact h.counter

/-- A body signals. -/
theorem Tally.signal {i k : Nat} (h : Tally L s k) (hi : i < L.iterations_) (hpos : 0 < s.owed i)
    (hcounter : s.sync_.counter_ ≠ 0) {q : Nat} :
    Tally L { s with
      sync_ := { s.sync_ with counter_ := s.sync_.counter_ - 1 }, queued := q
      owed := Function.update s.owed i (s.owed i - 1), log := s.log ++ [.signal i] } k where
  starts j := by
    simp only [count_signal_start]
    exact h.starts j
  signals j := by
    have hsignals := h.signals j
    simp only [count_signal, count_signal_start]
    by_cases hj : j = i
    · subst hj
      rw [Function.update_self, if_pos rfl]
      omega
    · rw [Function.update_of_ne hj, if_neg hj]
      exact hsignals
  quiet := by
    simp only [List.mem_append, List.mem_singleton, reduceCtorEq, or_false]
    exact h.quiet
  counter := by
    have hround := h.counter
    simp only [count_signal, Finset.sum_add_distrib, Finset.sum_ite_eq', Finset.mem_range, if_pos hi]
    omega

/-- A body that owes a signal is one of the loop's, and the counter has not missed it. -/
theorem Tally.owed_bounds {i k : Nat} (h : Tally L s k) (hk : k ≤ L.iterations_)
    (hpos : 0 < s.owed i) : i < L.iterations_ ∧ s.sync_.counter_ ≠ 0 := by
  have hsignals := h.signals i
  obtain ⟨hstart, -⟩ := h.signals_le i
  have hi : i < k := by
    by_contra hno
    rw [if_neg hno] at hstart
    rw [Nat.le_zero.mp hstart, Nat.mul_zero] at hsignals
    omega
  refine ⟨by omega, fun hzero => ?_⟩
  obtain ⟨-, hall⟩ := h.complete hk hzero
  obtain ⟨hstarts, hsigs⟩ := hall i
  rw [if_pos (by omega)] at hstarts hsigs
  rw [hstarts, hsigs, Nat.mul_one] at hsignals
  omega

theorem pushed_le (h : Out L s) : pushed L s.firing ≤ L.iterations_ := by
  rcases h.pc with hnil | ⟨i, hi, hw | ⟨hst, -⟩⟩
  · rw [hnil]
    exact le_rfl
  · rw [hw]
    exact hi.le
  · rw [hst]
    exact hi.le

/-! ## The steps -/

/-- With iterations both loops fire alike. -/
theorem fire_eq (h : 0 < L.iterations_) (s : State) :
    State.fire L s = if !s.fired then s.fanOut L else s.fanIn L := by
  unfold State.fire
  cases L.kind with
  | paraFor => rfl
  | codeletFor => exact if_pos h.ne'

/-- Without, a `codeletFor` does nothing but signal. -/
theorem fire_eq_none (hs : Served L) (h : ¬ 0 < L.iterations_) (s : State) :
    State.fire L s = { s with firing := s.firing ++ [.signal] } := by
  unfold State.fire State.codeletFire
  rw [(hs.resolve_left h).1]
  exact if_neg (by omega)

theorem fire_frame (L : Loop) (s : State) :
    (State.fire L s).rounds = s.rounds ∧ (State.fire L s).activations = s.activations := by
  unfold State.fire State.paraFire State.codeletFire State.fanOut State.fanIn
  cases L.kind <;> split_ifs <;> exact ⟨rfl, rfl⟩

/-- The first `fire()` of an activation. -/
theorem fire_ready (hs : Served L) (h : Ready L s) :
    Phase L (State.fire L { s with queued := s.queued - 1 }) := by
  by_cases hn : 0 < L.iterations_
  · rw [fire_eq hn, h.rest.fired]
    have hres := Nat.mul_pos L.res_pos hn
    refine .out
      { fired := rfl, some := hn, arrived := h.arrived, count := h.count
        pc := Or.inr ⟨0, hn, Or.inl (by simp [State.fanOut, h.firing, hn])⟩
        queued := by simp [State.fanOut, h.queued, hres.ne']
        tally := ?_ }
    simp only [Bool.not_false, if_true, State.fanOut, h.firing, if_pos hn, List.nil_append, pushed]
    exact
      { starts := by simp [h.log, h.rest.closures]
        signals := by simp [h.log, h.rest.owed]
        quiet := by simp [h.log]
        counter := by simp [h.log] }
  · -- only a `codeletFor` gets here: it is done at once
    obtain ⟨-, hDep⟩ := hs.resolve_left hn
    have hzero : L.iterations_ = 0 := by omega
    rw [fire_eq_none hs hn]
    exact .closing
      { rest := { fired := h.rest.fired, closures := h.rest.closures, owed := h.rest.owed }
        firing := by simp [h.firing], queued := by simp [h.queued]
        counter := h.counter.trans hDep.symm, arrived := h.arrived, count := h.count
        starts := by simp [h.log, hzero], signals := by simp [h.log, hzero], quiet := by simp [h.log] }

/-- The second one. -/
theorem fire_out (h : Out L s) (hq : 0 < s.queued) :
    Closing L (State.fire L { s with queued := s.queued - 1 }) := by
  have hqueued := h.queued
  have hzero : s.sync_.counter_ = 0 := by
    by_contra hne
    rw [if_neg hne] at hqueued
    omega
  rw [if_pos hzero] at hqueued
  obtain ⟨hk, hall⟩ := h.tally.complete (pushed_le h) hzero
  have hfiring : s.firing = [] := by
    rcases h.pc with hnil | ⟨i, hi, hw | ⟨hst, -⟩⟩
    · exact hnil
    · rw [hw] at hk
      exact absurd hk hi.ne
    · rw [hst] at hk
      exact absurd hk hi.ne
  rw [fire_eq h.some, h.fired]
  refine
    { rest := { fired := rfl, closures := ?_, owed := fun i => ?_ }
      firing := by simp [State.fanIn, hfiring], queued := by simp [State.fanIn, hqueued]
      counter := rfl, arrived := h.arrived, count := h.count
      starts := fun i => (hall i).1, signals := fun i => (hall i).2, quiet := h.tally.quiet }
  · refine List.eq_nil_iff_forall_not_mem.mpr fun i => List.count_eq_zero.mp ?_
    have hstarts := h.tally.starts i
    rw [(hall i).1, hk] at hstarts
    show s.closures.count i = 0
    omega
  · have hsignals := h.tally.signals i
    rw [(hall i).1, (hall i).2] at hsignals
    show s.owed i = 0
    split at hsignals <;> omega

/-- There is one call of `fire()` at a time. -/
theorem pc_of_single {k : Nat} {pc pc' : Pc} (hf : s.firing = [pc']) (hpc : s.firing[k]? = some pc) :
    k = 0 ∧ pc = pc' := by
  rw [hf] at hpc
  cases k with
  | zero => exact ⟨rfl, (Option.some.inj hpc).symm⟩
  | succ k => cases hpc

/-- One iteration changes nothing but the closures, the bodies and the log. -/
theorem iterate_eq (L : Loop) (s : State) : ∃ cs ow lg,
    s.iterate L = { s with closures := cs, owed := ow, log := lg } := by
  unfold State.iterate
  cases L.kind with
  | paraFor => exact ⟨_, s.owed, s.log, rfl⟩
  | codeletFor => exact ⟨s.closures, _, _, rfl⟩

/-- One iteration in the tally. -/
theorem Tally.iterate (h : Tally L s s.iter) (fs : List Pc) :
    Tally L { s.iterate L with firing := fs } (s.iter + 1) := by
  unfold State.iterate
  cases L.kind with
  | paraFor => exact h.push
  | codeletFor =>
    refine h.begin fun j => ?_
    rw [Nat.add_assoc, ← upto_succ]

theorem advance_activations (k : Nat) (pc : Pc) : (s.advance L k pc).activations = s.activations := by
  cases pc with
  | write i => rfl
  | start i =>
    obtain ⟨cs, ow, lg, heq⟩ := iterate_eq L s
    simp only [State.advance, heq]
    split <;> rfl
  | signal => rfl

/-- A call of `fire()` goes on, with the bodies. -/
theorem advance_out {k : Nat} {pc : Pc} (h : Out L s) (hpc : s.firing[k]? = some pc) :
    Out L (s.advance L k pc) ∧ (s.advance L k pc).rounds = s.rounds := by
  have htally := h.tally
  rcases h.pc with hnil | ⟨i, hi, hw | ⟨hst, hiter⟩⟩
  · rw [hnil] at hpc
    cases hpc
  · obtain ⟨rfl, rfl⟩ := pc_of_single hw hpc
    rw [hw] at htally
    simp only [State.advance, hw, List.set_cons_zero]
    exact ⟨{ h with pc := Or.inr ⟨i, hi, Or.inr ⟨rfl, rfl⟩⟩, tally := { htally with } }, trivial⟩
  · subst hiter
    obtain ⟨rfl, rfl⟩ := pc_of_single hst hpc
    rw [hst] at htally
    have hnext := htally.iterate
    obtain ⟨cs, ow, lg, heq⟩ := iterate_eq L s
    rw [heq] at hnext
    simp only [State.advance, heq, hst, List.set_cons_zero, List.eraseIdx_cons_zero]
    split
    next hlt =>
      exact ⟨{ h with pc := Or.inr ⟨s.iter + 1, hlt, Or.inl rfl⟩, tally := hnext _ }, rfl⟩
    next hlast =>
      -- the last iteration: this call of `fire()` is at its end
      have hall := hnext []
      rw [show s.iter + 1 = L.iterations_ by omega] at hall
      exact ⟨{ h with pc := Or.inl rfl, tally := hall }, rfl⟩

/-- The signal to `toSignal_` ends the activation. -/
theorem advance_closing {k : Nat} {pc : Pc} (hrounds : ∀ r ∈ s.rounds, Round L r)
    (h : Closing L s) (hpc : s.firing[k]? = some pc) : Inv L (s.advance L k pc) := by
  obtain ⟨rfl, rfl⟩ := pc_of_single h.firing hpc
  simp only [State.advance, State.toSignal, h.firing, List.eraseIdx_cons_zero]
  refine
    { phase := .idle
        { rest := { fired := h.rest.fired, closures := h.rest.closures, owed := h.rest.owed }
          firing := rfl, queued := h.queued, arrived := Or.inr h.arrived, log := rfl
          counter := ?_, count := ?_ }
      rounds := fun r hr => ?_ }
  · show s.sync_.counter_ + s.arrived = L.Dep
    rw [h.counter, h.arrived, Nat.add_zero]
  · show s.activations = (s.rounds ++ [_]).length
    rw [h.count, List.length_append, List.length_singleton]
  · -- the new round is the log of this activation
    rcases List.mem_append.mp hr with hold | hnew
    · exact hrounds r hold
    · obtain rfl := List.mem_singleton.mp hnew
      exact
        { starts := fun i => by rw [← h.starts i]; simp
          signals := fun i => by rw [← h.signals i]; simp
          last := ⟨s.log, rfl, h.quiet⟩ }

/-- A TP scheduler constructs a body. -/
theorem begin_out {k i : Nat} (h : Out L s) (hi : s.closures[k]? = some i) :
    Out L (State.begin L { s with closures := s.closures.eraseIdx k } i) := by
  have htally : Tally L { State.begin L { s with closures := s.closures.eraseIdx k } i with
      firing := s.firing } (pushed L s.firing) := by
    refine h.tally.begin fun j => ?_
    have hcount := (Places.perm_eraseIdx hi).count_eq j
    rw [List.count_cons] at hcount
    simp only [beq_iff_eq, eq_comm (a := i)] at hcount
    omega
  exact { fired := h.fired, some := h.some, pc := h.pc, tally := htally, queued := h.queued
          arrived := h.arrived, count := h.count }

/-- A body signals the loop, and the last signal of all makes it ready. -/
theorem signal_out {i : Nat} (h : Out L s) (hpos : 0 < s.owed i) :
    Out L { s.decDep with
      owed := Function.update s.owed i (s.owed i - 1), log := s.log ++ [.signal i] } := by
  obtain ⟨hi, hne⟩ := h.tally.owed_bounds (pushed_le h) hpos
  rw [State.decDep_eq hne]
  refine { fired := h.fired, some := h.some, pc := h.pc, tally := h.tally.signal hi hpos hne
           queued := ?_, arrived := h.arrived, count := h.count }
  show s.queued + (if s.sync_.counter_ = 1 then 1 else 0) =
    if s.sync_.counter_ - 1 = 0 then 1 else 0
  rw [h.queued, if_neg hne]
  split_ifs <;> omega

/-- `add` of a loop that waits for nothing makes it ready. -/
theorem add_idle (h : Idle L s) (hready : s.sync_.ready = true) :
    Ready L { s with queued := s.queued + 1, activations := s.activations + 1 } := by
  have hzero : s.sync_.counter_ = 0 := of_decide_eq_true hready
  have hcounter := h.counter
  refine { rest := { h.rest with }, firing := h.firing, queued := by simp [h.queued], counter := hzero
           arrived := ?_, count := by simp [h.count], log := h.log }
  have harrived := h.arrived
  show s.arrived = 0
  omega

/-- Of the `Dep` signals of an activation any but the last only counts. -/
theorem decDep_more (h : Idle L s) (hmore : s.arrived + 1 < L.Dep) :
    Idle L { s.decDep with arrived := s.arrived + 1 } := by
  have hcounter := h.counter
  rw [State.decDep_eq (by omega)]
  refine { rest := { h.rest with }, firing := h.firing, queued := ?_, counter := ?_
           arrived := Or.inl hmore, count := h.count, log := h.log }
  · show s.queued + (if s.sync_.counter_ = 1 then 1 else 0) = 0
    rw [h.queued, if_neg (by omega)]
  · show s.sync_.counter_ - 1 + (s.arrived + 1) = L.Dep
    omega

/-- The last makes the loop ready. -/
theorem decDep_last (h : Idle L s) (hlast : s.arrived + 1 = L.Dep) :
    Ready L { s.decDep with arrived := 0, activations := s.activations + 1 } := by
  have hcounter := h.counter
  have hone : s.sync_.counter_ = 1 := by omega
  rw [State.decDep_eq (by omega)]
  exact { rest := { h.rest with }, firing := h.firing, queued := by simp [h.queued, hone]
          counter := by simp [hone], arrived := rfl, count := by simp [h.count], log := h.log }

/-- **One step.** -/
theorem step_inv {l : Label} (hs : Served L) (h : Inv L s) (hl : step L s l = some t) :
    Inv L t := by
  cases l with
  | add =>
    obtain ⟨hidle, ht⟩ := Option.ite_none_right_eq_some.mp hl
    obtain rfl := Option.some.inj ht
    split
    next hready => exact { phase := .ready (add_idle (h.idle hidle) hready), rounds := h.rounds }
    next => exact h
  | decDep =>
    obtain ⟨⟨hidle, hDep⟩, ht⟩ := Option.ite_none_right_eq_some.mp hl
    obtain rfl := Option.some.inj ht
    have hph := h.idle hidle
    have harrived := hph.arrived
    split
    next hlast => exact { phase := .ready (decDep_last hph hlast), rounds := h.rounds }
    next => exact { phase := .idle (decDep_more hph (by omega)), rounds := h.rounds }
  | fire =>
    obtain ⟨hqueued, ht⟩ := Option.ite_none_right_eq_some.mp hl
    obtain rfl := Option.some.inj ht
    refine { phase := ?_, rounds := by rw [(fire_frame L _).1]; exact h.rounds }
    cases h.phase with
    | idle hph => exact absurd hph.queued (by omega)
    | ready hph => exact fire_ready hs hph
    | out hph => exact .closing (fire_out hph hqueued)
    | closing hph => exact absurd hph.queued (by omega)
  | advance k =>
    obtain ⟨pc, hpc, rfl⟩ := Option.map_eq_some_iff.mp hl
    cases h.phase with
    | idle hph =>
      rw [hph.firing] at hpc
      cases hpc
    | ready hph =>
      rw [hph.firing] at hpc
      cases hpc
    | out hph =>
      obtain ⟨hout, hrounds⟩ := advance_out hph hpc
      exact { phase := .out hout, rounds := fun r hr => h.rounds r (hrounds ▸ hr) }
    | closing hph => exact advance_closing h.rounds hph hpc
  | begin k =>
    obtain ⟨i, hi, rfl⟩ := Option.map_eq_some_iff.mp hl
    exact { phase := .out (begin_out (h.out_of_closure hi) hi), rounds := h.rounds }
  | signal i =>
    obtain ⟨howed, ht⟩ := Option.ite_none_right_eq_some.mp hl
    obtain rfl := Option.some.inj ht
    exact { phase := .out (signal_out (h.out_of_owed howed) howed), rounds := h.rounds }

/-- **Every run.** -/
theorem reachable_inv (hs : Served L) (h : Reachable (step L) (start L) s) : Inv L s :=
  h.invariant (Inv L) inv_start fun _ _ _ _ hI hl => step_inv hs hI hl

/-! ## The end of an activation -/

theorem own_le {l : Label} (hl : own L s l = some t) : step L s l = some t := by
  cases l with
  | add | decDep => cases hl
  | fire | advance k | begin k | signal i => exact hl

/-- The steps that a call of `fire()` still leads to, bodies included. -/
def framesLeft (L : Loop) : List Pc → Nat
  | .write i :: _ => (L.iterations_ - i) * (3 + L.Res)
  | .start i :: _ => (L.iterations_ - i) * (3 + L.Res) - 1
  | _ => 0

/-- A bound on the steps of the loop and its bodies in the rest of an activation. -/
def left (L : Loop) (s : State) : Nat :=
  if s.activations = s.rounds.length then 0
  else if s.fired then
    framesLeft L s.firing + s.closures.length * (1 + L.Res) +
      ∑ i ∈ Finset.range L.iterations_, s.owed i + 2
  else if s.firing = [] then L.iterations_ * (3 + L.Res) + 3
  else 1

theorem left_ready (h : Ready L s) : left L s = L.iterations_ * (3 + L.Res) + 3 := by
  unfold left
  rw [if_neg (by rw [h.count]; omega), h.rest.fired, if_pos h.firing]
  rfl

theorem left_out (h : Out L s) : left L s = framesLeft L s.firing +
    s.closures.length * (1 + L.Res) + ∑ i ∈ Finset.range L.iterations_, s.owed i + 2 := by
  unfold left
  rw [if_neg (by rw [h.count]; omega), h.fired]
  rfl

theorem left_closing (h : Closing L s) : left L s = 1 := by
  unfold left
  rw [if_neg (by rw [h.count]; omega), h.rest.fired, h.firing]
  rfl

/-- The first `fire()`. -/
theorem left_fire_ready (hs : Served L) (h : Ready L s) :
    left L (State.fire L { s with queued := s.queued - 1 }) < left L s := by
  rw [left_ready h]
  have hcount := h.count
  by_cases hn : 0 < L.iterations_
  · rw [fire_eq hn, h.rest.fired]
    simp only [Bool.not_false, if_true, State.fanOut, h.firing, if_pos hn, List.nil_append, left,
      framesLeft, h.rest.closures, h.rest.owed, Finset.sum_const_zero, List.length_nil, Nat.sub_zero]
    rw [if_neg (by omega)]
    omega
  · -- nothing but the signal to `toSignal_` is left
    rw [fire_eq_none hs hn]
    simp only [left, h.rest.fired, h.firing, List.nil_append]
    rw [if_neg (by omega)]
    simp

/-- One iteration. -/
theorem left_iterate (hi : s.iter < L.iterations_) :
    (s.iterate L).closures.length * (1 + L.Res) +
        ∑ i ∈ Finset.range L.iterations_, (s.iterate L).owed i ≤
      s.closures.length * (1 + L.Res) + ∑ i ∈ Finset.range L.iterations_, s.owed i +
        (1 + L.Res) := by
  unfold State.iterate
  cases L.kind with
  | paraFor =>
    show (s.closures ++ [s.iter]).length * (1 + L.Res) + ∑ i ∈ _, s.owed i ≤ _
    rw [List.length_append, List.length_singleton, Nat.add_mul]
    omega
  | codeletFor =>
    have hsum := sum_update (Finset.mem_range.mpr hi) s.owed (fun m => m) (s.owed s.iter + L.Res)
    show s.closures.length * (1 + L.Res) +
      ∑ i ∈ _, Function.update s.owed s.iter (s.owed s.iter + L.Res) i ≤ _
    omega

/-- A call of `fire()` goes on, with the bodies. -/
theorem left_advance_out {k : Nat} {pc : Pc} (h : Out L s) (hpc : s.firing[k]? = some pc) :
    left L (s.advance L k pc) < left L s := by
  rw [left_out h, left_out (advance_out h hpc).1]
  rcases h.pc with hnil | ⟨i, hi, hw | ⟨hst, hiter⟩⟩
  · rw [hnil] at hpc
    cases hpc
  · obtain ⟨rfl, rfl⟩ := pc_of_single hw hpc
    have hpos : 0 < (L.iterations_ - i) * (3 + L.Res) := Nat.mul_pos (by omega) (by omega)
    simp only [State.advance, hw, List.set_cons_zero, framesLeft]
    omega
  · subst hiter
    obtain ⟨rfl, rfl⟩ := pc_of_single hst hpc
    have hturn : (L.iterations_ - s.iter) * (3 + L.Res) =
        (L.iterations_ - (s.iter + 1)) * (3 + L.Res) + (3 + L.Res) := by
      rw [show L.iterations_ - s.iter = L.iterations_ - (s.iter + 1) + 1 by omega, Nat.add_mul,
        Nat.one_mul]
    have hiterate := left_iterate hi
    simp only [State.advance, hst, List.set_cons_zero, List.eraseIdx_cons_zero]
    split
    next =>
      simp only [framesLeft]
      omega
    next =>
      simp only [framesLeft]
      omega

/-- A body is constructed from its closure. -/
theorem left_begin {k i : Nat} (h : Out L s) (hi : s.closures[k]? = some i) :
    left L (State.begin L { s with closures := s.closures.eraseIdx k } i) < left L s := by
  rw [left_out h, left_out (begin_out h hi)]
  have hin : i < L.iterations_ := by
    have hstarts := h.tally.starts i
    have hcount := List.count_pos_iff.mpr (List.mem_of_getElem? hi)
    have hle := pushed_le h
    by_contra hno
    rw [if_neg (by omega)] at hstarts
    omega
  have hsum := sum_update (Finset.mem_range.mpr hin) s.owed (fun m => m) (s.owed i + L.Res)
  have hlength := (Places.perm_eraseIdx hi).length_eq
  rw [List.length_cons] at hlength
  show framesLeft L s.firing + (s.closures.eraseIdx k).length * (1 + L.Res) +
    ∑ j ∈ _, Function.update s.owed i (s.owed i + L.Res) j + 2 < _
  rw [hlength, Nat.add_mul, Nat.one_mul]
  omega

/-- A body signals. -/
theorem left_signal {i : Nat} (h : Out L s) (hpos : 0 < s.owed i) :
    left L { s.decDep with
      owed := Function.update s.owed i (s.owed i - 1), log := s.log ++ [.signal i] } <
        left L s := by
  rw [left_out h, left_out (signal_out h hpos)]
  have hin := (h.tally.owed_bounds (pushed_le h) hpos).1
  have hsum := sum_update (Finset.mem_range.mpr hin) s.owed (fun m => m) (s.owed i - 1)
  show framesLeft L s.firing + s.closures.length * (1 + L.Res) +
    ∑ j ∈ _, Function.update s.owed i (s.owed i - 1) j + 2 < _
  omega

/-- **The measure.** Every step of the loop and its bodies leaves less to do, and none starts or
activates anything. -/
theorem own_step {l : Label} (hs : Served L) (h : Inv L s) (hl : own L s l = some t) :
    left L t < left L s ∧ t.activations = s.activations := by
  cases l with
  | add | decDep => cases hl
  | fire =>
    obtain ⟨hqueued, ht⟩ := Option.ite_none_right_eq_some.mp hl
    obtain rfl := Option.some.inj ht
    refine ⟨?_, (fire_frame L _).2⟩
    cases h.phase with
    | idle hph => exact absurd hph.queued (by omega)
    | ready hph => exact left_fire_ready hs hph
    | out hph =>
      rw [left_closing (fire_out hph hqueued), left_out hph]
      omega
    | closing hph => exact absurd hph.queued (by omega)
  | advance k =>
    obtain ⟨pc, hpc, rfl⟩ := Option.map_eq_some_iff.mp hl
    refine ⟨?_, advance_activations k pc⟩
    cases h.phase with
    | idle hph =>
      rw [hph.firing] at hpc
      cases hpc
    | ready hph =>
      rw [hph.firing] at hpc
      cases hpc
    | out hph => exact left_advance_out hph hpc
    | closing hph =>
      obtain ⟨rfl, rfl⟩ := pc_of_single hph.firing hpc
      rw [left_closing hph, left, advance_activations, hph.count]
      have hdone : (s.advance L 0 .signal).rounds.length = s.rounds.length + 1 := by
        simp [State.advance, State.toSignal]
      rw [hdone, if_pos rfl]
      exact Nat.one_pos
  | begin k =>
    obtain ⟨i, hi, rfl⟩ := Option.map_eq_some_iff.mp hl
    exact ⟨left_begin (h.out_of_closure hi) hi, rfl⟩
  | signal i =>
    obtain ⟨howed, ht⟩ := Option.ite_none_right_eq_some.mp hl
    obtain rfl := Option.some.inj ht
    exact ⟨left_signal (h.out_of_owed howed) howed, rfl⟩

/-- **No waiting for ever.** With an activation open the loop or one of its bodies can go on. -/
theorem stuck_idle (h : Inv L s) (hstuck : Stuck (own L) s) : Idle L s := by
  have hnofire : s.queued = 0 := by
    by_contra hne
    have hnone := hstuck .fire
    rw [show own L s .fire = _ from if_pos (by omega)] at hnone
    cases hnone
  have hnocall : ∀ k, s.firing[k]? = none := fun k => Option.map_eq_none_iff.mp (hstuck (.advance k))
  cases h.phase with
  | idle hph => exact hph
  | ready hph => exact absurd hph.queued (by omega)
  | closing hph =>
    have hnone := hnocall 0
    rw [hph.firing] at hnone
    cases hnone
  | out hph =>
    -- nothing is left of the round, so the counter is at zero and the loop in a pool
    exfalso
    have hfiring : s.firing = [] := List.eq_nil_iff_forall_not_mem.mpr fun pc hpc => by
      obtain ⟨k, hk⟩ := List.getElem?_of_mem hpc
      rw [hnocall k] at hk
      cases hk
    have hclosures : s.closures = [] := List.eq_nil_iff_forall_not_mem.mpr fun i hi => by
      obtain ⟨k, hk⟩ := List.getElem?_of_mem hi
      have hnone := Option.map_eq_none_iff.mp (hstuck (.begin k))
      rw [hk] at hnone
      cases hnone
    have howed : ∀ i, s.owed i = 0 := by
      intro i
      by_contra hne
      have hnone := hstuck (.signal i)
      rw [show own L s (.signal i) = _ from if_pos (by omega)] at hnone
      cases hnone
    have htally : Tally L s L.iterations_ := by
      have hpushed := hph.tally
      rw [hfiring] at hpushed
      exact hpushed
    have hall : ∀ i ∈ Finset.range L.iterations_, s.log.count (.signal i) = L.Res := by
      intro i hi
      have hstarts := htally.starts i
      have hsignals := htally.signals i
      rw [hclosures, List.count_nil, Nat.add_zero, if_pos (Finset.mem_range.mp hi)] at hstarts
      rw [howed, hstarts] at hsignals
      omega
    have hcounter := htally.counter
    rw [Finset.sum_const_nat hall, Finset.card_range, Nat.mul_comm L.Res] at hcounter
    have hqueued := hph.queued
    rw [if_pos (by omega)] at hqueued
    omega

/-- What is required follows in every state. -/
theorem Inv.exact (hs : Served L) (h : Inv L s) : Exact L s where
  rounds := h.rounds
  begun i := by
    cases h.phase with
    | idle hph => simp [hph.log]
    | ready hph => simp [hph.log]
    | out hph =>
      obtain ⟨hstart, hsignal⟩ := hph.tally.signals_le i
      have hle := pushed_le hph
      refine ⟨hstart.trans ?_, hsignal⟩
      split_ifs <;> omega
    | closing hph =>
      rw [hph.starts i, hph.signals i]
      split_ifs <;> simp
  once := by
    cases h.phase with
    | idle hph => exact Or.inl hph.count
    | ready hph => exact Or.inr hph.count
    | out hph => exact Or.inr hph.count
    | closing hph => exact Or.inr hph.count
  armed hcount :=
    have hph := h.idle hcount
    ⟨hph.rest.fired, hph.counter, hph.queued, hph.firing, hph.log⟩
  ends := by
    refine ⟨left L s, fun ls t hrun => ?_⟩
    obtain ⟨⟨hInv, hact⟩, hle⟩ := run_length_add_le
      (fun u => Inv L u ∧ u.activations = s.activations) (left L)
      (fun u l v hu hl =>
        have hown := own_step hs hu.1 hl
        ⟨⟨step_inv hs hu.1 (own_le hl), hown.2.trans hu.2⟩, hown.1⟩) ⟨h, rfl⟩ hrun
    exact ⟨by omega, fun hstuck => ⟨hact, by rw [← hact, (stuck_idle hInv hstuck).count]⟩⟩

/-! ## Which loops do it -/

/-- Every loop can be activated. -/
theorem exists_ready (L : Loop) : ∃ s, Reachable (step L) (start L) s ∧ Ready L s := by
  have hinit := (inv_start (L := L)).idle rfl
  by_cases hDep : L.Dep = 0
  · have hready : (start L).sync_.ready = true := decide_eq_true hDep
    have hadd : step L (start L) .add = some (if (start L).sync_.ready
        then { start L with queued := 0 + 1, activations := 0 + 1 } else start L) := rfl
    rw [if_pos hready] at hadd
    exact ⟨_, Reachable.start.next hadd, add_idle hinit hready⟩
  · -- signal by signal
    have hsome : ∀ m < L.Dep, ∃ s, Reachable (step L) (start L) s ∧ Idle L s ∧ s.arrived = m := by
      intro m
      induction m with
      | zero => exact fun _ => ⟨_, .start, hinit, rfl⟩
      | succ m ih =>
        intro hm
        obtain ⟨s, hs, hidle, rfl⟩ := ih (by omega)
        refine ⟨{ s.decDep with arrived := s.arrived + 1 }, hs.next (l := .decDep) ?_,
          decDep_more hidle hm, rfl⟩
        show (if _ then _ else _) = _
        rw [if_pos ⟨hidle.count, hDep⟩, if_neg (by omega)]
    obtain ⟨s, hs, hidle, harrived⟩ := hsome (L.Dep - 1) (by omega)
    refine ⟨{ s.decDep with arrived := 0, activations := s.activations + 1 },
      hs.next (l := .decDep) ?_, decDep_last hidle (by omega)⟩
    show (if _ then _ else _) = _
    rw [if_pos ⟨hidle.count, hDep⟩, if_pos (by omega)]

/-- With an activation open and nothing to do for the loop or its bodies, the signal to
`toSignal_` never comes. -/
theorem not_exact_of_stuck (hstuck : Stuck (own L) s) (hopen : s.activations ≠ s.rounds.length) :
    ¬ Exact L s := by
  intro h
  obtain ⟨_, hends⟩ := h.ends
  exact hopen ((hends [] s rfl).2 hstuck).2.symm

/-- **The loops that nobody serves.** A `paraFor` without iterations waits for bodies that it
never pushed; a `codeletFor` without iterations is not set for another activation. -/
theorem not_exact (hs : ¬ Served L) : ∃ s, Reachable (step L) (start L) s ∧ ¬ Exact L s := by
  obtain ⟨hn, hkind⟩ := not_or.mp hs
  have hzero : L.iterations_ = 0 := by omega
  obtain ⟨s, hreach, h⟩ := exists_ready L
  have hfire : Reachable (step L) (start L) (State.fire L { s with queued := s.queued - 1 }) :=
    hreach.next (l := .fire) (if_pos (by rw [h.queued]; exact Nat.one_pos))
  cases hk : L.kind with
  | paraFor =>
    refine ⟨_, hfire, not_exact_of_stuck ?_ ?_⟩
    · have heq : State.fire L { s with queued := s.queued - 1 } =
          { s with
            queued := 0, fired := true
            sync_ := { counter_ := L.Res * L.iterations_, reset_ := L.Res } } := by
        simp [State.fire, State.paraFire, State.fanOut, hk, hzero, h.rest.fired, h.queued, h.firing]
      rw [heq]
      intro l
      cases l with
      | add | decDep => rfl
      | fire => rfl
      | advance j => exact Option.map_eq_none_iff.mpr (by simp [h.firing])
      | begin j => exact Option.map_eq_none_iff.mpr (by simp [h.rest.closures])
      | signal i => exact if_neg (by simp [h.rest.owed i])
    · rw [(fire_frame L _).1, (fire_frame L _).2]
      show s.activations ≠ s.rounds.length
      rw [h.count]
      omega
  | codeletFor =>
    have hDep : L.Dep ≠ 0 := fun hDep => hkind ⟨hk, hDep⟩
    have heq : State.fire L { s with queued := s.queued - 1 } =
        { s with queued := 0, firing := [.signal] } := by
      simp [State.fire, State.codeletFire, hk, hzero, h.queued, h.firing]
    rw [heq] at hfire
    refine ⟨_, hfire.next (l := .advance 0) rfl, fun hexact => ?_⟩
    have hclosed : s.activations = (s.rounds ++ [s.log ++ [Event.toSignal]]).length := by
      rw [h.count, List.length_append, List.length_singleton]
    have hcounter : s.sync_.counter_ + s.arrived = L.Dep := (hexact.armed hclosed).2.1
    rw [h.counter, h.arrived] at hcounter
    exact hDep hcounter.symm

/-- **Fan out and fan in.** In every run of a loop, over any number of activations and with the
bodies in any order, each activation starts each iteration once, gets all signals of its bodies
and then signals `toSignal_` once, which leaves the loop armed for the next one; and this holds
just of the loops with iterations, and of a `codeletFor` that waits for nothing. -/
theorem exact_iff (L : Loop) : (∀ s, Reachable (step L) (start L) s → Exact L s) ↔
    1 ≤ L.iterations_ ∨ L.kind = .codeletFor ∧ L.Dep = 0 := by
  constructor
  · intro h
    by_contra hs
    obtain ⟨s, hreach, hnot⟩ := not_exact hs
    exact hnot (h s hreach)
  · intro hs s hreach
    exact (reachable_inv hs hreach).exact hs

/-- A loop over nothing, activated by one signal. -/
def nothing (kind : Kind) : Loop :=
  { kind := kind, Dep := 1, Res := 1, iterations_ := 0, res_pos := Nat.one_pos, fits := by decide }

/-- A `paraFor` over nothing never signals. -/
theorem paraFor_nothing : ¬ ∀ s, Reachable (step (nothing .paraFor)) (start (nothing .paraFor)) s →
    Exact (nothing .paraFor) s := by
  intro h
  have hrun : run (step (nothing .paraFor)) (start (nothing .paraFor)) [.decDep, .fire] =
      some { start (nothing .paraFor) with
        sync_ := { counter_ := 0, reset_ := 1 }, fired := true, activations := 1 } := rfl
  refine not_exact_of_stuck ?_ ?_ (h _ (.of_run hrun))
  · intro l
    cases l <;> rfl
  · decide

end FanOut

end Darts
