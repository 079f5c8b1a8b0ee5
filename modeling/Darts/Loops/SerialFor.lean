import Darts.Lib.Transition
import Darts.Threading.SyncSlot

/-!
# `serialFor` (`include/threading/loop.h`)

A `serialFor` is one codelet that fires once more than it has iterations: every time
but the last it constructs the next body in the same storage, from the second time on
after destroying the body before. A body signals the loop `Res` times; the signal that
brings the counter to zero makes the loop ready again.

The machine below is one loop inside a threaded procedure, over any number of
activations. A body is what the loop sees of it: how many codelets its constructor
adds, how many of the `Res` signals the constructor already sends, and that the rest
arrives at any time. Each `fire()` is one step. The references that other codelets
hold on the enclosing TP come and go; its deletion is not part of the machine, and its
count grows without the wrap of an `unsigned int`, as in the source while it has fewer
than `2^32` references (`State.makeReady_ref`).

A policy drops the reference of the ready codelet after `fire()` only when the
enclosing TP has a proper parent (`checkParent`). Without one every `fire()` leaves its
reference behind.
-/

namespace Darts

namespace SerialFor

open Transition Word

/-- A `serialFor` and the TP it is in. -/
structure Params where
  Dep : Nat
  Res : Nat
  iterations_ : Nat
  /-- `myTP_->checkParent()`. -/
  checkParent : Bool
  res_pos : 0 < Res

/-- What the constructor of a body does. -/
structure Ctor (Res : Nat) where
  /-- How many codelets it adds to the pool. -/
  added : Nat
  /-- How many signals it sends to the loop itself. -/
  early : Nat
  added_pos : 0 < added
  early_le : early ≤ Res

/-- What happens to the bodies and to `toSignal_`. -/
inductive Event
  | construct (iter : Nat)
  /-- `alloc::destroy(loop_)`, with the body it finds in the storage. -/
  | destroy (iter : Option Nat)
  /-- The `delete` in `LPFactory`. -/
  | delete (iter : Nat)
  /-- `toSignal_->decDep()`. -/
  | toSignal
deriving DecidableEq

structure State where
  sync_ : SyncSlot
  curIterations_ : Nat
  /-- The `iter` of the body in the storage. -/
  loop_ : Option Nat
  /-- Of the enclosing TP. -/
  ref_ : Nat
  /-- How often the loop is in a pool. -/
  queued : Nat
  /-- How many policies are between `fire()` of the loop and what comes after it. -/
  fired : Nat
  /-- Signals that the body in the storage is still to send. -/
  owed : Nat
  /-- References on the enclosing TP that are not the loop's. -/
  others : Nat
  /-- Signals for the next activation so far. -/
  arrived : Nat
  /-- How often the loop has been activated, and how often it has signalled. -/
  activations : Nat
  signalled : Nat
  log : List Event

/-- The steps. -/
inductive Label (Res : Nat)
  /-- `add` of the loop by its TP. -/
  | add
  /-- A signal from outside. -/
  | decDep
  /-- A policy pops the loop and calls `fire()`. -/
  | fire (c : Ctor Res)
  /-- What the policy does after `fire()`. -/
  | finish
  /-- A codelet of the body signals the loop. -/
  | signal
  /-- Another codelet of the enclosing TP becomes ready, or is done. -/
  | hold
  | release

namespace State

/-- The loop is constructed in a TP with `refs` references. -/
def start (p : Params) (refs : Nat) : State :=
  { sync_ := { counter_ := p.Dep, reset_ := p.Res }, curIterations_ := 0, loop_ := none
    ref_ := refs, queued := 0, fired := 0, owed := 0, others := refs, arrived := 0
    activations := 0, signalled := 0, log := [] }

/-- `myTP_->incRef()` and the push into a pool. -/
def makeReady (s : State) : State := { s with ref_ := s.ref_ + 1, queued := s.queued + 1 }

theorem makeReady_ref {s : State} (h : s.ref_ < uintMax) : s.makeReady.ref_ = fetchAdd s.ref_ :=
  (fetchAdd_of_lt h).symm

/-- `Codelet::decDep` of the loop. -/
def decDep (s : State) : State :=
  let s' := { s with sync_ := s.sync_.decCounter.2 }
  if s.sync_.decCounter.1 then s'.makeReady else s'

/-- `k` signals in a row. -/
def decDeps : Nat → State → State
  | 0, s => s
  | k + 1, s => decDeps k s.decDep

/-- `alloc::destroy(loop_)`. The body is its own parent, so its destructor touches no
other count. -/
def destroy (s : State) : State :=
  { s with loop_ := none, log := s.log ++ [.destroy s.loop_] }

/-- `LPFactory` on the storage of the loop. The body's `ref_` is 1 and one for each codelet
it has added when the factory does its `decRef`. -/
def factory (s : State) (iter : Nat) {Res : Nat} (c : Ctor Res) : State :=
  let s := decDeps c.early
    { s with loop_ := some iter, owed := Res - c.early, log := s.log ++ [.construct iter] }
  if 1 + c.added = 1 then { s with loop_ := none, log := s.log ++ [.delete iter] } else s

/-- `serialFor::fire`. -/
def fire (p : Params) (s : State) (c : Ctor p.Res) : State :=
  if s.curIterations_ < p.iterations_ then
    let s := if s.curIterations_ = 0 then { s with ref_ := s.ref_ + 1 } else s.destroy
    let iter := s.curIterations_
    { s with curIterations_ := iter + 1, sync_ := s.sync_.resetCounter }.factory iter c
  else if s.curIterations_ = p.iterations_ then
    let s := if p.iterations_ ≠ 0 then { s.destroy with ref_ := fetchSub s.ref_ } else s
    { s with
      curIterations_ := 0, sync_ := { counter_ := p.Dep, reset_ := p.Res }
      signalled := s.signalled + 1, log := s.log ++ [.toSignal] }
  else s

end State

/-- The steps of the loop, its bodies and the outside. The outside activates the loop by
`Dep` signals, by `add` when there are none to wait for, and again only after
`toSignal_` has been signalled. -/
def step (p : Params) (s : State) : Label p.Res → Option State
  | .add =>
    if s.activations = s.signalled then
      some (if s.sync_.ready then { s.makeReady with activations := s.activations + 1 } else s)
    else none
  | .decDep =>
    if s.activations = s.signalled ∧ p.Dep ≠ 0 then
      some (if s.arrived + 1 = p.Dep
        then { s.decDep with arrived := 0, activations := s.activations + 1 }
        else { s.decDep with arrived := s.arrived + 1 })
    else none
  | .fire c =>
    if 0 < s.queued then
      some { State.fire p { s with queued := s.queued - 1 } c with fired := s.fired + 1 }
    else none
  | .finish =>
    if 0 < s.fired then
      some { s with
        fired := s.fired - 1, ref_ := if p.checkParent then fetchSub s.ref_ else s.ref_ }
    else none
  | .signal => if 0 < s.owed then some { s.decDep with owed := s.owed - 1 } else none
  | .hold => some { s with others := s.others + 1, ref_ := s.ref_ + 1 }
  | .release =>
    if 0 < s.others then some { s with others := s.others - 1, ref_ := fetchSub s.ref_ } else none

/-! ## What one activation leaves in the log -/

/-- The first `k` bodies, one after the other. -/
def bodies (k : Nat) : List Event :=
  (List.range k).flatMap fun i => [.construct i, .destroy (some i)]

/-- One activation: the bodies in order, then the signal. -/
def activation (n : Nat) : List Event := bodies n ++ [.toSignal]

/-- `k` activations. -/
def rounds (n k : Nat) : List Event := (List.replicate k (activation n)).flatten

/-- What there is of an activation when `curIterations_` is `cur`. -/
def begun : Nat → List Event
  | 0 => []
  | cur + 1 => bodies cur ++ [.construct cur]

theorem bodies_succ (k : Nat) : bodies (k + 1) = bodies k ++ [.construct k, .destroy (some k)] := by
  unfold bodies
  rw [List.range_succ, List.flatMap_append, List.flatMap_singleton]

theorem rounds_succ (n k : Nat) : rounds n (k + 1) = rounds n k ++ activation n := by
  unfold rounds
  rw [List.replicate_succ', List.flatten_append, List.flatten_singleton]

theorem begun_destroy (cur : Nat) :
    begun (cur + 1) ++ [.destroy (some cur)] = bodies (cur + 1) := by
  rw [bodies_succ]
  simp [begun]

theorem bodies_mono {k n : Nat} (h : k ≤ n) : bodies k <+: bodies n := by
  induction h with
  | refl => exact List.prefix_rfl
  | step _ ih => rw [bodies_succ]; exact ih.trans (List.prefix_append _ _)

theorem begun_prefix {cur n : Nat} (h : cur ≤ n) : begun cur <+: activation n := by
  cases cur with
  | zero => exact List.nil_prefix
  | succ cur =>
    have hsucc : begun (cur + 1) <+: bodies (cur + 1) := ⟨_, begun_destroy cur⟩
    exact (hsucc.trans (bodies_mono h)).trans (List.prefix_append _ _)

/-! ## What the operations do -/

namespace State

theorem decDep_eq {s : State} (h : s.sync_.counter_ ≠ 0) : s.decDep =
    { s with
      sync_ := { s.sync_ with counter_ := s.sync_.counter_ - 1 }
      ref_ := s.ref_ + if s.sync_.counter_ = 1 then 1 else 0
      queued := s.queued + if s.sync_.counter_ = 1 then 1 else 0 } := by
  unfold decDep SyncSlot.decCounter makeReady
  rw [fetchSub_of_pos h]
  by_cases hone : s.sync_.counter_ = 1 <;> simp [hone]

/-- Signals that do not exceed the counter: the last one makes the loop ready. -/
theorem decDeps_eq {k : Nat} {s : State} (h : k ≤ s.sync_.counter_) (hs : s.sync_.counter_ ≠ 0) :
    decDeps k s =
    { s with
      sync_ := { s.sync_ with counter_ := s.sync_.counter_ - k }
      ref_ := s.ref_ + if s.sync_.counter_ = k then 1 else 0
      queued := s.queued + if s.sync_.counter_ = k then 1 else 0 } := by
  induction k generalizing s with
  | zero => simp [decDeps, hs]
  | succ k ih =>
    unfold decDeps
    rw [decDep_eq hs]
    by_cases hone : s.sync_.counter_ = 1
    · -- the counter is at zero, so this was the last of them
      obtain rfl : k = 0 := by omega
      simp [decDeps, hone]
    · rw [ih (by simp; omega) (by simp; omega)]
      have hk : s.sync_.counter_ - 1 = k ↔ s.sync_.counter_ = k + 1 := by omega
      simp [hone, hk, Nat.sub_sub, Nat.add_comm 1 k]

/-- A body that adds a codelet survives its factory. -/
theorem factory_eq {s : State} {iter Res : Nat} {c : Ctor Res} (hs : s.sync_.counter_ = Res)
    (hRes : 0 < Res) : s.factory iter c =
    { s with
      sync_ := { s.sync_ with counter_ := Res - c.early }
      ref_ := s.ref_ + if Res - c.early = 0 then 1 else 0
      queued := s.queued + if Res - c.early = 0 then 1 else 0
      loop_ := some iter, owed := Res - c.early, log := s.log ++ [.construct iter] } := by
  have hadded := c.added_pos
  have hearly := c.early_le
  have hlast : Res = c.early ↔ Res - c.early = 0 := by omega
  unfold factory
  rw [if_neg (by omega), decDeps_eq (by simp; omega) (by simp; omega)]
  simp [hs, hlast]

end State

/-! ## The invariant -/

variable {p : Params}

/-- Between two activations. -/
structure Idle (p : Params) (s : State) : Prop where
  cur : s.curIterations_ = 0
  loop_ : s.loop_ = none
  counter : s.sync_.counter_ + s.arrived = p.Dep
  reset : s.sync_.reset_ = p.Res
  arrived : s.arrived < p.Dep ∨ s.arrived = 0
  queued : s.queued = 0
  owed : s.owed = 0
  count : s.activations = s.signalled
  log : s.log = rounds p.iterations_ s.signalled

/-- During an activation: the loop is ready exactly when the body owes nothing. -/
structure Active (p : Params) (s : State) : Prop where
  cur : s.curIterations_ ≤ p.iterations_
  loop_ : s.loop_ = if s.curIterations_ = 0 then none else some (s.curIterations_ - 1)
  counter : s.sync_.counter_ = s.owed
  reset : s.sync_.reset_ = p.Res
  arrived : s.arrived = 0
  queued : s.queued = if s.owed = 0 then 1 else 0
  owed : s.curIterations_ = 0 → s.owed = 0
  count : s.activations = s.signalled + 1
  log : s.log = rounds p.iterations_ s.signalled ++ begun s.curIterations_

/-- Who holds the references on the enclosing TP: the others, the loop while it is ready,
its guard during the iterations, and what the policies have still to drop, or never drop. -/
def Refs (p : Params) (s : State) : Prop :=
  s.ref_ = s.others + s.queued + (if s.curIterations_ = 0 then 0 else 1) +
    if p.checkParent then s.fired else (p.iterations_ + 1) * s.signalled + s.curIterations_

structure Inv (p : Params) (s : State) : Prop where
  phase : Idle p s ∨ Active p s
  refs : Refs p s

theorem inv_start (refs : Nat) : Inv p (State.start p refs) where
  phase := Or.inl
    { cur := rfl, loop_ := rfl, counter := rfl, reset := rfl, arrived := Or.inr rfl, queued := rfl
      owed := rfl, count := rfl, log := rfl }
  refs := by simp [Refs, State.start]

/-- The loop is ready, so its body owes nothing, and it is ready once. -/
theorem Active.ready {s : State} (h : Active p s) (hq : 0 < s.queued) :
    s.owed = 0 ∧ s.queued = 1 := by
  have howed : s.owed = 0 := by
    have := h.queued
    split at this <;> omega
  exact ⟨howed, by rw [h.queued, if_pos howed]⟩

/-- `fire()` with a body to come. -/
theorem fire_next_eq {s : State} (c : Ctor p.Res) (h : Active p s) (hq : 0 < s.queued)
    (hlt : s.curIterations_ < p.iterations_) : State.fire p { s with queued := s.queued - 1 } c =
    { s with
      sync_ := { counter_ := p.Res - c.early, reset_ := p.Res }
      curIterations_ := s.curIterations_ + 1, loop_ := some s.curIterations_
      ref_ := s.ref_ + (if s.curIterations_ = 0 then 1 else 0) +
        if p.Res - c.early = 0 then 1 else 0
      queued := if p.Res - c.early = 0 then 1 else 0
      owed := p.Res - c.early
      log := rounds p.iterations_ s.signalled ++ begun (s.curIterations_ + 1) } := by
  obtain ⟨-, hqueued⟩ := h.ready hq
  unfold State.fire
  rw [if_pos hlt]
  by_cases hcur : s.curIterations_ = 0
  · -- the first iteration takes the guard reference
    simp only [hcur, if_true]
    rw [State.factory_eq (by simp [SyncSlot.resetCounter, h.reset]) p.res_pos]
    simp [hqueued, h.log, h.reset, hcur, begun, bodies, SyncSlot.resetCounter]
  · -- the others destroy the body before
    obtain ⟨k, hk⟩ := Nat.exists_eq_succ_of_ne_zero hcur
    simp only [hcur, if_false]
    rw [State.factory_eq (by simp [State.destroy, SyncSlot.resetCounter, h.reset]) p.res_pos]
    have hloop : s.loop_ = some k := by rw [h.loop_, if_neg hcur, hk]; rfl
    have hlog : begun (k + 1) ++ [.destroy (some k)] = bodies (k + 1) := begun_destroy k
    simp [State.destroy, hqueued, h.log, h.reset, hloop, hk, begun, SyncSlot.resetCounter,
      ← hlog, List.append_assoc]

/-- `fire()` when all bodies are done. -/
theorem fire_last_eq {s : State} (c : Ctor p.Res) (h : Active p s) (hr : Refs p s)
    (hq : 0 < s.queued) (heq : s.curIterations_ = p.iterations_) :
    State.fire p { s with queued := s.queued - 1 } c =
    { s with
      sync_ := { counter_ := p.Dep, reset_ := p.Res }
      curIterations_ := 0, loop_ := none
      ref_ := s.ref_ - (if s.curIterations_ = 0 then 0 else 1), queued := 0
      signalled := s.signalled + 1, log := rounds p.iterations_ (s.signalled + 1) } := by
  obtain ⟨-, hqueued⟩ := h.ready hq
  have href : s.ref_ ≠ 0 := by unfold Refs at hr; omega
  unfold State.fire
  rw [if_neg (by simp [heq]), if_pos (by simpa using heq), rounds_succ]
  by_cases hn : p.iterations_ = 0
  · have hloop : s.loop_ = none := by rw [h.loop_, if_pos (heq.trans hn)]
    simp [hn, hqueued, h.log, hloop, heq, activation, bodies, begun]
  · obtain ⟨k, hk⟩ := Nat.exists_eq_succ_of_ne_zero hn
    have hloop : s.loop_ = some k := by rw [h.loop_, if_neg (heq ▸ hn), heq, hk]; rfl
    have hlog : begun (k + 1) ++ [.destroy (some k)] = bodies (k + 1) := begun_destroy k
    simp [State.destroy, hqueued, h.log, hloop, heq, hk, activation, ← hlog, fetchSub_of_pos href]

/-- An active loop constructs its next body. -/
theorem fire_next {s : State} {c : Ctor p.Res} (h : Active p s) (hr : Refs p s)
    (hq : 0 < s.queued) (hlt : s.curIterations_ < p.iterations_) :
    Active p { State.fire p { s with queued := s.queued - 1 } c with fired := s.fired + 1 } ∧
    Refs p { State.fire p { s with queued := s.queued - 1 } c with fired := s.fired + 1 } := by
  rw [fire_next_eq c h hq hlt]
  refine ⟨{ cur := hlt, loop_ := by simp, counter := rfl, reset := rfl, arrived := h.arrived
            queued := rfl, owed := by simp, count := h.count, log := rfl }, ?_⟩
  unfold Refs at hr ⊢
  simp only [hr, (h.ready hq).2]
  by_cases hcur : s.curIterations_ = 0 <;> cases p.checkParent <;> simp [hcur] <;> omega

/-- An active loop whose bodies are all done goes back to where it started. -/
theorem fire_last {s : State} {c : Ctor p.Res} (h : Active p s) (hr : Refs p s)
    (hq : 0 < s.queued) (heq : s.curIterations_ = p.iterations_) :
    Idle p { State.fire p { s with queued := s.queued - 1 } c with fired := s.fired + 1 } ∧
    Refs p { State.fire p { s with queued := s.queued - 1 } c with fired := s.fired + 1 } := by
  rw [fire_last_eq c h hr hq heq]
  refine ⟨{ cur := rfl, loop_ := rfl, counter := by simp [h.arrived], reset := rfl
            arrived := Or.inr h.arrived, queued := rfl, owed := (h.ready hq).1, count := h.count
            log := rfl }, ?_⟩
  unfold Refs at hr ⊢
  simp only [hr, (h.ready hq).2, heq]
  by_cases hn : p.iterations_ = 0 <;> cases p.checkParent <;>
    simp [hn, Nat.mul_succ, Nat.add_mul] <;> omega

/-- The loop is ready only during an activation. -/
theorem Inv.active {s : State} (h : Inv p s) (hq : 0 < s.queued) : Active p s := by
  rcases h.phase with hidle | hact
  · exact absurd hidle.queued (by omega)
  · exact hact

/-- Only an active loop has a body that owes signals. -/
theorem Inv.active_of_owed {s : State} (h : Inv p s) (ho : 0 < s.owed) : Active p s := by
  rcases h.phase with hidle | hact
  · exact absurd hidle.owed (by omega)
  · exact hact

/-- The outside signals or adds the loop only between activations. -/
theorem Inv.idle {s : State} (h : Inv p s) (hc : s.activations = s.signalled) : Idle p s := by
  rcases h.phase with hidle | hact
  · exact hidle
  · exact absurd hact.count (by omega)

/-- A loop that gets its last signal from outside is ready for its first body. -/
theorem Idle.activate {s : State} (h : Idle p s) (hr : Refs p s) :
    Active p { s with
      sync_ := { s.sync_ with counter_ := 0 }, ref_ := s.ref_ + 1, queued := s.queued + 1
      arrived := 0, activations := s.activations + 1 } ∧
    Refs p { s with
      sync_ := { s.sync_ with counter_ := 0 }, ref_ := s.ref_ + 1, queued := s.queued + 1
      arrived := 0, activations := s.activations + 1 } := by
  refine ⟨{ cur := by simp [h.cur], loop_ := by simp [h.cur, h.loop_], counter := h.owed.symm
            reset := h.reset, arrived := rfl, queued := by simp [h.queued, h.owed]
            owed := fun _ => h.owed, count := by simp [h.count]
            log := by simp [h.cur, h.log, begun] }, ?_⟩
  unfold Refs at hr ⊢
  simp only [hr]
  omega

theorem step_inv {s t : State} {l : Label p.Res} (h : Inv p s) (hl : step p s l = some t) :
    Inv p t := by
  have hr := h.refs
  cases l with
  | add =>
    simp only [step, Option.ite_none_right_eq_some, Option.some.injEq] at hl
    obtain ⟨hc, rfl⟩ := hl
    have hidle := h.idle hc
    split
    next hready =>
      have hzero : s.sync_.counter_ = 0 := by simpa [SyncSlot.ready] using hready
      have hsync : s.sync_ = { s.sync_ with counter_ := 0 } := by rw [← hzero]
      have harr : s.arrived = 0 := by
        have h1 := hidle.counter
        have h2 := hidle.arrived
        omega
      obtain ⟨hact, hrefs⟩ := hidle.activate hr
      rw [← hsync, ← harr] at hact hrefs
      exact ⟨Or.inr hact, hrefs⟩
    next => exact h
  | decDep =>
    simp only [step, Option.ite_none_right_eq_some, Option.some.injEq] at hl
    obtain ⟨⟨hc, hDep⟩, rfl⟩ := hl
    have hidle := h.idle hc
    have hcount := hidle.counter
    have harr := hidle.arrived
    rw [State.decDep_eq (by omega)]
    split
    next hlast =>
      have hone : s.sync_.counter_ = 1 := by omega
      obtain ⟨hact, hrefs⟩ := hidle.activate hr
      simp only [hone, if_true]
      exact ⟨Or.inr hact, hrefs⟩
    next hmore =>
      have hone : s.sync_.counter_ ≠ 1 := by omega
      simp only [hone, if_false]
      refine ⟨Or.inl { hidle with counter := ?_, arrived := Or.inl ?_ }, hr⟩
      · simp only
        omega
      · simp only
        omega
  | fire c =>
    simp only [step, Option.ite_none_right_eq_some, Option.some.injEq] at hl
    obtain ⟨hq, rfl⟩ := hl
    have hact := h.active hq
    rcases hact.cur.lt_or_eq with hlt | heq
    · obtain ⟨hact', hrefs⟩ := fire_next (c := c) hact hr hq hlt
      exact ⟨Or.inr hact', hrefs⟩
    · obtain ⟨hidle, hrefs⟩ := fire_last (c := c) hact hr hq heq
      exact ⟨Or.inl hidle, hrefs⟩
  | finish =>
    simp only [step, Option.ite_none_right_eq_some, Option.some.injEq] at hl
    obtain ⟨hf, rfl⟩ := hl
    refine ⟨h.phase.imp (fun hidle => { hidle with }) (fun hact => { hact with }), ?_⟩
    unfold Refs at hr ⊢
    cases hcp : p.checkParent with
    | false => simpa [hcp] using hr
    | true =>
      simp only [hcp, if_true] at hr ⊢
      rw [fetchSub_of_pos (by omega)]
      omega
  | signal =>
    simp only [step, Option.ite_none_right_eq_some, Option.some.injEq] at hl
    obtain ⟨ho, rfl⟩ := hl
    have hact := h.active_of_owed ho
    have hcur : s.curIterations_ ≠ 0 := fun h0 => absurd (hact.owed h0) (by omega)
    have hqueued : s.queued = 0 := by rw [hact.queued, if_neg (by omega)]
    have hone : s.sync_.counter_ = 1 ↔ s.owed - 1 = 0 := by
      rw [hact.counter]
      omega
    rw [State.decDep_eq (by rw [hact.counter]; omega)]
    refine ⟨Or.inr { hact with counter := ?_, queued := ?_, owed := fun h0 => absurd h0 hcur }, ?_⟩
    · simp [hact.counter]
    · simp [hqueued, hone]
    · unfold Refs at hr ⊢
      simp only [hr]
      omega
  | hold =>
    obtain rfl := Option.some.inj hl
    refine ⟨h.phase.imp (fun hidle => { hidle with }) (fun hact => { hact with }), ?_⟩
    unfold Refs at hr ⊢
    simp only [hr]
    omega
  | release =>
    simp only [step, Option.ite_none_right_eq_some, Option.some.injEq] at hl
    obtain ⟨ho, rfl⟩ := hl
    refine ⟨h.phase.imp (fun hidle => { hidle with }) (fun hact => { hact with }), ?_⟩
    unfold Refs at hr ⊢
    rw [fetchSub_of_pos (by omega)]
    simp only [hr]
    omega

theorem reachable_inv {refs : Nat} {s : State} (h : Reachable (step p) (State.start p refs) s) :
    Inv p s :=
  h.invariant (Inv p) (inv_start refs) fun _ _ _ _ hi hl => step_inv hi hl

/-! ## Every activation comes to its end -/

/-- The steps of the loop and of its bodies. -/
def own (p : Params) (s : State) (l : Label p.Res) : Option State :=
  match l with
  | .fire _ | .finish | .signal => step p s l
  | _ => none

/-- How many of them are left in the activation, at most. -/
def left (p : Params) (s : State) : Nat :=
  s.fired + s.owed + (s.activations - s.signalled) *
    (2 * (p.iterations_ + 1 - s.curIterations_) + p.Res * (p.iterations_ - s.curIterations_))

theorem own_step {s t : State} {l : Label p.Res} (h : own p s l = some t) : step p s l = some t := by
  cases l <;> first | exact h | exact absurd h (by simp [own])

theorem own_left {s t : State} {l : Label p.Res} (hi : Inv p s) (h : own p s l = some t) :
    left p t < left p s := by
  unfold own at h
  cases l with
  | add | decDep | hold | release => exact absurd h (by simp)
  | fire c =>
    simp only [step, Option.ite_none_right_eq_some, Option.some.injEq] at h
    obtain ⟨hq, rfl⟩ := h
    have hact := hi.active hq
    obtain ⟨howed, -⟩ := hact.ready hq
    have hone : s.activations - s.signalled = 1 := by have := hact.count; omega
    rcases hact.cur.lt_or_eq with hlt | heq
    · rw [fire_next_eq c hact hq hlt]
      -- the signals of this body are no longer those of a later one
      have hsig : p.Res * (p.iterations_ - s.curIterations_) =
          p.Res * (p.iterations_ - (s.curIterations_ + 1)) + p.Res := by
        rw [← Nat.mul_succ]
        congr 1
        omega
      simp only [left, hone, Nat.one_mul, hsig, howed]
      omega
    · rw [fire_last_eq c hact hi.refs hq heq]
      have hzero : s.activations - (s.signalled + 1) = 0 := by omega
      simp only [left, hone, hzero, Nat.zero_mul, Nat.one_mul, howed, heq]
      omega
  | finish =>
    simp only [step, Option.ite_none_right_eq_some, Option.some.injEq] at h
    obtain ⟨hf, rfl⟩ := h
    simp only [left]
    omega
  | signal =>
    simp only [step, Option.ite_none_right_eq_some, Option.some.injEq] at h
    obtain ⟨ho, rfl⟩ := h
    have hcounter := (hi.active_of_owed ho).counter
    rw [State.decDep_eq (by omega)]
    simp only [left]
    omega

/-- A loop whose own steps are all done is at rest. -/
theorem rest_of_stuck {s : State} (h : Inv p s) (hs : Stuck (own p) s) :
    Idle p s ∧ s.fired = 0 := by
  have hfired : s.fired = 0 := by
    by_contra hne
    exact absurd (hs .finish) (by simp [own, step, Nat.pos_of_ne_zero hne])
  refine ⟨h.phase.resolve_right fun hact => ?_, hfired⟩
  by_cases ho : s.owed = 0
  · have hqueued : s.queued = 1 := by rw [hact.queued, if_pos ho]
    let c : Ctor p.Res :=
      { added := 1, early := 0, added_pos := Nat.one_pos, early_le := Nat.zero_le _ }
    exact absurd (hs (.fire c)) (by simp [own, step, hqueued])
  · exact absurd (hs .signal) (by simp [own, step, Nat.pos_of_ne_zero ho])

/-- What the loop is for, in a state of a run that started with `refs` references. -/
structure Exact (p : Params) (s : State) : Prop where
  /-- The log is one activation for each signal to `toSignal_`, and a part of the next one
  only while that is going on. -/
  order : ∃ rest, rest <+: activation p.iterations_ ∧
    s.log = rounds p.iterations_ s.signalled ++ rest ∧
    (s.activations = s.signalled → rest = [])
  /-- At most one activation is without its signal. -/
  once : s.activations = s.signalled ∨ s.activations = s.signalled + 1
  /-- Between activations the loop is as it was constructed, up to signals already here. -/
  reusable : s.activations = s.signalled → s.curIterations_ = 0 ∧ s.loop_ = none ∧ s.queued = 0 ∧
    s.sync_ = { counter_ := p.Dep - s.arrived, reset_ := p.Res }
  /-- Then the references on the enclosing TP are the others', and when it has no proper
  parent also one for every `fire()`. -/
  refs : s.activations = s.signalled → s.fired = 0 →
    s.ref_ = s.others + if p.checkParent then 0 else (p.iterations_ + 1) * s.signalled
  /-- The loop and its bodies can always go on to the end of the activation, and do so in
  finitely many steps. -/
  ends : ∀ ls t, run (own p) s ls = some t → ls.length ≤ left p s ∧
    (Stuck (own p) t → t.activations = s.activations ∧ t.signalled = s.activations ∧ t.fired = 0)

/-- The loop's own steps do not begin activations. -/
theorem own_activations {s t : State} {l : Label p.Res} (hi : Inv p s) (h : own p s l = some t) :
    t.activations = s.activations := by
  unfold own at h
  cases l with
  | add | decDep | hold | release => exact absurd h (by simp)
  | fire c =>
    simp only [step, Option.ite_none_right_eq_some, Option.some.injEq] at h
    obtain ⟨hq, rfl⟩ := h
    have hact := hi.active hq
    rcases hact.cur.lt_or_eq with hlt | heq
    · rw [fire_next_eq c hact hq hlt]
    · rw [fire_last_eq c hact hi.refs hq heq]
  | finish =>
    simp only [step, Option.ite_none_right_eq_some, Option.some.injEq] at h
    obtain ⟨-, rfl⟩ := h
    rfl
  | signal =>
    simp only [step, Option.ite_none_right_eq_some, Option.some.injEq] at h
    obtain ⟨ho, rfl⟩ := h
    have hcounter := (hi.active_of_owed ho).counter
    rw [State.decDep_eq (by omega)]

/-- A `serialFor` runs its bodies one after the other, signals once for each activation
and can be activated again, however often. -/
theorem serialFor_exact (p : Params) (refs : Nat) (s : State)
    (h : Reachable (step p) (State.start p refs) s) : Exact p s := by
  have hi := reachable_inv h
  refine { order := ?_, once := ?_, reusable := ?_, refs := ?_, ends := ?_ }
  · rcases hi.phase with hidle | hact
    · exact ⟨[], List.nil_prefix, by rw [hidle.log, List.append_nil], fun _ => rfl⟩
    · refine ⟨begun s.curIterations_, begun_prefix hact.cur, hact.log, fun hc => ?_⟩
      exact absurd hact.count (by omega)
  · exact hi.phase.imp Idle.count Active.count
  · intro hc
    have hidle := hi.idle hc
    have hcounter : s.sync_.counter_ = p.Dep - s.arrived := by have := hidle.counter; omega
    exact ⟨hidle.cur, hidle.loop_, hidle.queued, by rw [← hcounter, ← hidle.reset]⟩
  · intro hc hfired
    have hidle := hi.idle hc
    have hrefs := hi.refs
    unfold Refs at hrefs
    simpa [hidle.queued, hidle.cur, hfired] using hrefs
  · intro ls t hrun
    have hmain := run_length_add_le (fun u => Inv p u ∧ u.activations = s.activations) (left p)
      (fun u l v ⟨hu, hc⟩ hl => ⟨⟨step_inv hu (own_step hl), (own_activations hu hl).trans hc⟩,
        own_left hu hl⟩) ⟨hi, rfl⟩ hrun
    refine ⟨by have := hmain.2; omega, fun hstuck => ?_⟩
    obtain ⟨hidle, hfired⟩ := rest_of_stuck hmain.1.1 hstuck
    exact ⟨hmain.1.2, hidle.count ▸ hmain.1.2, hfired⟩

/-- Two iterations, activated by one signal. -/
def twice (checkParent : Bool) : Params :=
  { Dep := 1, Res := 1, iterations_ := 2, checkParent, res_pos := by decide }

/-- A body with one codelet that sends the signal. -/
def plain : Ctor 1 := { added := 1, early := 0, added_pos := by decide, early_le := by decide }

/-- One activation of it. -/
def twiceRun : List (Label 1) :=
  [.decDep, .fire plain, .finish, .signal, .fire plain, .finish, .signal, .fire plain, .finish]

theorem serialFor_exact_twice : ∃ s, s.signalled = 1 ∧ s.ref_ = 1 ∧ Exact (twice true) s :=
  ⟨_, rfl, rfl, serialFor_exact (twice true) 1 _
    (.of_run (show run (step (twice true)) (State.start (twice true) 1) twiceRun = some _
      from rfl))⟩

/-- In a TP without a proper parent each of the three `fire()`s leaves a reference. -/
theorem refs_left_behind :
    ∃ s, run (step (twice false)) (State.start (twice false) 1) twiceRun = some s ∧
      s.activations = 1 ∧ s.signalled = 1 ∧ s.queued = 0 ∧ s.fired = 0 ∧
      s.others = 1 ∧ s.ref_ = 4 :=
  ⟨_, rfl, rfl, rfl, rfl, rfl, rfl, rfl⟩

end SerialFor

end Darts
