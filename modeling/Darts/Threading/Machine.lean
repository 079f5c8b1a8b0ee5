import Mathlib.Logic.Function.Basic
import Darts.Lib.Transition
import Darts.Threading.SyncSlot

/-!
# Codelets fired under every interleaving

A codelet's `fire()` is a list of operations: `decDep` on some codelet,
`resetCodelet` on itself, or an action on the frame of the threaded procedure
(a copy loop, a queue operation, a test of a loop condition). A `Program` gives
the body of every codelet and the meaning of every action; an action may be
disabled (the busy-wait of a codelet that polls an empty queue) and may unfold
into further operations (a branch or a loop test).

`Program.step` interleaves everything: any scheduled codelet may start firing
at any time, any firing in progress may execute its next operation, and a
codelet that was scheduled again while an earlier firing of it is still running
simply has two firings in progress (`rest k 0`, `rest k 1`, ...). No scheduler
is modelled here; a scheduler can only leave out some of these interleavings.

`Codelet::decDep` (`src/threading/Codelet.cpp`) decrements, and if the old value
was 1 schedules the codelet. Its `incRef` on the threaded procedure is modelled
with the reference counts, not here.
-/

namespace Darts

/-- One operation of a `fire()` body. -/
inductive Op (K A : Type)
  | decDep (k : K)
  | resetCodelet (k : K)
  | act (a : A)
deriving DecidableEq

/-- The action a list of operations starts with. -/
def Op.headAct {K A : Type} : List (Op K A) → Option A
  | .act a :: _ => some a
  | _ => none

/-- The bodies of the codelets, and what an action does to the frame: the new
frame and the operations it unfolds into, or `none` while it has to wait. -/
structure Program (K A M : Type) where
  fire : K → List (Op K A)
  exec : A → M → Option (M × List (Op K A))

/-- A threaded procedure in flight. -/
structure State (K A M : Type) where
  /-- `sync_` of every codelet. -/
  sync : K → SyncSlot
  /-- How often a codelet is scheduled and not yet started. -/
  pool : K → Nat
  /-- How many firings of a codelet have started. -/
  fired : K → Nat
  /-- What is left of the `j`-th firing. -/
  rest : K → Nat → List (Op K A)
  /-- The frame. -/
  mem : M

/-- A step: start a scheduled codelet, or let one firing do its next operation. -/
inductive Label (K : Type)
  | fire (k : K)
  | op (k : K) (j : Nat)
deriving DecidableEq

/-- The codelet a step belongs to. -/
def Label.cod {K : Type} : Label K → K
  | .fire k => k
  | .op k _ => k

variable {K A M : Type}

namespace State

/-- The state right after the constructor: nothing has fired. -/
def start (slot : K → SyncSlot) (pool : K → Nat) (mem : M) : State K A M :=
  { sync := slot, pool := pool, fired := fun _ => 0, rest := fun _ _ => [], mem := mem }

@[simp] theorem start_pool (slot : K → SyncSlot) (pool : K → Nat) (mem : M) :
    (start slot pool mem : State K A M).pool = pool := rfl
@[simp] theorem start_fired (k : K) (slot : K → SyncSlot) (pool : K → Nat) (mem : M) :
    (start slot pool mem : State K A M).fired k = 0 := rfl
@[simp] theorem start_rest (k : K) (j : Nat) (slot : K → SyncSlot) (pool : K → Nat) (mem : M) :
    (start slot pool mem : State K A M).rest k j = [] := rfl
@[simp] theorem start_sync (slot : K → SyncSlot) (pool : K → Nat) (mem : M) :
    (start slot pool mem : State K A M).sync = slot := rfl
@[simp] theorem start_mem (slot : K → SyncSlot) (pool : K → Nat) (mem : M) :
    (start slot pool mem : State K A M).mem = mem := rfl

/-- The action a step is about to execute, if it is one. -/
def nextAct (s : State K A M) : Label K → Option A
  | .fire _ => none
  | .op k j => Op.headAct (s.rest k j)

/-- A step that executes `a` belongs to a firing with `a` at its head. -/
theorem nextAct_eq_some {s : State K A M} {l : Label K} {a : A} (h : s.nextAct l = some a) :
    ∃ k j os, l = .op k j ∧ s.rest k j = .act a :: os := by
  cases l with
  | fire k => simp [nextAct] at h
  | op k j =>
    simp only [nextAct, Op.headAct] at h
    split at h
    next os hrest =>
      obtain rfl := Option.some.inj h
      exact ⟨k, j, os, rfl, hrest⟩
    next => simp at h

variable [DecidableEq K]

/-- Replace what is left of the `j`-th firing of `k`. -/
def setRest (s : State K A M) (k : K) (j : Nat) (os : List (Op K A)) : State K A M :=
  { s with rest := Function.update s.rest k (Function.update (s.rest k) j os) }

/-- A scheduler takes `k` from the pool and starts its body. -/
def begin (s : State K A M) (k : K) (body : List (Op K A)) : State K A M :=
  { s.setRest k (s.fired k) body with
    pool := Function.update s.pool k (s.pool k - 1)
    fired := Function.update s.fired k (s.fired k + 1) }

/-- `Codelet::decDep`. -/
def decDep (s : State K A M) (k : K) : State K A M :=
  { s with
    sync := Function.update s.sync k (s.sync k).decCounter.2
    pool := if (s.sync k).decCounter.1 then Function.update s.pool k (s.pool k + 1) else s.pool }

/-- `Codelet::resetCodelet`. -/
def resetCodelet (s : State K A M) (k : K) : State K A M :=
  { s with sync := Function.update s.sync k (s.sync k).resetCounter }

section Fields

variable (s : State K A M) (k k' : K) (j j' : Nat) (os : List (Op K A))

@[simp] theorem setRest_sync : (s.setRest k j os).sync = s.sync := rfl
@[simp] theorem setRest_pool : (s.setRest k j os).pool = s.pool := rfl
@[simp] theorem setRest_fired : (s.setRest k j os).fired = s.fired := rfl
@[simp] theorem setRest_mem : (s.setRest k j os).mem = s.mem := rfl

theorem setRest_rest :
    (s.setRest k j os).rest k' j' = if k' = k ∧ j' = j then os else s.rest k' j' := by
  simp only [setRest]
  by_cases hk : k' = k
  · subst hk
    by_cases hj : j' = j
    · subst hj; simp
    · simp [hj]
  · simp [hk]

@[simp] theorem setRest_rest_self : (s.setRest k j os).rest k j = os := by
  simp [setRest_rest]

theorem setRest_rest_ne (h : ¬(k' = k ∧ j' = j)) :
    (s.setRest k j os).rest k' j' = s.rest k' j' := by
  rw [setRest_rest, if_neg h]

@[simp] theorem begin_sync : (s.begin k os).sync = s.sync := rfl
@[simp] theorem begin_mem : (s.begin k os).mem = s.mem := rfl

theorem begin_pool :
    (s.begin k os).pool k' = if k' = k then s.pool k - 1 else s.pool k' := by
  simp only [begin, Function.update_apply]

theorem begin_fired :
    (s.begin k os).fired k' = if k' = k then s.fired k + 1 else s.fired k' := by
  simp only [begin, Function.update_apply]

theorem begin_rest :
    (s.begin k os).rest k' j' =
      if k' = k ∧ j' = s.fired k then os else s.rest k' j' :=
  setRest_rest s k k' (s.fired k) j' os

@[simp] theorem decDep_fired : (s.decDep k).fired = s.fired := rfl
@[simp] theorem decDep_rest : (s.decDep k).rest = s.rest := rfl
@[simp] theorem decDep_mem : (s.decDep k).mem = s.mem := rfl

theorem decDep_sync :
    (s.decDep k).sync k' = if k' = k then (s.sync k).decCounter.2 else s.sync k' := by
  simp only [decDep, Function.update_apply]

theorem decDep_pool :
    (s.decDep k).pool k' =
      if k' = k ∧ (s.sync k).counter_ = 1 then s.pool k + 1 else s.pool k' := by
  simp only [decDep, SyncSlot.decCounter, beq_iff_eq]
  by_cases hc : (s.sync k).counter_ = 1
  · simp only [hc, if_true, Function.update_apply, and_true]
  · simp only [hc, if_false, and_false]

@[simp] theorem resetCodelet_fired : (s.resetCodelet k).fired = s.fired := rfl
@[simp] theorem resetCodelet_rest : (s.resetCodelet k).rest = s.rest := rfl
@[simp] theorem resetCodelet_mem : (s.resetCodelet k).mem = s.mem := rfl
@[simp] theorem resetCodelet_pool : (s.resetCodelet k).pool = s.pool := rfl

theorem resetCodelet_sync :
    (s.resetCodelet k).sync k' = if k' = k then (s.sync k).resetCounter else s.sync k' := by
  simp only [resetCodelet, Function.update_apply]

end Fields

end State

variable [DecidableEq K]

namespace Program

/-- Let the firing `(k, j)` execute `o`, with `os` left after it. -/
def execOp (P : Program K A M) (s : State K A M) (k : K) (j : Nat) (os : List (Op K A)) :
    Op K A → Option (State K A M)
  | .decDep d => some ((s.setRest k j os).decDep d)
  | .resetCodelet d => some ((s.setRest k j os).resetCodelet d)
  | .act a => (P.exec a s.mem).map fun r => { s.setRest k j (r.2 ++ os) with mem := r.1 }

/-- One step of the interleaving. -/
def step (P : Program K A M) (s : State K A M) : Label K → Option (State K A M)
  | .fire k => if s.pool k = 0 then none else some (s.begin k (P.fire k))
  | .op k j =>
    match s.rest k j with
    | [] => none
    | o :: os => P.execOp s k j os o

/-- What a step can do. -/
inductive Step (P : Program K A M) (s : State K A M) : Label K → State K A M → Prop
  | fire (k : K) (hpool : 0 < s.pool k) : Step P s (.fire k) (s.begin k (P.fire k))
  | decDep (k : K) (j : Nat) (d : K) (os : List (Op K A)) (hrest : s.rest k j = .decDep d :: os) :
      Step P s (.op k j) ((s.setRest k j os).decDep d)
  | resetCodelet (k : K) (j : Nat) (d : K) (os : List (Op K A))
      (hrest : s.rest k j = .resetCodelet d :: os) :
      Step P s (.op k j) ((s.setRest k j os).resetCodelet d)
  | act (k : K) (j : Nat) (a : A) (os os' : List (Op K A)) (m : M)
      (hrest : s.rest k j = .act a :: os) (hexec : P.exec a s.mem = some (m, os')) :
      Step P s (.op k j) { s.setRest k j (os' ++ os) with mem := m }

/-- The inversion lemma every invariant below starts from. -/
theorem step_inv {P : Program K A M} {s t : State K A M} {l : Label K}
    (h : P.step s l = some t) : P.Step s l t := by
  cases l with
  | fire k =>
    simp only [step] at h
    split at h
    next => exact absurd h (by simp)
    next hpool =>
      obtain rfl := Option.some.inj h
      exact .fire k (Nat.pos_of_ne_zero hpool)
  | op k j =>
    simp only [step] at h
    split at h
    next => exact absurd h (by simp)
    next o os hrest =>
      cases o with
      | decDep d =>
        obtain rfl := Option.some.inj h
        exact .decDep k j d os hrest
      | resetCodelet d =>
        obtain rfl := Option.some.inj h
        exact .resetCodelet k j d os hrest
      | act a =>
        obtain ⟨⟨m, os'⟩, hexec, rfl⟩ := Option.map_eq_some_iff.mp h
        exact .act k j a os os' m hrest hexec

/-- An operation of the firing `(k, j)` changes what is left of that firing only. -/
theorem rest_of_op {P : Program K A M} {s t : State K A M} {k : K} {j : Nat}
    (h : P.step s (.op k j) = some t) :
    ∃ o os os', s.rest k j = o :: os ∧ t.fired = s.fired ∧ t.rest = (s.setRest k j os').rest ∧
      ((∀ a, o ≠ .act a) ∧ os' = os ∧ t.mem = s.mem ∨
        ∃ a new, o = .act a ∧ P.exec a s.mem = some (t.mem, new) ∧ os' = new ++ os) := by
  cases step_inv h with
  | decDep _ _ d os hrest =>
    exact ⟨_, os, os, hrest, rfl, rfl, Or.inl ⟨fun a => by simp, rfl, rfl⟩⟩
  | resetCodelet _ _ d os hrest =>
    exact ⟨_, os, os, hrest, rfl, rfl, Or.inl ⟨fun a => by simp, rfl, rfl⟩⟩
  | act _ _ a os new m hrest hexec =>
    exact ⟨_, os, new ++ os, hrest, rfl, rfl, Or.inr ⟨a, new, rfl, hexec, rfl⟩⟩

/-- Only actions change the frame. -/
theorem mem_of_step {P : Program K A M} {s t : State K A M} {l : Label K}
    (h : P.step s l = some t) :
    s.nextAct l = none ∧ t.mem = s.mem ∨
      ∃ a new, s.nextAct l = some a ∧ P.exec a s.mem = some (t.mem, new) := by
  cases step_inv h with
  | fire k _ => exact Or.inl ⟨rfl, rfl⟩
  | decDep k j d os hrest =>
    exact Or.inl ⟨by rw [State.nextAct, hrest]; rfl, rfl⟩
  | resetCodelet k j d os hrest =>
    exact Or.inl ⟨by rw [State.nextAct, hrest]; rfl, rfl⟩
  | act k j a os new m hrest hexec =>
    exact Or.inr ⟨a, new, by rw [State.nextAct, hrest]; rfl, hexec⟩

/-- A scheduled codelet can always start. -/
theorem step_fire {P : Program K A M} {s : State K A M} {k : K} (h : 0 < s.pool k) :
    P.step s (.fire k) = some (s.begin k (P.fire k)) :=
  if_neg (Nat.pos_iff_ne_zero.mp h)

/-- A firing in progress can always move, unless it waits in an action. -/
theorem step_op_ne_none {P : Program K A M} {s : State K A M} {k : K} {j : Nat}
    (hrest : s.rest k j ≠ [])
    (hact : ∀ a os, s.rest k j = .act a :: os → P.exec a s.mem ≠ none) :
    P.step s (.op k j) ≠ none := by
  simp only [step]
  split
  next h => exact absurd h hrest
  next o os h =>
    cases o with
    | decDep d => simp [execOp]
    | resetCodelet d => simp [execOp]
    | act a =>
      simp only [execOp, ne_eq, Option.map_eq_none_iff]
      exact hact a os h

/-- A stuck state has nothing scheduled. -/
theorem pool_of_stuck {P : Program K A M} {s : State K A M}
    (h : Transition.Stuck P.step s) (k : K) : s.pool k = 0 := by
  by_contra hne
  have := h (.fire k)
  rw [step_fire (Nat.pos_of_ne_zero hne)] at this
  exact absurd this (by simp)

/-- In a stuck state every firing in progress waits in an action. -/
theorem rest_of_stuck {P : Program K A M} {s : State K A M}
    (h : Transition.Stuck P.step s) {k : K} {j : Nat} (hrest : s.rest k j ≠ []) :
    ∃ a os, s.rest k j = .act a :: os ∧ P.exec a s.mem = none := by
  by_contra hno
  refine step_op_ne_none (P := P) hrest (fun a os ha hexec => hno ⟨a, os, ha, hexec⟩) (h (.op k j))

end Program

end Darts
