import Mathlib.Algebra.BigOperators.Group.List.Basic
import Darts.Lib.ForkJoin

/-!
# What the tasks owe

A task is created with a debt, of whatever kind. When it is run, it pays some of it and
hands the rest on to the tasks that it leaves behind; a task that waits owes nothing. Then
a run pays, in whatever order, what the first process owed, less what the tasks owe that
are ready in the end (`Ledger.run_eq`).
-/

namespace ForkJoin

open Transition

variable {C Ω L V M : Type}

/-- Every task of a process that waits is one of `K`. -/
def Proc.Waiting (K : C → Prop) : Proc C → Prop
  | .done | .run _ => True
  | .par p q => p.Waiting K ∧ q.Waiting K
  | .wait _ c p => K c ∧ p.Waiting K

variable [AddCommMonoid M]

/-- What the ready tasks of a process owe. -/
def Proc.owed (owes : C → M) : Proc C → M
  | .done => 0
  | .run c => owes c
  | .par p q => p.owed owes + q.owed owes
  | .wait _ _ p => p.owed owes

def State.owed (owes : C → M) (s : State C L V) : M := (s.ready.map fun x => owes x.1).sum

/-- What a run pays. -/
def paid (exec : C → Ω → (L → V) → (L → V) × Option (Proc C)) (pays : C → Ω → (L → V) → M) :
    State C L V → List (Nat × Ω) → M
  | _, [] => 0
  | s, (pos, ω) :: ls =>
    match s.ready[pos]?, step exec s (pos, ω) with
    | some (c, _), some t => pays c ω s.mem + paid exec pays t ls
    | _, _ => 0

/-- The debts and payments of the tasks of a program. -/
structure Ledger (exec : C → Ω → (L → V) → (L → V) × Option (Proc C)) (M : Type) [AddCommMonoid M]
    where
  /-- Those that keep to it. -/
  Keeps : C → Prop
  owes : C → M
  pays : C → Ω → (L → V) → M
  left : ∀ c ω m, Keeps c → ∀ q ∈ (exec c ω m).2, q.Forall Keeps ∧ q.Waiting (owes · = 0)
  balance : ∀ c ω m, Keeps c → pays c ω m + ((exec c ω m).2.getD .done).owed owes = owes c

variable {exec : C → Ω → (L → V) → (L → V) × Option (Proc C)} {owes : C → M} {p : Proc C}

theorem State.owed_start (p : Proc C) (f : Option Nat) (s : State C L V) :
    (State.start p f s).owed owes = s.owed owes + p.owed owes := by
  induction p generalizing f s with
  | done => exact (add_zero _).symm
  | run c => simp [State.start, State.owed, Proc.owed]
  | par p q ihp ihq => rw [State.start, ihq, ihp, Proc.owed, add_assoc]
  | wait n c p ih => exact ih _ _

/-- The tasks that a process leaves waiting. -/
theorem State.waiting_start {K : C → Prop} (hp : p.Waiting K) (f : Option Nat) {s : State C L V}
    (h : ∀ w ∈ s.slots, K w.task) : ∀ w ∈ (State.start p f s).slots, K w.task := by
  induction p generalizing f s with
  | done | run => exact h
  | par p q ihp ihq => exact ihq hp.2 f (ihp hp.1 f h)
  | wait n c p ih =>
    refine ih hp.2 _ fun w hw => ?_
    rcases List.mem_append.mp hw with hw | hw
    · exact h w hw
    · rw [List.mem_singleton.mp hw]
      exact hp.1

/-- A signal wakes a task that owes nothing, if any. -/
theorem State.owed_signal {s : State C L V} (h : ∀ w ∈ s.slots, owes w.task = 0) (f : Option Nat) :
    (s.signal f).owed owes = s.owed owes := by
  cases f with
  | none => rfl
  | some id =>
    simp only [State.signal]
    split
    next => rfl
    next w hw =>
      have hzero : owes w.task = 0 := h w (List.mem_of_getElem? hw)
      unfold State.owed
      split
      next => simp [hzero]
      next => simp

theorem State.waiting_signal {K : C → Prop} {s : State C L V} (h : ∀ w ∈ s.slots, K w.task)
    (f : Option Nat) : ∀ w ∈ (s.signal f).slots, K w.task := by
  cases f with
  | none => exact h
  | some id =>
    simp only [State.signal]
    split
    next => exact h
    next w hw =>
      intro w' hw'
      rcases List.mem_or_eq_of_mem_set hw' with hw' | rfl
      · exact h w' hw'
      · exact h w (List.mem_of_getElem? hw)

namespace Ledger

/-- The tasks in a state keep to the ledger. -/
structure Inv (B : Ledger exec M) (s : State C L V) : Prop where
  tasks : s.Tasks B.Keeps
  waiting : ∀ w ∈ s.slots, B.owes w.task = 0

/-- A step pays what is no longer owed. -/
theorem step_eq (B : Ledger exec M) {s t : State C L V} {pos : Nat} {ω : Ω} (hs : B.Inv s)
    (h : step exec s (pos, ω) = some t) : ∃ c f, s.ready[pos]? = some (c, f) ∧ B.Inv t ∧
      B.pays c ω s.mem + t.owed B.owes = s.owed B.owes := by
  unfold step at h
  simp only at h
  split at h
  next => cases h
  next c f hpos =>
    have hc : B.Keeps c := hs.tasks.ready (c, f) (List.mem_of_getElem? hpos)
    -- the task is taken out of the pool
    obtain ⟨hlt, hget⟩ := List.getElem?_eq_some_iff.mp hpos
    have hperm := (List.getElem_cons_eraseIdx_perm hlt).map fun x : C × Option Nat => B.owes x.1
    have hout : B.owes c + ((s.ready.eraseIdx pos).map fun x => B.owes x.1).sum =
        s.owed B.owes := by
      rw [hget] at hperm
      exact (List.sum_cons ..).symm.trans hperm.sum_eq
    obtain ⟨s', hs'⟩ : ∃ s', s' = { s with
      mem := (exec c ω s.mem).1, ready := s.ready.eraseIdx pos } := ⟨_, rfl⟩
    have htasks : s'.Tasks B.Keeps := by
      rw [hs']
      exact ⟨fun x hx => hs.tasks.ready x (List.mem_of_mem_eraseIdx hx), hs.tasks.slots⟩
    have hwaiting : ∀ w ∈ s'.slots, B.owes w.task = 0 := by
      rw [hs']
      exact hs.waiting
    have howed : B.owes c + s'.owed B.owes = s.owed B.owes := by
      rw [hs']
      exact hout
    have hbalance := B.balance c ω s.mem hc
    rw [← hs'] at h
    refine ⟨c, f, hpos, ?_⟩
    cases hq : (exec c ω s.mem).2 with
    | none =>
      rw [hq] at h hbalance
      obtain rfl := Option.some.inj h
      have hpays : B.pays c ω s.mem = B.owes c := (add_zero _).symm.trans hbalance
      have hwaiting' := State.waiting_signal (K := (B.owes · = 0)) hwaiting f
      refine ⟨⟨htasks.signal f, hwaiting'⟩, ?_⟩
      rw [State.owed_signal hwaiting, hpays, howed]
    | some q =>
      rw [hq] at h hbalance
      obtain rfl := Option.some.inj h
      obtain ⟨hkeeps, hwait⟩ := B.left c ω s.mem hc q hq
      have hwaiting' := State.waiting_start hwait f hwaiting
      refine ⟨⟨htasks.start hkeeps f, hwaiting'⟩, ?_⟩
      rw [State.owed_start, add_comm (s'.owed _), ← add_assoc,
        show B.pays c ω s.mem + q.owed B.owes = B.owes c from hbalance, howed]

/-- **A run pays what is no longer owed.** -/
theorem run_eq (B : Ledger exec M) {s t : State C L V} {ls : List (Nat × Ω)} (hs : B.Inv s)
    (h : run (step exec) s ls = some t) :
    paid exec B.pays s ls + t.owed B.owes = s.owed B.owes := by
  induction ls generalizing s with
  | nil =>
    obtain rfl : s = t := Option.some.inj h
    exact zero_add _
  | cons l ls ih =>
    obtain ⟨pos, ω⟩ := l
    obtain ⟨u, hu, hrun⟩ := Option.bind_eq_some_iff.mp h
    obtain ⟨c, f, hpos, hInv, hstep⟩ := B.step_eq hs hu
    simp only [paid, hpos, hu]
    rw [add_assoc, ih hInv hrun, hstep]

/-- A process is started with what it owes. -/
theorem inv_launch (B : Ledger exec M) (hp : p.Forall B.Keeps) (hwait : p.Waiting (B.owes · = 0))
    (m : L → V) : B.Inv (launch p m) ∧ (launch p m).owed B.owes = p.owed B.owes := by
  have htasks : State.Tasks B.Keeps
      ({ mem := m, slots := [], ready := [], signalled := 0 } : State C L V) :=
    ⟨(fun x hx => by cases hx), fun w hw => by cases hw⟩
  have hslots : ∀ w ∈ (launch p m).slots, B.owes w.task = 0 :=
    State.waiting_start hwait none fun w hw => by cases hw
  refine ⟨⟨htasks.start hp none, hslots⟩, ?_⟩
  unfold launch
  rw [State.owed_start]
  exact zero_add _

end Ledger

end ForkJoin
