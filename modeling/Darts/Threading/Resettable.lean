import Mathlib.Tactic.Ring
import Darts.Lib.Transition
import Darts.Threading.SyncSlot

/-!
# A codelet that resets its own counter

`Codelet::decDep` and `Codelet::resetCodelet` (`src/threading/Codelet.cpp`) on one codelet
with counter and reset value `r`, whose `fire()` begins with `resetCodelet` as that of
`cannonLoopCodelet`. Any number of producers call `decDep`; the fetch-and-subtract, the
push, the pop, the reset and the end of the firing are steps of their own, in any order.

`resetCounter` stores `reset_` whatever the counter holds. From the moment a decrement
brings the counter to zero until that store, the *gap*, further decrements go round
`2^32` and the store erases them. So the codelet is scheduled once for every `r`
decrements that are not erased (`scheduled_exact`), and a program that must not lose
signals keeps its next round out of the gap. Both Cannon programs do: the signals of a
round come from codelets that the reset codelet releases (`ExactSignals.reset_zero`).
-/

namespace Darts.Resettable

open Transition Word

variable {P : Type} {r : Nat}

/-- The codelet, and what its producers and firings are at. -/
structure State (P : Type) where
  sync_ : SyncSlot
  /-- The producers whose `decDep` found 1 and that have not pushed the codelet yet. -/
  pushing : List P
  /-- How often the codelet is in a pool. -/
  pool : Nat
  /-- Firings popped that have not executed `resetCodelet`. -/
  popped : Nat
  /-- Firings past it. -/
  running : Nat
  /-- How many `decDep` calls have decremented. History, as all that follows. -/
  decs : Nat
  /-- How often the codelet has been pushed. -/
  scheduled : Nat
  /-- Decrements since the counter has reached zero. -/
  early : Nat
  /-- All decrements that arrived in a gap. -/
  erased : Nat

/-- A codelet constructed with counter and reset value `r`. -/
def start (r : Nat) : State P := ⟨⟨r, r⟩, [], 0, 0, 0, 0, 0, 0, 0⟩

/-- A step of a producer or of a firing. -/
inductive Label (P : Type)
  | decCounter (p : P)
  | pushCodelet (p : P)
  | pop
  | resetCodelet
  | finish

namespace State

/-- How often the codelet has been due and not reset yet. -/
def due (s : State P) : Nat := s.pushing.length + s.pool + s.popped

/-- No call is under way and everything scheduled has been executed. -/
def Idle (s : State P) : Prop := s.pushing = [] ∧ s.pool = 0 ∧ s.popped = 0 ∧ s.running = 0

instance (s : State P) : Decidable s.Idle :=
  decidable_of_iff (s.pushing.isEmpty ∧ s.pool = 0 ∧ s.popped = 0 ∧ s.running = 0)
    (by rw [Idle, List.isEmpty_iff])

variable [DecidableEq P]

/-- `if (sync_.decCounter())`: the caller goes on to push if the counter was 1. -/
def decCounter (s : State P) (p : P) : State P :=
  { s with
    sync_ := s.sync_.decCounter.2
    pushing := if s.sync_.decCounter.1 then p :: s.pushing else s.pushing
    decs := s.decs + 1
    early := if s.due = 0 then s.early else s.early + 1
    erased := if s.due = 0 then s.erased else s.erased + 1 }

/-- `sync_.resetCounter()` at the start of a firing. -/
def resetCodelet (s : State P) : State P :=
  { s with sync_ := s.sync_.resetCounter, popped := s.popped - 1, running := s.running + 1, early := 0 }

end State

variable [DecidableEq P]

/-- One step. A producer makes one call at a time. -/
def step (s : State P) : Label P → Option (State P)
  | .decCounter p => if p ∈ s.pushing then none else some (s.decCounter p)
  | .pushCodelet p =>
    if p ∈ s.pushing then
      some { s with pushing := s.pushing.erase p, pool := s.pool + 1, scheduled := s.scheduled + 1 }
    else none
  | .pop => if s.pool = 0 then none else some { s with pool := s.pool - 1, popped := s.popped + 1 }
  | .resetCodelet => if s.popped = 0 then none else some s.resetCodelet
  | .finish => if s.running = 0 then none else some { s with running := s.running - 1 }

/-- The step does not take a counter that early decrements have wrapped all the way round:
no gap receives `2^32` of them. -/
def FewEarly (s : State P) : Label P → Prop
  | .decCounter _ => s.due ≠ 0 → s.early < uintMax
  | _ => True

/-! ## The balance -/

/-- The counter between two resets. Outside of a gap it is what is missing of the round's
`r` signals; in a gap it has gone below zero by the early ones. -/
structure Inv (r : Nat) (s : State P) : Prop where
  reset_eq : s.sync_.reset_ = r
  once : s.due ≤ 1
  counting : s.due = 0 → s.early = 0 ∧ 1 ≤ s.sync_.counter_ ∧ s.sync_.counter_ ≤ r ∧
    s.decs + s.sync_.counter_ = r * s.scheduled + r + s.erased
  gap : s.due = 1 → s.early ≤ uintMax ∧
    s.sync_.counter_ = (if s.early = 0 then 0 else uintMax + 1 - s.early) ∧
    s.decs = r * (s.scheduled + s.pushing.length) + s.erased

omit [DecidableEq P] in
theorem Inv.init (hr : 1 ≤ r) : Inv r (start r : State P) where
  reset_eq := rfl
  once := Nat.zero_le _
  counting _ := ⟨rfl, hr, Nat.le_refl r, by simp [start]⟩
  gap h := absurd h (by simp [State.due, start])

variable {s t : State P}

omit [DecidableEq P] in
/-- A decrement counts the round down, opens the gap, or falls into it. -/
private theorem Inv.decCounter (h : Inv r s) (p : P) (hfew : s.due ≠ 0 → s.early < uintMax) :
    Inv r (s.decCounter p) := by
  have hmax : uintMax = 4294967295 := rfl
  have honce := h.once
  by_cases hdue : s.due = 0
  · obtain ⟨hearly, hpos, hle, hbal⟩ := h.counting hdue
    have hempty : s.pushing.length = 0 := by unfold State.due at hdue; omega
    have hsub : fetchSub s.sync_.counter_ = s.sync_.counter_ - 1 := fetchSub_of_pos (by omega)
    by_cases hone : s.sync_.counter_ = 1
    · -- the last signal of the round
      have hd : (s.decCounter p).due = 1 := by
        unfold State.due at hdue ⊢
        simp only [State.decCounter, SyncSlot.decCounter, hone, beq_self_eq_true, if_true,
          List.length_cons]
        omega
      refine ⟨h.reset_eq, by omega, fun hc => by omega, fun _ => ?_⟩
      simp only [State.decCounter, SyncSlot.decCounter, hdue, hone, hearly, beq_self_eq_true,
        if_true, List.length_cons, hempty, Nat.zero_add]
      rw [hone] at hbal hsub
      refine ⟨by omega, by rw [hsub], ?_⟩
      rw [Nat.mul_add, Nat.mul_one]
      omega
    · have hno : (s.sync_.counter_ == 1) = false := by simpa using hone
      have hd : (s.decCounter p).due = 0 := by
        unfold State.due at hdue ⊢
        simp only [State.decCounter, SyncSlot.decCounter, hno, Bool.false_eq_true, if_false]
        exact hdue
      refine ⟨h.reset_eq, by omega, fun _ => ?_, fun hc => by omega⟩
      simp only [State.decCounter, SyncSlot.decCounter, hdue, if_true, hsub]
      omega
  · -- in the gap the counter goes round
    obtain ⟨hearly, hcount, hbal⟩ := h.gap (by omega)
    have hlt := hfew hdue
    have hno : (s.sync_.counter_ == 1) = false := by
      rw [beq_eq_false_iff_ne, hcount]
      split <;> omega
    have hd : (s.decCounter p).due = s.due := by
      unfold State.due
      simp only [State.decCounter, SyncSlot.decCounter, hno, Bool.false_eq_true, if_false]
    refine ⟨h.reset_eq, by omega, fun hc => by omega, fun _ => ?_⟩
    simp only [State.decCounter, SyncSlot.decCounter, hno, Bool.false_eq_true, hdue, if_false,
      Nat.succ_ne_zero]
    refine ⟨hlt, ?_, by omega⟩
    rw [hcount]
    by_cases hzero : s.early = 0
    · rw [if_pos hzero, hzero]
      rfl
    · rw [if_neg hzero, fetchSub_of_pos (by omega)]
      omega

/-- **One step keeps the balance**, unless it is the `2^32`-nd early decrement of a gap. -/
theorem Inv.step (hr : 1 ≤ r) (h : Inv r s) {l : Label P} (hfew : FewEarly s l) (hl : step s l = some t) :
    Inv r t := by
  have honce := h.once
  cases l with
  | decCounter p =>
    simp only [Resettable.step] at hl
    split at hl
    next => cases hl
    next =>
      obtain rfl := Option.some.inj hl
      exact h.decCounter p hfew
  | pushCodelet p =>
    simp only [Resettable.step] at hl
    split at hl
    next hp =>
      obtain rfl := Option.some.inj hl
      have hlen : (s.pushing.erase p).length = s.pushing.length - 1 := List.length_erase_of_mem hp
      have hpos : 0 < s.pushing.length := List.length_pos_of_mem hp
      have hdue : s.due = 1 := by unfold State.due at honce ⊢; omega
      obtain ⟨hearly, hcount, hbal⟩ := h.gap hdue
      refine ⟨h.reset_eq, ?_, ?_, fun _ => ⟨hearly, hcount, ?_⟩⟩
      · unfold State.due at honce ⊢
        simp only [hlen]
        omega
      · intro hc
        unfold State.due at hc
        simp only [hlen] at hc
        omega
      · simp only [hlen]
        rw [hbal]
        congr 2
        omega
    next => cases hl
  | pop =>
    simp only [Resettable.step] at hl
    split at hl
    next => cases hl
    next hpool =>
      obtain rfl := Option.some.inj hl
      -- the codelet moves from the pool to the thread, it stays due
      have hdue : ∀ d, s.pushing.length + (s.pool - 1) + (s.popped + 1) = d → s.due = d := by
        intro d hd
        unfold State.due
        omega
      exact ⟨h.reset_eq, (hdue _ rfl).symm.trans_le honce, fun hc => h.counting (hdue _ hc),
        fun hc => h.gap (hdue _ hc)⟩
  | resetCodelet =>
    simp only [Resettable.step] at hl
    split at hl
    next => cases hl
    next hpopped =>
      obtain rfl := Option.some.inj hl
      have hdue : s.due = 1 := by unfold State.due at honce ⊢; omega
      have hempty : s.pushing.length = 0 := by unfold State.due at hdue; omega
      have hnow : s.resetCodelet.due = 0 := by
        unfold State.due at hdue ⊢
        simp only [State.resetCodelet]
        omega
      obtain ⟨-, -, hbal⟩ := h.gap hdue
      refine ⟨h.reset_eq, by omega, fun _ => ?_, fun hc => by omega⟩
      simp only [State.resetCodelet, SyncSlot.resetCounter_counter, h.reset_eq]
      rw [hempty, Nat.add_zero] at hbal
      exact ⟨trivial, hr, Nat.le_refl r, by omega⟩
  | finish =>
    simp only [Resettable.step] at hl
    split at hl
    next => cases hl
    next =>
      obtain rfl := Option.some.inj hl
      exact ⟨h.reset_eq, h.once, h.counting, h.gap⟩

theorem Inv.reachable (hr : 1 ≤ r) (h : ReachableIf Resettable.step FewEarly (start r) s) :
    Inv r s :=
  h.invariant (Inv r) (.init hr) fun _ _ _ _ hi hfew hl => hi.step hr hfew hl

omit [DecidableEq P] in
/-- **The count**: with nothing under way the rounds completed are the signals that
survived, divided by `r`. -/
theorem Inv.scheduled_eq (h : Inv r s) (hr : 1 ≤ r) (hidle : s.Idle) :
    s.scheduled = (s.decs - s.erased) / r := by
  obtain ⟨hpushing, hpool, hpopped, -⟩ := hidle
  have hdue : s.due = 0 := by simp [State.due, hpushing, hpool, hpopped]
  obtain ⟨-, hpos, hle, hbal⟩ := h.counting hdue
  have hrest : s.decs - s.erased = (r - s.sync_.counter_) + r * s.scheduled := by omega
  rw [hrest, Nat.add_mul_div_left _ _ hr, Nat.div_eq_of_lt (by omega), Nat.zero_add]

/-- What has been erased stays erased. -/
theorem erased_le {l : Label P} (hl : step s l = some t) : s.erased ≤ t.erased ∧
    (s.erased = t.erased → FewEarly s l) := by
  cases l with
  | decCounter p =>
    simp only [step] at hl
    split at hl
    next => cases hl
    next =>
      obtain rfl := Option.some.inj hl
      simp only [State.decCounter, FewEarly]
      split <;> simp_all
  | pushCodelet p | pop | resetCodelet | finish =>
    simp only [step] at hl
    split at hl
    all_goals
      first
      | obtain rfl := Option.some.inj hl
        exact ⟨Nat.le_refl _, fun _ => trivial⟩
      | cases hl

/-- A run that erased nothing had no early decrement at all. -/
theorem fewEarly_of_erased (hs : Reachable step (start r) s) (h : s.erased = 0) :
    ReachableIf step FewEarly (start r) s := by
  induction hs with
  | start => exact .start
  | next _ hl ih =>
    obtain ⟨hle, hfew⟩ := erased_le hl
    exact (ih (by omega)).next (hfew (by omega)) hl

/-- **Neither lost nor doubled, outside of the gap.** Whatever the interleaving: while no
gap receives `2^32` decrements, the codelet is never due twice, and when everything
scheduled has been executed it has been scheduled once for every `r` of the decrements
that arrived outside of a gap. If none arrived in a gap these are all. -/
theorem scheduled_exact (hr : 1 ≤ r) :
    (∀ s : State P, ReachableIf step FewEarly (start r) s →
      s.due ≤ 1 ∧ (s.Idle → s.scheduled = (s.decs - s.erased) / r)) ∧
    ∀ s : State P, Reachable step (start r) s → s.erased = 0 → s.Idle → s.scheduled = s.decs / r := by
  refine ⟨fun s hs => ?_, fun s hs herased hidle => ?_⟩
  · have h := Inv.reachable hr hs
    exact ⟨h.once, h.scheduled_eq hr⟩
  · have h := Inv.reachable hr (fewEarly_of_erased hs herased)
    rw [h.scheduled_eq hr hidle, herased, Nat.sub_zero]

/-- Two producers, reset value 2: three signals, of which the third comes before the reset. -/
theorem scheduled_exact_two :
    ∃ s : State Nat, ReachableIf step FewEarly (start 2) s ∧ s.decs = 3 ∧ s.erased = 1 ∧
      s.scheduled = (s.decs - s.erased) / 2 := by
  have hs : ReachableIf step FewEarly (start 2 : State Nat) _ :=
    (((((ReachableIf.start.next (l := .decCounter 0) (fun h => absurd rfl h) rfl).next
      (l := .decCounter 1) (fun h => absurd rfl h) rfl).next
      (l := .decCounter 0) (fun _ => by decide) rfl).next (l := .pushCodelet 1) trivial rfl).next
      (l := .pop) trivial rfl).next (l := .resetCodelet) trivial rfl |>.next (l := .finish) trivial rfl
  exact ⟨_, hs, rfl, rfl, ((scheduled_exact (by decide)).1 _ hs).2 (by decide)⟩

/-- Reset value 1, two signals, one firing: the second signal arrives between the counter
reaching zero and the reset, which erases it. -/
theorem signal_erased :
    ∃ s : State Nat, run step (start 1)
        [.decCounter 0, .decCounter 1, .pushCodelet 0, .pop, .resetCodelet, .finish] = some s ∧
      s.Idle ∧ s.decs = 2 ∧ s.scheduled ≠ s.decs / 1 :=
  ⟨_, rfl, by decide, rfl, by decide⟩

end Darts.Resettable
