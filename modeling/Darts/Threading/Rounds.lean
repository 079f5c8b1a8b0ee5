import Mathlib.Algebra.BigOperators.Fin
import Mathlib.Algebra.Order.BigOperators.Group.Finset
import Darts.Threading.SyncSlot

/-!
# A loop codelet and its workers: the round protocol

A loop codelet waits for one signal from each of the workers `ι`, re-arms its own
counter and releases all workers for the next round, `n` times; before the first
round the signals come from elsewhere. The workers re-arm themselves when they
start and signal the loop codelet when they end. After the last round the loop
codelet releases the workers' collectors instead, and these signal the end
codelet.

The state is what matters for the counters: how many signals, resets and
releases are still to come, next to the counters themselves. Nothing here knows
what the workers compute. `Inv` is the protocol's invariant; `Inv.step` says
that every step keeps it, in any order the steps can come, so that in particular
no counter is ever decremented at zero (`signal_pos`, `release_pos`, ...) and
every re-arming overwrites a zero (`reset_zero`, `rearm_zero`).
-/

namespace Darts.Rounds

open Word

/-- The protocol's state. The `to...` fields count operations that are begun and
still to come, so they are 0 or 1. -/
@[ext] structure State (ι : Type) where
  /-- The loop codelet's counter. -/
  counter : Nat
  /-- Is the loop codelet scheduled. -/
  pool : Nat
  fired : Nat
  toReset : Nat
  toTest : Nat
  /-- The round's `curIterations++`. -/
  toCount : Nat
  curIterations : Nat
  /-- The signals that open the first round. -/
  first : ι → Nat
  /-- The loop codelet's `decDep` on each worker, in the round it is releasing. -/
  toRelease : ι → Nat
  wcounter : ι → Nat
  wpool : ι → Nat
  wfired : ι → Nat
  toRearm : ι → Nat
  toSignal : ι → Nat
  /-- The loop codelet's `decDep` on each collector. -/
  toFinish : ι → Nat
  ccounter : ι → Nat
  cpool : ι → Nat
  cfired : ι → Nat
  /-- The collectors' signals to the end codelet. -/
  toEnd : ι → Nat
  ecounter : Nat
  epool : Nat
  efired : Nat

variable {ι : Type}

namespace State

/-- `decDep` on the loop codelet. -/
def signalled (v : State ι) : State ι :=
  { v with
    counter := fetchSub v.counter
    pool := if v.counter = 1 then v.pool + 1 else v.pool }

/-- Nothing has fired, and every worker's first signal is still to come. -/
def start [Fintype ι] : State ι where
  counter := Fintype.card ι
  pool := 0
  fired := 0
  toReset := 0
  toTest := 0
  toCount := 0
  curIterations := 0
  first _ := 1
  toRelease _ := 0
  wcounter _ := 1
  wpool _ := 0
  wfired _ := 0
  toRearm _ := 0
  toSignal _ := 0
  toFinish _ := 0
  ccounter _ := 1
  cpool _ := 0
  cfired _ := 0
  toEnd _ := 1
  ecounter := Fintype.card ι
  epool := 0
  efired := 0

/-- The state with other signals to come. -/
def owing (v : State ι) (first toSignal : ι → Nat) : State ι :=
  { v with first := first, toSignal := toSignal }

end State

/-- What worker `i` still owes the current round. -/
def pend (v : State ι) (i : ι) : Nat :=
  v.first i + v.toRelease i + v.wpool i + v.toSignal i

/-- The loop codelet has taken its last branch. -/
def ended (n : Nat) (v : State ι) : Nat :=
  if v.fired = n + 1 ∧ v.toTest = 0 then 1 else 0

/-- The round is over: the loop codelet is scheduled, about to test, or has ended. -/
def due (n : Nat) (v : State ι) : Nat := v.pool + v.toTest + ended n v

/-- The number of rounds begun. -/
def rounds (v : State ι) : Nat := v.curIterations + v.toCount

variable [Fintype ι]

/-- The invariant. -/
structure Inv (n : Nat) (v : State ι) : Prop where
  pend_le : ∀ i, pend v i ≤ 1
  due_eq : due n v = if ∑ i, pend v i = 0 then 1 else 0
  fired_eq : v.fired + v.pool = rounds v + due n v
  rounds_le : rounds v ≤ n
  counter_eq : v.counter + Fintype.card ι * v.toReset =
    ∑ i, pend v i + Fintype.card ι * (v.toTest + ended n v)
  toReset_le : v.toReset ≤ v.toTest
  first_eq : ∀ i, 0 < v.first i → rounds v = 0
  toRelease_eq : 0 < v.toCount → ∀ i, v.toRelease i = 1
  wfired_eq : ∀ i, v.wpool i + v.wfired i + v.toRelease i = rounds v
  wcounter_eq : ∀ i, v.wcounter i + v.wpool i + v.toRearm i = 1
  toRearm_le : ∀ i, v.toRearm i ≤ v.toSignal i
  cfired_eq : ∀ i, v.cpool i + v.cfired i + v.toFinish i = ended n v
  ccounter_eq : ∀ i, v.ccounter i + v.cpool i + v.cfired i = 1
  toEnd_eq : ∀ i, v.cfired i = 0 → v.toEnd i = 1
  toEnd_le : ∀ i, v.toEnd i ≤ 1
  ecounter_eq : v.ecounter = ∑ i, v.toEnd i
  efired_eq : v.epool + v.efired = if ∑ i, v.toEnd i = 0 then 1 else 0

section Counters

variable {n : Nat} {v : State ι}

theorem le_sum (f : ι → Nat) (i : ι) : f i ≤ ∑ j, f j :=
  Finset.single_le_sum (fun j _ => Nat.zero_le (f j)) (Finset.mem_univ i)

omit [Fintype ι] in
theorem ended_le (n : Nat) (v : State ι) : ended n v ≤ 1 := by
  rw [ended]
  split <;> omega

omit [Fintype ι] in
theorem ended_congr {w : State ι} (hf : w.fired = v.fired) (ht : w.toTest = v.toTest) :
    ended n w = ended n v := by
  rw [ended, ended, hf, ht]

theorem Inv.efired_le (h : Inv n v) : v.epool + v.efired ≤ 1 := by
  rw [h.efired_eq]
  split <;> omega

/-- While a worker owes something the loop codelet waits for it. -/
theorem Inv.waiting (h : Inv n v) {i : ι} (hi : 0 < pend v i) :
    v.pool = 0 ∧ v.toTest = 0 ∧ v.toReset = 0 ∧ ended n v = 0 ∧ v.counter = ∑ i, pend v i := by
  have hsum := le_sum (pend v) i
  have hdue := h.due_eq
  rw [if_neg (by omega), due] at hdue
  have hre := h.toReset_le
  have hc := h.counter_eq
  have hz : v.toReset = 0 ∧ v.toTest + ended n v = 0 := by omega
  rw [hz.1, hz.2, Nat.mul_zero, Nat.add_zero, Nat.add_zero] at hc
  exact ⟨by omega, by omega, by omega, by omega, hc⟩

/-- **A signal to the loop codelet finds its counter positive.** -/
theorem Inv.signal_pos (h : Inv n v) {i : ι} (hi : 0 < v.first i + v.toSignal i) :
    v.counter ≠ 0 := by
  have hp : 0 < pend v i := by
    simp only [pend]
    omega
  have := (h.waiting hp).2.2.2.2
  have := le_sum (pend v) i
  omega

/-- **A release finds the worker's counter at one.** -/
theorem Inv.release_one (h : Inv n v) {i : ι} (hi : 0 < v.toRelease i) : v.wcounter i = 1 := by
  have hp := h.pend_le i
  have hw := h.wcounter_eq i
  have hr := h.toRearm_le i
  simp only [pend] at hp
  omega

theorem Inv.finish_one (h : Inv n v) {i : ι} (hi : 0 < v.toFinish i) : v.ccounter i = 1 := by
  have hc := h.cfired_eq i
  have := h.ccounter_eq i
  have := ended_le n v
  omega

/-- **The loop codelet's reset overwrites a zero.** -/
theorem Inv.reset_zero (h : Inv n v) (hr : 0 < v.toReset) : v.counter = 0 := by
  have hle := h.toReset_le
  have hdue := h.due_eq
  have hc := h.counter_eq
  by_cases hz : ∑ i, pend v i = 0
  · rw [if_pos hz, due] at hdue
    have hone : v.toReset = 1 ∧ v.toTest + ended n v = 1 := by omega
    rw [hone.1, hone.2, hz] at hc
    omega
  · rw [if_neg hz, due] at hdue
    omega

/-- **A worker's reset overwrites a zero.** -/
theorem Inv.rearm_zero (h : Inv n v) {i : ι} (hi : 0 < v.toRearm i) : v.wcounter i = 0 := by
  have := h.wcounter_eq i
  omega

theorem Inv.deliver_pos (h : Inv n v) {i : ι} (hi : 0 < v.toEnd i) : v.ecounter ≠ 0 := by
  have := h.ecounter_eq
  have := le_sum v.toEnd i
  omega

/-- While a worker has been released and not signalled back, the round is counted, all
opening signals have come, and the worker is in the round's firing. -/
theorem Inv.working (h : Inv n v) {i : ι} (hi : 0 < v.wpool i + v.toSignal i)
    (hfired : 0 < v.wpool i + v.wfired i) :
    v.toCount = 0 ∧ v.wpool i + v.wfired i = rounds v ∧ 0 < rounds v ∧ ∀ j, v.first j = 0 := by
  have hp := h.pend_le i
  simp only [pend] at hp
  have hw := h.wfired_eq i
  have hcount : v.toCount = 0 := by
    by_contra hne
    have := h.toRelease_eq (by omega) i
    omega
  refine ⟨hcount, by omega, by omega, fun j => ?_⟩
  by_contra hne
  have := h.first_eq j (by omega)
  omega

/-- While a round is being counted every worker has signalled the one before. -/
theorem Inv.counting (h : Inv n v) (hc : 0 < v.toCount) (i : ι) :
    v.wfired i + 1 = rounds v ∧ v.first i = 0 ∧ v.toSignal i = 0 := by
  have hp := h.pend_le i
  have hr := h.toRelease_eq hc i
  have hw := h.wfired_eq i
  simp only [pend] at hp
  omega

/-- When a collector is scheduled all rounds are over. -/
theorem Inv.collecting (h : Inv n v) {i : ι} (hi : 0 < v.cpool i + v.cfired i) (j : ι) :
    v.wfired j = n ∧ v.toSignal j = 0 := by
  have hc := h.cfired_eq i
  have hle := ended_le n v
  have hended : ended n v = 1 := by omega
  have hdue := h.due_eq
  have hfired := h.fired_eq
  have hsum : ∑ i, pend v i = 0 := by
    by_contra hne
    rw [if_neg hne, due] at hdue
    omega
  have hpend : pend v j = 0 := by
    have := le_sum (pend v) j
    omega
  have hlast : v.fired = n + 1 ∧ v.toTest = 0 := by
    by_contra hno
    rw [ended, if_neg hno] at hended
    omega
  have hw := h.wfired_eq j
  rw [due] at hfired
  simp only [pend] at hpend
  omega

/-- The loop codelet has fired for the last time then, and the opening signals are long
sent. -/
theorem Inv.closing (h : Inv n v) {i : ι} (hi : 0 < v.cpool i + v.cfired i) (hn : 0 < n) :
    v.fired = n + 1 ∧ ∀ j, v.first j = 0 := by
  have hc := h.cfired_eq i
  have hlast : v.fired = n + 1 := by
    by_contra hne
    rw [ended, if_neg (fun hc => hne hc.1)] at hc
    omega
  refine ⟨hlast, fun j => ?_⟩
  by_contra hne
  have hrounds := h.first_eq j (by omega)
  have hw := h.wfired_eq j
  have := (h.collecting hi j).1
  omega

/-- The end codelet is scheduled by the last of the collectors. -/
theorem Inv.delivered (h : Inv n v) (he : 0 < v.epool + v.efired) (i : ι) : v.toEnd i = 0 := by
  have hefired := h.efired_eq
  have hsum : ∑ i, v.toEnd i = 0 := by
    by_contra hne
    rw [if_neg hne] at hefired
    omega
  have := le_sum v.toEnd i
  omega

/-- How far the protocol has come: opening signals, workers, loop codelet, collectors,
end codelet. -/
def stage (n : Nat) (v : State ι) : Nat :=
  if ∃ i, 0 < v.first i then 0
  else if ∃ i, 0 < pend v i then 1
  else if ended n v = 0 then 2
  else if ∃ i, 0 < v.toEnd i then 3
  else 4

/-- Once it has ended nobody owes anything. -/
theorem Inv.pend_of_ended (h : Inv n v) (he : 0 < ended n v) (i : ι) : pend v i = 0 := by
  by_contra hne
  have := (h.waiting (i := i) (by omega)).2.2.2.1
  omega

omit [Fintype ι] in
private theorem first_le_pend (v : State ι) (i : ι) : v.first i ≤ pend v i := by
  simp only [pend]
  omega

/-- **Everything that is scheduled belongs to the stage.** -/
theorem stage_first {i : ι} (hi : 0 < v.first i) : stage n v = 0 := if_pos ⟨i, hi⟩

theorem Inv.stage_worker (h : Inv n v) {i : ι} (hi : 0 < v.wpool i) : stage n v = 1 := by
  have hfirst := (h.working (i := i) (by omega) (by omega)).2.2.2
  rw [stage, if_neg, if_pos]
  · exact ⟨i, by simp only [pend]; omega⟩
  · intro hex
    obtain ⟨j, hj⟩ := hex
    have := hfirst j
    omega

theorem Inv.stage_loop (h : Inv n v) (hi : 0 < v.pool) : stage n v = 2 := by
  have hdue := h.due_eq
  have hsum : ∑ i, pend v i = 0 := by
    by_contra hne
    rw [if_neg hne, due] at hdue
    omega
  rw [if_pos hsum, due] at hdue
  have hpend : ∀ i, pend v i = 0 := fun i => by
    have := le_sum (pend v) i
    omega
  rw [stage, if_neg, if_neg, if_pos (by omega)]
  · intro hex
    obtain ⟨j, hj⟩ := hex
    have := hpend j
    omega
  · intro hex
    obtain ⟨j, hj⟩ := hex
    have := hpend j
    have := first_le_pend v j
    omega

theorem Inv.stage_collector (h : Inv n v) {i : ι} (hi : 0 < v.cpool i) : stage n v = 3 := by
  have hc := h.cfired_eq i
  have hcc := h.ccounter_eq i
  have hended : 0 < ended n v := by omega
  rw [stage, if_neg, if_neg, if_neg (by omega), if_pos]
  · exact ⟨i, by rw [h.toEnd_eq i (by omega)]; exact Nat.one_pos⟩
  · intro hex
    obtain ⟨j, hj⟩ := hex
    have := h.pend_of_ended hended j
    omega
  · intro hex
    obtain ⟨j, hj⟩ := hex
    have := h.pend_of_ended hended j
    have := first_le_pend v j
    omega

theorem Inv.stage_end (h : Inv n v) [Nonempty ι] (hi : 0 < v.epool) : stage n v = 4 := by
  have htoEnd := h.delivered (show 0 < v.epool + v.efired by omega)
  obtain ⟨i⟩ := ‹Nonempty ι›
  have hcfired : v.cfired i ≠ 0 := fun hz => by
    have := h.toEnd_eq i hz
    have := htoEnd i
    omega
  have hc := h.cfired_eq i
  have hended : 0 < ended n v := by omega
  rw [stage, if_neg, if_neg, if_neg (by omega), if_neg]
  · intro hex
    obtain ⟨j, hj⟩ := hex
    have := htoEnd j
    omega
  · intro hex
    obtain ⟨j, hj⟩ := hex
    have := h.pend_of_ended hended j
    omega
  · intro hex
    obtain ⟨j, hj⟩ := hex
    have := h.pend_of_ended hended j
    have := first_le_pend v j
    omega

/-- **When nothing is scheduled or under way the protocol has come to its end.** -/
theorem Inv.finished (h : Inv n v) (hpend : ∀ i, pend v i = 0) (hpool : v.pool = 0)
    (htest : v.toTest = 0) (hcpool : ∀ i, v.cpool i + v.toFinish i = 0)
    (hend : ∀ i, 0 < v.cfired i → v.toEnd i = 0) (hepool : v.epool = 0) :
    v.fired = n + 1 ∧ (∀ i, v.wfired i = n) ∧ (∀ i, v.cfired i = 1) ∧ v.efired = 1 := by
  have hsum : ∑ i, pend v i = 0 := Finset.sum_eq_zero fun i _ => hpend i
  have hdue := h.due_eq
  have hfired := h.fired_eq
  rw [if_pos hsum, due, hpool, htest] at hdue
  have hended : ended n v = 1 := by omega
  have hlast : v.fired = n + 1 := by
    by_contra hne
    rw [ended, if_neg (fun hc => hne hc.1)] at hended
    omega
  have hcfired : ∀ i, v.cfired i = 1 := fun i => by
    have := h.cfired_eq i
    have := hcpool i
    omega
  have htoEnd : ∑ i, v.toEnd i = 0 :=
    Finset.sum_eq_zero fun i _ => hend i (by rw [hcfired i]; exact Nat.one_pos)
  have hefired := h.efired_eq
  rw [if_pos htoEnd] at hefired
  rw [due] at hfired
  refine ⟨hlast, fun i => ?_, hcfired, by omega⟩
  have hw := h.wfired_eq i
  have hp := hpend i
  simp only [pend] at hp
  omega

/-- The last signal of a round schedules the loop codelet. -/
private theorem Inv.signalled (h : Inv n v) {first toSignal : ι → Nat} {i : ι}
    (hi : 0 < pend v i)
    (hsum : ∑ j, pend (v.owing first toSignal) j + 1 = ∑ j, pend v j)
    (hle : ∀ j, pend (v.owing first toSignal) j ≤ 1)
    (hfirst : ∀ j, 0 < first j → 0 < v.first j)
    (hrearm : ∀ j, v.toRearm j ≤ toSignal j) :
    Inv n (v.owing first toSignal).signalled := by
  obtain ⟨hpool, htest, hreset, hended, hcounter⟩ := h.waiting hi
  have hfired := h.fired_eq
  have hdue := h.due_eq
  rw [if_neg (by omega)] at hdue
  have hpool' : (v.owing first toSignal).signalled.pool = if v.counter = 1 then 1 else 0 := by
    show (if v.counter = 1 then v.pool + 1 else v.pool) = _
    rw [hpool]
  have hcounter' : (v.owing first toSignal).signalled.counter = v.counter - 1 :=
    fetchSub_of_pos (x := v.counter) (by omega)
  have hdue' : due n (v.owing first toSignal).signalled = if v.counter = 1 then 1 else 0 := by
    rw [due, hpool']
    show _ + v.toTest + ended n v = _
    rw [htest, hended]
    rfl
  refine
    { h with
      pend_le := hle
      due_eq := ?_
      fired_eq := ?_
      counter_eq := ?_
      first_eq := fun j hj => h.first_eq j (hfirst j hj)
      toRearm_le := hrearm }
  · have hone : v.counter = 1 ↔ ∑ j, pend (v.owing first toSignal) j = 0 := by omega
    rw [hdue']
    simp only [hone]
    rfl
  · rw [hdue', hpool']
    show v.fired + _ = rounds v + _
    omega
  · show (v.owing first toSignal).signalled.counter + Fintype.card ι * v.toReset =
      ∑ j, pend (v.owing first toSignal) j + Fintype.card ι * (v.toTest + ended n v)
    rw [hcounter', hreset, htest, hended]
    omega

end Counters

/-! ## The steps -/

variable [DecidableEq ι]

/-- The steps; `N` is the loop codelet's reset value and `n` the number of rounds. -/
inductive Step (N n : Nat) (v : State ι) : State ι → Prop
  | first (i : ι) (h : 0 < v.first i) :
      Step N n v (v.owing (Function.update v.first i (v.first i - 1)) v.toSignal).signalled
  | start (i : ι) (h : 0 < v.wpool i) :
      Step N n v { v with
        wpool := Function.update v.wpool i (v.wpool i - 1)
        wfired := Function.update v.wfired i (v.wfired i + 1)
        toRearm := Function.update v.toRearm i 1
        toSignal := Function.update v.toSignal i 1 }
  | rearm (i : ι) (h : 0 < v.toRearm i) :
      Step N n v { v with
        toRearm := Function.update v.toRearm i (v.toRearm i - 1)
        wcounter := Function.update v.wcounter i 1 }
  | signal (i : ι) (h : 0 < v.toSignal i) (hre : v.toRearm i = 0) :
      Step N n v (v.owing v.first (Function.update v.toSignal i (v.toSignal i - 1))).signalled
  | fire (h : 0 < v.pool) :
      Step N n v { v with pool := v.pool - 1, fired := v.fired + 1, toReset := 1, toTest := 1 }
  | reset (h : 0 < v.toReset) :
      Step N n v { v with toReset := v.toReset - 1, counter := N }
  | more (h : 0 < v.toTest) (hre : v.toReset = 0) (hlt : v.curIterations < n) :
      Step N n v { v with toTest := v.toTest - 1, toCount := 1, toRelease := fun _ => 1 }
  | last (h : 0 < v.toTest) (hre : v.toReset = 0) (hge : n ≤ v.curIterations) :
      Step N n v { v with toTest := v.toTest - 1, toFinish := fun _ => 1 }
  | count (h : 0 < v.toCount) :
      Step N n v { v with toCount := v.toCount - 1, curIterations := v.curIterations + 1 }
  | release (i : ι) (h : 0 < v.toRelease i) (hcount : v.toCount = 0) :
      Step N n v { v with
        toRelease := Function.update v.toRelease i (v.toRelease i - 1)
        wcounter := Function.update v.wcounter i (fetchSub (v.wcounter i))
        wpool := Function.update v.wpool i
          (if v.wcounter i = 1 then v.wpool i + 1 else v.wpool i) }
  | finish (i : ι) (h : 0 < v.toFinish i) :
      Step N n v { v with
        toFinish := Function.update v.toFinish i (v.toFinish i - 1)
        ccounter := Function.update v.ccounter i (fetchSub (v.ccounter i))
        cpool := Function.update v.cpool i
          (if v.ccounter i = 1 then v.cpool i + 1 else v.cpool i) }
  | collect (i : ι) (h : 0 < v.cpool i) :
      Step N n v { v with
        cpool := Function.update v.cpool i (v.cpool i - 1)
        cfired := Function.update v.cfired i (v.cfired i + 1) }
  | deliver (i : ι) (h : 0 < v.toEnd i) (hf : 0 < v.cfired i) :
      Step N n v { v with
        toEnd := Function.update v.toEnd i (v.toEnd i - 1)
        ecounter := fetchSub v.ecounter
        epool := if v.ecounter = 1 then v.epool + 1 else v.epool }
  | stop (h : 0 < v.epool) :
      Step N n v { v with epool := v.epool - 1, efired := v.efired + 1 }

section Run

variable {n : Nat} {v w : State ι}

/-- One summand drops by one. -/
private theorem sum_drop {f g : ι → Nat} {i : ι} (hi : g i + 1 = f i)
    (hne : ∀ j, j ≠ i → g j = f j) : ∑ j, g j + 1 = ∑ j, f j := by
  have hrest : ∑ j ∈ Finset.univ.erase i, g j = ∑ j ∈ Finset.univ.erase i, f j :=
    Finset.sum_congr rfl fun j hj => hne j (Finset.ne_of_mem_erase hj)
  rw [← Finset.add_sum_erase _ f (Finset.mem_univ i), ← Finset.add_sum_erase _ g (Finset.mem_univ i),
    ← hi, hrest]
  omega

omit [DecidableEq ι] in
private theorem sum_const_one {f : ι → Nat} (h : ∀ i, f i = 1) : ∑ i, f i = Fintype.card ι := by
  rw [Finset.sum_congr rfl fun i _ => h i, Finset.sum_const, Finset.card_univ, smul_eq_mul, mul_one]

omit [Fintype ι] in
/-- An update by one less, at an index where there is something to take. -/
private theorem update_pred {f : ι → Nat} {i : ι} (hi : 0 < f i) :
    Function.update f i (f i - 1) i + 1 = f i ∧
      ∀ j, j ≠ i → Function.update f i (f i - 1) j = f j := by
  refine ⟨?_, fun j hj => Function.update_of_ne hj _ _⟩
  rw [Function.update_self]
  omega

private theorem Inv.first (h : Inv n v) {i : ι} (hi : 0 < v.first i) :
    Inv n (v.owing (Function.update v.first i (v.first i - 1)) v.toSignal).signalled := by
  obtain ⟨hself, hne⟩ := update_pred hi
  have hp : 0 < pend v i := by simp only [pend]; omega
  refine h.signalled hp ?_ ?_ ?_ h.toRearm_le
  · refine sum_drop (i := i) ?_ ?_
    · simp only [pend, State.owing]; omega
    · intro j hj; simp only [pend, State.owing, hne j hj]
  · intro j
    have hle := h.pend_le j
    by_cases hj : j = i
    · subst hj; simp only [pend, State.owing] at hle ⊢; omega
    · simpa only [pend, State.owing, hne j hj] using hle
  · intro j hpos
    by_cases hj : j = i
    · subst hj; exact hi
    · rwa [hne j hj] at hpos

private theorem Inv.signal (h : Inv n v) {i : ι} (hi : 0 < v.toSignal i) (hre : v.toRearm i = 0) :
    Inv n (v.owing v.first (Function.update v.toSignal i (v.toSignal i - 1))).signalled := by
  obtain ⟨hself, hne⟩ := update_pred hi
  have hp : 0 < pend v i := by simp only [pend]; omega
  refine h.signalled hp ?_ ?_ (fun j hj => hj) ?_
  · refine sum_drop (i := i) ?_ ?_
    · simp only [pend, State.owing]; omega
    · intro j hj; simp only [pend, State.owing, hne j hj]
  · intro j
    have hle := h.pend_le j
    by_cases hj : j = i
    · subst hj; simp only [pend, State.owing] at hle ⊢; omega
    · simpa only [pend, State.owing, hne j hj] using hle
  · intro j
    by_cases hj : j = i
    · subst hj; omega
    · rw [hne j hj]; exact h.toRearm_le j

private theorem Inv.start (h : Inv n v) {i : ι} (hi : 0 < v.wpool i) :
    Inv n { v with
      wpool := Function.update v.wpool i (v.wpool i - 1)
      wfired := Function.update v.wfired i (v.wfired i + 1)
      toRearm := Function.update v.toRearm i 1
      toSignal := Function.update v.toSignal i 1 } := by
  have hpend : ∀ j, pend ({ v with
      wpool := Function.update v.wpool i (v.wpool i - 1)
      wfired := Function.update v.wfired i (v.wfired i + 1)
      toRearm := Function.update v.toRearm i 1
      toSignal := Function.update v.toSignal i 1 } : State ι) j = pend v j := by
    intro j
    have hle := h.pend_le j
    by_cases hj : j = i
    · subst hj; simp only [pend, Function.update_self] at hle ⊢; omega
    · simp only [pend, Function.update_of_ne hj]
  refine
    { h with
      pend_le := fun j => (hpend j).trans_le (h.pend_le j)
      due_eq := by simp only [hpend]; exact h.due_eq
      counter_eq := by simp only [hpend]; exact h.counter_eq
      wfired_eq := fun j => ?_
      wcounter_eq := fun j => ?_
      toRearm_le := fun j => ?_ }
  · have hw := h.wfired_eq j
    by_cases hj : j = i
    · subst hj; simp only [Function.update_self]; show _ = rounds v; omega
    · simp only [Function.update_of_ne hj]; exact hw
  · have hw := h.wcounter_eq j
    have hr := h.toRearm_le j
    have hle := h.pend_le j
    by_cases hj : j = i
    · subst hj; simp only [pend, Function.update_self] at hle ⊢; omega
    · simp only [Function.update_of_ne hj]; exact hw
  · by_cases hj : j = i
    · subst hj; simp only [Function.update_self, Nat.le_refl]
    · simp only [Function.update_of_ne hj]; exact h.toRearm_le j

private theorem Inv.rearm (h : Inv n v) {i : ι} (hi : 0 < v.toRearm i) :
    Inv n { v with
      toRearm := Function.update v.toRearm i (v.toRearm i - 1)
      wcounter := Function.update v.wcounter i 1 } := by
  refine { h with wcounter_eq := fun j => ?_, toRearm_le := fun j => ?_ }
  · have hw := h.wcounter_eq j
    by_cases hj : j = i
    · subst hj; simp only [Function.update_self]; omega
    · simp only [Function.update_of_ne hj]; exact hw
  · have hr := h.toRearm_le j
    by_cases hj : j = i
    · subst hj; simp only [Function.update_self]; omega
    · simp only [Function.update_of_ne hj]; exact hr

omit [DecidableEq ι] in
private theorem Inv.count (h : Inv n v) (hi : 0 < v.toCount) :
    Inv n { v with toCount := v.toCount - 1, curIterations := v.curIterations + 1 } := by
  have hround : rounds ({ v with
      toCount := v.toCount - 1, curIterations := v.curIterations + 1 } : State ι) = rounds v := by
    simp only [rounds]
    omega
  exact
    { h with
      fired_eq := by rw [hround]; exact h.fired_eq
      rounds_le := by rw [hround]; exact h.rounds_le
      first_eq := by rw [hround]; exact h.first_eq
      toRelease_eq := fun hc => h.toRelease_eq (by simp only at hc; omega)
      wfired_eq := by rw [hround]; exact h.wfired_eq }

private theorem Inv.release (h : Inv n v) {i : ι} (hi : 0 < v.toRelease i) (hcount : v.toCount = 0) :
    Inv n { v with
      toRelease := Function.update v.toRelease i (v.toRelease i - 1)
      wcounter := Function.update v.wcounter i (fetchSub (v.wcounter i))
      wpool := Function.update v.wpool i
          (if v.wcounter i = 1 then v.wpool i + 1 else v.wpool i) } := by
  have hone := h.release_one hi
  have hpend : ∀ j, pend ({ v with
      toRelease := Function.update v.toRelease i (v.toRelease i - 1)
      wcounter := Function.update v.wcounter i (fetchSub (v.wcounter i))
      wpool := Function.update v.wpool i
          (if v.wcounter i = 1 then v.wpool i + 1 else v.wpool i) } : State ι) j = pend v j := by
    intro j
    rw [if_pos hone]
    by_cases hj : j = i
    · subst hj; simp only [pend, Function.update_self]; omega
    · simp only [pend, Function.update_of_ne hj]
  refine
    { h with
      pend_le := fun j => (hpend j).trans_le (h.pend_le j)
      due_eq := by simp only [hpend]; exact h.due_eq
      counter_eq := by simp only [hpend]; exact h.counter_eq
      toRelease_eq := fun hc => absurd hcount (Nat.pos_iff_ne_zero.mp hc)
      wfired_eq := fun j => ?_
      wcounter_eq := fun j => ?_ }
  · have hw := h.wfired_eq j
    simp only [if_pos hone]
    by_cases hj : j = i
    · subst hj; simp only [Function.update_self]; show _ = rounds v; omega
    · simp only [Function.update_of_ne hj]; exact hw
  · have hw := h.wcounter_eq j
    simp only [if_pos hone]
    by_cases hj : j = i
    · subst hj
      simp only [Function.update_self, hone, fetchSub_of_pos (Nat.one_ne_zero)]
      omega
    · simp only [Function.update_of_ne hj]; exact hw

private theorem Inv.finish (h : Inv n v) {i : ι} (hi : 0 < v.toFinish i) :
    Inv n { v with
      toFinish := Function.update v.toFinish i (v.toFinish i - 1)
      ccounter := Function.update v.ccounter i (fetchSub (v.ccounter i))
      cpool := Function.update v.cpool i
          (if v.ccounter i = 1 then v.cpool i + 1 else v.cpool i) } := by
  have hone := h.finish_one hi
  refine { h with cfired_eq := fun j => ?_, ccounter_eq := fun j => ?_ }
  · have hc := h.cfired_eq j
    simp only [if_pos hone]
    by_cases hj : j = i
    · subst hj; simp only [Function.update_self]; show _ = ended n v; omega
    · simp only [Function.update_of_ne hj]; exact hc
  · have hc := h.ccounter_eq j
    simp only [if_pos hone]
    by_cases hj : j = i
    · subst hj
      simp only [Function.update_self, hone, fetchSub_of_pos (Nat.one_ne_zero)]
      omega
    · simp only [Function.update_of_ne hj]; exact hc

private theorem Inv.collect (h : Inv n v) {i : ι} (hi : 0 < v.cpool i) :
    Inv n { v with
      cpool := Function.update v.cpool i (v.cpool i - 1)
      cfired := Function.update v.cfired i (v.cfired i + 1) } := by
  refine { h with cfired_eq := fun j => ?_, ccounter_eq := fun j => ?_, toEnd_eq := fun j => ?_ }
  · have hc := h.cfired_eq j
    by_cases hj : j = i
    · subst hj; simp only [Function.update_self]; show _ = ended n v; omega
    · simp only [Function.update_of_ne hj]; exact hc
  · have hc := h.ccounter_eq j
    by_cases hj : j = i
    · subst hj; simp only [Function.update_self]; omega
    · simp only [Function.update_of_ne hj]; exact hc
  · by_cases hj : j = i
    · subst hj; simp only [Function.update_self]; omega
    · simp only [Function.update_of_ne hj]; exact h.toEnd_eq j

private theorem Inv.deliver (h : Inv n v) {i : ι} (hi : 0 < v.toEnd i) (hf : 0 < v.cfired i) :
    Inv n { v with
      toEnd := Function.update v.toEnd i (v.toEnd i - 1)
      ecounter := fetchSub v.ecounter
      epool := if v.ecounter = 1 then v.epool + 1 else v.epool } := by
  obtain ⟨hself, hne⟩ := update_pred hi
  have hsum := sum_drop (i := i) hself hne
  have hc := h.ecounter_eq
  have he := h.efired_eq
  rw [if_neg (by omega)] at he
  refine
    { h with
      toEnd_eq := fun j hj => ?_
      toEnd_le := fun j => ?_
      ecounter_eq := ?_
      efired_eq := ?_ }
  · by_cases hji : j = i
    · subst hji; exact absurd hj (Nat.pos_iff_ne_zero.mp hf)
    · exact (hne j hji).trans (h.toEnd_eq j hj)
  · have hle := h.toEnd_le j
    by_cases hji : j = i
    · subst hji; show Function.update v.toEnd j (v.toEnd j - 1) j ≤ 1; omega
    · exact (hne j hji).trans_le hle
  · show fetchSub v.ecounter = _
    rw [fetchSub_of_pos (by omega)]
    show _ = ∑ j, Function.update v.toEnd i (v.toEnd i - 1) j
    omega
  · show (if v.ecounter = 1 then v.epool + 1 else v.epool) + v.efired =
      if ∑ j, Function.update v.toEnd i (v.toEnd i - 1) j = 0 then 1 else 0
    split <;> split <;> omega

omit [DecidableEq ι] in
private theorem Inv.stop (h : Inv n v) (hi : 0 < v.epool) :
    Inv n { v with epool := v.epool - 1, efired := v.efired + 1 } := by
  have he := h.efired_eq
  refine { h with efired_eq := ?_ }
  show v.epool - 1 + (v.efired + 1) = if ∑ i, v.toEnd i = 0 then 1 else 0
  omega

end Run

section Round

variable [Nonempty ι] {n : Nat} {v w : State ι}

omit [DecidableEq ι] [Nonempty ι] in
/-- Before anything has been signalled. -/
theorem Inv.init [Nonempty ι] (n : Nat) : Inv n (State.start : State ι) := by
  have hcard : Fintype.card ι ≠ 0 := Fintype.card_ne_zero
  have hpend : ∀ i : ι, pend (State.start : State ι) i = 1 := fun _ => rfl
  have hsum : ∑ i : ι, pend (State.start : State ι) i = Fintype.card ι := sum_const_one hpend
  have hend : ∑ i : ι, (State.start : State ι).toEnd i = Fintype.card ι :=
    sum_const_one fun _ => rfl
  have hended : ended n (State.start : State ι) = 0 := by simp [ended, State.start]
  have hdue : due n (State.start : State ι) = 0 := by rw [due, hended]; rfl
  refine
    { pend_le := fun i => Nat.le_of_eq (hpend i)
      due_eq := ?_
      fired_eq := by rw [hdue]; rfl
      rounds_le := Nat.zero_le n
      counter_eq := ?_
      toReset_le := Nat.le_refl 0
      first_eq := fun _ _ => rfl
      toRelease_eq := fun h => absurd h (Nat.lt_irrefl 0)
      wfired_eq := fun _ => rfl
      wcounter_eq := fun _ => rfl
      toRearm_le := fun _ => Nat.le_refl 0
      cfired_eq := fun _ => hended.symm
      ccounter_eq := fun _ => rfl
      toEnd_eq := fun _ _ => rfl
      toEnd_le := fun _ => Nat.le_refl 1
      ecounter_eq := hend.symm
      efired_eq := ?_ }
  · rw [hdue, hsum, if_neg hcard]
  · rw [hended, hsum]
    show Fintype.card ι + Fintype.card ι * 0 = Fintype.card ι + Fintype.card ι * (0 + 0)
    rfl
  · rw [hend, if_neg hcard]
    rfl

omit [DecidableEq ι] in
/-- When a round is over nobody owes anything, and the round has been counted. -/
theorem Inv.over (h : Inv n v) (hpos : 0 < v.pool + v.toTest) :
    (∀ i, pend v i = 0) ∧ ∑ i, pend v i = 0 ∧ v.pool + v.toTest = 1 ∧ ended n v = 0 ∧
      v.toCount = 0 := by
  have hdue := h.due_eq
  have hsum : ∑ i, pend v i = 0 := by
    by_contra hne
    rw [if_neg hne, due] at hdue
    omega
  have hpend : ∀ i, pend v i = 0 := fun i => by
    have := le_sum (pend v) i
    omega
  rw [if_pos hsum, due] at hdue
  refine ⟨hpend, hsum, by omega, by omega, ?_⟩
  obtain ⟨i⟩ := ‹Nonempty ι›
  by_contra hne
  have hrel := h.toRelease_eq (by omega) i
  have := hpend i
  simp only [pend] at this
  omega

omit [DecidableEq ι] in
private theorem Inv.fire (h : Inv n v) (hi : 0 < v.pool) :
    Inv n { v with pool := v.pool - 1, fired := v.fired + 1, toReset := 1, toTest := 1 } := by
  obtain ⟨-, hsum, hone, hended, -⟩ := h.over (by omega)
  have hfired := h.fired_eq
  have hc := h.counter_eq
  have hre := h.toReset_le
  have hended' : ended n ({ v with
      pool := v.pool - 1, fired := v.fired + 1, toReset := 1, toTest := 1 } : State ι) = 0 := by
    simp [ended]
  have hdue : due n v = 1 := by rw [due]; omega
  refine
    { h with
      due_eq := ?_
      fired_eq := ?_
      counter_eq := ?_
      toReset_le := Nat.le_refl 1
      cfired_eq := fun j => by rw [hended', ← hended]; exact h.cfired_eq j }
  · rw [due, hended']
    show v.pool - 1 + 1 + 0 = if ∑ i, pend v i = 0 then 1 else 0
    rw [if_pos hsum]
    omega
  · rw [due, hended']
    show v.fired + 1 + (v.pool - 1) = rounds v + (v.pool - 1 + 1 + 0)
    omega
  · rw [hended']
    show v.counter + Fintype.card ι * 1 = ∑ i, pend v i + Fintype.card ι * (1 + 0)
    have hz : v.toReset = 0 ∧ v.toTest + ended n v = 0 := by omega
    rw [hz.1, hz.2] at hc
    omega

omit [DecidableEq ι] in
private theorem Inv.reset (h : Inv n v) (hi : 0 < v.toReset) :
    Inv n { v with toReset := v.toReset - 1, counter := Fintype.card ι } := by
  have hre := h.toReset_le
  obtain ⟨-, hsum, hone, hended, -⟩ := h.over (by omega)
  refine { h with counter_eq := ?_, toReset_le := by show v.toReset - 1 ≤ v.toTest; omega }
  show Fintype.card ι + Fintype.card ι * (v.toReset - 1) =
    ∑ i, pend v i + Fintype.card ι * (v.toTest + ended n v)
  have hz : v.toReset - 1 = 0 ∧ v.toTest + ended n v = 1 := by omega
  rw [hsum, hz.1, hz.2]
  omega

omit [DecidableEq ι] in
private theorem Inv.more (h : Inv n v) (hi : 0 < v.toTest) (hre : v.toReset = 0)
    (hlt : v.curIterations < n) :
    Inv n { v with toTest := v.toTest - 1, toCount := 1, toRelease := fun _ => 1 } := by
  obtain ⟨hpend, hsum, hone, hended, hcount⟩ := h.over (by omega)
  have hfired := h.fired_eq
  have hc := h.counter_eq
  have hdue : due n v = 1 := by rw [due]; omega
  have hround : rounds v = v.curIterations := by rw [rounds, hcount, Nat.add_zero]
  have hpend' : ∀ j, pend ({ v with
      toTest := v.toTest - 1, toCount := 1, toRelease := fun _ => 1 } : State ι) j = 1 := by
    intro j
    have := hpend j
    simp only [pend] at this ⊢
    omega
  have hsum' : ∑ j, pend ({ v with
      toTest := v.toTest - 1, toCount := 1, toRelease := fun _ => 1 } : State ι) j =
      Fintype.card ι := by
    rw [sum_const_one hpend']
  have hended' : ended n ({ v with
      toTest := v.toTest - 1, toCount := 1, toRelease := fun _ => 1 } : State ι) = 0 := by
    rw [ended, if_neg]
    intro hboth
    obtain ⟨hf, -⟩ := hboth
    simp only at hf
    omega
  have hcard : Fintype.card ι ≠ 0 := Fintype.card_ne_zero
  refine
    { h with
      pend_le := fun j => Nat.le_of_eq (hpend' j)
      due_eq := ?_
      fired_eq := ?_
      rounds_le := ?_
      counter_eq := ?_
      toReset_le := by rw [hre]; exact Nat.zero_le _
      first_eq := fun j hj => ?_
      toRelease_eq := fun _ j => rfl
      wfired_eq := fun j => ?_
      cfired_eq := fun j => by rw [hended', ← hended]; exact h.cfired_eq j }
  · rw [due, hended', hsum', if_neg hcard]
    show v.pool + (v.toTest - 1) + 0 = 0
    omega
  · rw [due, hended']
    show v.fired + v.pool = v.curIterations + 1 + (v.pool + (v.toTest - 1) + 0)
    omega
  · show v.curIterations + 1 ≤ n
    omega
  · rw [hended', hsum']
    show v.counter + Fintype.card ι * v.toReset =
      Fintype.card ι + Fintype.card ι * (v.toTest - 1 + 0)
    have hz : v.toTest - 1 + 0 = 0 ∧ v.toTest + ended n v = 1 := by omega
    rw [hz.2, hsum] at hc
    rw [hz.1]
    omega
  · have := hpend j
    simp only [pend] at this
    simp only at hj
    omega
  · have hw := h.wfired_eq j
    have := hpend j
    simp only [pend] at this
    show v.wpool j + v.wfired j + 1 = v.curIterations + 1
    omega

omit [DecidableEq ι] in
private theorem Inv.last (h : Inv n v) (hi : 0 < v.toTest) (hre : v.toReset = 0)
    (hge : n ≤ v.curIterations) : Inv n { v with toTest := v.toTest - 1, toFinish := fun _ => 1 } := by
  obtain ⟨hpend, hsum, hone, hended, hcount⟩ := h.over (by omega)
  have hfired := h.fired_eq
  have hc := h.counter_eq
  have hdue : due n v = 1 := by rw [due]; omega
  have hround : rounds v = v.curIterations := by rw [rounds, hcount, Nat.add_zero]
  have hle := h.rounds_le
  have hended' : ended n ({ v with
      toTest := v.toTest - 1, toFinish := fun _ => 1 } : State ι) = 1 := by
    rw [ended, if_pos]
    exact ⟨by simp only; omega, by simp only; omega⟩
  refine
    { h with
      due_eq := ?_
      fired_eq := ?_
      counter_eq := ?_
      toReset_le := by rw [hre]; exact Nat.zero_le _
      cfired_eq := fun j => ?_ }
  · rw [due, hended']
    show v.pool + (v.toTest - 1) + 1 = if ∑ i, pend v i = 0 then 1 else 0
    rw [if_pos hsum]
    omega
  · rw [due, hended']
    show v.fired + v.pool = rounds v + (v.pool + (v.toTest - 1) + 1)
    omega
  · rw [hended']
    show v.counter + Fintype.card ι * v.toReset =
      ∑ i, pend v i + Fintype.card ι * (v.toTest - 1 + 1)
    have hz : v.toTest - 1 + 1 = v.toTest + ended n v := by omega
    rw [hz]
    exact hc
  · rw [hended']
    have := h.cfired_eq j
    show v.cpool j + v.cfired j + 1 = 1
    omega

/-- **Every step keeps the invariant.** -/
theorem Inv.step (h : Inv n v) (hs : Step (Fintype.card ι) n v w) : Inv n w := by
  cases hs with
  | first i hi => exact h.first hi
  | start i hi => exact h.start hi
  | rearm i hi => exact h.rearm hi
  | signal i hi hre => exact h.signal hi hre
  | fire hi => exact h.fire hi
  | reset hi => exact h.reset hi
  | more hi hre hlt => exact h.more hi hre hlt
  | last hi hre hge => exact h.last hi hre hge
  | count hi => exact h.count hi
  | release i hi hc => exact h.release hi hc
  | finish i hi => exact h.finish hi
  | collect i hi => exact h.collect hi
  | deliver i hi hf => exact h.deliver hi hf
  | stop hi => exact h.stop hi

end Round

end Darts.Rounds
