import Darts.Threading.Machine

/-!
# No signal lost, none doubled

`ExactSignals` is what a program of codelets promises its counters: a `decDep`
never finds a counter at zero, where it would wrap round, a `resetCodelet` only
ever overwrites a zero, that is a counter that has received all signals of its
round and none of the next, and every codelet fires as often as it should.

`ledger` draws the balance over a whole run: the signals sent to a codelet and
what its counter still expects add up to what the counter has been armed with.
-/

namespace Darts

open Transition Word

variable {K A M : Type} [DecidableEq K]

/-- The program sends exact signals: `last` is the codelet that ends a run and
`firings k` is how often `k` fires. -/
structure ExactSignals (P : Program K A M) (s₀ : State K A M) (last : K) (firings : K → Nat) :
    Prop where
  /-- No `decDep` is applied to a counter at 0. -/
  dec_pos : ∀ s, Reachable P.step s₀ s → ∀ k j d os, s.rest k j = .decDep d :: os →
    (s.sync d).counter_ ≠ 0
  /-- No `resetCodelet` overwrites anything but 0. -/
  reset_zero : ∀ s, Reachable P.step s₀ s → ∀ k j d os, s.rest k j = .resetCodelet d :: os →
    (s.sync d).counter_ = 0
  fired_le : ∀ s, Reachable P.step s₀ s → ∀ k, s.pool k + s.fired k ≤ firings k
  /-- A run is complete when its last codelet has fired or nothing can move. -/
  fired_eq : ∀ s, Reachable P.step s₀ s → 0 < s.fired last ∨ Stuck P.step s →
    ∀ k, s.fired k = firings k

/-! ## The balance of a run -/

/-- The operation a step executes, if it is one. -/
def State.nextOp (s : State K A M) : Label K → Option (Op K A)
  | .fire _ => none
  | .op k j => (s.rest k j).head?

variable [DecidableEq A]

/-- How often a run executes the operation `o`. -/
def executions (P : Program K A M) (o : Op K A) : State K A M → List (Label K) → Nat
  | _, [] => 0
  | s, l :: ls => (if s.nextOp l = some o then 1 else 0) +
      ((P.step s l).map fun t => executions P o t ls).getD 0

variable {P : Program K A M} {s₀ s t : State K A M} {last : K} {firings : K → Nat}

/-- A number that a state shows and that grows by one with every execution of `o` counts
the executions of `o`. -/
theorem executions_eq {o : Op K A} (shown : State K A M → Nat)
    (hstep : ∀ s l t, Reachable P.step s₀ s → P.step s l = some t →
      shown t = shown s + if s.nextOp l = some o then 1 else 0)
    {ls : List (Label K)} (hrun : run P.step s₀ ls = some t) :
    shown t = shown s₀ + executions P o s₀ ls := by
  -- from any state on the way, by induction on what is left of the run
  have main : ∀ (ls : List (Label K)) (s : State K A M), Reachable P.step s₀ s →
      run P.step s ls = some t → shown t = shown s + executions P o s ls := by
    intro ls
    induction ls with
    | nil =>
      intro s _ hrun
      obtain rfl := Option.some.inj hrun
      rfl
    | cons l ls ih =>
      intro s hs hrun
      obtain ⟨u, hu, hrest⟩ := Option.bind_eq_some_iff.mp hrun
      have htail := ih u (hs.next hu) hrest
      have hhead := hstep s l u hs hu
      simp only [executions, hu, Option.map_some, Option.getD_some]
      omega
  exact main ls s₀ .start hrun

omit [DecidableEq K] [DecidableEq A] in
/-- The next operation is an action exactly when the next action is that one. -/
theorem State.nextOp_eq_act {l : Label K} {a : A} :
    s.nextOp l = some (.act a) ↔ s.nextAct l = some a := by
  cases l with
  | fire k => simp [nextOp, nextAct]
  | op k j =>
    simp only [nextOp, nextAct]
    generalize s.rest k j = body
    cases body with
    | nil => simp [Op.headAct]
    | cons o os => cases o <;> simp [Op.headAct]

/-- One step: a signal takes one off the counter, a reset puts the round's number
back on. -/
theorem ExactSignals.ledger_step (h : ExactSignals P s₀ last firings)
    (hs : Reachable P.step s₀ s) {l : Label K} (hl : P.step s l = some t) (d : K) :
    (t.sync d).reset_ = (s.sync d).reset_ ∧
    (if s.nextOp l = some (.decDep d) then 1 else 0) + (t.sync d).counter_ =
      (s.sync d).counter_ +
        (if s.nextOp l = some (.resetCodelet d) then 1 else 0) * (s.sync d).reset_ := by
  cases Program.step_inv hl with
  | fire k _ => simp [State.nextOp]
  | decDep k j d' os hrest =>
    have hpos := h.dec_pos s hs k j d' os hrest
    rw [State.decDep_sync]
    simp only [State.nextOp, hrest, List.head?_cons, Option.some.injEq, Op.decDep.injEq,
      reduceCtorEq, if_false, Nat.zero_mul, Nat.add_zero]
    by_cases hd : d = d'
    · subst hd
      rw [if_pos rfl, if_pos rfl]
      refine ⟨rfl, ?_⟩
      show 1 + fetchSub (s.sync d).counter_ = _
      rw [fetchSub_of_pos hpos]
      omega
    · rw [if_neg hd, if_neg (Ne.symm hd)]
      exact ⟨rfl, Nat.zero_add _⟩
  | resetCodelet k j d' os hrest =>
    have hzero := h.reset_zero s hs k j d' os hrest
    rw [State.resetCodelet_sync]
    simp only [State.nextOp, hrest, List.head?_cons, Option.some.injEq, Op.resetCodelet.injEq,
      reduceCtorEq, if_false, Nat.zero_add]
    by_cases hd : d = d'
    · subst hd
      rw [if_pos rfl, if_pos rfl, hzero]
      exact ⟨rfl, by simp⟩
    · rw [if_neg hd, if_neg (Ne.symm hd)]
      exact ⟨rfl, by simp⟩
  | act k j a os new m hrest _ => simp [State.nextOp, hrest]

/-- **The ledger**: in every run the signals sent to a codelet and those its counter
still expects add up to what the counter started with and what the resets have put
back. -/
theorem ExactSignals.ledger (h : ExactSignals P s₀ last firings) {ls : List (Label K)}
    (hrun : run P.step s₀ ls = some t) (d : K) :
    executions P (.decDep d) s₀ ls + (t.sync d).counter_ =
      (s₀.sync d).counter_ + executions P (.resetCodelet d) s₀ ls * (s₀.sync d).reset_ := by
  have main : ∀ (ls : List (Label K)) (s : State K A M), Reachable P.step s₀ s →
      run P.step s ls = some t →
      executions P (.decDep d) s ls + (t.sync d).counter_ =
        (s.sync d).counter_ + executions P (.resetCodelet d) s ls * (s.sync d).reset_ := by
    intro ls
    induction ls with
    | nil =>
      intro s _ hrun
      obtain rfl := Option.some.inj hrun
      simp [executions]
    | cons l ls ih =>
      intro s hs hrun
      obtain ⟨u, hu, hrest⟩ := Option.bind_eq_some_iff.mp hrun
      obtain ⟨hreset, hstep⟩ := h.ledger_step hs hu d
      have := ih u (hs.next hu) hrest
      rw [hreset] at this
      simp only [executions, hu, Option.map_some, Option.getD_some, Nat.add_mul]
      omega
  exact main ls s₀ .start hrun

end Darts
