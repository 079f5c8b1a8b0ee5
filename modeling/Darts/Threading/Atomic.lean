import Mathlib.Data.List.Basic
import Darts.Threading.Machine

/-!
# Codelets fired one after another

A scheduler with a single worker runs one `fire()` to its end before it takes the
next codelet. `Fires` is such a firing as a run of the interleaving machine, and
`fireAll` the state it leads to when the body does not wait and does not unfold:
the counters and the frame change separately, so that two codelets can be fired
in either order when their counter operations and their effects on the frame
commute (`fireAll_comm`).
-/

namespace Darts

open Transition

variable {K A M : Type} [DecidableEq K]

namespace State

/-- A scheduler takes `k` from the pool. -/
def take (s : State K A M) (k : K) : State K A M :=
  { s with
    pool := Function.update s.pool k (s.pool k - 1)
    fired := Function.update s.fired k (s.fired k + 1) }

/-- What an operation does to the counters. -/
def signal (s : State K A M) : Op K A → State K A M
  | .decDep d => s.decDep d
  | .resetCodelet d => s.resetCodelet d
  | .act _ => s

/-- The state with another frame. -/
def setMem (s : State K A M) (m : M) : State K A M := { s with mem := m }

end State

namespace Program

variable (P : Program K A M)

/-- What an operation does to the frame. -/
def opMem (m : M) : Op K A → M
  | .act a => ((P.exec a m).map Prod.fst).getD m
  | _ => m

/-- What a body does to the frame. -/
def effect (os : List (Op K A)) (m : M) : M := os.foldl P.opMem m

/-- `k` fired from start to end. -/
def fireAll (s : State K A M) (k : K) : State K A M :=
  ((P.fire k).foldl State.signal (s.take k)).setMem (P.effect (P.fire k) s.mem)

/-- A run that fires `k` and nothing else, to the end. -/
def Fires (s : State K A M) (k : K) (t : State K A M) : Prop :=
  ∃ m, run P.step s (.fire k :: List.replicate m (.op k (s.fired k))) = some t ∧
    t.rest k (s.fired k) = []

/-- The actions of a body neither wait nor unfold. -/
def Plain (os : List (Op K A)) : Prop :=
  ∀ a, .act a ∈ os → ∀ m, ∃ m', P.exec a m = some (m', [])

variable {P} {s t : State K A M} {k k' : K} {j : Nat}

theorem Fires.reachable (h : P.Fires s k t) : Reachable P.step s t := by
  obtain ⟨m, hrun, -⟩ := h
  exact Reachable.of_run hrun

/-- What commutes with every operation of a body commutes with the body. -/
private theorem foldl_signal {os : List (Op K A)} (g : State K A M → State K A M)
    (h : ∀ o ∈ os, ∀ s, (g s).signal o = g (s.signal o)) (s : State K A M) :
    os.foldl State.signal (g s) = g (os.foldl State.signal s) := by
  induction os generalizing s with
  | nil => rfl
  | cons o os ih =>
    rw [List.foldl_cons, List.foldl_cons, h o (List.mem_cons_self ..),
      ih fun o' ho' => h o' (List.mem_cons_of_mem _ ho')]

private theorem foldl_setMem (os : List (Op K A)) (s : State K A M) (m : M) :
    os.foldl State.signal (s.setMem m) = (os.foldl State.signal s).setMem m :=
  foldl_signal (fun s => s.setMem m) (fun o _ s => by cases o <;> rfl) s

/-- What no operation changes no body changes. -/
private theorem foldl_field {β : Type} (f : State K A M → β)
    (h : ∀ (s : State K A M) o, f (s.signal o) = f s) (os : List (Op K A)) (s : State K A M) :
    f (os.foldl State.signal s) = f s := by
  induction os generalizing s with
  | nil => rfl
  | cons o os ih => rw [List.foldl_cons, ih, h]

private theorem foldl_rest (os : List (Op K A)) (s : State K A M) :
    (os.foldl State.signal s).rest = s.rest :=
  foldl_field (fun s => s.rest) (fun s o => by cases o <;> rfl) os s

private theorem setRest_self {s : State K A M} {l : List (Op K A)} (h : s.rest k j = l) :
    s.setRest k j l = s := by
  subst h
  simp only [State.setRest, Function.update_eq_self]

private theorem setRest_setRest (s : State K A M) (l l' : List (Op K A)) :
    (s.setRest k j l).setRest k j l' = s.setRest k j l' := by
  simp only [State.setRest, Function.update_self, Function.update_idem]

/-- Working off a body leads to one state only. -/
private theorem run_body {os : List (Op K A)} (hplain : P.Plain os) (s : State K A M) (m : Nat) :
    (run P.step (s.setRest k j os) (List.replicate m (.op k j)) = some t ∧ t.rest k j = []) ↔
      m = os.length ∧ t = ((os.foldl State.signal s).setMem (P.effect os s.mem)).setRest k j [] := by
  induction os generalizing s m with
  | nil =>
    cases m with
    | zero =>
      simp only [List.replicate, run, Option.some.injEq, List.length_nil, true_and, List.foldl_nil,
        effect, State.setMem]
      constructor
      · intro hboth
        obtain ⟨rfl, -⟩ := hboth
        rfl
      · intro he
        subst he
        exact ⟨rfl, by simp⟩
    | succ m =>
      have hstep : P.step (s.setRest k j []) (.op k j) = none := by
        simp [step]
      simp [List.replicate_succ, run, hstep]
  | cons o os ih =>
    have hplain' : P.Plain os := fun a ha => hplain a (List.mem_cons_of_mem _ ha)
    cases m with
    | zero =>
      simp only [List.replicate, run, Option.some.injEq, List.length_cons]
      constructor
      · intro hboth
        obtain ⟨rfl, hr⟩ := hboth
        simp at hr
      · intro hex
        obtain ⟨h, -⟩ := hex
        omega
    | succ m =>
      have hstep : P.step (s.setRest k j (o :: os)) (.op k j) =
          some (((s.signal o).setMem (P.opMem s.mem o)).setRest k j os) := by
        simp only [step, State.setRest_rest_self]
        cases o with
        | decDep d =>
          simp only [execOp, Option.some.injEq]
          show ((s.setRest k j _).setRest k j os).decDep d = _
          rw [setRest_setRest]
          rfl
        | resetCodelet d =>
          simp only [execOp, Option.some.injEq]
          show ((s.setRest k j _).setRest k j os).resetCodelet d = _
          rw [setRest_setRest]
          rfl
        | act a =>
          obtain ⟨m', hm'⟩ := hplain a (List.mem_cons_self ..) s.mem
          simp only [execOp, State.setRest_mem, hm', Option.map_some, List.nil_append,
            setRest_setRest, Option.some.injEq]
          simp only [State.signal, opMem, hm', Option.map_some, Option.getD_some]
          rfl
      rw [List.replicate_succ, run, hstep, Option.bind_some, ih hplain', List.length_cons,
        foldl_setMem]
      simp only [State.setMem, List.foldl_cons, effect, Nat.succ_inj]

/-- **Firing a codelet to its end leads to one state**, the same whatever the other
codelets have left to do. -/
theorem fires_iff (hpool : 0 < s.pool k) (hrest : s.rest k (s.fired k) = [])
    (hplain : P.Plain (P.fire k)) : P.Fires s k t ↔ t = P.fireAll s k := by
  have hbegin : s.begin k (P.fire k) = (s.take k).setRest k (s.fired k) (P.fire k) := rfl
  have hfinal : (((P.fire k).foldl State.signal (s.take k)).setMem
      (P.effect (P.fire k) s.mem)).setRest k (s.fired k) [] = P.fireAll s k := by
    refine setRest_self ?_
    show ((P.fire k).foldl State.signal (s.take k)).rest k (s.fired k) = []
    rw [foldl_rest]
    exact hrest
  constructor
  · intro hex
    obtain ⟨m, hrun, ht⟩ := hex
    rw [run, step_fire hpool, Option.bind_some, hbegin] at hrun
    exact ((run_body hplain _ m).mp ⟨hrun, ht⟩).2.trans hfinal
  · intro he
    subst he
    refine ⟨(P.fire k).length, ?_⟩
    rw [run, step_fire hpool, Option.bind_some, hbegin]
    exact (run_body hplain _ _).mpr ⟨rfl, hfinal.symm⟩

/-- A firing leads to one state only. -/
theorem Fires.unique {t' : State K A M} (hpool : 0 < s.pool k) (hrest : s.rest k (s.fired k) = [])
    (hplain : P.Plain (P.fire k)) (h : P.Fires s k t) (h' : P.Fires s k t') : t = t' :=
  ((fires_iff hpool hrest hplain).mp h).trans ((fires_iff hpool hrest hplain).mp h').symm

@[simp] theorem fireAll_mem (P : Program K A M) (s : State K A M) (k : K) :
    (P.fireAll s k).mem = P.effect (P.fire k) s.mem := rfl

@[simp] theorem fireAll_rest (P : Program K A M) (s : State K A M) (k : K) :
    (P.fireAll s k).rest = s.rest := foldl_rest _ _

theorem fireAll_fired (P : Program K A M) (s : State K A M) (k : K) :
    (P.fireAll s k).fired = Function.update s.fired k (s.fired k + 1) :=
  foldl_field (fun s => s.fired) (fun s o => by cases o <;> rfl) (P.fire k) (s.take k)

/-- Firing one codelet takes no other from the pool. -/
theorem le_fireAll_pool (P : Program K A M) (s : State K A M) (hk : k ≠ k') :
    s.pool k' ≤ (P.fireAll s k).pool k' := by
  have main : ∀ (os : List (Op K A)) (s : State K A M),
      s.pool k' ≤ (os.foldl State.signal s).pool k' := by
    intro os
    induction os with
    | nil => exact fun s => Nat.le_refl _
    | cons o os ih =>
      intro s
      refine Nat.le_trans ?_ (ih (s.signal o))
      cases o with
      | act a => exact Nat.le_refl _
      | resetCodelet d => exact Nat.le_refl _
      | decDep d =>
        show s.pool k' ≤ (s.decDep d).pool k'
        rw [State.decDep_pool]
        split
        next h => rw [h.1]; omega
        next => exact Nat.le_refl _
  have htake : (s.take k).pool k' = s.pool k' := by
    simp [State.take, Function.update_of_ne (Ne.symm hk)]
  rw [← htake]
  exact main (P.fire k) (s.take k)

/-! ## Counter operations commute -/

/-- The two operations do not meet at a counter, unless they are both signals. -/
def Apart : Op K A → Op K A → Prop
  | .decDep d, .resetCodelet d' => d ≠ d'
  | .resetCodelet d, .decDep d' => d ≠ d'
  | _, _ => True

/-- Signals and resets of different codelets commute; so do two signals. -/
theorem signal_comm {o o' : Op K A} (h : Apart o o') (s : State K A M) :
    (s.signal o).signal o' = (s.signal o').signal o := by
  cases o with
  | act a => cases o' <;> rfl
  | decDep d =>
    cases o' with
    | act a => rfl
    | decDep d' =>
      by_cases hd : d = d'
      · rw [hd]
      · have hd' := Ne.symm hd
        simp only [State.signal, State.decDep, Function.update_of_ne hd, Function.update_of_ne hd',
          State.mk.injEq, and_true]
        refine ⟨Function.update_comm hd _ _ _, ?_⟩
        split <;> split <;> simp [Function.update_of_ne, hd, hd', Function.update_comm hd]
    | resetCodelet d' =>
      have hd : d ≠ d' := h
      have hd' := Ne.symm hd
      simp only [State.signal, State.decDep, State.resetCodelet, Function.update_of_ne hd,
        Function.update_of_ne hd', State.mk.injEq, and_true]
      exact Function.update_comm hd _ _ _
  | resetCodelet d =>
    cases o' with
    | act a => rfl
    | decDep d' =>
      have hd : d ≠ d' := h
      have hd' := Ne.symm hd
      simp only [State.signal, State.decDep, State.resetCodelet, Function.update_of_ne hd,
        Function.update_of_ne hd', State.mk.injEq, and_true]
      exact Function.update_comm hd _ _ _
    | resetCodelet d' =>
      by_cases hd : d = d'
      · rw [hd]
      · have hd' := Ne.symm hd
        simp only [State.signal, State.resetCodelet, Function.update_of_ne hd,
          Function.update_of_ne hd', State.mk.injEq, and_true]
        exact Function.update_comm hd _ _ _

/-- Taking a codelet commutes with operations that do not signal it. -/
theorem take_signal {o : Op K A} (h : o ≠ .decDep k) (s : State K A M) :
    (s.take k).signal o = (s.signal o).take k := by
  cases o with
  | act a => rfl
  | resetCodelet d => rfl
  | decDep d =>
    have hd : d ≠ k := fun he => h (he ▸ rfl)
    have hd' := Ne.symm hd
    simp only [State.signal, State.take, State.decDep, State.mk.injEq, and_true, true_and]
    by_cases hc : (s.sync d).decCounter.1 = true <;>
      simp [hc, Function.update_of_ne, hd, hd', Function.update_comm hd']

theorem take_take (hk : k ≠ k') (s : State K A M) : (s.take k).take k' = (s.take k').take k := by
  have hk' := Ne.symm hk
  simp only [State.take, Function.update_of_ne hk, Function.update_of_ne hk', State.mk.injEq,
    and_true, true_and]
  exact ⟨Function.update_comm hk _ _ _, Function.update_comm hk _ _ _⟩

private theorem foldl_take {os : List (Op K A)} (h : .decDep k ∉ os) (s : State K A M) :
    os.foldl State.signal (s.take k) = (os.foldl State.signal s).take k :=
  foldl_signal (fun s => s.take k) (fun _ ho s => take_signal (fun he => h (he ▸ ho)) s) s

private theorem foldl_comm {os os' : List (Op K A)} (h : ∀ o ∈ os, ∀ o' ∈ os', Apart o o')
    (s : State K A M) : os'.foldl State.signal (os.foldl State.signal s) =
      os.foldl State.signal (os'.foldl State.signal s) := by
  refine (foldl_signal (os'.foldl State.signal) (fun o ho s => ?_) s).symm
  exact (foldl_signal (fun s => s.signal o) (fun o' ho' s => signal_comm (h o ho o' ho') s) s).symm

/-- **Two codelets can be fired in either order** when neither signals the other, their
counter operations do not meet, and their effects on the frame commute. -/
theorem fireAll_comm (hk : k ≠ k') (hdec : .decDep k' ∉ P.fire k) (hdec' : .decDep k ∉ P.fire k')
    (hops : ∀ o ∈ P.fire k, ∀ o' ∈ P.fire k', Apart o o')
    (hmem : P.effect (P.fire k') (P.effect (P.fire k) s.mem) =
      P.effect (P.fire k) (P.effect (P.fire k') s.mem)) :
    P.fireAll (P.fireAll s k) k' = P.fireAll (P.fireAll s k') k := by
  have hswap : (P.fire k').foldl State.signal (((P.fire k).foldl State.signal (s.take k)).take k') =
      (P.fire k).foldl State.signal (((P.fire k').foldl State.signal (s.take k')).take k) := by
    rw [← foldl_take hdec, ← foldl_take hdec', foldl_comm hops, take_take hk]
  have hsplit : ∀ k k', P.fireAll (P.fireAll s k) k' =
      ((P.fire k').foldl State.signal
        (((P.fire k).foldl State.signal (s.take k)).take k')).setMem
          (P.effect (P.fire k') (P.effect (P.fire k) s.mem)) := by
    intro k k'
    rw [fireAll, fireAll_mem, fireAll]
    have htake : ∀ (s : State K A M) m, (s.setMem m).take k' = (s.take k').setMem m := fun _ _ => rfl
    rw [htake, foldl_setMem]
    rfl
  rw [hsplit, hsplit, hswap, hmem]

end Program

end Darts
