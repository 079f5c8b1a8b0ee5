import Mathlib.Algebra.BigOperators.Group.Finset.Piecewise
import Mathlib.Algebra.Order.BigOperators.Group.Finset

/-!
# Labelled transition systems given by a partial step function

`step s l = some t` says the step labelled `l` is possible in `s` and leads to
`t`; `none` says it is not enabled there. Everything below is about an
arbitrary such `step`: the states a run can reach, also by steps that all meet a
condition, runs as label lists, the rule that carries an invariant along every run,
and the rule that bounds the length of every run by a counter that each step
advances by one.

The last rule is what turns "no run is stuck before the goal" into "every run
gets to the goal": a system whose runs are all shorter than some bound has, from
every reachable state, a run to a state with nothing enabled
(`Reachable.exists_stuck`).
-/

namespace Transition

variable {σ ι : Type}

/-- The states some run from `s₀` reaches. -/
inductive Reachable (step : σ → ι → Option σ) (s₀ : σ) : σ → Prop
  | start : Reachable step s₀ s₀
  | next {s t : σ} {l : ι} :
      Reachable step s₀ s → step s l = some t → Reachable step s₀ t

/-- The run over a list of labels, `none` once a label is not enabled. -/
def run (step : σ → ι → Option σ) : σ → List ι → Option σ
  | s, [] => some s
  | s, l :: ls => (step s l).bind fun t => run step t ls

/-- Nothing is enabled. -/
def Stuck (step : σ → ι → Option σ) (s : σ) : Prop := ∀ l, step s l = none

theorem run_cons {step : σ → ι → Option σ} {s t : σ} {l : ι} (h : step s l = some t)
    (ls : List ι) : run step s (l :: ls) = run step t ls := by
  rw [run, h, Option.bind_some]

theorem run_append (step : σ → ι → Option σ) (s : σ) (ls ms : List ι) :
    run step s (ls ++ ms) = (run step s ls).bind fun t => run step t ms := by
  induction ls generalizing s with
  | nil => rfl
  | cons l ls ih =>
    simp only [List.cons_append, run]
    cases step s l with
    | none => rfl
    | some t => exact ih t

/-- A run can be extended by one more enabled label. -/
theorem run_snoc {step : σ → ι → Option σ} {s t u : σ} {ls : List ι} {l : ι}
    (h : run step s ls = some t) (hl : step t l = some u) :
    run step s (ls ++ [l]) = some u := by
  rw [run_append, h]
  simp [run, hl]

theorem Reachable.trans {step : σ → ι → Option σ} {s t u : σ}
    (h₁ : Reachable step s t) (h₂ : Reachable step t u) : Reachable step s u := by
  induction h₂ with
  | start => exact h₁
  | next _ hl ih => exact ih.next hl

theorem Reachable.of_run {step : σ → ι → Option σ} {s t : σ} {ls : List ι}
    (h : run step s ls = some t) : Reachable step s t := by
  induction ls generalizing s with
  | nil =>
    obtain rfl : s = t := Option.some.inj h
    exact .start
  | cons l ls ih =>
    obtain ⟨u, hu, hrun⟩ := Option.bind_eq_some_iff.mp h
    exact (Reachable.start.next hu).trans (ih hrun)

theorem Reachable.exists_run {step : σ → ι → Option σ} {s t : σ}
    (h : Reachable step s t) : ∃ ls, run step s ls = some t := by
  induction h with
  | start => exact ⟨[], rfl⟩
  | next _ hl ih =>
    obtain ⟨ls, hls⟩ := ih
    exact ⟨_, run_snoc hls hl⟩

/-- **The invariant rule**: what holds at the start and is kept by every step
from a reachable state holds in every reachable state. -/
theorem Reachable.invariant {step : σ → ι → Option σ} {s₀ s : σ} (I : σ → Prop)
    (hinit : I s₀)
    (hstep : ∀ s l t, Reachable step s₀ s → I s → step s l = some t → I t)
    (h : Reachable step s₀ s) : I s := by
  induction h with
  | start => exact hinit
  | next hs hl ih => exact hstep _ _ _ hs ih hl

/-! ## Runs whose steps all meet a condition -/

/-- The states reached by runs in which every step meets `C` in the state it starts from. -/
inductive ReachableIf (step : σ → ι → Option σ) (C : σ → ι → Prop) (s₀ : σ) : σ → Prop
  | start : ReachableIf step C s₀ s₀
  | next {s t : σ} {l : ι} :
      ReachableIf step C s₀ s → C s l → step s l = some t → ReachableIf step C s₀ t

theorem ReachableIf.reachable {step : σ → ι → Option σ} {C : σ → ι → Prop} {s₀ s : σ}
    (h : ReachableIf step C s₀ s) : Reachable step s₀ s := by
  induction h with
  | start => exact .start
  | next _ _ hl ih => exact ih.next hl

/-- The invariant rule for such runs. -/
theorem ReachableIf.invariant {step : σ → ι → Option σ} {C : σ → ι → Prop} {s₀ s : σ}
    (I : σ → Prop) (hinit : I s₀)
    (hstep : ∀ s l t, Reachable step s₀ s → I s → C s l → step s l = some t → I t)
    (h : ReachableIf step C s₀ s) : I s := by
  induction h with
  | start => exact hinit
  | next hs hC hl ih => exact hstep _ _ _ hs.reachable ih hC hl

/-- A condition that every step meets is no restriction. -/
theorem Reachable.reachableIf {step : σ → ι → Option σ} {C : σ → ι → Prop} {s₀ s : σ}
    (hC : ∀ s l t, Reachable step s₀ s → step s l = some t → C s l)
    (h : Reachable step s₀ s) : ReachableIf step C s₀ s := by
  induction h with
  | start => exact .start
  | next hs hl ih => exact ih.next (hC _ _ _ hs hl) hl

/-! ## Runs that cannot go on for ever -/

/-- **The progress-counter rule**: `W s m` relates a state to the amount `m` of
work done so far; if every step adds one unit and the work never exceeds `B`,
a run of `k` steps has done `k` units, so it has at most `B` steps. -/
theorem run_length_le {step : σ → ι → Option σ} {s₀ t : σ} {B : Nat}
    (W : σ → Nat → Prop) (hinit : W s₀ 0)
    (hstep : ∀ s m l t, W s m → step s l = some t → W t (m + 1))
    (hbound : ∀ s m, W s m → m ≤ B) {ls : List ι}
    (h : run step s₀ ls = some t) : ls.length ≤ B := by
  have hwork : ∀ (ms : List ι) (s : σ) (m : Nat), W s m → run step s ms = some t →
      W t (m + ms.length) := by
    intro ms
    induction ms with
    | nil =>
      intro s m hW hrun
      obtain rfl : s = t := Option.some.inj hrun
      exact hW
    | cons l ms ih =>
      intro s m hW hrun
      obtain ⟨u, hu, hrest⟩ := Option.bind_eq_some_iff.mp hrun
      have := ih u (m + 1) (hstep s m l u hW hu) hrest
      rwa [List.length_cons, Nat.add_comm ms.length, ← Nat.add_assoc]
  have := hbound t _ (hwork ls s₀ 0 hinit h)
  omega

/-- The same with the work split over parties: step `l` advances the counter of
party `who l` by one, and party `k` stops at `lim k`. -/
theorem run_length_le_sum {κ : Type} [Fintype κ] [DecidableEq κ] {step : σ → ι → Option σ}
    {s₀ t : σ} (I : σ → Prop) (work : σ → κ → Nat) (who : ι → κ) (lim : κ → Nat)
    (hinit : I s₀) (hzero : ∀ k, work s₀ k = 0)
    (hstep : ∀ s l t, I s → step s l = some t →
      I t ∧ ∀ k, work t k = work s k + if k = who l then 1 else 0)
    (hlim : ∀ s k, I s → work s k ≤ lim k) {ls : List ι}
    (h : run step s₀ ls = some t) : ls.length ≤ ∑ k, lim k := by
  refine run_length_le (fun s m => I s ∧ m = ∑ k, work s k) ⟨hinit, by simp [hzero]⟩ ?_ ?_ h
  · rintro s m l t ⟨hI, rfl⟩ hl
    obtain ⟨hI', hwork⟩ := hstep s l t hI hl
    refine ⟨hI', ?_⟩
    rw [Finset.sum_congr rfl fun k _ => hwork k, Finset.sum_add_distrib, Finset.sum_ite_eq',
      if_pos (Finset.mem_univ _)]
  · rintro s m ⟨hI, rfl⟩
    exact Finset.sum_le_sum fun k _ => hlim s k hI

/-- The same with the work that is left, which every step makes less. -/
theorem run_length_add_le {step : σ → ι → Option σ} (I : σ → Prop) (left : σ → Nat)
    (hstep : ∀ s l t, I s → step s l = some t → I t ∧ left t < left s) {s t : σ} {ls : List ι}
    (hI : I s) (h : run step s ls = some t) : I t ∧ ls.length + left t ≤ left s := by
  induction ls generalizing s with
  | nil =>
    obtain rfl : s = t := Option.some.inj h
    exact ⟨hI, by simp⟩
  | cons l ls ih =>
    obtain ⟨u, hu, hrun⟩ := Option.bind_eq_some_iff.mp h
    obtain ⟨hIu, hlt⟩ := hstep s l u hI hu
    obtain ⟨hIt, hle⟩ := ih hIu hrun
    exact ⟨hIt, by rw [List.length_cons]; omega⟩

/-- What one party's share changes by, the sum of all shares changes by. -/
theorem sum_update {κ α : Type} [DecidableEq κ] {ks : Finset κ} {k : κ} (hk : k ∈ ks) (f : κ → α)
    (g : α → Nat) (x : α) :
    ∑ j ∈ ks, g (Function.update f k x j) + g (f k) = ∑ j ∈ ks, g (f j) + g x := by
  rw [← Finset.add_sum_erase _ (fun j => g (Function.update f k x j)) hk,
    ← Finset.add_sum_erase _ (fun j => g (f j)) hk, Function.update_self,
    Finset.sum_congr rfl fun j hj => by
      rw [Function.update_of_ne (Finset.ne_of_mem_erase hj) x f]]
  omega

/-- When no run from `s₀` is longer than `B`, every reachable state has a run to
a stuck one. -/
theorem Reachable.exists_stuck {step : σ → ι → Option σ} {s₀ s : σ} {B : Nat}
    (hbound : ∀ ls t, run step s₀ ls = some t → ls.length ≤ B)
    (h : Reachable step s₀ s) : ∃ t, Reachable step s t ∧ Stuck step t := by
  obtain ⟨ls, hls⟩ := h.exists_run
  -- induction on the room left below the bound
  have main : ∀ (room : Nat) (s : σ) (ls : List ι), run step s₀ ls = some s →
      B - ls.length ≤ room → ∃ t, Reachable step s t ∧ Stuck step t := by
    intro room
    induction room with
    | zero =>
      intro s ls hls hroom
      refine ⟨s, .start, fun l => ?_⟩
      cases hl : step s l with
      | none => rfl
      | some t =>
        have := hbound _ _ (run_snoc hls hl)
        rw [List.length_append, List.length_singleton] at this
        omega
    | succ room ih =>
      intro s ls hls hroom
      by_cases hstuck : Stuck step s
      · exact ⟨s, .start, hstuck⟩
      · obtain ⟨l, hl⟩ := Classical.not_forall.mp hstuck
        obtain ⟨t, ht⟩ := Option.ne_none_iff_exists'.mp hl
        have hsnoc := run_snoc hls ht
        obtain ⟨u, hu, hus⟩ := ih t _ hsnoc (by
          rw [List.length_append, List.length_singleton]
          omega)
        exact ⟨u, (Reachable.start.next ht).trans hu, hus⟩
  exact main _ s ls hls (Nat.le_refl _)

end Transition
