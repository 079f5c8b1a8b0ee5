import Darts.CannonDouble.Correct
import Darts.Threading.Signals

/-!
# The dependence counters of the double-buffered `cannonTP`

The copy and skew codelets are signalled once by each of their sources; all other
counters are those of the round protocol.
-/

namespace Darts.CannonDouble

open Cannon Transition

variable {R : Type} {n p : Nat} [CommRing R] {blas : Blas R}
  {s : State (Cod n) (Act n) (Frame R n p)}

/-- **A signal finds its counter positive.** -/
theorem Ctl.dec_pos (h : Ctl blas s) {k d : Cod n} {j : Nat} {os : List (Op (Cod n) (Act n))}
    (hrest : s.rest k j = .decDep d :: os) : (s.sync d).counter_ ≠ 0 := by
  obtain ⟨hcs, hj⟩ := h.crest_of_rest hrest
  have htodo : todo s k = .decDep d :: os := by rw [todo, if_neg (by omega), hcs]
  cases h.sends hcs with
  | copyA i | copyB i => exact h.early.dec_pos (early_oneShot blas n p) trivial hrest
  | skew i =>
    have hfirst : 0 < (view s).first i := by simp [htodo]
    exact h.rounds.signal_pos (i := i) (by omega)
  | compute i =>
    have hsig : 0 < (view s).toSignal i := by simp [hcs]
    exact h.rounds.signal_pos (i := i) (by omega)
  | release i =>
    have hone : (s.sync (.compute i)).counter_ = 1 :=
      h.rounds.release_one (i := i) (by simp [hcs])
    omega
  | finish i =>
    have hone : (s.sync (.copyC i)).counter_ = 1 :=
      h.rounds.finish_one (i := i) (by simp [hcs])
    omega
  | copyC i => exact h.rounds.deliver_pos (i := i) (by simp [htodo])

/-- **A reset overwrites a zero.** -/
theorem Ctl.reset_zero (h : Ctl blas s) {k d : Cod n} {j : Nat} {os : List (Op (Cod n) (Act n))}
    (hrest : s.rest k j = .resetCodelet d :: os) : (s.sync d).counter_ = 0 := by
  obtain ⟨hcs, -⟩ := h.crest_of_rest hrest
  obtain ⟨rfl, rfl | ⟨i, rfl⟩⟩ := h.rearms hcs
  · exact h.rounds.reset_zero (by simp [hcs])
  · exact h.rounds.rearm_zero (i := i) (by simp [hcs])

/-- When the end codelet fires every other codelet has fired as often as it should. -/
theorem Ctl.fired_of_end [NeZero n] (h : Ctl blas s) (hend : 0 < s.fired .endCodelet)
    (k : Cod n) : s.fired k = firings n k := by
  have hcopyC : ∀ i, s.fired (.copyC i) = 1 := by
    intro i
    have hdone := h.rounds.delivered (show 0 < s.pool .endCodelet + s.fired .endCodelet by omega) i
    have hle : s.pool (.copyC i) + s.fired (.copyC i) ≤ 1 := h.fired_le (.copyC i)
    by_contra hne
    have := h.rounds.toEnd_eq i (show s.fired (.copyC i) = 0 by omega)
    omega
  obtain ⟨i₀⟩ : Nonempty (Tile n) := inferInstance
  have hstart : 0 < s.pool (.copyC i₀) + s.fired (.copyC i₀) := by
    have := hcopyC i₀
    omega
  have hcompute : ∀ i, s.fired (.compute i) = n := fun i => (h.collecting hstart i).1
  obtain ⟨hloop, hskewed⟩ := h.rounds.closing hstart (Nat.pos_of_neZero n)
  have hskew : ∀ i, s.fired (.skew i) = 1 := by
    intro i
    have htimes := h.skewed (hskewed i) .A
    have hle : s.pool (.skew i) + s.fired (.skew i) ≤ 1 := h.fired_le (.skew i)
    simp only [times, Act.owner] at htimes
    omega
  have hcopy : ∀ (d : Side) i, s.fired (copy d i) = 1 := fun d i =>
    (h.early.source_done (early_oneShot blas n p) (.skew i) (copy d i) trivial
      (by have := hskew i; omega) (by cases d <;> simp [sources, copy])).1
  cases k with
  | copyA i => exact hcopy .A i
  | copyB i => exact hcopy .B i
  | skew i => exact hskew i
  | compute i => exact hcompute i
  | copyC i => exact hcopyC i
  | loop => exact hloop
  | endCodelet =>
    have hle : s.pool .endCodelet + s.fired .endCodelet ≤ 1 := h.fired_le .endCodelet
    simp only [firings]
    omega

/-- **The double-buffered program sends exact signals.** -/
theorem exactSignals (blas : Blas R) (hn : 0 < n) (a b c : Nat → R) :
    ExactSignals (cannonTP blas n p) (launched n p a b c) .endCodelet (firings n) := by
  have : NeZero n := ⟨Nat.pos_iff_ne_zero.mp hn⟩
  refine ⟨?_, ?_, ?_, ?_⟩
  · exact fun s hs k j d os hrest => (Ctl.reachable hs).dec_pos hrest
  · exact fun s hs k j d os hrest => (Ctl.reachable hs).reset_zero hrest
  · exact fun s hs k => (Ctl.reachable hs).fired_le k
  · intro s hs hdone k
    rcases hdone with hend | hstuck
    · exact (Ctl.reachable hs).fired_of_end hend k
    · exact ((Ctl.reachable hs).all_fired hstuck k).1

end Darts.CannonDouble
