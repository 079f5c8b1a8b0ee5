import Darts.CannonDfswp.Correct
import Darts.Threading.Signals

/-!
# The dependence counters of the pipelined `cannonTP`

Every codelet fires once, signalled once by each of its sources.
-/

namespace Darts.CannonDfswp

open Cannon Transition

variable {R : Type} {n p : Nat} [CommRing R] {blas : Blas R}

/-- When the end codelet fires every other codelet has fired. -/
theorem Ctl.fired_of_end {s : State (Cod n) (Act n) (Frame R n p)} (h : Ctl blas s) (hn : 0 < n)
    (hend : 0 < s.fired .endCodelet) (k : Cod n) : s.fired k = 1 := by
  have source : ∀ k k' : Cod n, k' ∈ sources k → s.fired k = 1 → s.fired k' = 1 :=
    fun k k' hk' hk =>
      (h.one.source_done (oneShot blas n p) k k' trivial (by omega) hk').1
  have hfin : s.fired .endCodelet = 1 := by
    have := h.one.fired_le_one (k := .endCodelet) trivial
    omega
  have hcopyC : ∀ i, s.fired (.copyC i) = 1 := fun i =>
    source .endCodelet (.copyC i) (by simp [sources]) hfin
  have hcompute : ∀ i, s.fired (.compute i) = 1 := fun i =>
    source (.copyC i) (.compute i) (by simp [sources]) (hcopyC i)
  have hbarrier : s.fired .skewBarrier = 1 :=
    source (.compute ⟨0, Nat.mul_pos hn hn⟩) .skewBarrier (by simp [sources]) (hcompute _)
  have hskew : ∀ i, s.fired (.skew i) = 1 := fun i =>
    source .skewBarrier (.skew i) (by simp [sources]) hbarrier
  cases k with
  | copyA i => exact source (.skew i) (.copyA i) (by simp [sources]) (hskew i)
  | copyB i => exact source (.skew i) (.copyB i) (by simp [sources]) (hskew i)
  | copyC i => exact hcopyC i
  | skew i => exact hskew i
  | skewBarrier => exact hbarrier
  | compute i => exact hcompute i
  | endCodelet => exact hfin

/-- **The pipelined program sends exact signals.** -/
theorem exactSignals (blas : Blas R) (hn : 0 < n) (a b c : Nat → R) :
    ExactSignals (cannonTP blas n p) (launched n p a b c) .endCodelet fun _ => 1 where
  dec_pos s hs _ _ _ _ hrest :=
    (Ctl.reachable hn hs).one.dec_pos (oneShot blas n p) trivial hrest
  reset_zero s hs _ _ _ _ hrest := (Ctl.reachable hn hs).one.reset_zero trivial hrest
  fired_le s hs _ := (Ctl.reachable hn hs).one.fired_le_one trivial
  fired_eq s hs hdone k := by
    have : NeZero n := ⟨Nat.pos_iff_ne_zero.mp hn⟩
    have hc := Ctl.reachable hn hs
    rcases hdone with hend | hstuck
    · exact hc.fired_of_end hn hend k
    · exact ((Data.reachable hs).all_fired hc hstuck k).1

end Darts.CannonDfswp
