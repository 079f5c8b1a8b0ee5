import Darts.CannonDfswp.Counters
import Darts.CannonDouble.Counters

/-!
# The counters of both Cannon programs
-/

namespace Darts

variable {R : Type} {n p : Nat} [CommRing R]

/-- **No signal is lost or doubled in either program**, under every interleaving of
the counter operations: the pipelined program fires every codelet once, the
double-buffered one its compute codelets `n` times and its loop codelet `n + 1`
times. -/
theorem cannon_signals_exact (blas : Blas R) (hn : 0 < n) (a b c : Nat → R) :
    ExactSignals (CannonDfswp.cannonTP blas n p) (CannonDfswp.launched n p a b c) .endCodelet
        (fun _ => 1) ∧
      ExactSignals (CannonDouble.cannonTP blas n p) (CannonDouble.launched n p a b c) .endCodelet
        (CannonDouble.firings n) :=
  ⟨CannonDfswp.exactSignals blas hn a b c, CannonDouble.exactSignals blas hn a b c⟩

/-- The products of 2 by 2 tiles. -/
theorem cannon_signals_exact_two :
    ExactSignals (CannonDfswp.cannonTP (Blas.reference ℤ) 2 1)
        (CannonDfswp.launched 2 1 (fun z => (z : ℤ)) (fun z => (z : ℤ)) fun _ => 0) .endCodelet
        (fun _ => 1) ∧
      ExactSignals (CannonDouble.cannonTP (Blas.reference ℤ) 2 1)
        (CannonDouble.launched 2 1 (fun z => (z : ℤ)) (fun z => (z : ℤ)) fun _ => 0) .endCodelet
        (CannonDouble.firings 2) :=
  cannon_signals_exact (Blas.reference ℤ) (by decide : 0 < 2) _ _ _

end Darts
