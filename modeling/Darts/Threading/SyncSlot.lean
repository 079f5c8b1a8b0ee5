import Darts.Lib.Word

/-!
# `SyncSlot`: the dependence counter of a codelet

`include/threading/SyncSlot.h`. Both words are `unsigned int`: a decrement
below zero wraps to `2^32 - 1`, which is exactly what a lost reset or a doubled
signal would show up as.
-/

namespace Darts

open Word

/-- `class SyncSlot`. -/
structure SyncSlot where
  counter_ : Nat
  reset_ : Nat
deriving DecidableEq

namespace SyncSlot

/-- `decCounter`: was the old value 1, and the slot afterwards. -/
def decCounter (s : SyncSlot) : Bool × SyncSlot :=
  (s.counter_ == 1, { s with counter_ := fetchSub s.counter_ })

/-- `resetCounter`: an unconditional store. -/
def resetCounter (s : SyncSlot) : SyncSlot := { s with counter_ := s.reset_ }

/-- `ready`: has the counter reached zero. -/
def ready (s : SyncSlot) : Bool := s.counter_ == 0

@[simp] theorem decCounter_reset (s : SyncSlot) : s.decCounter.2.reset_ = s.reset_ := rfl

@[simp] theorem resetCounter_counter (s : SyncSlot) : s.resetCounter.counter_ = s.reset_ := rfl

@[simp] theorem resetCounter_reset (s : SyncSlot) : s.resetCounter.reset_ = s.reset_ := rfl

end SyncSlot

end Darts
