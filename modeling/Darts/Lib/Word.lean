import Mathlib.Logic.Function.Iterate

/-!
# Atomic counters of 32 bits

What `fetchSub` and `fetchAdd` leave in an `unsigned int`: both wrap around.
-/

namespace Word

/-- The largest `unsigned int`. -/
def uintMax : Nat := 4294967295

/-- What `fetchSub(x, 1)` leaves in an `unsigned int`. -/
def fetchSub (x : Nat) : Nat := if x = 0 then uintMax else x - 1

/-- What `fetchAdd(x, 1)` leaves. -/
def fetchAdd (x : Nat) : Nat := if x = uintMax then 0 else x + 1

theorem fetchSub_of_pos {x : Nat} (h : x ≠ 0) : fetchSub x = x - 1 := if_neg h

theorem fetchAdd_of_lt {x : Nat} (h : x < uintMax) : fetchAdd x = x + 1 := if_neg (Nat.ne_of_lt h)

/-- A counter after `k` decrements: past 0 it goes on from `uintMax` down. -/
theorem fetchSub_iterate {n k : Nat} (h : k ≤ n + uintMax) :
    fetchSub^[k] n = if k ≤ n then n - k else n + uintMax + 1 - k := by
  induction k with
  | zero => simp
  | succ k ih =>
    rw [Function.iterate_succ_apply', ih (by omega)]
    unfold fetchSub
    split <;> split <;> split <;> omega

/-- It is 1 before the last of `n` decrements, and not again. -/
theorem fetchSub_iterate_eq_one {n k : Nat} (h : k < n + uintMax) :
    fetchSub^[k] n = 1 ↔ k + 1 = n := by
  rw [fetchSub_iterate (Nat.le_of_lt h)]
  split <;> omega

end Word
