import Mathlib.Data.List.Range

/-!
# A FIFO queue as a window of its stream

A queue into which the values `f 0, f 1, f 2, ...` are pushed in this order, and
from which `lo` values have been popped after `hi` pushes, holds exactly
`window f lo hi`. The lemmas are the three queue operations read on that window.
-/

namespace Window

variable {α : Type} {f : Nat → α} {lo hi : Nat}

/-- The values `f lo, ..., f (hi - 1)`. -/
def window (f : Nat → α) (lo hi : Nat) : List α := (List.range' lo (hi - lo)).map f

theorem window_push (h : lo ≤ hi) : window f lo hi ++ [f hi] = window f lo (hi + 1) := by
  have hlen : hi + 1 - lo = (hi - lo) + 1 := by omega
  have hlast : lo + (hi - lo) = hi := by omega
  rw [window, window, hlen, List.range'_1_concat, List.map_append, hlast]
  rfl

@[simp] theorem window_self : window f lo lo = [] := by
  simp [window]

theorem window_cons (h : lo < hi) : window f lo hi = f lo :: window f (lo + 1) hi := by
  have hlen : hi - lo = (hi - (lo + 1)) + 1 := by omega
  rw [window, window, hlen, List.range'_succ, List.map_cons]

theorem window_of_ge (h : hi ≤ lo) : window f lo hi = [] := by
  rw [window, Nat.sub_eq_zero_of_le h]
  rfl

theorem window_tail : (window f lo hi).tail = window f (lo + 1) hi := by
  by_cases h : lo < hi
  · rw [window_cons h, List.tail_cons]
  · rw [window_of_ge (by omega), window_of_ge (by omega), List.tail_nil]

/-- What the head of a queue is, and that there is one only while the pushes are
ahead of the pops. -/
theorem window_head {a : α} (h : (window f lo hi).head? = some a) : lo < hi ∧ a = f lo := by
  by_cases hlt : lo < hi
  · rw [window_cons hlt, List.head?_cons] at h
    exact ⟨hlt, (Option.some.inj h).symm⟩
  · rw [window_of_ge (by omega)] at h
    exact absurd h (by simp)

theorem window_head_none (h : (window f lo hi).head? = none) : hi ≤ lo := by
  by_contra hlt
  rw [window_cons (by omega), List.head?_cons] at h
  exact absurd h (by simp)

end Window
