import Mathlib.Order.Basic

/-!
# Numbering by rows

`u * n + v` is the number of the element in row `u` and column `v`, where the rows have `n`
elements. The elements of `m` rows have the numbers below `m * n` (`lt`, `exists_eq`), and
each its own (`inj`).
-/

namespace RowMajor

variable {m n u v u' v' : Nat}

theorem lt (hu : u < m) (hv : v < n) : u * n + v < m * n := by
  have hrow : (u + 1) * n ≤ m * n := Nat.mul_le_mul_right n hu
  rw [Nat.succ_mul] at hrow
  omega

/-- Row and column of a number. -/
theorem div_mod (hv : v < n) : (u * n + v) / n = u ∧ (u * n + v) % n = v := by
  have hn : 0 < n := Nat.zero_lt_of_lt hv
  rw [Nat.mul_comm]
  constructor
  · rw [Nat.mul_add_div hn, Nat.div_eq_of_lt hv, Nat.add_zero]
  · rw [Nat.mul_add_mod, Nat.mod_eq_of_lt hv]

theorem inj (hv : v < n) (hv' : v' < n) (h : u * n + v = u' * n + v') : u = u' ∧ v = v' := by
  obtain ⟨hdiv, hmod⟩ := div_mod (u := u) hv
  obtain ⟨hdiv', hmod'⟩ := div_mod (u := u') hv'
  rw [h] at hdiv hmod
  exact ⟨hdiv.symm.trans hdiv', hmod.symm.trans hmod'⟩

/-- Every number below is that of an element. -/
theorem exists_eq {k : Nat} (hk : k < m * n) : ∃ u < m, ∃ v < n, k = u * n + v := by
  have hn : 0 < n := Nat.pos_of_mul_pos_left (Nat.zero_lt_of_lt hk)
  refine ⟨k / n, ?_, k % n, Nat.mod_lt k hn, (Nat.div_add_mod' k n).symm⟩
  exact Nat.div_lt_of_lt_mul (by rwa [Nat.mul_comm])

end RowMajor
