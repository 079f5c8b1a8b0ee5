import Mathlib.Algebra.Ring.Nat
import Mathlib.Data.Nat.Log
import Mathlib.Data.Nat.Size

/-!
# Rounding up to a power of two by smearing bits

`a` is `y` smeared over `k` places when its bit `i` says whether `y` has a bit
in the `k` places from `i` on. Or-ing a number with itself shifted by `k`
doubles `k`; smeared over its whole length a number is all ones, one less than
the next power of two.
-/

namespace PowerOfTwo

/-- `a` is `y`, smeared over `k` places. -/
def Smeared (y a k : Nat) : Prop :=
  ∀ i, a.testBit i = true ↔ ∃ j < k, y.testBit (i + j) = true

namespace Smeared

variable {y a k : Nat}

theorem one (y : Nat) : Smeared y y 1 := by
  intro i
  constructor
  · exact fun h => ⟨0, by omega, h⟩
  · rintro ⟨j, hj, h⟩
    obtain rfl : j = 0 := by omega
    exact h

theorem double (h : Smeared y a k) : Smeared y (a ||| a >>> k) (2 * k) := by
  intro i
  rw [Nat.testBit_or, Nat.testBit_shiftRight, Bool.or_eq_true, h i, h (k + i)]
  constructor
  · rintro (⟨j, hj, hbit⟩ | ⟨j, hj, hbit⟩)
    · exact ⟨j, by omega, hbit⟩
    · refine ⟨k + j, by omega, ?_⟩
      rwa [← Nat.add_assoc, Nat.add_comm i k]
  · rintro ⟨j, hj, hbit⟩
    rcases Nat.lt_or_ge j k with hlt | hge
    · exact Or.inl ⟨j, hlt, hbit⟩
    · refine Or.inr ⟨j - k, by omega, ?_⟩
      rwa [show k + i + (j - k) = i + j by omega]

/-- Smeared over its whole length, a number is all ones. -/
theorem eq_size (h : Smeared y a k) (hy : y < 2 ^ k) : a = 2 ^ y.size - 1 := by
  apply Nat.eq_of_testBit_eq
  intro i
  rw [Nat.testBit_two_pow_sub_one, Bool.eq_iff_iff, decide_eq_true_iff, h i, Nat.lt_size]
  constructor
  · rintro ⟨j, -, hbit⟩
    exact Nat.le_trans (Nat.pow_le_pow_right Nat.two_pos (Nat.le_add_right i j))
      (Nat.ge_two_pow_of_testBit hbit)
  · intro hle
    obtain ⟨m, hm, hbit⟩ := Nat.exists_ge_and_testBit_of_ge_two_pow hle
    have hmk : m < k := (Nat.pow_lt_pow_iff_right Nat.one_lt_two).mp
      (Nat.lt_of_le_of_lt (Nat.ge_two_pow_of_testBit hbit) hy)
    exact ⟨m - i, by omega, by rwa [Nat.add_sub_cancel' hm]⟩

end Smeared

/-- The length of `x - 1` is the exponent of the least power of two from `x` on. -/
theorem size_pred {x : Nat} (hx : 0 < x) : (x - 1).size = Nat.clog 2 x := by
  have hiff : ∀ m, (x - 1).size ≤ m ↔ Nat.clog 2 x ≤ m := fun m => by
    rw [Nat.size_le, Nat.clog_le_iff_le_pow (by decide)]
    omega
  exact Nat.le_antisymm ((hiff _).mpr (Nat.le_refl _)) ((hiff _).mp (Nat.le_refl _))

end PowerOfTwo
