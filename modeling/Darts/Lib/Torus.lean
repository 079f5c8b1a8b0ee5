import Mathlib.Algebra.BigOperators.Group.Finset.Basic
import Mathlib.Algebra.Group.Fin.Basic
import Mathlib.Algebra.Group.Units.Equiv
import Mathlib.Algebra.GroupWithZero.Nat
import Mathlib.Data.Fintype.BigOperators

/-!
# Blocks travelling round a torus

Cannon's scheme over any finite commutative group `G` of coordinates. Tile
`(r, c)` starts with block `(r, c)` of both factors; the *skew* moves row `r` of
the left factor by `-r` and column `c` of the right one by `-c`; from then on
each step moves left blocks one to the right and right blocks one down.

`held t k` is the inner index a tile `t` holds after `k` steps: the same index
for the left and for the right block, which is what makes the partial products
line up. `held_*` says how it travels, and `sum_held` that a full turn visits
every index once.
-/

namespace Torus

variable {G : Type} [AddCommGroup G]

/-- Where the skew sends the left block of a tile. -/
def skewRow : G × G ≃ G × G where
  toFun t := (t.1, t.2 - t.1)
  invFun t := (t.1, t.2 + t.1)
  left_inv t := by simp
  right_inv t := by simp

/-- Where the skew sends the right block of a tile. -/
def skewCol : G × G ≃ G × G where
  toFun t := (t.1 - t.2, t.2)
  invFun t := (t.1 + t.2, t.2)
  left_inv t := by simp
  right_inv t := by simp

/-- The neighbour `e` further along the row. -/
def right (e : G) : G × G ≃ G × G where
  toFun t := (t.1, t.2 + e)
  invFun t := (t.1, t.2 - e)
  left_inv t := by simp
  right_inv t := by simp

/-- The neighbour `e` further along the column. -/
def down (e : G) : G × G ≃ G × G where
  toFun t := (t.1 + e, t.2)
  invFun t := (t.1 - e, t.2)
  left_inv t := by simp
  right_inv t := by simp

@[simp] theorem skewRow_apply (t : G × G) : skewRow t = (t.1, t.2 - t.1) := rfl
@[simp] theorem skewCol_apply (t : G × G) : skewCol t = (t.1 - t.2, t.2) := rfl
@[simp] theorem right_apply (e : G) (t : G × G) : right e t = (t.1, t.2 + e) := rfl
@[simp] theorem down_apply (e : G) (t : G × G) : down e t = (t.1 + e, t.2) := rfl

/-- The inner index tile `t` holds after moving by `x` in all. -/
def held (t : G × G) (x : G) : G := t.1 + t.2 - x

/-- The skewed left block of `t` has inner index `t.2`, its own column. -/
theorem held_skewRow (t : G × G) : held (skewRow t) 0 = t.2 := by
  simp [held]

/-- The skewed right block of `t` has inner index `t.1`, its own row. -/
theorem held_skewCol (t : G × G) : held (skewCol t) 0 = t.1 := by
  simp [held]

theorem held_right (e x : G) (t : G × G) : held (right e t) (x + e) = held t x := by
  simp only [held, right_apply]
  rw [← add_assoc, add_sub_add_right_eq_sub]

theorem held_down (e x : G) (t : G × G) : held (down e t) (x + e) = held t x := by
  simp only [held, down_apply]
  rw [add_right_comm, add_sub_add_right_eq_sub]

/-- A full turn visits every inner index once. -/
theorem sum_held [Fintype G] {R : Type} [AddCommMonoid R] (t : G × G) (f : G → R) :
    ∑ x, f (held t x) = ∑ l, f l :=
  Equiv.sum_comp (Equiv.subLeft (t.1 + t.2)) f

/-- The same over the step numbers `0 .. n-1` of a torus of side `n`. -/
theorem sum_held_range {n : Nat} [NeZero n] {R : Type} [AddCommMonoid R] (t : Fin n × Fin n)
    (f : Fin n → R) : ∑ k ∈ Finset.range n, f (held t (Fin.ofNat n k)) = ∑ l, f l := by
  rw [← sum_held t f, ← Fin.sum_univ_eq_sum_range fun k => f (held t (Fin.ofNat n k))]
  simp only [Fin.ofNat_val_eq_self]

end Torus
