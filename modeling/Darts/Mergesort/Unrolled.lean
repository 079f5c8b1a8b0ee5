import Mathlib.Algebra.Group.Nat.Defs
import Darts.Lib.Sorting

/-!
# What the merges make of the runs

`mergeBase` cuts its range in eight runs of `size / 8` elements, with the remainder given
to the last one. A `merge` knows none of this: it cuts what it is given in the middle. The
two agree only when the remainder is at most one, or when there are no runs but the last
(`Fits`). `unrolled` is what the eight runs are merged to, and `outcome` what a whole
`mergeSort` leaves in `out`; both are functions of the content alone.
-/

namespace Darts

namespace Mergesort

open Sorting

/-- What `merge` makes of a list. -/
def mergeHalves (xs : List Int) : List Int :=
  mergeLt (xs.take (xs.length / 2)) (xs.drop (xs.length / 2))

/-- `k` levels of merges above runs of `div` elements, the last of which has all the rest. -/
def unrolled (div : Nat) : Nat → List Int → List Int
  | 0, xs => sort xs
  | k + 1, xs =>
    mergeHalves (unrolled div k (xs.take (2 ^ k * div)) ++ unrolled div k (xs.drop (2 ^ k * div)))

variable {xs ys : List Int}

theorem mergeHalves_perm (xs : List Int) : (mergeHalves xs).Perm xs := by
  have hperm := mergeLt_perm (xs.take (xs.length / 2)) (xs.drop (xs.length / 2))
  rwa [List.take_append_drop] at hperm

/-- Two lists that are cut where they were joined. -/
theorem mergeHalves_append (h : xs.length = (xs.length + ys.length) / 2) :
    mergeHalves (xs ++ ys) = mergeLt xs ys := by
  unfold mergeHalves
  rw [List.length_append, ← h, List.take_left, List.drop_left]

/-- On a sorted list it does not matter where it is cut. -/
theorem mergeHalves_sorts (h : xs.Pairwise (· ≤ ·)) : Sorts xs (mergeHalves xs) := by
  have hsorts := mergeLt_sorts (h.sublist (List.take_sublist (xs.length / 2) xs))
    (h.sublist (List.drop_sublist (xs.length / 2) xs))
  rwa [List.take_append_drop] at hsorts

theorem unrolled_perm (div k : Nat) (xs : List Int) : (unrolled div k xs).Perm xs := by
  induction k generalizing xs with
  | zero => exact (sort_sorts xs).perm
  | succ k ih =>
    refine (mergeHalves_perm _).trans ?_
    have hperm := (ih (xs.take (2 ^ k * div))).append (ih (xs.drop (2 ^ k * div)))
    rwa [List.take_append_drop] at hperm

theorem unrolled_length (div k : Nat) (xs : List Int) : (unrolled div k xs).length = xs.length :=
  (unrolled_perm div k xs).length_eq

/-! ## When the merges fit the runs -/

/-- The remainder is not more than one element. -/
theorem unrolled_sorts_exact (div k : Nat) {r : Nat} (hr : r ≤ 1) {xs : List Int}
    (h : xs.length = 2 ^ k * div + r) : Sorts xs (unrolled div k xs) := by
  induction k generalizing r xs with
  | zero => exact sort_sorts xs
  | succ k ih =>
    have hpow : 2 ^ (k + 1) * div = 2 ^ k * div + 2 ^ k * div := by
      rw [Nat.pow_succ, Nat.mul_assoc, Nat.mul_comm 2 div, ← Nat.mul_assoc, Nat.mul_two]
    have hlower : Sorts (xs.take (2 ^ k * div)) _ := ih (Nat.zero_le 1) (by
      rw [List.length_take]
      omega)
    have hupper : Sorts (xs.drop (2 ^ k * div)) _ := ih hr (by
      rw [List.length_drop]
      omega)
    unfold unrolled
    rw [mergeHalves_append (by
      rw [unrolled_length, unrolled_length, List.length_take, List.length_drop]
      omega)]
    have hsorts := (mergeLt_sorts hlower.sorted hupper.sorted).of_parts hlower hupper
    rwa [List.take_append_drop] at hsorts

/-- All is in the last run. -/
theorem unrolled_sorts_zero (k : Nat) (xs : List Int) : Sorts xs (unrolled 0 k xs) := by
  induction k generalizing xs with
  | zero => exact sort_sorts xs
  | succ k ih =>
    have hempty : unrolled 0 k [] = [] := (unrolled_perm 0 k []).eq_nil
    unfold unrolled
    rw [Nat.mul_zero, List.take_zero, List.drop_zero, hempty, List.nil_append]
    exact (mergeHalves_sorts (ih xs).sorted).of_perm (ih xs).perm

/-- The merges of `mergeBase` on `n` elements cut where its runs end. -/
def Fits (n : Nat) : Prop := n < 8 ∨ n % 8 ≤ 1

instance (n : Nat) : Decidable (Fits n) := inferInstanceAs (Decidable (_ ∨ _))

theorem unrolled_sorts (h : Fits xs.length) : Sorts xs (unrolled (xs.length / 8) 3 xs) := by
  obtain h | h := h
  · rw [Nat.div_eq_of_lt h]
    exact unrolled_sorts_zero 3 xs
  · exact unrolled_sorts_exact (xs.length / 8) 3 h (Nat.div_add_mod xs.length 8).symm

/-! ## When they do not -/

/-- Ones, and then zeros that are more by at least two: the last merge finds a zero at the end of
its first half. -/
theorem unrolled_unsorted {div r : Nat} (k : Nat) (hdiv : 0 < div) (hr : 2 ≤ r) :
    ¬(unrolled div (k + 1)
      (List.replicate (2 ^ k * div) 1 ++ List.replicate (2 ^ k * div + r) 0)).Pairwise (· ≤ ·) := by
  intro h
  have hpos : 0 < 2 ^ k * div := Nat.mul_pos (Nat.two_pow_pos k) hdiv
  have hlower := List.perm_replicate.mp (unrolled_perm div k (List.replicate (2 ^ k * div) 1))
  have hupper := List.perm_replicate.mp (unrolled_perm div k (List.replicate (2 ^ k * div + r) 0))
  unfold unrolled at h
  rw [List.take_left' List.length_replicate, List.drop_left' List.length_replicate, hlower, hupper]
    at h
  generalize 2 ^ k * div = n at hpos h
  obtain ⟨hhalf, -⟩ := sorted_of_mergeLt h
  have hcut : (List.replicate n (1 : Int) ++ List.replicate (n + r) 0).length / 2 = n + r / 2 := by
    simp only [List.length_append, List.length_replicate]
    omega
  rw [hcut] at hhalf
  have hone : (1 : Int) ∈ List.replicate n 1 := List.mem_replicate.mpr ⟨by omega, rfl⟩
  have hzero : (0 : Int) ∈ (List.replicate (n + r) 0).take (r / 2) := by
    rw [List.take_replicate]
    exact List.mem_replicate.mpr ⟨by omega, rfl⟩
  rw [List.take_append, List.take_of_length_le (by simp), List.length_replicate,
    Nat.add_sub_cancel_left] at hhalf
  exact absurd ((List.pairwise_append.mp hhalf).2.2 1 hone 0 hzero) (by decide)

/-- So there is a list of zeros and ones that `mergeBase` does not sort. -/
theorem exists_unrolled_unsorted {n : Nat} (h : ¬Fits n) :
    ∃ xs : List Int, xs.length = n ∧ (∀ v ∈ xs, v = 0 ∨ v = 1) ∧
      ¬(unrolled (n / 8) 3 xs).Pairwise (· ≤ ·) := by
  obtain ⟨hn, hr⟩ := not_or.mp h
  refine ⟨_, ?_, ?_, unrolled_unsorted 2 (show 0 < n / 8 by omega) (show 2 ≤ n % 8 by omega)⟩
  · simp only [List.length_append, List.length_replicate]
    omega
  · intro v hv
    rcases List.mem_append.mp hv with hv | hv
    · exact Or.inr (List.mem_replicate.mp hv).2
    · exact Or.inl (List.mem_replicate.mp hv).2

/-! ## The whole `mergeSort` -/

/-- What `mergeSort` leaves in `out`. -/
def outcome (base : Nat) (xs : List Int) : List Int :=
  if xs.length = 1 then xs
  else if xs.length / 2 < base then
    mergeLt (sort (xs.take (xs.length / 2))) (sort (xs.drop (xs.length / 2)))
  else if h : xs.length / 2 / base < 9 then
    mergeLt (unrolled (xs.length / 2 / 8) 3 (xs.take (xs.length / 2)))
      (unrolled ((xs.length - xs.length / 2) / 8) 3 (xs.drop (xs.length / 2)))
  else
    mergeLt (outcome base (xs.take (xs.length / 2))) (outcome base (xs.drop (xs.length / 2)))
termination_by xs.length
decreasing_by
  all_goals
    have := Nat.div_le_self (xs.length / 2) base
    simp only [List.length_take, List.length_drop]
    omega

/-- Every `mergeBase` that `mergeSort` invokes gets a number of elements that its merges fit. -/
def Splits (base size : Nat) : Prop :=
  if size = 1 ∨ size / 2 < base then True
  else if h : size / 2 / base < 9 then Fits (size / 2) ∧ Fits (size - size / 2)
  else Splits base (size / 2) ∧ Splits base (size - size / 2)
termination_by size
decreasing_by
  all_goals
    have := Nat.div_le_self (size / 2) base
    omega

@[simp] theorem outcome_length (base : Nat) (xs : List Int) :
    (outcome base xs).length = xs.length := by
  induction hn : xs.length using Nat.strong_induction_on generalizing xs with
  | _ n ih =>
    have hlower : (xs.take (n / 2)).length = n / 2 := by
      rw [List.length_take]
      omega
    have hupper : (xs.drop (n / 2)).length = n - n / 2 := by
      rw [List.length_drop, hn]
    unfold outcome
    rw [hn]
    split
    next => exact hn
    split
    next =>
      rw [mergeLt_length, sort_length, sort_length, hlower, hupper]
      omega
    split
    next =>
      rw [mergeLt_length, unrolled_length, unrolled_length, hlower, hupper]
      omega
    next hfew =>
      have hle := Nat.div_le_self (n / 2) base
      rw [mergeLt_length, ih _ (by omega) _ hlower, ih _ (by omega) _ hupper]
      omega

/-- Two sorted halves are merged to a sorted whole. -/
theorem halves_sorts {xs ys zs : List Int} {n : Nat} (hys : Sorts (xs.take n) ys)
    (hzs : Sorts (xs.drop n) zs) : Sorts xs (mergeLt ys zs) := by
  have hsorts := (mergeLt_sorts hys.sorted hzs.sorted).of_parts hys hzs
  rwa [List.take_append_drop] at hsorts

theorem outcome_sorts {base size : Nat} (h : Splits base size) {xs : List Int}
    (hxs : xs.length = size) : Sorts xs (outcome base xs) := by
  induction size using Nat.strong_induction_on generalizing xs with
  | _ size ih =>
    have hlower : (xs.take (size / 2)).length = size / 2 := by
      rw [List.length_take]
      omega
    have hupper : (xs.drop (size / 2)).length = size - size / 2 := by
      rw [List.length_drop, hxs]
    unfold Splits at h
    unfold outcome
    rw [hxs]
    by_cases hone : size = 1
    · rw [if_pos hone]
      obtain ⟨v, rfl⟩ := List.length_eq_one_iff.mp (hxs.trans hone)
      exact .refl (List.pairwise_singleton ..)
    rw [if_neg hone]
    by_cases hbase : size / 2 < base
    · rw [if_pos hbase]
      exact halves_sorts (sort_sorts _) (sort_sorts _)
    rw [if_neg hbase]
    rw [if_neg (by omega)] at h
    by_cases hfew : size / 2 / base < 9
    · rw [dif_pos hfew]
      rw [dif_pos hfew] at h
      have h1 : Sorts (xs.take (size / 2)) _ := unrolled_sorts (by rw [hlower]; exact h.1)
      have h2 : Sorts (xs.drop (size / 2)) _ := unrolled_sorts (by rw [hupper]; exact h.2)
      rw [hlower] at h1
      rw [hupper] at h2
      exact halves_sorts h1 h2
    · rw [dif_neg hfew]
      rw [dif_neg hfew] at h
      have hle := Nat.div_le_self (size / 2) base
      exact halves_sorts (ih _ (by omega) h.1 hlower) (ih _ (by omega) h.2 hupper)

/-- A half that is not sorted is enough for the whole not to be, whatever is in the other half. -/
theorem exists_outcome_unsorted {base size : Nat} (h : ¬Splits base size) :
    ∃ xs : List Int, xs.length = size ∧ (∀ v ∈ xs, v = 0 ∨ v = 1) ∧
      ¬(outcome base xs).Pairwise (· ≤ ·) := by
  induction size using Nat.strong_induction_on with
  | _ size ih =>
    unfold Splits at h
    split at h
    next => exact absurd trivial h
    next hlong =>
    obtain ⟨hone, hbase⟩ := not_or.mp hlong
    -- how the two halves are sorted
    obtain ⟨f, g, hfg, hbad⟩ : ∃ f g : List Int → List Int,
        (∀ xs, xs.length = size → outcome base xs =
          mergeLt (f (xs.take (size / 2))) (g (xs.drop (size / 2)))) ∧
        ((∃ xs : List Int, xs.length = size / 2 ∧ (∀ v ∈ xs, v = 0 ∨ v = 1) ∧
            ¬(f xs).Pairwise (· ≤ ·)) ∨
          ∃ xs : List Int, xs.length = size - size / 2 ∧ (∀ v ∈ xs, v = 0 ∨ v = 1) ∧
            ¬(g xs).Pairwise (· ≤ ·)) := by
      split at h
      next hfew =>
        refine ⟨unrolled (size / 2 / 8) 3, unrolled ((size - size / 2) / 8) 3, fun xs hxs => ?_, ?_⟩
        · rw [outcome, hxs, if_neg hone, if_neg hbase, dif_pos hfew]
        · exact (not_and_or.mp h).imp exists_unrolled_unsorted exists_unrolled_unsorted
      next hfew =>
        have hle := Nat.div_le_self (size / 2) base
        refine ⟨outcome base, outcome base, fun xs hxs => ?_, ?_⟩
        · rw [outcome, hxs, if_neg hone, if_neg hbase, dif_neg hfew]
        · exact (not_and_or.mp h).imp (ih _ (by omega)) (ih _ (by omega))
    have hzeros : ∀ n, ∀ v ∈ List.replicate n (0 : Int), v = 0 ∨ v = 1 := fun n v hv =>
      Or.inl (List.mem_replicate.mp hv).2
    obtain ⟨xs, hlen, hval, hxs⟩ | ⟨xs, hlen, hval, hxs⟩ := hbad
    · refine ⟨xs ++ List.replicate (size - size / 2) 0, ?_, fun v hv => ?_, fun hsorted => hxs ?_⟩
      · simp only [List.length_append, List.length_replicate]
        omega
      · exact (List.mem_append.mp hv).elim (hval v) (hzeros _ v)
      · rw [hfg _ (by simp only [List.length_append, List.length_replicate]; omega),
          List.take_left' hlen] at hsorted
        exact (sorted_of_mergeLt hsorted).1
    · refine ⟨List.replicate (size / 2) 0 ++ xs, ?_, fun v hv => ?_, fun hsorted => hxs ?_⟩
      · simp only [List.length_append, List.length_replicate]
        omega
      · exact (List.mem_append.mp hv).elim (hzeros _ v) (hval v)
      · rw [hfg _ (by simp only [List.length_append, List.length_replicate]; omega),
          List.drop_left' List.length_replicate] at hsorted
        exact (sorted_of_mergeLt hsorted).2

end Mergesort

end Darts
