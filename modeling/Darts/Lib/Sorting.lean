import Mathlib.Data.List.Sort

/-!
# Sorted permutations and merging

`Sorts xs ys`: `ys` is `xs` in non-decreasing order. Merging with a strict comparison
takes from the left only what is smaller; on a linear order the result is sorted all
the same. `Sorts.around` puts an element between two sorted parts.
-/

namespace Sorting

variable {α : Type} [LinearOrder α] {xs ys as bs as' bs' : List α} {x : α}

/-- `ys` is `xs` in non-decreasing order. -/
structure Sorts (xs ys : List α) : Prop where
  perm : ys.Perm xs
  sorted : ys.Pairwise (· ≤ ·)

theorem Sorts.of_perm (h : Sorts xs ys) (hp : xs.Perm as) : Sorts as ys :=
  ⟨h.perm.trans hp, h.sorted⟩

/-- What is sorted already. -/
theorem Sorts.refl (h : xs.Pairwise (· ≤ ·)) : Sorts xs xs := ⟨.refl _, h⟩

/-- There is only one sorted permutation. -/
theorem Sorts.unique {zs : List α} (h : Sorts xs ys) (h' : Sorts xs zs) : ys = zs :=
  (h.perm.trans h'.perm.symm).eq_of_pairwise' h.sorted h'.sorted

/-- The sorted permutation. -/
def sort (xs : List α) : List α := xs.mergeSort fun x y => decide (x ≤ y)

theorem sort_sorts (xs : List α) : Sorts xs (sort xs) := by
  refine ⟨List.mergeSort_perm .., (List.pairwise_mergeSort ?_ ?_ xs).imp of_decide_eq_true⟩
  · intro x y z hxy hyz
    exact decide_eq_true ((of_decide_eq_true hxy).trans (of_decide_eq_true hyz))
  · intro x y
    simpa using le_total x y

theorem Sorts.eq_sort (h : Sorts xs ys) : ys = sort xs := h.unique (sort_sorts xs)

@[simp] theorem sort_length (xs : List α) : (sort xs).length = xs.length :=
  (sort_sorts xs).perm.length_eq

/-- Sorting the parts first does not change what the whole has to be sorted to. -/
theorem Sorts.of_parts (h : Sorts (as' ++ bs') ys) (ha : Sorts as as') (hb : Sorts bs bs') :
    Sorts (as ++ bs) ys :=
  h.of_perm (ha.perm.append hb.perm)

/-- Two sorted parts with an element between them. -/
theorem Sorts.around (ha : Sorts as as') (hb : Sorts bs bs') (hlt : ∀ a ∈ as, a ≤ x)
    (hge : ∀ b ∈ bs, x ≤ b) : Sorts (as ++ x :: bs) (as' ++ x :: bs') where
  perm := ha.perm.append (hb.perm.cons x)
  sorted := by
    have hxb : ∀ b ∈ bs', x ≤ b := fun b h => hge b (hb.perm.mem_iff.mp h)
    have hax : ∀ a ∈ as', a ≤ x := fun a h => hlt a (ha.perm.mem_iff.mp h)
    refine List.pairwise_append.mpr ⟨ha.sorted, List.pairwise_cons.mpr ⟨hxb, hb.sorted⟩, ?_⟩
    intro a h b hb'
    rcases List.mem_cons.mp hb' with rfl | hb'
    · exact hax a h
    · exact (hax a h).trans (hxb b hb')

/-- Merging that takes from the left only what is smaller. -/
def mergeLt (xs ys : List α) : List α := List.merge xs ys fun x y => decide (x < y)

@[simp] theorem mergeLt_nil_left (ys : List α) : mergeLt [] ys = ys := by simp [mergeLt]

@[simp] theorem mergeLt_nil_right (xs : List α) : mergeLt xs [] = xs := by simp [mergeLt]

theorem mergeLt_cons_lt {y : α} (h : x < y) (xs ys : List α) :
    mergeLt (x :: xs) (y :: ys) = x :: mergeLt xs (y :: ys) :=
  List.cons_merge_cons_pos _ _ _ (by simpa using h)

theorem mergeLt_cons_ge {y : α} (h : ¬x < y) (xs ys : List α) :
    mergeLt (x :: xs) (y :: ys) = y :: mergeLt (x :: xs) ys :=
  List.cons_merge_cons_neg _ _ _ (by simpa using h)

theorem mergeLt_perm (xs ys : List α) : (mergeLt xs ys).Perm (xs ++ ys) :=
  List.merge_perm_append _

@[simp] theorem mergeLt_length (xs ys : List α) :
    (mergeLt xs ys).length = xs.length + ys.length := by
  rw [(mergeLt_perm xs ys).length_eq, List.length_append]

theorem mem_mergeLt {a : α} : a ∈ mergeLt xs ys ↔ a ∈ xs ∨ a ∈ ys := by
  rw [(mergeLt_perm xs ys).mem_iff, List.mem_append]

/-- Merging leaves the order within each list as it is. -/
theorem sublist_mergeLt (xs ys : List α) :
    xs.Sublist (mergeLt xs ys) ∧ ys.Sublist (mergeLt xs ys) := by
  induction xs generalizing ys with
  | nil => simp
  | cons x xs ihx =>
    induction ys with
    | nil => simp
    | cons y ys ihy =>
      by_cases hlt : x < y
      · rw [mergeLt_cons_lt hlt]
        exact ⟨(ihx (y :: ys)).1.cons_cons x, (ihx (y :: ys)).2.cons x⟩
      · rw [mergeLt_cons_ge hlt]
        exact ⟨ihy.1.cons y, ihy.2.cons_cons y⟩

/-- So only sorted lists give a sorted one. -/
theorem sorted_of_mergeLt (h : (mergeLt xs ys).Pairwise (· ≤ ·)) :
    xs.Pairwise (· ≤ ·) ∧ ys.Pairwise (· ≤ ·) :=
  ⟨h.sublist (sublist_mergeLt xs ys).1, h.sublist (sublist_mergeLt xs ys).2⟩

/-- Merging sorted lists sorts them. -/
theorem mergeLt_sorts (hx : xs.Pairwise (· ≤ ·)) (hy : ys.Pairwise (· ≤ ·)) :
    Sorts (xs ++ ys) (mergeLt xs ys) := by
  refine ⟨mergeLt_perm xs ys, ?_⟩
  induction xs generalizing ys with
  | nil => simpa using hy
  | cons x xs ihx =>
    induction ys with
    | nil => simpa using hx
    | cons y ys ihy =>
      obtain ⟨hx1, hx2⟩ := List.pairwise_cons.mp hx
      obtain ⟨hy1, hy2⟩ := List.pairwise_cons.mp hy
      by_cases hlt : x < y
      · rw [mergeLt_cons_lt hlt]
        refine List.pairwise_cons.mpr ⟨fun z hz => ?_, ihx hx2 hy⟩
        rcases mem_mergeLt.mp hz with hz | hz
        · exact hx1 z hz
        · rcases List.mem_cons.mp hz with rfl | hz
          · exact hlt.le
          · exact hlt.le.trans (hy1 z hz)
      · rw [mergeLt_cons_ge hlt]
        refine List.pairwise_cons.mpr ⟨fun z hz => ?_, ihy hy2⟩
        rcases mem_mergeLt.mp hz with hz | hz
        · rcases List.mem_cons.mp hz with rfl | hz
          · exact not_lt.mp hlt
          · exact (not_lt.mp hlt).trans (hx1 z hz)
        · exact hy1 z hz

end Sorting
