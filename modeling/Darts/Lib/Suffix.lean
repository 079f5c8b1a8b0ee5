import Mathlib.Data.List.Infix

/-!
# What is left of a list

A list executed from the front leaves a suffix of it behind. As long as anything
is left, the end of the list is.
-/

namespace Suffix

variable {α : Type} {l : List α}

/-- A suffix of a body starts in one of its halves. -/
theorem append_cases {xs ys : List α} (h : l <:+ xs ++ ys) :
    l <:+ ys ∨ ∃ z zs, z :: zs <:+ xs ∧ l = z :: zs ++ ys := by
  obtain ⟨pre, hpre⟩ := h
  rcases List.append_eq_append_iff.mp hpre with ⟨zs, rfl, rfl⟩ | ⟨zs, -, rfl⟩
  · cases zs with
    | nil => exact Or.inl List.suffix_rfl
    | cons z zs => exact Or.inr ⟨z, zs, List.suffix_append _ _, rfl⟩
  · exact Or.inl (List.suffix_append _ _)

/-- A non-empty suffix reaches into the end. -/
theorem exists_mem {xs ys : List α} (h : l <:+ xs ++ ys) (hl : l ≠ []) (hys : ys ≠ []) :
    ∃ y ∈ ys, y ∈ l := by
  rcases append_cases h with hsuf | ⟨z, zs, -, rfl⟩
  · obtain ⟨y, hy⟩ := List.exists_mem_of_ne_nil l hl
    exact ⟨y, hsuf.subset hy, hy⟩
  · obtain ⟨y, hy⟩ := List.exists_mem_of_ne_nil ys hys
    exact ⟨y, hy, List.mem_append_right _ hy⟩

/-- A non-empty suffix contains the last element. -/
theorem last_mem (xs : List α) (y : α) (h : l <:+ xs ++ [y]) (hl : l ≠ []) : y ∈ l := by
  obtain ⟨z, hz, hmem⟩ := exists_mem h hl (by simp)
  rw [List.mem_singleton] at hz
  exact hz ▸ hmem

/-! ## A body whose entries are all different -/

variable [DecidableEq α] {L : List α} {x y : α}

/-- What is left behind `x`. -/
theorem tail_eq (h : x :: l <:+ L) (hL : L.Nodup) : l = L.drop (L.idxOf x + 1) := by
  obtain ⟨pre, rfl⟩ := h
  have hpre : x ∉ pre := by
    intro hx
    exact (List.nodup_append.mp hL).2.2 x hx x (List.mem_cons_self ..) rfl
  rw [List.idxOf_append_of_notMem hpre, List.idxOf_cons_self, Nat.add_zero,
    List.drop_append, List.drop_eq_nil_of_le (by omega)]
  simp

/-- Once `y` is gone, so is `x` before it. -/
theorem not_mem_of_later (h : l <:+ L) (hx : x ∉ L.drop (L.idxOf x + 1))
    (hy : y ∈ L.drop (L.idxOf x + 1)) (hl : y ∉ l) : x ∉ l := by
  intro hmem
  rcases List.suffix_or_suffix_of_suffix h (List.drop_suffix (L.idxOf x + 1) L) with hle | hge
  · exact hx (hle.subset hmem)
  · exact hl (hge.subset hy)

end Suffix
