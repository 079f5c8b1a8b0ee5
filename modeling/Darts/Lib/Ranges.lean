import Mathlib.Data.List.Pairwise
import Mathlib.Order.CompletePartialOrder
import Mathlib.Order.Interval.Set.Disjoint
import Mathlib.Order.Interval.Set.LinearOrder

/-!
# Cutting a range into ranges

A list of half-open ranges `[r.1, r.2)` over a linear order, read as the shares of
a range `[lo, hi)`. It is a `Packing` when no point is in two shares and no share
leaves the range, and a `Partition` when, besides, no point is left over.

Shares can be cut again. `Partition.flatMap_iff` says when the finer list is a
partition: exactly when the coarse one is and every share is cut into a partition
of itself.
-/

namespace Ranges

variable {α : Type} [LinearOrder α]

/-- The points of a range. -/
def points (r : α × α) : Set α := Set.Ico r.1 r.2

/-- The shares are pairwise disjoint and stay inside `[lo, hi)`. -/
structure Packing (lo hi : α) (rs : List (α × α)) : Prop where
  disjoint : rs.Pairwise fun r s => Disjoint (points r) (points s)
  inside : ∀ r ∈ rs, points r ⊆ Set.Ico lo hi

/-- The shares are pairwise disjoint and their union is exactly `[lo, hi)`. -/
structure Partition (lo hi : α) (rs : List (α × α)) : Prop extends Packing lo hi rs where
  covers : ∀ x ∈ Set.Ico lo hi, ∃ r ∈ rs, x ∈ points r

variable {lo hi : α} {rs : List (α × α)}

/-- The whole range as its only share. -/
theorem Partition.whole (lo hi : α) : Partition lo hi [(lo, hi)] where
  disjoint := List.pairwise_singleton ..
  inside r hr := by rw [List.mem_singleton.mp hr]; exact subset_rfl
  covers x hx := ⟨_, List.mem_singleton.mpr rfl, hx⟩

/-- One share that is a part of the range. -/
theorem Packing.single {a b : α} (h : points (a, b) ⊆ Set.Ico lo hi) : Packing lo hi [(a, b)] where
  disjoint := List.pairwise_singleton ..
  inside r hr := by rw [List.mem_singleton.mp hr]; exact h

/-! ## Cut points -/

/-- The ranges between consecutive cut points. -/
def between (c : Nat → α) (n : Nat) : List (α × α) :=
  (List.range n).map fun i => (c i, c (i + 1))

omit [LinearOrder α] in
theorem between_succ (c : Nat → α) (n : Nat) :
    between c (n + 1) = between c n ++ [(c n, c (n + 1))] := by
  unfold between
  rw [List.range_succ, List.map_append, List.map_singleton]

/-- Points before the last cut are before the last share. -/
private theorem Packing.concat {a b c : α} (h : Packing a b rs) (hab : a ≤ b) (hbc : b ≤ c) :
    Packing a c (rs ++ [(b, c)]) where
  disjoint := by
    refine List.pairwise_append.mpr ⟨h.disjoint, List.pairwise_singleton .., fun r hr s hs => ?_⟩
    rw [List.mem_singleton.mp hs]
    exact Set.Ico_disjoint_Ico_same.mono_left (h.inside r hr)
  inside r hr := by
    rcases List.mem_append.mp hr with hr | hr
    · exact (h.inside r hr).trans (Set.Ico_subset_Ico_right hbc)
    · rw [List.mem_singleton.mp hr]
      exact Set.Ico_subset_Ico_left hab

/-- Increasing cut points partition the range between the first and the last. -/
theorem between_partition {c : Nat → α} (hc : Monotone c) (n : Nat) :
    Partition (c 0) (c n) (between c n) := by
  induction n with
  | zero =>
    exact { disjoint := List.Pairwise.nil, inside := by simp [between],
            covers := fun x hx => absurd hx (by simp) }
  | succ n ih =>
    have h0n : c 0 ≤ c n := hc (Nat.zero_le n)
    have hn : c n ≤ c (n + 1) := hc (Nat.le_succ n)
    rw [between_succ]
    refine { ih.toPacking.concat h0n hn with covers := fun x hx => ?_ }
    rcases lt_or_ge x (c n) with hlt | hge
    · obtain ⟨r, hr, hxr⟩ := ih.covers x ⟨hx.1, hlt⟩
      exact ⟨r, List.mem_append_left _ hr, hxr⟩
    · exact ⟨_, List.mem_append_right _ (List.mem_singleton.mpr rfl), hge, hx.2⟩

/-! ## Cutting the shares again -/

variable {f : α × α → List (α × α)}

/-- Shares of disjoint shares are disjoint. -/
theorem Packing.flatMap (h : Packing lo hi rs) (hf : ∀ r ∈ rs, Packing r.1 r.2 (f r)) :
    Packing lo hi (rs.flatMap f) where
  disjoint := by
    refine List.pairwise_flatMap.mpr ⟨fun r hr => (hf r hr).disjoint, ?_⟩
    refine h.disjoint.imp_of_mem fun {r s} hr hs hrs p hp q hq => ?_
    exact hrs.mono ((hf r hr).inside p hp) ((hf s hs).inside q hq)
  inside p hp := by
    obtain ⟨r, hr, hpr⟩ := List.mem_flatMap.mp hp
    exact ((hf r hr).inside p hpr).trans (h.inside r hr)

/-- In a packing a point belongs to one share, at most. -/
theorem Packing.unique (h : Packing lo hi rs) {r s : α × α} {x : α} (hr : r ∈ rs) (hs : s ∈ rs)
    (hxr : x ∈ points r) (hxs : x ∈ points s) : r = s := by
  by_contra hne
  have : Std.Symm fun r s : α × α => Disjoint (points r) (points s) := 
    ⟨fun _ _ h => h.symm⟩
  have hd : Disjoint (points r) (points s) := h.disjoint.forall hr hs hne
  exact Set.disjoint_left.mp hd hxr hxs

/-- The finer list covers the range exactly when the coarse one does and each of its
shares is covered. -/
theorem Partition.flatMap_iff (h : Packing lo hi rs) (hf : ∀ r ∈ rs, Packing r.1 r.2 (f r)) :
    Partition lo hi (rs.flatMap f) ↔
      Partition lo hi rs ∧ ∀ r ∈ rs, Partition r.1 r.2 (f r) := by
  constructor
  · intro hp
    -- whatever share of the fine list a point is in lies in one coarse share
    have hin : ∀ x ∈ Set.Ico lo hi, ∃ r ∈ rs, x ∈ points r ∧ ∃ p ∈ f r, x ∈ points p := by
      intro x hx
      obtain ⟨p, hp', hxp⟩ := hp.covers x hx
      obtain ⟨r, hr, hpr⟩ := List.mem_flatMap.mp hp'
      exact ⟨r, hr, (hf r hr).inside p hpr hxp, p, hpr, hxp⟩
    refine ⟨{ h with covers := fun x hx => ?_ }, fun r hr => { hf r hr with covers := fun x hx => ?_ }⟩
    · obtain ⟨r, hr, hxr, -⟩ := hin x hx
      exact ⟨r, hr, hxr⟩
    · obtain ⟨s, hs, hxs, hps⟩ := hin x (h.inside r hr hx)
      exact h.unique hs hr hxs hx ▸ hps
  · intro ⟨hrs, hfr⟩
    refine { h.flatMap hf with covers := fun x hx => ?_ }
    obtain ⟨r, hr, hxr⟩ := hrs.covers x hx
    obtain ⟨p, hp, hxp⟩ := (hfr r hr).covers x hxr
    exact ⟨p, List.mem_flatMap.mpr ⟨r, hr, hp⟩, hxp⟩

end Ranges
