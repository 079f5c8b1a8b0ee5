import Mathlib.Data.List.Nodup
import Mathlib.Data.Set.Function
import Mathlib.Logic.Equiv.Basic
import Mathlib.Logic.Function.Basic
import Mathlib.Order.CompletePartialOrder
import Mathlib.Order.Interval.Set.Disjoint
import Darts.Lib.Stores

/-!
# Stretches of arrays

A memory of arrays: an address is an array and an integer index into it, so that a
pointer is an array and an offset. `seg` is the content of a stretch as a list, `cells`
its addresses, and `store` writes a list, one element after the other.
-/

namespace Arrays

variable {B V : Type} {m m' : B × Int → V} {b b' : B} {lo lo' : Int} {n n' : Nat}

/-- The addresses of `b[lo], ..., b[lo + n - 1]`. -/
def cells (b : B) (lo : Int) (n : Nat) : Set (B × Int) := {l | l.1 = b ∧ lo ≤ l.2 ∧ l.2 < lo + n}

theorem mem_cells {l : B × Int} : l ∈ cells b lo n ↔ l.1 = b ∧ lo ≤ l.2 ∧ l.2 < lo + n := Iff.rfl

theorem cells_subset (h : lo ≤ lo') (h' : lo' + n' ≤ lo + n) : cells b lo' n' ⊆ cells b lo n := by
  intro l hl
  have := mem_cells.mp hl
  exact ⟨this.1, by omega, by omega⟩

/-- Stretches of different arrays, and stretches one after the other, do not meet. -/
theorem cells_disjoint (h : b ≠ b' ∨ lo + n ≤ lo' ∨ lo' + n' ≤ lo) :
    Disjoint (cells b lo n) (cells b' lo' n') := by
  refine Set.disjoint_left.mpr fun l hl hl' => ?_
  obtain ⟨hb, h1, h2⟩ := mem_cells.mp hl
  obtain ⟨hb', h1', h2'⟩ := mem_cells.mp hl'
  rcases h with h | h | h
  · exact h (hb.symm.trans hb')
  · omega
  · omega

/-! ## The content of a stretch -/

/-- The content of `b[lo], ..., b[lo + n - 1]`. -/
def seg (m : B × Int → V) (b : B) (lo : Int) (n : Nat) : List V :=
  (List.range n).map fun i : Nat => m (b, lo + i)

@[simp] theorem seg_length (m : B × Int → V) (b : B) (lo : Int) (n : Nat) :
    (seg m b lo n).length = n := by
  simp [seg]

@[simp] theorem seg_zero (m : B × Int → V) (b : B) (lo : Int) : seg m b lo 0 = [] := rfl

theorem seg_append (m : B × Int → V) (b : B) (lo : Int) (n k : Nat) :
    seg m b lo (n + k) = seg m b lo n ++ seg m b (lo + n) k := by
  unfold seg
  rw [List.range_add, List.map_append, List.map_map]
  congr 1
  refine List.map_congr_left fun i _ => ?_
  simp [Int.add_assoc]

theorem seg_succ (m : B × Int → V) (b : B) (lo : Int) (n : Nat) :
    seg m b lo (n + 1) = m (b, lo) :: seg m b (lo + 1) n := by
  rw [Nat.add_comm, seg_append]
  simp [seg]

/-- The element at `i`, with what is before and behind it. -/
theorem seg_split (m : B × Int → V) (b : B) (lo : Int) (n k : Nat) :
    seg m b lo (n + 1 + k) = seg m b lo n ++ m (b, lo + n) :: seg m b (lo + n + 1) k := by
  rw [Nat.add_assoc, Nat.add_comm 1 k, seg_append, seg_succ]

theorem seg_take (m : B × Int → V) (b : B) (lo : Int) (h : n' ≤ n) :
    (seg m b lo n).take n' = seg m b lo n' := by
  have happend := seg_append m b lo n' (n - n')
  rw [Nat.add_sub_cancel' h] at happend
  rw [happend]
  exact List.take_left' (seg_length ..)

theorem seg_drop (m : B × Int → V) (b : B) (lo : Int) (h : n' ≤ n) :
    (seg m b lo n).drop n' = seg m b (lo + n') (n - n') := by
  have happend := seg_append m b lo n' (n - n')
  rw [Nat.add_sub_cancel' h] at happend
  rw [happend]
  exact List.drop_left' (seg_length ..)

theorem forall_mem_seg {P : V → Prop} :
    (∀ v ∈ seg m b lo n, P v) ↔ ∀ i, lo ≤ i → i < lo + n → P (m (b, i)) := by
  unfold seg
  constructor
  · intro h i hlo hi
    refine h _ (List.mem_map.mpr ⟨(i - lo).toNat, List.mem_range.mpr (by omega), ?_⟩)
    congr 2
    omega
  · intro h v hv
    obtain ⟨i, hi, rfl⟩ := List.mem_map.mp hv
    have := List.mem_range.mp hi
    exact h _ (by omega) (by omega)

theorem pairwise_seg {r : V → V → Prop} : (seg m b lo n).Pairwise r ↔
    ∀ i j, lo ≤ i → i < j → j < lo + n → r (m (b, i)) (m (b, j)) := by
  unfold seg
  rw [List.pairwise_map, List.pairwise_iff_getElem]
  constructor
  · intro h i j hlo hij hj
    have := h (i - lo).toNat (j - lo).toNat (by simp; omega) (by simp; omega) (by omega)
    simp only [List.getElem_range] at this
    rwa [show lo + ((i - lo).toNat : Int) = i by omega,
      show lo + ((j - lo).toNat : Int) = j by omega] at this
  · intro h i j hi hj hij
    simp only [List.length_range] at hi hj
    simp only [List.getElem_range]
    exact h _ _ (by omega) (by omega) (by omega)

/-- Every list is the content of some stretch. -/
theorem seg_getD (vs : List V) (v : V) (b : B) :
    seg (fun l : B × Int => vs.getD l.2.toNat v) b 0 vs.length = vs := by
  refine List.ext_getElem (seg_length ..) fun i h h' => ?_
  simp [seg, h']

/-- The content depends on the stretch alone. -/
theorem seg_congr (h : Set.EqOn m m' (cells b lo n)) : seg m b lo n = seg m' b lo n := by
  refine List.map_congr_left fun i hi => h ?_
  have := List.mem_range.mp hi
  exact ⟨rfl, by simp only; omega, by simp only; omega⟩

/-- The addresses of a stretch, in order. -/
def addresses (b : B) (lo : Int) (n : Nat) : List (B × Int) :=
  (List.range n).map fun i : Nat => (b, lo + i)

theorem seg_eq_map (m : B × Int → V) (b : B) (lo : Int) (n : Nat) :
    seg m b lo n = (addresses b lo n).map m := by
  unfold seg addresses
  rw [List.map_map]
  rfl

theorem mem_addresses {l : B × Int} : l ∈ addresses b lo n ↔ l ∈ cells b lo n := by
  unfold addresses
  constructor
  · intro h
    obtain ⟨i, hi, rfl⟩ := List.mem_map.mp h
    have := List.mem_range.mp hi
    exact ⟨rfl, by simp only; omega, by simp only; omega⟩
  · obtain ⟨b', i⟩ := l
    intro ⟨hb, hlo, hi⟩
    simp only at hb hlo hi
    refine List.mem_map.mpr ⟨(i - lo).toNat, List.mem_range.mpr (by omega), ?_⟩
    rw [hb, show lo + ((i - lo).toNat : Int) = i by omega]

theorem nodup_addresses : (addresses b lo n).Nodup := by
  refine List.nodup_range.map fun i j h => ?_
  have := (Prod.mk.inj h).2
  omega

theorem addresses_append (b : B) (lo : Int) (n k : Nat) :
    addresses b lo (n + k) = addresses b lo n ++ addresses b (lo + n) k := by
  unfold addresses
  rw [List.range_add, List.map_append, List.map_map]
  congr 1
  refine List.map_congr_left fun i _ => ?_
  simp [Int.add_assoc]

theorem addresses_succ (b : B) (lo : Int) (n : Nat) :
    addresses b lo (n + 1) = (b, lo) :: addresses b (lo + 1) n := by
  rw [Nat.add_comm, addresses_append]
  simp [addresses]

/-- `m'` has the elements of the stretch in another order, and is `m` elsewhere. -/
structure Rearranges (b : B) (lo : Int) (n : Nat) (m m' : B × Int → V) : Prop where
  off : Set.EqOn m m' (cells b lo n)ᶜ
  perm : (seg m' b lo n).Perm (seg m b lo n)

theorem Rearranges.refl : Rearranges b lo n m m := ⟨Set.eqOn_refl .., .refl _⟩

theorem Rearranges.trans {m'' : B × Int → V} (h : Rearranges b lo n m m')
    (h' : Rearranges b lo n m' m'') : Rearranges b lo n m m'' :=
  ⟨h.off.trans h'.off, h'.perm.trans h.perm⟩

/-! ## Writing -/

variable [DecidableEq B]

/-- A write changes nothing in a set it is not in. -/
theorem update_off {S : Set (B × Int)} (m : B × Int → V) {l : B × Int} (h : l ∉ S) (v : V) :
    Set.EqOn m (Function.update m l v) S := by
  intro l' hl'
  have hne : l' ≠ l := fun heq => h (heq ▸ hl')
  exact (Function.update_of_ne hne ..).symm

theorem seg_update {l : B × Int} (h : l ∉ cells b lo n) (v : V) :
    seg (Function.update m l v) b lo n = seg m b lo n :=
  (seg_congr (update_off m h v)).symm

/-- `b[lo], b[lo + 1], ...` are set to the elements of a list, in this order. -/
def store (m : B × Int → V) (b : B) (lo : Int) : List V → B × Int → V
  | [] => m
  | v :: vs => store (Function.update m (b, lo) v) b (lo + 1) vs

/-- The stores that this makes. -/
def stores (b : B) (lo : Int) : List V → List ((B × Int) × V)
  | [] => []
  | v :: vs => ((b, lo), v) :: stores b (lo + 1) vs

theorem store_eq_replay (m : B × Int → V) (b : B) (lo : Int) (vs : List V) :
    store m b lo vs = Stores.replay m (stores b lo vs) := by
  induction vs generalizing m lo with
  | nil => rfl
  | cons v vs ih => exact ih _ _

/-- Nothing else is written. -/
theorem store_off (m : B × Int → V) (b : B) (lo : Int) (vs : List V) :
    Set.EqOn m (store m b lo vs) (cells b lo vs.length)ᶜ := by
  induction vs generalizing m lo with
  | nil => exact Set.eqOn_refl ..
  | cons v vs ih =>
    have hlen : (v :: vs).length = vs.length + 1 := rfl
    have hfirst : (b, lo) ∉ (cells b lo (v :: vs).length)ᶜ := fun h => h ⟨rfl, le_rfl, by omega⟩
    refine (update_off m hfirst v).trans ((ih (Function.update m (b, lo) v) (lo + 1)).mono ?_)
    exact Set.compl_subset_compl.mpr (cells_subset (by omega) (by omega))

/-- What has been written is there. -/
theorem seg_store (m : B × Int → V) (b : B) (lo : Int) (vs : List V) :
    seg (store m b lo vs) b lo vs.length = vs := by
  induction vs generalizing m lo with
  | nil => rfl
  | cons v vs ih =>
    rw [List.length_cons, seg_succ, store, ih]
    have hfirst : (b, lo) ∈ (cells b (lo + 1) vs.length)ᶜ := fun h => by
      have := (mem_cells.mp h).2.1
      simp only at this
      omega
    rw [← store_off _ b (lo + 1) vs hfirst, Function.update_self]

/-! ## Rearranging -/

/-- Two elements change places. -/
def swap (m : B × Int → V) (l l' : B × Int) : B × Int → V :=
  Function.update (Function.update m l (m l')) l' (m l)

theorem swap_apply (m : B × Int → V) (l l' x : B × Int) :
    swap m l l' x = m (Equiv.swap l l' x) := by
  unfold swap
  rw [Equiv.swap_apply_def]
  by_cases h' : x = l'
  · subst h'
    rw [Function.update_self]
    split
    next h => rw [h]
    next => rw [if_pos rfl]
  · rw [Function.update_of_ne h']
    by_cases h : x = l
    · rw [h, Function.update_self, if_pos rfl]
    · rw [Function.update_of_ne h, if_neg h, if_neg h']

theorem swap_left (m : B × Int → V) (l l' : B × Int) : swap m l l' l = m l' := by
  rw [swap_apply, Equiv.swap_apply_left]

theorem swap_right (m : B × Int → V) (l l' : B × Int) : swap m l l' l' = m l := by
  rw [swap_apply, Equiv.swap_apply_right]

theorem swap_of_ne (m : B × Int → V) {l l' x : B × Int} (h : x ≠ l) (h' : x ≠ l') :
    swap m l l' x = m x := by
  rw [swap_apply, Equiv.swap_apply_of_ne_of_ne h h']

theorem Rearranges.swap (m : B × Int → V) {l l' : B × Int} (hl : l ∈ cells b lo n)
    (hl' : l' ∈ cells b lo n) : Rearranges b lo n m (swap m l l') where
  off := by
    intro x hx
    have hne : x ≠ l := fun heq => hx (heq ▸ hl)
    have hne' : x ≠ l' := fun heq => hx (heq ▸ hl')
    exact (swap_of_ne m hne hne').symm
  perm := by
    -- the addresses of the stretch are passed through in another order
    have hin : ∀ x ∈ cells b lo n, Equiv.swap l l' x ∈ cells b lo n := by
      intro x hx
      rw [Equiv.swap_apply_def]
      split
      next => exact hl'
      next =>
        split
        next => exact hl
        next => exact hx
    have hmap : ((addresses b lo n).map (Equiv.swap l l')).Perm (addresses b lo n) := by
      refine (List.perm_ext_iff_of_nodup
        (nodup_addresses.map (Equiv.swap l l').injective) nodup_addresses).mpr fun x => ?_
      rw [List.mem_map, mem_addresses]
      constructor
      · intro ⟨y, hy, heq⟩
        exact heq ▸ hin y (mem_addresses.mp hy)
      · intro hx
        exact ⟨_, mem_addresses.mpr (hin x hx), Equiv.swap_apply_self ..⟩
    have hswap : Arrays.swap m l l' = m ∘ Equiv.swap l l' := funext fun x => swap_apply m l l' x
    rw [seg_eq_map, seg_eq_map, hswap, ← List.map_map]
    exact hmap.map m

end Arrays
