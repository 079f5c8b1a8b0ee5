import Mathlib.Data.List.Cycle
import Mathlib.Data.Nat.ModEq
import Mathlib.Logic.Function.Basic

/-!
# Circular buffers and circular lists

A circular buffer of `size` cells is used through counters that only grow; the
cell of a counter is its remainder. `Holds data size f xs` says that the list
`xs` lies in the buffer from counter `f` on and that every other cell is empty.
Appending fills the cell behind the list, removing the head empties the cell at
`f`.

A circular linked list is a `Cycle.Chain` of the relation "`b` is the next of
`a`": the list may be read from any of its nodes, and a node is inserted by two
stores.
-/

namespace Circular

variable {α : Type}

/-- Two counters less than `size` apart are equal when their cells are. -/
theorem eq_of_mod_eq {size a b : Nat} (hle : a ≤ b) (hlt : b < a + size)
    (h : a % size = b % size) : a = b := by
  have hsub : (a + (b - a)) % size = (a + 0) % size := by
    rw [Nat.add_sub_cancel' hle, Nat.add_zero, h]
  have hmod : b - a ≡ 0 [MOD size] := Nat.ModEq.add_left_cancel' a hsub
  have hzero : (b - a) % size = 0 := hmod
  rw [Nat.mod_eq_of_lt (by omega)] at hzero
  omega

theorem mod_eq_iff {size a b : Nat} (hle : a ≤ b) (hlt : b < a + size) :
    a % size = b % size ↔ a = b :=
  ⟨eq_of_mod_eq hle hlt, fun h => by rw [h]⟩

/-- A counter `size` further has the same cell. -/
theorem mod_eq_iff_full {size a b : Nat} (hlt : a < b) (hle : b ≤ a + size) :
    b % size = a % size ↔ b = a + size := by
  rcases Nat.lt_or_ge b (a + size) with h | h
  · rw [eq_comm, mod_eq_iff (Nat.le_of_lt hlt) h]
    omega
  · obtain rfl := Nat.le_antisymm hle h
    simp

/-- The list `xs` in the cells from counter `f` on, nothing in the others. -/
def Holds (data : Nat → Option α) (size f : Nat) (xs : List α) : Prop :=
  ∀ i < size, data ((f + i) % size) = xs[i]?

namespace Holds

variable {data : Nat → Option α} {size f : Nat} {x : α} {xs : List α}

/-- A buffer of raw memory. -/
theorem raw (size f : Nat) : Holds (fun _ => (none : Option α)) size f [] := by
  intro i _
  simp

/-- The oldest element is in the cell of `f`. -/
theorem head (h : Holds data size f xs) (hsize : 0 < size) : data (f % size) = xs.head? := by
  rw [List.head?_eq_getElem?]
  exact h 0 hsize

/-- The cell behind the list is free. -/
theorem free (h : Holds data size f xs) (hlen : xs.length < size) :
    data ((f + xs.length) % size) = none := by
  rw [h _ hlen]
  exact List.getElem?_eq_none (Nat.le_refl _)

/-- Fill the cell behind the list. -/
theorem push (h : Holds data size f xs) (hlen : xs.length < size) (x : α) :
    Holds (Function.update data ((f + xs.length) % size) (some x)) size f (xs ++ [x]) := by
  intro i hi
  by_cases hx : i = xs.length
  · subst hx
    simp
  · have hne : (f + i) % size ≠ (f + xs.length) % size := by
      intro he
      have hmod : i ≡ xs.length [MOD size] := Nat.ModEq.add_left_cancel' f he
      exact hx (hmod.eq_of_lt_of_lt hi hlen)
    rw [Function.update_of_ne hne, h i hi, List.getElem?_append]
    split
    next => rfl
    next hge =>
      rw [List.getElem?_eq_none (by omega), List.getElem?_eq_none (by simp; omega)]

/-- Empty the cell of the head. -/
theorem pop (h : Holds data size f (x :: xs)) (hlen : xs.length < size) :
    Holds (Function.update data (f % size) none) size (f + 1) xs := by
  intro i hi
  have hshift : f + 1 + i = f + (i + 1) := by omega
  rw [hshift]
  by_cases hlast : i + 1 = size
  · rw [hlast, Nat.add_mod_right, Function.update_self, List.getElem?_eq_none (by omega)]
  · have hne : (f + (i + 1)) % size ≠ f % size := by
      intro he
      have := eq_of_mod_eq (Nat.le_add_right f (i + 1)) (by omega) he.symm
      omega
    rw [Function.update_of_ne hne, h (i + 1) (by omega), List.getElem?_cons_succ]

end Holds

/-! ## Circular linked lists -/

/-- Each node of the list is followed by its `next`, the last node by the first. -/
def Linked (next : α → α) (l : List α) : Prop :=
  Cycle.Chain (fun a b => next a = b) (l : Cycle α)

namespace Linked

variable {next next' : α → α} {a b t n : α} {l l₁ l₂ : List α}

/-- The same list, read from another node on. -/
theorem comm (h : Linked next (l₁ ++ l₂)) : Linked next (l₂ ++ l₁) := by
  have hrot : ((l₁ ++ l₂ : List α) : Cycle α) = ((l₂ ++ l₁ : List α) : Cycle α) :=
    Cycle.coe_eq_coe.mpr List.isRotated_append
  unfold Linked at h ⊢
  rwa [← hrot]

/-- The same list, read from its second node on. -/
theorem rotate (h : Linked next (a :: l)) : Linked next (l ++ [a]) := by
  have happ : Linked next ([a] ++ l) := h
  exact happ.comm

theorem next_head (h : Linked next (a :: b :: l)) : next a = b := by
  have hchain : List.IsChain (fun a b => next a = b) (a :: (b :: l ++ [a])) := h
  exact hchain.rel

theorem next_eq (h : Linked next (l₁ ++ a :: b :: l₂)) : next a = b := by
  have hchain : List.IsChain (fun a b => next a = b) (a :: (b :: l₂ ++ l₁ ++ [a])) := h.comm
  exact hchain.rel

/-- After the last node comes the first. -/
theorem next_last (h : Linked next (a :: l)) : next ((a :: l).getLast (by simp)) = a := by
  have hne : a :: l ≠ [] := by simp
  have hchain := (Cycle.chain_ne_nil (fun a b => next a = b) hne).mp h
  exact hchain.rel

/-- Only the `next` of the nodes matters. -/
theorem congr (h : Linked next l) (heq : ∀ x ∈ l, next' x = next x) : Linked next' l := by
  cases l with
  | nil => trivial
  | cons a l =>
    have hchain : List.IsChain (fun a b => next a = b) (a :: (l ++ [a])) := h
    refine hchain.imp_of_mem_imp fun x y hx _ hxy => ?_
    have hmem : x ∈ a :: l := by simpa [or_comm, or_left_comm] using hx
    show next' x = y
    rw [heq x hmem, hxy]

/-- `n` is inserted behind `t`: it takes over the next node of `t` and becomes its next. -/
theorem insert (h : Linked next (t :: l)) (ht : next' t = n) (hn : next' n = next t)
    (heq : ∀ x ∈ l, next' x = next x) : Linked next' (t :: n :: l) := by
  -- the part of the chain whose sources are in `l`
  have hrest : ∀ {m : List α}, (∀ x ∈ m, next' x = next x) →
      List.IsChain (fun a b => next a = b) (m ++ [t]) →
      List.IsChain (fun a b => next' a = b) (m ++ [t]) := by
    intro m
    induction m with
    | nil => exact fun _ _ => .singleton t
    | cons x m ih =>
      intro hm hchain
      have htail := ih (fun y hy => hm y (List.mem_cons_of_mem _ hy)) hchain.tail
      refine List.isChain_cons.mpr ⟨fun y hy => ?_, htail⟩
      rw [hm x List.mem_cons_self]
      exact hchain.rel_head? hy
  have hchain : List.IsChain (fun a b => next a = b) (t :: (l ++ [t])) := h
  show List.IsChain (fun a b => next' a = b) (t :: n :: (l ++ [t]))
  refine List.isChain_cons.mpr ⟨fun y hy => ?_, List.isChain_cons.mpr ⟨fun y hy => ?_, ?_⟩⟩
  · rw [ht]
    simpa using hy
  · rw [hn]
    exact hchain.rel_head? hy
  · exact hrest heq hchain.tail

end Linked

end Circular
