import Mathlib.Algebra.BigOperators.Group.Finset.Piecewise
import Mathlib.Algebra.Order.BigOperators.Group.Finset
import Mathlib.Data.Finset.Insert
import Mathlib.Data.Fintype.BigOperators

/-!
# Items in places

A finite family of places, each with a list of items in it. `Holds cell amount`
says how often each item occurs in all places together; it follows an item that
moves from a place to another (`Holds.move`), turns up (`Holds.add`) or leaves
(`Holds.remove`), whatever the order inside the lists.

`Exact cell born` is the case of amounts 0 and 1: every item of `born` is in
exactly one place and there exactly once, and nothing else is in any place. It is
what "nothing is lost and nothing is duplicated" means for a system that hands
items around.
-/

namespace Places

variable {P T : Type} [Fintype P] [DecidableEq T]

/-- Item `t` occurs `amount t` times in all places together. -/
def Holds (cell : P → List T) (amount : T → Nat) : Prop :=
  ∀ t, ∑ p, (cell p).count t = amount t

/-- Every item of `born` is in one place, once; no other item is anywhere. -/
def Exact (cell : P → List T) (born : Finset T) : Prop :=
  Holds cell fun t => if t ∈ born then 1 else 0

variable {cell cell' : P → List T} {amount : T → Nat} {born : Finset T} {t x : T}

/-! ## What an amount tells about the places -/

private theorem count_le_sum (cell : P → List T) (t : T) (p : P) :
    (cell p).count t ≤ ∑ q, (cell q).count t :=
  Finset.single_le_sum (f := fun q => (cell q).count t) (fun _ _ => Nat.zero_le _)
    (Finset.mem_univ p)

/-- An item that is in a place has a positive amount. -/
theorem Holds.pos (h : Holds cell amount) {p : P} (ht : t ∈ cell p) : 0 < amount t := by
  have hle := count_le_sum cell t p
  have hpos := List.count_pos_iff.mpr ht
  rw [h t] at hle
  omega

theorem Exact.empty (h : ∀ p, cell p = []) : Exact cell ∅ := by
  intro t
  simp [h]

/-- Only items of `born` are in the places. -/
theorem Exact.mem_born (h : Exact cell born) {p : P} (ht : t ∈ cell p) : t ∈ born := by
  have hpos := Holds.pos h ht
  by_contra hnot
  rw [if_neg hnot] at hpos
  omega

/-- No place holds an item twice. -/
theorem Exact.nodup (h : Exact cell born) (p : P) : (cell p).Nodup := by
  refine List.nodup_iff_count_le_one.mpr fun t => ?_
  have hle := count_le_sum cell t p
  have hone : (if t ∈ born then 1 else 0) ≤ 1 := by split <;> omega
  exact Nat.le_trans (hle.trans_eq (h t)) hone

variable [DecidableEq P]

/-- An item that is in two places has an amount of at least two. -/
theorem Holds.two_le (h : Holds cell amount) {p q : P} (hne : p ≠ q) (hp : t ∈ cell p)
    (hq : t ∈ cell q) : 2 ≤ amount t := by
  have hp' := List.count_pos_iff.mpr hp
  have hq' := List.count_pos_iff.mpr hq
  have hpair : ∑ r ∈ {p, q}, (cell r).count t ≤ ∑ r, (cell r).count t :=
    Finset.sum_le_sum_of_subset (Finset.subset_univ _)
  rw [Finset.sum_pair hne, h t] at hpair
  omega

/-- Every item of `born` is in exactly one place. -/
theorem Exact.existsUnique (h : Exact cell born) (ht : t ∈ born) : ∃! p, t ∈ cell p := by
  have hsum : ∑ p, (cell p).count t = 1 := (h t).trans (if_pos ht)
  obtain ⟨p, -, hp⟩ : ∃ p ∈ Finset.univ, (cell p).count t ≠ 0 :=
    Finset.exists_ne_zero_of_sum_ne_zero (by omega)
  refine ⟨p, List.count_pos_iff.mp (Nat.pos_of_ne_zero hp), fun q hq => ?_⟩
  by_contra hne
  have htwo := Holds.two_le h hne hq (List.count_pos_iff.mp (Nat.pos_of_ne_zero hp))
  rw [if_pos ht] at htwo
  omega

/-! ## What a step does to the amounts -/

omit [DecidableEq T] in
/-- The item at a position of a list, taken out. -/
theorem perm_eraseIdx {xs : List T} {pos : Nat} (h : xs[pos]? = some x) :
    xs.Perm (x :: xs.eraseIdx pos) := by
  obtain ⟨hlt, rfl⟩ := List.getElem?_eq_some_iff.mp h
  exact (List.getElem_cons_eraseIdx_perm hlt).symm

/-- One more item in one place. -/
private theorem sum_count_cons {q : P} (hq : (cell' q).Perm (x :: cell q))
    (hrest : ∀ r, r ≠ q → cell' r = cell r) (t : T) :
    ∑ r, (cell' r).count t = ∑ r, (cell r).count t + if x = t then 1 else 0 := by
  have hcount : ∀ r, (cell' r).count t =
      (cell r).count t + if r = q then (if x = t then 1 else 0) else 0 := by
    intro r
    by_cases hr : r = q
    · rw [hr, if_pos rfl, hq.count_eq, List.count_cons]
      simp
    · rw [hrest r hr, if_neg hr, Nat.add_zero]
  rw [Finset.sum_congr rfl fun r _ => hcount r, Finset.sum_add_distrib, Finset.sum_ite_eq',
    if_pos (Finset.mem_univ _)]

/-- An item turns up in `q`. -/
theorem Holds.add (h : Holds cell amount) {q : P} (hq : (cell' q).Perm (x :: cell q))
    (hrest : ∀ r, r ≠ q → cell' r = cell r) :
    Holds cell' fun t => amount t + if x = t then 1 else 0 := by
  intro t
  rw [sum_count_cons hq hrest, h t]

/-- An item leaves `p`. -/
theorem Holds.remove (h : Holds cell amount) {p : P} (hp : (cell p).Perm (x :: cell' p))
    (hrest : ∀ r, r ≠ p → cell r = cell' r) {amount' : T → Nat}
    (hamount : ∀ t, amount t = amount' t + if x = t then 1 else 0) : Holds cell' amount' := by
  intro t
  have hsum := sum_count_cons hp hrest t
  rw [h t, hamount t] at hsum
  exact (Nat.add_right_cancel hsum).symm

/-- An item moves from `p` to `q`. -/
theorem Holds.move (h : Holds cell amount) {p q : P} (hpq : p ≠ q)
    (hp : (cell p).Perm (x :: cell' p)) (hq : (cell' q).Perm (x :: cell q))
    (hrest : ∀ r, r ≠ p → r ≠ q → cell' r = cell r) : Holds cell' amount := by
  -- by way of the state in which the item is in both places
  have hboth : Holds (Function.update cell q (cell' q)) fun t => amount t + if x = t then 1 else 0 :=
    h.add (q := q) (by rw [Function.update_self]; exact hq)
      fun r hr => Function.update_of_ne hr _ _
  refine hboth.remove (p := p) ?_ (fun r hr => ?_) fun _ => rfl
  · rw [Function.update_of_ne hpq]
    exact hp
  · by_cases hrq : r = q
    · rw [hrq, Function.update_self]
    · rw [Function.update_of_ne hrq, hrest r hr hrq]

/-- A new item turns up in `q`. -/
theorem Exact.birth (h : Exact cell born) {q : P} (hx : x ∉ born)
    (hq : (cell' q).Perm (x :: cell q)) (hrest : ∀ r, r ≠ q → cell' r = cell r) :
    Exact cell' (insert x born) := by
  intro t
  rw [Holds.add h hq hrest t]
  by_cases hxt : x = t
  · subst hxt
    simp [hx]
  · have hmem : t ∈ insert x born ↔ t ∈ born := by
      rw [Finset.mem_insert]
      exact ⟨fun h => h.resolve_left (Ne.symm hxt), .inr⟩
    simp [hxt, hmem]

/-- An item moves from `p` to `q`. -/
theorem Exact.move (h : Exact cell born) {p q : P} (hpq : p ≠ q)
    (hp : (cell p).Perm (x :: cell' p)) (hq : (cell' q).Perm (x :: cell q))
    (hrest : ∀ r, r ≠ p → r ≠ q → cell' r = cell r) : Exact cell' born :=
  Holds.move h hpq hp hq hrest

/-! ## What a step gains and loses -/

/-- All places together hold in `cell'` what they hold in `cell`, with `gained` and without
`lost`. -/
def Change (cell cell' : P → List T) (gained lost : List T) : Prop :=
  ∀ t, ∑ p, (cell' p).count t + lost.count t = ∑ p, (cell p).count t + gained.count t

namespace Change

variable {gained lost : List T}

omit [DecidableEq P] in
theorem refl (cell : P → List T) : Change cell cell [] [] := fun _ => rfl

omit [DecidableEq P] in
theorem trans_eq {cell'' : P → List T} (h : Change cell cell' gained lost) (heq : cell' = cell'') :
    Change cell cell'' gained lost := heq ▸ h

omit [DecidableEq P] in
theorem of_eq (h : cell' = cell) : Change cell cell' [] [] := h ▸ refl cell

/-- Only one place is touched. -/
theorem of_place {q : P} (hq : (lost ++ cell' q).Perm (gained ++ cell q))
    (hrest : ∀ r, r ≠ q → cell' r = cell r) : Change cell cell' gained lost := by
  intro t
  have hcount := hq.count_eq t
  rw [List.count_append, List.count_append] at hcount
  rw [← Finset.add_sum_erase _ (fun p => (cell' p).count t) (Finset.mem_univ q),
    ← Finset.add_sum_erase _ (fun p => (cell p).count t) (Finset.mem_univ q),
    Finset.sum_congr rfl fun p hp => by rw [hrest p (Finset.ne_of_mem_erase hp)]]
  omega

/-- An item moves from `p` to `q`. -/
theorem move {p q : P} (hpq : p ≠ q) (hp : (cell p).Perm (x :: cell' p))
    (hq : (cell' q).Perm (x :: cell q)) (hrest : ∀ r, r ≠ p → r ≠ q → cell' r = cell r) :
    Change cell cell' [] [] := by
  have h : Holds cell fun t => ∑ r, (cell r).count t := fun _ => rfl
  exact fun t => h.move hpq hp hq hrest t

/-- `of_place`, for a place that is overwritten. -/
theorem update {q : P} {ys : List T} (hq : (lost ++ ys).Perm (gained ++ cell q)) :
    Change cell (Function.update cell q ys) gained lost := by
  refine of_place (q := q) ?_ fun r hr => Function.update_of_ne hr _ _
  rw [Function.update_self]
  exact hq

/-- `move`, for two places that are overwritten. -/
theorem update_move {p q : P} {xs ys : List T} (hpq : p ≠ q) (hp : (cell p).Perm (x :: xs))
    (hq : ys.Perm (x :: cell q)) :
    Change cell (Function.update (Function.update cell p xs) q ys) [] [] := by
  refine move (x := x) hpq ?_ ?_ fun r hp hq => ?_
  · rw [Function.update_of_ne hpq, Function.update_self]
    exact hp
  · rw [Function.update_self]
    exact hq
  · rw [Function.update_of_ne hq, Function.update_of_ne hp]

omit [DecidableEq P] in
/-- What is gained and lost at once has only passed through. -/
theorem cancel {xs : List T} (h : Change cell cell' (xs ++ gained) (xs ++ lost)) :
    Change cell cell' gained lost := by
  intro t
  have ht := h t
  rw [List.count_append, List.count_append] at ht
  omega

omit [DecidableEq P] in
/-- Two families of places side by side. -/
theorem elim {Q : Type} [Fintype Q] {other other' : Q → List T} {gained' lost' : List T}
    (h : Change cell cell' gained lost) (h' : Change other other' gained' lost') :
    Change (Sum.elim cell other) (Sum.elim cell' other') (gained ++ gained') (lost ++ lost') := by
  intro t
  have hl := h t
  have hr := h' t
  rw [Fintype.sum_sum_type, Fintype.sum_sum_type, List.count_append, List.count_append]
  simp only [Sum.elim_inl, Sum.elim_inr]
  omega

end Change

omit [DecidableEq P] in
/-- The amounts follow. -/
theorem Holds.change {gained lost : List T} (h : Holds cell amount)
    (hc : Change cell cell' gained lost) {amount' : T → Nat}
    (hamount : ∀ t, amount' t + lost.count t = amount t + gained.count t) :
    Holds cell' amount' := by
  intro t
  have ht := hc t
  rw [h t, ← hamount t] at ht
  exact Nat.add_right_cancel ht

end Places
