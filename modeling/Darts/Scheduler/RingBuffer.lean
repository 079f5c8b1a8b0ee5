import Mathlib.Data.Nat.Bitwise
import Mathlib.Logic.Function.Basic

/-!
# The ring buffer of a worker (`include/common/ringbuffer.h`)

`ringBuffer<T, num>` keeps two 32-bit counters that only ever grow, modulo
`2 ^ 32`, and finds a slot by masking a counter with `num - 1`. `num` has to be
a power of two for the mask to be a remainder, so the capacity is `2 ^ k` here;
`MSchedPolicy.h` uses `THRESHOLD = 4`, that is `k = 2`.

The structure carries what the two tests on the counters rest on: they are never
more than `num` apart. What the buffer is for is `contents`, the items between
the two counters in the order they came in: `push` appends to it and fails
exactly when it is full, `pull` takes its head and returns 0 exactly when it is
empty. `pull` returns `T` in the source and 0 stands for no item, so it is an
`Option` here.
-/

namespace Darts

/-- `ringBuffer<T, 2 ^ k>`. -/
structure RingBuffer (T : Type) (k : Nat) where
  produceCount : BitVec 32
  consumeCount : BitVec 32
  buffer_ : Fin (2 ^ k) → T
  /-- The producer is at most `num` items ahead. -/
  ahead : (produceCount - consumeCount).toNat ≤ 2 ^ k

namespace RingBuffer

variable {T : Type} {k : Nat}

/-- `num`. -/
def num (k : Nat) : Nat := 2 ^ k

/-- The constructor: both counters 0, the slots as the memory was. -/
def new (buffer_ : Fin (2 ^ k) → T) : RingBuffer T k :=
  { produceCount := 0, consumeCount := 0, buffer_, ahead := by simp }

/-- `count & (num - 1)`. -/
def slot (k : Nat) (count : BitVec 32) : Fin (2 ^ k) :=
  ⟨count.toNat &&& (num k - 1), by
    unfold num
    rw [Nat.and_two_pow_sub_one_eq_mod]
    exact Nat.mod_lt _ (Nat.two_pow_pos k)⟩

/-- How many items are in the buffer, `produceCount - consumeCount` as `unsigned int`. -/
def size (r : RingBuffer T k) : Nat := (r.produceCount - r.consumeCount).toNat

/-- The items in `size` slots from a counter on. -/
def items (buffer_ : Fin (2 ^ k) → T) (count : BitVec 32) (size : Nat) : List T :=
  (List.range size).map fun t => buffer_ (slot k (count + BitVec.ofNat 32 t))

/-- The items in the buffer, the oldest first. -/
def contents (r : RingBuffer T k) : List T := items r.buffer_ r.consumeCount r.size

@[simp] theorem length_items (buffer_ : Fin (2 ^ k) → T) (count : BitVec 32) (size : Nat) :
    (items buffer_ count size).length = size := by
  simp [items]

@[simp] theorem length_contents (r : RingBuffer T k) : r.contents.length = r.size :=
  length_items ..

@[simp] theorem contents_new (buffer_ : Fin (2 ^ k) → T) : (new buffer_).contents = [] := by
  simp [contents, items, size, new]

theorem size_le (r : RingBuffer T k) : r.size ≤ num k := r.ahead

/-- One more item fits when the buffer is not full. -/
private theorem ahead_push {r : RingBuffer T k} (h : r.size ≠ num k) :
    (r.produceCount + 1 - r.consumeCount).toNat ≤ 2 ^ k := by
  have := r.ahead
  unfold size num at h
  bv_omega

/-- One item fewer is there when the buffer is not empty. -/
private theorem ahead_pull {r : RingBuffer T k} (h : r.size ≠ 0) :
    (r.produceCount - (r.consumeCount + 1)).toNat ≤ 2 ^ k := by
  have := r.ahead
  unfold size at h
  bv_omega

/-- `ringBuffer::push`. -/
def push (r : RingBuffer T k) (toAdd : T) : Bool × RingBuffer T k :=
  if hfull : r.size = num k then
    (false, r)
  else
    (true, { r with
      buffer_ := Function.update r.buffer_ (slot k r.produceCount) toAdd
      produceCount := r.produceCount + 1
      ahead := ahead_push hfull })

/-- `ringBuffer::pull`. -/
def pull (r : RingBuffer T k) : Option T × RingBuffer T k :=
  if hempty : r.size = 0 then
    (none, r)
  else
    (some (r.buffer_ (slot k r.consumeCount)), { r with
      consumeCount := r.consumeCount + 1
      ahead := ahead_pull hempty })

/-! ## A full buffer, an empty buffer -/

/-- `push` fails on a full buffer, and then changes nothing. -/
theorem push_full {r : RingBuffer T k} (h : r.size = num k) (x : T) : r.push x = (false, r) :=
  dif_pos h

theorem push_room {r : RingBuffer T k} (h : r.size ≠ num k) (x : T) :
    r.push x = (true, { r with
      buffer_ := Function.update r.buffer_ (slot k r.produceCount) x
      produceCount := r.produceCount + 1
      ahead := ahead_push h }) :=
  dif_neg h

/-- `pull` returns 0 on an empty buffer, and then changes nothing. -/
theorem pull_empty {r : RingBuffer T k} (h : r.size = 0) : r.pull = (none, r) :=
  dif_pos h

theorem pull_some {r : RingBuffer T k} (h : r.size ≠ 0) :
    r.pull = (some (r.buffer_ (slot k r.consumeCount)), { r with
      consumeCount := r.consumeCount + 1
      ahead := ahead_pull h }) :=
  dif_neg h

/-! ## First in, first out -/

/-- Two counters less than `num` apart fall on different slots: `num` divides
`2 ^ 32`, so the mask does not notice the wrap-around. -/
theorem slot_ne (hk : k ≤ 32) {c : BitVec 32} {s t : Nat} (hst : s < t)
    (htk : t < s + 2 ^ k) :
    slot k (c + BitVec.ofNat 32 s) ≠ slot k (c + BitVec.ofNat 32 t) := by
  intro h
  have hv := congrArg Fin.val h
  have hdvd : 2 ^ k ∣ 2 ^ 32 := Nat.pow_dvd_pow 2 hk
  simp only [slot, num, Nat.and_two_pow_sub_one_eq_mod, BitVec.toNat_add, BitVec.toNat_ofNat,
    Nat.add_mod_mod, Nat.mod_mod_of_dvd _ hdvd] at hv
  -- the two positions differ by less than the modulus
  have hmod : (t - s) % 2 ^ k = 0 := by
    have hsub := Nat.sub_mod_eq_zero_of_mod_eq hv.symm
    rwa [Nat.add_sub_add_left] at hsub
  rw [Nat.mod_eq_of_lt (by omega)] at hmod
  omega

/-- The counter that is `size` ahead of another. -/
theorem add_size (p c : BitVec 32) : c + BitVec.ofNat 32 (p - c).toNat = p := by
  bv_omega

/-- The slot that the producer is to write is none of those in use. -/
theorem slot_free (hk : k ≤ 32) {p c : BitVec 32} (h : (p - c).toNat < 2 ^ k) {t : Nat}
    (ht : t < (p - c).toNat) : slot k (c + BitVec.ofNat 32 t) ≠ slot k p := by
  have hne := slot_ne (c := c) hk ht (by omega)
  rwa [add_size] at hne

/-- Writing it changes no item. -/
theorem items_update (hk : k ≤ 32) {buffer_ : Fin (2 ^ k) → T} {p c : BitVec 32}
    (h : (p - c).toNat < 2 ^ k) (x : T) :
    items (Function.update buffer_ (slot k p) x) c (p - c).toNat = items buffer_ c (p - c).toNat :=
  List.map_congr_left fun _ ht =>
    Function.update_of_ne (slot_free hk h (List.mem_range.mp ht)) _ _

/-- One more item at the end, when the producer counts. -/
theorem items_produce (buffer_ : Fin (2 ^ k) → T) {p c : BitVec 32} (hk : k ≤ 31)
    (h : (p - c).toNat < 2 ^ k) :
    (p + 1 - c).toNat = (p - c).toNat + 1 ∧
      items buffer_ c (p + 1 - c).toNat = items buffer_ c (p - c).toNat ++ [buffer_ (slot k p)] := by
  have hpow : 2 ^ k ≤ 2 ^ 31 := Nat.pow_le_pow_right (by omega) hk
  have hsize : (p + 1 - c).toNat = (p - c).toNat + 1 := by bv_omega
  refine ⟨hsize, ?_⟩
  unfold items
  rw [hsize, List.range_succ, List.map_append, List.map_singleton, add_size]

/-- One fewer at the front, when the consumer does. -/
theorem items_consume (buffer_ : Fin (2 ^ k) → T) {p c : BitVec 32} (h : (p - c).toNat ≠ 0) :
    (p - c).toNat = (p - (c + 1)).toNat + 1 ∧
      items buffer_ c (p - c).toNat =
        buffer_ (slot k c) :: items buffer_ (c + 1) (p - (c + 1)).toNat := by
  have hsize : (p - c).toNat = (p - (c + 1)).toNat + 1 := by bv_omega
  refine ⟨hsize, ?_⟩
  unfold items
  rw [hsize, List.range_succ_eq_map, List.map_cons, List.map_map]
  congr 1
  · simp
  · refine List.map_congr_left fun t _ => ?_
    show buffer_ (slot k _) = buffer_ (slot k _)
    congr 2
    bv_omega

/-- A push with room appends the item. -/
theorem push_contents (hk : k ≤ 31) {r : RingBuffer T k} (h : r.size ≠ num k) (x : T) :
    (r.push x).1 = true ∧ (r.push x).2.contents = r.contents ++ [x] := by
  have hlt : r.size < 2 ^ k := Nat.lt_of_le_of_ne r.size_le h
  rw [push_room h]
  refine ⟨rfl, ?_⟩
  show items (Function.update r.buffer_ (slot k r.produceCount) x) r.consumeCount
    (r.produceCount + 1 - r.consumeCount).toNat = items r.buffer_ r.consumeCount
    (r.produceCount - r.consumeCount).toNat ++ [x]
  rw [(items_produce _ hk hlt).2, items_update (by omega) hlt, Function.update_self]

/-- A pull from a buffer that is not empty takes the head. -/
theorem pull_contents {r : RingBuffer T k} (h : r.size ≠ 0) :
    ∃ x, r.pull.1 = some x ∧ r.contents = x :: r.pull.2.contents := by
  rw [pull_some h]
  exact ⟨_, rfl, (items_consume _ h).2⟩

/-- What a push leaves: the buffer as it was when it is full, else the item appended. -/
theorem push_spec (hk : k ≤ 31) (r : RingBuffer T k) (x : T) :
    (r.contents.length = num k ∧ r.push x = (false, r)) ∨
    (r.contents.length < num k ∧ (r.push x).1 = true ∧
      (r.push x).2.contents = r.contents ++ [x]) := by
  rw [length_contents]
  by_cases h : r.size = num k
  · exact .inl ⟨h, push_full h x⟩
  · exact .inr ⟨Nat.lt_of_le_of_ne r.size_le h, push_contents hk h x⟩

/-- What a pull leaves: the buffer as it was when it is empty, else its tail. -/
theorem pull_spec (r : RingBuffer T k) :
    (r.contents = [] ∧ r.pull = (none, r)) ∨
    (∃ x, r.pull.1 = some x ∧ r.contents = x :: r.pull.2.contents) := by
  by_cases h : r.size = 0
  · refine .inl ⟨?_, pull_empty h⟩
    rw [← List.length_eq_zero_iff, length_contents, h]
  · exact .inr (pull_contents h)

end RingBuffer

end Darts
