import Darts.Queue.Spsc

/-!
# The loops over all blocks

`size_approx`, `max_capacity` and the destructor go round the circle of blocks
once, from `frontBlock` on. `size_approx` is exact while the producer is not in
a call. The destructor is only called when both threads are done; it destroys
every element that is left, in order, and frees every block there ever was.
-/

namespace Darts.Queue

open Circular Transition

variable {T : Type}

/-- `do { result += f(block); block = block->next; } while (block != frontBlock_);` -/
def Rwq.sumBlocks (q : Rwq T) (f : Block T → Nat) (frontBlock_ : Nat) : Nat → Nat → Option Nat
  | 0, _ => none
  | fuel + 1, block =>
    let nextBlock := (q.blocks block).next
    if nextBlock = frontBlock_ then some (f (q.blocks block))
    else (q.sumBlocks f frontBlock_ fuel nextBlock).map (f (q.blocks block) + ·)

/-- `(blockTail - blockFront) & block->sizeMask`, on `size_t`. -/
def Block.count (B : Block T) : Nat :=
  ((BitVec.ofNat 64 B.tail - BitVec.ofNat 64 B.front) &&& BitVec.ofNat 64 B.sizeMask).toNat

/-- `size_approx()`. There are fewer than `brk` blocks. -/
def Rwq.size_approx (q : Rwq T) : Option Nat :=
  q.sumBlocks Block.count q.frontBlock q.brk q.frontBlock

/-- `max_capacity()`. -/
def Rwq.max_capacity (q : Rwq T) : Option Nat :=
  q.sumBlocks Block.sizeMask q.frontBlock q.brk q.frontBlock

/-- `for (i = blockFront; i != blockTail; i = (i + 1) & sizeMask) element->~T();`, with the
elements destroyed. `none` where raw memory would be destroyed, or after `fuel` turns. -/
def Block.destroyElements : Nat → Nat → Block T → Option (Block T × List T)
  | 0, _, _ => none
  | fuel + 1, i, B =>
    if i = B.tail then some (B, [])
    else (B.data i).bind fun v =>
      (destroyElements fuel ((i + 1) &&& B.sizeMask)
        { B with data := Function.update B.data i none }).map fun r => (r.1, v :: r.2)

/-- The loop of `~ReaderWriterQueue()`: the elements destroyed and the blocks freed. -/
def Rwq.destroyBlocks (q : Rwq T) (frontBlock_ : Nat) : Nat → Nat → Option (List T × List Nat)
  | 0, _ => none
  | fuel + 1, block =>
    let nextBlock := (q.blocks block).next
    ((q.blocks block).destroyElements (q.blocks block).size (q.blocks block).front).bind fun r =>
      if nextBlock = frontBlock_ then some (r.2, [block])
      else (q.destroyBlocks frontBlock_ fuel nextBlock).map fun rest =>
        (r.2 ++ rest.1, block :: rest.2)

/-- `~ReaderWriterQueue()`. -/
def Rwq.destruct (q : Rwq T) : Option (List T × List Nat) :=
  q.destroyBlocks q.frontBlock q.brk q.frontBlock

/-! ## One block -/

namespace Block

variable {B : Block T} {m : Marks} {content : List T}

/-- The difference of the indices, masked, is the number of elements. -/
theorem Inv.count_eq (h : B.Inv m content) : B.count = content.length := by
  obtain ⟨k, hk, hsize⟩ := h.pow
  have hpow : 2 ^ (k + 1) ≤ 2 ^ 63 := Nat.pow_le_pow_right (by decide) (by omega)
  have hpos := Nat.two_pow_pos (k + 1)
  have hmask : B.sizeMask = 2 ^ (k + 1) - 1 := by rw [← hsize]; rfl
  have hlen := h.length; have hroom := h.room; have hlf := h.lf_le
  have hfront := Nat.mod_lt m.f (hsize ▸ hpos : 0 < B.size)
  have htail := Nat.mod_lt m.t (hsize ▸ hpos : 0 < B.size)
  have hdvd : 2 ^ (k + 1) ∣ 2 ^ 64 := Nat.pow_dvd_pow 2 (by omega)
  have hcode : B.count = (2 ^ 64 - m.f % B.size + m.t % B.size) % B.size := by
    rw [count, BitVec.toNat_and, BitVec.toNat_sub, BitVec.toNat_ofNat, BitVec.toNat_ofNat,
      BitVec.toNat_ofNat, h.front, h.tail, hmask, Nat.mod_eq_of_lt (a := m.f % B.size) (by omega),
      Nat.mod_eq_of_lt (a := m.t % B.size) (by omega),
      Nat.mod_eq_of_lt (a := 2 ^ (k + 1) - 1) (by omega), Nat.and_two_pow_sub_one_eq_mod, hsize,
      Nat.mod_mod_of_dvd _ hdvd]
  have hmod : 2 ^ 64 - m.f % B.size + m.t % B.size ≡ content.length [MOD B.size] := by
    refine Nat.ModEq.add_right_cancel' (m.f % B.size) ?_
    calc 2 ^ 64 - m.f % B.size + m.t % B.size + m.f % B.size = 2 ^ 64 + m.t % B.size := by omega
      _ ≡ 0 + m.t [MOD B.size] :=
        ((Nat.modEq_zero_iff_dvd).mpr (hsize ▸ hdvd)).add (Nat.mod_modEq _ _)
      _ = content.length + m.f := by omega
      _ ≡ content.length + m.f % B.size [MOD B.size] := ((Nat.mod_modEq _ _).symm).add_left _
  rw [hcode, hmod, Nat.mod_eq_of_lt (by omega)]

/-- The destructor's loop over a block destroys what is in it, in order, and leaves raw memory. -/
theorem destroyElements_eq {n f : Nat} {xs : List T} (hmask : ∀ x, x &&& B.sizeMask = x % B.size)
    (hdata : Holds B.data B.size f xs) (htail : B.tail = (f + xs.length) % B.size)
    (hlen : xs.length < B.size) (hfuel : xs.length < n) :
    ∃ B', B.destroyElements n (f % B.size) = some (B', xs) ∧
      Holds B'.data B.size (f + xs.length) [] := by
  induction xs generalizing n f B with
  | nil =>
    obtain ⟨k, rfl⟩ := Nat.exists_eq_add_of_lt hfuel
    exact ⟨B, by rw [destroyElements, if_pos (by simpa using htail.symm)], hdata⟩
  | cons x xs ih =>
    rw [List.length_cons] at htail hlen hfuel
    obtain ⟨k, rfl⟩ : ∃ k, n = k + 1 := ⟨n - 1, by omega⟩
    have hne : f % B.size ≠ B.tail := by
      rw [htail]
      intro he
      have := eq_of_mod_eq (Nat.le_add_right f _) (by omega) he
      omega
    have hhead : B.data (f % B.size) = some x := hdata.head (by omega)
    have hnext : (f % B.size + 1) &&& B.sizeMask = (f + 1) % B.size := by
      rw [hmask, Nat.mod_add_mod]
    obtain ⟨B', hB', hraw⟩ := ih (B := { B with data := Function.update B.data (f % B.size) none })
      (n := k) hmask (hdata.pop (by omega)) (by
        show B.tail = (f + 1 + xs.length) % B.size
        rw [htail, Nat.add_assoc, Nat.add_comm 1])
      (by show xs.length < B.size; omega) (by omega)
    refine ⟨B', ?_, by rwa [List.length_cons, Nat.add_comm xs.length, ← Nat.add_assoc]⟩
    rw [destroyElements, if_neg hne, hhead, Option.bind_some, hnext]
    exact congrArg (Option.map _) hB'

end Block

/-! ## Round the circle -/

variable {q : Rwq T}

/-- The loop of `size_approx` and `max_capacity`, from any block to the end of the circle. -/
theorem Rwq.sumBlocks_eq {f : Block T → Nat} {a b fuel : Nat} {l : List Nat}
    (h : (b :: (l ++ [a])).IsChain fun x y => (q.blocks x).next = y) (ha : a ∉ l)
    (hfuel : l.length < fuel) :
    q.sumBlocks f a fuel b = some ((b :: l).map fun x => f (q.blocks x)).sum := by
  induction l generalizing b fuel with
  | nil =>
    obtain ⟨n, rfl⟩ := Nat.exists_eq_add_of_lt hfuel
    have hnext : (q.blocks b).next = a := h.rel
    simp [sumBlocks, hnext]
  | cons c l ih =>
    obtain ⟨n, rfl⟩ : ∃ n, fuel = n + 1 := ⟨fuel - 1, by rw [List.length_cons] at hfuel; omega⟩
    have hnext : (q.blocks b).next = c := h.rel
    have hca : c ≠ a := fun he => ha (he ▸ List.mem_cons_self)
    rw [sumBlocks, hnext, if_neg hca, ih h.tail (fun hm => ha (List.mem_cons_of_mem _ hm))
      (by rw [List.length_cons] at hfuel; omega)]
    rfl

/-- The loop of the destructor, from any block to the end of the circle. -/
theorem Rwq.destroyBlocks_eq (content : Nat → List T) {a b fuel : Nat} {l : List Nat}
    (h : (b :: (l ++ [a])).IsChain fun x y => (q.blocks x).next = y) (ha : a ∉ l)
    (hfuel : l.length < fuel)
    (hblock : ∀ x ∈ b :: l, ∃ B', (q.blocks x).destroyElements (q.blocks x).size
      (q.blocks x).front = some (B', content x)) :
    q.destroyBlocks a fuel b = some ((b :: l).flatMap content, b :: l) := by
  induction l generalizing b fuel with
  | nil =>
    obtain ⟨n, rfl⟩ := Nat.exists_eq_add_of_lt hfuel
    have hnext : (q.blocks b).next = a := h.rel
    obtain ⟨B', hB'⟩ := hblock b List.mem_cons_self
    simp [destroyBlocks, hnext, hB']
  | cons c l ih =>
    obtain ⟨n, rfl⟩ : ∃ n, fuel = n + 1 := ⟨fuel - 1, by rw [List.length_cons] at hfuel; omega⟩
    have hnext : (q.blocks b).next = c := h.rel
    have hca : c ≠ a := fun he => ha (he ▸ List.mem_cons_self)
    obtain ⟨B', hB'⟩ := hblock b List.mem_cons_self
    rw [destroyBlocks, hB', Option.bind_some, hnext, if_neg hca,
      ih h.tail (fun hm => ha (List.mem_cons_of_mem _ hm))
      (by rw [List.length_cons] at hfuel; omega) fun x hx => hblock x (List.mem_cons_of_mem _ hx)]
    rfl

variable {cap least : Nat} {th : Threads T} {g : Ghost T}

/-- The circle as the loops see it: from the front block round to the front block. -/
theorem Rel.exists_circle (h : Rel cap least q th g) : ∃ l, g.ring = q.frontBlock :: l ∧
    (q.frontBlock :: (l ++ [q.frontBlock])).IsChain (fun x y => (q.blocks x).next = y) ∧
    q.frontBlock ∉ l ∧ l.length < q.brk := by
  obtain ⟨l, hl⟩ := h.used_cons
  have hring : g.ring = q.frontBlock :: (l ++ g.free) := by rw [Ghost.ring, hl]; rfl
  have hnd := h.nodup
  have hlinked := h.linked
  rw [hring] at hnd hlinked
  have hlen : g.ring.length ≤ q.brk := by
    have := (List.subperm_of_subset h.nodup fun x hx => List.mem_range.mpr (h.below x hx)).length_le
    rwa [List.length_range] at this
  rw [hring, List.length_cons] at hlen
  exact ⟨_, hring, hlinked, (List.nodup_cons.mp hnd).1, hlen⟩

/-- Between two calls of the producer the free blocks are empty. -/
theorem Rel.free_nil (h : Rel cap least q th g) (hidle : th.enq.busy = false) {b : Nat}
    (hb : b ∈ g.free) : g.content b = [] := by
  by_contra hne
  rw [h.free_empty b hb hne] at hidle
  exact absurd hidle (by simp [Enqueue.busy])

/-- All blocks together hold the queue. -/
theorem Rel.flatMap_ring (h : Rel cap least q th g) (hidle : th.enq.busy = false) :
    g.ring.flatMap g.content = g.items := by
  rw [Ghost.ring, List.flatMap_append,
    List.flatMap_eq_nil_iff.mpr fun b hb => h.free_nil hidle hb, List.append_nil]
  rfl

theorem Rel.size_approx_eq (h : Rel cap least q th g) (hidle : th.enq.busy = false) :
    q.size_approx = some g.items.length := by
  obtain ⟨l, hring, hchain, hfront, hlen⟩ := h.exists_circle
  rw [Rwq.size_approx, Rwq.sumBlocks_eq hchain hfront hlen, ← hring, ← h.flatMap_ring hidle,
    List.length_flatMap]
  exact congrArg (fun xs => some (List.sum xs))
    (List.map_congr_left fun x hx => (h.inv x hx).count_eq)

theorem Rel.max_capacity_eq (h : Rel cap least q th g) :
    ∃ n, q.max_capacity = some n ∧ cap ≤ n := by
  obtain ⟨l, hring, hchain, hfront, hlen⟩ := h.exists_circle
  refine ⟨_, Rwq.sumBlocks_eq hchain hfront hlen, h.capacity.trans ?_⟩
  rw [← hring]
  have hsum : g.ring.length * least ≤ (g.ring.map fun x => (q.blocks x).sizeMask).sum := by
    simpa using List.card_nsmul_le_sum (g.ring.map fun x => (q.blocks x).sizeMask) least
      fun x hx => by
        obtain ⟨b, hb, rfl⟩ := List.mem_map.mp hx
        exact h.least_le b hb
  refine le_trans (Nat.mul_le_mul_right _ ?_) hsum
  rw [hring, List.length_cons]
  omega

theorem Rel.destruct_eq (h : Rel cap least q th g) (henq : th.enq.busy = false)
    (hdeq : th.deq.busy = false) : q.destruct = some (g.items, g.ring) := by
  obtain ⟨l, hring, hchain, hfront, hlen⟩ := h.exists_circle
  rw [Rwq.destruct, Rwq.destroyBlocks_eq g.content hchain hfront hlen, ← hring,
    h.flatMap_ring henq]
  intro x hx
  rw [← hring] at hx
  have hinv := h.inv x hx
  obtain ⟨live, hlive, hdata⟩ := h.cells x hx
  rw [Dequeue.taken_of_idle hdeq, Enqueue.staged_of_idle henq, List.append_nil] at hlive
  obtain rfl : live = g.content x := hlive
  rw [Dequeue.taken_of_idle hdeq] at hdata
  have := hinv.length; have := hinv.room; have := hinv.lf_le
  obtain ⟨B', hB', -⟩ := Block.destroyElements_eq hinv.and_mask hdata
    (by rw [hinv.tail, List.length_nil, Nat.add_zero, hinv.length]) (by omega)
    (n := (q.blocks x).size) (by omega)
  rw [hinv.front]
  exact ⟨B', hB'⟩

namespace Spsc

variable {MAX size : Nat} {s : Spsc T} {malloc : Nat → Bool}

/-- **The loops over the blocks.** Between two calls of the producer `size_approx` is the
number of elements in the queue, and the capacity is at least the size asked for. When
both threads are done, the destructor destroys what is left in the queue, in order, and
frees every block that was ever allocated exactly once. -/
theorem loops_at_rest {q : Rwq T} (hs : Sizes MAX size)
    (hq : construct T MAX size malloc = some q) (h : Reachable (step MAX) (start q) s)
    (henq : s.th.enq.busy = false) : ∃ a, Fifo.History size s.log a ∧
      s.q.size_approx = some a.items.length ∧
      (∃ n, s.q.max_capacity = some n ∧ size ≤ n) ∧
      (s.th.deq.busy = false → ∃ freed, s.q.destruct = some (a.items, freed) ∧ freed.Nodup ∧
        ∀ b, b ∈ freed ↔ 0 < b ∧ b < s.q.brk) := by
  obtain ⟨least, g, a, hrel, hhist, htied⟩ := inv_reachable hs hq h
  refine ⟨a, hhist, ?_, hrel.max_capacity_eq, fun hdeq => ⟨g.ring, ?_, hrel.nodup, fun b => ?_⟩⟩
  · rw [hrel.size_approx_eq henq, htied.items]
  · rw [hrel.destruct_eq henq hdeq, htied.items]
  · exact ⟨fun hb => ⟨hrel.pos b hb, hrel.below b hb⟩, fun hb =>
      hrel.mem_ring_of_idle henq hb.1 hb.2⟩

/-- Two elements in a queue made for one, which links in a second block, and then a `pop`. -/
def popAfterGrow : Option (Spsc Nat) :=
  (construct Nat 2 1 fun _ => true).bind fun q => run (step 2) (start q)
    [.enqueue 7 .CanAlloc, .producer true, .producer true, .producer true, .enqueue 8 .CanAlloc,
      .producer true, .producer true, .producer true, .producer true, .producer true,
      .producer true, .consume .pop, .consumer, .consumer, .consumer, .consumer]

theorem loops_at_rest_one : ∃ s, popAfterGrow = some s ∧ Fifo.received s.log = [7] ∧
    ∃ a, Fifo.History 1 s.log a ∧ s.q.size_approx = some a.items.length ∧
      (∃ n, s.q.max_capacity = some n ∧ 1 ≤ n) ∧
      ∃ freed, s.q.destruct = some (a.items, freed) ∧ freed.Nodup ∧
        ∀ b, b ∈ freed ↔ 0 < b ∧ b < 3 := by
  have hmap : popAfterGrow.map (fun s => (Fifo.received s.log, s.th.enq.busy, s.th.deq.busy,
      s.q.brk)) = some ([7], false, false, 3) := rfl
  obtain ⟨s, hs, heq⟩ := Option.map_eq_some_iff.mp hmap
  simp only [Prod.mk.injEq] at heq
  obtain ⟨hreceived, henq, hdeq, hbrk⟩ := heq
  obtain ⟨q, hq, hrun⟩ := Option.bind_eq_some_iff.mp hs
  obtain ⟨a, hhist, hsize, hcapacity, hdestruct⟩ :=
    loops_at_rest ⟨by decide, by decide, 0, by decide, by decide⟩ hq (.of_run hrun) henq
  exact ⟨s, hs, hreceived, a, hhist, hsize, hcapacity, hbrk ▸ hdestruct hdeq⟩

end Spsc

end Darts.Queue
