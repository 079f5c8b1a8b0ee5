import Mathlib.Algebra.BigOperators.Intervals
import Mathlib.Algebra.BigOperators.Ring.List
import Mathlib.Data.List.Infix
import Darts.Queue.Spsc

/-!
# How much memory the lock-free queue takes

A block is not given back before the destructor, and each new one may have twice the cells
of the one before. But one is made only after the producer has found all blocks in use and
all but the front one full. So a block other than the tail one has no more usable cells
than the queue held elements at some time, or had room for from the start, and
`Spsc.memory_bounded` bounds all cells of all blocks by a multiple of that.
-/

namespace Darts.Queue

open Transition

variable {T : Type}

/-! ## The load -/

namespace Fifo

variable {size : Nat} {log : List (Event T)} {a : Fifo T}

/-- How many elements are in the queue. -/
def length (log : List (Event T)) : Nat := (sent log).length - (received log).length

/-- The most elements that have ever been in it. -/
def peak (log : List (Event T)) : Nat := (log.inits.map length).max?.getD 0

theorem length_le_peak {log log' : List (Event T)} (h : log' <+: log) : length log' ≤ peak log :=
  List.le_max?_getD_of_mem (List.mem_map_of_mem ((List.mem_inits _ _).mpr h))

theorem exists_peak (log : List (Event T)) : ∃ log', log' <+: log ∧ peak log = length log' := by
  have hne : log.inits.map length ≠ [] := List.ne_nil_of_mem
    (List.mem_map_of_mem ((List.mem_inits _ _).mpr (List.prefix_refl log)))
  obtain ⟨p, hp⟩ := Option.ne_none_iff_exists'.mp (mt List.max?_eq_none_iff.mp hne)
  obtain ⟨log', hmem, hlen⟩ := List.mem_map.mp (List.max?_mem hp)
  refine ⟨log', (List.mem_inits _ _).mp hmem, ?_⟩
  rw [peak, hp, hlen]
  rfl

theorem peak_le_append (log events : List (Event T)) : peak log ≤ peak (log ++ events) := by
  obtain ⟨log', hpre, heq⟩ := exists_peak log
  rw [heq]
  exact length_le_peak (hpre.trans (List.prefix_append _ _))

theorem History.items_le_peak (h : History size log a) : a.items.length ≤ peak log := by
  have hlen := congrArg List.length h.fifo
  rw [List.length_append] at hlen
  refine le_trans ?_ (length_le_peak (List.prefix_refl log))
  unfold length
  omega

theorem History.held_le_peak (h : History size log a) : a.held ≤ peak log := by
  induction h with
  | start => exact Nat.zero_le _
  | next h hstep ih =>
    cases hstep with
    | enqueue element canAlloc hidle => exact h.items_le_peak.trans (peak_le_append _ _)
    | _ => exact ih.trans (peak_le_append _ _)

end Fifo

/-! ## The blocks -/

/-- The cells of all blocks. -/
def Rwq.cells (q : Rwq T) : Nat := ∑ b ∈ Finset.Ico 1 q.brk, (q.blocks b).size

/-- No block is made, and the tail block stays the same. -/
structure SameBlocks (q q' : Rwq T) : Prop where
  brk : q'.brk = q.brk
  tailBlock : q'.tailBlock = q.tailBlock
  largest : q'.largestBlockSize = q.largestBlockSize
  sizeMask : ∀ b, (q'.blocks b).sizeMask = (q.blocks b).sizeMask

namespace SameBlocks

variable {q q' q'' : Rwq T}

theorem refl (q : Rwq T) : SameBlocks q q := ⟨rfl, rfl, rfl, fun _ => rfl⟩

theorem trans (h : SameBlocks q q') (h' : SameBlocks q' q'') : SameBlocks q q'' :=
  ⟨h'.brk.trans h.brk, h'.tailBlock.trans h.tailBlock, h'.largest.trans h.largest,
    fun b => (h'.sizeMask b).trans (h.sizeMask b)⟩

theorem assert (q : Rwq T) (p : Bool) : SameBlocks q (q.assert p) :=
  ⟨rfl, rfl, rfl, fun _ => rfl⟩

theorem setBlock (q : Rwq T) (b : Nat) {f : Block T → Block T}
    (hf : (f (q.blocks b)).sizeMask = (q.blocks b).sizeMask) : SameBlocks q (q.setBlock b f) := by
  refine ⟨rfl, rfl, rfl, fun x => ?_⟩
  rw [Rwq.setBlock_blocks]
  split
  next hx => rw [hx, hf]
  next => rfl

theorem construct (q : Rwq T) (b i : Nat) (v : T) : SameBlocks q (q.construct b i v) :=
  (assert q _).trans (setBlock _ b rfl)

theorem destroy (q : Rwq T) (b i : Nat) : SameBlocks q (q.destroy b i) :=
  (assert q _).trans (setBlock _ b rfl)

theorem size (h : SameBlocks q q') (b : Nat) : (q'.blocks b).size = (q.blocks b).size :=
  congrArg (· + 1) (h.sizeMask b)

theorem cells (h : SameBlocks q q') : q'.cells = q.cells := by
  unfold Rwq.cells
  rw [h.brk]
  exact Finset.sum_congr rfl fun b _ => h.size b

end SameBlocks

/-- The consumer makes no block. -/
theorem Rwq.dequeue_sameBlocks {op : ConsumerOp} {q q' : Rwq T} {pd pd' : Dequeue T}
    (h : q.dequeue op pd = some (q', pd')) : SameBlocks q q' := by
  cases pd with
  | removed result => exact absurd h (by simp [dequeue])
  | peeked element => exact absurd h (by simp [dequeue])
  | check | loadTailBlock | loadNext =>
    simp only [dequeue, Option.some.injEq, Prod.mk.injEq] at h
    obtain ⟨rfl, -⟩ := h
    exact .refl q
  | loadTail | reload | release =>
    simp only [dequeue, Option.some.injEq, Prod.mk.injEq] at h
    obtain ⟨rfl, -⟩ := h
    exact .setBlock q _ rfl
  | moveFront =>
    simp only [dequeue, Option.some.injEq, Prod.mk.injEq] at h
    obtain ⟨rfl, -⟩ := h
    exact ⟨rfl, rfl, rfl, fun _ => rfl⟩
  | nextTail n =>
    cases op with
    | peek =>
      simp only [dequeue, Option.some.injEq, Prod.mk.injEq] at h
      obtain ⟨rfl, -⟩ := h
      exact .assert q _
    | try_dequeue | pop =>
      simp only [dequeue, Option.some.injEq, Prod.mk.injEq] at h
      obtain ⟨rfl, -⟩ := h
      exact (SameBlocks.assert q _).trans (.setBlock _ _ rfl)
  | take b i =>
    simp only [dequeue] at h
    split at h
    next =>
      obtain ⟨rfl, -⟩ := Prod.mk.inj (Option.some.inj h)
      exact .destroy q b i
    next =>
      obtain ⟨rfl, -⟩ := Prod.mk.inj (Option.some.inj h)
      exact ⟨rfl, rfl, rfl, fun _ => rfl⟩

/-- With every block used and the tail block full, what is held fills all but the front block. -/
theorem Rel.cells_le {cap least : Nat} {q : Rwq T} {th : Threads T} {g : Ghost T}
    (h : Rel cap least q th g) (hfull : Threads.TailFull q g) (hfree : g.free = [])
    (hlink : th.enq.unlinked = none) :
    q.cells ≤ (q.blocks q.frontBlock).size + 2 * g.items.length := by
  have hring : g.ring = g.used := by rw [Ghost.ring, hfree, List.append_nil]
  have hused : Finset.Ico 1 q.brk = g.used.toFinset := Finset.ext fun b => by
    rw [Finset.mem_Ico, List.mem_toFinset, ← hring]
    refine ⟨fun hb => (h.owned b hb.1 hb.2).resolve_right ?_, fun hb => ⟨h.pos b hb, h.below b hb⟩⟩
    rw [hlink]
    simp
  obtain ⟨l, hl⟩ := h.used_cons
  have hrest : (l.map fun b => (q.blocks b).size).sum ≤
      (l.map fun b => 2 * (g.content b).length).sum := by
    refine List.sum_le_sum fun b hb => ?_
    have hmem : b ∈ g.ring := by rw [hring, hl]; exact List.mem_cons_of_mem _ hb
    rw [h.length_content hfull (by rw [hl]; exact hb)]
    -- a block has two cells or more
    have hpos := (h.inv b hmem).size_pos
    unfold Block.size at hpos ⊢
    omega
  rw [List.sum_map_mul_left] at hrest
  have hlen := g.length_items _ hl
  unfold Rwq.cells
  rw [hused, List.sum_toFinset _ h.nodup_used, hl, List.map_cons, List.sum_cons]
  omega

/-! ## Small blocks -/

/-- The block that is about to become the tail block. -/
def Enqueue.coming : Enqueue → Option Nat
  | .link _ newBlock | .advance newBlock => some newBlock
  | _ => none

/-- The producer has found the tail block full. -/
def Enqueue.foundFull : Enqueue → Bool
  | .full _ | .nextFront _ | .writeNext .. | .storeNext .. | .grow _ | .link .. | .advance _ => true
  | _ => false

/-- A step of the producer in which no block is made and the tail block stays: what it finds
out about the tail block, and when it goes on to ask for memory. -/
structure Stays (q q' : Rwq T) (pe pe' : Enqueue) : Prop where
  same : SameBlocks q q'
  coming : ∀ b, pe.coming = some b → pe'.coming = some b
  full : pe'.foundFull → pe.foundFull ∨ ∃ b, pe' = .full b
  grow : ∀ b, pe' = .grow b → pe = .full b ∧ (q.blocks b).next = q.frontBlock

/-- The producer makes a block in `grow` only, and moves on to another in `advance` only. -/
theorem Rwq.inner_enqueue_stays {MAX : Nat} {ca : AllocationMode} {v : T} {malloc : Bool}
    {q q' : Rwq T} {pe pe' : Enqueue} (h : q.inner_enqueue MAX ca v malloc pe = some (q', pe'))
    (hgrow : ∀ b, pe ≠ .grow b) (hadvance : ∀ n, pe ≠ .advance n) : Stays q q' pe pe' := by
  cases pe with
  | grow b => exact absurd rfl (hgrow b)
  | advance n => exact absurd rfl (hadvance n)
  | returned ok => exact absurd h (by simp [inner_enqueue])
  | check =>
    simp only [inner_enqueue, Option.some.injEq, Prod.mk.injEq] at h
    obtain ⟨rfl, rfl⟩ := h
    split <;> exact ⟨.refl q, by simp [Enqueue.coming], by simp [Enqueue.foundFull], by simp⟩
  | loadFront =>
    simp only [inner_enqueue, Option.some.injEq, Prod.mk.injEq] at h
    obtain ⟨rfl, rfl⟩ := h
    split <;> exact ⟨.setBlock q _ rfl, by simp [Enqueue.coming], by simp [Enqueue.foundFull], by simp⟩
  | write =>
    simp only [inner_enqueue, Option.some.injEq, Prod.mk.injEq] at h
    obtain ⟨rfl, rfl⟩ := h
    exact ⟨.construct q _ _ _, by simp [Enqueue.coming], by simp [Enqueue.foundFull], by simp⟩
  | store =>
    simp only [inner_enqueue, Option.some.injEq, Prod.mk.injEq] at h
    obtain ⟨rfl, rfl⟩ := h
    exact ⟨.setBlock q _ rfl, by simp [Enqueue.coming], by simp [Enqueue.foundFull], by simp⟩
  | full b =>
    simp only [inner_enqueue, Option.some.injEq, Prod.mk.injEq] at h
    obtain ⟨rfl, rfl⟩ := h
    refine ⟨.refl q, by simp [Enqueue.coming], fun _ => .inl rfl, fun b' hb => ?_⟩
    split at hb
    next => exact absurd hb (by simp)
    next hnext =>
      cases ca with
      | CannotAlloc => exact absurd hb (by simp)
      | CanAlloc =>
        obtain rfl := Enqueue.grow.inj hb
        exact ⟨rfl, not_ne_iff.mp hnext⟩
  | nextFront =>
    simp only [inner_enqueue, Option.some.injEq, Prod.mk.injEq] at h
    obtain ⟨rfl, rfl⟩ := h
    exact ⟨(SameBlocks.setBlock q _ rfl).trans (.assert _ _), by simp [Enqueue.coming],
      fun _ => .inl rfl, by simp⟩
  | writeNext =>
    simp only [inner_enqueue, Option.some.injEq, Prod.mk.injEq] at h
    obtain ⟨rfl, rfl⟩ := h
    exact ⟨.construct q _ _ _, by simp [Enqueue.coming], fun _ => .inl rfl, by simp⟩
  | storeNext =>
    simp only [inner_enqueue, Option.some.injEq, Prod.mk.injEq] at h
    obtain ⟨rfl, rfl⟩ := h
    exact ⟨.setBlock q _ rfl, by simp [Enqueue.coming], fun _ => .inl rfl, by simp⟩
  | link =>
    simp only [inner_enqueue, Option.some.injEq, Prod.mk.injEq] at h
    obtain ⟨rfl, rfl⟩ := h
    exact ⟨.setBlock q _ rfl, fun _ hb => hb, fun _ => .inl rfl, by simp⟩

/-- **What bounds the memory** under a load that was never above `load`. -/
structure Small (load : Nat) (q : Rwq T) (pe : Enqueue) : Prop where
  /-- The tail block alone may have more usable cells. -/
  settled : ∀ b, 0 < b → b < q.brk → b ≠ q.tailBlock → pe.coming ≠ some b →
    (q.blocks b).sizeMask ≤ load
  /-- And not once it has been full. -/
  tail : pe.foundFull → (q.blocks q.tailBlock).sizeMask ≤ load
  largest : ∃ b, 0 < b ∧ b < q.brk ∧ q.largestBlockSize = (q.blocks b).size
  grow : ∀ b, pe = .grow b → q.cells ≤ 3 * load + 1
  cells : q.cells ≤ 5 * load + 3

namespace Small

variable {load load' n : Nat} {q q' : Rwq T} {pe pe' : Enqueue}

theorem size_le (h : Small load q pe) (hfull : pe.foundFull) {b : Nat} (hpos : 0 < b)
    (hb : b < q.brk) (hne : pe.coming ≠ some b) : (q.blocks b).size ≤ load + 1 := by
  refine Nat.succ_le_succ ?_
  by_cases htail : b = q.tailBlock
  · exact htail ▸ h.tail hfull
  · exact h.settled b hpos hb htail hne

/-- A step that makes no block and leaves the tail block. -/
theorem keep (h : Small load q pe) (hsame : SameBlocks q q') (hload : load ≤ load')
    (hcoming : ∀ b, pe.coming = some b → pe'.coming = some b)
    (htail : pe'.foundFull → (q.blocks q.tailBlock).sizeMask ≤ load')
    (hgrow : ∀ b, pe' = .grow b → q.cells ≤ 3 * load' + 1) : Small load' q' pe' where
  settled b hpos hb hne hcom := by
    rw [hsame.sizeMask]
    exact (h.settled b hpos (hsame.brk ▸ hb) (hsame.tailBlock ▸ hne)
      (mt (hcoming b) hcom)).trans hload
  tail hfull := by
    rw [hsame.tailBlock, hsame.sizeMask]
    exact htail hfull
  largest := by
    obtain ⟨b, hpos, hb, hsize⟩ := h.largest
    exact ⟨b, hpos, hsame.brk ▸ hb, by rw [hsame.largest, hsame.size, hsize]⟩
  grow b hb := by
    rw [hsame.cells]
    exact hgrow b hb
  cells := by
    have := h.cells
    rw [hsame.cells]
    omega

/-- A step of the other thread. -/
theorem same (h : Small load q pe) (hsame : SameBlocks q q') (hload : load ≤ load') :
    Small load' q' pe :=
  h.keep hsame hload (fun _ hb => hb) (fun hfull => (h.tail hfull).trans hload)
    fun b hb => (h.grow b hb).trans (by omega)

/-- A step outside the search for a block. -/
theorem pass (h : Small load q pe) (hsame : SameBlocks q q') (hload : load ≤ load')
    (hcoming : pe.coming = none) (hfull : pe'.foundFull = false) : Small load' q' pe' := by
  refine h.keep hsame hload (fun b hb => ?_) (fun ht => ?_) fun b hb => ?_
  · exact absurd (hcoming.symm.trans hb) (by simp)
  · exact absurd (hfull.symm.trans ht) (by simp)
  · rw [hb] at hfull
    exact absurd hfull (by simp [Enqueue.foundFull])

/-- The new block: at most twice the size of the largest one so far. -/
theorem make {MAX : Nat} {ca : AllocationMode} {v : T} {malloc : Bool} {b : Nat}
    (h : Small load q (.grow b)) (hload : load ≤ load') (htail : q.tailBlock < q.brk)
    (hs : q.inner_enqueue MAX ca v malloc (.grow b) = some (q', pe')) : Small load' q' pe' := by
  cases malloc with
  | false =>
    simp only [Rwq.inner_enqueue, Bool.false_eq_true, if_false, Option.some.injEq,
      Prod.mk.injEq] at hs
    obtain ⟨rfl, rfl⟩ := hs
    exact h.pass (.refl q) hload rfl rfl
  | true =>
    obtain ⟨largest, hpos, hlt, hlargest⟩ := h.largest
    have hold : q.largestBlockSize ≤ load + 1 :=
      hlargest ▸ h.size_le rfl hpos hlt (by simp [Enqueue.coming])
    obtain ⟨N, hN⟩ : ∃ N, N = if q.largestBlockSize ≥ MAX then q.largestBlockSize
      else q.largestBlockSize * 2 := ⟨_, rfl⟩
    have hNpos : 0 < N := by
      have : 0 < q.largestBlockSize := hlargest ▸ Nat.succ_pos _
      rw [hN]
      split <;> omega
    have hNle : N ≤ 2 * (load + 1) := by
      rw [hN]
      split <;> omega
    simp only [Rwq.inner_enqueue, if_true, ← hN, Option.some.injEq, Prod.mk.injEq] at hs
    obtain ⟨rfl, rfl⟩ := hs
    generalize hq' : Rwq.setBlock _ q.brk _ = q'
    have hbrk : q'.brk = q.brk + 1 := by rw [← hq']; rfl
    have hsame : q'.tailBlock = q.tailBlock := by rw [← hq']; rfl
    have hsize : ∀ x, (q'.blocks x).size = if x = q.brk then N else (q.blocks x).size := fun x => by
      rw [← hq']
      simp only [Rwq.setBlock_blocks, Rwq.assert, Rwq.construct, Rwq.make_block_blocks]
      split
      next => exact Nat.sub_add_cancel hNpos
      next => rfl
    have hkept : ∀ x, x ≠ q.brk → (q'.blocks x).sizeMask = (q.blocks x).sizeMask := fun x hx =>
      Nat.succ.inj ((hsize x).trans (if_neg hx))
    have hcells : q'.cells = q.cells + N := by
      unfold Rwq.cells
      rw [hbrk, Finset.sum_Ico_succ_top (by omega), hsize, if_pos rfl]
      refine congrArg (· + N) (Finset.sum_congr rfl fun x hx => ?_)
      rw [hsize, if_neg (Finset.mem_Ico.mp hx).2.ne]
    have hall := h.grow b rfl
    refine ⟨fun x hx hlt' hne hcom => ?_, fun _ => ?_, ⟨q.brk, by omega, by omega, ?_⟩,
      fun x hx => absurd hx (by simp), by omega⟩
    · have hne' : x ≠ q.brk := fun heq => hcom (by rw [heq]; rfl)
      rw [hkept x hne']
      exact (h.settled x hx (by omega) (hsame ▸ hne) (by simp [Enqueue.coming])).trans hload
    · rw [hsame, hkept _ htail.ne]
      exact (h.tail rfl).trans hload
    · rw [hsize, if_pos rfl, ← hq']
      rfl

/-- The new tail block, and the old one, which was full. -/
theorem move (h : Small load q (.advance n)) (hload : load ≤ load') :
    Small load' { q with tailBlock := n } (.returned true) where
  settled b hpos hb hne _ := by
    refine le_trans ?_ hload
    by_cases htail : b = q.tailBlock
    · exact htail ▸ h.tail rfl
    · exact h.settled b hpos hb htail fun heq => hne (Option.some.inj heq).symm
  tail hfull := absurd hfull (by simp [Enqueue.foundFull])
  largest := h.largest
  grow b hb := absurd hb (by simp)
  cells := by
    have hcells : q.cells ≤ 5 * load + 3 := h.cells
    show q.cells ≤ 5 * load' + 3
    omega

end Small

/-- The queue as the constructor leaves it. -/
theorem Constructed.small {size k i load : Nat} {q : Rwq T} (h : Constructed size k i q)
    (hload : 2 * size ≤ load) : Small load q (.returned true) := by
  obtain ⟨q', hreserved, rfl⟩ := h.reserved
  have hpos := h.pos
  have htwo := Nat.two_pow_pos (i + 1)
  have hle := h.block_le
  have hmask : ∀ b, 0 < b → b < q'.brk → (q'.blocks b).sizeMask = 2 ^ (i + 1) - 1 := fun b hb hlt => by
    rw [hreserved.block b hb (by rw [hreserved.brk] at hlt; omega)]
    rfl
  have hsize : ∀ b, 0 < b → b < q'.brk → (q'.blocks b).size = 2 ^ (i + 1) := fun b hb hlt =>
    (congrArg (· + 1) (hmask b hb hlt)).trans (Nat.sub_add_cancel htwo)
  have hcells : q'.cells = k * 2 ^ (i + 1) := by
    unfold Rwq.cells
    rw [Finset.sum_const_nat fun b hb => hsize b (Finset.mem_Ico.mp hb).1 (Finset.mem_Ico.mp hb).2,
      Nat.card_Ico, hreserved.brk, Nat.add_sub_cancel]
  refine ⟨fun b hb hlt _ _ => ?_, fun hfull => absurd hfull (by simp [Enqueue.foundFull]),
    ⟨1, Nat.one_pos, ?_, ?_⟩, fun b hb => absurd hb (by simp), ?_⟩
  · rw [hmask b hb hlt]
    omega
  · show 1 < q'.brk
    rw [hreserved.brk]
    omega
  · rw [hsize 1 Nat.one_pos (by rw [hreserved.brk]; omega)]
    exact hreserved.largest
  · show q'.cells ≤ 5 * load + 3
    have := h.cells_le
    omega

/-! ## Every run -/

namespace Spsc

variable {MAX size load load' : Nat} {s t : Spsc T}

/-- A full tail block holds no more than the queue has held. -/
theorem Inv.full_le (h : Inv size s) {b : Nat} (he : s.th.enq = .full b) :
    (s.q.blocks s.q.tailBlock).sizeMask ≤ Fifo.peak s.log := by
  obtain ⟨least, g, a, hrel, hhist, htied⟩ := h
  have hknow := hrel.enq
  rw [Threads.enqInv, he] at hknow
  obtain ⟨rfl, -, hmask⟩ := hknow
  exact hmask.trans (htied.held ▸ hhist.held_le_peak)

/-- The tail block is there. -/
theorem Inv.tail_lt (h : Inv size s) : s.q.tailBlock < s.q.brk := by
  obtain ⟨least, g, a, hrel, -, -⟩ := h
  exact hrel.below _ hrel.tail_mem

/-- The producer asks for memory. -/
theorem Inv.cells_le (h : Inv size s) {b : Nat} (he : s.th.enq = .full b)
    (hsmall : Small load s.q s.th.enq) (hload : Fifo.peak s.log ≤ load)
    (hnext : (s.q.blocks b).next = s.q.frontBlock) : s.q.cells ≤ 3 * load + 1 := by
  obtain ⟨least, g, a, hrel, hhist, htied⟩ := h
  have hknow := hrel.enq
  rw [Threads.enqInv, he] at hknow
  obtain ⟨rfl, hfull, -⟩ := hknow
  have hcells := hrel.cells_le hfull (hrel.next_tail_eq.mp hnext) (by rw [he]; rfl)
  have hitems : g.items.length ≤ Fifo.peak s.log := htied.items ▸ hhist.items_le_peak
  have hfront := hsmall.size_le (by rw [he]; rfl) (hrel.pos _ hrel.front_mem)
    (hrel.below _ hrel.front_mem) (by simp [he, Enqueue.coming])
  omega

/-- A step of the producer. -/
theorem small_producer {malloc : Bool} (hinv : Inv size s) (hinv' : Inv size t)
    (h : Small load s.q s.th.enq) (hstep : step MAX s (.producer malloc) = some t)
    (hload : load ≤ load') (hpeak : Fifo.peak s.log ≤ load') (hpeak' : Fifo.peak t.log ≤ load') :
    Small load' t.q t.th.enq := by
  simp only [step] at hstep
  split at hstep
  next => exact absurd hstep (by simp)
  next v hv =>
    obtain ⟨⟨q', pe⟩, hs, rfl⟩ := Option.map_eq_some_iff.mp hstep
    show Small load' q' pe
    by_cases hgrow : ∃ b, s.th.enq = .grow b
    · obtain ⟨b, he⟩ := hgrow
      rw [he] at h hs
      exact h.make hload hinv.tail_lt hs
    by_cases hadvance : ∃ n, s.th.enq = .advance n
    · obtain ⟨n, he⟩ := hadvance
      rw [he] at h hs
      simp only [Rwq.inner_enqueue, Option.some.injEq, Prod.mk.injEq] at hs
      obtain ⟨rfl, rfl⟩ := hs
      exact h.move hload
    have hstays := Rwq.inner_enqueue_stays hs (not_exists.mp hgrow) (not_exists.mp hadvance)
    refine h.keep hstays.same hload hstays.coming (fun hf => ?_) fun b hb => ?_
    · rcases hstays.full hf with hfull | ⟨b, hb⟩
      · exact (h.tail hfull).trans hload
      · rw [← hstays.same.sizeMask, ← hstays.same.tailBlock]
        exact (hinv'.full_le hb).trans hpeak'
    · obtain ⟨hfull, hnext⟩ := hstays.grow b hb
      exact hinv.cells_le hfull (h.same (.refl _) hload) hpeak hnext

/-- The log only grows. -/
theorem log_step {l : Label T} (h : step MAX s l = some t) : ∃ events, t.log = s.log ++ events := by
  cases l with
  | enqueue | consume =>
    simp only [step] at h
    split at h
    next => exact absurd h (by simp)
    next =>
      obtain rfl := Option.some.inj h
      exact ⟨_, rfl⟩
  | producer =>
    simp only [step] at h
    split at h
    next => exact absurd h (by simp)
    next =>
      obtain ⟨r, -, rfl⟩ := Option.map_eq_some_iff.mp h
      exact ⟨_, rfl⟩
  | consumer =>
    obtain ⟨r, -, rfl⟩ := Option.map_eq_some_iff.mp h
    exact ⟨_, rfl⟩

theorem small_reachable {malloc : Nat → Bool} {q : Rwq T} (hs : Sizes MAX size)
    (hq : construct T MAX size malloc = some q) (h : Reachable (step MAX) (start q) s) :
    Small (max (2 * size) (Fifo.peak s.log)) s.q s.th.enq := by
  refine h.invariant (fun s => Small (max (2 * size) (Fifo.peak s.log)) s.q s.th.enq) ?_ ?_
  · obtain ⟨k, i, hconstructed⟩ := constructed hs hq
    exact hconstructed.small (le_max_left _ _)
  · intro s l t hreach hsmall hl
    obtain ⟨events, hlog⟩ := log_step hl
    have hpeak : Fifo.peak s.log ≤ Fifo.peak t.log := hlog ▸ Fifo.peak_le_append _ _
    have hload := max_le_max (le_refl (2 * size)) hpeak
    cases l with
    | producer malloc' =>
      exact small_producer (inv_reachable hs hq hreach) (inv_reachable hs hq (hreach.next hl))
        hsmall hl hload (hpeak.trans (le_max_right _ _)) (le_max_right _ _)
    | consumer =>
      obtain ⟨⟨q', pd⟩, hdequeue, rfl⟩ := Option.map_eq_some_iff.mp hl
      exact hsmall.same (Rwq.dequeue_sameBlocks hdequeue) hload
    | consume op =>
      simp only [step] at hl
      split at hl
      next => exact absurd hl (by simp)
      next =>
        obtain rfl := Option.some.inj hl
        exact hsmall.same (.refl _) hload
    | enqueue element canAlloc =>
      simp only [step] at hl
      split at hl
      next => exact absurd hl (by simp)
      next hidle =>
        obtain rfl := Option.some.inj hl
        refine hsmall.pass (.refl _) hload ?_ rfl
        cases he : s.th.enq with
        | returned ok => rfl
        | _ => exact absurd hidle (by simp [he, Enqueue.busy])

/-- **The memory is bounded by the load**: whatever the interleaving, all blocks together
have at most five times as many cells as the queue has ever held elements, or as twice the
number it was made for, and three more. -/
theorem memory_bounded {malloc : Nat → Bool} {q : Rwq T} (hs : Sizes MAX size)
    (hq : construct T MAX size malloc = some q) (h : Reachable (step MAX) (start q) s) :
    s.q.cells ≤ 5 * max (2 * size) (Fifo.peak s.log) + 3 :=
  (small_reachable hs hq h).cells

/-- Five elements into the queue, two out of it, and three more into it. -/
def traffic : List (Label Nat) :=
  let enqueue : Nat → Nat → List (Label Nat) := fun v k =>
    .enqueue v .CanAlloc :: List.replicate k (.producer true)
  let pop : Nat → List (Label Nat) := fun k => .consume .pop :: List.replicate k .consumer
  enqueue 1 3 ++ enqueue 2 6 ++ enqueue 3 3 ++ enqueue 4 3 ++ enqueue 5 6 ++ pop 4 ++ pop 9 ++
    enqueue 6 3 ++ enqueue 7 3 ++ enqueue 8 7

/-- A queue made for one element. It makes two more blocks, and puts the last element into
its first block again. -/
def reused : Option (Spsc Nat) :=
  (construct Nat 4 1 fun _ => true).bind fun q => run (step 4) (start q) traffic

theorem memory_bounded_reused : ∃ s, reused = some s ∧ Fifo.sent s.log = [1, 2, 3, 4, 5, 6, 7, 8] ∧
    Fifo.peak s.log = 6 ∧ s.q.cells = 10 ∧ s.q.cells ≤ 5 * max (2 * 1) (Fifo.peak s.log) + 3 := by
  have hmap : reused.map (fun s => (Fifo.sent s.log, Fifo.peak s.log, s.q.cells)) =
      some ([1, 2, 3, 4, 5, 6, 7, 8], 6, 10) := by decide +kernel
  obtain ⟨s, hs, heq⟩ := Option.map_eq_some_iff.mp hmap
  obtain ⟨hsent, hpeak, hcells⟩ := (Prod.mk.injEq ..).mp heq |>.imp_right (Prod.mk.injEq ..).mp
  obtain ⟨q, hq, hrun⟩ := Option.bind_eq_some_iff.mp hs
  exact ⟨s, hs, hsent, hpeak, hcells, memory_bounded ⟨by decide, by decide, 1, by decide, by decide⟩
    hq (.of_run hrun)⟩

end Spsc

end Darts.Queue
