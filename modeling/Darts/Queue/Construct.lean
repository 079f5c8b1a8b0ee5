import Darts.Lib.PowerOfTwo
import Darts.Queue.Frames

/-!
# The constructor of `ReaderWriterQueue`

`ReaderWriterQueue(size)` makes one block of at least `size + 1` cells, or, when
that would be more than two blocks of `MAX_BLOCK_SIZE`, a circle of such blocks.
The queue it leaves satisfies the invariant with room for `size` elements.
-/

namespace Darts.Queue

open Circular PowerOfTwo

variable {T : Type}

/-- `x |= x >> k`. -/
def smear (x : BitVec 64) (k : Nat) : BitVec 64 := x ||| x >>> k

/-- `ceilToPow2`, on `size_t`. -/
def ceilToPow2 (x : BitVec 64) : BitVec 64 :=
  let x := x - 1
  let x := smear (smear (smear x 1) 2) 4
  -- for (i = 1; i < sizeof(size_t); i <<= 1) x |= x >> (i << 3)
  let x := [1, 2, 4].foldl (fun x i => smear x (i <<< 3)) x
  x + 1

theorem smeared_smear {y k : Nat} {x : BitVec 64} (h : Smeared y x.toNat k) :
    Smeared y (smear x k).toNat (2 * k) := by
  rw [smear, BitVec.toNat_or, BitVec.toNat_ushiftRight]
  exact h.double

/-- **`ceilToPow2` rounds up to a power of two.** It is 0 for 0 and where the
power does not fit into `size_t`. -/
theorem toNat_ceilToPow2 (x : BitVec 64) :
    (ceilToPow2 x).toNat = if x.toNat = 0 then 0 else 2 ^ Nat.clog 2 x.toNat % 2 ^ 64 := by
  -- six doublings smear over all 64 places
  have hsmear := smeared_smear (smeared_smear (smeared_smear (smeared_smear (smeared_smear
    (smeared_smear (Smeared.one (x - 1).toNat))))))
  have hcode : (ceilToPow2 x).toNat = (2 ^ (x - 1).toNat.size - 1 + 1) % 2 ^ 64 := by
    rw [← hsmear.eq_size (x - 1).isLt]
    exact BitVec.toNat_add _ _
  rw [hcode, Nat.sub_add_cancel Nat.one_le_two_pow]
  by_cases hx : x.toNat = 0
  · obtain rfl : x = 0 := BitVec.eq_of_toNat_eq hx
    decide
  · have hpred : (x - 1).toNat = x.toNat - 1 := by
      have := x.isLt
      rw [BitVec.toNat_sub]
      simp only [BitVec.ofNat_eq_ofNat, BitVec.toNat_ofNat]
      omega
    rw [if_neg hx, hpred, size_pred (by omega)]

/-- The least power of two from `x` on, for every `x` for which it fits. -/
theorem toNat_ceilToPow2_ofNat {x : Nat} (hpos : 0 < x) (hle : x ≤ 2 ^ 63) :
    (ceilToPow2 (BitVec.ofNat 64 x)).toNat = 2 ^ Nat.clog 2 x := by
  have hclog : Nat.clog 2 x ≤ 63 := Nat.clog_le_of_le_pow hle
  have hpow : 2 ^ Nat.clog 2 x ≤ 2 ^ 63 := Nat.pow_le_pow_right (by decide) hclog
  have hx : (BitVec.ofNat 64 x).toNat = x := by
    rw [BitVec.toNat_ofNat]
    omega
  rw [toNat_ceilToPow2, hx, if_neg (by omega), Nat.mod_eq_of_lt (by omega)]

example : ceilToPow2 16 = 16 := by decide
example : ceilToPow2 17 = 32 := by decide

/-! ## The constructor -/

/-- No block made yet. -/
def Rwq.raw (T : Type) : Rwq T :=
  { blocks := fun _ => Block.make T 1, brk := 1, frontBlock := 0, tailBlock := 0,
    largestBlockSize := 0, fault := false }

/-- The loop that reserves blocks, with `firstBlock` and `lastBlock`. `malloc` says which
allocations succeed; where one fails the constructor throws. -/
def reserve (malloc : Nat → Bool) : Nat → Rwq T → Nat → Nat → Option (Rwq T × Nat)
  | 0, q, firstBlock, _ => some (q, firstBlock)
  | i + 1, q, firstBlock, lastBlock =>
    if malloc q.brk then
      let block := q.brk
      let q := q.make_block q.largestBlockSize
      if firstBlock = 0 then
        reserve malloc i (q.setBlock block fun B => { B with next := block }) block block
      else
        let q := q.setBlock lastBlock fun B => { B with next := block }
        reserve malloc i (q.setBlock block fun B => { B with next := firstBlock }) firstBlock block
    else none

/-- `ReaderWriterQueue(size)`. -/
def construct (T : Type) (MAX_BLOCK_SIZE size : Nat) (malloc : Nat → Bool) : Option (Rwq T) :=
  let q := (Rwq.raw T).assert (size > 0)
  let q := q.assert (MAX_BLOCK_SIZE = (ceilToPow2 (BitVec.ofNat 64 MAX_BLOCK_SIZE)).toNat)
  let q := q.assert (MAX_BLOCK_SIZE ≥ 2)
  -- a spare slot to fit `size` elements in the block
  let largestBlockSize := (ceilToPow2 (BitVec.ofNat 64 (size + 1))).toNat
  if largestBlockSize > MAX_BLOCK_SIZE * 2 then
    -- a spare block, and a spare element in each
    let initialBlockCount := (size + MAX_BLOCK_SIZE * 2 - 3) / (MAX_BLOCK_SIZE - 1)
    (reserve malloc initialBlockCount { q with largestBlockSize := MAX_BLOCK_SIZE } 0 0).map
      fun (q, firstBlock) => { q with frontBlock := firstBlock, tailBlock := firstBlock }
  else if malloc q.brk then
    let firstBlock := q.brk
    let q := { q.make_block largestBlockSize with largestBlockSize := largestBlockSize }
    let q := q.setBlock firstBlock fun B => { B with next := firstBlock }
    some { q with frontBlock := firstBlock, tailBlock := firstBlock }
  else none

/-- The circle of `k` empty blocks of `size` cells at the addresses `1, ..., k`. -/
structure Reserved (q : Rwq T) (size k : Nat) : Prop where
  brk : q.brk = k + 1
  fault : q.fault = false
  largest : q.largestBlockSize = size
  block : ∀ b, 0 < b → b ≤ k →
    q.blocks b = { Block.make T size with next := if b = k then 1 else b + 1 }

/-- The first block is its own next. -/
theorem reserved_one {q : Rwq T} {capacity : Nat} (hbrk : q.brk = 1) (hfault : q.fault = false)
    (hlargest : q.largestBlockSize = capacity) :
    Reserved ((q.make_block capacity).setBlock 1 fun B => { B with next := 1 }) capacity 1 := by
  refine ⟨congrArg (· + 1) hbrk, hfault, hlargest, fun b hpos hle => ?_⟩
  obtain rfl : b = 1 := Nat.le_antisymm hle hpos
  rw [Rwq.setBlock_blocks_self, Rwq.make_block_blocks, if_pos hbrk.symm]
  rfl

/-- One block more. -/
theorem Reserved.succ {q : Rwq T} {size k : Nat} (h : Reserved q size (k + 1)) :
    Reserved (((q.make_block q.largestBlockSize).setBlock (k + 1) fun B =>
      { B with next := k + 2 }).setBlock (k + 2) fun B => { B with next := 1 }) size (k + 2) := by
  refine ⟨congrArg (· + 1) h.brk, h.fault, h.largest, fun b hpos hle => ?_⟩
  simp only [Rwq.setBlock_blocks, Rwq.make_block_blocks, h.largest, h.brk]
  by_cases hlast : b = k + 2
  · rw [if_pos hlast, if_pos hlast, if_neg (by omega), if_pos trivial]
  · rw [if_neg hlast, if_neg hlast]
    by_cases hprev : b = k + 1
    · rw [if_pos hprev, if_neg (by omega), h.block _ (by omega) (Nat.le_refl _), hprev]
      simp
    · rw [if_neg hprev, if_neg hlast, h.block b hpos (by omega), if_neg hprev]

theorem reserve_eq {malloc : Nat → Bool} {size n k : Nat} {q q' : Rwq T} {first : Nat}
    (h : Reserved q size (k + 1)) (hr : reserve malloc n q 1 (k + 1) = some (q', first)) :
    first = 1 ∧ Reserved q' size (k + 1 + n) := by
  induction n generalizing q k with
  | zero =>
    obtain ⟨rfl, rfl⟩ := Prod.mk.inj (Option.some.inj hr)
    exact ⟨rfl, h⟩
  | succ n ih =>
    simp only [reserve, Nat.one_ne_zero, if_false] at hr
    split at hr
    next =>
      rw [h.brk] at hr
      have hnext := ih h.succ hr
      rwa [Nat.add_right_comm (k + 1) 1 n] at hnext
    next => exact absurd hr (by simp)

/-- The picture of `k` empty blocks. -/
def Ghost.fresh (T : Type) (k : Nat) : Ghost T :=
  { used := [1], free := List.range' 2 (k - 1), marks := fun _ => ⟨0, 0, 0, 0⟩,
    content := fun _ => [], held := 0, wasEmpty := True }

/-- Neither thread has called yet. -/
def Threads.idle (T : Type) : Threads T :=
  { element := none, canAlloc := .CanAlloc, enq := .returned true, op := .pop, deq := .removed none }

theorem fresh_ring {k : Nat} (hk : 0 < k) :
    (Ghost.fresh T k).ring = (List.range k).map (1 + ·) := by
  obtain ⟨n, rfl⟩ := Nat.exists_eq_add_of_le' hk
  rw [← List.range'_eq_map_range]
  rfl

/-- A circle of empty blocks satisfies the invariant. -/
theorem Reserved.rel {q : Rwq T} {cap size k i : Nat} (h : Reserved q size k) (hk : 0 < k)
    (hlt : i < 63) (hsize : size = 2 ^ (i + 1)) (hcap : cap ≤ max 1 (k - 1) * (size - 1)) :
    Rel cap (size - 1) { q with frontBlock := 1, tailBlock := 1 } (Threads.idle T)
      (Ghost.fresh T k) := by
  have hpos : 0 < size := hsize ▸ Nat.two_pow_pos _
  have hmem : ∀ b, b ∈ (Ghost.fresh T k).ring ↔ 0 < b ∧ b ≤ k := fun b => by
    rw [fresh_ring hk, List.mem_map]
    constructor
    · rintro ⟨j, hj, rfl⟩
      have := List.mem_range.mp hj
      omega
    · exact fun ⟨hb, hle⟩ => ⟨b - 1, List.mem_range.mpr (by omega), by omega⟩
  have hblock : ∀ b, b ∈ (Ghost.fresh T k).ring → ∃ next,
      q.blocks b = { Block.make T size with next } := fun b hb =>
    ⟨_, h.block b ((hmem b).mp hb).1 ((hmem b).mp hb).2⟩
  have hbsize : ∀ next, ({ Block.make T size with next } : Block T).size = size := fun _ =>
    Nat.sub_add_cancel hpos
  refine
    { ok := h.fault
      linked := ?_
      nodup := ?_
      pos := fun b hb => ((hmem b).mp hb).1
      below := fun b hb => ?_
      owned := fun b hpos hb => Or.inl ((hmem b).mpr
        ⟨hpos, Nat.le_of_lt_succ (hb.trans_eq h.brk)⟩)
      first := rfl
      last := rfl
      inv := fun b hb => ?_
      cells := fun b hb => ?_
      free_empty := fun _ _ hne => absurd rfl hne
      behind := fun _ hb => absurd hb (by simp [Ghost.fresh])
      left_full := fun _ hb => absurd hb (by simp [Ghost.fresh])
      enq := trivial
      deq := trivial
      held := fun hb => absurd hb (by simp [Threads.idle, Enqueue.busy])
      wasEmpty := fun hb => absurd hb (by simp [Threads.idle, Dequeue.busy])
      large := ⟨i, hlt, h.largest.trans hsize, ?_⟩
      least_le := fun b hb => ?_
      capacity := ?_ }
  · obtain ⟨n, rfl⟩ := Nat.exists_eq_add_of_le' hk
    rw [fresh_ring hk]
    show Cycle.Chain _ ((List.range (n + 1) : Cycle Nat).map (1 + ·))
    rw [Cycle.chain_map]
    refine (Cycle.chain_range_succ _ n).mpr ⟨?_, fun j hj => ?_⟩
    · show (q.blocks (1 + n)).next = 1
      rw [h.block (1 + n) (by omega) (by omega), Nat.add_comm 1 n]
      exact if_pos rfl
    · show (q.blocks (1 + j)).next = 1 + (j + 1)
      rw [h.block (1 + j) (by omega) (by omega)]
      exact (if_neg (by omega)).trans (by omega)
  · rw [fresh_ring hk]
    exact List.nodup_range.map (fun _ _ he => Nat.add_left_cancel he)
  · show b < q.brk
    rw [h.brk]
    exact Nat.lt_succ_of_le ((hmem b).mp hb).2
  · obtain ⟨next, hb⟩ := hblock b hb
    show (q.blocks b).Inv _ _
    rw [hb]
    have hzero : 0 = 0 % ({ Block.make T size with next } : Block T).size := (Nat.zero_mod _).symm
    exact ⟨⟨i, hlt, (hbsize next).trans hsize⟩, hzero, hzero, hzero, hzero, Nat.le_refl _, Nat.le_refl _,
      Nat.le_refl _, by rw [hbsize]; exact Nat.lt_add_of_pos_right hpos, rfl⟩
  · obtain ⟨next, hb⟩ := hblock b hb
    show (q.blocks b).Cells _ _ _ _
    rw [hb]
    exact ⟨[], rfl, Holds.raw _ _⟩
  · rw [h.largest]
    exact Nat.sub_lt hpos Nat.one_pos
  · obtain ⟨next, hb⟩ := hblock b hb
    show size - 1 ≤ (q.blocks b).sizeMask
    rw [hb]
    exact Nat.le_refl _
  · rw [fresh_ring hk, List.length_map, List.length_range]
    exact hcap

/-- What `construct` needs of its arguments: its own assertions, and that the block
sizes fit into `size_t`. -/
structure Sizes (MAX_BLOCK_SIZE size : Nat) : Prop where
  pos : 0 < size
  fits : size + 1 ≤ 2 ^ 63
  pow : ∃ i, MAX_BLOCK_SIZE = 2 ^ (i + 1) ∧ i + 1 ≤ 62

theorem Sizes.max_le {MAX_BLOCK_SIZE size : Nat} (hs : Sizes MAX_BLOCK_SIZE size) :
    MAX_BLOCK_SIZE ≤ 2 ^ 63 := by
  obtain ⟨i, rfl, hi⟩ := hs.pow
  exact Nat.pow_le_pow_right (by decide) (by omega)

/-- What `construct` makes: `k` blocks of `2 ^ (i + 1)` cells, with room for `size` elements,
and not much more. -/
structure Constructed (size k i : Nat) (q : Rwq T) : Prop where
  reserved : ∃ q', Reserved q' (2 ^ (i + 1)) k ∧ q = { q' with frontBlock := 1, tailBlock := 1 }
  pos : 0 < k
  exponent : i < 63
  room : size ≤ max 1 (k - 1) * (2 ^ (i + 1) - 1)
  block_le : 2 ^ (i + 1) ≤ 2 * size
  cells_le : k * 2 ^ (i + 1) ≤ 6 * size

theorem constructed {MAX_BLOCK_SIZE size : Nat} (hs : Sizes MAX_BLOCK_SIZE size)
    {malloc : Nat → Bool} {q : Rwq T} (h : construct T MAX_BLOCK_SIZE size malloc = some q) :
    ∃ k i, Constructed size k i q := by
  obtain ⟨i, rfl, hi⟩ := hs.pow
  have hclog : Nat.clog 2 (2 ^ (i + 1)) = i + 1 := Nat.clog_pow 2 _ (by decide)
  have hpow : 2 ^ (i + 1) ≤ 2 ^ 62 := Nat.pow_le_pow_right (by decide) hi
  have htwo : 2 ^ 1 ≤ 2 ^ (i + 1) := Nat.pow_le_pow_right (by decide) (by omega)
  have hmax := toNat_ceilToPow2_ofNat (Nat.two_pow_pos (i + 1)) (hpow.trans (by decide))
  rw [hclog] at hmax
  have htwo : 2 ≤ 2 ^ (i + 1) := htwo
  have hpos := hs.pos
  have hlargest := toNat_ceilToPow2_ofNat (by omega : 0 < size + 1) hs.fits
  -- the least power of two from `size + 1` on
  obtain ⟨j, hj⟩ : ∃ j, Nat.clog 2 (size + 1) = j + 1 :=
    Nat.exists_eq_add_of_le' (Nat.clog_pos (by decide) (by omega))
  have hexp : Nat.clog 2 (size + 1) ≤ 63 := Nat.clog_le_of_le_pow hs.fits
  have hle := Nat.le_pow_clog (by decide : 1 < 2) (size + 1)
  have hlt := Nat.pow_pred_clog_lt_self (by decide : 1 < 2) (by omega : 1 < size + 1)
  rw [hj] at hexp hle hlt
  have hdouble : 2 ^ (j + 1) ≤ 2 * size := by
    rw [Nat.pow_succ]
    have : 2 ^ j < size + 1 := hlt
    omega
  simp only [construct, hlargest, hmax, gt_iff_lt, ge_iff_le, hpos, htwo, decide_true,
    Rwq.assert_true _ rfl, hj] at h
  split at h
  next hbig =>
    -- several blocks of the maximal size
    obtain ⟨⟨q', first⟩, hreserve, rfl⟩ := Option.map_eq_some_iff.mp h
    obtain ⟨n, hn⟩ : ∃ n, n = (size + 2 ^ (i + 1) - 2) / (2 ^ (i + 1) - 1) := ⟨_, rfl⟩
    have hcount : (size + 2 ^ (i + 1) * 2 - 3) / (2 ^ (i + 1) - 1) = n + 1 := by
      rw [hn, show size + 2 ^ (i + 1) * 2 - 3 = size + 2 ^ (i + 1) - 2 + (2 ^ (i + 1) - 1) by omega]
      exact Nat.add_div_right _ (by omega)
    rw [hcount] at hreserve
    simp only [reserve, if_true] at hreserve
    split at hreserve
    next hmalloc =>
      obtain ⟨rfl, hreserved⟩ := reserve_eq (reserved_one rfl rfl rfl) hreserve
      have hdiv := Nat.div_add_mod (size + 2 ^ (i + 1) - 2) (2 ^ (i + 1) - 1)
      have hmod := Nat.mod_lt (size + 2 ^ (i + 1) - 2) (by omega : 0 < 2 ^ (i + 1) - 1)
      rw [← hn, Nat.mul_comm] at hdiv
      refine ⟨_, i, ⟨q', hreserved, rfl⟩, Nat.add_pos_left Nat.one_pos _, by omega, ?_, by omega, ?_⟩
      · -- every block but one holds all its usable cells
        refine le_trans ?_ (Nat.mul_le_mul_right _ (le_max_right _ _))
        show size ≤ (0 + 1 + n - 1) * (2 ^ (i + 1) - 1)
        rw [Nat.zero_add, Nat.add_sub_cancel_left]
        omega
      · -- at most twice its usable cells in each
        have hmul := Nat.mul_le_mul_left n htwo
        have hsub := Nat.mul_sub n (2 ^ (i + 1)) 1
        have hsucc := Nat.succ_mul n (2 ^ (i + 1))
        show (0 + 1 + n) * 2 ^ (i + 1) ≤ 6 * size
        rw [Nat.zero_add, Nat.add_comm 1 n, hsucc]
        omega
    next => exact absurd hreserve (by simp)
  next hsmall =>
    split at h
    next hmalloc =>
      obtain rfl := Option.some.inj h
      have hone : Reserved _ _ _ := reserved_one (q := { Rwq.raw T with
        largestBlockSize := 2 ^ (j + 1) }) rfl rfl rfl
      refine ⟨1, j, ⟨_, hone, rfl⟩, Nat.one_pos, by omega, ?_, hdouble, by omega⟩
      rw [Nat.sub_self, Nat.max_eq_left (Nat.zero_le 1), Nat.one_mul]
      exact Nat.le_sub_of_add_le hle
    next => exact absurd h (by simp)

/-- **The constructed queue satisfies the invariant**, with room for `size` elements. -/
theorem construct_rel {MAX_BLOCK_SIZE size : Nat} (hs : Sizes MAX_BLOCK_SIZE size)
    {malloc : Nat → Bool} {q : Rwq T}
    (h : construct T MAX_BLOCK_SIZE size malloc = some q) :
    ∃ least k, Rel size least q (Threads.idle T) (Ghost.fresh T k) := by
  obtain ⟨k, i, hmade⟩ := constructed hs h
  obtain ⟨q', hreserved, rfl⟩ := hmade.reserved
  exact ⟨_, k, hreserved.rel hmade.pos hmade.exponent rfl hmade.room⟩

end Darts.Queue
