import Darts.CannonDouble.Program

/-!
# The five buffers of a tile

The allocation of a tile is five buffers of `p * p` entries, number 0 to 4; the
pointers are multiples of `p * p`. `Placed t k` says where they stand after `k`
swaps: the read buffer of a side is then buffer `readBuf d k`, the write buffer is
`writeBuf d k`, its neighbour. Each action is described by what it does to the
buffers of its target tile (`exec_tile` and the lemmas about `cell`).
-/

namespace Darts.CannonDouble

open Cannon

variable {R : Type} {n p : Nat}

/-- The buffer a side is read from after `k` swaps. -/
def readBuf (d : Side) (k : Nat) : Nat := d.pick 0 2 + k % 2

/-- The buffer a side is written to after `k` swaps. -/
def writeBuf (d : Side) (k : Nat) : Nat := d.pick 0 2 + (k + 1) % 2

theorem readBuf_lt (d : Side) (k : Nat) : readBuf d k < 4 := by
  cases d <;> simp only [readBuf, Side.pick] <;> omega

theorem writeBuf_lt (d : Side) (k : Nat) : writeBuf d k < 4 := by
  cases d <;> simp only [writeBuf, Side.pick] <;> omega

/-- **Read and write buffers are distinct after every number of swaps.** -/
theorem readBuf_ne_writeBuf (d d' : Side) (k : Nat) : readBuf d k ≠ writeBuf d' k := by
  cases d <;> cases d' <;> simp only [readBuf, writeBuf, Side.pick] <;> omega

theorem readBuf_inj {d d' : Side} {k : Nat} (h : readBuf d k = readBuf d' k) : d = d' := by
  cases d <;> cases d' <;> simp only [readBuf, Side.pick] at h <;> first | rfl | omega

theorem writeBuf_inj {d d' : Side} {k : Nat} (h : writeBuf d k = writeBuf d' k) : d = d' := by
  cases d <;> cases d' <;> simp only [writeBuf, Side.pick] at h <;> first | rfl | omega

/-- A swap makes the write buffer the read buffer. -/
theorem readBuf_succ (d : Side) (k : Nat) : readBuf d (k + 1) = writeBuf d k := rfl

theorem writeBuf_succ (d : Side) (k : Nat) : writeBuf d (k + 1) = readBuf d k := by
  simp only [writeBuf, readBuf]
  omega

namespace TileMem

/-- Entry `z` of buffer `c`. -/
def cell (t : TileMem R p) (c z : Nat) : R := t.mem (c * (p * p) + z)

/-- Where the pointers stand after `k` swaps. -/
structure Placed (t : TileMem R p) (k : Nat) : Prop where
  read : ∀ d, t.read d = readBuf d k * (p * p)
  write : ∀ d, t.write d = writeBuf d k * (p * p)

/-- Different buffers do not overlap. -/
theorem buf_disjoint {c c' z q : Nat} (hc : c ≠ c') (hz : z < q) :
    ¬(c' * q ≤ c * q + z ∧ c * q + z < c' * q + q) := by
  rcases Nat.lt_or_gt_of_ne hc with hlt | hlt
  · have hend := RowMajor.lt hlt hz
    omega
  · have hstart := Nat.mul_le_mul_right q hlt
    rw [Nat.succ_mul] at hstart
    omega

variable {t : TileMem R p} {k c z : Nat}

theorem Placed.swap (h : t.Placed k) : t.swap_write_read.Placed (k + 1) where
  read d := by
    rw [readBuf_succ, ← h.write d]
    cases d <;> rfl
  write d := by
    rw [writeBuf_succ, ← h.read d]
    cases d <;> rfl

@[simp] theorem cell_swap (t : TileMem R p) (c z : Nat) : t.swap_write_read.cell c z = t.cell c z :=
  rfl

/-- A store through the write pointer fills the write buffer and nothing else. -/
theorem Placed.cell_store (h : t.Placed k) (d : Side) (src : Nat → R) (hz : z < p * p) :
    (t.store d src).cell c z = if c = writeBuf d k then src z else t.cell c z := by
  simp only [cell, store, h.write d, tileP]
  split
  next he => rw [he, copyN_of_mem hz]
  next hne => exact if_neg (buf_disjoint hne hz)

theorem Placed.store (h : t.Placed k) (d : Side) (src : Nat → R) : (t.store d src).Placed k where
  read d' := by rw [← h.read d']; cases d' <;> rfl
  write d' := by rw [← h.write d']; cases d' <;> rfl

/-- What a read pointer points to. -/
theorem Placed.offset_read (h : t.Placed k) (d : Side) :
    offset t.mem (t.read d) z = t.cell (readBuf d k) z := by
  rw [offset, h.read d, cell]

/-- The product is written to the last buffer. -/
theorem cell_storeC (f : Nat → R) (hc : c < 4) (hz : z < p * p) :
    (t.storeC f).cell c z = t.cell c z := by
  have hlt := RowMajor.lt hc hz
  exact if_neg (by simp only [tileC, tileP]; omega)

theorem cell_storeC_four (f : Nat → R) : (t.storeC f).cell 4 z = f z := by
  have hx : (4 * (p * p) + z) - t.tileC = z := Nat.add_sub_cancel_left _ _
  rw [cell, storeC]
  simp only [hx]
  exact if_pos (Nat.le_add_right _ _)

theorem Placed.storeC (h : t.Placed k) (f : Nat → R) : (t.storeC f).Placed k where
  read d' := by rw [← h.read d']; cases d' <;> rfl
  write d' := by rw [← h.write d']; cases d' <;> rfl

/-- The copy loop through the read pointer fills the read buffer. -/
theorem Placed.cell_gather (h : t.Placed k) (d : Side) {M initial : Nat} {src : Nat → R}
    (hM : 0 < M) (hz : z < p * p) :
    ({ t with mem := gatherTile M p initial src t.mem (t.read d) } : TileMem R p).cell c z =
      if c = readBuf d k then src (initial + z / p * M + z % p) else t.cell c z := by
  simp only [cell, h.read d, gatherTile_apply hM]
  by_cases he : c = readBuf d k
  · rw [if_pos he, he, if_pos (by omega), Nat.add_sub_cancel_left]
  · rw [if_neg he, if_neg (buf_disjoint he hz)]

theorem Placed.setMem (h : t.Placed k) (mem : Nat → R) : ({ t with mem := mem } : TileMem R p).Placed k
    where
  read d' := by rw [← h.read d']; cases d' <;> rfl
  write d' := by rw [← h.write d']; cases d' <;> rfl

end TileMem

/-! ## What an action can do to the frame -/

/-- The tile whose `tile_mem` an action changes. -/
def Act.target : Act n → Option (Tile n)
  | .gather _ i | .swap i | .multiply i => some i
  | .skewShift d i => some (d.dest i)
  | .shift d i => some (d.next i)
  | .scatterC _ | .test | .incr | .continuation => none

section Exec

variable [CommRing R] {blas : Blas R} {f f' : Frame R n p} {a : Act n}
  {os : List (Op (Cod n) (Act n))}

theorem exec_AB (h : exec blas a f = some (f', os)) : f'.A = f.A ∧ f'.B = f.B := by
  cases a <;> obtain ⟨rfl, -⟩ := Prod.mk.inj (Option.some.inj h) <;> exact ⟨rfl, rfl⟩

/-- Only the scatter loop writes to `C`. -/
theorem exec_C (h : exec blas a f = some (f', os)) :
    (∀ i, a ≠ .scatterC i) ∧ f'.C = f.C ∨ ∃ i, a = .scatterC i ∧ f'.C = { f.C with
      ptr := scatterTile f.C.M p (initialIndex n f.C.M p i) (f.allMatrices i).mem
        (f.allMatrices i).tileC f.C.ptr } := by
  cases a with
  | scatterC i =>
    obtain ⟨rfl, -⟩ := Prod.mk.inj (Option.some.inj h)
    exact Or.inr ⟨i, rfl, rfl⟩
  | gather d i | skewShift d i | test | swap i | incr | multiply i | shift d i | continuation =>
    obtain ⟨rfl, -⟩ := Prod.mk.inj (Option.some.inj h)
    exact Or.inl ⟨fun i => by simp, rfl⟩

/-- What an action makes of its target. -/
inductive TileStep (blas : Blas R) (f : Frame R n p) : Act n → Tile n → TileMem R p → Prop
  | gather (d : Side) (i : Tile n) : TileStep blas f (.gather d i) i { f.allMatrices i with
      mem := gatherTile (f.factor d).M p (initialIndex n (f.factor d).M p i) (f.factor d).ptr
        (f.allMatrices i).mem ((f.allMatrices i).read d) }
  | skewShift (d : Side) (i : Tile n) : TileStep blas f (.skewShift d i) (d.dest i)
      ((f.allMatrices (d.dest i)).store d
        (offset (f.allMatrices i).mem ((f.allMatrices i).read d)))
  | swap (i : Tile n) : TileStep blas f (.swap i) i (f.allMatrices i).swap_write_read
  | multiply (i : Tile n) : TileStep blas f (.multiply i) i
      ((f.allMatrices i).storeC (blas.dgemm p p p 1
        (offset (f.allMatrices i).mem (f.allMatrices i).tileA) p
        (offset (f.allMatrices i).mem (f.allMatrices i).tileB) p 1
        (offset (f.allMatrices i).mem (f.allMatrices i).tileC) p))
  | shift (d : Side) (i : Tile n) : TileStep blas f (.shift d i) (d.next i)
      ((f.allMatrices (d.next i)).store d
        (offset (f.allMatrices i).mem ((f.allMatrices i).read d)))

omit [CommRing R] in
theorem setTile_apply {j i : Tile n} {t : TileMem R p} :
    (f.setTile j t).allMatrices i = if i = j then t else f.allMatrices i := by
  simp only [Frame.setTile, Function.update_apply]

/-- **An action changes its target and no other tile.** -/
theorem exec_tile (h : exec blas a f = some (f', os)) (i : Tile n) :
    a.target = some i ∧ TileStep blas f a i (f'.allMatrices i) ∨
      a.target ≠ some i ∧ f'.allMatrices i = f.allMatrices i := by
  -- an update of one tile, described at that tile
  have hset : ∀ {j : Tile n} {t : TileMem R p}, TileStep blas f a j t → a.target = some j →
      f' = f.setTile j t → a.target = some i ∧ TileStep blas f a i (f'.allMatrices i) ∨
        a.target ≠ some i ∧ f'.allMatrices i = f.allMatrices i := by
    rintro j t hstep htarget rfl
    rw [setTile_apply]
    by_cases hj : i = j
    · subst hj
      rw [if_pos rfl]
      exact Or.inl ⟨htarget, hstep⟩
    · rw [if_neg hj, htarget]
      exact Or.inr ⟨fun hc => hj (Option.some.inj hc).symm, rfl⟩
  cases a with
  | gather d j => exact hset (.gather d j) rfl (Prod.mk.inj (Option.some.inj h)).1.symm
  | skewShift d j => exact hset (.skewShift d j) rfl (Prod.mk.inj (Option.some.inj h)).1.symm
  | swap j => exact hset (.swap j) rfl (Prod.mk.inj (Option.some.inj h)).1.symm
  | multiply j => exact hset (.multiply j) rfl (Prod.mk.inj (Option.some.inj h)).1.symm
  | shift d j => exact hset (.shift d j) rfl (Prod.mk.inj (Option.some.inj h)).1.symm
  | scatterC j | test | incr | continuation =>
    obtain ⟨rfl, -⟩ := Prod.mk.inj (Option.some.inj h)
    exact Or.inr ⟨by simp [Act.target], rfl⟩

/-- The buffer an action writes to, when the pointers of its target have been swapped
`k` times. -/
def Act.buffer (k : Nat) : Act n → Option Nat
  | .gather d _ => some (readBuf d k)
  | .skewShift d _ | .shift d _ => some (writeBuf d k)
  | .multiply _ => some 4
  | .scatterC _ | .test | .swap _ | .incr | .continuation => none

/-- **An action leaves every buffer alone but the one it writes to.** -/
theorem exec_cell (h : exec blas a f = some (f', os)) {i : Tile n} {k c z : Nat}
    (hp : (f.allMatrices i).Placed k) (hM : ∀ d, 0 < p → 0 < (f.factor d).M) (hc : c ≤ 4)
    (hz : z < p * p) (hne : ¬(a.target = some i ∧ a.buffer k = some c)) :
    (f'.allMatrices i).cell c z = (f.allMatrices i).cell c z := by
  have hpos : 0 < p := Nat.pos_of_mul_pos_left (Nat.lt_of_le_of_lt (Nat.zero_le z) hz)
  rcases exec_tile h i with ⟨htarget, hstep⟩ | ⟨-, heq⟩
  · have hbuf : a.buffer k ≠ some c := fun hb => hne ⟨htarget, hb⟩
    generalize f'.allMatrices i = τ at hstep
    cases hstep with
    | gather d _ =>
      rw [hp.cell_gather d (hM d hpos) hz, if_neg]
      exact fun hb => hbuf (congrArg some hb.symm)
    | skewShift d u =>
      rw [hp.cell_store d _ hz, if_neg]
      exact fun hb => hbuf (congrArg some hb.symm)
    | swap _ => rfl
    | multiply _ =>
      have : c ≠ 4 := fun hb => hbuf (congrArg some hb.symm)
      exact TileMem.cell_storeC _ (by omega) hz
    | shift d u =>
      rw [hp.cell_store d _ hz, if_neg]
      exact fun hb => hbuf (congrArg some hb.symm)
  · rw [heq]

end Exec

end Darts.CannonDouble
