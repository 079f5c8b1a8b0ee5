import Darts.CannonDouble.Buffers
import Darts.CannonDouble.Order

/-!
# The blocks in the double-buffered `cannonTP`

After `k + 1` swaps the read buffers of tile `t` hold the blocks `heldA t k` and
`heldB t k`; a write buffer holds the block of the next round from the moment the
neighbour has stored it (`arrived`). `Data` states this for every tile, with
swaps, arrivals and multiplications counted off the bodies.
-/

namespace Darts.CannonDouble

open Cannon Transition

variable {R : Type} {n p : Nat}

/-- Buffer `c` of a tile holds block `x` of the row-major matrix `m`. -/
def Holds (m : Nat → R) (t : TileMem R p) (c : Nat) (x : Tile n) : Prop :=
  ∀ u v, u < p → v < p → t.cell c (u * p + v) = m (entry n p x u v)

theorem Holds.congr {m : Nat → R} {t t' : TileMem R p} {c : Nat} {x : Tile n} (h : Holds m t c x)
    (hcell : ∀ z, z < p * p → t'.cell c z = t.cell c z) : Holds m t' c x := fun u v hu hv => by
  rw [hcell _ (RowMajor.lt hu hv), h u v hu hv]

variable [NeZero n] [CommRing R]

/-- How many blocks have been stored in a write buffer of tile `i`. -/
def arrived (s : State (Cod n) (Act n) (Frame R n p)) (d : Side) (i : Tile n) : Nat :=
  times s (.skewShift d (d.skewed i)) + times s (.shift d (d.feeder i))

/-- What the frame holds. -/
structure Data (a b : Nat → R) (s : State (Cod n) (Act n) (Frame R n p)) : Prop where
  A_eq : s.mem.A = ⟨n * p, n * p, a⟩
  B_eq : s.mem.B = ⟨n * p, n * p, b⟩
  C_dim : s.mem.C.M = n * p
  placed : ∀ i, (s.mem.allMatrices i).Placed (swaps s i)
  gathered : ∀ (d : Side) i, swaps s i = 0 → times s (.gather d i) = 1 →
    Holds (d.pick a b) (s.mem.allMatrices i) (readBuf d 0) i
  read_eq : ∀ (d : Side) i k, swaps s i = k + 1 →
    Holds (d.pick a b) (s.mem.allMatrices i) (readBuf d (k + 1)) (d.held i k)
  write_eq : ∀ (d : Side) i, arrived s d i = swaps s i + 1 →
    Holds (d.pick a b) (s.mem.allMatrices i) (writeBuf d (swaps s i)) (d.held i (swaps s i))
  tileC : ∀ i u v, u < p → v < p →
    (s.mem.allMatrices i).cell 4 (u * p + v) = partialSum p a b i (times s (.multiply i)) u v
  scattered : ∀ i, times s (.scatterC i) = 1 → ∀ u v, u < p → v < p →
    s.mem.C.ptr (entry n p i u v) = partialSum p a b i n u v

section Data

variable {blas : Blas R} {a b : Nat → R} {s t : State (Cod n) (Act n) (Frame R n p)}

theorem Data.init (a b c : Nat → R) : Data a b (launched n p a b c) := by
  have htimes : ∀ x : Act n, times (launched n p a b c) x = 0 := fun x => rfl
  have hswaps : ∀ i, swaps (launched n p a b c) i = 0 := fun i => rfl
  refine ⟨rfl, rfl, rfl, ?_, ?_, ?_, ?_, ?_, ?_⟩
  · intro i
    rw [hswaps]
    constructor <;> intro d <;> cases d <;>
      simp [launched, frame, TileMem.read, TileMem.write, readBuf, writeBuf, Side.pick]
  · exact fun d i _ hi => absurd hi (by rw [htimes]; simp)
  · exact fun d i k hk => absurd hk (by rw [hswaps]; simp)
  · exact fun d i hi => absurd hi (by rw [arrived, htimes, htimes, hswaps]; simp)
  · intro i u v _ _
    rw [htimes, partialSum, Finset.range_zero, Finset.sum_empty]
    rfl
  · exact fun i hi => absurd hi (by rw [htimes]; simp)

theorem Data.factor_eq (h : Data a b s) (d : Side) : s.mem.factor d = ⟨n * p, n * p, d.pick a b⟩ := by
  cases d
  · exact h.A_eq
  · exact h.B_eq

theorem Data.factor_pos (h : Data a b s) (d : Side) (hp : 0 < p) : 0 < (s.mem.factor d).M := by
  rw [h.factor_eq]
  exact Nat.mul_pos (Nat.pos_of_neZero n) hp

/-- The data only depend on the frame and the counts. -/
private theorem Data.congr (h : Data a b s) (hmem : t.mem = s.mem)
    (hswaps : ∀ i, swaps t i = swaps s i)
    (htimes : ∀ x : Act n, x.owner ≠ .loop → times t x = times s x) : Data a b t := by
  refine ⟨?_, ?_, ?_, ?_, ?_, ?_, ?_, ?_, ?_⟩
  · rw [hmem]; exact h.A_eq
  · rw [hmem]; exact h.B_eq
  · rw [hmem]; exact h.C_dim
  · intro i
    rw [hmem, hswaps]
    exact h.placed i
  · intro d i
    rw [hmem, hswaps, htimes _ (by cases d <;> simp [Act.owner])]
    exact h.gathered d i
  · intro d i
    rw [hmem, hswaps]
    exact h.read_eq d i
  · intro d i
    rw [arrived, htimes _ (by simp [Act.owner]), htimes _ (by simp [Act.owner]), hmem, hswaps]
    exact h.write_eq d i
  · intro i
    rw [hmem, htimes _ (by simp [Act.owner])]
    exact h.tileC i
  · intro i
    rw [hmem, htimes _ (by simp [Act.owner])]
    exact h.scattered i

/-- A step that carries the action `x`. -/
structure Carries (blas : Blas R) (s t : State (Cod n) (Act n) (Frame R n p)) (l : Label (Cod n))
    (x : Act n) : Prop where
  step : (cannonTP blas n p).step s l = some t
  next : s.nextAct l = some x
  mem : ∃ new, exec blas x s.mem = some (t.mem, new)

namespace Carries

variable {l : Label (Cod n)} {x : Act n}

omit [NeZero n] in
theorem tile (hx : Carries blas s t l x) (i : Tile n) :
    x.target = some i ∧ TileStep blas s.mem x i (t.mem.allMatrices i) ∨
      x.target ≠ some i ∧ t.mem.allMatrices i = s.mem.allMatrices i := by
  obtain ⟨new, hexec⟩ := hx.mem
  exact exec_tile hexec i

theorem swaps_eq (hx : Carries blas s t l x) (hc : Ctl blas s) (i : Tile n) :
    swaps t i = swaps s i + if x = .swap i then 1 else 0 := by
  rw [hc.swaps_step hx.step i, hx.next]
  simp only [Option.some.injEq]

theorem times_eq (hx : Carries blas s t l x) (hc : Ctl blas s) {y : Act n} (hy : y.owner ≠ .loop) :
    times t y = times s y + if x = y then 1 else 0 := by
  rw [hc.times_step hx.step hy, hx.next]
  simp only [Option.some.injEq]

theorem arrived_eq (hx : Carries blas s t l x) (hc : Ctl blas s) (d : Side) (i : Tile n) :
    arrived t d i = arrived s d i + (if x = .skewShift d (d.skewed i) then 1 else 0) +
      if x = .shift d (d.feeder i) then 1 else 0 := by
  rw [arrived, arrived, hx.times_eq hc (by simp [Act.owner]), hx.times_eq hc (by simp [Act.owner])]
  omega

omit [NeZero n] in
/-- The codelet that executes the action is under way, and has begun one more of it
than it has executed. -/
theorem crest_ne (hx : Carries blas s t l x) (hc : Ctl blas s) : crest s x.owner ≠ [] := by
  obtain ⟨j, os, -, -, hcs⟩ := hc.owner hx.next
  rw [hcs]
  simp

omit [NeZero n] in
theorem times_succ (hx : Carries blas s t l x) (hc : Ctl blas s) (ho : x.owner ≠ .loop) :
    times s x + 1 = s.fired x.owner := by
  obtain ⟨j, os, -, -, hcs⟩ := hc.owner hx.next
  have hle := hc.count_le ho
  have hone := (hc.suffix x.owner ho).sublist.count_le (.act x)
  rw [count_owner ho] at hone
  have hpos : 0 < (crest s x.owner).count (.act x) := by
    rw [hcs]
    simp
  rw [times]
  omega

omit [NeZero n] in
/-- A block is copied in before the first swap. -/
theorem gather_phase {d : Side} {i : Tile n} (hx : Carries blas s t l (.gather d i))
    (hc : Ctl blas s) (j : Tile n) : swaps s j = 0 := by
  have hne := hx.crest_ne hc
  have hcopy : crest s (copy d i) ≠ [] := by cases d <;> exact hne
  rw [swaps, (hc.opening (hc.gathering hcopy).2).1, Nat.zero_sub]

omit [NeZero n] in
/-- A block is skewed before the first swap and after it has been copied in. -/
theorem skew_phase {d : Side} {u : Tile n} (hx : Carries blas s t l (.skewShift d u))
    (hc : Ctl blas s) : (∀ j, swaps s j = 0) ∧ times s (.gather d u) = 1 := by
  have hne : crest s (.skew u) ≠ [] := hx.crest_ne hc
  have hpos := hc.single (.skew u) _ hne
  have htodo : todo s (.skew u) ≠ [] := by
    rw [todo, if_neg (by omega)]
    exact hne
  refine ⟨fun j => ?_, (hc.gathered (by omega) d).2⟩
  rw [swaps, (hc.opening htodo).1, Nat.zero_sub]

/-- A block is handed on, and used, in the round its tile has been swapped for. -/
theorem compute_phase {i : Tile n} (hx : Carries blas s t l x) (hc : Ctl blas s)
    (ho : x.owner = .compute i) : ∃ k, times s x = k ∧ ∀ j, swaps s j = k + 1 := by
  have hne := hx.crest_ne hc
  rw [ho] at hne
  obtain ⟨hpos, hfired, hswaps, -⟩ := hc.computing (Or.inr hne)
  have hpool : s.pool (.compute i) = 0 := by
    by_contra hp
    exact hne (hc.idle (by omega))
  have hsucc := hx.times_succ hc (by rw [ho]; simp)
  rw [ho] at hsucc
  exact ⟨times s x, rfl, fun j => by rw [hswaps j]; omega⟩

/-- **A tile is swapped when the round's blocks have arrived**, and not twice. -/
theorem swap_phase {i : Tile n} (hx : Carries blas s t l (.swap i)) (hc : Ctl blas s)
    (d : Side) (j : Tile n) : arrived s d j = swaps s i + 1 := by
  obtain ⟨k, os, -, -, hcs⟩ := hc.owner hx.next
  obtain ⟨hswaps, hcomp, hskew⟩ := hc.swapping (i := i) (by rw [show crest s .loop = _ from hcs]; simp)
  obtain ⟨hnil, hfired⟩ := hcomp (d.feeder j)
  rw [arrived, hskew, times]
  simp only [Act.owner, hnil]
  simp
  omega

omit [NeZero n] in
/-- A tile is copied back after its last round. -/
theorem scatter_phase {i : Tile n} (hx : Carries blas s t l (.scatterC i)) (hc : Ctl blas s) :
    times s (.multiply i) = n := by
  have hne : crest s (.copyC i) ≠ [] := hx.crest_ne hc
  have hpos := hc.single (.copyC i) _ hne
  obtain ⟨hfired, hnil⟩ := hc.collecting (i := i) (by omega) i
  rw [times]
  simp only [Act.owner, hnil]
  simpa using hfired

end Carries

section Step

variable {l : Label (Cod n)} {x : Act n}

/-- The pointers of a tile move with its swaps only. -/
private theorem Data.placed_step (h : Data a b s) (hc : Ctl blas s) (hx : Carries blas s t l x)
    (i : Tile n) : (t.mem.allMatrices i).Placed (swaps t i) := by
  have hp := h.placed i
  rw [hx.swaps_eq hc]
  rcases hx.tile i with ⟨-, hstep⟩ | ⟨hne, heq⟩
  · generalize t.mem.allMatrices i = τ at hstep
    cases hstep with
    | gather d _ => exact hp.setMem _
    | skewShift d u => exact hp.store d _
    | swap _ =>
      rw [if_pos rfl]
      exact hp.swap
    | multiply _ => exact hp.storeC _
    | shift d u => exact hp.store d _
  · rw [heq, if_neg (by rintro rfl; exact hne rfl)]
    exact hp

/-- A buffer nobody writes to keeps its block. -/
private theorem Data.holds (h : Data a b s) (hx : Carries blas s t l x) {m : Nat → R}
    {i y : Tile n} {c : Nat} (hc : c ≤ 4)
    (hne : ¬(x.target = some i ∧ x.buffer (swaps s i) = some c))
    (hold : Holds m (s.mem.allMatrices i) c y) : Holds m (t.mem.allMatrices i) c y := by
  obtain ⟨new, hexec⟩ := hx.mem
  exact hold.congr fun z hz => exec_cell hexec (h.placed i) h.factor_pos hc hz hne

/-- The block that is copied in stays in the first read buffer until the swap. -/
private theorem Data.gathered_step (h : Data a b s) (hc : Ctl blas s) (hx : Carries blas s t l x)
    (d : Side) (i : Tile n) (hi : swaps t i = 0) (hg : times t (.gather d i) = 1) :
    Holds (d.pick a b) (t.mem.allMatrices i) (readBuf d 0) i := by
  rw [hx.swaps_eq hc] at hi
  have hi0 : swaps s i = 0 := by omega
  have hp := h.placed i
  rw [hi0] at hp
  by_cases hgather : x = .gather d i
  · subst hgather
    obtain ⟨new, hexec⟩ := hx.mem
    rw [← (Prod.mk.inj (Option.some.inj hexec)).1, setTile_apply, if_pos rfl]
    intro u v hu hv
    obtain ⟨hdiv, hmod⟩ := RowMajor.div_mod (u := u) hv
    rw [hp.cell_gather d (h.factor_pos d (by omega)) (RowMajor.lt hu hv), if_pos rfl, hdiv, hmod,
      h.factor_eq]
    rfl
  · rw [hx.times_eq hc (by cases d <;> simp [Act.owner]), if_neg hgather] at hg
    refine h.holds hx (Nat.le_of_lt (readBuf_lt d 0)) ?_ (h.gathered d i hi0 hg)
    intro hboth
    obtain ⟨htarget, hbuf⟩ := hboth
    rw [hi0] at hbuf
    cases x <;> simp [Act.target, Act.buffer] at htarget hbuf
    case gather d' j => exact hgather (by rw [readBuf_inj hbuf, htarget])
    case skewShift d' j => exact readBuf_ne_writeBuf d d' 0 hbuf.symm
    case shift d' j => exact readBuf_ne_writeBuf d d' 0 hbuf.symm
    case multiply j =>
      have := readBuf_lt d 0
      omega

/-- **A swap turns the block that has arrived into the one that is read.** -/
private theorem Data.read_step (h : Data a b s) (hc : Ctl blas s) (hx : Carries blas s t l x)
    (d : Side) (i : Tile n) (k : Nat) (hi : swaps t i = k + 1) :
    Holds (d.pick a b) (t.mem.allMatrices i) (readBuf d (k + 1)) (d.held i k) := by
  rw [hx.swaps_eq hc] at hi
  by_cases hswap : x = .swap i
  · subst hswap
    rw [if_pos rfl] at hi
    obtain ⟨new, hexec⟩ := hx.mem
    rw [← (Prod.mk.inj (Option.some.inj hexec)).1, setTile_apply, if_pos rfl]
    have hw := h.write_eq d i (hx.swap_phase hc d i)
    rw [Nat.succ.inj hi] at hw
    exact hw
  · rw [if_neg hswap, Nat.add_zero] at hi
    refine h.holds hx (Nat.le_of_lt (readBuf_lt d _)) ?_ (h.read_eq d i k hi)
    intro hboth
    obtain ⟨htarget, hbuf⟩ := hboth
    rw [hi] at hbuf
    cases x <;> simp [Act.target, Act.buffer] at htarget hbuf
    case gather d' j =>
      have := hx.gather_phase hc i
      omega
    case skewShift d' j => exact readBuf_ne_writeBuf d d' _ hbuf.symm
    case shift d' j => exact readBuf_ne_writeBuf d d' _ hbuf.symm
    case multiply j =>
      have := readBuf_lt d (k + 1)
      omega

/-- **The block a neighbour stores is the one of the next round.** -/
private theorem Data.write_step (h : Data a b s) (hc : Ctl blas s) (hx : Carries blas s t l x)
    (d : Side) (i : Tile n) (hi : arrived t d i = swaps t i + 1) :
    Holds (d.pick a b) (t.mem.allMatrices i) (writeBuf d (swaps t i)) (d.held i (swaps t i)) := by
  have hp := h.placed i
  rw [hx.swaps_eq hc] at hi ⊢
  rw [hx.arrived_eq hc] at hi
  by_cases hswap : x = .swap i
  · subst hswap
    have := hx.swap_phase hc d i
    simp at hi
    omega
  rw [if_neg hswap, Nat.add_zero] at hi ⊢
  by_cases hskew : x = .skewShift d (d.skewed i)
  · -- the first block comes from the skew
    subst hskew
    obtain ⟨hzero, hg⟩ := hx.skew_phase hc
    have hblock := h.gathered d (d.skewed i) (hzero _) hg
    have hp' := h.placed (d.skewed i)
    obtain ⟨new, hexec⟩ := hx.mem
    rw [← (Prod.mk.inj (Option.some.inj hexec)).1, Side.dest_skewed, setTile_apply, if_pos rfl, hzero]
    rw [hzero] at hp hp'
    intro u v hu hv
    rw [hp.cell_store d _ (RowMajor.lt hu hv), if_pos rfl, hp'.offset_read, hblock u v hu hv]
    have hheld := d.held_dest (d.skewed i)
    rw [Side.dest_skewed] at hheld
    rw [hheld]
  by_cases hshift : x = .shift d (d.feeder i)
  · -- the others from the neighbour, which reads one block behind
    subst hshift
    obtain ⟨k, -, hswaps⟩ := hx.compute_phase hc rfl
    have hblock := h.read_eq d (d.feeder i) k (hswaps _)
    have hp' := h.placed (d.feeder i)
    obtain ⟨new, hexec⟩ := hx.mem
    rw [← (Prod.mk.inj (Option.some.inj hexec)).1, Side.next_feeder, setTile_apply, if_pos rfl, hswaps]
    rw [hswaps] at hp hp'
    intro u v hu hv
    rw [hp.cell_store d _ (RowMajor.lt hu hv), if_pos rfl, hp'.offset_read, hblock u v hu hv]
    have hheld := d.held_next (d.feeder i) k
    rw [Side.next_feeder] at hheld
    rw [hheld]
  · rw [if_neg hskew, if_neg hshift, Nat.add_zero, Nat.add_zero] at hi
    refine h.holds hx (Nat.le_of_lt (writeBuf_lt d _)) ?_ (h.write_eq d i hi)
    intro hboth
    obtain ⟨htarget, hbuf⟩ := hboth
    cases x <;> simp [Act.target, Act.buffer] at htarget hbuf
    case gather d' j => exact readBuf_ne_writeBuf d' d _ hbuf
    case skewShift d' j =>
      obtain rfl := writeBuf_inj hbuf
      exact hskew (by rw [← htarget, Side.skewed_dest])
    case shift d' j =>
      obtain rfl := writeBuf_inj hbuf
      exact hshift (by rw [← htarget, Side.feeder_next])
    case multiply j =>
      have := writeBuf_lt d (swaps s i)
      omega

/-- **One round adds one product of blocks** to the tile, those with the inner index
the two sides agree on. -/
private theorem Data.tileC_step (h : Data a b s) (hc : Ctl blas s) (hx : Carries blas s t l x)
    (i : Tile n) {u v : Nat} (hu : u < p) (hv : v < p) :
    (t.mem.allMatrices i).cell 4 (u * p + v) =
      partialSum p a b i (times t (.multiply i)) u v := by
  have htimes := hx.times_eq hc (y := .multiply i) (by simp [Act.owner])
  by_cases hmul : x = .multiply i
  · subst hmul
    obtain ⟨k, hk, hswaps⟩ := hx.compute_phase hc rfl
    have hp := h.placed i
    rw [hswaps] at hp
    rw [if_pos rfl, hk] at htimes
    obtain ⟨new, hexec⟩ := hx.mem
    rw [← (Prod.mk.inj (Option.some.inj hexec)).1, setTile_apply, if_pos rfl,
      TileMem.cell_storeC_four,
      blas.dgemm_entry (Nat.le_refl p) (Nat.le_refl p) (Nat.le_refl p) hu hv, htimes, partialSum,
      Finset.sum_range_succ, one_mul, one_mul, add_comm]
    congr 1
    · have := h.tileC i u v hu hv
      rw [hk] at this
      exact this
    · refine Finset.sum_congr rfl fun w hw => ?_
      have hw := Finset.mem_range.mp hw
      have hA : offset (s.mem.allMatrices i).mem (s.mem.allMatrices i).tileA (u * p + w) = _ :=
        (hp.offset_read .A).trans (h.read_eq .A i k (hswaps i) u w hu hw)
      have hB : offset (s.mem.allMatrices i).mem (s.mem.allMatrices i).tileB (w * p + v) = _ :=
        (hp.offset_read .B).trans (h.read_eq .B i k (hswaps i) w v hw hv)
      rw [hA, hB]
      rfl
  · rw [htimes, if_neg hmul, Nat.add_zero, ← h.tileC i u v hu hv]
    obtain ⟨new, hexec⟩ := hx.mem
    refine exec_cell hexec (h.placed i) h.factor_pos (Nat.le_refl 4) (RowMajor.lt hu hv) ?_
    intro hboth
    obtain ⟨htarget, hbuf⟩ := hboth
    cases x <;> simp [Act.target, Act.buffer] at htarget hbuf
    case gather d' j =>
      have := readBuf_lt d' (swaps s i)
      omega
    case skewShift d' j =>
      have := writeBuf_lt d' (swaps s i)
      omega
    case shift d' j =>
      have := writeBuf_lt d' (swaps s i)
      omega
    case multiply j => exact hmul (congrArg _ htarget)

/-- The scatter loop copies the finished product of a tile to its place in `C`,
and no other tile's. -/
private theorem Data.scattered_step (h : Data a b s) (hc : Ctl blas s) (hx : Carries blas s t l x)
    (i : Tile n) (hi : times t (.scatterC i) = 1) {u v : Nat} (hu : u < p) (hv : v < p) :
    t.mem.C.ptr (entry n p i u v) = partialSum p a b i n u v := by
  have hn : 0 < n := Nat.pos_of_neZero n
  have hM : 0 < n * p := Nat.mul_pos hn (by omega)
  rw [hx.times_eq hc (by simp [Act.owner])] at hi
  obtain ⟨new, hexec⟩ := hx.mem
  rcases exec_C hexec with ⟨hno, hC⟩ | ⟨j, rfl, hC⟩
  · rw [hC]
    exact h.scattered i (by rwa [if_neg (hno i)] at hi) u v hu hv
  · obtain ⟨hin, hout⟩ := scatterTile_spec (initialIndex n (n * p) p j) (4 * (p * p))
      (s.mem.allMatrices j).mem s.mem.C.ptr hM
      (Nat.le_mul_of_pos_left p hn)
    rw [hC]
    simp only [h.C_dim, TileMem.tileC, TileMem.tileP]
    by_cases hij : i = j
    · subst hij
      have htile := h.tileC i u v hu hv
      rw [hx.scatter_phase hc] at htile
      rw [entry, hin u v hu hv, ← htile, Nat.add_assoc]
      rfl
    · rw [hout _ fun u' v' hu' hv' he => hij (entry_inj hu hv hu' hv' he).1]
      exact h.scattered i (by rwa [if_neg (by simpa using Ne.symm hij)] at hi) u v hu hv

end Step

/-- **One step keeps the data invariant.** -/
theorem Data.step (h : Data a b s) (hc : Ctl blas s) {l : Label (Cod n)}
    (hl : (cannonTP blas n p).step s l = some t) : Data a b t := by
  rcases Program.mem_of_step hl with ⟨hnone, hmem⟩ | ⟨x, new, hx, hexec⟩
  · refine h.congr hmem ?_ ?_
    · intro i
      rw [hc.swaps_step hl, hnone]
      simp
    · intro x hx
      rw [hc.times_step hl hx, hnone]
      simp
  · have hrun : exec blas x s.mem = some (t.mem, new) := hexec
    have hcar : Carries blas s t l x := ⟨hl, hx, new, hrun⟩
    obtain ⟨hA, hB⟩ := exec_AB hrun
    refine ⟨hA.trans h.A_eq, hB.trans h.B_eq, ?_, ?_, ?_, ?_, ?_, ?_, ?_⟩
    · rcases exec_C hrun with ⟨-, hC⟩ | ⟨j, -, hC⟩ <;> rw [hC] <;> exact h.C_dim
    · exact h.placed_step hc hcar
    · exact h.gathered_step hc hcar
    · exact h.read_step hc hcar
    · exact h.write_step hc hcar
    · exact fun i u v hu hv => h.tileC_step hc hcar i hu hv
    · exact fun i hi u v hu hv => h.scattered_step hc hcar i hi hu hv

/-- **The data invariant holds in every reachable state.** -/
theorem Data.reachable {c : Nat → R}
    (hs : Reachable (cannonTP blas n p).step (launched n p a b c) s) : Data a b s :=
  hs.invariant (Data a b) (Data.init a b c)
    fun _ _ _ hr hi hl => hi.step (Ctl.reachable hr) hl

end Data

end Darts.CannonDouble
