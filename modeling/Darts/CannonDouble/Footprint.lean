import Darts.CannonDouble.Buffers
import Darts.Lib.Footprint
import Darts.Threading.Atomic

/-!
# What the codelets read and write

The places of a frame are the elements of the three matrices, the entries of the
tiles' allocations, the tiles' pointers and the loop codelet's counter. `reads` and
`writes` say for every action which of them it touches, in a given frame, since the
buffers are found through the pointers. `opMem_within` shows that this is all an
action depends on and all it changes.
-/

namespace Darts.CannonDouble

open Cannon Footprint

variable {R : Type} {n p : Nat}

/-- The places of a frame. -/
inductive Loc (n : Nat)
  /-- An element of `A` or of `B`. -/
  | elem (d : Side) (z : Nat)
  | C (z : Nat)
  /-- An entry of the allocation of a tile. -/
  | mem (i : Tile n) (z : Nat)
  /-- The four pointers of a tile that are swapped. -/
  | pointers (i : Tile n)
  /-- The dimensions of the matrices. -/
  | sizes
  | curIterations
  | continuations

/-- Two frames hold the same at a place. -/
def agree : Loc n → Frame R n p → Frame R n p → Prop
  | .elem d z, f, g => (f.factor d).ptr z = (g.factor d).ptr z
  | .C z, f, g => f.C.ptr z = g.C.ptr z
  | .mem i z, f, g => (f.allMatrices i).mem z = (g.allMatrices i).mem z
  | .pointers i, f, g => ∀ d, (f.allMatrices i).read d = (g.allMatrices i).read d ∧
      (f.allMatrices i).write d = (g.allMatrices i).write d
  | .sizes, f, g => (∀ d, (f.factor d).M = (g.factor d).M ∧ (f.factor d).N = (g.factor d).N) ∧
      f.C.M = g.C.M ∧ f.C.N = g.C.N
  | .curIterations, f, g => f.curIterations = g.curIterations
  | .continuations, f, g => f.continuations = g.continuations

theorem TileMem.ext_iff' {t t' : TileMem R p} (hmem : ∀ z, t.mem z = t'.mem z)
    (hptr : ∀ d, t.read d = t'.read d ∧ t.write d = t'.write d) : t = t' := by
  cases t
  cases t'
  have hA := hptr .A
  have hB := hptr .B
  simp only [TileMem.read, TileMem.write] at hA hB
  simp only [TileMem.mk.injEq]
  exact ⟨funext hmem, hA.1, hA.2, hB.1, hB.2⟩

/-- A frame as a store. -/
def store (R : Type) (n p : Nat) : Store (Frame R n p) (Loc n) where
  agree := agree
  refl l f := by cases l <;> simp [agree]
  symm {l f g} h := by
    cases l with
    | pointers i => exact fun d => ⟨(h d).1.symm, (h d).2.symm⟩
    | sizes => exact ⟨fun d => ⟨(h.1 d).1.symm, (h.1 d).2.symm⟩, h.2.1.symm, h.2.2.symm⟩
    | elem d z | C z | mem i z | curIterations | continuations => exact Eq.symm h
  trans {l f g k} h h' := by
    cases l with
    | pointers i => exact fun d => ⟨(h d).1.trans (h' d).1, (h d).2.trans (h' d).2⟩
    | sizes =>
      exact ⟨fun d => ⟨(h.1 d).1.trans (h'.1 d).1, (h.1 d).2.trans (h'.1 d).2⟩,
        h.2.1.trans h'.2.1, h.2.2.trans h'.2.2⟩
    | elem d z | C z | mem i z | curIterations | continuations => exact Eq.trans h h'
  ext {f g} h := by
    obtain ⟨hsize, hCM, hCN⟩ := h .sizes
    have mat : ∀ {x y : Mat R}, x.M = y.M → x.N = y.N → (∀ z, x.ptr z = y.ptr z) → x = y := by
      rintro ⟨_, _, _⟩ ⟨_, _, _⟩ hM hN hptr
      simp only [Mat.mk.injEq]
      exact ⟨hM, hN, funext hptr⟩
    have hA : f.A = g.A := mat (hsize .A).1 (hsize .A).2 fun z => h (.elem .A z)
    have hB : f.B = g.B := mat (hsize .B).1 (hsize .B).2 fun z => h (.elem .B z)
    have hC : f.C = g.C := mat hCM hCN fun z => h (.C z)
    have htiles : f.allMatrices = g.allMatrices :=
      funext fun i => TileMem.ext_iff' (fun z => h (.mem i z)) (h (.pointers i))
    have hcur : f.curIterations = g.curIterations := h .curIterations
    have hcont : f.continuations = g.continuations := h .continuations
    cases f
    cases g
    simp only [Frame.mk.injEq]
    exact ⟨hA, hB, hC, htiles, hcur, hcont⟩

/-! ## Reads and writes -/

/-- `p * p` entries of a tile's allocation. -/
def entries (p : Nat) (i : Tile n) (o : Nat) : Set (Loc n) := {l | ∃ z < p * p, l = .mem i (o + z)}

/-- Where the elements of tile `i` are in an `M` by `M` matrix. -/
def elements (M p : Nat) (i : Tile n) (place : Nat → Loc n) : Set (Loc n) :=
  {l | ∃ u v, u < p ∧ v < p ∧ l = place (initialIndex n M p i + u * M + v)}

/-- What an action reads. -/
def Act.reads (f : Frame R n p) : Act n → Set (Loc n)
  | .gather d i => {.sizes, .pointers i} ∪ elements (f.factor d).M p i (.elem d)
  | .scatterC i => {.sizes} ∪ entries p i (f.allMatrices i).tileC
  | .skewShift d i => {.pointers i, .pointers (d.dest i)} ∪ entries p i ((f.allMatrices i).read d)
  | .test | .incr => {.curIterations}
  | .swap i => {.pointers i}
  | .multiply i => {.pointers i} ∪ (entries p i (f.allMatrices i).tileA ∪
      (entries p i (f.allMatrices i).tileB ∪ entries p i (f.allMatrices i).tileC))
  | .shift d i => {.pointers i, .pointers (d.next i)} ∪ entries p i ((f.allMatrices i).read d)
  | .continuation => {.continuations}

/-- What an action writes. -/
def Act.writes (f : Frame R n p) : Act n → Set (Loc n)
  | .gather d i => entries p i ((f.allMatrices i).read d)
  | .scatterC i => elements f.C.M p i .C
  | .skewShift d i => entries p (d.dest i) ((f.allMatrices (d.dest i)).write d)
  | .test => ∅
  | .swap i => {.pointers i}
  | .incr => {.curIterations}
  | .multiply i => entries p i (f.allMatrices i).tileC
  | .shift d i => entries p (d.next i) ((f.allMatrices (d.next i)).write d)
  | .continuation => {.continuations}

section Within

variable {f t : Frame R n p}

/-- An update of one tile's allocation, at a place. -/
theorem agree_setMem {j : Tile n} {m : Nat → R} {l : Loc n}
    (h : ∀ z, l = .mem j z → m z = (t.allMatrices j).mem z) :
    agree l (t.setTile j { t.allMatrices j with mem := m }) t := by
  cases l with
  | mem i z =>
    show ((t.setTile j _).allMatrices i).mem z = _
    rw [setTile_apply]
    split
    next hi => subst hi; exact h z rfl
    next => rfl
  | pointers i =>
    intro d
    rw [setTile_apply]
    split
    next hi => subst hi; cases d <;> exact ⟨rfl, rfl⟩
    next => exact ⟨rfl, rfl⟩
  | elem d z => cases d <;> rfl
  | sizes => exact ⟨fun d => by cases d <;> exact ⟨rfl, rfl⟩, rfl, rfl⟩
  | C z | curIterations | continuations => rfl

/-- Two updates of the same tile's allocation, at a place of it. -/
theorem agree_setMem_mem {j : Tile n} {m m' : Nat → R} {z : Nat} (h : m z = m' z) :
    agree (.mem j z) (f.setTile j { f.allMatrices j with mem := m })
      (t.setTile j { t.allMatrices j with mem := m' }) := by
  show ((f.setTile j _).allMatrices j).mem z = ((t.setTile j _).allMatrices j).mem z
  rw [setTile_apply, setTile_apply, if_pos rfl, if_pos rfl]
  exact h

variable [CommRing R] {blas : Blas R}

/-- The frame after an action. -/
abbrev after (blas : Blas R) (a : Act n) (f : Frame R n p) : Frame R n p :=
  (cannonTP blas n p).opMem f (.act a)

private theorem gather_within (d : Side) (i : Tile n) (hM : 0 < (f.factor d).M) :
    Within (store R n p) (after blas (.gather d i)) f ((Act.gather d i).reads f)
      ((Act.gather d i).writes f) := by
  have same : ∀ t : Frame R n p, (∀ l ∈ (Act.gather d i).reads f, agree l f t) →
      (f.factor d).M = (t.factor d).M ∧ (f.allMatrices i).read d = (t.allMatrices i).read d :=
    fun t ht => ⟨((ht .sizes (Or.inl (Or.inl rfl))).1 d).1,
      (ht (.pointers i) (Or.inl (Or.inr rfl)) d).1⟩
  refine ⟨fun t ht l hl => ?_, fun t ht l hl => ?_⟩
  · obtain ⟨hsize, hread⟩ := same t ht
    refine agree_setMem fun z hz => ?_
    simp only [← hsize, ← hread, gatherTile_apply hM]
    refine if_neg fun hin => hl ⟨z - (f.allMatrices i).read d, by omega, ?_⟩
    rw [hz, Nat.add_sub_cancel' hin.1]
  · obtain ⟨hsize, hread⟩ := same t ht
    obtain ⟨z, hz, rfl⟩ := hl
    refine agree_setMem_mem ?_
    simp only [← hsize, ← hread, gatherTile_apply hM, Nat.add_sub_cancel_left]
    rw [if_pos (by omega), if_pos (by omega)]
    have hp : 0 < p := Nat.pos_of_mul_pos_left (Nat.lt_of_le_of_lt (Nat.zero_le z) hz)
    exact ht (.elem d _) (Or.inr ⟨z / p, z % p, Nat.div_lt_of_lt_mul hz, Nat.mod_lt _ hp, rfl⟩)

/-- Moving the read block of one tile to the write buffer of another. -/
private theorem move_within (d : Side) {i j : Tile n} {a : Act n}
    (hreads : a.reads f = {.pointers i, .pointers j} ∪ entries p i ((f.allMatrices i).read d))
    (hwrites : a.writes f = entries p j ((f.allMatrices j).write d))
    (hafter : ∀ t : Frame R n p, after blas a t = t.setTile j
      ((t.allMatrices j).store d (offset (t.allMatrices i).mem ((t.allMatrices i).read d)))) :
    Within (store R n p) (after blas a) f (a.reads f) (a.writes f) := by
  rw [hreads, hwrites]
  have same : ∀ t : Frame R n p,
      (∀ l ∈ {.pointers i, .pointers j} ∪ entries p i ((f.allMatrices i).read d), agree l f t) →
      (f.allMatrices i).read d = (t.allMatrices i).read d ∧
        (f.allMatrices j).write d = (t.allMatrices j).write d :=
    fun t ht => ⟨(ht (.pointers i) (Or.inl (Or.inl rfl)) d).1,
      (ht (.pointers j) (Or.inl (Or.inr rfl)) d).2⟩
  refine ⟨fun t ht l hl => ?_, fun t ht l hl => ?_⟩
  · obtain ⟨hread, hwrite⟩ := same t ht
    rw [hafter]
    refine agree_setMem fun z hz => ?_
    rw [← hwrite]
    refine if_neg fun hin => hl ⟨z - (f.allMatrices j).write d, by
      simp only [TileMem.tileP] at hin
      omega, ?_⟩
    rw [hz, Nat.add_sub_cancel' hin.1]
  · obtain ⟨hread, hwrite⟩ := same t ht
    obtain ⟨z, hz, rfl⟩ := hl
    rw [hafter, hafter]
    refine agree_setMem_mem ?_
    rw [← hwrite, copyN_of_mem (show z < (f.allMatrices j).tileP from hz),
      copyN_of_mem (show z < (t.allMatrices j).tileP from hz), ← hread]
    exact ht (.mem i _) (Or.inr ⟨z, hz, rfl⟩)

private theorem multiply_within (i : Tile n) :
    Within (store R n p) (after blas (.multiply i)) f ((Act.multiply i).reads f)
      ((Act.multiply i).writes f) := by
  have same : ∀ t : Frame R n p, (∀ l ∈ (Act.multiply i).reads f, agree l f t) →
      (f.allMatrices i).tileA = (t.allMatrices i).tileA ∧
        (f.allMatrices i).tileB = (t.allMatrices i).tileB := fun t ht =>
    ⟨(ht (.pointers i) (Or.inl rfl) .A).1, (ht (.pointers i) (Or.inl rfl) .B).1⟩
  refine ⟨fun t ht l hl => ?_, fun t ht l hl => ?_⟩
  · refine agree_setMem fun z hz => ?_
    show (if 4 * (p * p) ≤ z then _ else _) = _
    split
    next hge =>
      have hout : z - 4 * (p * p) ≥ p * p := by
        by_contra hlt
        exact hl ⟨z - 4 * (p * p), by omega, by rw [hz]; exact congrArg _ (Nat.add_sub_cancel' hge).symm⟩
      show blas.dgemm _ _ _ _ _ _ _ _ _ _ _ (z - 4 * (p * p)) = _
      rw [blas.dgemm_frame fun x y hx hy he => by
        have := RowMajor.lt hx hy
        omega]
      show (t.allMatrices i).mem (4 * (p * p) + (z - 4 * (p * p))) = _
      rw [Nat.add_sub_cancel' hge]
    next => rfl
  · obtain ⟨hA, hB⟩ := same t ht
    obtain ⟨z, hz, rfl⟩ := hl
    have hp : 0 < p := Nat.pos_of_mul_pos_left (Nat.lt_of_le_of_lt (Nat.zero_le z) hz)
    obtain ⟨x, y, hx, hy, rfl⟩ : ∃ x y, x < p ∧ y < p ∧ z = x * p + y :=
      ⟨z / p, z % p, Nat.div_lt_of_lt_mul hz, Nat.mod_lt _ hp, by
        rw [Nat.mul_comm, Nat.div_add_mod]⟩
    refine agree_setMem_mem ((TileMem.cell_storeC_four _).trans
      (Eq.trans ?_ (TileMem.cell_storeC_four _).symm))
    rw [blas.dgemm_entry (Nat.le_refl p) (Nat.le_refl p) (Nat.le_refl p) hx hy,
      blas.dgemm_entry (Nat.le_refl p) (Nat.le_refl p) (Nat.le_refl p) hx hy]
    congr 2
    · refine Finset.sum_congr rfl fun w hw => ?_
      have hw := Finset.mem_range.mp hw
      have hAw : offset (f.allMatrices i).mem (f.allMatrices i).tileA (x * p + w) =
          offset (t.allMatrices i).mem (t.allMatrices i).tileA (x * p + w) := by
        rw [← hA]
        exact ht (.mem i _) (Or.inr (Or.inl ⟨_, RowMajor.lt hx hw, rfl⟩))
      have hBw : offset (f.allMatrices i).mem (f.allMatrices i).tileB (w * p + y) =
          offset (t.allMatrices i).mem (t.allMatrices i).tileB (w * p + y) := by
        rw [← hB]
        exact ht (.mem i _) (Or.inr (Or.inr (Or.inl ⟨_, RowMajor.lt hw hy, rfl⟩)))
      rw [hAw, hBw]
    · exact ht (.mem i _) (Or.inr (Or.inr (Or.inr ⟨_, RowMajor.lt hx hy, rfl⟩)))

private theorem scatter_within (i : Tile n) (hM : 0 < f.C.M) (hp : p ≤ f.C.M) :
    Within (store R n p) (after blas (.scatterC i)) f ((Act.scatterC i).reads f)
      ((Act.scatterC i).writes f) := by
  refine ⟨fun t ht l hl => ?_, fun t ht l hl => ?_⟩
  · have hsize : f.C.M = t.C.M := (ht .sizes (Or.inl rfl)).2.1
    cases l with
    | C z =>
      obtain ⟨-, hout⟩ := scatterTile_spec (initialIndex n t.C.M p i) (t.allMatrices i).tileC
        (t.allMatrices i).mem t.C.ptr (hsize ▸ hM) (hsize ▸ hp)
      refine hout z fun u v hu hv he => hl ⟨u, v, hu, hv, ?_⟩
      rw [he, hsize]
    | pointers j => exact fun d => ⟨rfl, rfl⟩
    | sizes => exact ⟨fun d => by cases d <;> exact ⟨rfl, rfl⟩, rfl, rfl⟩
    | elem d z => cases d <;> rfl
    | mem j z | curIterations | continuations => rfl
  · have hsize : f.C.M = t.C.M := (ht .sizes (Or.inl rfl)).2.1
    obtain ⟨u, v, hu, hv, rfl⟩ := hl
    obtain ⟨hin, -⟩ := scatterTile_spec (initialIndex n f.C.M p i) (f.allMatrices i).tileC
      (f.allMatrices i).mem f.C.ptr hM hp
    obtain ⟨hin', -⟩ := scatterTile_spec (initialIndex n f.C.M p i) (t.allMatrices i).tileC
      (t.allMatrices i).mem t.C.ptr hM hp
    refine (hin u v hu hv).trans (Eq.trans ?_ ((hin' u v hu hv).symm.trans ?_))
    · rw [Nat.add_assoc, Nat.add_assoc]
      exact ht (.mem i _) (Or.inr ⟨_, RowMajor.lt hu hv, rfl⟩)
    · show _ = scatterTile t.C.M p (initialIndex n t.C.M p i) _ _ _ _
      rw [hsize]

private theorem swap_within (i : Tile n) :
    Within (store R n p) (after blas (.swap i)) f ((Act.swap i).reads f)
      ((Act.swap i).writes f) := by
  refine ⟨fun t ht l hl => ?_, fun t ht l hl => ?_⟩
  · cases l with
    | mem j z =>
      show ((t.setTile i _).allMatrices j).mem z = _
      rw [setTile_apply]
      split
      next hj => subst hj; rfl
      next => rfl
    | pointers j =>
      intro d
      have hj : j ≠ i := fun hj => hl (hj ▸ rfl)
      have he : (after blas (.swap i) t).allMatrices j = t.allMatrices j := by
        show (t.setTile i _).allMatrices j = _
        rw [setTile_apply, if_neg hj]
      rw [he]
      exact ⟨rfl, rfl⟩
    | sizes => exact ⟨fun d => by cases d <;> exact ⟨rfl, rfl⟩, rfl, rfl⟩
    | elem d z => cases d <;> rfl
    | C z | curIterations | continuations => rfl
  · obtain rfl : l = .pointers i := hl
    have hptr : agree (.pointers i) f t := ht (.pointers i) rfl
    intro d
    have he : ∀ g : Frame R n p, (after blas (.swap i) g).allMatrices i =
        (g.allMatrices i).swap_write_read := by
      intro g
      show (g.setTile i _).allMatrices i = _
      rw [setTile_apply, if_pos rfl]
    rw [he, he]
    cases d
    · exact ⟨(hptr .A).2, (hptr .A).1⟩
    · exact ⟨(hptr .B).2, (hptr .B).1⟩

/-- **An action depends on what it reads and changes what it writes**, no more. -/
theorem opMem_within (hM : ∀ d, 0 < (f.factor d).M) (hC : 0 < f.C.M) (hp : p ≤ f.C.M) (a : Act n) :
    Within (store R n p) (after blas a) f (a.reads f) (a.writes f) := by
  cases a with
  | gather d i => exact gather_within d i (hM d)
  | scatterC i => exact scatter_within i hC hp
  | skewShift d i => exact move_within d rfl rfl fun t => rfl
  | shift d i => exact move_within d rfl rfl fun t => rfl
  | multiply i => exact multiply_within i
  | swap i => exact swap_within i
  | test => exact ⟨fun t _ l _ => (store R n p).refl l t, fun t _ l hl => absurd hl id⟩
  | incr =>
    refine ⟨fun t ht l hl => ?_, fun t ht l hl => ?_⟩
    · cases l with
      | curIterations => exact absurd rfl hl
      | pointers j => exact fun d => ⟨rfl, rfl⟩
      | sizes => exact ⟨fun d => by cases d <;> exact ⟨rfl, rfl⟩, rfl, rfl⟩
      | elem d z => cases d <;> rfl
      | C z | mem j z | continuations => rfl
    · obtain rfl : l = .curIterations := hl
      exact congrArg (· + 1) (ht .curIterations rfl)
  | continuation =>
    refine ⟨fun t ht l hl => ?_, fun t ht l hl => ?_⟩
    · cases l with
      | continuations => exact absurd rfl hl
      | pointers j => exact fun d => ⟨rfl, rfl⟩
      | sizes => exact ⟨fun d => by cases d <;> exact ⟨rfl, rfl⟩, rfl, rfl⟩
      | elem d z => cases d <;> rfl
      | C z | mem j z | curIterations => rfl
    · obtain rfl : l = .continuations := hl
      exact congrArg (· + 1) (ht .continuations rfl)

end Within

end Darts.CannonDouble
