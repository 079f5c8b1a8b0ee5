import Darts.CannonDfswp.Order
import Darts.CannonDfswp.Queues
import Darts.Lib.Window

/-!
# The streams of blocks in the pipelined `cannonTP`

Tile `t` multiplies, in this order, the blocks `heldA t 0, heldA t 1, ...` with
`heldB t 0, heldB t 1, ...`. Each of its queues is a window of that stream: the
first block comes from one skew codelet, the `k+1`-st from the neighbour, whose
own `k`-th block it was. `Data` states this for every tile at once, with the
number of arrived and of popped blocks read off the program points of the tile
and of its neighbour; tiles may be arbitrarily many turns apart.
-/

namespace Darts.CannonDfswp

open Cannon Transition Window

variable {R : Type} {n p : Nat}

/-- Block `i` of the row-major matrix `a`, in storage of its own. -/
def tileOf [Zero R] (p : Nat) (a : Nat → R) (i : Tile n) : Mat R :=
  ⟨p, p, fun x => if x < p * p then a (entry n p i (x / p) (x % p)) else 0⟩

theorem tileOf_copy [Zero R] (a : Nat → R) (i : Tile n) : (tileOf p a i).copy = tileOf p a i := by
  simp only [Mat.copy, tileOf, Mat.mk.injEq, true_and]
  funext x
  simp only [copyN, Nat.zero_le, true_and, Nat.zero_add, Nat.sub_zero]
  split <;> rfl

/-- An entry of a block. -/
theorem tileOf_entry [Zero R] {a : Nat → R} {i : Tile n} {u v : Nat} (hu : u < p) (hv : v < p) :
    (tileOf p a i).ptr (u * p + v) = a (entry n p i u v) := by
  obtain ⟨hdiv, hmod⟩ := RowMajor.div_mod (u := u) hv
  simp only [tileOf]
  rw [if_pos (RowMajor.lt hu hv), hdiv, hmod]

/-- A copy of `p` by `p` storage is determined by the storage's entries. -/
theorem copy_congr [Zero R] {mem mem' : Nat → R} (h : ∀ x, x < p * p → mem x = mem' x) :
    (⟨p, p, mem⟩ : Mat R).copy = (⟨p, p, mem'⟩ : Mat R).copy := by
  simp only [Mat.copy, Mat.mk.injEq, true_and]
  funext x
  simp only [copyN, Nat.zero_le, true_and, Nat.zero_add, Nat.sub_zero]
  split
  next hx => exact h x hx
  next => rfl

theorem once_gather (d : Side) (i : Tile n) : (gather d i).Once := by
  cases d <;> simp [Act.Once, gather, Act.owner]

@[simp] theorem owner_pushScratch (d : Side) (i : Tile n) :
    (pushScratch d i).owner = .skew i := by
  cases d <;> rfl

@[simp] theorem owner_push (d : Side) (i : Tile n) : (push d i).owner = .compute i := by
  cases d <;> rfl

theorem once_pushScratch (d : Side) (i : Tile n) : (pushScratch d i).Once := by
  cases d <;> simp [Act.Once, pushScratch, Act.owner]

variable [NeZero n] [CommRing R]

/-- The operation of a turn that pushes a block on to the next tile. -/
def pushTurn : Side → Nat
  | .A => 1
  | .B => 2

/-- The operation of a turn that pops a block. -/
def popTurn : Side → Nat
  | .A => 3
  | .B => 4

theorem pushTurn_lt (d : Side) : pushTurn d < 5 := by
  cases d <;> simp [pushTurn]

theorem popTurn_lt (d : Side) : popTurn d < 5 := by
  cases d <;> simp [popTurn]

/-- How many blocks have arrived in a queue of tile `i`. -/
def arrived (blas : Blas R) (s : State (Cod n) (Act n) (Frame R n p)) (d : Side) (i : Tile n) :
    Nat :=
  (if Executed blas s (pushScratch d (d.skewed i)) then 1 else 0) + count s (d.feeder i) (pushTurn d)

/-- How many blocks have been popped from a queue of tile `i`. -/
def popped (s : State (Cod n) (Act n) (Frame R n p)) (d : Side) (i : Tile n) : Nat :=
  count s i (popTurn d)

/-- The blocks that pass through a queue of tile `i`, in order. -/
def stream (p : Nat) (a b : Nat → R) (d : Side) (i : Tile n) (k : Nat) : Mat R :=
  tileOf p (d.pick a b) (d.held i k)

/-- What the frame holds. -/
structure Data (blas : Blas R) (a b : Nat → R) (s : State (Cod n) (Act n) (Frame R n p)) :
    Prop where
  A_eq : s.mem.A = ⟨n * p, n * p, a⟩
  B_eq : s.mem.B = ⟨n * p, n * p, b⟩
  C_dim : s.mem.C.M = n * p
  scratch_eq : ∀ (d : Side) i, Executed blas s (gather d i) →
    (scratch d (s.mem.allMatrices i)).copy = tileOf p (d.pick a b) i
  queue_eq : ∀ (d : Side) i, queue d (s.mem.allMatrices i) =
    window (stream p a b d i) (popped s d i) (arrived blas s d i)
  popped_le : ∀ d i, popped s d i ≤ arrived blas s d i
  tileC : ∀ i u v, u < p → v < p →
    (s.mem.allMatrices i).tileC.ptr (u * p + v) = partialSum p a b i (count s i 0) u v
  scattered : ∀ i, Executed blas s (.scatterC i) → ∀ u v, u < p → v < p →
    s.mem.C.ptr (entry n p i u v) = partialSum p a b i n u v

section Data

variable {blas : Blas R} {a b : Nat → R} {s t : State (Cod n) (Act n) (Frame R n p)}

/-- The blocks arrive in stream order: the neighbour's `k`-th block is the next
tile's `k+1`-st. -/
theorem stream_next (d : Side) (i : Tile n) (k : Nat) :
    stream p a b d (d.next i) (k + 1) = stream p a b d i k := by
  rw [stream, Side.held_next, stream]

theorem stream_dest (d : Side) (i : Tile n) :
    stream p a b d (d.dest i) 0 = tileOf p (d.pick a b) i := by
  rw [stream, Side.held_dest]

theorem Data.init (a b c : Nat → R) : Data blas a b (launched n p a b c) := by
  have hcount : ∀ (i : Tile n) m, count (launched n p a b c) i m = 0 := fun i m => rfl
  have hex : ∀ {x : Act n}, .act x ∈ fireBody x.owner → ¬Executed blas (launched n p a b c) x :=
    fun hmem hno => hno hmem
  have harr : ∀ d i, arrived blas (launched n p a b c) d i = 0 := by
    intro d i
    rw [arrived, hcount, if_neg (hex _)]
    cases d <;> simp [pushScratch, Act.owner, fireBody]
  refine ⟨rfl, rfl, rfl, ?_, ?_, ?_, ?_, ?_⟩
  · intro d i hi
    refine absurd hi (hex ?_)
    cases d <;> simp [gather, Act.owner, fireBody]
  · intro d i
    rw [harr, popped, hcount, window_self]
    cases d <;> rfl
  · exact fun d i => Nat.zero_le _
  · intro i u v _ _
    rw [hcount, partialSum, Finset.range_zero, Finset.sum_empty]
    rfl
  · exact fun i hi => absurd hi (hex (by simp [Act.owner, fireBody]))

/-- The data only depend on the frame, the counts and the executed actions. -/
private theorem Data.congr (h : Data blas a b s) (hmem : t.mem = s.mem)
    (hcount : ∀ i m, m < 5 → count t i m = count s i m)
    (hex : ∀ x : Act n, x.Once → (Executed blas t x ↔ Executed blas s x)) :
    Data blas a b t := by
  have hpop : ∀ d i, popped t d i = popped s d i := by
    intro d i
    exact hcount i _ (popTurn_lt d)
  have harr : ∀ d i, arrived blas t d i = arrived blas s d i := by
    intro d i
    rw [arrived, arrived, hcount _ _ (pushTurn_lt d)]
    simp only [hex _ (once_pushScratch d _)]
  refine ⟨?_, ?_, ?_, ?_, ?_, ?_, ?_, ?_⟩
  · rw [hmem]; exact h.A_eq
  · rw [hmem]; exact h.B_eq
  · rw [hmem]; exact h.C_dim
  · intro d i hi
    rw [hmem]
    exact h.scratch_eq d i ((hex _ (once_gather d i)).mp hi)
  · intro d i
    rw [hmem, hpop, harr]
    exact h.queue_eq d i
  · intro d i
    rw [hpop, harr]
    exact h.popped_le d i
  · intro i u v hu hv
    rw [hmem, hcount i 0 (by omega)]
    exact h.tileC i u v hu hv
  · intro i hi
    rw [hmem]
    exact h.scattered i ((hex _ (by simp [Act.Once, Act.owner])).mp hi)

/-- Arrivals grow by one at a push into the queue, and only there. -/
private theorem arrived_step (hc : Ctl blas s) {l : Label (Cod n)}
    (hl : (cannonTP blas n p).step s l = some t) {x : Act n} (hx : s.nextAct l = some x)
    (d : Side) (i : Tile n) :
    arrived blas t d i = arrived blas s d i +
      (if x = pushScratch d (d.skewed i) then 1 else 0) +
      (if x = push d (d.feeder i) then 1 else 0) := by
  have hex := hc.executed_step hl (once_pushScratch d (d.skewed i))
  have hturn : x.turn = some (d.feeder i, pushTurn d) ↔ x = push d (d.feeder i) := by
    cases d <;> cases x <;> simp [Act.turn, pushTurn, push]
  rw [arrived, arrived, hc.count_step hl (d.feeder i) (pushTurn_lt d), hx, Option.bind_some]
  simp only [hex, hturn, hx, Option.some.injEq]
  by_cases he : x = pushScratch d (d.skewed i)
  · have hno : ¬Executed blas s (pushScratch d (d.skewed i)) := hc.not_executed (hx.trans (congrArg _ he))
    simp only [hno, he, false_or, if_true, if_false]
    omega
  · simp only [he, or_false, if_false]
    omega

omit [NeZero n] in
/-- Pops are counted by `popped`. -/
private theorem popped_step (hc : Ctl blas s) {l : Label (Cod n)}
    (hl : (cannonTP blas n p).step s l = some t) {x : Act n} (hx : s.nextAct l = some x)
    (d : Side) (i : Tile n) :
    popped t d i = popped s d i + if x = pop d i then 1 else 0 := by
  have hturn : x.turn = some (i, popTurn d) ↔ x = pop d i := by
    cases d <;> cases x <;> simp [Act.turn, popTurn, pop]
  rw [popped, popped, hc.count_step hl i (popTurn_lt d), hx, Option.bind_some]
  simp only [hturn]

omit [NeZero n] in
/-- Once a compute codelet has started, every skew codelet is through. -/
private theorem skew_executed (hc : Ctl blas s) {i : Tile n} (hf : s.fired (.compute i) ≠ 0)
    (d : Side) (u : Tile n) : Executed blas s (pushScratch d u) := by
  obtain ⟨hA, hB⟩ := hc.skewed (i := i) (by omega) u
  cases d
  · exact hA
  · exact hB

omit [NeZero n] in
/-- Before that, no tile has made a turn. -/
private theorem count_eq_zero (hc : Ctl blas s) {d : Side} {u : Tile n}
    (hno : ¬Executed blas s (pushScratch d u)) (i : Tile n) (m : Nat) : count s i m = 0 := by
  have hf : s.fired (.compute i) = 0 := by
    by_contra hf
    exact hno (skew_executed hc hf d u)
  have hidle := point_idle_iff.mpr hf
  rw [count, hidle, hc.cur_start i (Or.inl hidle)]
  rfl

omit [NeZero n] in
/-- The gather loops are done when the skew codelet pushes. -/
private theorem gather_executed (hc : Ctl blas s) {u : Tile n} (hf : s.fired (.skew u) = 1)
    (d : Side) : Executed blas s (gather d u) := by
  obtain ⟨hA, hB⟩ := hc.gathered (u := u) (by omega)
  cases d
  · exact hA
  · exact hB

omit [NeZero n] in
/-- A tile that is about to push has executed that push, and its pop, in all
earlier turns only. -/
private theorem counts_at_push (hc : Ctl blas s) {l : Label (Cod n)} {d : Side} {u : Tile n}
    (hx : s.nextAct l = some (push d u)) :
    count s u (pushTurn d) = s.mem.curIterations u ∧ popped s d u = s.mem.curIterations u := by
  have hhead := hc.headAct_point (i := u) hx (owner_push d u)
  cases d <;> cases hp : point s u <;>
    simp [hp, Point.rest, iteration, fireBody, Op.headAct, push] at hhead <;>
    simp [popped, count, hp, Point.stage, pushTurn, popTurn]

/-- **The queue of a tile stays a window of its stream.** -/
private theorem Data.queue_step (h : Data blas a b s) (hc : Ctl blas s) {l : Label (Cod n)}
    (hl : (cannonTP blas n p).step s l = some t) {x : Act n} {new : List (Op (Cod n) (Act n))}
    (hx : s.nextAct l = some x) (hexec : exec blas x s.mem = some (t.mem, new))
    (d : Side) (i : Tile n) :
    queue d (t.mem.allMatrices i) =
        window (stream p a b d i) (popped t d i) (arrived blas t d i) ∧
      popped t d i ≤ arrived blas t d i := by
  have harr := arrived_step hc hl hx d i
  have hpop := popped_step hc hl hx d i
  have hle := h.popped_le d i
  have hq := h.queue_eq d i
  have hstep := exec_queue hexec d i
  generalize queue d (t.mem.allMatrices i) = q at hstep
  cases hstep with
  | pushScratch u hu =>
    -- the first block of the stream
    subst hu
    have hno : ¬Executed blas s (pushScratch d u) := hc.not_executed hx
    have hgath := gather_executed hc (u := u) (by simpa using hc.owner_started hx) d
    have harr0 : arrived blas s d (d.dest u) = 0 := by
      rw [arrived, Side.skewed_dest, if_neg hno, count_eq_zero hc hno]
    have hpop' : popped t d (d.dest u) = popped s d (d.dest u) := by
      rw [hpop, if_neg (by cases d <;> simp [pushScratch, pop]), Nat.add_zero]
    have harr' : arrived blas t d (d.dest u) = 1 := by
      rw [harr, harr0, Side.skewed_dest, if_pos rfl,
        if_neg (by cases d <;> simp [pushScratch, push])]
    have hblock : (scratch d (s.mem.allMatrices u)).copy = stream p a b d (d.dest u) 0 := by
      rw [h.scratch_eq d u hgath, stream_dest]
    rw [hpop', harr', hq, harr0, hblock]
    rw [harr0] at hle
    exact ⟨window_push hle, by omega⟩
  | push u X hu hX =>
    -- the neighbour's current block is the next one of this stream
    subst hu
    have hf : s.fired (.compute u) ≠ 0 := by
      have := hc.owner_started hx
      rw [owner_push] at this
      omega
    obtain ⟨hpush1, hpop1⟩ := counts_at_push hc hx
    have harr1 : arrived blas s d (d.next u) = s.mem.curIterations u + 1 := by
      rw [arrived, Side.feeder_next, if_pos (skew_executed hc hf d _), hpush1, Nat.add_comm]
    rw [h.queue_eq d u] at hX
    obtain ⟨-, rfl⟩ := window_head hX
    have hpop' : popped t d (d.next u) = popped s d (d.next u) := by
      rw [hpop, if_neg (by cases d <;> simp [push, pop]), Nat.add_zero]
    have harr' : arrived blas t d (d.next u) = arrived blas s d (d.next u) + 1 := by
      rw [harr, Side.feeder_next, if_pos rfl,
        if_neg (by cases d <;> simp [pushScratch, push])]
    have hblock : (stream p a b d u (popped s d u)).copy =
        stream p a b d (d.next u) (arrived blas s d (d.next u)) := by
      rw [harr1, stream_next, hpop1, stream, tileOf_copy]
    rw [hpop', harr', hq, hblock]
    exact ⟨window_push hle, by omega⟩
  | pop X hX =>
    rw [hq] at hX
    obtain ⟨hlt, -⟩ := window_head hX
    have hpop' : popped t d i = popped s d i + 1 := by rw [hpop, if_pos rfl]
    have harr' : arrived blas t d i = arrived blas s d i := by
      rw [harr, if_neg (by cases d <;> simp [pushScratch, pop]),
        if_neg (by cases d <;> simp [push, pop]), Nat.add_zero]
    rw [hpop', harr', hq]
    exact ⟨window_tail, by omega⟩
  | other _ hskew hpush hpop0 =>
    have hpop' : popped t d i = popped s d i := by rw [hpop, if_neg hpop0, Nat.add_zero]
    have harr' : arrived blas t d i = arrived blas s d i := by
      rw [harr, if_neg (hskew _ (d.dest_skewed i)), if_neg (hpush _ (d.next_feeder i)),
        Nat.add_zero]
    rw [hpop', harr', hq]
    exact ⟨rfl, hle⟩

/-- The scratch blocks stay what the gather loops made them. -/
private theorem Data.scratch_step (h : Data blas a b s) (hc : Ctl blas s)
    {l : Label (Cod n)} (hl : (cannonTP blas n p).step s l = some t) {x : Act n}
    {new : List (Op (Cod n) (Act n))} (hx : s.nextAct l = some x)
    (hexec : exec blas x s.mem = some (t.mem, new)) (d : Side) (i : Tile n)
    (hi : Executed blas t (gather d i)) :
    (scratch d (t.mem.allMatrices i)).copy = tileOf p (d.pick a b) i := by
  -- nothing is said about entries of an empty tile
  have hM : ∀ z, z < p * p → 0 < n * p := fun z hz => Nat.mul_pos (Nat.pos_of_neZero n)
    (Nat.pos_of_mul_pos_left (Nat.lt_of_le_of_lt (Nat.zero_le z) hz))
  rw [hc.executed_step hl (once_gather d i), hx, Option.some.injEq] at hi
  rcases exec_tile hexec i with ⟨-, hstep⟩ | ⟨hne, heq⟩
  · generalize t.mem.allMatrices i = τ at hstep
    cases hstep with
    | gatherA =>
      cases d with
      | A =>
        rw [← tileOf_copy]
        apply copy_congr
        intro z hz
        simp only [h.A_eq, gatherTile_apply (hM z hz)]
        rw [if_pos (by omega), if_pos hz]
        rfl
      | B =>
        rw [← h.scratch_eq .B i (hi.resolve_right (by simp [gather]))]
        apply copy_congr
        intro z hz
        simp only [h.A_eq, offset, TileMem.tileP, gatherTile_apply (hM z hz)]
        rw [if_neg (by omega)]
    | gatherB =>
      cases d with
      | A =>
        rw [← h.scratch_eq .A i (hi.resolve_right (by simp [gather]))]
        apply copy_congr
        intro z hz
        simp only [h.B_eq, gatherTile_apply (hM z hz)]
        rw [if_neg (by omega)]
      | B =>
        rw [← tileOf_copy]
        apply copy_congr
        intro z hz
        simp only [h.B_eq, offset, TileMem.tileP, gatherTile_apply (hM z hz)]
        rw [if_pos (by omega), if_pos hz, Nat.add_sub_cancel_left]
        rfl
    | multiply _ A B hA hB =>
      rw [← h.scratch_eq d i (hi.resolve_right (by cases d <;> simp [gather]))]
      cases d <;> apply copy_congr <;> intro z hz
      · exact if_neg (by simp only [TileMem.tileP]; omega)
      · exact if_neg (by simp only [TileMem.tileP]; omega)
    | pushScratchA u | pushScratchB u | pushA u | pushB u | popA | popB =>
      rw [← h.scratch_eq d _ (hi.resolve_right (by cases d <;> simp [gather]))]
      cases d <;> rfl
  · rw [heq]
    refine h.scratch_eq d i (hi.resolve_right ?_)
    intro he
    subst he
    cases d <;> exact hne rfl

/-- **One turn adds one product of blocks** to the tile, those with the inner
index the two streams agree on. -/
private theorem Data.tileC_step (h : Data blas a b s) (hc : Ctl blas s)
    {l : Label (Cod n)} (hl : (cannonTP blas n p).step s l = some t) {x : Act n}
    {new : List (Op (Cod n) (Act n))} (hx : s.nextAct l = some x)
    (hexec : exec blas x s.mem = some (t.mem, new)) (i : Tile n) {u v : Nat} (hu : u < p)
    (hv : v < p) :
    (t.mem.allMatrices i).tileC.ptr (u * p + v) = partialSum p a b i (count t i 0) u v := by
  have hM : 0 < n * p := Nat.mul_pos (Nat.pos_of_neZero n) (by omega)
  have hcount := hc.count_step hl i (m := 0) (by omega)
  rw [hx, Option.bind_some] at hcount
  have hturn : x.turn = some (i, 0) ↔ x = .multiply i := by
    cases x <;> simp [Act.turn]
  simp only [hturn] at hcount
  rcases exec_tile hexec i with ⟨-, hstep⟩ | ⟨hne, heq⟩
  · generalize t.mem.allMatrices i = τ at hstep
    cases hstep with
    | multiply _ A B hA hB =>
      have hpt : point s i = .multiply := by
        have hhead := hc.headAct_point (i := i) hx rfl
        cases hp : point s i <;>
          simp [hp, Point.rest, iteration, fireBody, Op.headAct] at hhead ⊢
      have hpop : ∀ d, popped s d i = count s i 0 := by
        intro d
        cases d <;> simp [popped, count, hpt, Point.stage]
      have hqA := h.queue_eq .A i
      have hqB := h.queue_eq .B i
      rw [show (s.mem.allMatrices i).AQueue = _ from hqA] at hA
      rw [show (s.mem.allMatrices i).BQueue = _ from hqB] at hB
      obtain ⟨-, rfl⟩ := window_head hA
      obtain ⟨-, rfl⟩ := window_head hB
      rw [TileMem.tileC_storeC, blas.dgemm_entry (Nat.le_refl p) (Nat.le_refl p) (Nat.le_refl p) hu hv,
        h.tileC i u v hu hv, hcount, if_pos rfl, partialSum, partialSum, Finset.sum_range_succ,
        one_mul, one_mul, add_comm]
      congr 1
      refine Finset.sum_congr rfl fun w hw => ?_
      have hw := Finset.mem_range.mp hw
      rw [stream, stream, tileOf_entry hu hw, tileOf_entry hw hv, hpop, hpop]
      rfl
    | gatherA | gatherB =>
      rw [hcount, if_neg (by simp), Nat.add_zero, ← h.tileC i u v hu hv]
      simp only [TileMem.tileC, TileMem.tileP, offset, h.A_eq, h.B_eq, gatherTile_apply hM]
      rw [if_neg (by omega)]
    | pushScratchA j | pushScratchB j | pushA j | pushB j | popA | popB =>
      rw [hcount, if_neg (by simp), Nat.add_zero, ← h.tileC _ u v hu hv]
      rfl
  · have hx' : x ≠ .multiply i := by
      intro he
      subst he
      exact hne rfl
    rw [heq, hcount, if_neg hx', Nat.add_zero]
    exact h.tileC i u v hu hv

/-- The scatter loop copies the finished product of a tile to its place in `C`,
and no other tile's. -/
private theorem Data.scattered_step (h : Data blas a b s) (hc : Ctl blas s)
    {l : Label (Cod n)} (hl : (cannonTP blas n p).step s l = some t) {x : Act n}
    {new : List (Op (Cod n) (Act n))} (hx : s.nextAct l = some x)
    (hexec : exec blas x s.mem = some (t.mem, new)) (i : Tile n)
    (hi : Executed blas t (.scatterC i)) {u v : Nat} (hu : u < p) (hv : v < p) :
    t.mem.C.ptr (entry n p i u v) = partialSum p a b i n u v := by
  have hn : 0 < n := Nat.pos_of_neZero n
  have hM : 0 < n * p := Nat.mul_pos hn (by omega)
  rw [hc.executed_step hl (by simp [Act.Once, Act.owner]), hx, Option.some.injEq] at hi
  rcases exec_C hexec with ⟨hno, hC⟩ | ⟨j, rfl, hC⟩
  · rw [hC]
    exact h.scattered i (hi.resolve_right (hno i)) u v hu hv
  · obtain ⟨hin, hout⟩ := scatterTile_spec (initialIndex n (n * p) p j) (2 * (p * p))
      (s.mem.allMatrices j).mem s.mem.C.ptr hM
      (Nat.le_mul_of_pos_left p hn)
    rw [hC]
    simp only [h.C_dim]
    by_cases hij : i = j
    · subst hij
      have hdone := hc.computed (i := i) (by
        have := hc.owner_started hx
        simp only [Act.owner] at this
        omega)
      have hcount : count s i 0 = n := by
        rw [count, hdone.1, hdone.2]
        rfl
      have htile := h.tileC i u v hu hv
      rw [hcount] at htile
      rw [entry, hin u v hu hv, ← htile, Nat.add_assoc]
      rfl
    · rw [hout _ fun u' v' hu' hv' he => hij (entry_inj hu hv hu' hv' he).1]
      exact h.scattered i (hi.resolve_right (by simpa using Ne.symm hij)) u v hu hv

/-- **One step keeps the stream invariant.** -/
theorem Data.step (h : Data blas a b s) (hc : Ctl blas s) {l : Label (Cod n)}
    (hl : (cannonTP blas n p).step s l = some t) : Data blas a b t := by
  rcases Program.mem_of_step hl with ⟨hnone, hmem⟩ | ⟨x, new, hx, hexec⟩
  · refine h.congr hmem ?_ ?_
    · intro i m hm
      rw [hc.count_step hl i hm, hnone]
      simp
    · intro x hx
      rw [hc.executed_step hl hx, hnone]
      simp
  · have hrun : exec blas x s.mem = some (t.mem, new) := hexec
    obtain ⟨hA, hB⟩ := exec_AB hrun
    refine ⟨hA.trans h.A_eq, hB.trans h.B_eq, ?_, ?_, ?_, ?_, ?_, ?_⟩
    · rcases exec_C hrun with ⟨-, hC⟩ | ⟨j, -, hC⟩ <;> rw [hC] <;> exact h.C_dim
    · exact fun d i hi => h.scratch_step hc hl hx hrun d i hi
    · exact fun d i => (h.queue_step hc hl hx hrun d i).1
    · exact fun d i => (h.queue_step hc hl hx hrun d i).2
    · exact fun i u v hu hv => h.tileC_step hc hl hx hrun i hu hv
    · exact fun i hi u v hu hv => h.scattered_step hc hl hx hrun i hi hu hv

/-- **The stream invariant holds in every reachable state.** -/
theorem Data.reachable {c : Nat → R}
    (hs : Reachable (cannonTP blas n p).step (launched n p a b c) s) : Data blas a b s := by
  have hn : 0 < n := Nat.pos_of_neZero n
  exact hs.invariant (Data blas a b) (Data.init a b c)
    fun _ _ _ hr hi hl => hi.step (Ctl.reachable hn hr) hl

/-- **`C` is the product once the end codelet is scheduled.** -/
theorem Data.product (h : Data blas a b s) (hc : Ctl blas s)
    (hend : 0 < s.pool .endCodelet + s.fired .endCodelet) {row col : Nat} (hrow : row < n * p)
    (hcol : col < n * p) : s.mem.C.ptr (row * (n * p) + col) = mulEntry (n * p) a b row col := by
  obtain ⟨i, u, v, hu, hv, rfl, rfl⟩ := exists_entry hrow hcol
  rw [← entry_eq, h.scattered i (hc.scattered hend i) u v hu hv, partialSum_side]

end Data

end Darts.CannonDfswp
