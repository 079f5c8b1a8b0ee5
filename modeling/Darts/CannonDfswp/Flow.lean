import Darts.CannonDfswp.Spsc
import Darts.Threading.Signals

/-!
# The flow of blocks through the queues of the pipelined `cannonTP`

Neighbours drift up to `n` turns apart, so the length of a queue is no function of the
turn its tile is in. It is the difference of two counts: one block from the skew codelet
and one for each push of the neighbour have arrived, one for each pop has left. With
`Data` this gives what is at the head, how long the queue is and what remains at the end;
the middle of a turn, after the multiplication and before the pops, needs in addition
that the block just multiplied is still there (`Data.multiplied_le`).
-/

namespace Darts.CannonDfswp

open Cannon Transition Window

variable {R : Type} {n p : Nat}

/-! ## Which block is held -/

section Held

variable [NeZero n]

/-- `r + c - k` round the torus. -/
private theorem held_val (t : Tile n) {k : Nat} (hk : k < n) :
    ((Torus.held (pos t) (Fin.ofNat n k) : Fin n) : Nat) = (theJ n t + theI n t + n - k) % n := by
  have hadd : (((pos t).1 + (pos t).2 : Fin n) : Nat) = (theJ n t + theI n t) % n := by
    rw [Fin.val_add, pos_row, pos_col]
  rw [Torus.held, Fin.sub_def, hadd]
  simp only [Fin.ofNat, Nat.mod_eq_of_lt hk]
  rw [Nat.add_mod_mod]
  congr 1
  omega

/-- Tile `(r, c)` holds block `(r, (r + c - k) mod n)` of `A` after `k` turns. -/
theorem heldA_pos (t : Tile n) {k : Nat} (hk : k < n) :
    theJ n (heldA t k) = theJ n t ∧ theI n (heldA t k) = (theJ n t + theI n t + n - k) % n := by
  refine ⟨?_, ?_⟩
  · rw [heldA, theJ_symm, pos_row]
  · rw [heldA, theI_symm, held_val t hk]

/-- And block `((r + c - k) mod n, c)` of `B`. -/
theorem heldB_pos (t : Tile n) {k : Nat} (hk : k < n) :
    theJ n (heldB t k) = (theJ n t + theI n t + n - k) % n ∧ theI n (heldB t k) = theI n t := by
  refine ⟨?_, ?_⟩
  · rw [heldB, theJ_symm, held_val t hk]
  · rw [heldB, theI_symm, pos_col]

/-- After `n` turns a tile would hold what the skew phase gave it. -/
theorem held_side (d : Side) (t : Tile n) : d.held t n = d.held t 0 := by
  cases d
  · exact heldA_side t
  · exact heldB_side t

end Held

/-! ## Counting multiplications -/

variable [CommRing R] {blas : Blas R} {a b c : Nat → R}
  {s t : State (Cod n) (Act n) (Frame R n p)}

theorem Ctl.count_le (h : Ctl blas s) (i : Tile n) (m : Nat) : count s i m ≤ n := by
  have hle := h.cur_le i
  have hlt := h.cur_lt i
  unfold count
  -- outside of a turn nothing is added to `curIterations`
  cases hq : point s i <;> simp [hq, Point.Inside] at hlt <;>
    simp only [Point.stage, Nat.not_lt_zero, if_false] <;> grind

/-- The multiplications of a tile executed in a run are those its state shows. -/
theorem multiplications (hn : 0 < n) {ls : List (Label (Cod n))}
    (hrun : run (cannonTP blas n p).step (launched n p a b c) ls = some s) (i : Tile n) :
    executions (cannonTP blas n p) (.act (.multiply i)) (launched n p a b c) ls = count s i 0 := by
  have hcount := executions_eq (o := .act (.multiply i)) (fun u => count u i 0) ?_ hrun
  · have hzero : count (launched n p a b c) i 0 = 0 := rfl
    omega
  · intro u l v hu hl
    have hturn : (u.nextAct l).bind Act.turn = some (i, 0) ↔ u.nextOp l = some (.act (.multiply i)) := by
      rw [State.nextOp_eq_act]
      cases hx : u.nextAct l with
      | none => simp
      | some x => cases x <;> simp [Act.turn]
    rw [(Ctl.reachable hn hu).count_step hl i (by omega)]
    simp only [hturn]

/-! ## A queue is not popped when empty -/

section Flow

variable [NeZero n]

omit [NeZero n] in
/-- A multiplication is carried out only when both heads are there. -/
theorem head_of_multiply {l : Label (Cod n)} {i : Tile n} (hx : s.nextAct l = some (.multiply i))
    (hl : (cannonTP blas n p).step s l = some t) (d : Side) :
    ∃ X, (queue d (s.mem.allMatrices i)).head? = some X := by
  obtain ⟨hnone, -⟩ | ⟨y, new, hy, hexec⟩ := Program.mem_of_step hl
  · rw [hx] at hnone
    cases hnone
  obtain rfl := Option.some.inj (hx.symm.trans hy)
  have hrun : (multiply blas (s.mem.allMatrices i)).map
      (fun t => (s.mem.setTile i t, ([] : List (Op (Cod n) (Act n))))) = some (t.mem, new) := hexec
  obtain ⟨_, hmul, -⟩ := Option.map_eq_some_iff.mp hrun
  unfold multiply at hmul
  split at hmul
  next A B hA hB =>
    cases d
    · exact ⟨A, hA⟩
    · exact ⟨B, hB⟩
  next => cases hmul

omit [NeZero n] in
/-- A tile that is about to multiply has made every operation of its loop equally often. -/
theorem Ctl.counts_at_multiply (hc : Ctl blas s) {l : Label (Cod n)} {i : Tile n}
    (hx : s.nextAct l = some (.multiply i)) :
    point s i = .multiply ∧ ∀ m, count s i m = s.mem.curIterations i := by
  have hat := hc.headAct_point (i := i) hx rfl
  have hpt : point s i = .multiply := by
    cases hp : point s i <;> simp [hp, Point.rest, iteration, fireBody, Op.headAct] at hat ⊢
  refine ⟨hpt, fun m => ?_⟩
  rw [count, hpt]
  rfl

/-- **What has been multiplied has arrived**: a turn multiplies the heads of its queues,
so a block it has multiplied and not yet popped is still in the queue. -/
theorem Data.multiplied_step (h : Data blas a b s) (hc : Ctl blas s)
    (hle : ∀ d i, count s i 0 ≤ arrived blas s d i) {l : Label (Cod n)}
    (hl : (cannonTP blas n p).step s l = some t) (d : Side) (i : Tile n) :
    count t i 0 ≤ arrived blas t d i := by
  have hcount := hc.count_step hl i (m := 0) (by omega)
  have hold := hle d i
  have hgrow : arrived blas s d i ≤ arrived blas t d i := by
    have hpush := hc.count_step hl (d.feeder i) (pushTurn_lt d)
    have hskew := hc.executed_step hl (once_pushScratch d (d.skewed i))
    unfold arrived
    split
    next he => rw [if_pos (hskew.mpr (Or.inl he))]; omega
    next => omega
  split at hcount
  next hturn =>
    -- the step multiplies tile `i`, so there is a head that no pop has been made for
    obtain ⟨x, hx, hxt⟩ := Option.bind_eq_some_iff.mp hturn
    obtain rfl : x = .multiply i := by
      cases x <;> simp [Act.turn] at hxt
      exact congrArg _ hxt
    obtain ⟨X, hX⟩ := head_of_multiply hx hl d
    rw [h.queue_eq d i] at hX
    have hlt := (window_head hX).1
    have hpop : popped s d i = count s i 0 := by
      rw [popped, (hc.counts_at_multiply hx).2, (hc.counts_at_multiply hx).2]
    omega
  next => omega

theorem Data.multiplied_le
    (hs : Reachable (cannonTP blas n p).step (launched n p a b c) s) (d : Side) (i : Tile n) :
    count s i 0 ≤ arrived blas s d i := by
  have hn : 0 < n := Nat.pos_of_neZero n
  refine hs.invariant (fun u => ∀ d i, count u i 0 ≤ arrived blas u d i) ?_ ?_ d i
  · exact fun d i => Nat.zero_le _
  · exact fun u l v hu hle hl =>
      (Data.reachable hu).multiplied_step (Ctl.reachable hn hu) hle hl

/-- Where a pop or a push reads the head of a queue, there is one. -/
theorem Data.head_present (h : Data blas a b s) (hc : Ctl blas s) {d : Side} {i : Tile n}
    (hle : count s i 0 ≤ arrived blas s d i) {j : Nat} {x : Act n}
    {os : List (Op (Cod n) (Act n))} (hrest : s.rest (.compute i) j = .act x :: os)
    (hx : x = push d i ∨ x = pop d i) : queue d (s.mem.allMatrices i) ≠ [] := by
  have howner : x.owner = .compute i := (hc.owner hrest).1.symm
  have hat := hc.headAct_point (l := .op (.compute i) j) (by rw [State.nextAct, hrest]; rfl) howner
  have hlt : popped s d i < count s i 0 := by
    -- one of the four points between the multiplication and the pop of this queue
    rcases hx with hx | hx <;> subst hx <;> cases d <;> cases hp : point s i <;>
      simp [hp, Point.rest, iteration, fireBody, Op.headAct, push, pop] at hat <;>
      simp [popped, count, hp, Point.stage, popTurn]
  rw [h.queue_eq d i, window_cons (by omega)]
  exact List.cons_ne_nil _ _

/-- **The length of a queue** is what has arrived less what has left. -/
theorem Data.queue_length (h : Data blas a b s) (hc : Ctl blas s) (d : Side) (i : Tile n) :
    (queue d (s.mem.allMatrices i)).length ≤ n + 1 := by
  have hcount := hc.count_le (d.feeder i) (pushTurn d)
  have harr : arrived blas s d i ≤ n + 1 := by
    unfold arrived
    split <;> omega
  rw [h.queue_eq d i, window, List.length_map, List.length_range']
  omega

/-- **What the turns leave behind**: every queue is back to the block the skew phase put
there. -/
theorem Data.queue_end (h : Data blas a b s) (hc : Ctl blas s)
    (hdone : ∀ i, s.fired (.compute i) = 1 ∧ s.rest (.compute i) 0 = []) (d : Side) (i : Tile n) :
    queue d (s.mem.allMatrices i) = [tileOf p (d.pick a b) (d.skewed i)] := by
  have hcount : ∀ (j : Tile n) m, count s j m = n := by
    intro j m
    have hpt : point s j = .done := by
      rw [point_of_fired (by rw [(hdone j).1]; omega), (hdone j).2]
      rfl
    rw [count, hpt, hc.cur_end j (Or.inr hpt)]
    rfl
  have hskew : Executed blas s (pushScratch d (d.skewed i)) := by
    obtain ⟨hA, hB⟩ := hc.skewed (i := i) (by rw [(hdone i).1]; omega) (d.skewed i)
    cases d
    · exact hA
    · exact hB
  have hfirst : d.held i 0 = d.skewed i := by
    have := d.held_dest (d.skewed i)
    rwa [Side.dest_skewed] at this
  have hwin : arrived blas s d i = n + 1 ∧ popped s d i = n := by
    refine ⟨?_, hcount i _⟩
    rw [arrived, if_pos hskew, hcount, Nat.add_comm]
  rw [h.queue_eq d i, hwin.1, hwin.2, window_cons (Nat.lt_succ_self n), window_self, stream,
    held_side, hfirst]

end Flow

/-! ## The flow -/

/-- **Aligned, bounded and clean.** In every run: the turn of tile `(r, c)` that follows
`k` multiplications multiplies block `(r, (r+c-k) mod n)` of `A` with block
`((r+c-k) mod n, c)` of `B`, and a compute codelet that is through has made `n`
multiplications; whoever is about to push or pop finds a block at the head; no queue is
longer than `n + 1`; and when all compute codelets are through, every queue holds one
block, the one that the skew phase pushed into it. -/
theorem torus_flow (blas : Blas R) (hn : 0 < n) (a b c : Nat → R) (ls : List (Label (Cod n)))
    (s : State (Cod n) (Act n) (Frame R n p))
    (hrun : run (cannonTP blas n p).step (launched n p a b c) ls = some s) :
    (∀ (i : Tile n) l t, s.nextAct l = some (.multiply i) →
      (cannonTP blas n p).step s l = some t →
      ∃ (k : Nat) (x y : Tile n), k < n ∧
        k = executions (cannonTP blas n p) (.act (.multiply i)) (launched n p a b c) ls ∧
        (s.mem.allMatrices i).getCurrentHeadA = some (tileOf p a x) ∧
        theJ n x = theJ n i ∧ theI n x = (theJ n i + theI n i + n - k) % n ∧
        (s.mem.allMatrices i).getCurrentHeadB = some (tileOf p b y) ∧
        theJ n y = (theJ n i + theI n i + n - k) % n ∧ theI n y = theI n i) ∧
    (∀ i : Tile n, s.fired (.compute i) = 1 → s.rest (.compute i) 0 = [] →
      executions (cannonTP blas n p) (.act (.multiply i)) (launched n p a b c) ls = n) ∧
    (∀ (d : Side) (i : Tile n) j x os, s.rest (.compute i) j = .act x :: os →
      x = push d i ∨ x = pop d i → queue d (s.mem.allMatrices i) ≠ []) ∧
    (∀ (d : Side) (i : Tile n), (queue d (s.mem.allMatrices i)).length ≤ n + 1) ∧
    ((∀ i : Tile n, s.fired (.compute i) = 1 ∧ s.rest (.compute i) 0 = []) →
      ∀ (d : Side) (u : Tile n),
        queue d (s.mem.allMatrices (d.dest u)) = [tileOf p (d.pick a b) u]) := by
  have : NeZero n := ⟨Nat.pos_iff_ne_zero.mp hn⟩
  have hs := Reachable.of_run hrun
  have hc := Ctl.reachable hn hs
  have h := Data.reachable hs
  refine ⟨?_, ?_, ?_, ?_, ?_⟩
  · intro i l t hx hl
    obtain ⟨hpt, hcount⟩ := hc.counts_at_multiply hx
    have hlt : s.mem.curIterations i < n := hc.cur_lt i (by rw [hpt]; trivial)
    have hk : s.mem.curIterations i =
        executions (cannonTP blas n p) (.act (.multiply i)) (launched n p a b c) ls := by
      rw [multiplications hn hrun, hcount]
    have hhead : ∀ d : Side, (queue d (s.mem.allMatrices i)).head? =
        some (stream p a b d i (s.mem.curIterations i)) := by
      intro d
      obtain ⟨X, hX⟩ := head_of_multiply hx hl d
      rw [hX]
      rw [h.queue_eq d i] at hX
      rw [(window_head hX).2, popped, hcount]
    obtain ⟨hrowA, hcolA⟩ := heldA_pos i hlt
    obtain ⟨hrowB, hcolB⟩ := heldB_pos i hlt
    exact ⟨s.mem.curIterations i, heldA i _, heldB i _, hlt, hk, hhead .A, hrowA, hcolA,
      hhead .B, hrowB, hcolB⟩
  · intro i hf hrest
    have hpt : point s i = .done := by
      rw [point_of_fired (by omega), hrest]
      rfl
    rw [multiplications hn hrun, count, hpt, hc.cur_end i (Or.inr hpt)]
    rfl
  · exact fun d i j x os hrest hx => h.head_present hc (Data.multiplied_le hs d i) hrest hx
  · exact h.queue_length hc
  · intro hdone d u
    rw [h.queue_end hc hdone d (d.dest u), Side.skewed_dest]

/-- Four tiles: a complete run leaves in each queue the block the skew phase put there. -/
theorem torus_flow_two :
    ∃ s, Reachable (cannonTP (Blas.reference ℤ) 2 1).step
        (launched 2 1 (fun z => (z : ℤ)) (fun z => (z : ℤ) + 1) fun _ => 0) s ∧
      ∀ (d : Side) (u : Tile 2), queue d (s.mem.allMatrices (d.dest u)) =
        [tileOf 1 (d.pick (fun z => (z : ℤ)) (fun z => (z : ℤ) + 1)) u] := by
  obtain ⟨s, hs, hdone⟩ := exists_complete (p := 1) (by decide : 0 < 2) (Blas.reference ℤ)
    (fun z => (z : ℤ)) (fun z => (z : ℤ) + 1) fun _ => 0
  obtain ⟨ls, hrun⟩ := hs.exists_run
  obtain ⟨-, -, -, -, hend⟩ := torus_flow (Blas.reference ℤ) (by decide : 0 < 2)
    (fun z => (z : ℤ)) (fun z => (z : ℤ) + 1) (fun _ => 0) ls s hrun
  exact ⟨s, hs, hend fun i => ⟨(hdone _).1, (hdone _).2.2⟩⟩

end Darts.CannonDfswp
