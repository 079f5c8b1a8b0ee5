import Darts.CannonDfswp.Stream

/-!
# The pipelined `cannonTP` computes the product

A tile can only wait for a block its neighbour has not pushed yet, and then the
neighbour has made fewer turns: among the waiting tiles, one that has made the
fewest turns cannot be waiting. So nothing waits in a stuck state, every codelet
has fired, and `C` is the product.
-/

namespace Darts.CannonDfswp

open Cannon Transition Window

variable {R : Type} {n p : Nat} [CommRing R] {blas : Blas R}

section Stuck

variable {a b : Nat → R} {s : State (Cod n) (Act n) (Frame R n p)}

/-- An action waits for the head of a queue, or not at all. -/
theorem exec_eq_none {x : Act n} {f : Frame R n p} (h : exec blas x f = none) :
    ∃ (d : Side) (i : Tile n), x.owner = .compute i ∧ (x = .multiply i ∨ x = push d i ∨ x = pop d i) ∧
      (queue d (f.allMatrices i)).head? = none := by
  cases x with
  | multiply i =>
    have hm := Option.map_eq_none_iff.mp h
    simp only [multiply] at hm
    split at hm
    next => exact absurd hm (by simp)
    next hno =>
      cases hA : (f.allMatrices i).AQueue.head? with
      | none => exact ⟨.A, i, rfl, Or.inl rfl, hA⟩
      | some A =>
        cases hB : (f.allMatrices i).BQueue.head? with
        | none => exact ⟨.B, i, rfl, Or.inl rfl, hB⟩
        | some B => exact absurd hB (hno A B hA)
  | pushA i => exact ⟨.A, i, rfl, Or.inr (Or.inl rfl), Option.map_eq_none_iff.mp h⟩
  | pushB i => exact ⟨.B, i, rfl, Or.inr (Or.inl rfl), Option.map_eq_none_iff.mp h⟩
  | popA i => exact ⟨.A, i, rfl, Or.inr (Or.inr rfl), Option.map_eq_none_iff.mp h⟩
  | popB i => exact ⟨.B, i, rfl, Or.inr (Or.inr rfl), Option.map_eq_none_iff.mp h⟩
  | gatherA i | gatherB i | scatterC i | pushScratchA i | pushScratchB i | test i | incr i
  | continuation => exact absurd h (by simp [exec])

/-- In a stuck state only compute codelets are under way, each waiting in front
of an empty queue it has not popped in this turn. -/
theorem Ctl.waiting (hc : Ctl blas s) (hstuck : Stuck (cannonTP blas n p).step s) {k : Cod n}
    {j : Nat} (hrest : s.rest k j ≠ []) :
    ∃ (d : Side) (i : Tile n), k = .compute i ∧ (point s i).Inside ∧
      popped s d i = s.mem.curIterations i ∧ (queue d (s.mem.allMatrices i)).head? = none := by
  obtain ⟨x, os, hx, hexec⟩ := Program.rest_of_stuck hstuck hrest
  obtain ⟨d, i, howner, hkind, hempty⟩ := exec_eq_none hexec
  obtain ⟨rfl, rfl, -⟩ := hc.owner hx
  refine ⟨d, i, howner, ?_⟩
  have hhead := hc.headAct_point (l := .op x.owner 0) (i := i) (by rw [State.nextAct, hx]; rfl) howner
  rcases hkind with rfl | rfl | rfl
  · cases hp : point s i <;>
      simp [hp, Point.rest, iteration, fireBody, Op.headAct] at hhead
    cases d <;> simp [popped, count, hp, Point.stage, popTurn, Point.Inside, hempty]
  · cases d <;> cases hp : point s i <;>
      simp [hp, Point.rest, iteration, fireBody, Op.headAct, push] at hhead <;>
      simp [popped, count, hp, Point.stage, popTurn, Point.Inside, hempty]
  · cases d <;> cases hp : point s i <;>
      simp [hp, Point.rest, iteration, fireBody, Op.headAct, pop] at hhead <;>
      simp [popped, count, hp, Point.stage, popTurn, Point.Inside, hempty]

/-- Once one compute codelet has started in a stuck state, all have. -/
theorem Ctl.all_started (hc : Ctl blas s) (hstuck : Stuck (cannonTP blas n p).step s) {i : Tile n}
    (hf : s.fired (.compute i) ≠ 0) (j : Tile n) : s.fired (.compute j) = 1 := by
  have hbar := (hc.one.source_done (oneShot blas n p) (.compute i) .skewBarrier trivial
    (by omega) (by simp [sources])).1
  have hrest : s.rest .skewBarrier 0 = [] := by
    by_contra hne
    obtain ⟨d, i, he, -⟩ := hc.waiting hstuck hne
    cases he
  have hdue : OneShot.due (cannonTP blas n p) sources s (.compute j) = 0 := by
    rw [OneShot.due_eq_zero_iff]
    intro k hk
    obtain rfl : k = .skewBarrier := by simpa [sources] using hk
    rw [OneShot.todo, if_neg (by omega), hrest]
    exact List.not_mem_nil
  have honce := hc.one.once (.compute j) trivial
  rw [if_pos hdue, Program.pool_of_stuck hstuck] at honce
  omega

/-- **Nobody waits in a stuck state**, by induction on the number of turns made. -/
theorem Data.not_waiting [NeZero n] (h : Data blas a b s) (hc : Ctl blas s)
    (hstuck : Stuck (cannonTP blas n p).step s) :
    ∀ m (i : Tile n), s.mem.curIterations i = m → ¬(point s i).Inside := by
  intro m
  induction m using Nat.strong_induction_on with
  | _ m ih =>
    intro i hm hin
    have hf : s.fired (.compute i) ≠ 0 := by
      intro hf
      rw [point_idle_iff.mpr hf] at hin
      exact hin
    have hrest : s.rest (.compute i) 0 ≠ [] := by
      rw [hc.rest_compute i]
      cases hp : point s i <;> simp [hp, Point.Inside] at hin <;> simp [Point.rest, iteration]
    obtain ⟨d, i', he, -, hpop, hempty⟩ := hc.waiting hstuck hrest
    obtain rfl : i = i' := Cod.compute.inj he
    rw [h.queue_eq d i] at hempty
    have hle := window_head_none hempty
    -- the neighbour has not pushed its block of turn `m - 1`
    have hskew : Executed blas s (pushScratch d (d.skewed i)) := by
      obtain ⟨hA, hB⟩ := hc.skewed (i := i) (by omega) (d.skewed i)
      cases d
      · exact hA
      · exact hB
    rw [arrived, if_pos hskew, hpop, hm] at hle
    have hcount : s.mem.curIterations (d.feeder i) ≤ count s (d.feeder i) (pushTurn d) :=
      Nat.le_add_right _ _
    have hlt := hc.cur_lt i hin
    have hnbr : point s (d.feeder i) = .done ∨ (point s (d.feeder i)).Inside := by
      have hf' := hc.all_started hstuck hf (d.feeder i)
      by_cases hnil : s.rest (.compute (d.feeder i)) 0 = []
      · rw [point_of_fired (by omega), hnil]
        exact Or.inl rfl
      · obtain ⟨d', i', he', hin', -⟩ := hc.waiting hstuck hnil
        obtain rfl : d.feeder i = i' := Cod.compute.inj he'
        exact Or.inr hin'
    rcases hnbr with hdone | hin'
    · have := hc.cur_end _ (Or.inr hdone)
      omega
    · exact ih _ (by omega) (d.feeder i) rfl hin'

/-- **A stuck state is a finished one.** -/
theorem Data.all_fired [NeZero n] (h : Data blas a b s) (hc : Ctl blas s)
    (hstuck : Stuck (cannonTP blas n p).step s) (k : Cod n) :
    s.fired k = 1 ∧ s.pool k = 0 ∧ s.rest k 0 = [] := by
  have hrest : ∀ k, s.rest k 0 = [] := by
    intro k
    by_contra hne
    obtain ⟨d, i, rfl, hin, -⟩ := hc.waiting hstuck hne
    exact h.not_waiting hc hstuck _ i rfl hin
  refine ⟨?_, Program.pool_of_stuck hstuck k, hrest k⟩
  exact hc.one.all_fired (oneShot blas n p) rank (fun k k' _ hk' => rank_sources k k' hk')
    (fun k _ => Program.pool_of_stuck hstuck k) (fun k _ => hrest k) k trivial

end Stuck

/-! ## The program -/

/-- **Cannon's product, pipelined, under every interleaving.** No run is stuck
before the end codelet has fired; no run is longer than a bound, so every run gets
there; the end codelet fires once; and from the moment it is scheduled `C` is the
product. -/
theorem pipelined_product (blas : Blas R) (hn : 0 < n) (a b c : Nat → R) :
    (∀ s, Reachable (cannonTP blas n p).step (launched n p a b c) s →
      s.fired .endCodelet = 0 → ¬Stuck (cannonTP blas n p).step s) ∧
    (∃ bound, ∀ ls s, run (cannonTP blas n p).step (launched n p a b c) ls = some s →
      ls.length ≤ bound) ∧
    (∀ s, Reachable (cannonTP blas n p).step (launched n p a b c) s →
      s.fired .endCodelet ≤ 1 ∧
      (Stuck (cannonTP blas n p).step s → s.fired .endCodelet = 1)) ∧
    (∀ s, Reachable (cannonTP blas n p).step (launched n p a b c) s →
      0 < s.pool .endCodelet + s.fired .endCodelet →
      ∀ row col, row < n * p → col < n * p →
        s.mem.C.ptr (row * (n * p) + col) = mulEntry (n * p) a b row col) := by
  have : NeZero n := ⟨Nat.pos_iff_ne_zero.mp hn⟩
  have hend : ∀ s, Reachable (cannonTP blas n p).step (launched n p a b c) s →
      Stuck (cannonTP blas n p).step s → s.fired .endCodelet = 1 := fun s hs hstuck =>
    ((Data.reachable hs).all_fired (Ctl.reachable hn hs) hstuck _).1
  refine ⟨?_, ⟨∑ k, workLimit n k, fun ls s hrun => run_length_le hn hrun⟩, ?_, ?_⟩
  · intro s hs hzero hstuck
    have := hend s hs hstuck
    omega
  · intro s hs
    have hle := (Ctl.reachable hn hs).one.fired_le_one (k := .endCodelet) trivial
    exact ⟨by omega, hend s hs⟩
  · intro s hs hstart row col hrow hcol
    exact (Data.reachable hs).product (Ctl.reachable hn hs) hstart hrow hcol

/-- `[[0, 1], [2, 3]] * [[1, 2], [3, 4]]` in four tiles: a run ends with `11` at row 1,
column 0. -/
theorem pipelined_product_two :
    ∃ s, Reachable (cannonTP (Blas.reference ℤ) 2 1).step
        (launched 2 1 (fun z => (z : ℤ)) (fun z => (z : ℤ) + 1) fun _ => 0) s ∧
      s.fired .endCodelet = 1 ∧ s.mem.C.ptr 2 = 11 := by
  obtain ⟨-, ⟨bound, hbound⟩, hend, hproduct⟩ := pipelined_product (p := 1) (Blas.reference ℤ)
    (by decide : 0 < 2) (fun z => (z : ℤ)) (fun z => (z : ℤ) + 1) fun _ => 0
  obtain ⟨s, hs, hstuck⟩ := Reachable.exists_stuck hbound .start
  have hfired := (hend s hs).2 hstuck
  have hentry := hproduct s hs (by omega) 1 0 (by decide) (by decide)
  exact ⟨s, hs, hfired, by simpa [mulEntry, Finset.sum_range_succ] using hentry⟩

end Darts.CannonDfswp
