import Darts.CannonDfswp.Scheduled
import Darts.CannonDouble.Correct
import Darts.Scheduler.Execution

/-!
# The two Cannon programs on the runtime

`CannonDouble/Correct.lean` and `CannonDfswp/Correct.lean` are about every interleaving of
the codelets, with no scheduler. Here both programs run on the threads of the runtime, with
its pools, buffers, steals and refused pushes. The machine follows
(`Scheduler/Execution.lean`), so `C` is the product when the end codelet fires, whatever
the policies are; and a runtime that has become idle has fired it.
-/

namespace Darts

open Cannon Transition Execution

namespace CannonDouble

variable {n : Nat}

/-- `add(allCopyACod[i]); add(allCopyBCod[i]);` for every tile. -/
def addOrder (n : Nat) : List (Cod n) :=
  (List.finRange (n * n)).flatMap fun i => [.copyA i, .copyB i]

theorem count_addOrder (k : Cod n) : (addOrder n).count k = added n k := by
  have hnodup : (addOrder n).Nodup := by
    refine List.nodup_flatMap.mpr ⟨fun i _ => by simp, ?_⟩
    exact (List.nodup_finRange _).imp fun h => by simp [h.symm]
  rw [List.Nodup.count hnodup]
  cases k <;> simp [addOrder, added, slot, SyncSlot.ready]

end CannonDouble

variable {R : Type} [CommRing R] {n p : Nat} {blas : Blas R} {a b c : Nat → R}

theorem CannonDouble.readyAdds [NeZero n] :
    ReadyAdds (CannonDouble.cannonTP blas n p) (CannonDouble.launched n p a b c)
      (CannonDouble.addOrder n) := by
  intro m hm k hk hpool
  refine (CannonDouble.Ctl.reachable hm).early.ready_of_pool ?_ hpool
  obtain ⟨i, -, hi⟩ := List.mem_flatMap.mp hk
  rcases List.mem_cons.mp hi with rfl | hi
  · trivial
  · obtain rfl := List.mem_singleton.mp hi
    trivial

theorem CannonDfswp.readyAdds (hn : 0 < n) :
    ReadyAdds (CannonDfswp.cannonTP blas n p) (CannonDfswp.launched n p a b c)
      (CannonDfswp.addOrder n) := fun _ hm _ _ hpool =>
  (CannonDfswp.Ctl.reachable hn hm).one.ready_of_pool trivial hpool

section Runtime

variable {rt : Runtime} {links : Startup.State rt.numTPSched_ rt.numMCSched_}
  {P : Dispatch.TPPolicy} {th : Startup.RtThread rt}

/-- **The double-buffered Cannon on the runtime.** Under any TP policy over any workers that lose no
codelet, on any number of clusters and in every interleaving: `C` is the product from the moment the
end codelet fires, no codelet fires more often than it has to, and when the runtime is idle every
codelet has fired as often as it has to. -/
theorem double_buffered_on_runtime {w : Dispatch.Wishes (CannonDouble.Cod n)}
    {workers : Fin rt.numTPSched_ × Fin rt.numMCSched_ →
      TPStatic.MScheduler (CannonDouble.Cod n)}
    (hlinks : Reachable (Startup.step rt) (Startup.start rt) links) (hth : links.rest th = [])
    (hserved : Dispatch.Served P rt.numMCSched_)
    (hkeeps : P ≠ .TPStatic ∨ ∀ k, ∃ buff, workers k = .MicroStatic buff)
    (hempty : ∀ k, (workers k).contents = []) (hn : 0 < n)
    {s : Execution.State (CannonDouble.Cod n) (CannonDouble.Act n) (CannonDouble.Frame R n p)
      rt.numTPSched_ rt.numMCSched_}
    (hs : Reachable (Execution.step links w P (CannonDouble.cannonTP blas n p))
      (.start (CannonDouble.launched n p a b c) (CannonDouble.addOrder n) workers) s) :
    (0 < s.fired .endCodelet → ∀ row col, row < n * p → col < n * p →
      s.mem.C.ptr (row * (n * p) + col) = mulEntry (n * p) a b row col) ∧
    (∀ k, s.fired k ≤ CannonDouble.firings n k) ∧
    (Idle s → ∀ k, s.fired k = CannonDouble.firings n k) := by
  have : NeZero n := ⟨Nat.pos_iff_ne_zero.mp hn⟩
  obtain ⟨m, hm, hR⟩ := exists_machine hserved (Steal.ready_of_through hlinks hth) hkeeps hempty
    (fun k => (CannonDouble.count_addOrder k).symm) (fun _ _ => rfl) CannonDouble.readyAdds hs
  have hc := CannonDouble.Ctl.reachable hm
  refine ⟨fun hend row col hrow hcol => ?_, fun k => ?_, fun hidle k => ?_⟩
  · rw [← hR.mem]
    rw [← hR.fired] at hend
    exact (CannonDouble.Data.reachable hm).product hc (Nat.add_pos_right _ hend) hrow hcol
  · have hle := hc.fired_le k
    rw [← hR.fired]
    omega
  · rw [← hR.fired]
    exact (hc.all_fired (hR.stuck hidle) k).1

/-- **The pipelined Cannon on the runtime**, under the same policies. A compute codelet that waits
keeps its thread, so the runtime need not become idle; when it does, everything has fired. -/
theorem pipelined_on_runtime {w : Dispatch.Wishes (CannonDfswp.Cod n)}
    {workers : Fin rt.numTPSched_ × Fin rt.numMCSched_ →
      TPStatic.MScheduler (CannonDfswp.Cod n)}
    (hlinks : Reachable (Startup.step rt) (Startup.start rt) links) (hth : links.rest th = [])
    (hserved : Dispatch.Served P rt.numMCSched_)
    (hkeeps : P ≠ .TPStatic ∨ ∀ k, ∃ buff, workers k = .MicroStatic buff)
    (hempty : ∀ k, (workers k).contents = []) (hn : 0 < n)
    {s : Execution.State (CannonDfswp.Cod n) (CannonDfswp.Act n) (CannonDfswp.Frame R n p)
      rt.numTPSched_ rt.numMCSched_}
    (hs : Reachable (Execution.step links w P (CannonDfswp.cannonTP blas n p))
      (.start (CannonDfswp.launched n p a b c) (CannonDfswp.addOrder n) workers) s) :
    (0 < s.fired .endCodelet → ∀ row col, row < n * p → col < n * p →
      s.mem.C.ptr (row * (n * p) + col) = mulEntry (n * p) a b row col) ∧
    (∀ k, s.fired k ≤ 1) ∧
    (Idle s → ∀ k, s.fired k = 1) := by
  have : NeZero n := ⟨Nat.pos_iff_ne_zero.mp hn⟩
  obtain ⟨m, hm, hR⟩ := exists_machine hserved (Steal.ready_of_through hlinks hth) hkeeps hempty
    (fun k => (CannonDfswp.count_addOrder k).symm) (fun _ _ => rfl) (CannonDfswp.readyAdds hn) hs
  have hc := CannonDfswp.Ctl.reachable hn hm
  refine ⟨fun hend row col hrow hcol => ?_, fun k => ?_, fun hidle k => ?_⟩
  · rw [← hR.mem]
    rw [← hR.fired] at hend
    exact (CannonDfswp.Data.reachable hm).product hc (Nat.add_pos_right _ hend) hrow hcol
  · have hone := hc.one.fired_le_one (k := k) trivial
    rw [← hR.fired]
    omega
  · rw [← hR.fired]
    exact ((CannonDfswp.Data.reachable hm).all_fired hc (hR.stuck hidle) k).1

end Runtime

/-! ## Whole runs -/

/-- TP scheduler 0 hands the next codelet of its pool to a worker. -/
def handOut (rt : Runtime) : List (Execution.Label rt.numTPSched_ rt.numMCSched_) :=
  List.replicate 3 (.tp (Startup.first rt) 0 0)

/-- The worker fires it. -/
def workerTurn {N n : Nat} (k : Fin N × Fin n) (ready : List Nat) (last : Nat) :
    List (Execution.Label N n) :=
  .mc k 0 0 :: fireTurn (.mc k.1 k.2) ready last

/-- All of the double-buffered Cannon with four tiles, by one worker. -/
def doubleBuffered : List (Execution.Label Steal.two.numTPSched_ Steal.two.numMCSched_) :=
  let worker : Fin Steal.two.numTPSched_ × Fin Steal.two.numMCSched_ :=
    (Startup.first Steal.two, ⟨0, Nat.one_pos⟩)
  let turn := fun ready last => handOut Steal.two ++ workerTurn worker ready last
  let copies := (List.replicate 4 (turn [] 2 ++ turn [2] 0)).flatten
  let skews := (List.replicate 3 (turn [] 3)).flatten ++ turn [3] 0
  let round := turn [8, 1, 1, 1] 0 ++ (List.replicate 3 (turn [] 5)).flatten ++ turn [5] 0
  let finish := turn [3, 1, 1, 1] 0 ++ (List.replicate 3 (turn [] 2)).flatten ++ turn [2] 0
  factoryTurn Steal.two 8 ++ copies ++ skews ++ round ++ round ++ finish ++ turn [] 1

/-- Under round robin, on two clusters of one worker with an unbounded queue. -/
def doubleBufferedRun :=
  run (Execution.step (Steal.linked Steal.two) ⟨fun _ => 0, fun _ => 0⟩ .TPRoundRobin
      (CannonDouble.cannonTP (Blas.reference ℤ) 2 1))
    (.start (CannonDouble.launched 2 1 (fun z => (z : ℤ)) (fun z => (z : ℤ) + 1) fun _ => 0)
      (CannonDouble.addOrder 2) fun _ => .MicroStatic [])
    doubleBuffered

theorem double_buffered_on_runtime_two : ∃ s, doubleBufferedRun = some s ∧
    s.mem.C.ptr 2 = 11 ∧ ∀ k, s.fired k = CannonDouble.firings 2 k := by
  have hmap : doubleBufferedRun.map (fun s => (s.fired .endCodelet, decide (∀ p, s.cell p = []),
      decide (∀ th, s.body th = none))) = some (1, true, true) := by decide +kernel
  obtain ⟨s, hrun, heq⟩ := Option.map_eq_some_iff.mp hmap
  simp only [Prod.mk.injEq, decide_eq_true_eq] at heq
  obtain ⟨hend, hidle⟩ := heq
  obtain ⟨hlinks, hdone⟩ := Steal.linked_two
  obtain ⟨hproduct, -, hfired⟩ := double_buffered_on_runtime hlinks
    (hdone (.tp (Startup.first Steal.two))) (.inl (by decide)) (.inl (by simp)) (fun _ => rfl)
    (by decide) (.of_run hrun)
  refine ⟨s, hrun, ?_, hfired hidle⟩
  simpa [mulEntry, Finset.sum_range_succ] using hproduct (by omega) 1 0 (by decide) (by decide)

/-- One cluster of four workers. -/
def four : Runtime := ⟨1, 4, Nat.one_pos, by decide⟩

theorem linked_four : Reachable (Startup.step four) (Startup.start four) (Steal.linked four) ∧
    ∀ th, (Steal.linked four).rest th = [] :=
  ⟨Steal.linked_reachable (by decide +kernel), by decide +kernel⟩

/-- All of the pipelined Cannon with four tiles: the workers are offered the codelets in turn, and
when all compute codelets are under way each does its first multiplication. -/
def pipelined : List (Execution.Label four.numTPSched_ four.numMCSched_) :=
  let worker : Nat → Fin four.numTPSched_ × Fin four.numMCSched_ := fun k =>
    (Startup.first four, Fin.ofNat 4 k)
  let turn := fun k ready last => handOut four ++ workerTurn (worker k) ready last
  let copies := (List.range 4).flatMap fun i => turn (2 * i) [] 2 ++ turn (2 * i + 1) [2] 0
  let skews := turn 0 [] 3 ++ turn 1 [] 3 ++ turn 2 [] 3 ++ turn 3 [3] 0 ++ turn 0 [1, 1, 1, 1] 0
  let computes := [1, 2, 3, 0].flatMap (fun k => handOut four ++ [.mc (worker k) 0 0]) ++
    [1, 2, 3, 0].flatMap (fun k => List.replicate 9 (.op (.mc (worker k).1 (worker k).2))) ++
    [1, 2, 3, 0].flatMap fun k => fireTurn (.mc (worker k).1 (worker k).2) [8] 0
  factoryTurn four 8 ++ copies ++ skews ++ computes ++
    turn 1 [] 2 ++ turn 2 [] 2 ++ turn 3 [] 2 ++ turn 0 [2] 0 ++ turn 1 [] 1

/-- Under `TPPushFull`, over workers with a ring buffer. -/
def pipelinedRun :=
  run (Execution.step (Steal.linked four) ⟨fun _ => 0, fun _ => 0⟩ .TPPushFull
      (CannonDfswp.cannonTP (Blas.reference ℤ) 2 1))
    (.start (CannonDfswp.launched 2 1 (fun z => (z : ℤ)) (fun z => (z : ℤ) + 1) fun _ => 0)
      (CannonDfswp.addOrder 2) fun _ => .MicroStandard (.new fun _ => .endCodelet))
    pipelined

theorem pipelined_on_runtime_two : ∃ s, pipelinedRun = some s ∧
    s.mem.C.ptr 2 = 11 ∧ ∀ k, s.fired k = 1 := by
  have hmap : pipelinedRun.map (fun s => (s.fired .endCodelet, decide (∀ p, s.cell p = []),
      decide (∀ th, s.body th = none))) = some (1, true, true) := by decide +kernel
  obtain ⟨s, hrun, heq⟩ := Option.map_eq_some_iff.mp hmap
  simp only [Prod.mk.injEq, decide_eq_true_eq] at heq
  obtain ⟨hend, hidle⟩ := heq
  obtain ⟨hlinks, hdone⟩ := linked_four
  obtain ⟨hproduct, -, hfired⟩ := pipelined_on_runtime hlinks (hdone (.tp (Startup.first four)))
    (.inl (by decide)) (.inl (by simp)) (fun _ => rfl) (by decide) (.of_run hrun)
  refine ⟨s, hrun, ?_, hfired hidle⟩
  simpa [mulEntry, Finset.sum_range_succ] using hproduct (by omega) 1 0 (by decide) (by decide)

end Darts
