import Darts.CannonDfswp.Correct
import Darts.Scheduler.HintSched

/-!
# The pipelined `cannonTP` on `TPHintSched` with `w` workers

A compute codelet does not return before its `n` turns are made, and waits inside
`fire()` for blocks that other compute codelets push. Whatever is queued behind it
on its worker waits with it. So the program gets to its end as long as nothing is
queued behind an unfinished compute codelet, which is the case in every run when
there is a worker for every tile (`n * n ≤ w`): the hint of a codelet is its tile.

With fewer workers than tiles the compute codelets of some tiles go round robin to
workers that have one already, and when the one in front waits for the one behind,
the cluster is blocked for good. With a single worker and `n ≥ 2` that is the fate of
every run (`not_finished_alone`).
-/

namespace Darts.CannonDfswp

open Cannon Transition TPHintSched

variable {R : Type} {n p w : Nat} [CommRing R] {blas : Blas R}

/-- `getSchedHint()`: the constructors of the tiles' codelets set the tile as hint, the
others leave it at `(uint32_t) -1`. -/
def getSchedHint : Cod n → Nat
  | .copyA i | .copyB i | .copyC i | .skew i | .compute i => i.val
  | .skewBarrier | .endCodelet => 2 ^ 32 - 1

/-- `for (i = 0; i < numTiles; ++i) { add(allCopyACod[i]); add(allCopyBCod[i]); }`: what the
constructor puts into the pool of the TP scheduler, in this order. -/
def addOrder (n : Nat) : List (Cod n) :=
  ((List.finRange (n * n)).flatMap fun i => [.copyA i, .copyB i]).filter
    fun k => (slot n k).ready

theorem count_addOrder (k : Cod n) : (addOrder n).count k = added n k := by
  have hnodup : ((List.finRange (n * n)).flatMap fun i => [Cod.copyA i, .copyB i]).Nodup := by
    refine List.nodup_flatMap.mpr ⟨fun i _ => by simp, ?_⟩
    exact (List.nodup_finRange _).imp fun h => by simp [h.symm]
  unfold addOrder
  rw [List.Nodup.count (hnodup.filter _)]
  cases k <;> simp [added]

/-- The cluster after the factory has run the constructor. -/
def clustered (n p w : Nat) (a b c : Nat → R) (junk : Fin w → Fin 4 → Cod n) :
    TPHintSched.State (Cod n) (Act n) (Frame R n p) w :=
  .start (launched n p a b c) (addOrder n) junk

/-- The codelets that may wait inside `fire()`. -/
def Cod.Spins (k : Cod n) : Prop := ∃ i, k = .compute i

section Cluster

variable {a b c : Nat → R} {junk : Fin w → Fin 4 → Cod n}
  {s t : TPHintSched.State (Cod n) (Act n) (Frame R n p) w}

/-- The machine of a reachable cluster is a reachable machine. -/
theorem cluster_inv
    (h : Reachable (step (cannonTP blas n p) getSchedHint) (clustered n p w a b c junk) s) :
    TPHintSched.Inv (cannonTP blas n p) getSchedHint (launched n p a b c) s :=
  reachable_inv (fun k => (count_addOrder k).symm) (fun _ _ => rfl) h

/-- Only compute codelets wait. -/
theorem spins_of_wait {m : State (Cod n) (Act n) (Frame R n p)} (hc : Ctl blas m)
    {k : Cod n} {j : Nat} (hrest : m.rest k j ≠ [])
    (hwait : (cannonTP blas n p).step m (.op k j) = none) : k.Spins := by
  obtain ⟨x, os, hx, hexec⟩ : ∃ x os, m.rest k j = .act x :: os ∧ exec blas x m.mem = none := by
    by_contra hno
    exact Program.step_op_ne_none (P := cannonTP blas n p) hrest
      (fun x os hx hexec => hno ⟨x, os, hx, hexec⟩) hwait
  obtain ⟨-, i, howner, -, -⟩ := exec_eq_none hexec
  exact ⟨i, (hc.owner hx).1.trans howner⟩

/-! ## With a worker for every tile -/

/-- While the compute codelet of a tile is scheduled or under way, no other codelet of the
tile is scheduled, and none of the two codelets without a hint. -/
theorem Ctl.exclusive {m : State (Cod n) (Act n) (Frame R n p)} (hc : Ctl blas m) {i : Tile n}
    (hstart : 0 < m.pool (.compute i) + m.fired (.compute i))
    (hundone : m.fired (.compute i) = 1 → m.rest (.compute i) 0 ≠ []) {k : Cod n}
    (hpool : 0 < m.pool k) (htile : k = .skewBarrier ∨ k = .endCodelet ∨
      k = .copyA i ∨ k = .copyB i ∨ k = .copyC i ∨ k = .skew i ∨ k = .compute i) :
    k = .compute i := by
  have hunfired : m.fired k ≠ 1 := fun hf => by
    have := hc.one.fired_le_one (k := k) trivial
    omega
  have hbar := (hc.one.source_done (oneShot blas n p) (.compute i) .skewBarrier trivial hstart
    (by simp [sources])).1
  have hskew := (hc.skew_finished hstart i).1
  have hcopies : ∀ k', k' ∈ sources (.skew i) → m.fired k' = 1 := fun k' hk' =>
    (hc.one.source_done (oneShot blas n p) (.skew i) k' trivial (by omega) hk').1
  -- the copy back of the tile waits for the compute codelet
  have hback : m.pool (.copyC i) + m.fired (.copyC i) = 0 := by
    by_contra hne
    have hdone := (hc.computed (i := i) (by omega)).1
    have hone := (hc.one.source_done (oneShot blas n p) (.copyC i) (.compute i) trivial (by omega)
      (by simp [sources])).1
    refine hundone hone ?_
    rw [hc.rest_compute i, hdone]
    rfl
  rcases htile with rfl | rfl | rfl | rfl | rfl | rfl | rfl
  · exact absurd hbar hunfired
  · have := (hc.one.source_done (oneShot blas n p) .endCodelet (.copyC i) trivial (by omega)
      (by simp [sources])).1
    omega
  · exact absurd (hcopies _ (by simp [sources])) hunfired
  · exact absurd (hcopies _ (by simp [sources])) hunfired
  · omega
  · exact absurd hskew hunfired
  · rfl

omit [CommRing R] in
/-- A codelet that can be offered to worker `i` is one of tile `i`, or has no hint. -/
theorem tile_of_myCDS (hw : n * n ≤ w) {i : Tile n} {k : Cod n} {v : Fin w}
    (hv : s.myCDS getSchedHint k = some v) (hi : v.val = i.val) :
    k = .skewBarrier ∨ k = .endCodelet ∨
      k = .copyA i ∨ k = .copyB i ∨ k = .copyC i ∨ k = .skew i ∨ k = .compute i := by
  have htile : ∀ j : Tile n, getSchedHint k = j.val → j = i := fun j hj =>
    Fin.ext (by rw [← hj, ← hi, myCDS_pinned hv (hj ▸ Nat.lt_of_lt_of_le j.isLt hw)])
  cases k with
  | skewBarrier => exact .inl rfl
  | endCodelet => exact .inr (.inl rfl)
  | copyA j | copyB j | copyC j | skew j | compute j =>
    obtain rfl := htile j rfl
    simp

/-- **With a worker for every tile nothing is ever queued behind a compute codelet.** -/
theorem clear_of_workers (hn : 0 < n) (hw : n * n ≤ w)
    (h : Reachable (step (cannonTP blas n p) getSchedHint) (clustered n p w a b c junk) s)
    (l : TPHintSched.Label w) : Clear getSchedHint Cod.Spins s l := by
  have hs := cluster_inv h
  have hc := Ctl.reachable hn hs.sim
  intro _ k v hk hv
  have hpool : 0 < s.machine.pool k := Places.Holds.pos hs.pool (p := .hand) (by
    simp [State.cell, hk])
  have hworker : ∀ {i : Tile n}, (.compute i ∈ (s.buff v).contents ∨
      ∃ j, s.running v = some (.compute i, j)) → v.val = i.val := fun {i} hon =>
    hs.pinned v _ hon (Nat.lt_of_lt_of_le i.isLt hw)
  refine ⟨fun k' hk' => ?_, fun k' j hrun hspin => ?_⟩
  · intro hex
    obtain ⟨i, rfl⟩ := hex
    have hbuf : 0 < s.machine.pool (.compute i) :=
      Places.Holds.pos hs.pool (p := .buffer v) hk'
    have hone := hc.one.fired_le_one (k := .compute i) trivial
    obtain rfl := hc.exclusive (i := i) (by omega) (fun hf => by omega) hpool
      (tile_of_myCDS hw hv (hworker (.inl hk')))
    -- in hand and in the buffer: scheduled twice
    have htwo := Places.Holds.two_le hs.pool (p := .hand) (q := .buffer v) (by simp)
      (by simp [State.cell, hk]) hk'
    omega
  · obtain ⟨i, rfl⟩ := hspin
    by_contra hrest
    obtain ⟨rfl, hf⟩ := hc.one.single (.compute i) j trivial hrest
    obtain rfl := hc.exclusive (i := i) (by omega) (fun _ => hrest) hpool
      (tile_of_myCDS hw hv (hworker (.inr ⟨_, hrun⟩)))
    have hone := hc.one.fired_le_one (k := .compute i) trivial
    omega

/-! ## With a single worker -/

/-- A tile is not its own right neighbour. -/
theorem nextRow_ne (hn : 2 ≤ n) (i : Tile n) : nextRow i ≠ i := by
  intro h
  have hval : theJ n i * n + nextI n i = i.val := congrArg Fin.val h
  have hdiv : i.val = theJ n i * n + theI n i := (Nat.div_add_mod' i.val n).symm
  have hlt := theI_lt i
  have hnext : (theI n i + 1) % n = theI n i := by
    unfold nextI at hval
    omega
  rcases Nat.lt_or_ge (theI n i + 1) n with hin | hout
  · rw [Nat.mod_eq_of_lt hin] at hnext
    omega
  · have hlast : theI n i + 1 = n := by omega
    rw [hlast, Nat.mod_self] at hnext
    omega

/-- A tile whose compute codelet is done has got blocks from its neighbour's. -/
theorem Data.feeder_started [NeZero n] {m : State (Cod n) (Act n) (Frame R n p)} (hn : 2 ≤ n)
    (hd : Data blas a b m) (hc : Ctl blas m) {i : Tile n} (hdone : point m i = .done) :
    point m (Side.A.feeder i) ≠ .idle := by
  intro hidle
  have hpop : popped m .A i = n := by
    unfold popped count
    rw [hc.cur_end i (.inr hdone), hdone]
    rfl
  have harr : arrived blas m .A i ≤ 1 := by
    unfold arrived count
    rw [hc.cur_start _ (.inl hidle), hidle]
    split <;> simp [Point.stage]
  have := hd.popped_le .A i
  omega

/-- A step that brings a compute codelet to its end is one of that codelet. -/
theorem Ctl.last_step {m m' : State (Cod n) (Act n) (Frame R n p)} (hc : Ctl blas m)
    {l : Label (Cod n)} (hl : (cannonTP blas n p).step m l = some m') {i : Tile n}
    (hnot : point m i ≠ .done) (hdone : point m' i = .done) :
    l = .op (.compute i) 0 ∧ ∀ j, j ≠ i → point m' j = point m j := by
  have hop : l = .op (.compute i) 0 := by
    rw [(hc.point_step hl i).1] at hdone
    unfold advance at hdone
    split at hdone
    next => cases hdone
    next =>
      split at hdone
      next hop => exact hop
      next => exact absurd hdone hnot
  refine ⟨hop, fun j hj => ?_⟩
  rw [(hc.point_step hl j).1, hop]
  unfold advance
  rw [if_neg (by simp), if_neg (by simpa using hj.symm)]

/-- With one worker no compute codelet ever returns: it would need the blocks of another
one that can only run after it. -/
theorem not_done_alone (hn : 2 ≤ n) {junk : Fin 1 → Fin 4 → Cod n}
    {s : TPHintSched.State (Cod n) (Act n) (Frame R n p) 1}
    (h : Reachable (step (cannonTP blas n p) getSchedHint) (clustered n p 1 a b c junk) s) :
    ∀ i, point s.machine i ≠ .done := by
  have : NeZero n := ⟨by omega⟩
  refine h.invariant (fun s => ∀ i, point s.machine i ≠ .done) (fun i => ?_) ?_
  · show point (launched n p a b c) i ≠ .done
    simp [point, launched]
  · intro s l t hs hnot hl i hdone
    have hinv := cluster_inv hs
    have hc := Ctl.reachable (by omega) hinv.sim
    have ht := (cluster_inv (hs.next hl)).sim
    have hstart := (Data.reachable ht).feeder_started hn (Ctl.reachable (by omega) ht) hdone
    have hne : Side.A.feeder i ≠ i := fun he => nextRow_ne hn i (by
      have := Side.next_feeder .A i
      rwa [he] at this)
    cases step_inv hl with
    | popCodelet | offer | retry | returnWorker => exact hnot i hdone
    | pull v k r m hidle hr hm => cases (hc.last_step hm (hnot i) hdone).1
    | op v k j m hv hm =>
      obtain ⟨hop, hsame⟩ := hc.last_step hm (hnot i) hdone
      obtain ⟨rfl, rfl⟩ := Label.op.inj hop
      -- the neighbour's codelet is under way as well, on the same worker
      have hrest : s.machine.rest (.compute (Side.A.feeder i)) 0 ≠ [] := by
        have hidle : point s.machine (Side.A.feeder i) ≠ .idle := by
          rw [← hsame _ hne]
          exact hstart
        have hend := hnot (Side.A.feeder i)
        rw [hc.rest_compute]
        cases hp : point s.machine (Side.A.feeder i) <;>
          simp [hp, Point.rest, iteration, fireBody] at hidle hend ⊢
      obtain ⟨v', hv'⟩ := hinv.busy _ _ hrest
      rw [Subsingleton.elim v' v, hv] at hv'
      exact hne (Cod.compute.inj (Prod.mk.inj (Option.some.inj hv')).1).symm

/-- With one worker and `n ≥ 2` the end codelet never fires. -/
theorem not_finished_alone (hn : 2 ≤ n) {junk : Fin 1 → Fin 4 → Cod n}
    {s : TPHintSched.State (Cod n) (Act n) (Frame R n p) 1}
    (h : Reachable (step (cannonTP blas n p) getSchedHint) (clustered n p 1 a b c junk) s) :
    s.machine.fired .endCodelet = 0 := by
  by_contra hend
  have hc := Ctl.reachable (by omega) (cluster_inv h).sim
  have i : Tile n := ⟨0, Nat.mul_pos (by omega) (by omega)⟩
  have hback := (hc.one.source_done (oneShot blas n p) .endCodelet (.copyC i) trivial (by omega)
    (by simp [sources])).1
  exact not_done_alone hn h i (hc.computed (by omega)).1

/-- **One worker and `n ≥ 2`: the cluster gets blocked with the program unfinished.** -/
theorem blocked_alone (hn : 2 ≤ n) (junk : Fin 1 → Fin 4 → Cod n) :
    ∃ s, Reachable (step (cannonTP blas n p) getSchedHint) (clustered n p 1 a b c junk) s ∧
      s.machine.fired .endCodelet = 0 ∧ Blocked (cannonTP blas n p) getSchedHint s := by
  have hbound : ∀ ms m, Transition.run (cannonTP blas n p).step (launched n p a b c) ms = some m →
      ms.length ≤ _ := fun ms m hrun => run_length_le (by omega) hrun
  obtain ⟨s, hs, hblocked⟩ := exists_blocked getSchedHint (addOrder n) junk hbound
  exact ⟨s, hs, not_finished_alone hn hs, hblocked⟩

end Cluster

/-! ## Progress -/

/-- **When the pipelined Cannon does not deadlock on its scheduler.** In every run in which
`TPHintSched` puts no codelet into the buffer of a worker that has a compute codelet in its
buffer or under way, every state reached before the end codelet fires has a step that is not
a repeated test; and with a worker for every tile, all runs are such runs. -/
theorem scheduled_progress (blas : Blas R) (hn : 0 < n) (hw : 0 < w) (a b c : Nat → R)
    (junk : Fin w → Fin 4 → Cod n) :
    (∀ s, ReachableIf (step (cannonTP blas n p) getSchedHint) (Clear getSchedHint Cod.Spins)
        (clustered n p w a b c junk) s → s.machine.fired .endCodelet = 0 →
      ∃ l, l ≠ .retry ∧ step (cannonTP blas n p) getSchedHint s l ≠ none) ∧
    (n * n ≤ w → ∀ s, Reachable (step (cannonTP blas n p) getSchedHint)
        (clustered n p w a b c junk) s → s.machine.fired .endCodelet = 0 →
      ∃ l, l ≠ .retry ∧ step (cannonTP blas n p) getSchedHint s l ≠ none) := by
  have : NeZero n := ⟨Nat.pos_iff_ne_zero.mp hn⟩
  have hclear : ∀ s, ReachableIf (step (cannonTP blas n p) getSchedHint)
      (Clear getSchedHint Cod.Spins) (clustered n p w a b c junk) s →
      s.machine.fired .endCodelet = 0 →
      ∃ l, l ≠ .retry ∧ step (cannonTP blas n p) getSchedHint s l ≠ none := by
    intro s hs hend
    by_contra hno
    have hblocked : Blocked (cannonTP blas n p) getSchedHint s := fun l hl => by
      by_contra hne
      exact hno ⟨l, hl, hne⟩
    have hm := (cluster_inv hs.reachable).sim
    have hstuck := stuck_of_clear hw (fun k => (count_addOrder k).symm) (fun _ _ => rfl) hs
      (fun k j => spins_of_wait (Ctl.reachable hn hm)) hblocked
    have := ((Data.reachable hm).all_fired (Ctl.reachable hn hm) hstuck .endCodelet).1
    omega
  refine ⟨hclear, fun hworkers s hs => hclear s ?_⟩
  exact hs.reachableIf fun s l t hs _ => clear_of_workers hn hworkers hs l

/-- Four tiles, four workers: one copy has been fired and a second one is under way. -/
theorem scheduled_progress_two :
    ∃ s, run (step (cannonTP (Blas.reference ℤ) 2 1) getSchedHint)
        (clustered 2 1 4 (fun _ => 2) (fun _ => 3) (fun _ => 0) fun _ _ => .endCodelet)
        [.popCodelet 0, .offer, .pull 0, .op 0, .op 0, .returnWorker 0, .popCodelet 2, .offer,
          .pull 1] = some s ∧
      s.machine.fired (.copyA 0) = 1 ∧ s.running 1 = some (.copyB 1, 0) ∧
      ∃ l, l ≠ .retry ∧ step (cannonTP (Blas.reference ℤ) 2 1) getSchedHint s l ≠ none := by
  obtain ⟨s, hs, hfired, hrunning, hend⟩ :
      ∃ s, run (step (cannonTP (Blas.reference ℤ) 2 1) getSchedHint)
          (clustered 2 1 4 (fun _ => 2) (fun _ => 3) (fun _ => 0) fun _ _ => .endCodelet)
          [.popCodelet 0, .offer, .pull 0, .op 0, .op 0, .returnWorker 0, .popCodelet 2, .offer,
            .pull 1] = some s ∧
        s.machine.fired (.copyA 0) = 1 ∧ s.running 1 = some (.copyB 1, 0) ∧
        s.machine.fired .endCodelet = 0 := ⟨_, rfl, rfl, rfl, rfl⟩
  exact ⟨s, hs, hfired, hrunning,
    (scheduled_progress (Blas.reference ℤ) (by decide) (by decide) _ _ _ _).2 (by decide) s
      (.of_run hs) hend⟩

/-- Four tiles of one element on one worker, `./cannon_dfswp 1 1 2 2`: a state is reached in which
the end codelet has not fired and nothing can be done any more. -/
theorem scheduled_progress_fails :
    ∃ s, Reachable (step (cannonTP (Blas.reference ℤ) 2 1) getSchedHint)
        (clustered 2 1 1 (fun _ => 2) (fun _ => 3) (fun _ => 0) fun _ _ => .endCodelet) s ∧
      s.machine.fired .endCodelet = 0 ∧
      ∀ l, l ≠ .retry → step (cannonTP (Blas.reference ℤ) 2 1) getSchedHint s l = none :=
  blocked_alone (Nat.le_refl 2) _

end Darts.CannonDfswp
