import Darts.CannonDouble.Blocks

/-!
# The double-buffered `cannonTP` computes the product

No action ever waits, so a stuck state has nothing scheduled and nothing under
way. Then nobody owes the current round anything, the round protocol has come to
its end, and every codelet has fired. The steps are counted codelet by codelet
(`work`), so that no run goes on for ever.
-/

namespace Darts.CannonDouble

open Cannon Transition

variable {R : Type} {n p : Nat}

/-- How often a codelet fires. -/
def firings (n : Nat) : Cod n → Nat
  | .loop => n + 1
  | .compute _ => n
  | .copyA _ | .copyB _ | .copyC _ | .skew _ | .endCodelet => 1

/-- The steps a codelet has made. The loop codelet makes three in every firing, and
those of the branch it takes. -/
def work (s : State (Cod n) (Act n) (Frame R n p)) : Cod n → Nat
  | .loop => 3 * s.fired .loop + (2 * (n * n) + 1) * Rounds.rounds (view s) +
      n * n * Rounds.ended n (view s) - (crest s .loop).length
  | k => s.fired k * ((fireBody k).length + 1) - (crest s k).length

/-- The steps a codelet makes in a whole run. -/
def workLimit (n : Nat) : Cod n → Nat
  | .loop => 3 * (n + 1) + (2 * (n * n) + 1) * n + n * n
  | k => firings n k * ((fireBody k).length + 1)

section

variable [NeZero n] [CommRing R] {blas : Blas R} {a b : Nat → R}
  {s t : State (Cod n) (Act n) (Frame R n p)}

omit [NeZero n] in
/-- **No codelet fires more often than it should.** -/
theorem Ctl.fired_le (h : Ctl blas s) (k : Cod n) : s.pool k + s.fired k ≤ firings n k := by
  have hloop : s.fired .loop + s.pool .loop = _ := h.rounds.fired_eq
  have hrounds := h.rounds.rounds_le
  have hdue : Rounds.due n (view s) ≤ 1 := by
    rw [h.rounds.due_eq]
    split <;> omega
  cases k with
  | copyA i => exact h.early.fired_le_one (k := .copyA i) trivial
  | copyB i => exact h.early.fired_le_one (k := .copyB i) trivial
  | skew i => exact h.early.fired_le_one (k := .skew i) trivial
  | compute i =>
    have : s.pool (.compute i) + s.fired (.compute i) + _ = _ := h.rounds.wfired_eq i
    simp only [firings]
    omega
  | copyC i =>
    have : _ + s.pool (.copyC i) + s.fired (.copyC i) = 1 := h.rounds.ccounter_eq i
    simp only [firings]
    omega
  | endCodelet => exact h.rounds.efired_le
  | loop =>
    simp only [firings]
    omega

/-- What the loop codelet has left belongs to the steps it has begun. -/
private theorem Ctl.loop_length (h : Ctl blas s) : (crest s .loop).length ≤
    3 * s.fired .loop + (2 * (n * n) + 1) * Rounds.rounds (view s) +
      n * n * Rounds.ended n (view s) := by
  by_cases hne : crest s .loop = []
  · simp [hne]
  have hfin : List.finRange (n * n) ≠ [] := by
    rw [Ne, List.finRange_eq_nil_iff]
    exact Nat.pos_iff_ne_zero.mp (Nat.mul_pos (Nat.pos_of_neZero n) (Nat.pos_of_neZero n))
  have hpos := h.single .loop _ hne
  rcases h.loop_suffix with hs | hs | hs
  · have := hs.length_le
    simp [fireBody] at this
    omega
  · have hlen := hs.length_le
    rw [roundBody_eq] at hs
    obtain ⟨y, hy, hmem⟩ := Suffix.exists_mem hs hne (by simpa using hfin)
    obtain ⟨i, -, rfl⟩ := List.mem_map.mp hy
    have hrel : 0 < (view s).toRelease i := List.count_pos_iff.mpr hmem
    have hw := h.rounds.wfired_eq i
    have hrounds : 1 ≤ Rounds.rounds (view s) := by omega
    have := Nat.mul_le_mul_left (2 * (n * n) + 1) hrounds
    simp [roundBody] at hlen
    omega
  · have hlen := hs.length_le
    obtain ⟨y, hmem⟩ := List.exists_mem_of_ne_nil _ hne
    obtain ⟨i, -, rfl⟩ := List.mem_map.mp (hs.subset hmem)
    have hfinish : 0 < (view s).toFinish i := List.count_pos_iff.mpr hmem
    have hc := h.rounds.cfired_eq i
    have hended : 1 ≤ Rounds.ended n (view s) := by omega
    have := Nat.mul_le_mul_left (n * n) hended
    simp [finishBody] at hlen
    omega

/-- The loop codelet's steps add up. -/
private theorem Ctl.work_loop (h : Ctl blas s) (ht : Ctl blas t) {l : Label (Cod n)}
    (hl : (cannonTP blas n p).step s l = some t) :
    work t .loop = work s .loop + if .loop = l.cod then 1 else 0 := by
  have hle := h.loop_length
  simp only [work]
  cases h.move hl with
  | fire k hidle hpool hcrest hfired hcur =>
    by_cases hk : .loop = k
    · subst hk
      have hended : Rounds.ended n (view s) = 0 :=
        (h.rounds.over (Nat.lt_of_lt_of_le hpool (Nat.le_add_right _ _))).2.2.2.1
      have hcrest' : crest t .loop = [.resetCodelet .loop, .act .test] := by
        rw [hcrest, if_pos rfl]
        rfl
      have hended' : Rounds.ended n (view t) = 0 := by
        rw [Rounds.ended, if_neg]
        simp [hcrest']
      have hrounds : Rounds.rounds (view t) = Rounds.rounds (view s) := by
        rw [rounds_view, rounds_view, hcur, hcrest', hidle]
        simp
      rw [hended, hended', hrounds, hfired, if_pos rfl, hcrest', hidle]
      simp [Label.cod]
      omega
    · have hcrest' : crest t .loop = crest s .loop := by rw [hcrest, if_neg hk]
      have hfired' : t.fired .loop = s.fired .loop := by rw [hfired, if_neg hk]
      have hrounds : Rounds.rounds (view t) = Rounds.rounds (view s) := by
        rw [rounds_view, rounds_view, hcur, hcrest']
      have hended : Rounds.ended n (view t) = Rounds.ended n (view s) :=
        Rounds.ended_congr hfired' (congrArg (List.count _) hcrest')
      rw [hrounds, hended, hfired', hcrest', Label.cod, if_neg hk]
      rfl
  | op k j o os hcs hpos hne hcrest hfired hcur =>
    by_cases hk : .loop = k
    · subst hk
      have hcrest' : crest t .loop = os := by rw [hcrest, if_pos rfl]
      have hrounds : Rounds.rounds (view t) = Rounds.rounds (view s) := by
        rw [rounds_view, rounds_view, hcur, hcrest', hcs, List.count_cons]
        simp only [beq_iff_eq]
        omega
      have hended : Rounds.ended n (view t) = Rounds.ended n (view s) :=
        Rounds.ended_congr (congrFun hfired _) (by simp [hcrest', hcs, hne])
      rw [hcs, List.length_cons] at hle
      rw [hrounds, hended, hfired, hcrest', hcs, List.length_cons, Label.cod, if_pos rfl]
      omega
    · have hcrest' : crest t .loop = crest s .loop := by rw [hcrest, if_neg hk]
      have hincr : o ≠ .act .incr := by
        intro he
        subst he
        have hnext : s.nextAct (.op k j) = some .incr := by
          rw [State.nextAct, h.rest_of_op hl hcs]
          rfl
        obtain ⟨j', os', he, -⟩ := h.owner hnext
        exact hk (Label.op.inj he).1.symm
      have hrounds : Rounds.rounds (view t) = Rounds.rounds (view s) := by
        rw [rounds_view, rounds_view, hcur, hcrest', if_neg hincr, Nat.add_zero]
      have hended : Rounds.ended n (view t) = Rounds.ended n (view s) :=
        Rounds.ended_congr (congrFun hfired _) (congrArg (List.count _) hcrest')
      rw [hrounds, hended, hfired, hcrest', Label.cod, if_neg hk]
      rfl
  | test j hcs hpos hcrest hfired hcur =>
    have hcrest' := hcrest .loop
    rw [if_pos rfl] at hcrest'
    have hended : Rounds.ended n (view s) = 0 := by
      rw [Rounds.ended, if_neg]
      simp [hcs]
    obtain ⟨i⟩ : Nonempty (Tile n) := inferInstance
    rw [hfired, hcs, hended, List.length_singleton, Label.cod, if_pos rfl]
    split at hcrest'
    next hlt =>
      have hrounds : Rounds.rounds (view t) = Rounds.rounds (view s) + 1 := by
        rw [rounds_view, rounds_view, hcur, hcrest', hcs, count_incr_round]
        simp
      have hrel : (view t).toRelease i = 1 := by
        simp only [view, hcrest', count_release_round]
      have hended' : Rounds.ended n (view t) = 0 := by
        refine (ht.rounds.waiting (i := i) ?_).2.2.2.1
        simp only [Rounds.pend]
        omega
      rw [hrounds, hended', hcrest']
      simp [roundBody, Nat.mul_add]
      omega
    next hge =>
      have hrounds : Rounds.rounds (view t) = Rounds.rounds (view s) := by
        rw [rounds_view, rounds_view, hcur, hcrest', hcs, count_finish_of_ne (by simp)]
        simp
      have hfin : (view t).toFinish i = 1 := by
        simp only [view, hcrest', count_finish]
      have hended' : Rounds.ended n (view t) = 1 := by
        have := ht.rounds.cfired_eq i
        have := Rounds.ended_le n (view t)
        omega
      rw [hrounds, hended', hcrest']
      simp [finishBody]
      omega

/-- **A step is one step of its codelet.** -/
theorem Ctl.work_step (h : Ctl blas s) {l : Label (Cod n)}
    (hl : (cannonTP blas n p).step s l = some t) (k : Cod n) :
    work t k = work s k + if k = l.cod then 1 else 0 := by
  by_cases hloop : k = .loop
  · subst hloop
    exact h.work_loop (h.step hl) hl
  have hwork : ∀ s : State (Cod n) (Act n) (Frame R n p), work s k =
      s.fired k * ((fireBody k).length + 1) - (crest s k).length := by
    intro s
    cases k <;> first | rfl | exact absurd rfl hloop
  rw [hwork, hwork]
  cases h.move hl with
  | fire k' hidle hpool hcrest hfired _ =>
    rw [hcrest, hfired, Label.cod]
    by_cases hk : k = k'
    · subst hk
      simp [hidle, Nat.succ_mul]
      omega
    · simp [hk]
  | op k' j o os hcs hpos hne hcrest hfired _ =>
    rw [hcrest, hfired, Label.cod]
    by_cases hk : k = k'
    · subst hk
      have hlen := (h.suffix k hloop).length_le
      have hmul := Nat.mul_le_mul_right ((fireBody k).length + 1) hpos
      rw [hcs, List.length_cons] at hlen
      rw [if_pos rfl, if_pos rfl, hcs, List.length_cons]
      omega
    · simp [hk]
  | test j hcs hpos hcrest hfired _ =>
    rw [hcrest, hfired, Label.cod, if_neg hloop, if_neg hloop]
    rfl

omit [NeZero n] in
theorem Ctl.work_le (h : Ctl blas s) (k : Cod n) : work s k ≤ workLimit n k := by
  have hfired := h.fired_le k
  cases k with
  | loop =>
    simp only [firings] at hfired
    have hrounds := Nat.mul_le_mul_left (2 * (n * n) + 1) h.rounds.rounds_le
    have hended := Nat.mul_le_mul_left (n * n) (Rounds.ended_le n (view s))
    simp only [work, workLimit]
    omega
  | copyA i | copyB i | copyC i | skew i | compute i | endCodelet =>
    exact Nat.le_trans (Nat.sub_le _ _) (Nat.mul_le_mul_right _ (by omega))

/-- **No run is longer than the codelets' work.** -/
theorem run_length_le {c : Nat → R} {ls : List (Label (Cod n))}
    (h : run (cannonTP blas n p).step (launched n p a b c) ls = some s) :
    ls.length ≤ ∑ k, workLimit n k :=
  run_length_le_sum (Ctl blas) work Label.cod (workLimit n) (Ctl.init a b c)
    (fun k => by cases k <;> rfl) (fun _ _ _ hI hl => ⟨hI.step hl, hI.work_step hl⟩)
    (fun _ k hI => hI.work_le k) h

/-! ## Stuck states -/

omit [NeZero n] in
/-- Nothing is scheduled and nothing under way in a stuck state. -/
theorem crest_of_stuck (hstuck : Stuck (cannonTP blas n p).step s) (k : Cod n) :
    crest s k = [] := by
  by_contra hne
  obtain ⟨x, os, -, hexec⟩ := Program.rest_of_stuck hstuck hne
  exact exec_ne_none _ x s.mem hexec

/-- The order of the copy and skew codelets. -/
def rank : Cod n → Nat
  | .skew _ => 1
  | _ => 0

omit [NeZero n] in
/-- **A stuck state is a finished one.** -/
theorem Ctl.all_fired (h : Ctl blas s) (hstuck : Stuck (cannonTP blas n p).step s) (k : Cod n) :
    s.fired k = firings n k ∧ s.pool k = 0 ∧ ∀ j, s.rest k j = [] := by
  have hcrest := crest_of_stuck hstuck
  have hpool := Program.pool_of_stuck hstuck
  have hrest : ∀ k j, s.rest k j = [] := by
    intro k j
    by_contra hne
    obtain ⟨x, os, -, hexec⟩ := Program.rest_of_stuck hstuck hne
    exact exec_ne_none _ x s.mem hexec
  have hearly : ∀ k, Early k → s.fired k = 1 :=
    h.early.all_fired (early_oneShot blas n p) rank
      (fun k k' _ hk' => by
        cases k <;> simp [sources] at hk'
        rcases hk' with rfl | rfl <;> simp [rank])
      (fun k _ => hpool k) (fun k _ => hrest k 0)
  have hpend : ∀ i, Rounds.pend (view s) i = 0 := by
    intro i
    have hskew : todo s (.skew i) = [] := by
      rw [todo, hearly (.skew i) trivial, if_neg Nat.one_ne_zero, hcrest]
    have hrel : (view s).toRelease i = 0 := by simp [hcrest]
    have hsig : (view s).toSignal i = 0 := by simp [hcrest]
    have hfirst : (view s).first i = 0 := by simp [hskew]
    have hwpool : (view s).wpool i = 0 := hpool (.compute i)
    rw [Rounds.pend, hrel, hsig, hfirst, hwpool]
  obtain ⟨hloop, hcompute, hcopyC, hend⟩ := h.rounds.finished hpend (hpool .loop)
    (by simp [hcrest])
    (fun i => by simp [hcrest, hpool])
    (fun i hi => by
      have hne : s.fired (.copyC i) ≠ 0 := Nat.pos_iff_ne_zero.mp hi
      simp [todo, hne, hcrest])
    (hpool .endCodelet)
  refine ⟨?_, hpool k, hrest k⟩
  cases k with
  | copyA i => exact hearly (.copyA i) trivial
  | copyB i => exact hearly (.copyB i) trivial
  | skew i => exact hearly (.skew i) trivial
  | compute i => exact hcompute i
  | copyC i => exact hcopyC i
  | loop => exact hloop
  | endCodelet => exact hend

/-- **`C` is the product once the end codelet is scheduled.** -/
theorem Data.product (h : Data a b s) (hc : Ctl blas s)
    (hend : 0 < s.pool .endCodelet + s.fired .endCodelet) {row col : Nat} (hrow : row < n * p)
    (hcol : col < n * p) : s.mem.C.ptr (row * (n * p) + col) = mulEntry (n * p) a b row col := by
  obtain ⟨i, u, v, hu, hv, rfl, rfl⟩ := exists_entry hrow hcol
  rw [← entry_eq, h.scattered i (hc.delivered hend i) u v hu hv, partialSum_side]

end

/-! ## The program -/

variable [CommRing R]

/-- **Cannon's product, double-buffered, under every interleaving.** No run is stuck
before the end codelet has fired; no run is longer than a bound, so every run gets
there; the end codelet fires once; and from the moment it is scheduled `C` is the
product. -/
theorem double_buffered_product (blas : Blas R) (hn : 0 < n) (a b c : Nat → R) :
    (∀ s, Reachable (cannonTP blas n p).step (launched n p a b c) s →
      s.fired .endCodelet = 0 → ¬Stuck (cannonTP blas n p).step s) ∧
    (∃ bound, ∀ ls s, run (cannonTP blas n p).step (launched n p a b c) ls = some s →
      ls.length ≤ bound) ∧
    (∀ s, Reachable (cannonTP blas n p).step (launched n p a b c) s →
      s.fired .endCodelet ≤ 1 ∧
      (Stuck (cannonTP blas n p).step s → s.fired .endCodelet = 1)) ∧
    (∀ s, Reachable (cannonTP blas n p).step (launched n p a b c) s →
      0 < s.pool .endCodelet + s.fired .endCodelet →
      ∀ row col, row < n * p → col < n * p →
        s.mem.C.ptr (row * (n * p) + col) = mulEntry (n * p) a b row col) := by
  have : NeZero n := ⟨Nat.pos_iff_ne_zero.mp hn⟩
  have hend : ∀ s, Reachable (cannonTP blas n p).step (launched n p a b c) s →
      Stuck (cannonTP blas n p).step s → s.fired .endCodelet = 1 := fun s hs hstuck =>
    ((Ctl.reachable hs).all_fired hstuck .endCodelet).1
  refine ⟨?_, ⟨∑ k, workLimit n k, fun ls s hrun => run_length_le hrun⟩, ?_, ?_⟩
  · intro s hs hzero hstuck
    have := hend s hs hstuck
    omega
  · intro s hs
    have hle := (Ctl.reachable hs).fired_le .endCodelet
    simp only [firings] at hle
    exact ⟨by omega, hend s hs⟩
  · intro s hs hstart row col hrow hcol
    exact (Data.reachable hs).product (Ctl.reachable hs) hstart hrow hcol

/-- `[[0, 1], [2, 3]] * [[1, 2], [3, 4]]` in four tiles: a run ends with `11` at row 1,
column 0. -/
theorem double_buffered_product_two :
    ∃ s, Reachable (cannonTP (Blas.reference ℤ) 2 1).step
        (launched 2 1 (fun z => (z : ℤ)) (fun z => (z : ℤ) + 1) fun _ => 0) s ∧
      s.fired .endCodelet = 1 ∧ s.mem.C.ptr 2 = 11 := by
  obtain ⟨-, ⟨bound, hbound⟩, hend, hproduct⟩ := double_buffered_product (p := 1)
    (Blas.reference ℤ) (by decide : 0 < 2) (fun z => (z : ℤ)) (fun z => (z : ℤ) + 1) fun _ => 0
  obtain ⟨s, hs, hstuck⟩ := Reachable.exists_stuck hbound .start
  have hfired := (hend s hs).2 hstuck
  have hentry := hproduct s hs (by omega) 1 0 (by decide) (by decide)
  exact ⟨s, hs, hfired, by simpa [mulEntry, Finset.sum_range_succ] using hentry⟩

end Darts.CannonDouble
