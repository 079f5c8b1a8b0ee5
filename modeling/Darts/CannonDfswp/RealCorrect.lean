import Darts.CannonDfswp.Flow
import Darts.CannonDfswp.RealTurns

/-!
# `cannonTP` on its real queues is correct

Every state the program reaches on its lock-free queues is a state of `Program`, whose
queues push and pop in one step (`Real.exists_seen`); and every step of `Program` can be
made on the real queues, after finitely many accesses (`Real.follow`). So what was proved of
`Program` holds on the queues it has: no assertion fails, `C` is the product, and the
program can always run to its end.

A queue is made for 15 blocks. A block that finds its queue full waits for memory, and
without memory it is lost; this cannot happen with up to 14 by 14 tiles.
-/

namespace Darts.CannonDfswp

open Cannon Queue Transition

variable {R : Type} {n p : Nat} [CommRing R] {blas : Blas R} {a b c : Nat → R}
  {s t : State (Cod n) (Access n) (LiveFrame R n p)} {Q Q' : Side → Tile n → List (Mat R)}
  {malloc₀ malloc : Side → Tile n → Nat → Bool} {q : Side → Tile n → Rwq (Mat R)}

/-- Every allocation of a queue succeeds. -/
def Plenty (malloc : Side → Tile n → Nat → Bool) : Prop := ∀ d i k, malloc d i k = true

/-- Whoever is at a push finds at most `n` blocks in the queue. -/
theorem length_at_push [NeZero n]
    (hs : Reachable (cannonTP blas n p).step (launched n p a b c) (seen s Q)) {x : Act n} {d : Side}
    {i : Tile n} (hat : At (seen s Q) x.owner 0 x) (hx : x.pushesInto = some (d, i)) :
    (Q d i).length ≤ n := by
  have hn : 0 < n := Nat.pos_of_neZero n
  have hc := Ctl.reachable hn hs
  obtain ⟨os, hrest⟩ := hat
  obtain ⟨v, hv⟩ : ∃ v, pushed (s.mem.withQueues Q) x = some v := by
    rcases pushesInto_iff.mp hx with ⟨u, rfl, -⟩ | ⟨u, rfl, -⟩
    · exact ⟨_, pushed_pushScratch _ d u⟩
    · rw [owner_push] at hrest
      have hne := (Data.reachable hs).head_present hc (Data.multiplied_le hs d u) hrest (Or.inl rfl)
      obtain ⟨X, l, hl⟩ := List.exists_cons_of_ne_nil hne
      refine ⟨X.copy, ?_⟩
      rw [pushed_push]
      show (queue d ((seen s Q).mem.allMatrices u)).head?.map Mat.copy = _
      rw [hl]
      rfl
  have hstep : (cannonTP blas n p).step (seen s Q) (.op x.owner 0) = some
      { (seen s Q).setRest x.owner 0 ([] ++ os) with
        mem := s.mem.withQueues (setAt Q d i (Q d i ++ [v])) } := by
    rw [Program.step, hrest]
    show (exec blas x (s.mem.withQueues Q)).map _ = _
    rw [exec_pushed hx hv]
    rfl
  have hafter := hs.next hstep
  have hlen := (Data.reachable hafter).queue_length (Ctl.reachable hn hafter) d i
  rw [LiveFrame.queue_withQueues, setAt_self, List.length_append, List.length_singleton] at hlen
  omega

namespace Real

/-- The invariant, with the blocks in the queues. -/
def Inv (malloc : Side → Tile n → Nat → Bool) (blas : Blas R) (a b c : Nat → R)
    (s : State (Cod n) (Access n) (LiveFrame R n p)) (Q : Side → Tile n → List (Mat R)) : Prop :=
  Live (Plenty malloc) s Q ∧
    Reachable (cannonTP blas n p).step (launched n p a b c) (seen s Q)

theorem inv_start (hq : ∀ d i, construct (Mat R) 512 15 (malloc₀ d i) = some (q d i)) :
    Inv malloc blas a b c (realLaunched n p a b c q) fun _ _ => [] := by
  have hsizes : Sizes 512 15 := ⟨by decide, by decide, 8, by decide, by decide⟩
  refine ⟨⟨rfl, fun k j o os ho => absurd ho (by simp [realLaunched]), fun d i => ?_⟩, .start⟩
  refine ⟨.initial _, Blocking.seen_start hsizes (hq d i), rfl, ?_, fun _ => rfl, rfl, ?_, ?_, ?_,
    ?_⟩
  · rintro x ⟨k, j, he⟩
    exact absurd he (by simp [realLaunched, Op.headAct])
  · exact fun hc => absurd hc (by simp [current, realLaunched, Op.headAct, calling])
  · exact fun hc => absurd hc (by simp [current, realLaunched, Op.headAct, calling])
  · exact fun hl => absurd hl (by simp [current, realLaunched, Op.headAct, looked, used])
  · exact fun hu => absurd hu (by simp [current, realLaunched, Op.headAct, used])

/-- The step lemma, in a state the program reaches. -/
theorem Inv.kept [NeZero n] (h : Inv malloc blas a b c s Q) (hroom : Plenty malloc ∨ n ≤ 14)
    {l : Label (Cod n)} (hl : (realTP malloc blas p).step s l = some t) :
    Kept blas (Plenty malloc) s Q l t := by
  refine h.1.step (Ctl.reachable (Nat.pos_of_neZero n) h.2) id (fun x d i hat hx => ?_) hl
  exact hroom.imp id fun hle => by
    have := length_at_push h.2 hat hx
    omega

/-- **The real program is `Program`**, seen from outside of the queues. -/
theorem exists_seen [NeZero n] (hroom : Plenty malloc ∨ n ≤ 14)
    (hq : ∀ d i, construct (Mat R) 512 15 (malloc₀ d i) = some (q d i))
    (hs : Reachable (realTP malloc blas p).step (realLaunched n p a b c q) s) :
    ∃ Q, Inv malloc blas a b c s Q := by
  -- what the rule asks of a step
  have hstep : ∀ (s : State (Cod n) (Access n) (LiveFrame R n p)) m l t,
      Reachable (cannonTP blas n p).step (launched n p a b c) (s.coarse Access.action m) →
      (∃ Q, m = s.mem.withQueues Q ∧ Live (Plenty malloc) s Q) →
      (realTP malloc blas p).step s l = some t →
      ∃ m', (∃ Q, m' = t.mem.withQueues Q ∧ Live (Plenty malloc) t Q) ∧
        (t.coarse Access.action m' = s.coarse Access.action m ∨
          (cannonTP blas n p).step (s.coarse Access.action m) l =
            some (t.coarse Access.action m')) := by
    rintro s m l t hreach ⟨Q, rfl, hlive⟩ hl
    obtain ⟨Q', hlive', ⟨hsame, -⟩ | hmove⟩ := Inv.kept ⟨hlive, hreach⟩ hroom hl
    · exact ⟨_, ⟨Q', rfl, hlive'⟩, Or.inl hsame⟩
    · exact ⟨_, ⟨Q', rfl, hlive'⟩, Or.inr hmove⟩
  have hstart : Inv malloc blas a b c (realLaunched n p a b c q) fun _ _ => [] := inv_start hq
  obtain ⟨m, ⟨Q, rfl, hlive⟩, hreach⟩ :=
    Program.exists_coarse _ ⟨_, rfl, hstart.1⟩ hstep hs
  exact ⟨Q, hlive, hreach⟩

/-- An action never fails. -/
theorem step_ne_none {l : Label (Cod n)}
    (h : (cannonTP blas n p).step (seen s Q) l ≠ none) :
    (realTP malloc blas p).step s l ≠ none := by
  cases l with
  | fire k =>
    have hpool : 0 < s.pool k := by
      refine Nat.pos_of_ne_zero fun hzero => h (if_pos ?_)
      exact hzero
    rw [Program.step_fire hpool]
    simp
  | op k j =>
    refine Program.step_op_ne_none (fun hnil => h ?_) fun _ _ _ he => absurd he (by simp [realTP])
    rw [Program.step, State.coarse_rest, hnil]
    rfl

/-- **A step of `Program` can be made on the real queues**, in finitely many accesses of
the same firing. -/
theorem follow_step [NeZero n] (hroom : Plenty malloc ∨ n ≤ 14) {l : Label (Cod n)}
    {u : State (Cod n) (Act n) (Frame R n p)} (h : Inv malloc blas a b c s Q)
    (hl : (cannonTP blas n p).step (seen s Q) l = some u) :
    ∃ t Q', Reachable (realTP malloc blas p).step s t ∧ Inv malloc blas a b c t Q' ∧
      seen t Q' = u := by
  -- induction on the accesses the firing still makes at most
  induction hleft : leftOf s l.cod using Nat.strong_induction_on generalizing s Q with
  | _ m ih =>
    have hmove : (realTP malloc blas p).step s l ≠ none :=
      step_ne_none (Q := Q) (by rw [hl]; simp)
    obtain ⟨t, ht⟩ := Option.ne_none_iff_exists'.mp hmove
    obtain ⟨Q', hlive, ⟨hsame, x, hx, hnear⟩ | hmove⟩ := h.kept hroom ht
    · have henabled : exec blas x.action (s.mem.withQueues Q) ≠ none := by
        obtain ⟨k, j, os, rfl, hrest⟩ := State.nextAct_eq_some hx
        intro hnone
        rw [Program.step, State.coarse_rest_cons hrest] at hl
        obtain ⟨r, hr, -⟩ := Option.map_eq_some_iff.mp hl
        exact absurd (hnone.symm.trans hr) (by simp)
      obtain ⟨t', Q'', hreach, hinv, hu⟩ := ih _ (hleft ▸ hnear henabled) (s := t) (Q := Q')
        ⟨hlive, hsame ▸ h.2⟩ (hsame ▸ hl) rfl
      exact ⟨t', Q'', (Reachable.start.next ht).trans hreach, hinv, hu⟩
    · rw [hl] at hmove
      obtain rfl := Option.some.inj hmove
      exact ⟨t, Q', Reachable.start.next ht, ⟨hlive, h.2.next hl⟩, rfl⟩

/-- **A run of `Program` can be made on the real queues.** -/
theorem follow [NeZero n] (hroom : Plenty malloc ∨ n ≤ 14)
    {u : State (Cod n) (Act n) (Frame R n p)} (h : Inv malloc blas a b c s Q)
    (hu : Reachable (cannonTP blas n p).step (seen s Q) u) :
    ∃ t Q', Reachable (realTP malloc blas p).step s t ∧ Inv malloc blas a b c t Q' ∧
      seen t Q' = u := by
  induction hu with
  | start => exact ⟨s, Q, .start, h, rfl⟩
  | next _ hl ih =>
    obtain ⟨t, Q', hreach, hinv, rfl⟩ := ih
    obtain ⟨t', Q'', hreach', hinv', hu⟩ := follow_step hroom hinv hl
    exact ⟨t', Q'', hreach.trans hreach', hinv', hu⟩

/-- A queue whose consumer is in no call counts its blocks. -/
theorem Inv.size_eq (h : Inv malloc blas a b c s Q) {d : Side} {i : Tile n}
    (hdeq : (s.mem.queues d i).deq.busy = false) :
    (s.mem.queues d i).sema.availableApprox = (Q d i).length := by
  obtain ⟨x, hx⟩ := h.1.queues d i
  rw [hx.seen.availableApprox_eq hdeq, hx.visible]

/-- Nothing is scheduled and nothing is left to do once `Program` is through. -/
theorem Inv.finished [NeZero n] (h : Inv malloc blas a b c s Q)
    (hstuck : Stuck (cannonTP blas n p).step (seen s Q)) (k : Cod n) :
    s.fired k = 1 ∧ s.pool k = 0 ∧ ∀ j, s.rest k j = [] := by
  have hc := Ctl.reachable (Nat.pos_of_neZero n) h.2
  have hall := (Data.reachable h.2).all_fired hc hstuck k
  refine ⟨hall.1, hall.2.1, fun j => ?_⟩
  by_contra hne
  have hcoarse : (seen s Q).rest k j ≠ [] := by
    rw [State.coarse_rest]
    simpa using hne
  obtain ⟨rfl, -⟩ := hc.one.single k j trivial hcoarse
  exact hcoarse hall.2.2

/-- There is a run to the end. -/
theorem Inv.exists_finished [NeZero n] (h : Inv malloc blas a b c s Q)
    (hroom : Plenty malloc ∨ n ≤ 14) :
    ∃ t Q', Reachable (realTP malloc blas p).step s t ∧ Inv malloc blas a b c t Q' ∧
      ∀ k, t.fired k = 1 ∧ t.pool k = 0 ∧ ∀ j, t.rest k j = [] := by
  have hn : 0 < n := Nat.pos_of_neZero n
  have hbound : ∀ ls v, run (cannonTP blas n p).step (launched n p a b c) ls = some v →
      ls.length ≤ ∑ k, workLimit n k := fun _ _ hrun => run_length_le hn hrun
  obtain ⟨u, hu, hstuck⟩ := Reachable.exists_stuck hbound h.2
  obtain ⟨t, Q', hreach, hinv, rfl⟩ := follow hroom h hu
  exact ⟨t, Q', hreach, hinv, hinv.finished hstuck⟩

/-- Once the end codelet is scheduled `C` is the product. -/
theorem Inv.product [NeZero n] (h : Inv malloc blas a b c s Q)
    (hend : 0 < s.pool .endCodelet + s.fired .endCodelet) {row col : Nat} (hrow : row < n * p)
    (hcol : col < n * p) : s.mem.C.ptr (row * (n * p) + col) = mulEntry (n * p) a b row col :=
  (Data.reachable h.2).product (Ctl.reachable (Nat.pos_of_neZero n) h.2) hend hrow hcol

end Real

/-- **`cannonTP` is correct on its lock-free queues.** In every state a run reaches,
whatever the interleaving of the accesses: no assertion of a queue has failed, no null or
dangling pointer was used, and no two threads were in one side of a queue; what is seen of
the state is a state of `Program`, and a queue whose consumer is in no call counts the
blocks it has there; once the end codelet is scheduled `C` is the product; and whenever
nothing can move everything has fired. -/
theorem real_product (blas : Blas R) (hn : 0 < n) (a b c : Nat → R)
    {malloc₀ malloc : Side → Tile n → Nat → Bool} {q : Side → Tile n → Rwq (Mat R)}
    (hq : ∀ d i, construct (Mat R) 512 15 (malloc₀ d i) = some (q d i))
    (hroom : Plenty malloc ∨ n ≤ 14) {s : State (Cod n) (Access n) (LiveFrame R n p)}
    (hs : Reachable (realTP malloc blas p).step (realLaunched n p a b c q) s) :
    (s.mem.fault = false ∧ ∀ d i, (s.mem.queues d i).inner.fault = false ∧
      (s.mem.queues d i).sema.fault = false ∧ (s.mem.queues d i).fault = false) ∧
    (∃ Q, Reachable (cannonTP blas n p).step (launched n p a b c) (seen s Q) ∧
      ∀ d i, (s.mem.queues d i).deq.busy = false →
        (s.mem.queues d i).sema.availableApprox = (Q d i).length) ∧
    (0 < s.pool .endCodelet + s.fired .endCodelet → ∀ row col, row < n * p → col < n * p →
      s.mem.C.ptr (row * (n * p) + col) = mulEntry (n * p) a b row col) ∧
    (Stuck (realTP malloc blas p).step s → ∀ k, s.fired k = 1) := by
  have : NeZero n := ⟨Nat.pos_iff_ne_zero.mp hn⟩
  obtain ⟨Q, h⟩ : ∃ Q, Real.Inv malloc blas a b c s Q := Real.exists_seen hroom hq hs
  refine ⟨⟨h.1.ok, fun d i => ?_⟩, ⟨Q, h.2, fun d i => h.size_eq⟩,
    fun hend row col hrow hcol => h.product hend hrow hcol, fun hstuck k => ?_⟩
  · obtain ⟨x, hx⟩ := h.1.queues d i
    exact hx.seen.sim.ok
  · refine (h.finished (fun l => ?_) k).1
    by_contra hne
    exact Real.step_ne_none hne (hstuck l)

/-- The queue of a `tile_mem`, with memory for it. -/
theorem exists_queue : ∃ q, construct (Mat ℤ) 512 15 (fun _ => true) = some q :=
  Option.isSome_iff_exists.mp rfl

/-- `[[0, 1], [2, 3]] * [[1, 2], [3, 4]]` in four tiles, with no memory after the start. -/
theorem real_product_two : ∃ q, construct (Mat ℤ) 512 15 (fun _ => true) = some q ∧
    ∃ s, Reachable (realTP (fun _ _ _ => false) (Blas.reference ℤ) 1).step
        (realLaunched 2 1 (fun z => (z : ℤ)) (fun z => (z : ℤ) + 1) (fun _ => 0) fun _ _ => q) s ∧
      s.mem.fault = false ∧ s.mem.C.ptr 2 = 11 := by
  obtain ⟨q, hq⟩ := exists_queue
  have hstart : Real.Inv (fun _ _ _ => false) (Blas.reference ℤ) (fun z => (z : ℤ))
      (fun z => (z : ℤ) + 1) (fun _ => 0) (realLaunched 2 1 _ _ _ fun _ _ => q) _ :=
    Real.inv_start fun _ _ => hq
  obtain ⟨s, Q, hs, -, hdone⟩ := hstart.exists_finished (Or.inr (by decide))
  obtain ⟨hok, -, hproduct, -⟩ :=
    real_product _ (by decide : 0 < 2) _ _ _ (fun _ _ => hq) (Or.inr (by decide)) hs
  have hfired : s.fired .endCodelet = 1 := (hdone .endCodelet).1
  have hentry := hproduct (by omega) 1 0 (by decide) (by decide)
  exact ⟨q, hq, s, hs, hok.1, by simpa [mulEntry, Finset.sum_range_succ] using hentry⟩

/-- **The pipelined program can always run to its end**, on its real queues too: no
waiting loop is a trap. -/
theorem real_completes (blas : Blas R) (hn : 0 < n) (a b c : Nat → R)
    {malloc₀ malloc : Side → Tile n → Nat → Bool} {q : Side → Tile n → Rwq (Mat R)}
    (hq : ∀ d i, construct (Mat R) 512 15 (malloc₀ d i) = some (q d i))
    (hroom : Plenty malloc ∨ n ≤ 14) {s : State (Cod n) (Access n) (LiveFrame R n p)}
    (hs : Reachable (realTP malloc blas p).step (realLaunched n p a b c q) s) :
    ∃ t, Reachable (realTP malloc blas p).step s t ∧
      (∀ k, t.fired k = 1 ∧ t.pool k = 0 ∧ ∀ j, t.rest k j = []) ∧
      ∀ row col, row < n * p → col < n * p →
        t.mem.C.ptr (row * (n * p) + col) = mulEntry (n * p) a b row col := by
  have : NeZero n := ⟨Nat.pos_iff_ne_zero.mp hn⟩
  obtain ⟨Q, h⟩ : ∃ Q, Real.Inv malloc blas a b c s Q := Real.exists_seen hroom hq hs
  obtain ⟨t, Q', hreach, hinv, hdone⟩ := h.exists_finished hroom
  have hfired : t.fired .endCodelet = 1 := (hdone .endCodelet).1
  exact ⟨t, hreach, hdone, fun row col hrow hcol => hinv.product (by omega) hrow hcol⟩

theorem real_completes_two : ∃ q, construct (Mat ℤ) 512 15 (fun _ => true) = some q ∧
    ∃ t, Reachable (realTP (fun _ _ _ => false) (Blas.reference ℤ) 1).step
        (realLaunched 2 1 (fun z => (z : ℤ)) (fun z => (z : ℤ) + 1) (fun _ => 0) fun _ _ => q) t ∧
      ∀ k, t.fired k = 1 ∧ t.pool k = 0 ∧ ∀ j, t.rest k j = [] := by
  obtain ⟨q, hq⟩ := exists_queue
  obtain ⟨t, ht, hdone, -⟩ := real_completes (Blas.reference ℤ) (by decide : 0 < 2) _ _ _
    (fun _ _ => hq) (Or.inr (by decide)) .start
  exact ⟨q, hq, t, ht, hdone⟩

end Darts.CannonDfswp
