import Darts.CannonDfswp.Correct

/-!
# The queues of the pipelined `cannonTP` have one producer and one consumer

The lock-free queue is only safe with one thread pushing and one popping. The
producer of a queue changes once: first the skew codelet whose block belongs
there, then, behind the barrier, the compute codelet of the neighbour. The
consumer is always the compute codelet of the tile.
-/

namespace Darts.CannonDfswp

open Cannon Transition

variable {R : Type} {n p : Nat}

/-- The queue an action pushes into. -/
def Act.pushesInto : Act n → Option (Side × Tile n)
  | .pushScratchA i => some (.A, destRow i)
  | .pushScratchB i => some (.B, destCol i)
  | .pushA i => some (.A, nextRow i)
  | .pushB i => some (.B, nextCol i)
  | _ => none

/-- The queues whose head an action peeks at or pops. -/
def Act.takesFrom : Act n → List (Side × Tile n)
  | .multiply i => [(.A, i), (.B, i)]
  | .pushA i | .popA i => [(.A, i)]
  | .pushB i | .popB i => [(.B, i)]
  | _ => []

/-- The `j`-th firing of `k` is at the action `x`. -/
def At (s : State (Cod n) (Act n) (Frame R n p)) (k : Cod n) (j : Nat) (x : Act n) : Prop :=
  ∃ os, s.rest k j = .act x :: os

/-- In some run `k` pushes into the queue `d` of tile `i`. -/
def EverPushes [CommRing R] (blas : Blas R) (a b c : Nat → R) (k : Cod n) (d : Side)
    (i : Tile n) : Prop :=
  ∃ s, Reachable (cannonTP blas n p).step (launched n p a b c) s ∧
    ∃ j x, At s k j x ∧ x.pushesInto = some (d, i)

/-- `pushesInto` is what the frame shows: a step makes a queue longer only if it
carries a push into it. -/
theorem pushesInto_of_longer [CommRing R] {blas : Blas R} {f f' : Frame R n p} {x : Act n}
    {os : List (Op (Cod n) (Act n))} (h : exec blas x f = some (f', os)) {d : Side} {i : Tile n}
    (hlen : (queue d (f.allMatrices i)).length < (queue d (f'.allMatrices i)).length) :
    x.pushesInto = some (d, i) := by
  have hstep := exec_queue h d i
  generalize queue d (f'.allMatrices i) = q at hstep hlen
  cases hstep with
  | pushScratch u hu => subst hu; cases d <;> rfl
  | push u X hu hX => subst hu; cases d <;> rfl
  | pop X hX =>
    rw [List.length_tail] at hlen
    omega
  | other => exact absurd hlen (Nat.lt_irrefl _)

/-- The producers by name. -/
theorem pushesInto_iff {x : Act n} {d : Side} {i : Tile n} : x.pushesInto = some (d, i) ↔
    (∃ u, x = pushScratch d u ∧ d.dest u = i) ∨ ∃ u, x = push d u ∧ d.next u = i := by
  cases d <;> cases x <;>
    simp [Act.pushesInto, pushScratch, push, Side.dest, Side.next]

/-- The consumer of a queue is the tile's own compute codelet. -/
theorem owner_of_takesFrom {x : Act n} {d : Side} {i : Tile n} (h : (d, i) ∈ x.takesFrom) :
    x.owner = .compute i := by
  cases x <;> simp [Act.takesFrom] at h <;> simp [Act.owner, h]
  rcases h with h | h <;> exact h.2.symm

variable [CommRing R] {blas : Blas R} {a b c : Nat → R}
  {s : State (Cod n) (Act n) (Frame R n p)}

/-- What has been executed was about to be executed before. -/
theorem exists_at_of_executed (hn : 0 < n) {x : Act n} (hx : x.Once)
    (hinit : .act x ∈ fireBody x.owner)
    (hs : Reachable (cannonTP blas n p).step (launched n p a b c) s)
    (hexec : Executed blas s x) :
    ∃ t l, Reachable (cannonTP blas n p).step (launched n p a b c) t ∧ t.nextAct l = some x := by
  induction hs with
  | start => exact absurd hinit hexec
  | next hr hl ih =>
    rcases ((Ctl.reachable hn hr).executed_step hl hx).mp hexec with hold | hnew
    · exact ih hold
    · exact ⟨_, _, hr, hnew⟩

/-- What has been executed in some turn was about to be executed before. -/
theorem exists_at_of_count (hn : 0 < n) {x : Act n} {i : Tile n} {m : Nat} (hm : m < 5)
    (hturn : ∀ y : Act n, y.turn = some (i, m) → y = x)
    (hs : Reachable (cannonTP blas n p).step (launched n p a b c) s) (hcount : 0 < count s i m) :
    ∃ t l, Reachable (cannonTP blas n p).step (launched n p a b c) t ∧ t.nextAct l = some x := by
  induction hs with
  | start => exact absurd hcount (Nat.lt_irrefl 0)
  | @next s t l hr hl ih =>
    rw [(Ctl.reachable hn hr).count_step hl i hm] at hcount
    by_cases hold : 0 < count s i m
    · exact ih hold
    · split at hcount
      next hnew =>
        obtain ⟨y, hy, hyt⟩ := Option.bind_eq_some_iff.mp hnew
        exact ⟨s, l, hr, hturn y hyt ▸ hy⟩
      next => exact absurd hcount hold

/-- Some run is complete. -/
theorem exists_complete (hn : 0 < n) (blas : Blas R) (a b c : Nat → R) :
    ∃ s, Reachable (cannonTP blas n p).step (launched n p a b c) s ∧
      ∀ k, s.fired k = 1 ∧ s.pool k = 0 ∧ s.rest k 0 = [] := by
  have : NeZero n := ⟨Nat.pos_iff_ne_zero.mp hn⟩
  obtain ⟨s, hs, hstuck⟩ := Reachable.exists_stuck (fun ls t hrun => run_length_le hn hrun)
    (.start : Reachable (cannonTP blas n p).step (launched n p a b c) (launched n p a b c))
  exact ⟨s, hs, (Data.reachable hs).all_fired (Ctl.reachable hn hs) hstuck⟩

/-- **The producers of a queue**: the skew codelet whose block belongs there and
the compute codelet of the neighbour, both of which do push, and nobody else. -/
theorem everPushes_iff (hn : 0 < n) {d : Side} {u v : Tile n} (huv : d.dest u = d.next v)
    (hdest : Function.Injective (d.dest (n := n))) (hnext : Function.Injective (d.next (n := n)))
    (k : Cod n) :
    EverPushes (p := p) blas a b c k d (d.dest u) ↔ k = .skew u ∨ k = .compute v := by
  constructor
  · rintro ⟨s, hs, j, x, ⟨os, hrest⟩, hx⟩
    obtain ⟨rfl, -⟩ := (Ctl.reachable hn hs).owner hrest
    rcases pushesInto_iff.mp hx with ⟨w, rfl, hw⟩ | ⟨w, rfl, hw⟩
    · exact Or.inl (by rw [owner_pushScratch, hdest hw])
    · exact Or.inr (by rw [owner_push, hnext (hw.trans huv)])
  · obtain ⟨s, hs, hdone⟩ := exists_complete (p := p) hn blas a b c
    have found : ∀ x : Act n, x.pushesInto = some (d, d.dest u) →
        (∃ t l, Reachable (cannonTP blas n p).step (launched n p a b c) t ∧ t.nextAct l = some x) →
        EverPushes (p := p) blas a b c x.owner d (d.dest u) := by
      rintro x hx ⟨t, l, ht, hl⟩
      obtain ⟨k, j, os, -, hrest⟩ := State.nextAct_eq_some hl
      obtain ⟨rfl, -⟩ := (Ctl.reachable hn ht).owner hrest
      exact ⟨t, ht, j, x, ⟨os, hrest⟩, hx⟩
    rintro (rfl | rfl)
    · rw [← owner_pushScratch d u]
      refine found _ (pushesInto_iff.mpr (Or.inl ⟨u, rfl, rfl⟩)) ?_
      obtain ⟨hf, -, hrest⟩ := hdone (.skew u)
      refine exists_at_of_executed hn (once_pushScratch d u) ?_ hs ?_
      · cases d <;> simp [pushScratch, Act.owner, fireBody]
      · exact executed_of_finished (by simpa using hf) (by simpa using hrest)
    · rw [← owner_push d v]
      refine found _ (pushesInto_iff.mpr (Or.inr ⟨v, rfl, huv.symm⟩)) ?_
      obtain ⟨hf, -, hrest⟩ := hdone (.compute v)
      refine exists_at_of_count hn (pushTurn_lt d) (i := v) ?_ hs ?_
      · intro y hy
        cases d <;> cases y <;> simp [Act.turn, pushTurn] at hy <;> simp [push, hy]
      · have hpt : point s v = .done := by
          rw [point_of_fired (by omega), hrest]
          rfl
        rw [count, (Ctl.reachable hn hs).cur_end v (Or.inr hpt)]
        omega

/-- An action of a compute codelet finds every skew codelet through for good. -/
theorem Ctl.skew_over (hc : Ctl blas s) {i : Tile n} {j : Nat} {x : Act n}
    (hat : At s (.compute i) j x) (u : Tile n) :
    s.fired (.skew u) = 1 ∧ s.pool (.skew u) = 0 ∧ ∀ j', s.rest (.skew u) j' = [] := by
  obtain ⟨os, hrest⟩ := hat
  obtain ⟨-, -, hf⟩ := hc.owner hrest
  obtain ⟨hfu, hrestu⟩ := hc.skew_finished (i := i) (by omega) u
  have hle := hc.one.fired_le_one (k := .skew u) trivial
  refine ⟨hfu, by omega, fun j' => ?_⟩
  by_contra hne
  obtain ⟨rfl, -⟩ := hc.one.single (.skew u) j' trivial hne
  exact hne hrestu

/-- Two firings that push into one queue are the same firing. -/
theorem Ctl.producer_unique (hc : Ctl blas s) {k k' : Cod n} {j j' : Nat} {x x' : Act n}
    {d : Side} {i : Tile n} (hdest : Function.Injective (d.dest (n := n)))
    (hnext : Function.Injective (d.next (n := n))) (hat : At s k j x) (hat' : At s k' j' x')
    (hx : x.pushesInto = some (d, i)) (hx' : x'.pushesInto = some (d, i)) :
    (k, j) = (k', j') := by
  have hover := fun {i : Tile n} {y : Act n} (h : At s (.compute i) 0 y) => hc.skew_over h
  obtain ⟨os, hrest⟩ := hat
  obtain ⟨os', hrest'⟩ := hat'
  obtain ⟨rfl, rfl, -⟩ := hc.owner hrest
  obtain ⟨rfl, rfl, -⟩ := hc.owner hrest'
  have hclash : ∀ {u v : Tile n} {y z : List (Op (Cod n) (Act n))} {a : Act n},
      s.rest (.skew u) 0 = .act (pushScratch d u) :: y → s.rest (.compute v) 0 = .act a :: z →
      False := by
    intro u v y z a hskew hcomp
    rw [(hover ⟨z, hcomp⟩ u).2.2 0] at hskew
    cases hskew
  rcases pushesInto_iff.mp hx with ⟨u, rfl, hu⟩ | ⟨u, rfl, hu⟩ <;>
    rcases pushesInto_iff.mp hx' with ⟨v, rfl, hv⟩ | ⟨v, rfl, hv⟩ <;>
    simp only [owner_pushScratch, owner_push] at hrest hrest' ⊢
  · rw [hdest (hu.trans hv.symm)]
  · exact (hclash hrest hrest').elim
  · exact (hclash hrest' hrest).elim
  · rw [hnext (hu.trans hv.symm)]

/-- **One producer, one consumer.** The index maps are permutations that keep the
row (for `A`) or the column (for `B`); every queue is pushed into by one skew and
by one compute codelet, both of which do in some run, and by no other; when a compute codelet is at
an action, every skew codelet has finished and will not fire again; only the
tile's own compute codelet peeks or pops; so no two firings ever push into the
same queue, or take from the same queue, at the same time. -/
theorem queues_spsc (blas : Blas R) (hn : 0 < n) (a b c : Nat → R) :
    (∀ d : Side, Function.Bijective (d.dest (n := n)) ∧ Function.Bijective (d.next (n := n))) ∧
    (∀ i : Tile n, theJ n (destRow i) = theJ n i ∧ theJ n (nextRow i) = theJ n i ∧
      theI n (destCol i) = theI n i ∧ theI n (nextCol i) = theI n i) ∧
    (∀ (d : Side) (i : Tile n), ∃ u v, d.dest u = i ∧ d.next v = i ∧
      ∀ k, EverPushes (p := p) blas a b c k d i ↔ k = .skew u ∨ k = .compute v) ∧
    (∀ s, Reachable (cannonTP blas n p).step (launched n p a b c) s →
      (∀ i j x, At s (.compute i) j x → ∀ u, s.fired (.skew u) = 1 ∧ s.pool (.skew u) = 0 ∧
        ∀ j', s.rest (.skew u) j' = []) ∧
      (∀ k j x d i, At s k j x → (d, i) ∈ x.takesFrom → k = .compute i) ∧
      (∀ k j x k' j' x' d i, At s k j x → At s k' j' x' → x.pushesInto = some (d, i) →
        x'.pushesInto = some (d, i) → (k, j) = (k', j')) ∧
      (∀ k j x k' j' x' d i, At s k j x → At s k' j' x' → (d, i) ∈ x.takesFrom →
        (d, i) ∈ x'.takesFrom → (k, j) = (k', j'))) := by
  have : NeZero n := ⟨Nat.pos_iff_ne_zero.mp hn⟩
  have hdest := fun d : Side => d.dest_bijective (n := n)
  have hnext := fun d : Side => d.next_bijective (n := n)
  refine ⟨fun d => ⟨hdest d, hnext d⟩, ?_, ?_, ?_⟩
  · intro i
    have hrow := congrArg (fun t => (t.1 : Nat)) (pos_destRow i)
    have hrow' := congrArg (fun t => (t.1 : Nat)) (pos_nextRow i)
    have hcol := congrArg (fun t => (t.2 : Nat)) (pos_destCol i)
    have hcol' := congrArg (fun t => (t.2 : Nat)) (pos_nextCol i)
    exact ⟨hrow, hrow', hcol, hcol'⟩
  · intro d i
    refine ⟨d.skewed i, d.feeder i, d.dest_skewed i, d.next_feeder i, fun k => ?_⟩
    have : EverPushes (p := p) blas a b c k d (d.dest (d.skewed i)) ↔
        k = .skew (d.skewed i) ∨ k = .compute (d.feeder i) :=
      everPushes_iff hn (by rw [d.dest_skewed, d.next_feeder]) (hdest d).injective
        (hnext d).injective k
    rwa [d.dest_skewed] at this
  · intro s hs
    have hc := Ctl.reachable hn hs
    have howner : ∀ {k j x d i}, At s k j x → (d, i) ∈ x.takesFrom → k = .compute i ∧ j = 0 := by
      rintro k j x d i ⟨os, hrest⟩ hx
      obtain ⟨rfl, rfl, -⟩ := hc.owner hrest
      exact ⟨owner_of_takesFrom hx, rfl⟩
    refine ⟨fun i j x hat u => hc.skew_over hat u, fun k j x d i hat hx => (howner hat hx).1, ?_, ?_⟩
    · intro k j x k' j' x' d i hat hat' hx hx'
      exact hc.producer_unique (hdest d).injective (hnext d).injective hat hat' hx hx'
    · intro k j x k' j' x' d i hat hat' hx hx'
      obtain ⟨rfl, rfl⟩ := howner hat hx
      obtain ⟨rfl, rfl⟩ := howner hat' hx'
      rfl

/-- On a 2 by 2 torus the queue of `A` of tile 2 is filled by skew codelet 3 and
compute codelet 3. -/
theorem queues_spsc_two : ∃ u v : Tile 2, destRow u = 2 ∧ nextRow v = 2 ∧
    ∀ k, EverPushes (p := 1) (Blas.reference ℤ) (fun z => (z : ℤ)) (fun z => (z : ℤ)) (fun _ => 0)
      k .A 2 ↔ k = .skew u ∨ k = .compute v :=
  (queues_spsc (p := 1) (Blas.reference ℤ) (by decide : 0 < 2) _ _ _).2.2.1 .A 2

end Darts.CannonDfswp
