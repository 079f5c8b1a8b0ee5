import Mathlib.Data.Set.Basic
import Darts.Runtime.Linked

/-!
# Who steals from whom (`TPScheduler.h`, `MSchedPolicy.h`)

A TP scheduler without work takes a closure from the `ready_` pool of a random peer, a
`MicroSteal` worker without work a codelet from its parent or from the buffer of a
random sibling. Both draw an index and do nothing when it is their own number. The index
is a place in the table of peers or among the children, but the number is that of the
thread in the whole runtime. The two agree for TP scheduler 0 only: every other
scheduler may draw itself (`steals_iff`).

The objects are those that the runtime has linked when the scheduler enters its policy
loop (`Darts/Runtime/Linked.lean`).
-/

namespace Darts.Steal

open Transition Startup

variable {N n : Nat}

/-- The pools that something is taken from. -/
inductive Pool (N n : Nat)
  /-- `ready_` of a TP scheduler. -/
  | ready (th : Thread N n)
  /-- Its `codelets_`. -/
  | codelets (th : Thread N n)
  /-- `buff` of a worker. -/
  | buff (th : Thread N n)

/-- `rand()` is from 0 to `RAND_MAX`, here that of the GNU C library. -/
def RAND_MAX : Nat := 2147483647

/-- `TPScheduler::steal` when `rand()` is `rand`: the pool that it pops from, if any. A call
through a null pointer has no result. -/
def steal (s : State N n) (self : Thread N n) (rand : Nat) : Option (Option (Pool N n)) :=
  (s.obj self).bind fun o =>
    if o.numberOfPeers ≠ 0 then
      if rand % o.numberOfPeers ≠ o.id_ then
        o.peers_.bind fun peers =>
          (peers (rand % o.numberOfPeers)).map fun victim => some (.ready victim)
      else some none
    else some none

/-- `MicroSteal::stealCodelet`. -/
def stealCodelet (s : State N n) (self : Thread N n) (rand : Nat) : Option (Option (Pool N n)) :=
  (s.obj self).bind fun o => o.parent_.bind fun parent => (s.obj parent).bind fun p =>
    let numberOfPeers := p.children_.length
    if rand % (numberOfPeers + 1) ≠ o.id_ then
      if rand % (numberOfPeers + 1) = numberOfPeers then some (some (.codelets parent))
      else (p.children_[rand % (numberOfPeers + 1)]?).join.map fun victim => some (.buff victim)
    else some none

/-- What a scheduler does when it has nothing to do. -/
def tryToSteal (s : State N n) (self : Thread N n) (rand : Nat) : Option (Option (Pool N n)) :=
  match self with
  | .tp _ => steal s self rand
  | .mc _ _ => stealCodelet s self rand

/-- The pools that a scheduler may steal from, whatever `rand()` returns. -/
def stealsFrom (s : State N n) (self : Thread N n) : Set (Pool N n) :=
  {p | ∃ rand ≤ RAND_MAX, tryToSteal s self rand = some (some p)}

/-- Those that it is meant to steal from. -/
def others : Thread N n → Set (Pool N n)
  | .tp i => {p | ∃ i', i' ≠ i ∧ p = .ready (.tp i')}
  | .mc i j => {p | p = .codelets (.tp i) ∨ ∃ j', j' ≠ j ∧ p = .buff (.mc i j')}

/-! ## In the linked runtime -/

variable {rt : Runtime} {s : State rt.numTPSched_ rt.numMCSched_}

/-- The objects as a scheduler finds them. -/
structure Ready (s : State rt.numTPSched_ rt.numMCSched_) : Prop where
  objects : Objects s
  counts : Counts s
  last : .decFull ∉ s.rest (.tp (first rt))

theorem ready_of_through {th : RtThread rt} (hs : Reachable (step rt) (start rt) s)
    (hth : s.rest th = []) : Ready s where
  objects := Objects.reachable hs
  counts := Counts.reachable hs
  last := (Counts.reachable hs).through hth

/-- TP scheduler `i` pops from whatever index it draws, unless this is the number of its thread. -/
theorem steal_eq (h : Ready s) (i : Fin rt.numTPSched_) (rand : Nat) : ∃ k : Fin rt.numTPSched_,
    k.val = rand % rt.numTPSched_ ∧ steal s (.tp i) rand =
      some (if k.val ≠ i * (1 + rt.numMCSched_) then some (.ready (.tp k)) else none) := by
  obtain ⟨o, peers, ho, hid, hnum, hpeers, hset, -⟩ := h.objects.tp_obj h.counts h.last i
  refine ⟨⟨rand % rt.numTPSched_, Nat.mod_lt _ rt.clusters⟩, rfl, ?_⟩
  have hentry := hset ⟨rand % rt.numTPSched_, Nat.mod_lt _ rt.clusters⟩
  have hpos := rt.clusters
  unfold steal
  rw [ho, Option.bind_some, hnum, hid, if_pos (by omega)]
  show (if rand % rt.numTPSched_ ≠ _ then _ else _) = some (if rand % rt.numTPSched_ ≠ _ then _ else _)
  split
  next =>
    rw [hpeers, Option.bind_some]
    exact congrArg (Option.map _) hentry
  next => rfl

/-- Worker `j` pops from the child that it draws, its own included, or from its parent. -/
theorem stealCodelet_eq (h : Ready s) (i : Fin rt.numTPSched_) (j : Fin rt.numMCSched_)
    {rand : Nat} (hne : rand % (rt.numMCSched_ + 1) ≠ i * (1 + rt.numMCSched_) + j + 1) :
    (∃ k : Fin rt.numMCSched_, k.val = rand % (rt.numMCSched_ + 1) ∧
      stealCodelet s (.mc i j) rand = some (some (.buff (.mc i k)))) ∨
    rand % (rt.numMCSched_ + 1) = rt.numMCSched_ ∧
      stealCodelet s (.mc i j) rand = some (some (.codelets (.tp i))) := by
  obtain ⟨o, ho, hid, hparent⟩ := h.objects.mc_obj h.counts h.last i j
  obtain ⟨p, -, hp, -, -, -, -, hchildren⟩ := h.objects.tp_obj h.counts h.last i
  have hlength : p.children_.length = rt.numMCSched_ := by
    rw [hchildren, List.length_map, List.length_finRange]
  unfold stealCodelet
  rw [ho, Option.bind_some, hparent, Option.bind_some, hp, Option.bind_some]
  simp only [hlength, hid]
  rw [if_pos hne]
  by_cases hlast : rand % (rt.numMCSched_ + 1) = rt.numMCSched_
  · exact .inr ⟨hlast, if_pos hlast⟩
  · have hlt : rand % (rt.numMCSched_ + 1) < rt.numMCSched_ := by
      have hmod := Nat.mod_lt rand (show 0 < rt.numMCSched_ + 1 by omega)
      omega
    refine .inl ⟨⟨_, hlt⟩, rfl, ?_⟩
    rw [if_neg hlast, hchildren]
    simp [hlt]

/-- Every index below the number of peers can be drawn. -/
theorem exists_rand {k m : Nat} (hk : k < m) (hm : m ≤ RAND_MAX + 1) :
    ∃ rand ≤ RAND_MAX, rand % m = k :=
  ⟨k, by omega, Nat.mod_eq_of_lt hk⟩

/-- A cluster with workers leaves few enough of them for `rand()`. -/
theorem numTPSched_le (hn : 0 < rt.numMCSched_) : rt.numTPSched_ ≤ RAND_MAX + 1 := by
  have hthreads := rt.threads
  have hmul : rt.numTPSched_ ≤ rt.numTPSched_ * rt.numMCSched_ := Nat.le_mul_of_pos_right _ hn
  have hmax : RAND_MAX = 2147483647 := rfl
  omega

/-- What a TP scheduler may steal from. -/
theorem mem_stealsFrom_tp (hn : 0 < rt.numMCSched_) (h : Ready s) (i : Fin rt.numTPSched_)
    (p : Pool rt.numTPSched_ rt.numMCSched_) : p ∈ stealsFrom s (.tp i) ↔
      ∃ k : Fin rt.numTPSched_, k.val ≠ i * (1 + rt.numMCSched_) ∧ p = .ready (.tp k) := by
  constructor
  · intro hp
    obtain ⟨rand, -, hsteal⟩ := hp
    obtain ⟨k, -, heq⟩ := steal_eq h i rand
    rw [show tryToSteal s (.tp i) rand = _ from heq] at hsteal
    split at hsteal
    next hk => exact ⟨k, hk, (Option.some.inj (Option.some.inj hsteal)).symm⟩
    next => cases hsteal
  · intro hp
    obtain ⟨k, hk, rfl⟩ := hp
    obtain ⟨rand, hle, hmod⟩ := exists_rand k.isLt (numTPSched_le hn)
    obtain ⟨k', hk', heq⟩ := steal_eq h i rand
    obtain rfl : k' = k := Fin.ext (hk'.trans hmod)
    exact ⟨rand, hle, heq.trans (by rw [if_pos hk])⟩

/-- A TP scheduler but the first may steal from itself. -/
theorem self_mem_stealsFrom (hn : 0 < rt.numMCSched_) (h : Ready s) {i : Fin rt.numTPSched_}
    (hi : i.val ≠ 0) : .ready (.tp i) ∈ stealsFrom s (.tp i) := by
  refine (mem_stealsFrom_tp hn h i _).mpr ⟨i, ?_, rfl⟩
  have hpos : 0 < i.val * rt.numMCSched_ := Nat.mul_pos (Nat.pos_of_ne_zero hi) hn
  rw [Nat.mul_add, Nat.mul_one]
  omega

/-- A worker may steal from itself, whenever it may steal from its parent. -/
theorem worker_mem_stealsFrom (h : Ready s) (i : Fin rt.numTPSched_) (j : Fin rt.numMCSched_)
    (hparent : .codelets (.tp i) ∈ stealsFrom s (.mc i j)) :
    .buff (.mc i j) ∈ stealsFrom s (.mc i j) := by
  obtain ⟨rand, hle, hsteal⟩ := hparent
  have hdrawn : rand % (rt.numMCSched_ + 1) = rt.numMCSched_ := by
    by_cases hne : rand % (rt.numMCSched_ + 1) = i * (1 + rt.numMCSched_) + j + 1
    · -- the number of the thread stops it
      obtain ⟨o, ho, hid, hpar⟩ := h.objects.mc_obj h.counts h.last i j
      obtain ⟨p, -, hp, -, -, -, -, hchildren⟩ := h.objects.tp_obj h.counts h.last i
      have hlength : p.children_.length = rt.numMCSched_ := by
        rw [hchildren, List.length_map, List.length_finRange]
      have hsteal : stealCodelet s (.mc i j) rand = some (some (.codelets (.tp i))) := hsteal
      unfold stealCodelet at hsteal
      rw [ho, Option.bind_some, hpar, Option.bind_some, hp, Option.bind_some] at hsteal
      simp only [hlength, hid] at hsteal
      rw [if_neg (not_not.mpr hne)] at hsteal
      cases hsteal
    · rcases stealCodelet_eq h i j hne with ⟨k, -, heq⟩ | ⟨hlast, -⟩
      · have hother := hsteal.symm.trans heq
        cases hother
      · exact hlast
  have hmod := Nat.mod_le rand (rt.numMCSched_ + 1)
  have hj := j.isLt
  have hown : j.val % (rt.numMCSched_ + 1) = j.val := Nat.mod_eq_of_lt (by omega)
  refine ⟨j.val, by omega, ?_⟩
  have hdraws : j.val % (rt.numMCSched_ + 1) ≠ i * (1 + rt.numMCSched_) + j + 1 := by omega
  rcases stealCodelet_eq h i j hdraws with ⟨k, hk, heq⟩ | ⟨hlast, -⟩
  · obtain rfl : k = j := Fin.ext (hk.trans hown)
    exact heq
  · omega

/-- **Only the first TP scheduler steals as meant.** For every number of clusters and of workers in
them: a scheduler that has entered its policy loop may steal from all others of its kind, or from
its parent and all siblings, and from nobody else, just when it is TP scheduler 0. -/
theorem steals_iff {th : RtThread rt} (hn : 0 < rt.numMCSched_)
    (hs : Reachable (step rt) (start rt) s) (hth : s.rest th = []) :
    stealsFrom s th = others th ↔ th = .tp (first rt) := by
  have h := ready_of_through hs hth
  rcases th with i | ⟨i, j⟩
  · constructor
    · intro heq
      refine congrArg Sum.inl (Fin.ext ?_)
      by_contra hi
      have hself := self_mem_stealsFrom hn h hi
      rw [show stealsFrom s (.tp i) = _ from heq] at hself
      obtain ⟨i', hne, hpool⟩ := hself
      cases hpool
      exact hne rfl
    · intro hfirst
      obtain rfl : i = first rt := Sum.inl.inj hfirst
      refine Set.ext fun p => (mem_stealsFrom_tp hn h (first rt) p).trans ?_
      have hne : ∀ k : Fin rt.numTPSched_,
          k.val ≠ (first rt).val * (1 + rt.numMCSched_) ↔ k ≠ first rt := fun k => by
        rw [show (first rt).val = 0 from rfl, Nat.zero_mul]
        exact not_congr ⟨fun hk => Fin.ext hk, fun hk => congrArg Fin.val hk⟩
      exact exists_congr fun k => and_congr_left fun _ => hne k
  · constructor
    · intro heq
      have hparent : .codelets (.tp i) ∈ stealsFrom s (.mc i j) := by
        rw [show stealsFrom s (.mc i j) = _ from heq]
        exact .inl rfl
      have hself := worker_mem_stealsFrom h i j hparent
      rw [show stealsFrom s (.mc i j) = _ from heq] at hself
      rcases hself with hcodelets | ⟨j', hne, hpool⟩
      · cases hcodelets
      · cases hpool
        exact absurd rfl hne
    · intro hfirst
      cases hfirst

/-- Two clusters of one worker. -/
def two : Runtime := ⟨2, 1, Nat.two_pos, by decide⟩

/-- A state in which everybody has entered its policy loop. -/
theorem exists_through (rt : Runtime) : ∃ s : State rt.numTPSched_ rt.numMCSched_,
    Reachable (step rt) (start rt) s ∧ ∀ th, s.rest th = [] := by
  obtain ⟨s, hs, hstuck⟩ := Reachable.exists_stuck (fun _ _ hrun => run_length_le hrun)
    (.start : Reachable (step rt) (start rt) _)
  exact ⟨s, hs, startup_progress hs hstuck⟩

/-- In it TP scheduler 0 steals as meant. -/
theorem steals_iff_two : ∃ s : State two.numTPSched_ two.numMCSched_,
    Reachable (step two) (start two) s ∧ stealsFrom s (.tp (first two)) = others (.tp (first two)) := by
  obtain ⟨s, hs, hdone⟩ := exists_through two
  exact ⟨s, hs, (steals_iff (by decide) hs (hdone _)).mpr rfl⟩

/-- TP scheduler 1 may steal from itself. -/
theorem steals_self : ∃ s : State two.numTPSched_ two.numMCSched_,
    Reachable (step two) (start two) s ∧ s.rest (.tp ⟨1, by decide⟩) = [] ∧
      stealsFrom s (.tp ⟨1, by decide⟩) ≠ others (.tp ⟨1, by decide⟩) := by
  obtain ⟨s, hs, hdone⟩ := exists_through two
  refine ⟨s, hs, hdone _, fun heq => ?_⟩
  have hself := self_mem_stealsFrom (by decide) (ready_of_through hs (hdone (.tp ⟨1, by decide⟩)))
    (i := ⟨1, by decide⟩) (by decide)
  rw [heq] at hself
  obtain ⟨i', hne, hpool⟩ := hself
  cases hpool
  exact hne rfl

/-- An order of the start-up: the others up to the loop they spin in, thread 0, the others. -/
def startUp (rt : Runtime) : List (RtThread rt) :=
  let tps := ((List.finRange rt.numTPSched_).filter fun i => i ≠ first rt).map Thread.tp
  let mcs := (List.finRange rt.numTPSched_).flatMap fun i =>
    (List.finRange rt.numMCSched_).map fun j => .mc i j
  tps.flatMap (List.replicate 7) ++ mcs.flatMap (List.replicate 6) ++
    List.replicate 12 (.tp (first rt)) ++ (tps ++ mcs).flatMap (List.replicate 2)

/-- The runtime when everybody has entered the policy loop. -/
def linked (rt : Runtime) : Startup.State rt.numTPSched_ rt.numMCSched_ :=
  (run (step rt) (start rt) (startUp rt)).getD (start rt)

theorem linked_reachable {rt : Runtime}
    (h : (run (step rt) (start rt) (startUp rt)).isSome = true) :
    Reachable (step rt) (start rt) (linked rt) := by
  obtain ⟨s, hs⟩ := Option.isSome_iff_exists.mp h
  unfold linked
  rw [hs]
  exact .of_run hs

theorem linked_two :
    Reachable (step two) (start two) (linked two) ∧ ∀ th, (linked two).rest th = [] :=
  ⟨linked_reachable (by decide +kernel), by decide +kernel⟩

end Darts.Steal
