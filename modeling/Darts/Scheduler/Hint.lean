import Darts.Runtime.Links
import Darts.Scheduler.RingBuffer

/-!
# Where a hinted codelet ends up (`MicroSchedHint`, `include/scheduler/MSchedPolicy.h`)

`MicroSchedHint::pushCodelet` first lets `validateAndPush` forward the codelet to
the worker its hint names, and keeps it in its own buffer otherwise. A worker
decides whether the hint names itself by recovering its position in the cluster
from its id, as `(getID() - 1) % numberOfPeers`. With the ids `Runtime` gives out
that is `(i + j) % n` for worker `j` of cluster `i`: the position, if `i` is a
multiple of `n`, and another one in every other cluster.

So in a cluster `i` with `i % n ≠ 0` no hinted codelet gets to the worker its hint
names. Either the caller takes the hint for its own position and keeps the codelet,
or it forwards it to the right worker, which does not recognise itself either and
forwards to itself, in a recursion without end.

`pushCodelet` calls itself and retries, so it runs on fuel here: `none` is a call
that has not returned yet (or one through a null pointer, which the links of a
runtime exclude), and more fuel never changes a result (`pushCodelet_mono`).
-/

namespace Darts

namespace MicroSchedHint

/-- The buffers of all workers: `MCSched_[k]->buff`, with `THRESHOLD = 4` slots. -/
abbrev Buffers (C : Type) := Nat → RingBuffer C 2

variable {C : Type}

/-- `while (!push());` -/
def untilPushed (push : Buffers C → Option (Bool × Buffers C)) :
    Nat → Buffers C → Option (Buffers C)
  | 0, _ => none
  | fuel + 1, b =>
    match push b with
    | none => none
    | some (true, b') => some b'
    | some (false, b') => untilPushed push fuel b'

variable (getSchedHint : C → BitVec 32) (l : Links)

/-- `uint32_t mySubID = (getID() - 1) % (numberOfPeers)`; the ids of workers are positive. -/
def mySubID (k numberOfPeers : Nat) : Nat := (l.id_ k - 1) % numberOfPeers % 2 ^ 32

/-- `MicroSchedHint::validateAndPush` of worker `k`; `push` is the virtual call
`victim->pushCodelet(tempCodelet)`. -/
def validateAndPush (push : Nat → Buffers C → Option (Bool × Buffers C)) (tempCodelet : C)
    (fuel k : Nat) (b : Buffers C) : Option (Bool × Buffers C) :=
  (l.parent_ k).bind fun parent =>
    let numberOfPeers := l.getNumSub parent
    let schedHint := (getSchedHint tempCodelet).toNat
    if schedHint ≠ mySubID l k numberOfPeers ∧ schedHint < numberOfPeers then
      (l.getSubScheduler parent schedHint).bind fun victim =>
        (untilPushed (push victim) fuel b).map fun b' => (true, b')
    else
      some (false, b)

/-- `buff.push(codeletToPush)` of worker `k`. -/
def pushOwn (codeletToPush : C) (k : Nat) (b : Buffers C) : Bool × Buffers C :=
  (((b k).push codeletToPush).1, Function.update b k ((b k).push codeletToPush).2)

/-- `MicroSchedHint::pushCodelet` of worker `k`. -/
def pushCodelet (codeletToPush : C) : Nat → Nat → Buffers C → Option (Bool × Buffers C)
  | 0, _, _ => none
  | fuel + 1, k, b =>
    (validateAndPush getSchedHint l (pushCodelet codeletToPush fuel) codeletToPush fuel k b).bind
      fun (pushed, b') => if !pushed then some (pushOwn codeletToPush k b') else some (true, b')

/-! ## More fuel never changes a result -/

private theorem untilPushed_mono {push push' : Buffers C → Option (Bool × Buffers C)}
    (hpush : ∀ b r, push b = some r → push' b = some r) {b' : Buffers C} :
    ∀ (fuel : Nat) (b : Buffers C), untilPushed push fuel b = some b' →
      untilPushed push' (fuel + 1) b = some b' := by
  intro fuel
  induction fuel with
  | zero => intro b h; simp [untilPushed] at h
  | succ fuel ih =>
    intro b h
    unfold untilPushed at h ⊢
    split at h
    next => simp at h
    next b₁ hb => rw [hpush b _ hb]; exact h
    next b₁ hb => rw [hpush b _ hb]; exact ih b₁ h

variable {getSchedHint l}

theorem pushCodelet_mono {c : C} (fuel : Nat) : ∀ {k : Nat} {b : Buffers C}
    {r : Bool × Buffers C}, pushCodelet getSchedHint l c fuel k b = some r →
      pushCodelet getSchedHint l c (fuel + 1) k b = some r := by
  induction fuel with
  | zero => intro k b r h; simp [pushCodelet] at h
  | succ fuel ih =>
    intro k b r h
    unfold pushCodelet at h ⊢
    obtain ⟨v, hv, hr⟩ := Option.bind_eq_some_iff.mp h
    refine Option.bind_eq_some_iff.mpr ⟨v, ?_, hr⟩
    unfold validateAndPush at hv ⊢
    obtain ⟨parent, hp, hif⟩ := Option.bind_eq_some_iff.mp hv
    refine Option.bind_eq_some_iff.mpr ⟨parent, hp, ?_⟩
    dsimp only at hif ⊢
    split at hif
    next hfwd =>
      rw [if_pos hfwd]
      obtain ⟨victim, hvic, hmap⟩ := Option.bind_eq_some_iff.mp hif
      obtain ⟨b', hb', rfl⟩ := Option.map_eq_some_iff.mp hmap
      refine Option.bind_eq_some_iff.mpr ⟨victim, hvic, Option.map_eq_some_iff.mpr ⟨b', ?_, rfl⟩⟩
      exact untilPushed_mono (fun b r => ih) fuel b hb'
    next hown => rw [if_neg hown]; exact hif

/-! ## The position a worker recovers from its id -/

variable {rt : Runtime}

/-- Worker `j` of cluster `i` takes itself for worker `(i + j) % n`. -/
theorem mySubID_eq {i j : Nat} (hi : i < rt.numTPSched_) (hj : j < rt.numMCSched_) :
    mySubID rt.links (rt.worker i j) (rt.links.getNumSub i) = (i + j) % rt.numMCSched_ := by
  have hle : rt.numMCSched_ ≤ rt.numTPSched_ * rt.numMCSched_ :=
    Nat.le_mul_of_pos_left _ rt.clusters
  have hlt : (i + j) % rt.numMCSched_ < rt.numMCSched_ := Nat.mod_lt _ (by omega)
  have hfits := rt.threads
  unfold mySubID
  rw [Runtime.links_id hi hj, Runtime.links_getNumSub hi, Nat.add_sub_cancel, Nat.mul_add,
    Nat.mul_one, Nat.add_right_comm, Nat.add_mul_mod_self_right, Nat.mod_eq_of_lt (by omega)]

/-- The recovered position is the right one exactly in the clusters whose number is
a multiple of `n`. -/
theorem add_mod_eq_iff {i j n : Nat} (hj : j < n) : (i + j) % n = j ↔ i % n = 0 := by
  constructor
  · intro h
    have hmod : (i + j) % n = j % n := by rw [h, Nat.mod_eq_of_lt hj]
    have hsub := Nat.sub_mod_eq_zero_of_mod_eq hmod
    rwa [Nat.add_sub_cancel] at hsub
  · intro h
    rw [Nat.add_mod, h, Nat.zero_add, Nat.mod_mod, Nat.mod_eq_of_lt hj]

/-! ## The two branches of a call -/

/-- `validateAndPush` with the links of a runtime. -/
private theorem validateAndPush_eq (push : Nat → Buffers C → Option (Bool × Buffers C)) {c : C}
    {i j : Nat} (hi : i < rt.numTPSched_) (hj : j < rt.numMCSched_) (fuel : Nat)
    (b : Buffers C) :
    validateAndPush getSchedHint rt.links push c fuel (rt.worker i j) b =
      if (getSchedHint c).toNat ≠ (i + j) % rt.numMCSched_ ∧
          (getSchedHint c).toNat < rt.numMCSched_ then
        (untilPushed (push (rt.worker i (getSchedHint c).toNat)) fuel b).map fun b' => (true, b')
      else some (false, b) := by
  unfold validateAndPush
  rw [Runtime.links_parent hi hj, Option.bind_some]
  dsimp only
  rw [mySubID_eq hi hj, Runtime.links_getNumSub hi]
  split
  next h => rw [Runtime.links_getSubScheduler hi h.2, Option.bind_some]
  next => rfl

/-- The caller keeps the codelet. -/
private theorem pushCodelet_own {c : C} {i j : Nat} (hi : i < rt.numTPSched_)
    (hj : j < rt.numMCSched_) (fuel : Nat) (b : Buffers C)
    (h : (getSchedHint c).toNat = (i + j) % rt.numMCSched_ ∨
      rt.numMCSched_ ≤ (getSchedHint c).toNat) :
    pushCodelet getSchedHint rt.links c (fuel + 1) (rt.worker i j) b =
      some (pushOwn c (rt.worker i j) b) := by
  unfold pushCodelet
  rw [validateAndPush_eq _ hi hj, if_neg (by omega)]
  rfl

/-- The caller forwards the codelet and retries until it is taken. -/
private theorem pushCodelet_forward {c : C} {i j : Nat} (hi : i < rt.numTPSched_)
    (hj : j < rt.numMCSched_) (fuel : Nat) (b : Buffers C)
    (hother : (getSchedHint c).toNat ≠ (i + j) % rt.numMCSched_)
    (hlt : (getSchedHint c).toNat < rt.numMCSched_) :
    pushCodelet getSchedHint rt.links c (fuel + 1) (rt.worker i j) b =
      (untilPushed (pushCodelet getSchedHint rt.links c fuel
        (rt.worker i (getSchedHint c).toNat)) fuel b).map fun b' => (true, b') := by
  show (validateAndPush _ _ _ c fuel _ b).bind _ = _
  rw [validateAndPush_eq _ hi hj, if_pos ⟨hother, hlt⟩]
  cases untilPushed _ fuel b with
  | none => rfl
  | some b' => rfl

/-- A worker that does not recognise itself in the hint forwards to itself for ever. -/
private theorem pushCodelet_forever {c : C} {i : Nat} (hi : i < rt.numTPSched_)
    (hother : (getSchedHint c).toNat ≠ (i + (getSchedHint c).toNat) % rt.numMCSched_)
    (hlt : (getSchedHint c).toNat < rt.numMCSched_) (fuel : Nat) (b : Buffers C) :
    pushCodelet getSchedHint rt.links c fuel (rt.worker i (getSchedHint c).toNat) b = none := by
  induction fuel with
  | zero => rfl
  | succ fuel ih =>
    rw [pushCodelet_forward hi hlt fuel b hother hlt]
    cases fuel with
    | zero => rfl
    | succ fuel =>
      unfold untilPushed
      rw [ih]
      rfl

/-! ## Delivery -/

variable (getSchedHint) (rt)

/-- The worker of cluster `i` the codelet should go to when it is pushed on worker
`j`: the one its hint names, worker `j` itself when there is no such worker. -/
def destination (i j : Nat) (c : C) : Nat :=
  rt.worker i (if (getSchedHint c).toNat < rt.numMCSched_ then (getSchedHint c).toNat else j)

/-- `pushCodelet` on worker `j` of cluster `i` returns, returns true, and appends the
codelet to the buffer of the destination and to no other. -/
def Delivers (i j : Nat) (c : C) (b : Buffers C) : Prop :=
  ∃ fuel b', pushCodelet getSchedHint rt.links c fuel (rt.worker i j) b = some (true, b') ∧
    (b' (destination getSchedHint rt i j c)).contents =
      (b (destination getSchedHint rt i j c)).contents ++ [c] ∧
    ∀ k, k ≠ destination getSchedHint rt i j c → b' k = b k

variable {getSchedHint} {rt}

/-- What a push on a buffer with room does. -/
private theorem pushOwn_room {c : C} {k : Nat} {b : Buffers C} (room : (b k).contents.length < 4) :
    ∃ b', pushOwn c k b = (true, b') ∧ (b' k).contents = (b k).contents ++ [c] ∧
      ∀ k', k' ≠ k → b' k' = b k' := by
  rcases RingBuffer.push_spec (by decide) (b k) c with ⟨hfull, -⟩ | ⟨-, hret, hcont⟩
  · exact absurd hfull (by unfold RingBuffer.num; omega)
  · refine ⟨Function.update b k ((b k).push c).2, ?_, ?_, fun k' hk' => ?_⟩
    · unfold pushOwn
      rw [hret]
    · rw [Function.update_self, hcont]
    · exact Function.update_of_ne hk' _ _

/-- In a cluster whose workers know their position, and for a codelet without a hint
in every cluster, the codelet is delivered. -/
private theorem delivers {i j : Nat} (hi : i < rt.numTPSched_) (hj : j < rt.numMCSched_) {c : C}
    {b : Buffers C} (room : (b (destination getSchedHint rt i j c)).contents.length < 4)
    (h : i % rt.numMCSched_ = 0 ∨ rt.numMCSched_ ≤ (getSchedHint c).toNat) :
    Delivers getSchedHint rt i j c b := by
  obtain ⟨b', hpush, hdest, hrest⟩ := pushOwn_room (c := c) room
  by_cases hlt : (getSchedHint c).toNat < rt.numMCSched_
  · have hzero : i % rt.numMCSched_ = 0 := by omega
    have hwork : destination getSchedHint rt i j c = rt.worker i (getSchedHint c).toNat := by
      unfold destination
      rw [if_pos hlt]
    -- the worker the hint names keeps the codelet
    have hown := pushCodelet_own (c := c) hi hlt 0 b
      (.inl ((add_mod_eq_iff hlt).mpr hzero).symm)
    rw [← hwork, hpush] at hown
    by_cases hself : (getSchedHint c).toNat = j
    · refine ⟨1, b', ?_, hdest, hrest⟩
      rw [← hown, hwork, hself]
    · refine ⟨2, b', ?_, hdest, hrest⟩
      rw [pushCodelet_forward hi hj 1 b (by rwa [(add_mod_eq_iff hj).mpr hzero]) hlt, ← hwork]
      simp [untilPushed, hown]
  · have hwork : destination getSchedHint rt i j c = rt.worker i j := by
      unfold destination
      rw [if_neg hlt]
    refine ⟨1, b', ?_, hdest, hrest⟩
    rw [pushCodelet_own hi hj 0 b (.inr (by omega)), ← hwork, hpush]

/-- In every other cluster a hinted codelet is not delivered. -/
private theorem not_delivers {i j : Nat} (hi : i < rt.numTPSched_) (hj : j < rt.numMCSched_)
    {c : C} {b : Buffers C} (hzero : i % rt.numMCSched_ ≠ 0)
    (hlt : (getSchedHint c).toNat < rt.numMCSched_) : ¬ Delivers getSchedHint rt i j c b := by
  intro h
  obtain ⟨fuel, b', hcall, hdest, -⟩ := h
  have hwork : destination getSchedHint rt i j c = rt.worker i (getSchedHint c).toNat := by
    unfold destination
    rw [if_pos hlt]
  cases fuel with
  | zero => exact absurd hcall (by simp [pushCodelet])
  | succ fuel =>
    by_cases hself : (getSchedHint c).toNat = (i + j) % rt.numMCSched_
    · -- the caller takes the hint for its own position and keeps the codelet
      rw [pushCodelet_own hi hj fuel b (.inl hself)] at hcall
      have hj' : (getSchedHint c).toNat ≠ j := by
        rw [hself]
        exact fun h => hzero ((add_mod_eq_iff hj).mp h)
      have hsame : b' (rt.worker i (getSchedHint c).toNat) =
          b (rt.worker i (getSchedHint c).toNat) := by
        have hb' : (pushOwn c (rt.worker i j) b).2 = b' :=
          congrArg Prod.snd (Option.some.inj hcall)
        rw [← hb']
        exact Function.update_of_ne (fun h => hj' (Runtime.worker_inj h)) _ _
      rw [hwork, hsame] at hdest
      exact absurd (congrArg List.length hdest) (by simp)
    · -- the worker the hint names forwards to itself
      rw [pushCodelet_forward hi hj fuel b hself hlt] at hcall
      have hother : (getSchedHint c).toNat ≠ (i + (getSchedHint c).toNat) % rt.numMCSched_ :=
        fun h => hzero ((add_mod_eq_iff hlt).mp h.symm)
      cases fuel with
      | zero => simp [untilPushed] at hcall
      | succ fuel =>
        unfold untilPushed at hcall
        rw [pushCodelet_forever hi hother hlt] at hcall
        simp at hcall

/-- **Where hint routing works**: for any runtime, cluster, worker, codelet and
buffers with room in the destination, the codelet is delivered if and only if the
number of the cluster is a multiple of the number of workers per cluster, or the
hint names no worker. -/
theorem hint_routing (getSchedHint : C → BitVec 32) (rt : Runtime) (i : Fin rt.numTPSched_)
    (j : Fin rt.numMCSched_) (c : C) (b : Buffers C)
    (room : (b (destination getSchedHint rt i j c)).contents.length < 4) :
    Delivers getSchedHint rt i j c b ↔
      i % rt.numMCSched_ = 0 ∨ rt.numMCSched_ ≤ (getSchedHint c).toNat := by
  constructor
  · intro h
    by_contra hnot
    exact not_delivers i.isLt j.isLt (by omega) (by omega) h
  · exact delivers i.isLt j.isLt room

/-- Empty buffers, for a codelet that is nothing but its hint. -/
private def empties : Buffers (BitVec 32) := fun _ => RingBuffer.new fun _ => 0

/-- Two clusters of two workers. -/
private def twoByTwo : Runtime :=
  { numTPSched_ := 2, numMCSched_ := 2, clusters := by decide, threads := by decide }

/-- Worker 0 of cluster 0 forwards hint 1 to its sibling. -/
theorem hint_routing_first : Delivers (fun h => h) twoByTwo 0 0 (1 : BitVec 32) empties :=
  (hint_routing (fun h => h) twoByTwo ⟨0, by decide⟩ ⟨0, by decide⟩ 1 empties (by
    simp [empties])).mpr (.inl rfl)

/-- In cluster 1 neither hint works on worker 0: hint 0 is forwarded to worker 0 for
ever, hint 1 is taken for worker 0's own position. -/
theorem hint_routing_second :
    (empties (destination (fun h => h) twoByTwo 1 0 0)).contents.length < 4 ∧
    ¬ Delivers (fun h => h) twoByTwo 1 0 (0 : BitVec 32) empties ∧
    (empties (destination (fun h => h) twoByTwo 1 0 1)).contents.length < 4 ∧
    ¬ Delivers (fun h => h) twoByTwo 1 0 (1 : BitVec 32) empties :=
  ⟨by simp [empties], not_delivers (by decide) (by decide) (by decide) (by decide),
    by simp [empties], not_delivers (by decide) (by decide) (by decide) (by decide)⟩

end MicroSchedHint

end Darts
