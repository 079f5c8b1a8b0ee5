import Mathlib.Algebra.Group.Nat.Defs
import Mathlib.Logic.Function.Basic
import Darts.Scheduler.Hint
import Darts.Threading.SyncSlot

/-!
# Where a codelet goes that becomes ready under `TPStatic`

`TPStatic::pushCodelet` (`src/scheduler/TPSchedPolicy.cpp`) hands a codelet with a status
to the worker the status names and returns what that worker's `pushCodelet` returns. Its
callers, `Codelet::decDep`, `Codelet::add` and `ThreadedProcedure::add`, have already
counted the codelet in its TP and do not look at the result. A worker that refuses, because
its policy never takes a pushed codelet or because its four slots are full, therefore loses
the codelet. The other TP policies never hand out a codelet from `pushCodelet`, and their
`policy` loops try again or fire the codelet themselves when a worker refuses.

A worker under `MicroSchedHint` may forward the codelet to a sibling and try until it is
taken. Between two attempts the other threads do something (`Others`), and a call that has
not been taken yet has not returned (`none`, for too little fuel). When the sibling does not
recognise itself in the hint it forwards to itself, and the call never returns.
-/

namespace Darts.TPStatic

open Word

variable {C T : Type} {rt : Runtime}

/-! ## Workers -/

/-- The classes `MScheduler::create` builds objects of, with their buffers. -/
inductive MScheduler (C : Type)
  | MicroStandard (buff : RingBuffer C 2)
  | MicroStatic (buff : List C)
  | MicroDynamic
  | MicroSteal (buff : List C)
  | MicroSchedHint (buff : RingBuffer C 2)

namespace MScheduler

/-- `MScheduler::create`; `memory` is what the slots of a ring buffer held before. -/
def create (memory : Fin 4 → C) : Nat → Option (MScheduler C)
  | 0 => some (.MicroStandard (.new memory))
  | 1 => some (.MicroStatic [])
  | 2 => some .MicroDynamic
  | 3 => some (.MicroSteal [])
  | 4 => some (.MicroSchedHint (.new memory))
  | _ => none

/-- The codelets in the worker's buffer. -/
def contents : MScheduler C → List C
  | MicroStandard buff | MicroSchedHint buff => buff.contents
  | MicroStatic buff | MicroSteal buff => buff
  | MicroDynamic => []

/-- `getLocal`: only `MicroSteal` sets `local_`. -/
def getLocal : MScheduler C → Bool
  | MicroSteal _ => true
  | _ => false

/-- `pushCodelet` as far as it concerns the worker's own buffer. -/
def pushOwn (codeletToPush : C) : MScheduler C → Bool × MScheduler C
  | MicroStandard buff => ((buff.push codeletToPush).1, .MicroStandard (buff.push codeletToPush).2)
  | MicroStatic buff => (true, .MicroStatic (buff ++ [codeletToPush]))
  | MicroDynamic => (false, .MicroDynamic)
  | MicroSteal buff => (false, .MicroSteal buff)
  | MicroSchedHint buff => ((buff.push codeletToPush).1, .MicroSchedHint (buff.push codeletToPush).2)

/-- The class of the worker, as `create` is told it. -/
def policy : MScheduler C → Nat
  | MicroStandard _ => 0
  | MicroStatic _ => 1
  | MicroDynamic => 2
  | MicroSteal _ => 3
  | MicroSchedHint _ => 4

/-- The worker takes a codelet into its own buffer. -/
def HasRoom : MScheduler C → Prop
  | MicroStandard buff | MicroSchedHint buff => buff.contents.length < 4
  | MicroStatic _ => True
  | MicroDynamic | MicroSteal _ => False

private theorem pushOwn_ring (buff : RingBuffer C 2) (c : C) :
    (buff.contents.length < 4 ∧ (buff.push c).1 = true ∧
      (buff.push c).2.contents = buff.contents ++ [c]) ∨
    (¬buff.contents.length < 4 ∧ buff.push c = (false, buff)) := by
  rcases RingBuffer.push_spec (by decide) buff c with ⟨hfull, hret⟩ | hroom
  · exact .inr ⟨by rw [hfull]; decide, hret⟩
  · exact .inl hroom

/-- A worker with room appends the codelet, one without does nothing and says so. -/
theorem pushOwn_spec (w : MScheduler C) (c : C) :
    (w.HasRoom ∧ (w.pushOwn c).1 = true ∧ (w.pushOwn c).2.contents = w.contents ++ [c]) ∨
    (¬w.HasRoom ∧ w.pushOwn c = (false, w)) := by
  cases w with
  | MicroStandard buff | MicroSchedHint buff =>
    rcases pushOwn_ring buff c with hroom | ⟨hfull, hret⟩
    · exact .inl hroom
    · refine .inr ⟨hfull, ?_⟩
      simp only [pushOwn, hret]
  | MicroStatic buff => exact .inl ⟨trivial, rfl, rfl⟩
  | MicroDynamic => exact .inr ⟨id, rfl⟩
  | MicroSteal buff => exact .inr ⟨id, rfl⟩

end MScheduler

/-! ## A cluster -/

/-- What the calls read of a codelet. -/
structure Codelets (C T : Type) where
  getStatus : C → BitVec 32
  getSchedHint : C → BitVec 32
  /-- `myTP_`, null for the final codelet. -/
  myTP_ : C → Option T

/-- One cluster of the runtime: the pool of its TP scheduler, its workers, and the
counters of codelets and TPs. -/
structure Cluster (C T : Type) (n : Nat) where
  codelets_ : List C
  children_ : Fin n → MScheduler C
  sync_ : C → SyncSlot
  ref_ : T → Nat

namespace Cluster

variable {n : Nat}

/-- The buffer of worker `k` after a push. -/
def setChild (s : Cluster C T n) (k : Fin n) (w : MScheduler C) : Cluster C T n :=
  { s with children_ := Function.update s.children_ k w }

@[simp] theorem setChild_codelets (s : Cluster C T n) (k : Fin n) (w : MScheduler C) :
    (s.setChild k w).codelets_ = s.codelets_ := rfl

variable [DecidableEq T]

/-- `ThreadedProcedure::incRef`. -/
def incRef (s : Cluster C T n) (tp : T) : Cluster C T n :=
  { s with ref_ := Function.update s.ref_ tp (fetchAdd (s.ref_ tp)) }

/-- `if (myTP_) myTP_->incRef();` -/
def incRefIf (s : Cluster C T n) : Option T → Cluster C T n
  | some tp => s.incRef tp
  | none => s

end Cluster

/-- A call that has returned: what it returned, the cluster as its last attempt found it,
and the cluster as that attempt left it. -/
structure Returned (C T : Type) (n : Nat) where
  pushed : Bool
  found : Cluster C T n
  left : Cluster C T n

/-- `c` has been appended to the pool or to the buffer of a worker, and nothing else in
them has changed. -/
def Stored {n : Nat} (c : C) (s t : Cluster C T n) : Prop :=
  (t.codelets_ = s.codelets_ ++ [c] ∧ t.children_ = s.children_) ∨
  (t.codelets_ = s.codelets_ ∧ ∃ k, (t.children_ k).contents = (s.children_ k).contents ++ [c] ∧
    ∀ k', k' ≠ k → t.children_ k' = s.children_ k')

/-- What the other threads do after each attempt of a call: anything, but no worker
changes its policy. -/
structure Others (C T : Type) (n : Nat) where
  act : Nat → Cluster C T n → Cluster C T n
  policy (t : Nat) (s : Cluster C T n) (k : Fin n) :
    ((act t s).children_ k).policy = (s.children_ k).policy

/-- Nobody else runs. -/
def Others.idle (C T : Type) (n : Nat) : Others C T n := ⟨fun _ s => s, fun _ _ _ => rfl⟩

/-- The cluster as attempt `t` finds it, when those before it did nothing. -/
def Others.seen {n : Nat} (others : Others C T n) (s : Cluster C T n) : Nat → Cluster C T n
  | 0 => s
  | t + 1 => others.act t (others.seen s t)

section Calls

/-- `while (!victim->pushCodelet(tempCodelet));` from attempt `t` on. -/
def untilPushed {n : Nat} (attempt : Cluster C T n → Option (Returned C T n))
    (others : Others C T n) : Nat → Nat → Cluster C T n → Option (Returned C T n)
  | 0, _, _ => none
  | fuel + 1, t, s =>
    (attempt s).bind fun r =>
      if r.pushed then some r else untilPushed attempt others fuel (t + 1) (others.act t r.left)

variable (cod : Codelets C T) (rt) (i : Nat) (others : Others C T rt.numMCSched_)

/-- The test of `validateAndPush` on worker `k` of cluster `i`. -/
def forwards (c : C) (k : Fin rt.numMCSched_) : Prop :=
  (cod.getSchedHint c).toNat ≠
      MicroSchedHint.mySubID rt.links (rt.worker i k) (rt.links.getNumSub i) ∧
    (cod.getSchedHint c).toNat < rt.numMCSched_

instance (c : C) (k : Fin rt.numMCSched_) : Decidable (forwards rt cod i c k) :=
  inferInstanceAs (Decidable (_ ∧ _))

/-- The virtual `pushCodelet` of worker `k`. -/
def MScheduler.pushCodelet (codeletToPush : C) : Nat → Fin rt.numMCSched_ →
    Cluster C T rt.numMCSched_ → Option (Returned C T rt.numMCSched_)
  | 0, _, _ => none
  | fuel + 1, k, s =>
    let own := (s.children_ k).pushOwn codeletToPush
    match s.children_ k with
    | .MicroSchedHint _ =>
      if h : forwards rt cod i codeletToPush k then
        untilPushed (MScheduler.pushCodelet codeletToPush fuel ⟨_, h.2⟩) others fuel 0 s
      else some ⟨own.1, s, s.setChild k own.2⟩
    | _ => some ⟨own.1, s, s.setChild k own.2⟩

/-- `TPStatic::pushCodelet`. -/
def pushCodelet (CodeletToPush : C) (fuel : Nat) (s : Cluster C T rt.numMCSched_) :
    Option (Returned C T rt.numMCSched_) :=
  if h : cod.getStatus CodeletToPush = 0 ∨ rt.numMCSched_ = 0 then
    some ⟨true, s, { s with codelets_ := s.codelets_ ++ [CodeletToPush] }⟩
  else
    MScheduler.pushCodelet rt cod i others CodeletToPush fuel
      ⟨((cod.getStatus CodeletToPush).toNat - 1) % rt.numMCSched_, Nat.mod_lt _ (by omega)⟩ s

variable [DecidableEq C] [DecidableEq T]

/-- `Codelet::decDep` on the thread of worker `k` (`some k`) or of the TP scheduler. -/
def decDep (thread : Option (Fin rt.numMCSched_)) (c : C) (fuel : Nat)
    (s : Cluster C T rt.numMCSched_) : Option (Returned C T rt.numMCSched_) :=
  let s₁ := { s with sync_ := Function.update s.sync_ c (s.sync_ c).decCounter.2 }
  if (s.sync_ c).decCounter.1 then
    let s₂ := s₁.incRefIf (cod.myTP_ c)
    match thread with
    | none => pushCodelet rt cod i others c fuel s₂
    | some k =>
      match s₂.children_ k with
      -- `getLocal` holds, and `pushLocal` of a `MicroSteal` always succeeds
      | .MicroSteal buff => some ⟨true, s₂, s₂.setChild k (.MicroSteal (buff ++ [c]))⟩
      | _ => pushCodelet rt cod i others c fuel s₂
  else some ⟨false, s₁, s₁⟩

/-- `ThreadedProcedure::add` of `tp`, and `Codelet::add` of a codelet with `myTP_ = tp`. -/
def add (tp : T) (toAdd : C) (fuel : Nat) (s : Cluster C T rt.numMCSched_) :
    Option (Returned C T rt.numMCSched_) :=
  if (s.sync_ toAdd).ready then pushCodelet rt cod i others toAdd fuel (s.incRef tp)
  else some ⟨false, s, s⟩

end Calls

/-! ## When a worker takes the codelet -/

variable {cod : Codelets C T} {i : Nat} {others : Others C T rt.numMCSched_}
  {s : Cluster C T rt.numMCSched_} {c : C} {k : Fin rt.numMCSched_}

/-- Worker `k` forwards the codelet to the worker its hint names. -/
def Forwards (rt : Runtime) (cod : Codelets C T) (i : Nat) (s : Cluster C T rt.numMCSched_) (c : C)
    (k : Fin rt.numMCSched_) : Prop :=
  (s.children_ k).policy = 4 ∧ forwards rt cod i c k

/-- A worker under `MicroSchedHint` does not recognise itself in a hint that names it just
when its cluster's number is not a multiple of the number of workers. -/
theorem forwards_named_iff (hi : i < rt.numTPSched_) (hk : k = (cod.getSchedHint c).toNat) :
    forwards rt cod i c k ↔ i % rt.numMCSched_ ≠ 0 := by
  unfold forwards
  rw [MicroSchedHint.mySubID_eq hi k.isLt, ← hk, and_iff_left k.isLt, ne_comm, ne_eq,
    MicroSchedHint.add_mod_eq_iff k.isLt]

/-- A worker that does not forward. -/
theorem MScheduler.pushCodelet_own (h : ¬Forwards rt cod i s c k) (fuel : Nat) :
    MScheduler.pushCodelet rt cod i others c (fuel + 1) k s =
      some ⟨((s.children_ k).pushOwn c).1, s, s.setChild k ((s.children_ k).pushOwn c).2⟩ := by
  unfold MScheduler.pushCodelet
  dsimp only
  split
  next buff hw => rw [dif_neg fun hfwd => h ⟨by rw [hw]; rfl, hfwd⟩]
  next => rfl

/-- A worker that forwards. -/
theorem MScheduler.pushCodelet_forward (h : Forwards rt cod i s c k) {named : Fin rt.numMCSched_}
    (hnamed : named = (cod.getSchedHint c).toNat) (fuel : Nat) :
    MScheduler.pushCodelet rt cod i others c (fuel + 1) k s =
      untilPushed (MScheduler.pushCodelet rt cod i others c fuel named) others fuel 0 s := by
  obtain ⟨hpolicy, hfwd⟩ := h
  obtain rfl : named = ⟨_, hfwd.2⟩ := Fin.ext hnamed
  unfold MScheduler.pushCodelet
  dsimp only
  split
  next buff hw => rw [dif_pos hfwd]
  next hw =>
    cases hchild : s.children_ k with
    | MicroSchedHint buff => exact absurd hchild (hw buff)
    | MicroStandard | MicroStatic | MicroDynamic | MicroSteal => simp [hchild, policy] at hpolicy

/-- A worker that does not recognise itself forwards to itself for ever. -/
theorem MScheduler.pushCodelet_forever (h : Forwards rt cod i s c k)
    (hk : k = (cod.getSchedHint c).toNat) (fuel : Nat) :
    MScheduler.pushCodelet rt cod i others c fuel k s = none := by
  induction fuel with
  | zero => rfl
  | succ fuel ih =>
    rw [pushCodelet_forward h hk]
    cases fuel with
    | zero => rfl
    | succ fuel =>
      unfold untilPushed
      rw [ih, Option.bind_none]

/-- A call, run with more and more fuel, returns, and has stored the codelet when it does. -/
def ReturnsStored (c : C) (run : Nat → Option (Returned C T rt.numMCSched_)) : Prop :=
  (∃ fuel r, run fuel = some r) ∧ ∀ fuel r, run fuel = some r → Stored c r.found r.left

/-- A worker that forwards to one that forwards to itself. -/
private theorem pushCodelet_never (hfwd : Forwards rt cod i s c k) {named : Fin rt.numMCSched_}
    (hnamed : named = (cod.getSchedHint c).toNat) (hself : Forwards rt cod i s c named) (fuel : Nat) :
    MScheduler.pushCodelet rt cod i others c fuel k s = none := by
  cases fuel with
  | zero => rfl
  | succ fuel =>
    rw [MScheduler.pushCodelet_forward hfwd hnamed]
    cases fuel with
    | zero => rfl
    | succ fuel =>
      unfold untilPushed
      rw [MScheduler.pushCodelet_forever hself hnamed, Option.bind_none]

/-- Where all workers are under `MicroSchedHint`, in a cluster whose number is not a multiple of
the number of workers, a codelet that is forwarded is never taken. -/
theorem MScheduler.pushCodelet_misnumbered (hi : i < rt.numTPSched_)
    (hhint : ∀ k, (s.children_ k).policy = 4) (hmod : i % rt.numMCSched_ ≠ 0)
    (hfwd : forwards rt cod i c k) (fuel : Nat) :
    MScheduler.pushCodelet rt cod i others c fuel k s = none := by
  obtain ⟨named, hnamed⟩ : ∃ named : Fin rt.numMCSched_, named = (cod.getSchedHint c).toNat :=
    ⟨⟨_, hfwd.2⟩, rfl⟩
  exact pushCodelet_never ⟨hhint k, hfwd⟩ hnamed
    ⟨hhint named, (forwards_named_iff hi hnamed).mpr hmod⟩ fuel

/-- A call that may make a codelet ready. -/
inductive Call (C T : Type) (n : Nat)
  | decDep (thread : Option (Fin n)) (c : C)
  | codeletAdd (myTP_ : T) (c : C)
  | tpAdd (tp : T) (c : C)

namespace Call

/-- The codelet the call is about. -/
def codelet {n : Nat} : Call C T n → C
  | decDep _ c | codeletAdd _ c | tpAdd _ c => c

/-- The call makes the codelet ready. -/
def Readies {n : Nat} (s : Cluster C T n) : Call C T n → Prop
  | decDep _ c => (s.sync_ c).counter_ = 1
  | codeletAdd _ c | tpAdd _ c => (s.sync_ c).counter_ = 0

/-- The cluster when the codelet is handed on: its counter has reached zero, and it has been
counted in its TP. -/
def counted [DecidableEq C] [DecidableEq T] {n : Nat} (cod : Codelets C T) (s : Cluster C T n) :
    Call C T n → Cluster C T n
  | decDep _ c =>
    ({ s with sync_ := Function.update s.sync_ c (s.sync_ c).decCounter.2 } : Cluster C T n).incRefIf
      (cod.myTP_ c)
  | codeletAdd tp _ | tpAdd tp _ => s.incRef tp

/-- The code of the call. -/
def run [DecidableEq C] [DecidableEq T] (rt : Runtime) (cod : Codelets C T) (i : Nat)
    (others : Others C T rt.numMCSched_) (fuel : Nat) (s : Cluster C T rt.numMCSched_) :
    Call C T rt.numMCSched_ → Option (Returned C T rt.numMCSched_)
  | decDep thread c => TPStatic.decDep rt cod i others thread c fuel s
  | codeletAdd tp c | tpAdd tp c => TPStatic.add rt cod i others tp c fuel s

/-- When the call makes its codelet ready, it returns, and the codelet is stored then. -/
def Keeps [DecidableEq C] [DecidableEq T] (rt : Runtime) (cod : Codelets C T) (i : Nat)
    (others : Others C T rt.numMCSched_) (s : Cluster C T rt.numMCSched_)
    (call : Call C T rt.numMCSched_) : Prop :=
  call.Readies s →
    ReturnsStored call.codelet (fun fuel => call.run rt cod i others fuel s)

/-- The call is a `decDep` on a thread that keeps what it readies. -/
def Local (s : Cluster C T rt.numMCSched_) : Call C T rt.numMCSched_ → Prop
  | decDep (some k) _ => (s.children_ k).getLocal = true
  | _ => False

end Call

section Callers

variable [DecidableEq C] [DecidableEq T] {call : Call C T rt.numMCSched_}

/-- The clusters after calls made one after the other, with nobody else running. -/
def history (rt : Runtime) (cod : Codelets C T) (i : Nat) :
    List (Call C T rt.numMCSched_) → Cluster C T rt.numMCSched_ →
      Option (Cluster C T rt.numMCSched_)
  | [], s => some s
  | call :: calls, s =>
    (call.run rt cod i (.idle C T _) 1 s).bind fun r => history rt cod i calls r.left

end Callers

/-- One cluster of one worker. -/
private def oneByOne : Runtime :=
  { numTPSched_ := 1, numMCSched_ := 1, clusters := Nat.one_pos, threads := by decide }

/-- A `MicroStandard` worker without codelets. -/
private def idle : Cluster Nat Unit 1 :=
  { codelets_ := []
    children_ := fun _ => .MicroStandard (.new fun _ => 0)
    sync_ := fun _ => ⟨0, 0⟩
    ref_ := fun _ => 1 }

private def first : Fin oneByOne.numMCSched_ := ⟨0, by decide⟩

end Darts.TPStatic
