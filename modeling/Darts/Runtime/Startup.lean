import Mathlib.Data.List.FinRange
import Mathlib.Data.Fintype.Sum
import Darts.Lib.Transition
import Darts.Runtime.Links
import Darts.Threading.SyncSlot

/-!
# The start of a runtime (`src/runtime/Runtime.cpp`)

The constructor of `Runtime` runs one thread per worker and per TP scheduler but the
first, whose part it plays itself (`TPThread0`). Each thread creates its own scheduler
object, fills in what concerns only itself and registers it for termination; thread 0
links all of them once two counters say that they exist; a third counter and a flag hold
the others back until it has.

A thread executes the statements of its function one after the other, the threads in any
interleaving. `linkTPSched` and `linkMCSched`, double loops of thread 0 alone, are one
statement each. A scheduler object is named by the thread that creates it, `none` is the
null pointer (or an entry that has not been written), and a call through it has no next
state. A thread with no statement left has entered `policy()`.
-/

namespace Darts.Startup

open Word

/-- The threads of the runtime: one for TP scheduler `i`, and one for worker `j` of
cluster `i`. -/
abbrev Thread (N n : Nat) : Type := Fin N ⊕ Fin N × Fin n

/-- `TPThread`, and `TPThread0` for the first. -/
@[match_pattern] abbrev Thread.tp {N n : Nat} (i : Fin N) : Thread N n := .inl i

/-- `MCThread`. -/
@[match_pattern] abbrev Thread.mc {N n : Nat} (i : Fin N) (j : Fin n) : Thread N n := .inr (i, j)

variable {N n : Nat}

/-- A `TPScheduler` or an `MScheduler`, as far as the start-up fills it in. -/
structure Sched (N n : Nat) where
  id_ : Nat
  alive_ : Bool
  numberOfPeers : Nat
  peers_ : Option (Nat → Option (Thread N n))
  children_ : List (Option (Thread N n))
  parent_ : Option (Thread N n)

/-- The constructors. -/
def Sched.fresh : Sched N n := ⟨0, true, 0, none, [], none⟩

/-- The statements of the thread functions. -/
inductive Stmt
  /-- `newTPSched`, `newMCSched`. -/
  | newSched
  | setID
  | setNumPeers
  | addAliveSignal
  | decTP
  | decMC
  /-- `while (rt->checkTP());` -/
  | checkTP
  | linkTPSched
  /-- `while (rt->checkMC());` -/
  | checkMC
  | linkMCSched
  /-- The `fetchSub` of `decFull`. -/
  | decFull
  /-- And its `spin_ = false`, if the old value was 1. -/
  | clearSpin
  /-- `while (spin_);` -/
  | spin
  /-- The assignments to `myThread`. -/
  | setThread
deriving DecidableEq

/-- `TPThread`. -/
def TPThread : List Stmt :=
  [.newSched, .setID, .setNumPeers, .addAliveSignal, .decTP, .decFull, .clearSpin, .spin, .setThread]

/-- `MCThread`. -/
def MCThread : List Stmt :=
  [.newSched, .setID, .addAliveSignal, .decMC, .decFull, .clearSpin, .spin, .setThread]

/-- `TPThread0`. -/
def TPThread0 : List Stmt :=
  [.newSched, .setID, .setNumPeers, .addAliveSignal, .decTP, .checkTP, .linkTPSched, .checkMC,
    .linkMCSched, .setThread, .decFull, .clearSpin]

/-- What a thread executes before it calls `policy()`. -/
def program : Thread N n → List Stmt
  | .tp i => if i.val = 0 then TPThread0 else TPThread
  | .mc _ _ => MCThread

/-- The runtime under construction. -/
structure State (N n : Nat) where
  TPSched_ : Nat → Option (Thread N n)
  MCSched_ : Nat → Option (Thread N n)
  /-- The objects created so far. -/
  obj : Thread N n → Option (Sched N n)
  aliveSig : Nat → Option (Thread N n)
  tpcount_ : Nat
  mccount_ : Nat
  fullcount_ : Nat
  spin_ : Bool
  /-- `1 == Atomics::fetchSub(fullcount_, 1U)` in the `decFull` of a thread. -/
  wasOne : Thread N n → Bool
  /-- `myThread.threadTPsched` and `myThread.threadMCsched` of a thread. -/
  threadTPsched : Thread N n → Option (Thread N n)
  threadMCsched : Thread N n → Option (Thread N n)
  /-- What a thread has left to execute. -/
  rest : Thread N n → List Stmt

variable (rt : Runtime)

/-- The thread of the machine that has the sizes of `rt`. -/
abbrev RtThread : Type := Thread rt.numTPSched_ rt.numMCSched_

/-- The runtime whose constructor has started the threads. -/
def start : State rt.numTPSched_ rt.numMCSched_ where
  TPSched_ := fun _ => none
  MCSched_ := fun _ => none
  obj := fun _ => none
  aliveSig := fun _ => none
  tpcount_ := rt.numTPSched_
  mccount_ := rt.numTPSched_ * rt.numMCSched_
  fullcount_ := rt.numTPSched_ + rt.numTPSched_ * rt.numMCSched_
  spin_ := true
  wasOne := fun _ => false
  threadTPsched := fun _ => none
  threadMCsched := fun _ => none
  rest := program

/-- `threadId`; `TPThread0` uses the constant 0. -/
def threadId : RtThread rt → Nat
  | .tp i => i.val * (1 + rt.numMCSched_) % 2 ^ 32
  | .mc i j => rt.tid i j

/-- `numThreads` of the final codelet. -/
def numThreads : Nat := rt.numTPSched_ + rt.numTPSched_ * rt.numMCSched_

namespace State

variable (s : State N n)

/-- A scheduler object after an update. -/
def setObj (p : Thread N n) (o : Sched N n) : State N n :=
  { s with obj := Function.update s.obj p (some o) }

/-- `TPSched_[i]->addPeer(TPSched_[j], j)`. -/
def addPeer (i j : Nat) : Option (State N n) :=
  (s.TPSched_ i).bind fun p => (s.obj p).bind fun o => o.peers_.map fun peers =>
    s.setObj p { o with peers_ := some (Function.update peers j (s.TPSched_ j)) }

/-- `TPSched_[i]->setSubScheduler(MCSched_[k])`. -/
def setSubScheduler (i k : Nat) : Option (State N n) :=
  (s.TPSched_ i).bind fun p => (s.obj p).map fun o =>
    s.setObj p { o with children_ := o.children_ ++ [s.MCSched_ k] }

/-- `MCSched_[k]->setParentScheduler(TPSched_[i])`. -/
def setParentScheduler (i k : Nat) : Option (State N n) :=
  (s.MCSched_ k).bind fun p => (s.obj p).map fun o =>
    s.setObj p { o with parent_ := s.TPSched_ i }

end State

/-- `Runtime::linkTPSched`. -/
def linkTPSched (s : State rt.numTPSched_ rt.numMCSched_) :
    Option (State rt.numTPSched_ rt.numMCSched_) :=
  CLoop.forStep rt.numTPSched_ 1 (fun i => CLoop.forStep rt.numTPSched_ 1
    (fun j s => s.bind fun s => s.addPeer i j) 0) 0 (some s)

/-- `Runtime::linkMCSched`. -/
def linkMCSched (s : State rt.numTPSched_ rt.numMCSched_) :
    Option (State rt.numTPSched_ rt.numMCSched_) :=
  CLoop.forStep rt.numTPSched_ 1 (fun i => CLoop.forStep rt.numMCSched_ 1
    (fun j s => s.bind fun s => (s.setSubScheduler i (rt.worker i j)).bind fun s =>
      s.setParentScheduler i (rt.worker i j)) 0) 0 (some s)

/-- What thread `th` does at a statement, `none` while it has to wait. -/
def exec (th : RtThread rt) (s : State rt.numTPSched_ rt.numMCSched_) :
    Stmt → Option (State rt.numTPSched_ rt.numMCSched_)
  | .newSched =>
    let s := s.setObj th .fresh
    match th with
    | .tp i => some { s with TPSched_ := Function.update s.TPSched_ i (some th) }
    | .mc i j => some { s with MCSched_ := Function.update s.MCSched_ (rt.worker i j) (some th) }
  | .setID => (s.obj th).map fun o => s.setObj th { o with id_ := threadId rt th }
  | .setNumPeers => (s.obj th).map fun o => s.setObj th { o with
      numberOfPeers := rt.numTPSched_
      peers_ := some (o.peers_.getD fun _ => none) }
  | .addAliveSignal =>
    -- `assert(index < numThreads)`
    if threadId rt th < numThreads rt then
      some { s with aliveSig := Function.update s.aliveSig (threadId rt th) (some th) }
    else none
  | .decTP => some { s with tpcount_ := fetchSub s.tpcount_ }
  | .decMC => some { s with mccount_ := fetchSub s.mccount_ }
  | .checkTP => if s.tpcount_ = 0 then some s else none
  | .linkTPSched => linkTPSched rt s
  | .checkMC => if s.mccount_ = 0 then some s else none
  | .linkMCSched => linkMCSched rt s
  | .decFull => some { s with
      fullcount_ := fetchSub s.fullcount_
      wasOne := Function.update s.wasOne th (s.fullcount_ == 1) }
  | .clearSpin => some (if s.wasOne th then { s with spin_ := false } else s)
  | .spin => if s.spin_ then none else some s
  | .setThread => (s.obj th).map fun o =>
    match th with
    | .tp _ => { s with
        threadTPsched := Function.update s.threadTPsched th (some th)
        threadMCsched := Function.update s.threadMCsched th none }
    | .mc _ _ => { s with
        threadTPsched := Function.update s.threadTPsched th o.parent_
        threadMCsched := Function.update s.threadMCsched th (some th) }

/-- Thread `th` executes its next statement. -/
def step (s : State rt.numTPSched_ rt.numMCSched_) (th : RtThread rt) :
    Option (State rt.numTPSched_ rt.numMCSched_) :=
  match s.rest th with
  | [] => none
  | x :: xs => (exec rt th s x).map fun s' => { s' with rest := Function.update s.rest th xs }

/-- `CodeletFinal::decDep` with `terminate` set: kill what the alive table holds. -/
def terminate (s : State rt.numTPSched_ rt.numMCSched_) :
    Option (State rt.numTPSched_ rt.numMCSched_) :=
  CLoop.forStep (numThreads rt) 1 (fun i s => s.bind fun s =>
    (s.aliveSig i).bind fun p => (s.obj p).map fun o => s.setObj p { o with alive_ := false }) 0 (some s)

variable {rt}

/-! ## The thread numbers -/

theorem threadId_tp (i : Fin rt.numTPSched_) :
    threadId rt (.tp i) = i * (1 + rt.numMCSched_) := by
  have hfits := rt.threads
  have hlt := RowMajor.lt i.isLt (show 0 < 1 + rt.numMCSched_ by omega)
  rw [Nat.mul_add rt.numTPSched_, Nat.mul_one] at hlt
  exact Nat.mod_eq_of_lt (by omega)

theorem threadId_mc (i : Fin rt.numTPSched_) (j : Fin rt.numMCSched_) :
    threadId rt (.mc i j) = i * (1 + rt.numMCSched_) + j + 1 :=
  Runtime.tid_eq i.isLt j.isLt

/-- A thread's cluster and place in it can be read off its number. -/
private theorem threadId_eq (th : RtThread rt) : ∃ (i : Fin rt.numTPSched_) (u : Nat),
    u < 1 + rt.numMCSched_ ∧ threadId rt th = i * (1 + rt.numMCSched_) + u ∧
    ((th = .tp i ∧ u = 0) ∨ ∃ j : Fin rt.numMCSched_, th = .mc i j ∧ u = j + 1) := by
  match th with
  | .tp i => exact ⟨i, 0, by omega, threadId_tp i, .inl ⟨rfl, rfl⟩⟩
  | .mc i j =>
    have hj := j.isLt
    exact ⟨i, j + 1, by omega, by rw [threadId_mc]; omega, .inr ⟨j, rfl, rfl⟩⟩

theorem threadId_lt (th : RtThread rt) : threadId rt th < numThreads rt := by
  obtain ⟨i, u, hu, he, -⟩ := threadId_eq th
  have hlt := RowMajor.lt i.isLt hu
  rw [Nat.mul_add rt.numTPSched_, Nat.mul_one] at hlt
  unfold numThreads
  omega

/-- Different threads have different numbers. -/
theorem threadId_injective : Function.Injective (threadId rt) := by
  intro th th' h
  obtain ⟨i, u, hu, he, hth⟩ := threadId_eq th
  obtain ⟨i', u', hu', he', hth'⟩ := threadId_eq th'
  rw [he, he'] at h
  obtain ⟨hi, hueq⟩ := RowMajor.inj hu hu' h
  obtain rfl := Fin.ext hi
  rcases hth with ⟨rfl, rfl⟩ | ⟨j, rfl, rfl⟩ <;> rcases hth' with ⟨rfl, hz⟩ | ⟨j', rfl, hz⟩
  · rfl
  · omega
  · omega
  · obtain rfl : j = j' := Fin.ext (by omega)
    rfl

/-- Every number below `numThreads` is a thread's. -/
theorem exists_threadId {k : Nat} (hk : k < numThreads rt) : ∃ th, threadId rt th = k := by
  have hall : numThreads rt = rt.numTPSched_ * (1 + rt.numMCSched_) := by
    rw [Nat.mul_add, Nat.mul_one]
    rfl
  rw [hall] at hk
  obtain ⟨i, hi, u, hu, rfl⟩ := RowMajor.exists_eq hk
  cases u with
  | zero => exact ⟨.tp ⟨i, hi⟩, threadId_tp ⟨i, hi⟩⟩
  | succ j => exact ⟨.mc ⟨i, hi⟩ ⟨j, by omega⟩, threadId_mc ⟨i, hi⟩ _⟩

/-- Different workers have different places in `MCSched_`. -/
theorem worker_injective {i i' : Fin rt.numTPSched_} {j j' : Fin rt.numMCSched_}
    (h : rt.worker i j = rt.worker i' j') : i = i' ∧ j = j' := by
  obtain ⟨hi, hj⟩ := RowMajor.inj j.isLt j'.isLt h
  exact ⟨Fin.ext hi, Fin.ext hj⟩

/-! ## The link loops -/

/-- Two states that differ in the scheduler objects only. -/
def SameTables (s t : State N n) : Prop := t = { s with obj := t.obj }

theorem SameTables.refl (s : State N n) : SameTables s s := rfl

theorem SameTables.setObj {s t : State N n} (h : SameTables s t) (p : Thread N n) (o : Sched N n) :
    SameTables s (t.setObj p o) := by
  unfold SameTables at h ⊢
  rw [h]
  rfl

theorem SameTables.TPSched_eq {s t : State N n} (h : SameTables s t) : t.TPSched_ = s.TPSched_ := by
  rw [h]

theorem SameTables.MCSched_eq {s t : State N n} (h : SameTables s t) : t.MCSched_ = s.MCSched_ := by
  rw [h]

@[simp] theorem State.setObj_self (s : State N n) (p : Thread N n) (o : Sched N n) :
    (s.setObj p o).obj p = some o := by
  simp [State.setObj]

theorem State.setObj_ne (s : State N n) {p q : Thread N n} (h : q ≠ p) (o : Sched N n) :
    (s.setObj p o).obj q = s.obj q := by
  simp [State.setObj, h]

variable {s : State rt.numTPSched_ rt.numMCSched_}

/-- Everything a TP scheduler needs to be linked exists. -/
def TPReady (s : State rt.numTPSched_ rt.numMCSched_) : Prop :=
  ∀ i : Fin rt.numTPSched_, s.TPSched_ i = some (.tp i) ∧
    ∃ o peers, s.obj (.tp i) = some o ∧ o.peers_ = some peers

/-- **`linkTPSched`** puts the TP scheduler of every cluster into every peer table, at its
number, and changes nothing else. -/
theorem linkTPSched_spec (h : TPReady s) : ∃ t, linkTPSched rt s = some t ∧ SameTables s t ∧
    (∀ i j, t.obj (.mc i j) = s.obj (.mc i j)) ∧
    ∀ i : Fin rt.numTPSched_, ∃ o peers, s.obj (.tp i) = some o ∧
      t.obj (.tp i) = some { o with peers_ := some peers } ∧
      ∀ j : Fin rt.numTPSched_, peers j = some (.tp j) := by
  -- after the turns before `(i, j)` the entries of the rows before, and those before `j`
  -- of row `i`, are set
  have main := CLoop.forStep_nested_rule rt.numTPSched_ rt.numTPSched_
    (fun i j s => s.bind fun s : State rt.numTPSched_ rt.numMCSched_ => s.addPeer i j) (some s)
    (fun i j u => ∃ t, u = some t ∧ SameTables s t ∧ (∀ a b, t.obj (.mc a b) = s.obj (.mc a b)) ∧
      ∀ a : Fin rt.numTPSched_, ∃ o peers, s.obj (.tp a) = some o ∧
        t.obj (.tp a) = some { o with peers_ := some peers } ∧
        ∀ b : Fin rt.numTPSched_, (a < i ∨ ((a : Nat) = i ∧ b < j)) → peers b = some (.tp b))
    ⟨s, rfl, .refl s, fun a b => rfl, fun a => by
      obtain ⟨-, o, peers, ho, hp⟩ := h a
      refine ⟨o, peers, ho, ?_, fun b hb => by omega⟩
      rw [ho, ← hp]⟩
    (fun i j u hi hj ⟨t, ht, hsame, hmc, htp⟩ => by
      subst ht
      obtain ⟨o, peers, ho, hto, hset⟩ := htp ⟨i, hi⟩
      have hi' : t.TPSched_ i = some (.tp ⟨i, hi⟩) := hsame.TPSched_eq ▸ (h ⟨i, hi⟩).1
      have hj' : t.TPSched_ j = some (.tp ⟨j, hj⟩) := hsame.TPSched_eq ▸ (h ⟨j, hj⟩).1
      refine ⟨_, ?_, hsame.setObj (.tp ⟨i, hi⟩)
        { o with peers_ := some (Function.update peers j (some (.tp ⟨j, hj⟩))) }, ?_, ?_⟩
      · simp only [Option.bind_some, State.addPeer, hi', hj', hto, Option.map_some]
      · intro a b
        rw [State.setObj_ne _ (by simp), hmc]
      · intro a
        by_cases ha : a = ⟨i, hi⟩
        · subst ha
          refine ⟨o, _, ho, State.setObj_self _ _ _, fun b hb => ?_⟩
          by_cases hbj : (b : Nat) = j
          · obtain rfl : b = ⟨j, hj⟩ := Fin.ext hbj
            exact Function.update_self _ _ _
          · rw [Function.update_of_ne hbj]
            exact hset b (by omega)
        · obtain ⟨o', peers', ho', hto', hset'⟩ := htp a
          refine ⟨o', peers', ho', ?_, fun b hb => hset' b ?_⟩
          · rw [State.setObj_ne _ (by simpa using ha), hto']
          · have : (a : Nat) ≠ i := fun hc => ha (Fin.ext hc)
            omega)
    (fun i u hi ⟨t, ht, hsame, hmc, htp⟩ => ⟨t, ht, hsame, hmc, fun a => by
      obtain ⟨o, peers, ho, hto, hset⟩ := htp a
      refine ⟨o, peers, ho, hto, fun b hb => hset b ?_⟩
      have := b.isLt
      omega⟩)
  obtain ⟨t, ht, hsame, hmc, htp⟩ := main
  refine ⟨t, ht, hsame, hmc, fun i => ?_⟩
  obtain ⟨o, peers, ho, hto, hset⟩ := htp i
  exact ⟨o, peers, ho, hto, fun j => hset j (.inl i.isLt)⟩

/-- Everything exists that `linkMCSched` links. -/
def MCReady (s : State rt.numTPSched_ rt.numMCSched_) : Prop :=
  (∀ i : Fin rt.numTPSched_, s.TPSched_ i = some (.tp i) ∧ ∃ o, s.obj (.tp i) = some o) ∧
  ∀ (i : Fin rt.numTPSched_) (j : Fin rt.numMCSched_),
    s.MCSched_ (rt.worker i j) = some (.mc i j) ∧ ∃ o, s.obj (.mc i j) = some o

/-- **`linkMCSched`** appends the workers of a cluster to the children of its TP scheduler,
in order, and makes that one their parent. -/
theorem linkMCSched_spec (h : MCReady s) : ∃ t, linkMCSched rt s = some t ∧ SameTables s t ∧
    (∀ i : Fin rt.numTPSched_, ∃ o, s.obj (.tp i) = some o ∧ t.obj (.tp i) =
      some { o with children_ := o.children_ ++
        (List.range rt.numMCSched_).map fun j => s.MCSched_ (rt.worker i j) }) ∧
    ∀ (i : Fin rt.numTPSched_) (j : Fin rt.numMCSched_), ∃ o, s.obj (.mc i j) = some o ∧
      t.obj (.mc i j) = some { o with parent_ := some (.tp i) } := by
  have main := CLoop.forStep_nested_rule rt.numTPSched_ rt.numMCSched_
    (fun i j s => s.bind fun s : State rt.numTPSched_ rt.numMCSched_ =>
      (s.setSubScheduler i (rt.worker i j)).bind fun s => s.setParentScheduler i (rt.worker i j))
    (some s)
    (fun i j u => ∃ t, u = some t ∧ SameTables s t ∧
      (∀ a : Fin rt.numTPSched_, ∃ o, s.obj (.tp a) = some o ∧ t.obj (.tp a) =
        some { o with children_ := o.children_ ++ (List.range (if a < i then rt.numMCSched_ else
          if (a : Nat) = i then j else 0)).map fun b => s.MCSched_ (rt.worker a b) }) ∧
      ∀ (a : Fin rt.numTPSched_) (b : Fin rt.numMCSched_), ∃ o, s.obj (.mc a b) = some o ∧
        t.obj (.mc a b) = some (if a < i ∨ ((a : Nat) = i ∧ b < j) then
          { o with parent_ := some (.tp a) } else o))
    ⟨s, rfl, .refl s, fun a => by
      obtain ⟨-, o, ho⟩ := h.1 a
      exact ⟨o, ho, by simp [ho]⟩, fun a b => by
      obtain ⟨-, o, ho⟩ := h.2 a b
      exact ⟨o, ho, by simp [ho]⟩⟩
    (fun i j u hi hj ⟨t, ht, hsame, htp, hmc⟩ => by
      subst ht
      obtain ⟨o, ho, hto⟩ := htp ⟨i, hi⟩
      obtain ⟨w, hw, htw⟩ := hmc ⟨i, hi⟩ ⟨j, hj⟩
      simp only [Nat.lt_irrefl, and_false, or_false, if_false, if_true] at hto htw
      have hi' : t.TPSched_ i = some (.tp ⟨i, hi⟩) := hsame.TPSched_eq ▸ (h.1 ⟨i, hi⟩).1
      have hk' : t.MCSched_ (rt.worker i j) = some (.mc ⟨i, hi⟩ ⟨j, hj⟩) :=
        hsame.MCSched_eq ▸ (h.2 ⟨i, hi⟩ ⟨j, hj⟩).1
      have hk : s.MCSched_ (rt.worker i j) = some (.mc ⟨i, hi⟩ ⟨j, hj⟩) := (h.2 ⟨i, hi⟩ ⟨j, hj⟩).1
      refine ⟨_, ?_, (hsame.setObj (.tp ⟨i, hi⟩) { o with children_ := (o.children_ ++
          (List.range j).map fun b => s.MCSched_ (rt.worker i b)) ++ [some (.mc ⟨i, hi⟩ ⟨j, hj⟩)] }).setObj
        (.mc ⟨i, hi⟩ ⟨j, hj⟩) { w with parent_ := some (.tp ⟨i, hi⟩) }, ?_, ?_⟩
      · simp only [Option.bind_some, State.setSubScheduler, hi', hto, hk', Option.map_some]
        have hsub : ∀ o', (t.setObj (.tp ⟨i, hi⟩) o').TPSched_ = t.TPSched_ ∧
            (t.setObj (.tp ⟨i, hi⟩) o').MCSched_ = t.MCSched_ := fun o' => ⟨rfl, rfl⟩
        simp only [State.setParentScheduler, hsub, hi', hk', Option.bind_some]
        rw [State.setObj_ne _ (by simp), htw, Option.map_some]
      · intro a
        by_cases ha : a = ⟨i, hi⟩
        · subst ha
          refine ⟨o, ho, ?_⟩
          rw [State.setObj_ne _ (by simp), State.setObj_self]
          simp only [Nat.lt_irrefl, if_false, if_true, List.range_succ, List.map_append,
            List.map_cons, List.map_nil, hk, List.append_assoc]
        · obtain ⟨o', ho', hto'⟩ := htp a
          have hne : (a : Nat) ≠ i := fun hc => ha (Fin.ext hc)
          refine ⟨o', ho', ?_⟩
          rw [State.setObj_ne _ (by simp), State.setObj_ne _ (by simpa using ha), hto']
          simp only [hne, if_false]
      · intro a b
        by_cases hab : a = ⟨i, hi⟩ ∧ b = ⟨j, hj⟩
        · obtain ⟨rfl, rfl⟩ := hab
          refine ⟨w, hw, ?_⟩
          rw [State.setObj_self, if_pos (.inr ⟨rfl, Nat.lt_succ_self j⟩)]
        · obtain ⟨w', hw', htw'⟩ := hmc a b
          refine ⟨w', hw', ?_⟩
          rw [State.setObj_ne _ (by simpa using fun h1 h2 => hab ⟨h1, h2⟩),
            State.setObj_ne _ (by simp), htw']
          have hiff : (a < i ∨ ((a : Nat) = i ∧ b < j)) ↔ (a < i ∨ ((a : Nat) = i ∧ b < j + 1)) := by
            have : ¬((a : Nat) = i ∧ (b : Nat) = j) := fun hc => hab ⟨Fin.ext hc.1, Fin.ext hc.2⟩
            omega
          simp only [hiff])
    (fun i u hi ⟨t, ht, hsame, htp, hmc⟩ => ⟨t, ht, hsame, fun a => by
      obtain ⟨o, ho, hto⟩ := htp a
      refine ⟨o, ho, hto.trans ?_⟩
      have hcount : (if (a : Nat) < i then rt.numMCSched_ else if (a : Nat) = i then rt.numMCSched_
          else 0) = if (a : Nat) < i + 1 then rt.numMCSched_ else if (a : Nat) = i + 1 then 0 else 0 := by
        split_ifs <;> omega
      rw [hcount], fun a b => by
      obtain ⟨w, hw, htw⟩ := hmc a b
      refine ⟨w, hw, htw.trans ?_⟩
      have hiff : (a < i ∨ ((a : Nat) = i ∧ b < rt.numMCSched_)) ↔
          (a < i + 1 ∨ ((a : Nat) = i + 1 ∧ (b : Nat) < 0)) := by
        have := b.isLt
        omega
      simp only [hiff]⟩)
  obtain ⟨t, ht, hsame, htp, hmc⟩ := main
  refine ⟨t, ht, hsame, fun i => ?_, fun i j => ?_⟩
  · obtain ⟨o, ho, hto⟩ := htp i
    exact ⟨o, ho, by rw [hto, if_pos i.isLt]⟩
  · obtain ⟨w, hw, htw⟩ := hmc i j
    exact ⟨w, hw, by rw [htw, if_pos (.inl i.isLt)]⟩

end Darts.Startup
