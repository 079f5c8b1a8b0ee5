import Mathlib.Algebra.Group.Nat.Defs
import Mathlib.Logic.Function.Basic
import Darts.Lib.CLoop
import Darts.Lib.RowMajor

/-!
# Scheduler ids and links (`src/runtime/Runtime.cpp`)

What the `Runtime` constructor sets up before any scheduler enters its policy
loop: every micro scheduler gets its thread's number as id (`MCThread`), becomes
a child of the TP scheduler of its cluster and has that one as parent
(`linkMCSched`). A micro scheduler is its index in `MCSched_`, a TP scheduler its
index in `TPSched_`.

The threads run `MCThread` concurrently, each on its own entry of `MCSched_`, so
the loop below may set the ids in the order in which the arguments are filled in.
-/

namespace Darts

/-- The sizes of a runtime. `numThreads_` is an `unsigned int`. -/
structure Runtime where
  numTPSched_ : Nat
  numMCSched_ : Nat
  /-- There is a cluster. -/
  clusters : 0 < numTPSched_
  /-- `numThreads_ = numTPSched_ + numTPSched_ * numMCSched_` does not wrap. -/
  threads : numTPSched_ + numTPSched_ * numMCSched_ < 2 ^ 32

/-- The fields of the scheduler objects that the constructor fills in. -/
structure Links where
  /-- `MCSched_[k]->id_`. -/
  id_ : Nat → Nat
  /-- `MCSched_[k]->parent_`. -/
  parent_ : Nat → Option Nat
  /-- `TPSched_[i]->children_`. -/
  children_ : Nat → List Nat

namespace Links

/-- Fresh scheduler objects: `Scheduler(void)`, `MScheduler(void)`, `TPScheduler(void)`. -/
def fresh : Links := { id_ := fun _ => 0, parent_ := fun _ => none, children_ := fun _ => [] }

/-- `Scheduler::setID`. -/
def setID (l : Links) (k theID : Nat) : Links :=
  { l with id_ := Function.update l.id_ k theID }

/-- `TPScheduler::setSubScheduler`. -/
def setSubScheduler (l : Links) (i aSub : Nat) : Links :=
  { l with children_ := Function.update l.children_ i (l.children_ i ++ [aSub]) }

/-- `MScheduler::setParentScheduler`. -/
def setParentScheduler (l : Links) (k parent : Nat) : Links :=
  { l with parent_ := Function.update l.parent_ k (some parent) }

/-- `TPScheduler::getNumSub`. -/
def getNumSub (l : Links) (i : Nat) : Nat := (l.children_ i).length

/-- `TPScheduler::getSubScheduler`, 0 when the position is past the end. -/
def getSubScheduler (l : Links) (i pos : Nat) : Option Nat := (l.children_ i)[pos]?

end Links

namespace Runtime

variable (rt : Runtime)

/-- The index in `MCSched_` of worker `j` of cluster `i`. -/
def worker (i j : Nat) : Nat := i * rt.numMCSched_ + j

/-- `unsigned int tid = i * (1 + numMCSched_) + j + 1`. -/
def tid (i j : Nat) : Nat := (i * (1 + rt.numMCSched_) + j + 1) % 2 ^ 32

/-- The loop of the constructor over `mcargs_`, with what `MCThread` does with them:
scheduler `clusterId * numMCS + unitId` gets `threadId` as its id. -/
def setIds (l : Links) : Links :=
  CLoop.forStep rt.numTPSched_ 1 (fun i => CLoop.forStep rt.numMCSched_ 1
    (fun j l => l.setID (rt.worker i j) (rt.tid i j)) 0) 0 l

/-- `Runtime::linkMCSched`. -/
def linkMCSched (l : Links) : Links :=
  CLoop.forStep rt.numTPSched_ 1 (fun i => CLoop.forStep rt.numMCSched_ 1
    (fun j l => (l.setSubScheduler i (rt.worker i j)).setParentScheduler (rt.worker i j) i) 0) 0 l

/-- The links when the schedulers enter their policy loops. -/
def links : Links := rt.linkMCSched (rt.setIds Links.fresh)

variable {rt}

/-- The workers before `(i, j)` in the order of the two loops have another index. -/
private theorem worker_ne {i j i' j' : Nat} (hj : j' < rt.numMCSched_)
    (h : i' < i ∨ (i' = i ∧ j' < j)) : rt.worker i' j' ≠ rt.worker i j := by
  unfold worker
  rcases h with hi | ⟨rfl, hlt⟩
  · have hlt := RowMajor.lt hi hj
    omega
  · omega

theorem tid_eq {i j : Nat} (hi : i < rt.numTPSched_) (hj : j < rt.numMCSched_) :
    rt.tid i j = i * (1 + rt.numMCSched_) + j + 1 := by
  have hfits := rt.threads
  have hlt := RowMajor.lt hi (show j + 1 < 1 + rt.numMCSched_ by omega)
  rw [Nat.mul_add rt.numTPSched_, Nat.mul_one] at hlt
  exact Nat.mod_eq_of_lt (by omega)

/-- Every worker has its thread's number as id; no links are made yet. -/
private theorem setIds_spec (l : Links) : (rt.setIds l).children_ = l.children_ ∧
    ∀ i j, i < rt.numTPSched_ → j < rt.numMCSched_ →
      (rt.setIds l).id_ (rt.worker i j) = rt.tid i j := by
  have main := CLoop.forStep_nested_rule rt.numTPSched_ rt.numMCSched_
    (fun i j l => l.setID (rt.worker i j) (rt.tid i j)) l
    (fun i j s => s.children_ = l.children_ ∧
      ∀ i' j', j' < rt.numMCSched_ → (i' < i ∨ (i' = i ∧ j' < j)) →
        s.id_ (rt.worker i' j') = rt.tid i' j')
    ⟨rfl, fun i' j' _ h => by omega⟩
    (fun i j s _ _ ⟨hch, hid⟩ => by
      refine ⟨hch, fun i' j' hj' h => ?_⟩
      by_cases hhere : i' = i ∧ j' = j
      · obtain ⟨rfl, rfl⟩ := hhere
        exact Function.update_self _ _ _
      · have hbefore : i' < i ∨ (i' = i ∧ j' < j) := by omega
        exact (Function.update_of_ne (worker_ne hj' hbefore) _ _).trans (hid i' j' hj' hbefore))
    (fun i s _ ⟨hch, hid⟩ => ⟨hch, fun i' j' hj' h => hid i' j' hj' (by omega)⟩)
  exact ⟨main.1, fun i j hi hj => main.2 i j hj (.inl hi)⟩

/-- `linkMCSched` leaves the ids alone and links cluster by cluster. -/
private theorem linkMCSched_spec (l : Links) (hl : l.children_ = fun _ => []) :
    (rt.linkMCSched l).id_ = l.id_ ∧
    (∀ i, i < rt.numTPSched_ →
      (rt.linkMCSched l).children_ i = (List.range rt.numMCSched_).map (rt.worker i)) ∧
    (∀ i j, i < rt.numTPSched_ → j < rt.numMCSched_ →
      (rt.linkMCSched l).parent_ (rt.worker i j) = some i) := by
  have main := CLoop.forStep_nested_rule rt.numTPSched_ rt.numMCSched_
    (fun i j l => (l.setSubScheduler i (rt.worker i j)).setParentScheduler (rt.worker i j) i) l
    (fun i j s => s.id_ = l.id_ ∧
      (∀ i', i' < i → s.children_ i' = (List.range rt.numMCSched_).map (rt.worker i')) ∧
      s.children_ i = (List.range j).map (rt.worker i) ∧
      (∀ i', i < i' → s.children_ i' = []) ∧
      (∀ i' j', j' < rt.numMCSched_ → (i' < i ∨ (i' = i ∧ j' < j)) →
        s.parent_ (rt.worker i' j') = some i'))
    ⟨rfl, fun i' h => by omega, by simp [hl], fun i' _ => by simp [hl], fun i' j' _ h => by omega⟩
    (fun i j s _ _ ⟨hid, hdone, hcur, hlater, hpar⟩ => by
      refine ⟨hid, fun i' hi' => ?_, ?_, fun i' hi' => ?_, fun i' j' hj' h => ?_⟩
      · exact (Function.update_of_ne (by omega) _ _).trans (hdone i' hi')
      · rw [List.range_succ, List.map_append, ← hcur]
        exact Function.update_self _ _ _
      · exact (Function.update_of_ne (by omega) _ _).trans (hlater i' hi')
      · by_cases hhere : i' = i ∧ j' = j
        · obtain ⟨rfl, rfl⟩ := hhere
          exact Function.update_self _ _ _
        · have hbefore : i' < i ∨ (i' = i ∧ j' < j) := by omega
          exact (Function.update_of_ne (worker_ne hj' hbefore) _ _).trans (hpar i' j' hj' hbefore))
    (fun i s _ ⟨hid, hdone, hcur, hlater, hpar⟩ => by
      refine ⟨hid, fun i' hi' => ?_, ?_, fun i' hi' => hlater i' (by omega),
        fun i' j' hj' h => hpar i' j' hj' (by omega)⟩
      · rcases Nat.lt_or_eq_of_le (Nat.le_of_lt_succ hi') with h | rfl
        · exact hdone i' h
        · exact hcur
      · rw [hlater (i + 1) (Nat.lt_succ_self i)]
        rfl)
  obtain ⟨hid, hdone, -, -, hpar⟩ := main
  exact ⟨hid, hdone, fun i j hi hj => hpar i j hj (.inl hi)⟩

/-! ## The links as they stand when the policies start -/

private theorem links_spec : rt.links.id_ = (rt.setIds Links.fresh).id_ ∧
    (∀ i, i < rt.numTPSched_ →
      rt.links.children_ i = (List.range rt.numMCSched_).map (rt.worker i)) ∧
    (∀ i j, i < rt.numTPSched_ → j < rt.numMCSched_ →
      rt.links.parent_ (rt.worker i j) = some i) :=
  linkMCSched_spec _ (setIds_spec _).1

/-- Worker `j` of cluster `i` has id `i * (1 + n) + j + 1`. -/
theorem links_id {i j : Nat} (hi : i < rt.numTPSched_) (hj : j < rt.numMCSched_) :
    rt.links.id_ (rt.worker i j) = i * (1 + rt.numMCSched_) + j + 1 := by
  rw [links_spec.1, (setIds_spec _).2 i j hi hj, tid_eq hi hj]

/-- TP scheduler `i` is the parent of worker `j` of cluster `i`. -/
theorem links_parent {i j : Nat} (hi : i < rt.numTPSched_) (hj : j < rt.numMCSched_) :
    rt.links.parent_ (rt.worker i j) = some i :=
  links_spec.2.2 i j hi hj

/-- Each TP scheduler has `numMCSched_` children. -/
theorem links_getNumSub {i : Nat} (hi : i < rt.numTPSched_) :
    rt.links.getNumSub i = rt.numMCSched_ := by
  unfold Links.getNumSub
  rw [links_spec.2.1 i hi, List.length_map, List.length_range]

/-- Worker `j` of cluster `i` is child `j` of TP scheduler `i`. -/
theorem links_getSubScheduler {i j : Nat} (hi : i < rt.numTPSched_) (hj : j < rt.numMCSched_) :
    rt.links.getSubScheduler i j = some (rt.worker i j) := by
  unfold Links.getSubScheduler
  rw [links_spec.2.1 i hi]
  simp [hj]

/-- Two workers of a cluster with the same index are the same worker. -/
theorem worker_inj {i j j' : Nat} (h : rt.worker i j = rt.worker i j') : j = j' :=
  Nat.add_left_cancel h

end Runtime

end Darts
