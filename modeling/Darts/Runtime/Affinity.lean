import Mathlib.Data.Nat.ModEq
import Mathlib.Logic.Function.Basic
import Mathlib.Logic.Function.Iterate
import Darts.Lib.CLoop
import Darts.Lib.RowMajor
import Darts.Threading.SyncSlot

/-!
# Where the threads go (`src/abstractmachine/Affinity.cpp`)

`ThreadAffinity::generateMask` gives every TP scheduler and every worker a cluster and
a unit of the machine, by one of four loops. The machine is the one that
`AbstractMachine` describes, with clusters of one size (`clusterMap[0].getNbUnits()`
stands for all of them).

All arithmetic is that of `unsigned int`. An access outside a mask, or outside
`clusterCount`, has no result (`none`). The masks are not initialised: they start as
the memory was.

The threads are numbered by their cluster and their place in it: `0` is the TP
scheduler and `j + 1` is worker `j`. The four loops run over the threads in this
order; three of them differ only in how they count on.
-/

namespace Darts

namespace Affinity

open CLoop Word

/-- The value of an `unsigned int` expression. -/
def wrap (x : Nat) : Nat := x % (uintMax + 1)

inductive AffinityMode
  | SPREAD | COMPACT | COMPACT_NO_SMT
deriving DecidableEq

/-- What a `ThreadAffinity` is constructed with. -/
structure ThreadAffinity where
  mcPerTp : Nat
  numTPS : Nat
  mode : AffinityMode
  fits : numTPS * (mcPerTp + 1) ≤ uintMax

def ThreadAffinity.numMCS (A : ThreadAffinity) : Nat := wrap (A.numTPS * A.mcPerTp)

structure Machine where
  maxCluster : Nat
  maxUnit : Nat
  cluster_pos : 0 < maxCluster
  unit_pos : 0 < maxUnit
  fits : maxCluster * maxUnit ≤ uintMax

def Machine.totalUnits (M : Machine) : Nat := M.maxCluster * M.maxUnit

structure AffinityMask (size : Nat) where
  clusterID : Fin size → Nat
  unitID : Fin size → Nat

/-- `clusterID[k] = cluster; unitID[k] = unit;` -/
def AffinityMask.put {size : Nat} (m : AffinityMask size) (k cluster unit : Nat) :
    Option (AffinityMask size) :=
  if h : k < size then
    some
      { clusterID := Function.update m.clusterID ⟨k, h⟩ cluster
        unitID := Function.update m.unitID ⟨k, h⟩ unit }
  else none

structure Masks (A : ThreadAffinity) where
  TPMask : AffinityMask A.numTPS
  MCMask : AffinityMask A.numMCS

variable {A : ThreadAffinity} {M : Machine} {σ : Type}

/-- The place of thread `t` of cluster `i` is stored. -/
def Masks.put (m : Masks A) (i t cluster unit : Nat) : Option (Masks A) :=
  match t with
  | 0 => (m.TPMask.put i cluster unit).map fun mask => { m with TPMask := mask }
  | j + 1 =>
    (m.MCMask.put (wrap (i * A.mcPerTp + j)) cluster unit).map fun mask =>
      { m with MCMask := mask }

/-- `for (i = 0; i < n; i++)` with a body that may have no result. -/
def forOk (n : Nat) (body : Nat → σ → Option σ) (s : σ) : Option σ :=
  forStep n 1 (fun i s => s.bind (body i)) 0 (some s)

/-- The two loops over all threads. -/
def eachThread (A : ThreadAffinity) (body : Nat → Nat → σ → Option σ) (after : σ → σ) (s : σ) :
    Option σ :=
  forOk A.numTPS (fun i s =>
    (body i 0 s).bind fun s => (forOk A.mcPerTp (fun j => body i (j + 1)) s).map after) s

/-! ## Counting on -/

structure Counts where
  count : Nat
  smt_cnt : Nat

/-- `count++`. -/
def Counts.one (c : Counts) : Counts := { c with count := wrap (c.count + 1) }

/-- `if (count % maxUnit) count = (count / maxUnit + 1) * maxUnit`. -/
def Counts.roundUp (M : Machine) (c : Counts) : Counts :=
  if c.count % M.maxUnit ≠ 0 then
    { c with count := wrap (wrap (c.count / M.maxUnit + 1) * M.maxUnit) }
  else c

/-- `count += hardware_smt; if (count >= totalUnits) count = ++smt_cnt;` -/
def Counts.skip (M : Machine) (c : Counts) : Counts :=
  if M.totalUnits ≤ wrap (c.count + 2) then
    { count := wrap (c.smt_cnt + 1), smt_cnt := wrap (c.smt_cnt + 1) }
  else { c with count := wrap (c.count + 2) }

structure Placing (A : ThreadAffinity) where
  counts : Counts
  masks : Masks A

/-- A thread goes to the unit of the machine that has number `count`. -/
def place (M : Machine) (next : Counts → Counts) (i t : Nat) (p : Placing A) :
    Option (Placing A) :=
  (p.masks.put i t (p.counts.count / M.maxUnit) (p.counts.count % M.maxUnit)).map fun masks =>
    { counts := next p.counts, masks := masks }

/-- A loop that goes by `count`. -/
def placeAll (M : Machine) (next after : Counts → Counts) (masks : Masks A) : Option (Masks A) :=
  (eachThread A (place M next) (fun p => { p with counts := after p.counts })
    { counts := { count := 0, smt_cnt := 0 }, masks := masks }).map (·.masks)

/-! ## `generateMask` -/

structure Spreading (A : ThreadAffinity) (M : Machine) where
  clusterCount : Fin M.maxCluster → Nat
  masks : Masks A

/-- A thread goes to cluster `i % maxCluster`, unit `clusterCount[i]`. -/
def spreadThread (i t : Nat) (s : Spreading A M) : Option (Spreading A M) :=
  if h : i < M.maxCluster then
    (s.masks.put i t (i % M.maxCluster) (s.clusterCount ⟨i, h⟩)).map fun masks =>
      { clusterCount := Function.update s.clusterCount ⟨i, h⟩ (wrap (s.clusterCount ⟨i, h⟩ + 1))
        masks := masks }
  else none

/-- `SPREAD`, when a cluster has units to spare. -/
def spreadInside (M : Machine) (masks : Masks A) : Option (Masks A) :=
  (eachThread A (spreadThread (M := M)) id
    { clusterCount := fun _ => 0, masks := masks }).map (·.masks)

/-- `SPREAD`, when it has not. -/
def spreadOver (M : Machine) (masks : Masks A) : Option (Masks A) :=
  placeAll M Counts.one (Counts.roundUp M) masks

def compact (M : Machine) (masks : Masks A) : Option (Masks A) :=
  placeAll M Counts.one id masks

def compactNoSmt (M : Machine) (masks : Masks A) : Option (Masks A) :=
  placeAll M (Counts.skip M) id masks

def totalRequestedUnits (A : ThreadAffinity) : Nat := wrap (A.numTPS + A.numMCS)

def RequestedUnits (A : ThreadAffinity) : Nat := wrap (A.mcPerTp + 1)

/-- The clusters for one TP scheduler and its workers. -/
def check (A : ThreadAffinity) (M : Machine) : Nat :=
  if RequestedUnits A % M.maxUnit ≠ 0 then wrap (RequestedUnits A / M.maxUnit + 1)
  else RequestedUnits A / M.maxUnit

/-- `ThreadAffinity::generateMask`. -/
def generateMask (M : Machine) (masks : Masks A) : Option (Bool × Masks A) :=
  if A.numTPS = 0 then some (false, masks)
  else if M.totalUnits < totalRequestedUnits A then some (false, masks)
  else
    match A.mode with
    | .SPREAD =>
      if M.totalUnits < wrap (wrap (check A M * M.maxUnit) * A.numTPS) then some (false, masks)
      else if RequestedUnits A < M.maxUnit then (spreadInside M masks).map fun m => (true, m)
      else (spreadOver M masks).map fun m => (true, m)
    | .COMPACT => (compact M masks).map fun m => (true, m)
    | .COMPACT_NO_SMT => (compactNoSmt M masks).map fun m => (true, m)

/-! ## What it is for -/

/-- Where each TP scheduler and each worker is. -/
def Masks.unit (m : Masks A) : Fin A.numTPS ⊕ Fin A.numMCS → Nat × Nat
  | .inl i => (m.TPMask.clusterID i, m.TPMask.unitID i)
  | .inr k => (m.MCMask.clusterID k, m.MCMask.unitID k)

/-- Every thread has a unit of the machine to itself. -/
structure Placement (M : Machine) (m : Masks A) : Prop where
  inRange : ∀ x, (m.unit x).1 < M.maxCluster ∧ (m.unit x).2 < M.maxUnit
  distinct : Function.Injective m.unit

/-- `generateMask` touches only what is there, and places the threads where it returns true. -/
def Safe (A : ThreadAffinity) (M : Machine) : Prop :=
  ∀ masks : Masks A, ∃ ok out, generateMask M masks = some (ok, out) ∧
    (ok = true → Placement M out)

/-- A loop places all threads, whatever was in the masks. -/
def Fills (M : Machine) (loop : Masks A → Option (Masks A)) : Prop :=
  ∀ masks, ∃ m, loop masks = some m ∧ Placement M m

/-- The units that `SPREAD` takes, whole clusters for each TP scheduler. -/
def spreadUnits (A : ThreadAffinity) (M : Machine) : Nat :=
  (A.mcPerTp / M.maxUnit + 1) * M.maxUnit * A.numTPS

/-- The threads fit on the machine, but the count of units does not fit in an `unsigned int`:
that of `SPREAD` wraps around to one that the machine has, or that of `COMPACT_NO_SMT` goes on to 0
after the last even unit. -/
def Overflows (A : ThreadAffinity) (M : Machine) : Prop :=
  A.numTPS * (A.mcPerTp + 1) ≤ M.totalUnits ∧
    match A.mode with
    | .SPREAD => uintMax < spreadUnits A M ∧ wrap (spreadUnits A M) ≤ M.totalUnits
    | .COMPACT => False
    | .COMPACT_NO_SMT => M.totalUnits = uintMax ∧ 2 ^ 31 < A.numTPS * (A.mcPerTp + 1)

/-! ## The threads and their entries -/

theorem wrap_of_le {x : Nat} (h : x ≤ uintMax) : wrap x = x := Nat.mod_eq_of_lt (Nat.lt_succ_of_le h)

theorem wrap_le (x : Nat) : wrap x ≤ uintMax := Nat.le_of_lt_succ (Nat.mod_lt _ (Nat.succ_pos _))

theorem numMCS_eq (A : ThreadAffinity) : A.numMCS = A.numTPS * A.mcPerTp :=
  wrap_of_le ((Nat.mul_le_mul_left _ (Nat.le_succ _)).trans A.fits)

/-- The cluster of a thread, and its place in it. -/
def thread (x : Fin A.numTPS ⊕ Fin A.numMCS) : Nat × Nat :=
  match x with
  | .inl i => (i, 0)
  | .inr k => (k / A.mcPerTp, k % A.mcPerTp + 1)

theorem worker_lt (k : Fin A.numMCS) : k.val < A.numTPS * A.mcPerTp :=
  k.isLt.trans_eq (numMCS_eq A)

theorem mcPerTp_pos (k : Fin A.numMCS) : 0 < A.mcPerTp :=
  Nat.pos_of_ne_zero fun hzero => by
    have hk := worker_lt k
    rw [hzero, Nat.mul_zero] at hk
    omega

theorem thread_lt (x : Fin A.numTPS ⊕ Fin A.numMCS) :
    (thread x).1 < A.numTPS ∧ (thread x).2 ≤ A.mcPerTp := by
  cases x with
  | inl i => exact ⟨i.isLt, Nat.zero_le _⟩
  | inr k =>
    exact ⟨Nat.div_lt_of_lt_mul (by rw [Nat.mul_comm]; exact worker_lt k),
      Nat.mod_lt _ (mcPerTp_pos k)⟩

theorem thread_injective : Function.Injective (thread (A := A)) := by
  intro x y h
  cases x with
  | inl i =>
    cases y with
    | inl i' => exact congrArg Sum.inl (Fin.ext (congrArg Prod.fst h))
    | inr k => cases congrArg Prod.snd h
  | inr k =>
    cases y with
    | inl i => cases congrArg Prod.snd h
    | inr k' =>
      have hdiv : k.val / A.mcPerTp = k'.val / A.mcPerTp := congrArg Prod.fst h
      have hmod : k.val % A.mcPerTp = k'.val % A.mcPerTp := Nat.succ.inj (congrArg Prod.snd h)
      refine congrArg Sum.inr (Fin.ext ?_)
      rw [← Nat.div_add_mod k.val A.mcPerTp, ← Nat.div_add_mod k'.val A.mcPerTp, hdiv, hmod]

/-- The entry of a worker. -/
theorem worker_index {i j : Nat} (hi : i < A.numTPS) (hj : j < A.mcPerTp) :
    wrap (i * A.mcPerTp + j) = i * A.mcPerTp + j ∧ i * A.mcPerTp + j < A.numMCS := by
  have hlt : i * A.mcPerTp + j < A.numTPS * A.mcPerTp := RowMajor.lt hi hj
  rw [← numMCS_eq] at hlt
  exact ⟨wrap_of_le (hlt.le.trans (wrap_le _)), hlt⟩

theorem exists_thread {i t : Nat} (hi : i < A.numTPS) (ht : t ≤ A.mcPerTp) :
    ∃ x : Fin A.numTPS ⊕ Fin A.numMCS, thread x = (i, t) := by
  cases t with
  | zero => exact ⟨.inl ⟨i, hi⟩, rfl⟩
  | succ j =>
    obtain ⟨hdiv, hmod⟩ := RowMajor.div_mod (u := i) ht
    exact ⟨.inr ⟨i * A.mcPerTp + j, (worker_index hi ht).2⟩,
      Prod.ext hdiv (congrArg (· + 1) hmod)⟩

/-- A thread's place is stored where it belongs, and nowhere else. -/
theorem put_spec (m : Masks A) {i t : Nat} (hi : i < A.numTPS) (ht : t ≤ A.mcPerTp) (c u : Nat) :
    ∃ m', m.put i t c u = some m' ∧
      ∀ x, m'.unit x = if thread x = (i, t) then (c, u) else m.unit x := by
  cases t with
  | zero =>
    refine ⟨_, congrArg (Option.map _) (dif_pos hi), fun x => ?_⟩
    cases x with
    | inl i' =>
      by_cases heq : i'.val = i
      · obtain rfl : i' = ⟨i, hi⟩ := Fin.ext heq
        simp [Masks.unit, thread]
      · have hne : i' ≠ ⟨i, hi⟩ := fun h => heq (congrArg Fin.val h)
        simp [Masks.unit, thread, heq, Function.update_of_ne hne]
    | inr k => simp [Masks.unit, thread]
  | succ j =>
    obtain ⟨hwrap, hlt⟩ := worker_index hi ht
    have hput : m.MCMask.put (wrap (i * A.mcPerTp + j)) c u = some
        { clusterID := Function.update m.MCMask.clusterID ⟨i * A.mcPerTp + j, hlt⟩ c
          unitID := Function.update m.MCMask.unitID ⟨i * A.mcPerTp + j, hlt⟩ u } := by
      rw [hwrap]
      exact dif_pos hlt
    refine ⟨_, congrArg (Option.map _) hput, fun x => ?_⟩
    cases x with
    | inl i' => simp [Masks.unit, thread]
    | inr k =>
      by_cases heq : k.val = i * A.mcPerTp + j
      · obtain rfl : k = ⟨i * A.mcPerTp + j, hlt⟩ := Fin.ext heq
        obtain ⟨hdiv, hmod⟩ := RowMajor.div_mod (u := i) ht
        simp [Masks.unit, thread, hdiv, hmod]
      · have hne : k ≠ ⟨i * A.mcPerTp + j, hlt⟩ := fun h => heq (congrArg Fin.val h)
        have hthread : thread (.inr k) ≠ (i, j + 1) := by
          intro h
          have hdiv : k.val / A.mcPerTp = i := congrArg Prod.fst h
          have hmod : k.val % A.mcPerTp = j := Nat.succ.inj (congrArg Prod.snd h)
          rw [← Nat.div_add_mod' k.val A.mcPerTp, hdiv, hmod] at heq
          exact heq rfl
        rw [if_neg hthread]
        simp [Masks.unit, Function.update_of_ne hne]

/-- The threads before thread `t` of cluster `i` are where `spot` says. -/
def Placed (spot : Nat → Nat → Nat × Nat) (i t : Nat) (m : Masks A) : Prop :=
  ∀ x, (thread x).1 < i ∨ (thread x).1 = i ∧ (thread x).2 < t →
    m.unit x = spot (thread x).1 (thread x).2

theorem placed_start (spot : Nat → Nat → Nat × Nat) (m : Masks A) : Placed spot 0 0 m := by
  intro x hx
  omega

/-- One more thread. -/
theorem Placed.put {spot : Nat → Nat → Nat × Nat} {i t : Nat} {m : Masks A} (h : Placed spot i t m)
    (hi : i < A.numTPS) (ht : t ≤ A.mcPerTp) :
    ∃ m', m.put i t (spot i t).1 (spot i t).2 = some m' ∧ Placed spot i (t + 1) m' := by
  obtain ⟨m', hput, hunit⟩ := put_spec m hi ht (spot i t).1 (spot i t).2
  refine ⟨m', hput, fun x hx => ?_⟩
  rw [hunit]
  split
  next heq => rw [heq]
  next hne =>
    refine h x ?_
    have hother : ¬ ((thread x).1 = i ∧ (thread x).2 = t) := fun hh => hne (Prod.ext hh.1 hh.2)
    omega

/-- A whole cluster of them. -/
theorem Placed.row {spot : Nat → Nat → Nat × Nat} {i : Nat} {m : Masks A}
    (h : Placed spot i (A.mcPerTp + 1) m) : Placed spot (i + 1) 0 m := by
  intro x hx
  refine h x ?_
  have hlt := (thread_lt x).2
  omega

theorem Placed.all {spot : Nat → Nat → Nat × Nat} {m : Masks A} (h : Placed spot A.numTPS 0 m)
    (x : Fin A.numTPS ⊕ Fin A.numMCS) : m.unit x = spot (thread x).1 (thread x).2 :=
  h x (.inl (thread_lt x).1)

/-! ## The loops -/

theorem forOk_ok {n : Nat} {body : Nat → σ → Option σ} {s : σ} (J : Nat → σ → Prop) (hinit : J 0 s)
    (hbody : ∀ i s, i < n → J i s → ∃ s', body i s = some s' ∧ J (i + 1) s') :
    ∃ s', forOk n body s = some s' ∧ J n s' := by
  have hrule := forStep_rule 1 n 0 (fun i o => o.bind (body i)) (some s)
    (fun i o => ∃ s, o = some s ∧ J i s) Nat.one_pos ⟨s, rfl, hinit⟩ fun i o hi hJ => by
      obtain ⟨s, rfl, hJ⟩ := hJ
      rw [Nat.zero_add, Nat.mul_one]
      exact hbody i s hi hJ
  rwa [Nat.zero_add, Nat.mul_one] at hrule

theorem forOk_none {n i : Nat} {body : Nat → σ → Option σ} {s : σ} (hi : i < n)
    (hbody : ∀ s, body i s = none) : forOk n body s = none := by
  have hrule := forStep_rule 1 n 0 (fun i o => o.bind (body i)) (some s)
    (fun k o => i < k → o = none) Nat.one_pos (fun h => absurd h (Nat.not_lt_zero i))
    fun k o hk hJ hlt => by
      rw [Nat.zero_add, Nat.mul_one]
      rcases Nat.lt_or_eq_of_le (Nat.le_of_lt_succ hlt) with hbefore | rfl
      · rw [hJ hbefore]
        rfl
      · exact Option.bind_eq_none_iff.mpr fun s _ => hbody s
  rw [Nat.zero_add, Nat.mul_one] at hrule
  exact hrule hi

/-- **Thread by thread.** What a thread carries to the next, and the end of a cluster to the next
cluster, holds at the end. -/
theorem eachThread_ok (body : Nat → Nat → σ → Option σ) (after : σ → σ) {s : σ}
    (J : Nat → Nat → σ → Prop) (hinit : J 0 0 s)
    (hbody : ∀ i t s, i < A.numTPS → t ≤ A.mcPerTp → J i t s →
      ∃ s', body i t s = some s' ∧ J i (t + 1) s')
    (hrow : ∀ i s, i < A.numTPS → J i (A.mcPerTp + 1) s → J (i + 1) 0 (after s)) :
    ∃ s', eachThread A body after s = some s' ∧ J A.numTPS 0 s' :=
  forOk_ok (fun i => J i 0) hinit fun i s hi hJ => by
    obtain ⟨s₁, htp, hJ₁⟩ := hbody i 0 s hi (Nat.zero_le _) hJ
    obtain ⟨s₂, hmc, hJ₂⟩ := forOk_ok (fun j => J i (j + 1)) hJ₁ fun j s hj hJ =>
      hbody i (j + 1) s hi hj hJ
    exact ⟨after s₂, by rw [htp, Option.bind_some, hmc, Option.map_some], hrow i s₂ hi hJ₂⟩

/-- What the counts are at the start of a cluster. -/
def row (next after : Counts → Counts) (n : Nat) : Nat → Counts
  | 0 => { count := 0, smt_cnt := 0 }
  | i + 1 => after (next^[n] (row next after n i))

/-- And at a thread. -/
def countAt (A : ThreadAffinity) (next after : Counts → Counts) (i t : Nat) : Counts :=
  next^[t] (row next after (A.mcPerTp + 1) i)

theorem countAt_succ (next after : Counts → Counts) (i t : Nat) :
    countAt A next after i (t + 1) = next (countAt A next after i t) :=
  Function.iterate_succ_apply' next t _

/-- Where a unit of the machine is. -/
def spot (M : Machine) (count : Nat) : Nat × Nat := (count / M.maxUnit, count % M.maxUnit)

/-- The loops by `count` touch nothing outside the masks, and put each thread where the count is. -/
theorem placeAll_spec (M : Machine) (next after : Counts → Counts) (masks : Masks A) :
    ∃ m, placeAll M next after masks = some m ∧
      ∀ x, m.unit x = spot M (countAt A next after (thread x).1 (thread x).2).count := by
  obtain ⟨p, hp, -, hplaced⟩ := eachThread_ok (A := A) (place M next)
    (fun p => { p with counts := after p.counts })
    (s := { counts := { count := 0, smt_cnt := 0 }, masks := masks })
    (fun i t p => p.counts = countAt A next after i t ∧
      Placed (fun i t => spot M (countAt A next after i t).count) i t p.masks)
    ⟨rfl, placed_start _ masks⟩
    (fun i t p hi ht hJ => by
      obtain ⟨hcounts, hplaced⟩ := hJ
      obtain ⟨m, hput, hplaced⟩ := hplaced.put hi ht
      rw [← hcounts] at hput
      exact ⟨{ counts := next p.counts, masks := m }, congrArg (Option.map _) hput,
        by rw [countAt_succ, hcounts], hplaced⟩)
    (fun i p hi hJ => ⟨by rw [hJ.1]; rfl, hJ.2.row⟩)
  exact ⟨p.masks, congrArg (Option.map _) hp, hplaced.all⟩

/-- Units by their numbers. -/
theorem placement_iff {m : Masks A} {no : Fin A.numTPS ⊕ Fin A.numMCS → Nat}
    (h : ∀ x, m.unit x = spot M (no x)) :
    Placement M m ↔ (∀ x, no x < M.totalUnits) ∧ Function.Injective no := by
  constructor
  · intro hm
    refine ⟨fun x => ?_, fun x y hxy => hm.distinct (by rw [h, h, hxy])⟩
    have hlt := (hm.inRange x).1
    rw [h] at hlt
    exact (Nat.div_lt_iff_lt_mul M.unit_pos).mp hlt
  · intro hno
    refine ⟨fun x => ?_, fun x y hxy => hno.2 ?_⟩
    · rw [h]
      exact ⟨Nat.div_lt_of_lt_mul (by rw [Nat.mul_comm]; exact hno.1 x), Nat.mod_lt _ M.unit_pos⟩
    · rw [h, h] at hxy
      have hdiv : no x / M.maxUnit = no y / M.maxUnit := congrArg Prod.fst hxy
      have hmod : no x % M.maxUnit = no y % M.maxUnit := congrArg Prod.snd hxy
      rw [← Nat.div_add_mod (no x) M.maxUnit, ← Nat.div_add_mod (no y) M.maxUnit, hdiv, hmod]

def noMasks (A : ThreadAffinity) : Masks A := ⟨⟨fun _ => 0, fun _ => 0⟩, ⟨fun _ => 0, fun _ => 0⟩⟩

/-- The loops by `count` place all threads when no count is past the machine or comes twice. -/
theorem fills_placeAll {next after : Counts → Counts} (no : Fin A.numTPS ⊕ Fin A.numMCS → Nat)
    (hno : ∀ x, (countAt A next after (thread x).1 (thread x).2).count = no x) :
    Fills M (placeAll (A := A) M next after) ↔
      (∀ x, no x < M.totalUnits) ∧ Function.Injective no := by
  have hplace : ∀ masks : Masks A, ∃ m, placeAll M next after masks = some m ∧
      (Placement M m ↔ (∀ x, no x < M.totalUnits) ∧ Function.Injective no) := by
    intro masks
    obtain ⟨m, hm, hunit⟩ := placeAll_spec M next after masks
    exact ⟨m, hm, placement_iff fun x => by rw [hunit, hno]⟩
  constructor
  · intro hfills
    obtain ⟨m, hm, hiff⟩ := hplace (noMasks A)
    obtain ⟨m', hm', hplacement⟩ := hfills (noMasks A)
    obtain rfl := Option.some.inj (hm.symm.trans hm')
    exact hiff.mp hplacement
  · intro hcounts masks
    obtain ⟨m, hm, hiff⟩ := hplace masks
    exact ⟨m, hm, hiff.mpr hcounts⟩

/-! ## Where the counts are -/

/-- The number of a thread, when all threads are counted through. -/
def number (A : ThreadAffinity) (x : Fin A.numTPS ⊕ Fin A.numMCS) : Nat :=
  (thread x).1 * (A.mcPerTp + 1) + (thread x).2

theorem number_lt (x : Fin A.numTPS ⊕ Fin A.numMCS) :
    number A x < A.numTPS * (A.mcPerTp + 1) := by
  obtain ⟨hi, ht⟩ := thread_lt x
  exact RowMajor.lt hi (Nat.lt_succ_of_le ht)

/-- Two threads that start `w` apart for each cluster, with less than `w` threads in it. -/
theorem stride_injective {w : Nat} (hw : A.mcPerTp < w) :
    Function.Injective fun x : Fin A.numTPS ⊕ Fin A.numMCS => (thread x).1 * w + (thread x).2 := by
  intro x y hxy
  obtain ⟨hi, ht⟩ := RowMajor.inj ((thread_lt x).2.trans_lt hw) ((thread_lt y).2.trans_lt hw) hxy
  exact thread_injective (Prod.ext hi ht)

theorem number_injective : Function.Injective (number A) := stride_injective (Nat.lt_succ_self _)

/-- Without rounding the counts go on from cluster to cluster. -/
theorem countAt_id (next : Counts → Counts) (i t : Nat) : countAt A next id i t =
    next^[i * (A.mcPerTp + 1) + t] { count := 0, smt_cnt := 0 } := by
  have hrow : ∀ i, row next id (A.mcPerTp + 1) i =
      next^[i * (A.mcPerTp + 1)] { count := 0, smt_cnt := 0 } := by
    intro i
    induction i with
    | zero => rw [Nat.zero_mul]; rfl
    | succ i ih =>
      rw [row, ih, id_eq, ← Function.iterate_add_apply, Nat.add_mul, Nat.one_mul, Nat.add_comm]
  rw [countAt, hrow, ← Function.iterate_add_apply, Nat.add_comm]

theorem one_iterate (n : Nat) :
    (Counts.one^[n] { count := 0, smt_cnt := 0 }) = { count := wrap n, smt_cnt := 0 } := by
  induction n with
  | zero => rfl
  | succ n ih =>
    rw [Function.iterate_succ_apply', ih]
    simp [Counts.one, wrap]

theorem skip_on {count smt_cnt : Nat} (h : count + 2 < M.totalUnits) :
    Counts.skip M { count := count, smt_cnt := smt_cnt } =
      { count := count + 2, smt_cnt := smt_cnt } := by
  have hfits : M.totalUnits ≤ uintMax := M.fits
  have hwrap : wrap (count + 2) = count + 2 := wrap_of_le (by omega)
  simp only [Counts.skip, hwrap]
  rw [if_neg (by omega)]

/-- The even units first. -/
theorem skip_even {n : Nat} (h : 2 * n < M.totalUnits) :
    ((Counts.skip M)^[n] { count := 0, smt_cnt := 0 }) = { count := 2 * n, smt_cnt := 0 } := by
  induction n with
  | zero => rfl
  | succ n ih => rw [Function.iterate_succ_apply', ih (by omega), skip_on (by omega), Nat.mul_succ]

/-- Then the odd ones, when the count does not wrap around on the way. -/
theorem skip_odd (hT : M.totalUnits < uintMax) {n : Nat} (h : 2 * n + 1 < M.totalUnits) :
    ((Counts.skip M)^[(M.totalUnits + 1) / 2 + n] { count := 0, smt_cnt := 0 }) =
      { count := 2 * n + 1, smt_cnt := 1 } := by
  induction n with
  | zero =>
    obtain ⟨half, hhalf⟩ : ∃ half, (M.totalUnits + 1) / 2 = half + 1 :=
      ⟨(M.totalUnits + 1) / 2 - 1, by omega⟩
    have hwrap : wrap (2 * half + 2) = 2 * half + 2 := wrap_of_le (by omega)
    rw [hhalf, Nat.add_zero, Function.iterate_succ_apply', skip_even (by omega)]
    simp only [Counts.skip, hwrap]
    rw [if_pos (by omega)]
    rfl
  | succ n ih =>
    rw [← Nat.add_assoc, Function.iterate_succ_apply', ih (by omega), skip_on (by omega),
      Nat.mul_succ]

/-- With `2 ^ 32 - 1` units the count after the last even one is 0 again. -/
theorem skip_wraps (hT : M.totalUnits = uintMax) :
    ((Counts.skip M)^[2 ^ 31] { count := 0, smt_cnt := 0 }) = { count := 0, smt_cnt := 0 } := by
  have hlast : 2 * (2 ^ 31 - 1) < M.totalUnits := by rw [hT]; decide
  have hwrap : wrap (2 * (2 ^ 31 - 1) + 2) = 0 := by decide
  rw [show 2 ^ 31 = (2 ^ 31 - 1) + 1 by omega, Function.iterate_succ_apply', skip_even hlast]
  simp only [Counts.skip, hwrap, hT]
  rfl

/-! ## Each loop -/

theorem exists_number {n : Nat} (hn : n < A.numTPS * (A.mcPerTp + 1)) :
    ∃ x : Fin A.numTPS ⊕ Fin A.numMCS, number A x = n := by
  obtain ⟨x, hx⟩ := exists_thread (A := A) (i := n / (A.mcPerTp + 1)) (t := n % (A.mcPerTp + 1))
    (Nat.div_lt_of_lt_mul (by rwa [Nat.mul_comm])) (Nat.lt_succ_iff.mp (Nat.mod_lt _ (by omega)))
  refine ⟨x, ?_⟩
  rw [number, hx]
  exact Nat.div_add_mod' n (A.mcPerTp + 1)

theorem fills_compact (hfit : A.numTPS * (A.mcPerTp + 1) ≤ M.totalUnits) :
    Fills M (compact (A := A) M) := by
  refine (fills_placeAll (number A) fun x => ?_).mpr
    ⟨fun x => (number_lt x).trans_le hfit, number_injective⟩
  have hlt := number_lt x
  have hfits := A.fits
  rw [countAt_id, one_iterate]
  exact wrap_of_le (Nat.le_of_lt (hlt.trans_le hfits))

/-- `COMPACT_NO_SMT` fails where more threads than even units meet a count that wraps around. -/
theorem fills_compactNoSmt (hfit : A.numTPS * (A.mcPerTp + 1) ≤ M.totalUnits) :
    Fills M (compactNoSmt (A := A) M) ↔
      ¬ (M.totalUnits = uintMax ∧ 2 ^ 31 < A.numTPS * (A.mcPerTp + 1)) := by
  have hfits : M.totalUnits ≤ uintMax := M.fits
  refine (fills_placeAll (fun x =>
    ((Counts.skip M)^[number A x] { count := 0, smt_cnt := 0 }).count)
    fun x => by rw [countAt_id]; rfl).trans ⟨fun hno hwraps => ?_, fun hwraps => ?_⟩
  · -- threads 0 and 2 ^ 31 are both on unit 0
    obtain ⟨hT, htotal⟩ := hwraps
    obtain ⟨x, hx⟩ := exists_number (A := A) (n := 0) (by omega)
    obtain ⟨y, hy⟩ := exists_number htotal
    have hsame : x = y := hno.2 (by
      show ((Counts.skip M)^[number A x] _).count = ((Counts.skip M)^[number A y] _).count
      rw [hx, hy, skip_wraps hT]
      rfl)
    rw [hsame, hy] at hx
    exact absurd hx (by omega)
  · have hno : ∀ x, ((Counts.skip M)^[number A x] { count := 0, smt_cnt := 0 }).count =
        if 2 * number A x < M.totalUnits then 2 * number A x
        else 2 * (number A x - (M.totalUnits + 1) / 2) + 1 := by
      intro x
      have hlt := number_lt x
      split
      next heven => rw [skip_even heven]
      next hodd =>
        have hT : M.totalUnits < uintMax := by
          refine Nat.lt_of_le_of_ne hfits fun hT => hwraps ⟨hT, ?_⟩
          have hmax : uintMax = 4294967295 := rfl
          omega
        obtain ⟨n, hn⟩ : ∃ n, number A x = (M.totalUnits + 1) / 2 + n :=
          ⟨number A x - (M.totalUnits + 1) / 2, by omega⟩
        rw [hn, skip_odd hT (by omega)]
        show 2 * n + 1 = _
        omega
    refine ⟨fun x => ?_, fun x y hxy => number_injective ?_⟩
    · have hlt := number_lt x
      rw [hno]
      split <;> omega
    · have hx := number_lt x
      have hy := number_lt y
      simp only [hno] at hxy
      split at hxy <;> split at hxy <;> omega

/-- The units of the clusters that a TP scheduler and its workers take. -/
def stride (A : ThreadAffinity) (M : Machine) : Nat := (A.mcPerTp / M.maxUnit + 1) * M.maxUnit

theorem lt_stride (A : ThreadAffinity) (M : Machine) : A.mcPerTp < stride A M := by
  have hmod := Nat.mod_lt A.mcPerTp M.unit_pos
  have hdiv := Nat.div_add_mod' A.mcPerTp M.maxUnit
  unfold stride
  rw [Nat.add_mul, Nat.one_mul]
  omega

/-- Rounding up after the threads of a cluster gets to the next one. -/
theorem roundUp_row {i : Nat} (h : (i + 1) * stride A M ≤ M.totalUnits) (smt_cnt : Nat) :
    Counts.roundUp M { count := i * stride A M + (A.mcPerTp + 1), smt_cnt := smt_cnt } =
      { count := (i + 1) * stride A M, smt_cnt := smt_cnt } := by
  have hfits : M.totalUnits ≤ uintMax := M.fits
  have hlt := Nat.mod_lt A.mcPerTp M.unit_pos
  have hparts := Nat.div_add_mod' A.mcPerTp M.maxUnit
  -- in whole clusters, and what is left of the last one
  have hcount : i * stride A M + (A.mcPerTp + 1) =
      (i * (A.mcPerTp / M.maxUnit + 1) + A.mcPerTp / M.maxUnit) * M.maxUnit +
        (A.mcPerTp % M.maxUnit + 1) := by
    rw [Nat.add_mul, stride, ← Nat.mul_assoc]
    omega
  have hnext : (i + 1) * stride A M =
      (i * (A.mcPerTp / M.maxUnit + 1) + A.mcPerTp / M.maxUnit + 1) * M.maxUnit := by
    rw [stride, ← Nat.mul_assoc, Nat.add_mul i 1, Nat.one_mul, Nat.add_assoc]
  by_cases hwhole : A.mcPerTp % M.maxUnit + 1 = M.maxUnit
  · have hsame : i * stride A M + (A.mcPerTp + 1) = (i + 1) * stride A M := by
      rw [hcount, hnext, hwhole, Nat.add_mul _ 1, Nat.one_mul]
    rw [hsame]
    exact if_neg (not_not.mpr (by rw [hnext]; exact Nat.mul_mod_left _ _))
  · obtain ⟨hdiv, hmod⟩ := RowMajor.div_mod (u := i * (A.mcPerTp / M.maxUnit + 1) +
      A.mcPerTp / M.maxUnit) (show A.mcPerTp % M.maxUnit + 1 < M.maxUnit by omega)
    have hle : i * (A.mcPerTp / M.maxUnit + 1) + A.mcPerTp / M.maxUnit + 1 ≤ uintMax := by
      refine le_trans (Nat.le_mul_of_pos_right _ M.unit_pos) ?_
      rw [← hnext]
      omega
    unfold Counts.roundUp
    simp only [hcount, hmod, hdiv]
    rw [if_pos (by omega), wrap_of_le hle, ← hnext, wrap_of_le (by omega)]

/-- As long as there are units, the threads of a cluster start on the first unit of a cluster. -/
theorem spread_count {i t : Nat} (h : i * stride A M + t ≤ M.totalUnits) :
    countAt A Counts.one (Counts.roundUp M) i t = { count := i * stride A M + t, smt_cnt := 0 } := by
  have hfits : M.totalUnits ≤ uintMax := M.fits
  have honward : ∀ i, countAt A Counts.one (Counts.roundUp M) i 0 =
      { count := i * stride A M, smt_cnt := 0 } → ∀ t, i * stride A M + t ≤ M.totalUnits →
        countAt A Counts.one (Counts.roundUp M) i t =
          { count := i * stride A M + t, smt_cnt := 0 } := by
    intro i hrow t
    induction t with
    | zero => exact fun _ => hrow
    | succ t ih =>
      intro hle
      rw [countAt_succ, ih (by omega)]
      show ({ count := wrap (i * stride A M + t + 1), smt_cnt := 0 } : Counts) = _
      rw [wrap_of_le (by omega)]
      rfl
  have hrow : ∀ i, i * stride A M ≤ M.totalUnits → countAt A Counts.one (Counts.roundUp M) i 0 =
      { count := i * stride A M, smt_cnt := 0 } := by
    intro i
    induction i with
    | zero =>
      intro _
      rw [Nat.zero_mul]
      rfl
    | succ i ih =>
      intro hle
      have hstride := lt_stride A M
      have hsum : (i + 1) * stride A M = i * stride A M + stride A M := by
        rw [Nat.add_mul, Nat.one_mul]
      show Counts.roundUp M (countAt A Counts.one (Counts.roundUp M) i (A.mcPerTp + 1)) = _
      rw [honward i (ih (by omega)) _ (by omega)]
      exact roundUp_row hle 0
  exact honward i (hrow i (by omega)) t h

/-- `SPREAD` over whole clusters goes past the last unit when it takes more than there are. -/
theorem fills_spreadOver (hwrap : wrap (spreadUnits A M) ≤ M.totalUnits) :
    Fills M (spreadOver (A := A) M) ↔ spreadUnits A M ≤ uintMax := by
  have hfits : M.totalUnits ≤ uintMax := M.fits
  have hunits : spreadUnits A M = stride A M * A.numTPS := rfl
  refine (fills_placeAll _ fun _ => rfl).trans ⟨fun hno => ?_, fun hle => ?_⟩
  · -- otherwise some thread is on the first unit that is not there
    by_contra hlt
    have hi : M.totalUnits / stride A M < A.numTPS :=
      Nat.div_lt_of_lt_mul (by rw [← hunits]; omega)
    have ht : M.totalUnits % stride A M ≤ A.mcPerTp := by
      -- a multiple of `maxUnit` below the stride
      have hmod : M.totalUnits % stride A M = M.maxCluster % (A.mcPerTp / M.maxUnit + 1) *
          M.maxUnit := Nat.mul_mod_mul_right _ _ _
      rw [hmod]
      refine le_trans (Nat.mul_le_mul_right _ (Nat.le_of_lt_succ (Nat.mod_lt _ (Nat.succ_pos _)))) ?_
      exact Nat.div_mul_le_self _ _
    obtain ⟨x, hx⟩ := exists_thread hi ht
    have hlast := hno.1 x
    have hsum := Nat.div_add_mod' M.totalUnits (stride A M)
    rw [hx, spread_count hsum.le] at hlast
    have hlast : M.totalUnits / stride A M * stride A M + M.totalUnits % stride A M <
        M.totalUnits := hlast
    omega
  · rw [wrap_of_le hle] at hwrap
    have hlt : ∀ x : Fin A.numTPS ⊕ Fin A.numMCS,
        (thread x).1 * stride A M + (thread x).2 < M.totalUnits := by
      intro x
      have hx := thread_lt x
      have hstride := lt_stride A M
      have hrows : ((thread x).1 + 1) * stride A M ≤ A.numTPS * stride A M :=
        Nat.mul_le_mul_right _ hx.1
      rw [Nat.add_mul, Nat.one_mul, Nat.mul_comm A.numTPS, ← hunits] at hrows
      omega
    have hcount : ∀ x : Fin A.numTPS ⊕ Fin A.numMCS, (countAt A Counts.one (Counts.roundUp M)
        (thread x).1 (thread x).2).count = (thread x).1 * stride A M + (thread x).2 := fun x => by
      rw [spread_count (hlt x).le]
    refine ⟨fun x => by rw [hcount]; exact hlt x, fun x y hxy => ?_⟩
    simp only [hcount] at hxy
    exact stride_injective (lt_stride A M) hxy

/-- `SPREAD` inside the clusters: with no more TP schedulers than clusters each has its own. -/
theorem fills_spreadInside (hroom : A.mcPerTp + 1 < M.maxUnit) (hTPS : A.numTPS ≤ M.maxCluster) :
    Fills M (spreadInside (A := A) M) := by
  intro masks
  have hfits : M.totalUnits ≤ uintMax := M.fits
  have hunits : M.maxUnit ≤ M.totalUnits := Nat.le_mul_of_pos_left _ M.cluster_pos
  obtain ⟨s, hs, -, -, hplaced⟩ := eachThread_ok (A := A) (spreadThread (M := M)) id
    (s := { clusterCount := fun _ => 0, masks := masks })
    (fun i t s => (∀ c : Fin M.maxCluster, c.val = i → s.clusterCount c = t) ∧
      (∀ c : Fin M.maxCluster, i < c.val → s.clusterCount c = 0) ∧
      Placed (fun i t => (i, t)) i t s.masks)
    ⟨fun _ _ => rfl, fun _ _ => rfl, placed_start _ masks⟩
    (fun i t s hi ht hJ => by
      obtain ⟨hcount, hrest, hplaced⟩ := hJ
      have hlt : i < M.maxCluster := by omega
      obtain ⟨m, hput, hplaced⟩ := hplaced.put hi ht
      refine ⟨{ clusterCount := Function.update s.clusterCount ⟨i, hlt⟩ (t + 1), masks := m }, ?_,
        ?_, ?_, hplaced⟩
      · unfold spreadThread
        rw [dif_pos hlt, Nat.mod_eq_of_lt hlt, hcount ⟨i, hlt⟩ rfl, hput, wrap_of_le (by omega)]
        rfl
      · intro c hc
        obtain rfl : c = ⟨i, hlt⟩ := Fin.ext hc
        exact Function.update_self _ _ _
      · intro c hc
        have hne : c ≠ ⟨i, hlt⟩ := fun h => absurd (congrArg Fin.val h) (by
          show ¬ c.val = i
          omega)
        exact (Function.update_of_ne hne _ _).trans (hrest c hc))
    (fun i s hi hJ => ⟨fun c hc => hJ.2.1 c (by omega), fun c hc => hJ.2.1 c (by omega), hJ.2.2.row⟩)
  refine ⟨s.masks, congrArg (Option.map _) hs, fun x => ?_, fun x y hxy => ?_⟩
  · obtain ⟨hi, ht⟩ := thread_lt x
    rw [hplaced.all x]
    exact ⟨Nat.lt_of_lt_of_le hi hTPS, by show (thread x).2 < M.maxUnit; omega⟩
  · rw [hplaced.all x, hplaced.all y] at hxy
    exact thread_injective hxy

/-- With more of them `clusterCount` is left behind. -/
theorem spreadInside_none (hTPS : M.maxCluster < A.numTPS) (masks : Masks A) :
    spreadInside M masks = none := by
  have hfail : eachThread A (spreadThread (M := M)) id
      { clusterCount := fun _ => 0, masks := masks } = none := by
    refine forOk_none hTPS fun s => ?_
    have hnone : spreadThread (A := A) M.maxCluster 0 s = none := dif_neg (lt_irrefl _)
    rw [hnone]
    rfl
  unfold spreadInside
  rw [hfail]
  rfl

/-! ## Which machines and thread counts are safe -/

/-- The tests of `generateMask` in numbers, when there are TP schedulers. -/
theorem admission (hTPS : A.numTPS ≠ 0) :
    totalRequestedUnits A = A.numTPS * (A.mcPerTp + 1) ∧ RequestedUnits A = A.mcPerTp + 1 := by
  have hfits := A.fits
  have hone : A.mcPerTp + 1 ≤ A.numTPS * (A.mcPerTp + 1) :=
    Nat.le_mul_of_pos_left _ (Nat.pos_of_ne_zero hTPS)
  refine ⟨?_, wrap_of_le (by omega)⟩
  unfold totalRequestedUnits
  rw [numMCS_eq, wrap_of_le (by rw [Nat.mul_add, Nat.mul_one] at hfits; omega), Nat.mul_add,
    Nat.mul_one, Nat.add_comm]

theorem check_eq (hTPS : A.numTPS ≠ 0) : check A M = A.mcPerTp / M.maxUnit + 1 := by
  have hlt := Nat.mod_lt A.mcPerTp M.unit_pos
  have hparts := Nat.div_add_mod' A.mcPerTp M.maxUnit
  have hfits := A.fits
  have hone : A.mcPerTp + 1 ≤ A.numTPS * (A.mcPerTp + 1) :=
    Nat.le_mul_of_pos_left _ (Nat.pos_of_ne_zero hTPS)
  have hdiv : A.mcPerTp / M.maxUnit ≤ A.mcPerTp := Nat.div_le_self _ _
  unfold check
  rw [(admission hTPS).2]
  by_cases hwhole : A.mcPerTp % M.maxUnit + 1 = M.maxUnit
  · have hnext : A.mcPerTp + 1 = (A.mcPerTp / M.maxUnit + 1) * M.maxUnit := by
      rw [Nat.add_mul, Nat.one_mul]
      omega
    rw [hnext, Nat.mul_mod_left, if_neg (by omega), Nat.mul_div_cancel _ M.unit_pos]
  · obtain ⟨hd, hm⟩ := RowMajor.div_mod (u := A.mcPerTp / M.maxUnit)
      (show A.mcPerTp % M.maxUnit + 1 < M.maxUnit by omega)
    rw [← Nat.add_assoc, hparts] at hd hm
    rw [hd, hm, if_pos (by omega), wrap_of_le (by omega)]

theorem spreadUnits_wrap (hTPS : A.numTPS ≠ 0) :
    wrap (wrap (check A M * M.maxUnit) * A.numTPS) = wrap (spreadUnits A M) := by
  rw [check_eq hTPS]
  simp [wrap, spreadUnits, Nat.mul_mod]

/-- What `generateMask` comes to when it returns true after a loop. -/
theorem safe_iff_fills {loop : Masks A → Option (Masks A)}
    (hmask : ∀ masks, generateMask M masks = (loop masks).map fun m => (true, m)) :
    Safe A M ↔ Fills M loop := by
  constructor
  · intro hsafe masks
    obtain ⟨ok, out, hout, hplacement⟩ := hsafe masks
    rw [hmask] at hout
    obtain ⟨m, hm, heq⟩ := Option.map_eq_some_iff.mp hout
    obtain ⟨rfl, rfl⟩ := Prod.mk.inj heq
    exact ⟨m, hm, hplacement rfl⟩
  · intro hfills masks
    obtain ⟨m, hm, hplacement⟩ := hfills masks
    exact ⟨true, m, by rw [hmask, hm]; rfl, fun _ => hplacement⟩

/-- When it returns false nothing is promised. -/
theorem safe_of_refused (h : ∀ masks : Masks A, generateMask M masks = some (false, masks)) :
    Safe A M := fun masks => ⟨false, masks, h masks, fun hok => Bool.noConfusion hok⟩

/-- `SPREAD`, whichever of its loops runs. -/
theorem spread_safe (hTPS : A.numTPS ≠ 0) (hmode : A.mode = .SPREAD)
    (hfit : A.numTPS * (A.mcPerTp + 1) ≤ M.totalUnits) :
    Safe A M ↔ ¬ (uintMax < spreadUnits A M ∧ wrap (spreadUnits A M) ≤ M.totalUnits) := by
  obtain ⟨htotal, hrequested⟩ := admission hTPS
  have hmask : ∀ masks : Masks A, generateMask M masks =
      if M.totalUnits < wrap (spreadUnits A M) then some (false, masks)
      else if A.mcPerTp + 1 < M.maxUnit then (spreadInside M masks).map fun m => (true, m)
      else (spreadOver M masks).map fun m => (true, m) := by
    intro masks
    rw [generateMask, if_neg hTPS, if_neg (by omega), hmode]
    simp only [spreadUnits_wrap hTPS, hrequested]
  by_cases hrefused : M.totalUnits < wrap (spreadUnits A M)
  · exact iff_of_true (safe_of_refused fun masks => by rw [hmask, if_pos hrefused]) (by omega)
  · have hwrap := Nat.le_of_not_lt hrefused
    have hcond : ¬ (uintMax < spreadUnits A M ∧ wrap (spreadUnits A M) ≤ M.totalUnits) ↔
        spreadUnits A M ≤ uintMax := by omega
    rw [hcond]
    by_cases hroom : A.mcPerTp + 1 < M.maxUnit
    · rw [safe_iff_fills fun masks => by rw [hmask, if_neg hrefused, if_pos hroom]]
      -- a cluster for each TP scheduler
      have hunits : spreadUnits A M = M.maxUnit * A.numTPS := by
        rw [spreadUnits, Nat.div_eq_of_lt (by omega), Nat.zero_add, Nat.one_mul]
      have hfits : M.totalUnits ≤ uintMax := M.fits
      have hT : M.totalUnits = M.maxUnit * M.maxCluster := Nat.mul_comm _ _
      constructor
      · intro hfills
        by_contra hover
        have hmany : M.maxCluster < A.numTPS := by
          by_contra hle
          have hmul := Nat.mul_le_mul_left M.maxUnit (Nat.le_of_not_lt hle)
          omega
        obtain ⟨m, hm, -⟩ := hfills (noMasks A)
        rw [spreadInside_none hmany] at hm
        cases hm
      · intro hle
        rw [wrap_of_le hle, hunits, hT] at hwrap
        exact fills_spreadInside hroom (Nat.le_of_mul_le_mul_left hwrap M.unit_pos)
    · rw [safe_iff_fills fun masks => by rw [hmask, if_neg hrefused, if_neg hroom]]
      exact fills_spreadOver hwrap

/-- Whole clusters for the threads of one TP scheduler are no more than the machine. -/
theorem stride_le (hTPS : A.numTPS ≠ 0) (hfit : A.numTPS * (A.mcPerTp + 1) ≤ M.totalUnits) :
    stride A M ≤ M.totalUnits := by
  have hone : A.mcPerTp + 1 ≤ A.numTPS * (A.mcPerTp + 1) :=
    Nat.le_mul_of_pos_left _ (Nat.pos_of_ne_zero hTPS)
  have hlt : A.mcPerTp / M.maxUnit < M.maxCluster :=
    Nat.div_lt_of_lt_mul (by rw [Nat.mul_comm]; exact Nat.lt_of_lt_of_le hone hfit)
  exact Nat.mul_le_mul_right _ hlt

/-- On a machine of less than 65536 units nothing wraps around. -/
theorem not_overflows_of_small (hsmall : M.totalUnits < 65536) : ¬ Overflows A M := by
  intro h
  unfold Overflows at h
  obtain ⟨hfit, hmode⟩ := h
  have hmax : uintMax = 4294967295 := rfl
  cases hm : A.mode with
  | SPREAD =>
    rw [hm] at hmode
    have hover := hmode.1
    by_cases hTPS : A.numTPS = 0
    · rw [spreadUnits, hTPS, Nat.mul_zero] at hover
      omega
    · have hstride : stride A M ≤ 65535 := (stride_le hTPS hfit).trans (by omega)
      have hnum : A.numTPS ≤ 65535 := by
        refine le_trans ?_ (hfit.trans (by omega : M.totalUnits ≤ 65535))
        exact Nat.le_mul_of_pos_right _ (Nat.succ_pos _)
      have hunits : spreadUnits A M ≤ 65535 * 65535 := Nat.mul_le_mul hstride hnum
      omega
  | COMPACT =>
    rw [hm] at hmode
    exact hmode
  | COMPACT_NO_SMT =>
    rw [hm] at hmode
    omega

/-- **A unit for every thread.** Where `generateMask` returns true, it has put all threads on units
of the machine, no two on one, and it touches nothing outside its arrays, just when no count of
units wraps around unnoticed. -/
theorem safe_iff (A : ThreadAffinity) (M : Machine) : Safe A M ↔ ¬ Overflows A M := by
  by_cases hTPS : A.numTPS = 0
  · have hnone : ¬ Overflows A M := by
      unfold Overflows spreadUnits
      rw [hTPS]
      cases A.mode <;> simp
    exact iff_of_true (safe_of_refused fun masks => if_pos hTPS) hnone
  · obtain ⟨htotal, -⟩ := admission hTPS
    by_cases hfit : A.numTPS * (A.mcPerTp + 1) ≤ M.totalUnits
    · unfold Overflows
      cases hmode : A.mode with
      | SPREAD =>
        rw [spread_safe hTPS hmode hfit]
        exact not_congr (and_iff_right hfit).symm
      | COMPACT =>
        have hmask : ∀ masks : Masks A, generateMask M masks =
            (compact M masks).map fun m => (true, m) := fun masks => by
          rw [generateMask, if_neg hTPS, if_neg (by omega), hmode]
        exact iff_of_true ((safe_iff_fills hmask).mpr (fills_compact hfit)) fun h => h.2
      | COMPACT_NO_SMT =>
        have hmask : ∀ masks : Masks A, generateMask M masks =
            (compactNoSmt M masks).map fun m => (true, m) := fun masks => by
          rw [generateMask, if_neg hTPS, if_neg (by omega), hmode]
        rw [safe_iff_fills hmask, fills_compactNoSmt hfit]
        exact not_congr (and_iff_right hfit).symm
    · refine iff_of_true (safe_of_refused fun masks => ?_) fun h => hfit h.1
      rw [generateMask, if_neg hTPS, if_pos (by omega)]

/-- 65536 TP schedulers for one cluster of 65536 units. -/
def oneCluster : Machine :=
  { maxCluster := 1, maxUnit := 65536, cluster_pos := Nat.one_pos, unit_pos := by decide
    fits := by decide }

def manyTPS : ThreadAffinity :=
  { mcPerTp := 0, numTPS := 65536, mode := .SPREAD, fits := by decide }

/-- `SPREAD` takes them for as many as no unit at all, and counts in a second cluster. -/
theorem manyTPS_unsafe : ¬ Safe manyTPS oneCluster := by
  intro hsafe
  obtain ⟨ok, out, hout, -⟩ := hsafe (noMasks manyTPS)
  have hmask : generateMask oneCluster (noMasks manyTPS) =
      (spreadInside oneCluster (noMasks manyTPS)).map fun m => (true, m) := by
    rw [generateMask, if_neg (by decide), if_neg (by decide)]
    show (if _ then _ else _) = _
    rw [if_neg (by decide), if_pos (by decide)]
  rw [hmask, spreadInside_none (by decide)] at hout
  cases hout

end Affinity

end Darts
