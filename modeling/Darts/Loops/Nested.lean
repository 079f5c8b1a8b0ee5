import Darts.Lib.Ranges

/-!
# The index ranges of a nested loop (`include/threading/nested.h`)

`nestedLoop` runs a range `[0, N)` as one `Core`, as one loop of cores, or as a
loop over clusters whose bodies are loops of cores. How many repetitions a loop
has and which share of its range a repetition gets are computed by the two macros
`GETREPS` and `GETEND`, each with its own test on the boundary.

The tests disagree in one case. A range of exactly `div` indices counts as too
short to be cut, so there is one repetition; but its share is computed as that of
a range long enough, and is the first index alone. `cores_partition_iff` says that
this is the only way in which indices get lost.

No value below exceeds the larger of the range's end and the divisor, so nothing wraps
when these are `unsigned`.
-/

namespace Darts

/-- `GETREPS(items, div)`. -/
def getReps (items div : Nat) : Nat :=
  if items > div then (if items % div ≠ 0 then div + 1 else div) else 1

/-- `GETEND(items, div, iter)`. -/
def getEnd (items div iter : Nat) : Nat :=
  items / div * iter + (if iter = div ∨ items < div then items % div else items / div)

namespace NestedLoop

/-- A `Core` codelet, reduced to the indices it works on. -/
structure Core where
  start : Nat
  end_ : Nat

def Core.range (c : Core) : Nat × Nat := (c.start, c.end_)

/-- The bodies that a `codeletFor` or a `paraFor` of `iterations` repetitions constructs. -/
def bodies {LP : Type} (iterations : Nat) (body : Nat → LP) : List LP :=
  (List.range iterations).map body

structure SingleLoop where
  iterationStart : Nat
  iterationEnd : Nat
  core : Core

/-- The constructor of `SingleLoop`. -/
def singleLoop (it Start End Workers : Nat) : SingleLoop :=
  let iterationStart := Start + (End - Start) / Workers * it
  let iterationEnd := Start + getEnd (End - Start) Workers it
  { iterationStart, iterationEnd, core := { start := iterationStart, end_ := iterationEnd } }

structure DoubleLoop where
  iterationStart : Nat
  iterationEnd : Nat
  innerLoop : List SingleLoop

/-- The constructor of `DoubleLoop`, with the bodies of its `innerLoop`. -/
def doubleLoop (it Start End Clusters Workers : Nat) : DoubleLoop :=
  let iterationStart := Start + (End - Start) / Clusters * it
  let iterationEnd := Start + getEnd (End - Start) Clusters it
  { iterationStart, iterationEnd,
    innerLoop := bodies (getReps (iterationEnd - iterationStart) Workers) fun i =>
      singleLoop i iterationStart iterationEnd Workers }

/-- The three codelets of a `nestedLoop`. -/
inductive Added where
  | core | singleLoop | doubleLoop
  deriving DecidableEq, Repr

/-- The one that the constructor of `nestedLoop` adds. -/
def added (N threashold1 threashold2 : Nat) : Added :=
  if N < threashold1 then .core
  else if N < threashold2 then .singleLoop
  else .doubleLoop

/-- The cores that come to run. -/
def cores (N Clusters Workers threashold1 threashold2 : Nat) : List Core :=
  match added N threashold1 threashold2 with
  | .core => [{ start := 0, end_ := N }]
  | .singleLoop =>
    (bodies (getReps N Workers) fun it => singleLoop it 0 N Workers).map SingleLoop.core
  | .doubleLoop =>
    (bodies (getReps N Clusters) fun it => doubleLoop it 0 N Clusters Workers).flatMap
      fun d => d.innerLoop.map SingleLoop.core

/-! ## One level -/

open Ranges

/-- The range of repetition `it` of a loop over `[s, e)`. -/
def share (s e div it : Nat) : Nat × Nat :=
  (s + (e - s) / div * it, s + getEnd (e - s) div it)

/-- The ranges of all its repetitions. -/
def shares (s e div : Nat) : List (Nat × Nat) :=
  (List.range (getReps (e - s) div)).map (share s e div)

variable {s e div : Nat}

theorem mem_shares {r : Nat × Nat} :
    r ∈ shares s e div ↔ ∃ it, it < getReps (e - s) div ∧ share s e div it = r := by
  simp only [shares, List.mem_map, List.mem_range]

theorem share_length (it : Nat) : (share s e div it).2 - (share s e div it).1 =
    if it = div ∨ e - s < div then (e - s) % div else (e - s) / div := by
  unfold share getEnd
  omega

theorem share_le (it : Nat) : (share s e div it).1 ≤ (share s e div it).2 := by
  unfold share getEnd
  omega

/-- Where the shares of a range longer than `div` meet. -/
def cut (s e div i : Nat) : Nat := if i ≤ div then s + (e - s) / div * i else e

theorem cut_mono (hse : s ≤ e) : Monotone (cut s e div) := by
  intro i j hij
  unfold cut
  have hmul : (e - s) / div * i ≤ (e - s) / div * j := Nat.mul_le_mul_left _ hij
  split
  next hi =>
    have hdiv : (e - s) / div * i ≤ e - s :=
      (Nat.mul_le_mul_left _ hi).trans (Nat.div_mul_le_self _ _)
    split <;> omega
  next hi => rw [if_neg (by omega)]

/-- A range longer than `div` is cut at every multiple of its share, and at its end. -/
theorem shares_of_lt (hdiv : 0 < div) (hlt : div < e - s) :
    shares s e div = between (cut s e div) (getReps (e - s) div) ∧
      cut s e div (getReps (e - s) div) = e := by
  have hsplit : (e - s) / div * div + (e - s) % div = e - s := Nat.div_add_mod' ..
  have hreps : getReps (e - s) div = if (e - s) % div ≠ 0 then div + 1 else div := if_pos hlt
  constructor
  · refine List.map_congr_left fun it hit => ?_
    have hit : it ≤ div := by
      have := List.mem_range.mp hit
      rw [hreps] at this
      split at this <;> omega
    unfold share getEnd cut
    have hsucc : (e - s) / div * (it + 1) = (e - s) / div * it + (e - s) / div :=
      Nat.mul_succ ..
    rw [if_pos hit]
    -- the repetition with number `div` has the remainder
    by_cases heq : it = div
    · subst heq
      rw [if_pos (Or.inl rfl), if_neg (by omega)]
      congr 1
      omega
    · rw [if_neg (by omega), if_pos (by omega), hsucc]
  · unfold cut
    rw [hreps]
    split
    · rw [if_neg (by omega)]
    · rw [if_pos le_rfl]
      omega

theorem shares_of_gt (hse : s ≤ e) (hlt : e - s < div) : shares s e div = [(s, e)] := by
  have hreps : getReps (e - s) div = 1 := if_neg (by omega)
  have hmod : (e - s) % div = e - s := Nat.mod_eq_of_lt hlt
  unfold shares
  rw [hreps, List.range_one, List.map_singleton]
  unfold share getEnd
  rw [if_pos (Or.inr hlt), hmod, Nat.mul_zero]
  congr 2
  omega

/-- A range of exactly `div` indices: one repetition, for the first index. -/
theorem shares_of_eq (hdiv : 0 < div) (heq : e - s = div) : shares s e div = [(s, s + 1)] := by
  have hreps : getReps (e - s) div = 1 := if_neg (by omega)
  unfold shares
  rw [hreps, List.range_one, List.map_singleton]
  unfold share getEnd
  rw [if_neg (by omega), heq, Nat.div_self hdiv]
  rfl

/-- A level of the loop loses nothing. -/
def Covers (items div : Nat) : Prop := items ≠ div ∨ div = 1

instance (items div : Nat) : Decidable (Covers items div) :=
  inferInstanceAs (Decidable (_ ∨ _))

/-- What a loop over `[s, e)` does with its range: the shares are always disjoint parts of
it, and make up all of it unless it has exactly `div` indices and more than one. -/
theorem shares_spec (hdiv : 0 < div) (hse : s ≤ e) : Packing s e (shares s e div) ∧
    (Partition s e (shares s e div) ↔ Covers (e - s) div) := by
  rcases Nat.lt_trichotomy (e - s) div with hlt | heq | hgt
  · rw [shares_of_gt hse hlt]
    have hwhole := Partition.whole s e
    exact ⟨hwhole.toPacking, fun _ => Or.inl hlt.ne, fun _ => hwhole⟩
  · rw [shares_of_eq hdiv heq]
    refine ⟨Packing.single (Set.Ico_subset_Ico_right (by omega)), fun h => ?_, fun h => ?_⟩
    · -- the last index is in the only share
      obtain ⟨r, hr, hlast⟩ := h.covers (e - 1) ⟨by omega, by omega⟩
      rw [List.mem_singleton.mp hr] at hlast
      have : e - 1 < s + 1 := hlast.2
      exact Or.inr (by omega)
    · have hone : s + 1 = e := by unfold Covers at h; omega
      rw [hone]
      exact Partition.whole s e
  · obtain ⟨hshares, hlast⟩ := shares_of_lt hdiv hgt
    have hmono : Monotone (cut s e div) := cut_mono hse
    have hpart := between_partition hmono (getReps (e - s) div)
    rw [hlast, ← hshares] at hpart
    have hfirst : cut s e div 0 = s := by simp [cut]
    rw [hfirst] at hpart
    exact ⟨hpart.toPacking, fun _ => Or.inl hgt.ne', fun _ => hpart⟩

/-- The lengths of the shares of a range that is cut properly. -/
theorem shares_lengths {P : Nat → Prop} (hdiv : 0 < div) (hP : P 0) (h : Covers (e - s) div) :
    (∀ r ∈ shares s e div, P (r.2 - r.1)) ↔ P ((e - s) / div) ∧ P ((e - s) % div) := by
  have hall : (∀ r ∈ shares s e div, P (r.2 - r.1)) ↔ ∀ it, it < getReps (e - s) div →
      P (if it = div ∨ e - s < div then (e - s) % div else (e - s) / div) := by
    constructor
    · intro hr it hit
      exact share_length it ▸ hr _ (mem_shares.mpr ⟨it, hit, rfl⟩)
    · intro hit r hr
      obtain ⟨it, hlt, rfl⟩ := mem_shares.mp hr
      exact (share_length it).symm ▸ hit it hlt
  rw [hall]
  unfold getReps
  rcases Nat.lt_trichotomy (e - s) div with hlt | heq | hgt
  · -- one repetition, with everything
    rw [if_neg (by omega), Nat.div_eq_of_lt hlt]
    exact ⟨fun hr => ⟨hP, by simpa [hlt] using hr 0 (by omega)⟩, fun hr it _ => by simpa [hlt] using hr.2⟩
  · -- one repetition for one index
    have hone : div = 1 := by unfold Covers at h; omega
    subst hone
    rw [heq, if_neg (by omega)]
    constructor
    · intro hr
      exact ⟨by simpa using hr 0 (by omega), hP⟩
    · intro hr it hit
      rw [if_neg (by omega)]
      exact hr.1
  · rw [if_pos hgt]
    constructor
    · intro hr
      refine ⟨?_, ?_⟩
      · have := hr 0 (by split <;> omega)
        rwa [if_neg (by omega)] at this
      · by_cases hmod : (e - s) % div = 0
        · rw [hmod]; exact hP
        · have := hr div (by rw [if_pos hmod]; omega)
          rwa [if_pos (Or.inl rfl)] at this
    · intro hr it _
      split
      · exact hr.2
      · exact hr.1

/-! ## The three paths -/

theorem singleLoop_range (it s e W : Nat) : (singleLoop it s e W).core.range = share s e W it := rfl

/-- The ranges of the cores of one loop. -/
theorem bodies_range (s e W : Nat) :
    ((bodies (getReps (e - s) W) fun it => singleLoop it s e W).map SingleLoop.core).map Core.range =
      shares s e W := by
  unfold bodies shares
  rw [List.map_map, List.map_map]
  exact List.map_congr_left fun it _ => singleLoop_range it s e W

/-- The cores of the double loop have the shares of the shares as ranges. -/
theorem doubleLoop_range (N C W : Nat) :
    ((bodies (getReps N C) fun it => doubleLoop it 0 N C W).flatMap
      fun d => d.innerLoop.map SingleLoop.core).map Core.range =
      (shares 0 N C).flatMap fun r => shares r.1 r.2 W := by
  unfold bodies shares
  rw [List.map_flatMap, List.flatMap_map, List.flatMap_map, Nat.sub_zero]
  refine congrArg (List.flatMap · _) (funext fun it => ?_)
  exact bodies_range _ _ W

/-- What the thresholds and the sizes have to be for no index to be lost. -/
def AllCovered (N Clusters Workers threashold1 threashold2 : Nat) : Prop :=
  N < threashold1 ∨
    (N < threashold2 ∧ Covers N Workers) ∨
    (threashold2 ≤ N ∧ Covers N Clusters ∧ Covers (N / Clusters) Workers ∧
      Covers (N % Clusters) Workers)

instance (N Clusters Workers threashold1 threashold2 : Nat) :
    Decidable (AllCovered N Clusters Workers threashold1 threashold2) :=
  inferInstanceAs (Decidable (_ ∨ _))

/-- The cores' ranges partition `[0, N)` exactly when neither level has to deal with a range
of as many indices as it has workers or clusters. -/
theorem cores_partition_iff (N Clusters Workers threashold1 threashold2 : Nat)
    (hC : 0 < Clusters) (hW : 0 < Workers) :
    Partition 0 N ((cores N Clusters Workers threashold1 threashold2).map Core.range) ↔
      AllCovered N Clusters Workers threashold1 threashold2 := by
  unfold cores added AllCovered
  by_cases h1 : N < threashold1
  · simp only [if_pos h1]
    exact ⟨fun _ => Or.inl h1, fun _ => Partition.whole 0 N⟩
  by_cases h2 : N < threashold2
  · simp only [if_neg h1, if_pos h2]
    have hspec := (shares_spec hW (Nat.zero_le N)).2
    rw [← bodies_range 0 N Workers, Nat.sub_zero] at hspec
    rw [hspec]
    constructor
    · intro h
      exact Or.inr (Or.inl ⟨h2, h⟩)
    · intro h
      rcases h with hlt | ⟨-, hcov⟩ | ⟨hge, -⟩
      · exact absurd hlt h1
      · exact hcov
      · exact absurd h2 (by omega)
  · simp only [if_neg h1, if_neg h2]
    rw [doubleLoop_range]
    obtain ⟨hpack, hpart⟩ := shares_spec hC (Nat.zero_le N)
    have hinner : ∀ r ∈ shares 0 N Clusters, Packing r.1 r.2 (shares r.1 r.2 Workers) ∧
        (Partition r.1 r.2 (shares r.1 r.2 Workers) ↔ Covers (r.2 - r.1) Workers) := by
      intro r hr
      obtain ⟨it, -, rfl⟩ := mem_shares.mp hr
      exact shares_spec hW (share_le it)
    rw [Partition.flatMap_iff hpack fun r hr => (hinner r hr).1, hpart, Nat.sub_zero]
    have hlengths : Covers N Clusters → ((∀ r ∈ shares 0 N Clusters, Covers (r.2 - r.1) Workers) ↔
        Covers (N / Clusters) Workers ∧ Covers (N % Clusters) Workers) := fun h =>
      shares_lengths (s := 0) (e := N) (P := fun len => Covers len Workers) hC (Or.inl hW.ne) h
    constructor
    · intro ⟨hout, hin⟩
      have hlen := (hlengths hout).mp fun r hr => (hinner r hr).2.mp (hin r hr)
      exact Or.inr (Or.inr ⟨by omega, hout, hlen⟩)
    · intro h
      have hcov : Covers N Clusters ∧ Covers (N / Clusters) Workers ∧
          Covers (N % Clusters) Workers := by
        rcases h with hlt | ⟨hlt, -⟩ | ⟨-, hcov⟩
        · exact absurd hlt h1
        · exact absurd hlt h2
        · exact hcov
      refine ⟨hcov.1, fun r hr => (hinner r hr).2.mpr ?_⟩
      exact (hlengths hcov.1).mpr hcov.2 r hr

/-- Seven indices over two clusters of two workers. -/
theorem cores_partition_seven : Partition 0 7 ((cores 7 2 2 0 0).map Core.range) :=
  (cores_partition_iff 7 2 2 0 0 (by decide) (by decide)).mpr (by decide)

/-- Two indices for two workers: no core works on the second one. -/
theorem second_index_lost : ¬Partition 0 2 ((cores 2 1 2 0 3).map Core.range) := by
  intro h
  obtain ⟨r, hr, -, hlast⟩ := h.covers 1 ⟨by decide, by decide⟩
  have hcores : (cores 2 1 2 0 3).map Core.range = [(0, 1)] := by decide
  rw [hcores, List.mem_singleton] at hr
  subst hr
  exact absurd hlast (by decide)

end NestedLoop

end Darts
