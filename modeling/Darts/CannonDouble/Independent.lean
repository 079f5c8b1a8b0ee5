import Darts.CannonDouble.Blocks
import Darts.CannonDouble.Footprint

/-!
# Ready codelets do not conflict

The codelets that are scheduled at one time belong to one stage of the round
protocol (`Ctl.stage`): the copies and skews of the first phase, the compute
codelets of one round, the copies back, or the loop or the end codelet alone. In
each stage the buffers that are written are not those that are read, and different
tiles are written by different codelets (`no_conflict`). So any two codelets that
are scheduled can be fired in either order.
-/

namespace Darts.CannonDouble

open Cannon Transition Footprint

variable {R : Type} {n p : Nat}

/-- What the `fire()` of a codelet reads. -/
def Cod.reads (f : Frame R n p) (k : Cod n) : Set (Loc n) :=
  {l | ∃ a : Act n, a.owner = k ∧ l ∈ a.reads f}

/-- What the `fire()` of a codelet writes. -/
def Cod.writes (f : Frame R n p) (k : Cod n) : Set (Loc n) :=
  {l | ∃ a : Act n, a.owner = k ∧ l ∈ a.writes f}

/-! ## The footprint of a body -/

section Body

variable [CommRing R] {blas : Blas R} {f g : Frame R n p}

omit [CommRing R] in
/-- Where an action reads and writes is given by the pointers and dimensions. -/
theorem footprint_congr (hptr : ∀ i, agree (.pointers i) f g) (hsize : agree .sizes f g)
    (a : Act n) : a.reads f = a.reads g ∧ a.writes f = a.writes g := by
  have hA : ∀ i, (f.allMatrices i).tileA = (g.allMatrices i).tileA := fun i => (hptr i .A).1
  have hB : ∀ i, (f.allMatrices i).tileB = (g.allMatrices i).tileB := fun i => (hptr i .B).1
  have hread : ∀ i d, (f.allMatrices i).read d = (g.allMatrices i).read d := fun i d => (hptr i d).1
  have hwrite : ∀ i d, (f.allMatrices i).write d = (g.allMatrices i).write d :=
    fun i d => (hptr i d).2
  have hM : ∀ d, (f.factor d).M = (g.factor d).M := fun d => (hsize.1 d).1
  have hC : f.C.M = g.C.M := hsize.2.1
  cases a <;> simp only [Act.reads, Act.writes, hA, hB, hread, hwrite, hM, hC, TileMem.tileC,
    TileMem.tileP, and_self]

omit [CommRing R] in
/-- No action but a swap writes a pointer, and none a dimension. -/
theorem pointers_not_written {a : Act n} (ha : ∀ i, a ≠ .swap i) (i : Tile n) :
    .pointers i ∉ a.writes f := by
  cases a <;> simp [Act.writes, entries, elements]
  case swap j => exact absurd rfl (ha j)

omit [CommRing R] in
theorem sizes_not_written (a : Act n) : .sizes ∉ a.writes f := by
  cases a <;> simp [Act.writes, entries, elements]

/-- **The footprint of a body without swaps** is that of its actions. -/
theorem body_within (hM : ∀ d, 0 < (f.factor d).M) (hC : 0 < f.C.M) (hp : p ≤ f.C.M)
    (os : List (Op (Cod n) (Act n))) (hswap : ∀ i, .act (.swap i) ∉ os) :
    Within (store R n p) ((cannonTP blas n p).effect os) f {l | ∃ a, .act a ∈ os ∧ l ∈ a.reads f}
      {l | ∃ a, .act a ∈ os ∧ l ∈ a.writes f} := by
  induction os generalizing f with
  | nil =>
    have hnone : ∀ F : Act n → Set (Loc n),
        {l | ∃ a : Act n, .act a ∈ ([] : List (Op (Cod n) (Act n))) ∧ l ∈ F a} = ∅ := by
      intro F
      ext l
      simp
    rw [hnone, hnone]
    exact Within.id f
  | cons o os ih =>
    have hswap' : ∀ i, .act (.swap i) ∉ os := fun i hi => hswap i (List.mem_cons_of_mem _ hi)
    by_cases ho : ∃ a, o = .act a
    · obtain ⟨a, rfl⟩ := ho
      have hone : Within (store R n p) (after blas a) f (a.reads f) (a.writes f) :=
        opMem_within hM hC hp a
      have hkeep : ∀ l ∉ a.writes f, agree l (after blas a f) f :=
        hone.frame f fun l _ => (store R n p).refl l f
      have hptr : ∀ i, agree (.pointers i) (after blas a f) f := fun i =>
        hkeep _ (pointers_not_written (fun j hj => hswap j (hj ▸ List.mem_cons_self ..)) i)
      have hsize : agree .sizes (after blas a f) f := hkeep _ (sizes_not_written a)
      have hfoot := footprint_congr hptr hsize
      have htail := ih (f := after blas a f) (fun d => (hsize.1 d).1 ▸ hM d) (hsize.2.1 ▸ hC)
        (hsize.2.1 ▸ hp) hswap'
      have hcons : ∀ F : Act n → Set (Loc n), {l | ∃ b : Act n, .act b ∈ .act a :: os ∧ l ∈ F b} =
          F a ∪ {l | ∃ b : Act n, .act b ∈ os ∧ l ∈ F b} := by
        intro F
        ext l
        simp
      rw [hcons, hcons]
      simp only [(hfoot _).1, (hfoot _).2] at htail
      exact hone.comp htail
    · have hid : (cannonTP blas n p).effect (o :: os) = (cannonTP blas n p).effect os := by
        funext m
        cases o with
        | act a => exact absurd ⟨a, rfl⟩ ho
        | decDep d | resetCodelet d => rfl
      have hcons : ∀ F : Act n → Set (Loc n), {l | ∃ b : Act n, .act b ∈ o :: os ∧ l ∈ F b} =
          {l | ∃ b : Act n, .act b ∈ os ∧ l ∈ F b} := by
        intro F
        ext l
        have hne : ∀ b, .act b ≠ o := fun b hb => ho ⟨b, hb.symm⟩
        simp [hne]
      rw [hid, hcons, hcons]
      exact ih hM hC hp hswap'

/-- The actions of a codelet other than the loop are those of its body. -/
theorem act_mem_fireBody {k : Cod n} (hk : k ≠ .loop) (a : Act n) :
    .act a ∈ fireBody k ↔ a.owner = k := by
  constructor
  · exact owner_of_mem
  · intro he
    subst he
    exact List.count_pos_iff.mp (by rw [count_owner hk]; exact Nat.one_pos)

/-- **A codelet depends on what it reads and changes what it writes**, no more. -/
theorem effect_within (hM : ∀ d, 0 < (f.factor d).M) (hC : 0 < f.C.M) (hp : p ≤ f.C.M) {k : Cod n}
    (hk : k ≠ .loop) :
    Within (store R n p) ((cannonTP blas n p).effect (fireBody k)) f (k.reads f) (k.writes f) := by
  have hswap : ∀ i, .act (.swap i) ∉ fireBody k := fun i hi => hk (owner_of_mem hi).symm
  have hwithin : Within (store R n p) ((cannonTP blas n p).effect (fireBody k)) f _ _ :=
    body_within hM hC hp (fireBody k) hswap
  simp only [act_mem_fireBody hk] at hwithin
  exact hwithin

end Body

/-! ## Stages -/

/-- The stage of the round protocol a codelet is scheduled in. -/
def phase : Cod n → Nat
  | .copyA _ | .copyB _ | .skew _ => 0
  | .compute _ => 1
  | .loop => 2
  | .copyC _ => 3
  | .endCodelet => 4

section Stage

variable [NeZero n] [CommRing R] {blas : Blas R} {a b : Nat → R}
  {s : State (Cod n) (Act n) (Frame R n p)}

omit [NeZero n] in
/-- A copy codelet that is scheduled has its skew codelet still to come. -/
private theorem skew_to_come (h : Ctl blas s) {d : Side} {i : Tile n} (hpool : 0 < s.pool (copy d i)) :
    s.pool (.skew i) = 0 ∧ s.fired (.skew i) = 0 := by
  have hle : s.pool (copy d i) + s.fired (copy d i) ≤ 1 :=
    h.early.fired_le_one (by cases d <;> trivial)
  by_contra hne
  have := (h.early.source_done (early_oneShot blas n p) (.skew i) (copy d i) trivial (by omega)
    (by cases d <;> simp [sources, copy])).1
  omega

/-- **Whatever is scheduled belongs to the stage.** -/
theorem Ctl.stage (h : Ctl blas s) {k : Cod n} (hpool : 0 < s.pool k) :
    Rounds.stage n (view s) = phase k := by
  have hskew : ∀ i, s.fired (.skew i) = 0 → Rounds.stage n (view s) = 0 := fun i hf =>
    Rounds.stage_first (i := i) (by simp [todo, hf, fireBody])
  cases k with
  | copyA i => exact hskew i (skew_to_come (d := .A) h hpool).2
  | copyB i => exact hskew i (skew_to_come (d := .B) h hpool).2
  | skew i =>
    have hle := h.early.fired_le_one (k := .skew i) trivial
    exact hskew i (by omega)
  | compute i => exact h.rounds.stage_worker (i := i) hpool
  | loop => exact h.rounds.stage_loop hpool
  | copyC i => exact h.rounds.stage_collector (i := i) hpool
  | endCodelet => exact h.rounds.stage_end hpool

omit [NeZero n] in
/-- In the first phase no tile has been swapped. -/
theorem Ctl.no_swaps (h : Ctl blas s) {k : Cod n} (hpool : 0 < s.pool k) (hk : phase k = 0)
    (j : Tile n) : swaps s j = 0 := by
  have hskew : ∀ i, s.fired (.skew i) = 0 → swaps s j = 0 := by
    intro i hf
    have hne : todo s (.skew i) ≠ [] := by simp [todo, hf, fireBody]
    rw [swaps, (h.opening hne).1, Nat.zero_sub]
  cases k with
  | copyA i => exact hskew i (skew_to_come (d := .A) h hpool).2
  | copyB i => exact hskew i (skew_to_come (d := .B) h hpool).2
  | skew i =>
    have hle := h.early.fired_le_one (k := .skew i) trivial
    exact hskew i (by omega)
  | compute i | loop | copyC i | endCodelet => simp [phase] at hk

/-! ## No conflicts -/

/-- The buffers an action reads, when the pointers have been swapped `r` times. -/
def Act.sources (r : Nat) : Act n → Set (Tile n × Nat)
  | .skewShift d i | .shift d i => {(i, readBuf d r)}
  | .multiply i => {(i, readBuf .A r), (i, readBuf .B r), (i, 4)}
  | .scatterC i => {(i, 4)}
  | .gather _ _ | .test | .swap _ | .incr | .continuation => ∅

omit [NeZero n] [CommRing R] in
private theorem mem_entries {i j : Tile n} {o z : Nat} (h : .mem i z ∈ entries p j o) :
    i = j ∧ ∃ w < p * p, z = o + w := by
  obtain ⟨w, hw, he⟩ := h
  obtain ⟨rfl, rfl⟩ := Loc.mem.inj he
  exact ⟨rfl, w, hw, rfl⟩

omit [NeZero n] [CommRing R] in
/-- An entry that is read lies in one of the action's sources. -/
theorem mem_reads {f : Frame R n p} {r : Nat} (hplaced : ∀ i, (f.allMatrices i).Placed r)
    {a : Act n} {i : Tile n} {z : Nat} (h : .mem i z ∈ a.reads f) :
    ∃ c, (i, c) ∈ a.sources r ∧ ∃ w < p * p, z = c * (p * p) + w := by
  have hread := fun i d => (hplaced i).read d
  have hA : ∀ i, (f.allMatrices i).tileA = readBuf .A r * (p * p) := fun i => hread i .A
  have hB : ∀ i, (f.allMatrices i).tileB = readBuf .B r * (p * p) := fun i => hread i .B
  cases a with
  | gather d j => simp [Act.reads, elements] at h
  | test | swap j | incr | continuation => simp [Act.reads] at h
  | skewShift d j | shift d j =>
    rcases h with h | h
    · simp at h
    · rw [hread] at h
      obtain ⟨rfl, w⟩ := mem_entries h
      exact ⟨_, rfl, w⟩
  | scatterC j =>
    rcases h with h | h
    · simp at h
    · obtain ⟨rfl, w⟩ := mem_entries h
      exact ⟨4, rfl, w⟩
  | multiply j =>
    rcases h with h | h | h | h
    · simp at h
    · rw [hA] at h
      obtain ⟨rfl, w⟩ := mem_entries h
      exact ⟨_, Or.inl rfl, w⟩
    · rw [hB] at h
      obtain ⟨rfl, w⟩ := mem_entries h
      exact ⟨_, Or.inr (Or.inl rfl), w⟩
    · obtain ⟨rfl, w⟩ := mem_entries h
      exact ⟨4, Or.inr (Or.inr rfl), w⟩

omit [NeZero n] [CommRing R] in
/-- An entry that is written lies in the action's target. -/
theorem mem_writes {f : Frame R n p} {r : Nat} (hplaced : ∀ i, (f.allMatrices i).Placed r)
    {a : Act n} {i : Tile n} {z : Nat} (h : .mem i z ∈ a.writes f) :
    ∃ c, a.target = some i ∧ a.buffer r = some c ∧ ∃ w < p * p, z = c * (p * p) + w := by
  have hread := fun i d => (hplaced i).read d
  have hwrite := fun i d => (hplaced i).write d
  cases a with
  | gather d j =>
    rw [Act.writes, hread] at h
    obtain ⟨rfl, w⟩ := mem_entries h
    exact ⟨_, rfl, rfl, w⟩
  | skewShift d j | shift d j =>
    rw [Act.writes, hwrite] at h
    obtain ⟨rfl, w⟩ := mem_entries h
    exact ⟨_, rfl, rfl, w⟩
  | multiply j =>
    obtain ⟨rfl, w⟩ := mem_entries h
    exact ⟨4, rfl, rfl, w⟩
  | scatterC j => simp [Act.writes, elements] at h
  | test | swap j | incr | continuation => simp [Act.writes] at h

omit [NeZero n] [CommRing R] in
/-- Only the copies back write to `C`. -/
theorem mem_writes_C {f : Frame R n p} {a : Act n} {z : Nat} (h : .C z ∈ a.writes f) :
    ∃ i, a = .scatterC i ∧ ∃ u v, u < p ∧ v < p ∧
      z = initialIndex n f.C.M p i + u * f.C.M + v := by
  cases a with
  | scatterC i =>
    obtain ⟨u, v, hu, hv, he⟩ := h
    exact ⟨i, rfl, u, v, hu, hv, Loc.C.inj he⟩
  | gather d i | skewShift d i | multiply i | shift d i => simp [Act.writes, entries] at h
  | test | swap i | incr | continuation => simp [Act.writes] at h

omit [CommRing R] in
/-- **Buffers of different codelets do not meet**: what one writes the other neither
reads nor writes. -/
theorem buffers_apart {x y : Act n} {r : Nat} {i : Tile n} {c : Nat}
    (hphase : phase x.owner = phase y.owner) (hne : x.owner ≠ y.owner)
    (hloop : phase x.owner ≠ 2)
    (hcopy : ∀ d i, x = .gather d i → ∀ d', y ≠ .skewShift d' i)
    (htarget : x.target = some i) (hbuf : x.buffer r = some c) :
    (i, c) ∉ y.sources r ∧ ¬(y.target = some i ∧ y.buffer r = some c) := by
  cases x with
  | scatterC j | test | swap j | incr | continuation => simp [Act.buffer] at hbuf
  | gather d j =>
    obtain rfl := Option.some.inj htarget
    obtain rfl := Option.some.inj hbuf
    have hx : phase (Act.gather d j).owner = 0 := by cases d <;> rfl
    rw [hx] at hphase
    cases y with
    | gather d' u =>
      refine ⟨by simp [Act.sources], ?_⟩
      intro hboth
      obtain ⟨hu, hb⟩ := hboth
      obtain rfl := Option.some.inj hu
      obtain rfl := readBuf_inj (Option.some.inj hb)
      exact hne rfl
    | skewShift d' u =>
      refine ⟨?_, ?_⟩
      · intro hu
        obtain ⟨rfl, -⟩ := Prod.mk.inj hu
        exact hcopy d j rfl d' rfl
      · intro hboth
        obtain ⟨-, hb⟩ := hboth
        exact readBuf_ne_writeBuf d d' r (Option.some.inj hb).symm
    | scatterC u | test | swap u | incr | continuation | multiply u | shift d' u =>
      simp [Act.owner, phase] at hphase
  | skewShift d j =>
    obtain rfl := Option.some.inj htarget
    obtain rfl := Option.some.inj hbuf
    cases y with
    | gather d' u =>
      refine ⟨by simp [Act.sources], ?_⟩
      intro hboth
      obtain ⟨-, hb⟩ := hboth
      exact readBuf_ne_writeBuf d' d r (Option.some.inj hb)
    | skewShift d' u =>
      refine ⟨?_, ?_⟩
      · intro hu
        exact readBuf_ne_writeBuf d' d r (Prod.mk.inj hu).2.symm
      · intro hboth
        obtain ⟨hu, hb⟩ := hboth
        obtain rfl := writeBuf_inj (Option.some.inj hb)
        obtain rfl := d'.dest_bijective.injective (Option.some.inj hu)
        exact hne rfl
    | scatterC u | test | swap u | incr | continuation | multiply u | shift d' u =>
      simp [Act.owner, phase] at hphase
  | multiply j =>
    obtain rfl := Option.some.inj htarget
    obtain rfl := Option.some.inj hbuf
    cases y with
    | multiply u =>
      refine ⟨?_, ?_⟩
      · intro hu
        have hju : j = u := by
          rcases hu with hu | hu | hu <;> exact (Prod.mk.inj hu).1
        exact hne (hju ▸ rfl)
      · intro hboth
        obtain ⟨hu, -⟩ := hboth
        obtain rfl := Option.some.inj hu
        exact hne rfl
    | shift d' u =>
      refine ⟨?_, ?_⟩
      · intro hu
        have h4 : 4 = readBuf d' r := (Prod.mk.inj hu).2
        have := readBuf_lt d' r
        omega
      · intro hboth
        obtain ⟨-, hb⟩ := hboth
        have h4 : writeBuf d' r = 4 := Option.some.inj hb
        have := writeBuf_lt d' r
        omega
    | gather d' u => cases d' <;> simp [Act.owner, phase] at hphase
    | scatterC u | test | swap u | incr | continuation | skewShift d' u =>
      simp [Act.owner, phase] at hphase
  | shift d j =>
    obtain rfl := Option.some.inj htarget
    obtain rfl := Option.some.inj hbuf
    cases y with
    | multiply u =>
      refine ⟨?_, ?_⟩
      · intro hu
        rcases hu with hu | hu | hu
        · exact readBuf_ne_writeBuf .A d r (Prod.mk.inj hu).2.symm
        · exact readBuf_ne_writeBuf .B d r (Prod.mk.inj hu).2.symm
        · have h4 : writeBuf d r = 4 := (Prod.mk.inj hu).2
          have := writeBuf_lt d r
          omega
      · intro hboth
        obtain ⟨-, hb⟩ := hboth
        have h4 : 4 = writeBuf d r := Option.some.inj hb
        have := writeBuf_lt d r
        omega
    | shift d' u =>
      refine ⟨?_, ?_⟩
      · intro hu
        exact readBuf_ne_writeBuf d' d r (Prod.mk.inj hu).2.symm
      · intro hboth
        obtain ⟨hu, hb⟩ := hboth
        obtain rfl := writeBuf_inj (Option.some.inj hb)
        obtain rfl := d'.next_bijective.injective (Option.some.inj hu)
        exact hne rfl
    | gather d' u => cases d' <;> simp [Act.owner, phase] at hphase
    | scatterC u | test | swap u | incr | continuation | skewShift d' u =>
      simp [Act.owner, phase] at hphase

/-- In the first phase and while the tiles compute, all tiles have been swapped equally
often. -/
theorem Data.placed_all (h : Data a b s) (hc : Ctl blas s) {k : Cod n} (hpool : 0 < s.pool k)
    (hk : phase k < 2) : ∃ r, ∀ i, (s.mem.allMatrices i).Placed r := by
  by_cases hzero : phase k = 0
  · refine ⟨0, fun i => ?_⟩
    have := h.placed i
    rwa [hc.no_swaps hpool hzero i] at this
  · obtain ⟨j, rfl⟩ : ∃ j, k = .compute j := by
      cases k <;> simp [phase] at hk hzero
      exact ⟨_, rfl⟩
    obtain ⟨-, -, hswaps, -⟩ := hc.computing (Or.inl hpool)
    refine ⟨Rounds.rounds (view s), fun i => ?_⟩
    have := h.placed i
    rwa [hswaps i] at this

/-- **What one scheduled codelet writes, no other reads or writes.** -/
theorem Data.no_conflict (h : Data a b s) (hc : Ctl blas s) {k k' : Cod n} (hne : k ≠ k')
    (hk : 0 < s.pool k) (hk' : 0 < s.pool k') :
    Disjoint (k.writes s.mem) (k'.reads s.mem ∪ k'.writes s.mem) := by
  have hphase : phase k = phase k' := (hc.stage hk).symm.trans (hc.stage hk')
  have hloop : phase k ≠ 2 := by
    intro h2
    have h2' := hphase ▸ h2
    cases k <;> simp [phase] at h2
    cases k' <;> simp [phase] at h2'
    exact hne rfl
  have hend : phase k ≠ 4 := by
    intro h4
    have h4' := hphase ▸ h4
    cases k <;> simp [phase] at h4
    cases k' <;> simp [phase] at h4'
    exact hne rfl
  refine Set.disjoint_left.mpr ?_
  rintro l ⟨x, rfl, hx⟩ hl
  cases l with
  | elem d z | sizes => cases x <;> simp [Act.writes, entries, elements] at hx
  | pointers i =>
    have hswap : ∃ j, x = .swap j := by
      by_contra hno
      exact pointers_not_written (fun j hj => hno ⟨j, hj⟩) i hx
    obtain ⟨j, rfl⟩ := hswap
    exact hloop rfl
  | curIterations =>
    cases x <;> simp [Act.writes, entries, elements] at hx
    exact hloop rfl
  | continuations =>
    cases x <;> simp [Act.writes, entries, elements] at hx
    exact hend rfl
  | C z =>
    -- only the copies back write to `C`, each to its own tile
    obtain ⟨i, rfl, u, v, hu, hv, hz⟩ := mem_writes_C hx
    rcases hl with ⟨y, rfl, hy⟩ | ⟨y, rfl, hy⟩
    · cases y <;> simp [Act.reads, entries, elements] at hy
    · obtain ⟨j, rfl, u', v', hu', hv', hz'⟩ := mem_writes_C hy
      rw [h.C_dim] at hz hz'
      exact hne (congrArg Cod.copyC (entry_inj hu hv hu' hv' (hz.symm.trans hz')).1)
  | mem i z =>
    have hlow : phase x.owner < 2 := by
      cases x with
      | gather d j => cases d <;> simp [Act.owner, phase]
      | skewShift d j | multiply j | shift d j => simp [Act.owner, phase]
      | scatterC j | test | swap j | incr | continuation =>
        simp [Act.writes, elements] at hx
    obtain ⟨r, hplaced⟩ := h.placed_all hc hk hlow
    obtain ⟨c, htarget, hbuf, w, hw, rfl⟩ := mem_writes hplaced hx
    have apart : ∀ y : Act n, y.owner = k' →
        (i, c) ∉ y.sources r ∧ ¬(y.target = some i ∧ y.buffer r = some c) := by
      rintro y rfl
      refine buffers_apart hphase hne hloop ?_ htarget hbuf
      -- a block is not skewed while it is still to be copied in
      rintro d j rfl d' rfl
      have hcopy : 0 < s.pool (copy d j) := by cases d <;> exact hk
      have hskew : 0 < s.pool (.skew j) := hk'
      have := (skew_to_come hc hcopy).1
      omega
    rcases hl with ⟨y, hy, hl⟩ | ⟨y, hy, hl⟩
    · obtain ⟨c', hsrc, w', hw', he⟩ := mem_reads hplaced hl
      obtain rfl := (RowMajor.inj hw hw' he).1
      exact (apart y hy).1 hsrc
    · obtain ⟨c', htarget', hbuf', w', hw', he⟩ := mem_writes hplaced hl
      obtain rfl := (RowMajor.inj hw hw' he).1
      exact (apart y hy).2 ⟨htarget', hbuf'⟩

/-! ## Either order -/

omit [NeZero n] in
/-- What a codelet other than the loop fires is written out in its body. -/
theorem plain_fireBody {k : Cod n} (hk : k ≠ .loop) : (cannonTP blas n p).Plain (fireBody k) := by
  intro x hx m
  obtain ⟨⟨m', os⟩, hexec⟩ := Option.ne_none_iff_exists'.mp (exec_ne_none blas x m)
  have hnew := exec_rest hexec
  rw [if_neg] at hnew
  · exact ⟨m', hnew ▸ hexec⟩
  · intro he
    subst he
    exact hk (owner_of_mem hx).symm

omit [NeZero n] in
/-- **No scheduled codelet signals another.** -/
theorem Ctl.no_signal (h : Ctl blas s) {k k' : Cod n} (hk : 0 < s.pool k) (hk' : 0 < s.pool k')
    (hphase : phase k = phase k') : .decDep k' ∉ fireBody k := by
  intro hmem
  cases k <;> simp [fireBody] at hmem <;> subst hmem
  case copyA i =>
    have := (skew_to_come (d := .A) h hk).1
    omega
  case copyB i =>
    have := (skew_to_come (d := .B) h hk).1
    omega
  case copyC i | skew i | compute i => simp [phase] at hphase

omit [NeZero n] [CommRing R] in
/-- A codelet resets its own counter only. -/
private theorem counters_apart {k k' : Cod n} (h : .decDep k' ∉ fireBody k)
    (h' : .decDep k ∉ fireBody k') :
    ∀ o ∈ fireBody k, ∀ o' ∈ fireBody k', Program.Apart o o' := by
  have own : ∀ {k d : Cod n}, .resetCodelet d ∈ fireBody k → d = k := by
    intro k d hd
    cases k <;> simp [fireBody] at hd <;> exact hd
  intro o ho o' ho'
  cases o <;> cases o' <;> simp only [Program.Apart]
  case decDep.resetCodelet d d' =>
    intro he
    subst he
    obtain rfl := own ho'
    exact h ho
  case resetCodelet.decDep d d' =>
    intro he
    subst he
    obtain rfl := own ho
    exact h' ho'

end Stage

variable [CommRing R]

/-- **Ready codelets of the double-buffered program never conflict**: neither writes
anything the other reads or writes, and fired in either order they lead to the same
state, with the same codelets scheduled in it. -/
theorem ready_codelets_independent (blas : Blas R) (hn : 0 < n) (hp : 0 < p) (a b c : Nat → R)
    {s : State (Cod n) (Act n) (Frame R n p)}
    (hs : Reachable (cannonTP blas n p).step (launched n p a b c) s) {k k' : Cod n} (hne : k ≠ k')
    (hk : 0 < s.pool k) (hk' : 0 < s.pool k') :
    Disjoint (k.writes s.mem) (k'.reads s.mem ∪ k'.writes s.mem) ∧
    Disjoint (k'.writes s.mem) (k.reads s.mem ∪ k.writes s.mem) ∧
    ∃ t t' u, (∀ x, (cannonTP blas n p).Fires s k x ↔ x = t) ∧
      (∀ x, (cannonTP blas n p).Fires t k' x ↔ x = u) ∧
      (∀ x, (cannonTP blas n p).Fires s k' x ↔ x = t') ∧
      ∀ x, (cannonTP blas n p).Fires t' k x ↔ x = u := by
  have : NeZero n := ⟨Nat.pos_iff_ne_zero.mp hn⟩
  have hc := Ctl.reachable hs
  have h : Data a b s := Data.reachable hs
  have hphase : phase k = phase k' := (hc.stage hk).symm.trans (hc.stage hk')
  have hloop : ∀ {k k' : Cod n}, k ≠ k' → phase k = phase k' → k ≠ .loop := by
    rintro k k' hne hphase rfl
    cases k' <;> simp [phase] at hphase
    exact hne rfl
  have hl := hloop hne hphase
  have hl' := hloop hne.symm hphase.symm
  have hdec := hc.no_signal hk hk' hphase
  have hdec' := hc.no_signal hk' hk hphase.symm
  have hconf := h.no_conflict hc hne hk hk'
  have hconf' := h.no_conflict hc hne.symm hk' hk
  have hM := fun d => h.factor_pos d hp
  have hC : 0 < s.mem.C.M := by
    rw [h.C_dim]
    exact Nat.mul_pos hn hp
  have hCp : p ≤ s.mem.C.M := by
    rw [h.C_dim]
    exact Nat.le_mul_of_pos_left p hn
  have hmem : (cannonTP blas n p).effect (fireBody k') ((cannonTP blas n p).effect (fireBody k) s.mem) =
      (cannonTP blas n p).effect (fireBody k) ((cannonTP blas n p).effect (fireBody k') s.mem) :=
    (effect_within hM hC hCp hl').comm (effect_within hM hC hCp hl) ⟨hconf', hconf⟩
  have hcomm : (cannonTP blas n p).fireAll ((cannonTP blas n p).fireAll s k) k' =
      (cannonTP blas n p).fireAll ((cannonTP blas n p).fireAll s k') k :=
    Program.fireAll_comm hne hdec hdec' (counters_apart hdec hdec') hmem
  -- a firing that has not begun has nothing left
  have hrest : ∀ k, s.rest k (s.fired k) = [] := by
    intro k
    by_contra hne
    have := hc.single k _ hne
    omega
  have after : ∀ {k k' : Cod n}, k ≠ k' → 0 < s.pool k' → k' ≠ .loop →
      ∀ x, (cannonTP blas n p).Fires ((cannonTP blas n p).fireAll s k) k' x ↔
        x = (cannonTP blas n p).fireAll ((cannonTP blas n p).fireAll s k) k' := by
    intro k k' hne hpool hk' x
    refine Program.fires_iff ?_ ?_ (plain_fireBody hk')
    · exact Nat.lt_of_lt_of_le hpool (Program.le_fireAll_pool _ s hne)
    · rw [Program.fireAll_rest, Program.fireAll_fired, Function.update_of_ne hne.symm]
      exact hrest k'
  refine ⟨hconf, hconf', _, _, _, fun x => Program.fires_iff hk (hrest k) (plain_fireBody hl),
    after hne hk' hl', fun x => Program.fires_iff hk' (hrest k') (plain_fireBody hl'), fun x => ?_⟩
  rw [after hne.symm hk hl, hcomm]

/-- Four tiles, when one copy has been made: the two copies of the next tile. -/
theorem ready_codelets_independent_two :
    ∃ s, run (cannonTP (Blas.reference ℤ) 2 1).step
        (launched 2 1 (fun z => (z : ℤ)) (fun z => (z : ℤ)) fun _ => 0)
        [.fire (.copyA 0), .op (.copyA 0) 0, .op (.copyA 0) 0] = some s ∧
      Disjoint ((Cod.copyA (1 : Tile 2)).writes s.mem)
        ((Cod.copyB (1 : Tile 2)).reads s.mem ∪ (Cod.copyB (1 : Tile 2)).writes s.mem) ∧
      ∃ t t' u, (cannonTP (Blas.reference ℤ) 2 1).Fires s (.copyA 1) t ∧
        (cannonTP (Blas.reference ℤ) 2 1).Fires t (.copyB 1) u ∧
        (cannonTP (Blas.reference ℤ) 2 1).Fires s (.copyB 1) t' ∧
        (cannonTP (Blas.reference ℤ) 2 1).Fires t' (.copyA 1) u := by
  obtain ⟨s, hs, hA, hB⟩ : ∃ s, run (cannonTP (Blas.reference ℤ) 2 1).step
        (launched 2 1 (fun z => (z : ℤ)) (fun z => (z : ℤ)) fun _ => 0)
        [.fire (.copyA 0), .op (.copyA 0) 0, .op (.copyA 0) 0] = some s ∧
      0 < s.pool (.copyA 1) ∧ 0 < s.pool (.copyB 1) := ⟨_, rfl, by decide, by decide⟩
  obtain ⟨hapart, -, t, t', u, ht, hu, ht', hu'⟩ := ready_codelets_independent (Blas.reference ℤ)
    (by decide : 0 < 2) (by decide : 0 < 1) _ _ _ (.of_run hs)
    (by decide : Cod.copyA (1 : Tile 2) ≠ .copyB 1) hA hB
  exact ⟨s, hs, hapart, t, t', u, (ht t).mpr rfl, (hu u).mpr rfl, (ht' t').mpr rfl, (hu' u).mpr rfl⟩
end Darts.CannonDouble
