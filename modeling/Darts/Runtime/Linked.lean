import Mathlib.Data.Fintype.BigOperators
import Mathlib.Data.Fintype.Prod
import Darts.Lib.Places
import Darts.Lib.Suffix
import Darts.Runtime.Startup

/-!
# Nobody starts before everything is linked

`Inv` says what has been written once a statement has been executed: the counters are the
numbers of threads that still have to decrement them, an object and its table entries are
there once its thread has executed `newSched`, and so on. Thread 0 passes `checkTP` and
`checkMC` only when every other thread has prepared its object, links, and decrements
`fullcount_` last; the others pass `spin` only when all have decremented it. So whoever is
through finds the runtime complete (`startup_linked`). That everybody does get through is
`startup_progress`.
-/

namespace Darts.Startup

open Transition Word

variable {rt : Runtime} {s s' t : State rt.numTPSched_ rt.numMCSched_} {th : RtThread rt}
  {x : Stmt}

/-! ## What a statement changes -/

/-- The entry of `TPSched_` or `MCSched_` that belongs to a thread. -/
def slotOf (s : State rt.numTPSched_ rt.numMCSched_) : RtThread rt → Option (RtThread rt)
  | .tp i => s.TPSched_ i
  | .mc i j => s.MCSched_ (rt.worker i j)

theorem slotOf_congr (hTP : s'.TPSched_ = s.TPSched_) (hMC : s'.MCSched_ = s.MCSched_)
    (th : RtThread rt) : slotOf s' th = slotOf s th := by
  match th with
  | .tp i => exact congrFun hTP i
  | .mc i j => exact congrFun hMC (rt.worker i j)

/-- Linking changes objects only. -/
theorem linkTPSched_same (h : linkTPSched rt s = some s') : SameTables s s' := by
  have main := CLoop.forStep_nested_rule rt.numTPSched_ rt.numTPSched_
    (fun i j s => s.bind fun s : State rt.numTPSched_ rt.numMCSched_ => s.addPeer i j) (some s)
    (fun _ _ u => ∀ t, u = some t → SameTables s t)
    (fun t ht => Option.some.inj ht ▸ .refl s)
    (fun i j u _ _ hu t ht => by
      obtain ⟨v, rfl, hv⟩ := Option.bind_eq_some_iff.mp ht
      obtain ⟨p, -, hp⟩ := Option.bind_eq_some_iff.mp hv
      obtain ⟨o, -, ho⟩ := Option.bind_eq_some_iff.mp hp
      obtain ⟨peers, -, rfl⟩ := Option.map_eq_some_iff.mp ho
      exact (hu v rfl).setObj _ _)
    (fun i u _ hu => hu)
  exact main s' h

theorem linkMCSched_same (h : linkMCSched rt s = some s') : SameTables s s' := by
  have main := CLoop.forStep_nested_rule rt.numTPSched_ rt.numMCSched_
    (fun i j s => s.bind fun s : State rt.numTPSched_ rt.numMCSched_ =>
      (s.setSubScheduler i (rt.worker i j)).bind fun s => s.setParentScheduler i (rt.worker i j))
    (some s) (fun _ _ u => ∀ t, u = some t → SameTables s t)
    (fun t ht => Option.some.inj ht ▸ .refl s)
    (fun i j u _ _ hu t ht => by
      obtain ⟨v, rfl, hv⟩ := Option.bind_eq_some_iff.mp ht
      obtain ⟨w, hw, hv⟩ := Option.bind_eq_some_iff.mp hv
      obtain ⟨p, -, hp⟩ := Option.bind_eq_some_iff.mp hw
      obtain ⟨o, -, rfl⟩ := Option.map_eq_some_iff.mp hp
      obtain ⟨q, -, hq⟩ := Option.bind_eq_some_iff.mp hv
      obtain ⟨o', -, rfl⟩ := Option.map_eq_some_iff.mp hq
      exact ((hu v rfl).setObj _ _).setObj _ _)
    (fun i u _ hu => hu)
  exact main s' h

/-- A link loop changes no counter and no flag. -/
private theorem SameTables.counts (h : SameTables s s') : s'.tpcount_ = s.tpcount_ ∧
    s'.mccount_ = s.mccount_ ∧ s'.fullcount_ = s.fullcount_ ∧ s'.spin_ = s.spin_ ∧
    s'.wasOne = s.wasOne := by
  rw [h]
  exact ⟨rfl, rfl, rfl, rfl, rfl⟩

/-- The counters and flags after a statement. -/
structure CountStep (s : State rt.numTPSched_ rt.numMCSched_) (th : RtThread rt) (x : Stmt)
    (s' : State rt.numTPSched_ rt.numMCSched_) : Prop where
  tpcount : s'.tpcount_ = if x = .decTP then fetchSub s.tpcount_ else s.tpcount_
  mccount : s'.mccount_ = if x = .decMC then fetchSub s.mccount_ else s.mccount_
  fullcount : s'.fullcount_ = if x = .decFull then fetchSub s.fullcount_ else s.fullcount_
  spin : s'.spin_ = if x = .clearSpin ∧ s.wasOne th = true then false else s.spin_
  wasOne : s'.wasOne =
    if x = .decFull then Function.update s.wasOne th (s.fullcount_ == 1) else s.wasOne
  checkTP : x = .checkTP → s.tpcount_ = 0
  checkMC : x = .checkMC → s.mccount_ = 0
  waited : x = .spin → s.spin_ = false

theorem exec_counts (h : exec rt th s x = some s') : CountStep s th x s' := by
  cases x with
  | newSched =>
    rcases th with i | ⟨i, j⟩
    · obtain rfl := Option.some.inj h
      constructor <;> simp [State.setObj]
    · obtain rfl := Option.some.inj h
      constructor <;> simp [State.setObj]
  | setID | setNumPeers =>
    obtain ⟨o, -, rfl⟩ := Option.map_eq_some_iff.mp h
    constructor <;> simp [State.setObj]
  | addAliveSignal =>
    simp only [exec] at h
    split at h
    next =>
      obtain rfl := Option.some.inj h
      constructor <;> simp
    next => cases h
  | decTP | decMC | decFull =>
    obtain rfl := Option.some.inj h
    constructor <;> simp
  | checkTP | checkMC =>
    simp only [exec] at h
    split at h
    next hz =>
      obtain rfl := Option.some.inj h
      constructor <;> simp [hz]
    next => cases h
  | linkTPSched =>
    have hsame := SameTables.counts (linkTPSched_same h)
    constructor <;> simp [hsame]
  | linkMCSched =>
    have hsame := SameTables.counts (linkMCSched_same h)
    constructor <;> simp [hsame]
  | clearSpin =>
    obtain rfl := Option.some.inj h
    cases hw : s.wasOne th <;> constructor <;> simp [hw]
  | spin =>
    simp only [exec] at h
    split at h
    next => cases h
    next hs =>
      obtain rfl := Option.some.inj h
      constructor <;> simp [hs]
  | setThread =>
    obtain ⟨o, -, rfl⟩ := Option.map_eq_some_iff.mp h
    rcases th with i | ⟨i, j⟩
    · constructor <;> simp
    · constructor <;> simp

/-- The tables after a statement. -/
structure TableStep (s : State rt.numTPSched_ rt.numMCSched_) (th : RtThread rt) (x : Stmt)
    (s' : State rt.numTPSched_ rt.numMCSched_) : Prop where
  slot : ∀ th', slotOf s' th' = if x = .newSched ∧ th' = th then some th else slotOf s th'
  alive : s'.aliveSig = if x = .addAliveSignal then
    Function.update s.aliveSig (threadId rt th) (some th) else s.aliveSig
  rest : s'.rest = s.rest
  own : x ≠ .setThread → s'.threadTPsched = s.threadTPsched ∧ s'.threadMCsched = s.threadMCsched

/-- A statement that writes none of the tables. -/
theorem TableStep.kept (hnew : x ≠ .newSched) (hadd : x ≠ .addAliveSignal)
    (hTP : s'.TPSched_ = s.TPSched_) (hMC : s'.MCSched_ = s.MCSched_)
    (halive : s'.aliveSig = s.aliveSig) (hrest : s'.rest = s.rest)
    (hown : x ≠ .setThread → s'.threadTPsched = s.threadTPsched ∧ s'.threadMCsched = s.threadMCsched) :
    TableStep s th x s' where
  slot th' := by
    rw [if_neg fun h => hnew h.1]
    exact slotOf_congr hTP hMC th'
  alive := by rw [if_neg hadd, halive]
  rest := hrest
  own := hown

theorem exec_tables (h : exec rt th s x = some s') : TableStep s th x s' := by
  cases x with
  | newSched =>
    rcases th with i | ⟨i, j⟩
    · obtain rfl := Option.some.inj h
      refine ⟨fun th' => ?_, by simp [State.setObj], rfl, fun _ => ⟨rfl, rfl⟩⟩
      rcases th' with i' | ⟨i', j'⟩
      · by_cases hi : i' = i
        · subst hi
          simp [slotOf]
        · have hv : (i' : Nat) ≠ i := fun hc => hi (Fin.ext hc)
          simp [slotOf, hi, hv, State.setObj]
      · simp [slotOf, State.setObj]
    · obtain rfl := Option.some.inj h
      refine ⟨fun th' => ?_, by simp [State.setObj], rfl, fun _ => ⟨rfl, rfl⟩⟩
      rcases th' with i' | ⟨i', j'⟩
      · simp [slotOf, State.setObj]
      · -- different workers have different entries
        by_cases hw : rt.worker i' j' = rt.worker i j
        · obtain ⟨rfl, rfl⟩ := worker_injective hw
          simp [slotOf]
        · have hne : ¬(i' = i ∧ j' = j) := fun hc => hw (by rw [hc.1, hc.2])
          simp [slotOf, hw, hne, State.setObj]
  | setID | setNumPeers =>
    obtain ⟨o, -, rfl⟩ := Option.map_eq_some_iff.mp h
    exact .kept (by simp) (by simp) rfl rfl rfl rfl fun _ => ⟨rfl, rfl⟩
  | addAliveSignal =>
    simp only [exec] at h
    split at h
    next =>
      obtain rfl := Option.some.inj h
      exact ⟨fun th' => by rw [if_neg (by simp)]; exact slotOf_congr rfl rfl th', by simp, rfl,
        fun _ => ⟨rfl, rfl⟩⟩
    next => cases h
  | decTP | decMC | decFull =>
    obtain rfl := Option.some.inj h
    exact .kept (by simp) (by simp) rfl rfl rfl rfl fun _ => ⟨rfl, rfl⟩
  | checkTP | checkMC | spin =>
    simp only [exec] at h
    split at h
    all_goals
      first
      | obtain rfl := Option.some.inj h
        exact .kept (by simp) (by simp) rfl rfl rfl rfl fun _ => ⟨rfl, rfl⟩
      | cases h
  | linkTPSched =>
    have hsame : SameTables s s' := linkTPSched_same h
    exact .kept (by simp) (by simp) hsame.TPSched_eq hsame.MCSched_eq (by rw [hsame]) (by rw [hsame])
      fun _ => by rw [hsame]; exact ⟨rfl, rfl⟩
  | linkMCSched =>
    have hsame : SameTables s s' := linkMCSched_same h
    exact .kept (by simp) (by simp) hsame.TPSched_eq hsame.MCSched_eq (by rw [hsame]) (by rw [hsame])
      fun _ => by rw [hsame]; exact ⟨rfl, rfl⟩
  | clearSpin =>
    cases hw : s.wasOne th with
    | false =>
      obtain rfl : s = s' := by simpa [exec, hw] using h
      exact .kept (by simp) (by simp) rfl rfl rfl rfl fun _ => ⟨rfl, rfl⟩
    | true =>
      obtain rfl : { s with spin_ := false } = s' := by simpa [exec, hw] using h
      exact .kept (by simp) (by simp) rfl rfl rfl rfl fun _ => ⟨rfl, rfl⟩
  | setThread =>
    obtain ⟨o, -, rfl⟩ := Option.map_eq_some_iff.mp h
    rcases th with i | ⟨i, j⟩ <;>
      exact .kept (by simp) (by simp) rfl rfl rfl rfl fun hne => absurd rfl hne

/-- A step is one statement of one thread. -/
theorem step_inv (h : step rt s th = some t) : ∃ x xs s', s.rest th = x :: xs ∧
    exec rt th s x = some s' ∧ t = { s' with rest := Function.update s.rest th xs } := by
  unfold step at h
  split at h
  next => cases h
  next x xs hrest =>
    obtain ⟨s', hs', rfl⟩ := Option.map_eq_some_iff.mp h
    exact ⟨x, xs, s', hrest, hs', rfl⟩

/-! ## The order of the statements -/

/-- Thread 0. -/
def first (rt : Runtime) : Fin rt.numTPSched_ := ⟨0, rt.clusters⟩

/-- `y` comes after the only occurrence of `x`. -/
def Before (x y : Stmt) (L : List Stmt) : Prop :=
  x ∉ L.drop (L.idxOf x + 1) ∧ y ∈ L.drop (L.idxOf x + 1)

instance (x y : Stmt) (L : List Stmt) : Decidable (Before x y L) :=
  inferInstanceAs (Decidable (_ ∧ _))

/-- Every TP thread runs one of the two functions. -/
theorem program_tp {P : List Stmt → Prop} (h0 : P TPThread0) (h : P TPThread)
    (i : Fin rt.numTPSched_) : P (program (.tp i : RtThread rt)) := by
  unfold program
  dsimp only
  split
  · exact h0
  · exact h

theorem nodup_program (th : RtThread rt) : (program th).Nodup := by
  match th with
  | .tp i => exact program_tp (by decide) (by decide) i
  | .mc i j => exact (by decide : MCThread.Nodup)

/-- Only thread 0 links. -/
theorem eq_first (h : .linkTPSched ∈ program th ∨ .linkMCSched ∈ program th ∨
    .checkTP ∈ program th ∨ .checkMC ∈ program th) : th = .tp (first rt) := by
  match th with
  | .tp i =>
    have hi : i.val = 0 := by
      by_contra hne
      simp [program, hne, TPThread] at h
    obtain rfl : i = first rt := Fin.ext hi
    rfl
  | .mc i j => simp [program, MCThread] at h

/-! ## The counters -/

/-- How many threads have still to execute `x`. -/
def remaining (s : State rt.numTPSched_ rt.numMCSched_) (x : Stmt) : Nat :=
  ∑ th, (s.rest th).count x

theorem remaining_eq_zero : remaining s x = 0 ↔ ∀ th, x ∉ s.rest th := by
  unfold remaining
  simp only [Finset.sum_eq_zero_iff, Finset.mem_univ, true_implies, List.count_eq_zero]

/-- A thread executes one statement. -/
theorem remaining_step {xs : List Stmt} (hrest : s.rest th = x :: xs)
    (ht : t.rest = Function.update s.rest th xs) (y : Stmt) :
    remaining s y = remaining t y + if x = y then 1 else 0 := by
  have hholds : Places.Holds t.rest (remaining t) := fun _ => rfl
  refine (hholds.add (q := th) (x := x) ?_ fun r hr => ?_) y
  · rw [hrest, ht, Function.update_self]
  · rw [ht, Function.update_of_ne hr]

/-- Where the statements are after a step. -/
theorem mem_rest {xs : List Stmt} (hrest : s.rest th = x :: xs)
    (ht : t.rest = Function.update s.rest th xs) {y : Stmt} {th' : RtThread rt}
    (hne : y ≠ x ∨ th' ≠ th) : y ∈ t.rest th' ↔ y ∈ s.rest th' := by
  rw [ht]
  by_cases hth : th' = th
  · subst hth
    rw [Function.update_self, hrest, List.mem_cons, or_iff_right (hne.resolve_right fun h => h rfl)]
  · rw [Function.update_of_ne hth]

/-- The counters are what the threads have still to do, and the flags are down only when
nobody has still to decrement `fullcount_`. -/
structure Counts (s : State rt.numTPSched_ rt.numMCSched_) : Prop where
  suffix : ∀ th, s.rest th <:+ program th
  tpcount : s.tpcount_ = remaining s .decTP
  mccount : s.mccount_ = remaining s .decMC
  fullcount : s.fullcount_ = remaining s .decFull
  checkedTP : .checkTP ∉ s.rest (.tp (first rt)) → remaining s .decTP = 0
  checkedMC : .checkMC ∉ s.rest (.tp (first rt)) → remaining s .decMC = 0
  spun : s.spin_ = false → remaining s .decFull = 0
  waited : ∀ th, .spin ∈ program th → .spin ∉ s.rest th → remaining s .decFull = 0
  wasOne : ∀ th, s.wasOne th = true → remaining s .decFull = 0
  opened : remaining s .decFull = 0 →
    s.spin_ = false ∨ ∃ th, s.wasOne th = true ∧ .clearSpin ∈ s.rest th

/-- Once `y` has been executed, so has `x` before it. -/
theorem Counts.gone (h : Counts s) {x y : Stmt} (hxy : Before x y (program th))
    (hy : y ∉ s.rest th) : x ∉ s.rest th :=
  Suffix.not_mem_of_later (h.suffix th) hxy.1 hxy.2 hy

theorem Counts.gone_first (h : Counts s) {x y : Stmt} (hxy : Before x y TPThread0)
    (hy : y ∉ s.rest (.tp (first rt))) : x ∉ s.rest (.tp (first rt)) := by
  have hprogram : program (.tp (first rt) : RtThread rt) = TPThread0 := rfl
  exact h.gone (hprogram ▸ hxy) hy

theorem Counts.gone_mc (h : Counts s) {x y : Stmt} {i : Fin rt.numTPSched_} {j : Fin rt.numMCSched_}
    (hxy : Before x y MCThread) (hy : y ∉ s.rest (.mc i j)) : x ∉ s.rest (.mc i j) := by
  have hprogram : program (.mc i j : RtThread rt) = MCThread := rfl
  exact h.gone (hprogram ▸ hxy) hy

/-- What a thread about to execute `x` has left. -/
theorem Counts.tail (h : Counts s) {xs : List Stmt} (hrest : s.rest th = x :: xs) :
    xs = (program th).drop ((program th).idxOf x + 1) :=
  Suffix.tail_eq (hrest ▸ h.suffix th) (nodup_program th)

theorem Counts.init : Counts (start rt) := by
  have hsum : ∀ y a b, TPThread0.count y = a → TPThread.count y = a → MCThread.count y = b →
      remaining (start rt) y = rt.numTPSched_ * a + rt.numTPSched_ * rt.numMCSched_ * b := by
    intro y a b h0 ha hb
    have htp : ∀ i : Fin rt.numTPSched_, (program (.tp i : RtThread rt)).count y = a :=
      program_tp (P := fun L => L.count y = a) h0 ha
    have hmc : ∀ w : Fin rt.numTPSched_ × Fin rt.numMCSched_,
        (program (.inr w : RtThread rt)).count y = b := fun _ => hb
    show ∑ th : RtThread rt, (program th).count y = _
    rw [Fintype.sum_sum_type, Finset.sum_congr rfl fun i _ => htp i,
      Finset.sum_congr rfl fun w _ => hmc w]
    simp
  have hfull := hsum .decFull 1 1 (by decide) (by decide) (by decide)
  have hpos := rt.clusters
  refine ⟨fun th => List.suffix_rfl, ?_, ?_, ?_, ?_, ?_, ?_, ?_, ?_, ?_⟩
  · rw [hsum .decTP 1 0 (by decide) (by decide) (by decide)]
    simp [start]
  · rw [hsum .decMC 0 1 (by decide) (by decide) (by decide)]
    simp [start]
  · rw [hfull]
    simp [start]
  · exact fun hno => absurd (by decide : Stmt.checkTP ∈ TPThread0) hno
  · exact fun hno => absurd (by decide : Stmt.checkMC ∈ TPThread0) hno
  · exact fun hno => absurd hno (by simp [start])
  · exact fun th hin hno => absurd hin hno
  · exact fun th hno => absurd hno (by simp [start])
  · intro hzero
    rw [hfull] at hzero
    omega

/-- **One step keeps the counters.** -/
theorem Counts.step (h : Counts s) (hst : Startup.step rt s th = some t) : Counts t := by
  obtain ⟨x, xs, s', hrest, hexec, rfl⟩ := step_inv hst
  have hc := exec_counts hexec
  -- from here on only `t` and its fields
  generalize ht : ({ s' with rest := Function.update s.rest th xs } : State _ _) = t
  have htrest : t.rest = Function.update s.rest th xs := by rw [← ht]
  have hrem := remaining_step hrest htrest
  have hle : ∀ y, remaining t y ≤ remaining s y := fun y => by rw [hrem y]; omega
  have hmem : ∀ {y th'}, y ≠ x ∨ th' ≠ th → (y ∈ t.rest th' ↔ y ∈ s.rest th') :=
    fun hne => mem_rest hrest htrest hne
  have hcount : ∀ {y : Stmt} {c : Nat}, c = remaining s y →
      (if x = y then fetchSub c else c) = remaining t y := by
    intro y c hcy
    have := hrem y
    split
    next he =>
      rw [if_pos he] at this
      rw [fetchSub_of_pos (by omega)]
      omega
    next he =>
      rw [if_neg he] at this
      omega
  have htp : t.tpcount_ = s'.tpcount_ := by rw [← ht]
  have hmc : t.mccount_ = s'.mccount_ := by rw [← ht]
  have hfull : t.fullcount_ = s'.fullcount_ := by rw [← ht]
  have hspin : t.spin_ = s'.spin_ := by rw [← ht]
  have hwas : t.wasOne = s'.wasOne := by rw [← ht]
  refine ⟨?_, ?_, ?_, ?_, ?_, ?_, ?_, ?_, ?_, ?_⟩
  · intro th'
    rw [htrest]
    by_cases hth : th' = th
    · subst hth
      rw [Function.update_self]
      exact (List.suffix_cons x xs).trans (hrest ▸ h.suffix th')
    · rw [Function.update_of_ne hth]
      exact h.suffix th'
  · rw [htp, hc.tpcount]
    exact hcount h.tpcount
  · rw [hmc, hc.mccount]
    exact hcount h.mccount
  · rw [hfull, hc.fullcount]
    exact hcount h.fullcount
  · intro hno
    refine Nat.le_zero.mp ((hle _).trans (Nat.le_zero.mpr ?_))
    by_cases hx : x = .checkTP
    · rw [← h.tpcount, hc.checkTP hx]
    · exact h.checkedTP (fun hin => hno ((hmem (.inl (Ne.symm hx))).mpr hin))
  · intro hno
    refine Nat.le_zero.mp ((hle _).trans (Nat.le_zero.mpr ?_))
    by_cases hx : x = .checkMC
    · rw [← h.mccount, hc.checkMC hx]
    · exact h.checkedMC (fun hin => hno ((hmem (.inl (Ne.symm hx))).mpr hin))
  · intro hf
    refine Nat.le_zero.mp ((hle _).trans (Nat.le_zero.mpr ?_))
    rw [hspin, hc.spin] at hf
    split at hf
    next hclear => exact h.wasOne th hclear.2
    next => exact h.spun hf
  · intro th' hin hno
    refine Nat.le_zero.mp ((hle _).trans (Nat.le_zero.mpr ?_))
    by_cases hx : .spin ∈ s.rest th'
    · -- the thread has just got through
      have hspinx : x = .spin := by
        by_contra hne
        exact hno ((hmem (.inl (Ne.symm hne))).mpr hx)
      exact h.spun (hc.waited hspinx)
    · exact h.waited th' hin hx
  · intro th' hw
    rw [hwas, hc.wasOne] at hw
    split at hw
    next hx =>
      by_cases hth : th' = th
      · subst hth
        rw [Function.update_self, beq_iff_eq, h.fullcount, hrem, if_pos hx] at hw
        omega
      · rw [Function.update_of_ne hth] at hw
        have := hle .decFull
        have := h.wasOne th' hw
        omega
    next =>
      have := hle .decFull
      have := h.wasOne th' hw
      omega
  · intro hzero
    have hremF := hrem .decFull
    by_cases hx : x = .decFull
    · -- the last to arrive sees 1 and goes on to clear the flag
      refine .inr ⟨th, ?_, ?_⟩
      · rw [hwas, hc.wasOne, if_pos hx, Function.update_self, h.fullcount, hremF, hzero, if_pos hx]
        rfl
      · rw [htrest, Function.update_self, h.tail hrest, hx]
        match th with
        | .tp i =>
          exact program_tp (P := fun L => .clearSpin ∈ L.drop (L.idxOf .decFull + 1))
            (by decide) (by decide) i
        | .mc i j => exact (by decide : Stmt.clearSpin ∈ MCThread.drop (MCThread.idxOf .decFull + 1))
    · rw [if_neg hx] at hremF
      rcases h.opened (by omega) with hf | ⟨th', hw, hin⟩
      · refine .inl ?_
        rw [hspin, hc.spin, hf]
        split <;> rfl
      · have hw' : t.wasOne th' = true := by rw [hwas, hc.wasOne, if_neg hx, hw]
        by_cases hclear : x = .clearSpin ∧ th' = th
        · refine .inl ?_
          obtain ⟨rfl, rfl⟩ := hclear
          rw [hspin, hc.spin, if_pos ⟨rfl, hw⟩]
        · refine .inr ⟨th', hw', (hmem ?_).mpr hin⟩
          by_cases he : x = .clearSpin
          · exact .inr fun hth => hclear ⟨he, hth⟩
          · exact .inl (Ne.symm he)

theorem Counts.reachable (hs : Reachable (Startup.step rt) (start rt) s) : Counts s :=
  hs.invariant Counts .init fun _ _ _ _ h hl => h.step hl

/-! ## The objects -/

/-- A scheduler object; the conditions say which statements have been executed. -/
structure ObjInv (th : RtThread rt) (idSet peersSet linkedTP linkedMC : Prop)
    (o : Sched rt.numTPSched_ rt.numMCSched_) : Prop where
  id : idSet → o.id_ = threadId rt th
  peers : ∀ i, th = .tp i → peersSet → o.numberOfPeers = rt.numTPSched_ ∧
    ∃ peers, o.peers_ = some peers ∧
      (linkedTP → ∀ j : Fin rt.numTPSched_, peers j = some (.tp j))
  children_nil : ∀ i, th = .tp i → ¬linkedMC → o.children_ = []
  children : ∀ i, th = .tp i → linkedMC →
    o.children_ = (List.finRange rt.numMCSched_).map fun j => some (.mc i j)
  parent : ∀ i j, th = .mc i j → linkedMC → o.parent_ = some (.tp i)

/-- Executing other statements does not matter. -/
theorem ObjInv.imp {idSet peersSet linkedTP linkedMC idSet' peersSet' linkedTP' linkedMC' : Prop}
    {o : Sched rt.numTPSched_ rt.numMCSched_} (h : ObjInv th idSet peersSet linkedTP linkedMC o)
    (hid : idSet' → idSet) (hpeers : peersSet' → peersSet) (hTP : linkedTP' → linkedTP)
    (hMC : linkedMC' ↔ linkedMC) : ObjInv th idSet' peersSet' linkedTP' linkedMC' o where
  id hi := h.id (hid hi)
  peers i hth hp := by
    obtain ⟨hnum, peers, hsome, hset⟩ := h.peers i hth (hpeers hp)
    exact ⟨hnum, peers, hsome, fun hl => hset (hTP hl)⟩
  children_nil i hth hno := h.children_nil i hth fun hl => hno (hMC.mpr hl)
  children i hth hl := h.children i hth (hMC.mp hl)
  parent i j hth hl := h.parent i j hth (hMC.mp hl)

/-- What has been written once its statement has been executed. -/
structure Objects (s : State rt.numTPSched_ rt.numMCSched_) : Prop where
  slot : ∀ th, .newSched ∉ s.rest th → slotOf s th = some th
  obj : ∀ th, .newSched ∉ s.rest th → ∃ o, s.obj th = some o ∧
    ObjInv th (.setID ∉ s.rest th) (.setNumPeers ∉ s.rest th)
      (.linkTPSched ∉ s.rest (.tp (first rt))) (.linkMCSched ∉ s.rest (.tp (first rt))) o
  alive : ∀ th, .addAliveSignal ∉ s.rest th → s.aliveSig (threadId rt th) = some th
  own : ∀ th, .setThread ∉ s.rest th → match th with
    | .tp i => s.threadTPsched th = some (.tp i) ∧ s.threadMCsched th = none
    | .mc i j => s.threadTPsched th = some (.tp i) ∧ s.threadMCsched th = some (.mc i j)

theorem Objects.init : Objects (start rt) := by
  have hhead : ∀ {y} (th : RtThread rt), y ∈ TPThread0 → y ∈ TPThread → y ∈ MCThread →
      y ∈ (start rt).rest th := by
    intro y th h0 htp hmc
    match th with
    | .tp i => exact program_tp (P := fun L => y ∈ L) h0 htp i
    | .mc i j => exact hmc
  refine ⟨fun th hno => ?_, fun th hno => ?_, fun th hno => ?_, fun th hno => ?_⟩
  all_goals exact absurd (hhead th (by decide) (by decide) (by decide)) hno

/-- A TP thread has prepared its object when it decrements `tpcount_`. -/
theorem Objects.tpReady (h : Objects s) (hc : Counts s) (hzero : remaining s .decTP = 0) :
    TPReady s := by
  intro i
  have hdec := remaining_eq_zero.mp hzero (.tp i)
  have hnew : .newSched ∉ s.rest (.tp i) :=
    hc.gone (program_tp (P := Before .newSched .decTP) (by decide) (by decide) i) hdec
  have hnum : .setNumPeers ∉ s.rest (.tp i) :=
    hc.gone (program_tp (P := Before .setNumPeers .decTP) (by decide) (by decide) i) hdec
  obtain ⟨o, ho, hinv⟩ := h.obj (.tp i) hnew
  obtain ⟨-, peers, hpeers, -⟩ := hinv.peers i rfl hnum
  exact ⟨h.slot (.tp i) hnew, o, peers, ho, hpeers⟩

/-- And a worker when it decrements `mccount_`. -/
theorem Objects.mcReady (h : Objects s) (hc : Counts s) (hzero : remaining s .decTP = 0)
    (hzero' : remaining s .decMC = 0) : MCReady s := by
  refine ⟨fun i => ?_, fun i j => ?_⟩
  · obtain ⟨hslot, o, peers, ho, -⟩ := h.tpReady hc hzero i
    exact ⟨hslot, o, ho⟩
  · have hnew : .newSched ∉ s.rest (.mc i j) :=
      hc.gone (by decide : Before .newSched .decMC MCThread) (remaining_eq_zero.mp hzero' _)
    obtain ⟨o, ho, -⟩ := h.obj (.mc i j) hnew
    exact ⟨h.slot (.mc i j) hnew, o, ho⟩

/-- Statements that leave the objects alone. -/
def Stmt.KeepsObj (x : Stmt) : Prop :=
  x ≠ .newSched ∧ x ≠ .setID ∧ x ≠ .setNumPeers ∧ x ≠ .linkTPSched ∧ x ≠ .linkMCSched

theorem exec_obj (h : exec rt th s x = some s') (hx : x.KeepsObj) : s'.obj = s.obj := by
  obtain ⟨hnew, hid, hnum, htp, hmc⟩ := hx
  cases x with
  | newSched => exact absurd rfl hnew
  | setID => exact absurd rfl hid
  | setNumPeers => exact absurd rfl hnum
  | linkTPSched => exact absurd rfl htp
  | linkMCSched => exact absurd rfl hmc
  | addAliveSignal | checkTP | checkMC | spin =>
    simp only [exec] at h
    split at h
    all_goals
      first
      | obtain rfl := Option.some.inj h
        rfl
      | cases h
  | decTP | decMC | decFull =>
    obtain rfl := Option.some.inj h
    rfl
  | clearSpin =>
    simp only [exec] at h
    split at h <;> obtain rfl := Option.some.inj h <;> rfl
  | setThread =>
    obtain ⟨o, -, rfl⟩ := Option.map_eq_some_iff.mp h
    match th with
    | .tp i => rfl
    | .mc i j => rfl

/-- What every step does to the statements that are left. -/
structure Moved (s t : State rt.numTPSched_ rt.numMCSched_) (th : RtThread rt) (x : Stmt) : Prop where
  head : x ∈ s.rest th
  gone : x ∉ t.rest th
  mem : ∀ y th', y ≠ x ∨ th' ≠ th → (y ∈ t.rest th' ↔ y ∈ s.rest th')

/-- The new object of a thread that has not linked anything yet. -/
private theorem Objects.obj_new (hc : Counts s) {xs : List Stmt} (hrest : s.rest th = .newSched :: xs)
    (hmove : Moved s t th .newSched) (hxs : t.rest th = xs) :
    ObjInv th (.setID ∉ t.rest th) (.setNumPeers ∉ t.rest th)
      (.linkTPSched ∉ t.rest (.tp (first rt))) (.linkMCSched ∉ t.rest (.tp (first rt)))
      (.fresh : Sched rt.numTPSched_ rt.numMCSched_) := by
  have htail := hc.tail hrest
  have hid : .setID ∈ t.rest th := by
    rw [hxs, htail]
    match th with
    | .tp i =>
      exact program_tp (P := fun L => .setID ∈ L.drop (L.idxOf .newSched + 1)) (by decide) (by decide) i
    | .mc i j => exact (by decide : Stmt.setID ∈ MCThread.drop (MCThread.idxOf .newSched + 1))
  have hnum : ∀ i, th = .tp i → .setNumPeers ∈ t.rest th := by
    intro i hth
    subst hth
    rw [hxs, htail]
    exact program_tp (P := fun L => .setNumPeers ∈ L.drop (L.idxOf .newSched + 1))
      (by decide) (by decide) i
  have hlink : .linkMCSched ∈ t.rest (.tp (first rt)) := by
    -- otherwise thread 0 has seen both counters at zero
    rw [hmove.mem _ _ (.inl (by decide))]
    by_contra hno
    have hTP := remaining_eq_zero.mp (hc.checkedTP (hc.gone_first
      (by decide : Before .checkTP .linkMCSched TPThread0) hno)) th
    have hMC := remaining_eq_zero.mp (hc.checkedMC (hc.gone_first
      (by decide : Before .checkMC .linkMCSched TPThread0) hno)) th
    have hin := hmove.head
    match th, hTP, hMC, hin with
    | .tp i, hTP, _, hin =>
      exact hc.gone (program_tp (P := Before .newSched .decTP) (by decide) (by decide) i) hTP hin
    | .mc i j, _, hMC, hin =>
      exact hc.gone_mc (by decide : Before .newSched .decMC MCThread) hMC hin
  exact ⟨fun h => absurd hid h, fun i hth h => absurd (hnum i hth) h, fun _ _ _ => rfl,
    fun _ _ h => absurd hlink h, fun _ _ _ h => absurd hlink h⟩

/-- **One step keeps the objects in order.** -/
private theorem Objects.obj_step (h : Objects s) (hc : Counts s) {xs : List Stmt}
    (hrest : s.rest th = x :: xs) (hexec : exec rt th s x = some s') (hmove : Moved s t th x)
    (hobj : t.obj = s'.obj) (hxs : t.rest th = xs) (th' : RtThread rt)
    (hno : .newSched ∉ t.rest th') : ∃ o, t.obj th' = some o ∧
      ObjInv th' (.setID ∉ t.rest th') (.setNumPeers ∉ t.rest th')
        (.linkTPSched ∉ t.rest (.tp (first rt))) (.linkMCSched ∉ t.rest (.tp (first rt))) o := by
  have hnot : ∀ {y th''}, y ≠ x ∨ th'' ≠ th → (y ∉ t.rest th'' ↔ y ∉ s.rest th'') :=
    fun hne => not_congr (hmove.mem _ _ hne)
  -- a statement on the own object: the others keep theirs
  have hothers : th' ≠ th → x ≠ .linkTPSched → x ≠ .linkMCSched → t.obj th' = s.obj th' →
      ∃ o, t.obj th' = some o ∧ ObjInv th' (.setID ∉ t.rest th') (.setNumPeers ∉ t.rest th')
        (.linkTPSched ∉ t.rest (.tp (first rt))) (.linkMCSched ∉ t.rest (.tp (first rt))) o := by
    intro hth hTP hMC he
    obtain ⟨o, ho, hinv⟩ := h.obj th' ((hnot (.inr hth)).mp hno)
    exact ⟨o, he.trans ho, hinv.imp (hnot (.inr hth)).mp (hnot (.inr hth)).mp
      (hnot (.inl (Ne.symm hTP))).mp (hnot (.inl (Ne.symm hMC)))⟩
  cases x with
  | newSched =>
    have hnew : t.obj = Function.update s.obj th (some .fresh) := by
      rw [hobj]
      match th, hexec with
      | .tp i, hexec => exact (Option.some.inj hexec) ▸ rfl
      | .mc i j, hexec => exact (Option.some.inj hexec) ▸ rfl
    by_cases hth : th' = th
    · subst hth
      exact ⟨.fresh, by rw [hnew, Function.update_self], Objects.obj_new hc hrest hmove hxs⟩
    · exact hothers hth (by simp) (by simp) (by rw [hnew, Function.update_of_ne hth])
  | setID =>
    obtain ⟨o, ho, rfl⟩ := Option.map_eq_some_iff.mp hexec
    by_cases hth : th' = th
    · subst hth
      obtain ⟨o', ho', hinv⟩ := h.obj th' ((hnot (.inl (by simp))).mp hno)
      obtain rfl := Option.some.inj (ho.symm.trans ho')
      have hold := hinv.imp (fun hf : False => hf.elim) (hnot (.inl (by simp))).mp
        (hnot (.inl (by simp))).mp (hnot (.inl (by simp)))
      exact ⟨{ o with id_ := threadId rt th' }, by rw [hobj, State.setObj_self],
        fun _ => rfl, hold.peers, hold.children_nil, hold.children, hold.parent⟩
    · exact hothers hth (by simp) (by simp) (by rw [hobj, State.setObj_ne _ hth])
  | setNumPeers =>
    obtain ⟨o, ho, rfl⟩ := Option.map_eq_some_iff.mp hexec
    by_cases hth : th' = th
    · subst hth
      obtain ⟨o', ho', hinv⟩ := h.obj th' ((hnot (.inl (by simp))).mp hno)
      obtain rfl := Option.some.inj (ho.symm.trans ho')
      have hold := hinv.imp (hnot (.inl (by simp))).mp (fun hf : False => hf.elim)
        (hnot (.inl (by simp))).mp (hnot (.inl (by simp)))
      refine ⟨{ o with
          numberOfPeers := rt.numTPSched_
          peers_ := some (o.peers_.getD fun _ => none) }, by rw [hobj, State.setObj_self],
        hold.id, fun i hth _ => ⟨rfl, _, rfl, fun hl => ?_⟩, hold.children_nil, hold.children,
        hold.parent⟩
      -- thread 0 cannot have linked the TP schedulers before
      subst hth
      have hTP := remaining_eq_zero.mp (hc.checkedTP (hc.gone_first
      (by decide : Before .checkTP .linkTPSched TPThread0) ((hnot (.inl (by simp))).mp hl))) (.tp i)
      exact absurd hmove.head
        (hc.gone (program_tp (P := Before .setNumPeers .decTP) (by decide) (by decide) i) hTP)
    · exact hothers hth (by simp) (by simp) (by rw [hobj, State.setObj_ne _ hth])
  | linkTPSched =>
    obtain rfl : th = .tp (first rt) := eq_first (.inl ((hc.suffix th).subset hmove.head))
    have hzero : remaining s .decTP = 0 := hc.checkedTP (by
      rw [hrest, hc.tail hrest]
      exact (by decide : Stmt.checkTP ∉ Stmt.linkTPSched ::
        TPThread0.drop (TPThread0.idxOf .linkTPSched + 1)))
    obtain ⟨s₁, hs₁, -, hmc, htp⟩ := linkTPSched_spec (h.tpReady hc hzero)
    obtain rfl : s₁ = s' := Option.some.inj (hs₁.symm.trans hexec)
    obtain ⟨o, ho, hinv⟩ := h.obj th' ((hnot (.inl (by simp))).mp hno)
    have hold := hinv.imp (hnot (.inl (by simp))).mp (hnot (.inl (by simp))).mp
      (fun hf : False => hf.elim) (hnot (.inl (by simp)))
    rcases th' with i | ⟨i, j⟩
    · obtain ⟨o', peers, ho', hto, hset⟩ := htp i
      obtain rfl := Option.some.inj (ho.symm.trans ho')
      refine ⟨{ o with peers_ := some peers }, by rw [hobj, hto], hold.id, fun i' hth hp => ?_,
        hold.children_nil, hold.children, hold.parent⟩
      exact ⟨(hold.peers i' hth hp).1, peers, rfl, fun _ => hset⟩
    · exact ⟨o, by rw [hobj, hmc, ho], hold.id, fun _ hth => absurd hth (by simp), hold.children_nil,
        hold.children, hold.parent⟩
  | linkMCSched =>
    obtain rfl : th = .tp (first rt) := eq_first (.inr (.inl ((hc.suffix th).subset hmove.head)))
    have hpassed : .checkTP ∉ s.rest (.tp (first rt)) ∧ .checkMC ∉ s.rest (.tp (first rt)) := by
      rw [hrest, hc.tail hrest]
      exact (by decide : Stmt.checkTP ∉ Stmt.linkMCSched ::
          TPThread0.drop (TPThread0.idxOf .linkMCSched + 1) ∧ Stmt.checkMC ∉ Stmt.linkMCSched ::
          TPThread0.drop (TPThread0.idxOf .linkMCSched + 1))
    obtain ⟨hslots, hmcs⟩ := h.mcReady hc (hc.checkedTP hpassed.1) (hc.checkedMC hpassed.2)
    obtain ⟨s₁, hs₁, -, htp, hmc⟩ := linkMCSched_spec ⟨hslots, hmcs⟩
    obtain rfl : s₁ = s' := Option.some.inj (hs₁.symm.trans hexec)
    obtain ⟨o, ho, hinv⟩ := h.obj th' ((hnot (.inl (by simp))).mp hno)
    have hbefore : .linkMCSched ∈ s.rest (.tp (first rt)) := hmove.head
    have hafter : .linkMCSched ∉ t.rest (.tp (first rt)) := hmove.gone
    rcases th' with i | ⟨i, j⟩
    · obtain ⟨o', ho', hto⟩ := htp i
      obtain rfl := Option.some.inj (ho.symm.trans ho')
      refine ⟨{ o with children_ := o.children_ ++
          (List.range rt.numMCSched_).map fun j => s.MCSched_ (rt.worker i j) },
        by rw [hobj]; exact hto, fun hid => hinv.id ((hnot (.inl (by simp))).mp hid),
        fun i' hth hp => ?_, fun _ _ hl => absurd hafter hl, fun i' hth _ => ?_,
        fun _ _ hth => nomatch hth⟩
      · obtain ⟨hnum, peers, hpeers, hset⟩ := hinv.peers i' hth ((hnot (.inl (by simp))).mp hp)
        exact ⟨hnum, peers, hpeers, fun hl => hset ((hnot (.inl (by simp))).mp hl)⟩
      · obtain rfl : i = i' := Sum.inl.inj hth
        show o.children_ ++ (List.range rt.numMCSched_).map _ = _
        rw [hinv.children_nil i rfl (fun hl => hl hbefore), List.nil_append,
          ← List.map_coe_finRange_eq_range, List.map_map]
        exact List.map_congr_left fun j _ => (hmcs i j).1
    · obtain ⟨o', ho', hto⟩ := hmc i j
      obtain rfl := Option.some.inj (ho.symm.trans ho')
      refine ⟨{ o with parent_ := some (.tp i) }, by rw [hobj, hto],
        fun hid => hinv.id ((hnot (.inl (by simp))).mp hid), fun _ hth => absurd hth (by simp),
        fun _ hth => absurd hth (by simp), fun _ hth => absurd hth (by simp), fun i' j' hth _ => ?_⟩
      obtain ⟨rfl, rfl⟩ := Prod.mk.inj (Sum.inr.inj hth)
      rfl
  | addAliveSignal | decTP | decMC | checkTP | checkMC | decFull | clearSpin | spin | setThread =>
    have he : t.obj th' = s.obj th' := by rw [hobj, exec_obj hexec (by simp [Stmt.KeepsObj])]
    obtain ⟨o, ho, hinv⟩ := h.obj th' ((hnot (.inl (by simp))).mp hno)
    exact ⟨o, he.trans ho, hinv.imp (hnot (.inl (by simp))).mp (hnot (.inl (by simp))).mp
      (hnot (.inl (by simp))).mp (hnot (.inl (by simp)))⟩

/-- **One step keeps the objects and the tables.** -/
theorem Objects.step (h : Objects s) (hc : Counts s) (hst : Startup.step rt s th = some t) :
    Objects t := by
  have hct := hc.step hst
  obtain ⟨x, xs, s', hrest, hexec, rfl⟩ := step_inv hst
  have hd := exec_tables hexec
  generalize ht : ({ s' with rest := Function.update s.rest th xs } : State _ _) = t at hct
  have htrest : t.rest = Function.update s.rest th xs := by rw [← ht]
  have hxs : t.rest th = xs := by rw [htrest, Function.update_self]
  have hmove : Moved s t th x := by
    refine ⟨by rw [hrest]; exact List.mem_cons_self .., ?_,
      fun y th' hne => mem_rest hrest htrest hne⟩
    have hnd := (nodup_program th).sublist (hc.suffix th).sublist
    rw [hrest] at hnd
    rw [hxs]
    exact (List.nodup_cons.mp hnd).1
  have hnot : ∀ {y th'}, ¬(x = y ∧ th' = th) → y ∉ t.rest th' → y ∉ s.rest th' := by
    intro y th' hne hno
    refine fun hin => hno ((hmove.mem y th' ?_).mpr hin)
    by_cases hx : x = y
    · exact .inr fun hth => hne ⟨hx, hth⟩
    · exact .inl (Ne.symm hx)
  have hobj : t.obj = s'.obj := by rw [← ht]
  refine ⟨?_, ?_, ?_, ?_⟩
  · intro th' hno
    have hslot : slotOf t th' = slotOf s' th' := by
      rw [← ht]
      exact slotOf_congr rfl rfl th'
    rw [hslot, hd.slot]
    split
    next hnow => rw [hnow.2]
    next hold => exact h.slot th' (hnot hold hno)
  · exact fun th' hno => h.obj_step hc hrest hexec hmove hobj hxs th' hno
  · intro th' hno
    have halive : t.aliveSig = s'.aliveSig := by rw [← ht]
    rw [halive, hd.alive]
    by_cases hnow : x = .addAliveSignal ∧ th' = th
    · rw [if_pos hnow.1, hnow.2, Function.update_self]
    · have hold := h.alive th' (hnot hnow hno)
      split
      next hx => rw [Function.update_of_ne fun he => hnow ⟨hx, threadId_injective he⟩, hold]
      next => exact hold
  · intro th' hno
    have hTP : t.threadTPsched = s'.threadTPsched := by rw [← ht]
    have hMC : t.threadMCsched = s'.threadMCsched := by rw [← ht]
    rw [hTP, hMC]
    by_cases hx : x = .setThread
    · subst hx
      obtain ⟨o, ho, rfl⟩ := Option.map_eq_some_iff.mp hexec
      by_cases hth : th' = th
      · subst hth
        rcases th' with i | ⟨i, j⟩
        · simp
        · -- a worker reads its parent behind the flag, when thread 0 has linked
          have hspin : .spin ∉ s.rest (.mc i j) := by
            rw [hrest, hc.tail hrest]
            exact (by decide : Stmt.spin ∉ Stmt.setThread ::
              MCThread.drop (MCThread.idxOf .setThread + 1))
          have hfull := remaining_eq_zero.mp
            (hc.waited (.mc i j) (by decide : Stmt.spin ∈ MCThread) hspin) (.tp (first rt))
          have hlink := hc.gone_first
            (by decide : Before .linkMCSched .decFull TPThread0) hfull
          have hnew : .newSched ∉ s.rest (.mc i j) :=
            hc.gone_mc (by decide : Before .newSched .spin MCThread) hspin
          obtain ⟨o', ho', hinv⟩ := h.obj (.mc i j) hnew
          obtain rfl := Option.some.inj (ho.symm.trans ho')
          simp [hinv.parent i j rfl hlink]
      · have hold := h.own th' (hnot (fun hc => hth hc.2) hno)
        rcases th with i | ⟨i, j⟩ <;> rcases th' with i' | ⟨i', j'⟩ <;>
          simpa [Function.update_of_ne hth] using hold
    · rw [(hd.own hx).1, (hd.own hx).2]
      exact h.own th' (hnot (fun hc => hx hc.1) hno)

theorem Objects.reachable (hs : Reachable (Startup.step rt) (start rt) s) : Objects s :=
  hs.invariant Objects .init fun _ _ _ hr h hl => h.step (Counts.reachable hr) hl

/-! ## The linked runtime -/

/-- The runtime is complete: every scheduler exists, knows its number and is linked, and
the alive table holds every scheduler at the number of its thread. -/
structure Linked (s : State rt.numTPSched_ rt.numMCSched_) : Prop where
  /-- Entry `j` of the peer table of `TPSched_[i]` is `TPSched_[j]`, its child `j` is
  `MCSched_[i * numMCSched_ + j]`. -/
  TPSched : ∀ i, i < rt.numTPSched_ → ∃ p o peers, s.TPSched_ i = some p ∧ s.obj p = some o ∧
    o.id_ = i * (1 + rt.numMCSched_) ∧ o.numberOfPeers = rt.numTPSched_ ∧
    o.peers_ = some peers ∧ (∀ j, j < rt.numTPSched_ → peers j = s.TPSched_ j) ∧
    o.children_ = (List.range rt.numMCSched_).map fun j => s.MCSched_ (i * rt.numMCSched_ + j)
  MCSched : ∀ i j, i < rt.numTPSched_ → j < rt.numMCSched_ → ∃ q o,
    s.MCSched_ (i * rt.numMCSched_ + j) = some q ∧ s.obj q = some o ∧
    o.id_ = i * (1 + rt.numMCSched_) + j + 1 ∧ o.parent_ = s.TPSched_ i
  /-- No entry of the alive table is null, none occurs twice, and every scheduler has one. -/
  alive_some : ∀ k, k < numThreads rt → ∃ p o, s.aliveSig k = some p ∧ s.obj p = some o
  alive_inj : ∀ k k', k < numThreads rt → k' < numThreads rt → s.aliveSig k = s.aliveSig k' → k = k'
  alive_TPSched : ∀ i, i < rt.numTPSched_ → ∃ k, k < numThreads rt ∧ s.aliveSig k = s.TPSched_ i
  alive_MCSched : ∀ i j, i < rt.numTPSched_ → j < rt.numMCSched_ →
    ∃ k, k < numThreads rt ∧ s.aliveSig k = s.MCSched_ (i * rt.numMCSched_ + j)
  /-- Termination kills every scheduler. -/
  killed : ∃ t, terminate rt s = some t ∧ ∀ th, ∃ o, t.obj th = some o ∧ o.alive_ = false

/-- Killing what a complete alive table holds. -/
theorem terminate_spec (halive : ∀ th, s.aliveSig (threadId rt th) = some th)
    (hobj : ∀ th, ∃ o, s.obj th = some o) :
    ∃ t, terminate rt s = some t ∧ ∀ th, ∃ o, t.obj th = some o ∧ o.alive_ = false := by
  have main := CLoop.forStep_rule 1 (numThreads rt) 0
    (fun i s => s.bind fun s : State rt.numTPSched_ rt.numMCSched_ => (s.aliveSig i).bind fun p =>
      (s.obj p).map fun o => s.setObj p { o with alive_ := false }) (some s)
    (fun k u => ∃ t, u = some t ∧ t.aliveSig = s.aliveSig ∧
      ∀ th, ∃ o, t.obj th = some o ∧ (threadId rt th < k → o.alive_ = false))
    Nat.one_pos
    ⟨s, rfl, rfl, fun th => by
      obtain ⟨o, ho⟩ := hobj th
      exact ⟨o, ho, fun hlt => absurd hlt (Nat.not_lt_zero _)⟩⟩
    (fun k u hk ⟨t, ht, htable, hdead⟩ => by
      subst ht
      obtain ⟨p, hp⟩ := exists_threadId hk
      obtain ⟨o, ho, -⟩ := hdead p
      have hentry : t.aliveSig k = some p := by rw [htable, ← hp, halive]
      refine ⟨t.setObj p { o with alive_ := false }, ?_, htable, fun th => ?_⟩
      · rw [Nat.zero_add, Nat.mul_one, Option.bind_some, hentry, Option.bind_some, ho]
        rfl
      · by_cases hth : th = p
        · subst hth
          exact ⟨_, State.setObj_self _ _ _, fun _ => rfl⟩
        · obtain ⟨o', ho', hdead'⟩ := hdead th
          refine ⟨o', by rw [State.setObj_ne _ hth, ho'], fun hlt => hdead' ?_⟩
          have hne : threadId rt th ≠ k := fun he => hth (threadId_injective (he.trans hp.symm))
          omega)
  rw [Nat.zero_add, Nat.mul_one] at main
  obtain ⟨t, ht, -, hdead⟩ := main
  refine ⟨t, ht, fun th => ?_⟩
  obtain ⟨o, ho, hlt⟩ := hdead th
  exact ⟨o, ho, hlt (threadId_lt th)⟩

/-- Who is through finds that thread 0 has linked and decremented `fullcount_`. -/
theorem Counts.through (hc : Counts s) (hth : s.rest th = []) :
    .decFull ∉ s.rest (.tp (first rt)) := by
  by_cases h0 : th = .tp (first rt)
  · rw [← h0, hth]
    exact List.not_mem_nil
  · have hin : .spin ∈ program th := by
      rcases th with i | ⟨i, j⟩
      · have hi : i.val ≠ 0 := fun hz => h0 (congrArg Sum.inl (Fin.ext hz))
        simp [program, hi, TPThread]
      · exact (by decide : Stmt.spin ∈ MCThread)
    have hno : .spin ∉ s.rest th := by
      rw [hth]
      exact List.not_mem_nil
    exact remaining_eq_zero.mp (hc.waited th hin hno) _

/-- A thread that has been counted has prepared and registered its object. -/
theorem Counts.prepared (hc : Counts s) (hlast : .decFull ∉ s.rest (.tp (first rt)))
    (th : RtThread rt) : .newSched ∉ s.rest th ∧ .setID ∉ s.rest th ∧
      .addAliveSignal ∉ s.rest th ∧ ∀ i, th = .tp i → .setNumPeers ∉ s.rest th := by
  have hTP := remaining_eq_zero.mp (hc.checkedTP (hc.gone_first
      (by decide : Before .checkTP .decFull TPThread0) hlast)) th
  have hMC := remaining_eq_zero.mp (hc.checkedMC (hc.gone_first
      (by decide : Before .checkMC .decFull TPThread0) hlast)) th
  rcases th with i | ⟨i, j⟩
  · exact ⟨hc.gone (program_tp (P := Before .newSched .decTP) (by decide) (by decide) i) hTP,
      hc.gone (program_tp (P := Before .setID .decTP) (by decide) (by decide) i) hTP,
      hc.gone (program_tp (P := Before .addAliveSignal .decTP) (by decide) (by decide) i) hTP,
      fun _ _ => hc.gone (program_tp (P := Before .setNumPeers .decTP) (by decide) (by decide) i) hTP⟩
  · exact ⟨hc.gone_mc (by decide : Before .newSched .decMC MCThread) hMC,
      hc.gone_mc (by decide : Before .setID .decMC MCThread) hMC,
      hc.gone_mc (by decide : Before .addAliveSignal .decMC MCThread) hMC,
      fun _ hth => absurd hth (by simp)⟩

/-- The object of a TP scheduler when thread 0 has decremented `fullcount_`. -/
theorem Objects.tp_obj (h : Objects s) (hc : Counts s)
    (hlast : .decFull ∉ s.rest (.tp (first rt))) (i : Fin rt.numTPSched_) : ∃ o peers,
      s.obj (.tp i) = some o ∧ o.id_ = i * (1 + rt.numMCSched_) ∧
      o.numberOfPeers = rt.numTPSched_ ∧ o.peers_ = some peers ∧
      (∀ j : Fin rt.numTPSched_, peers j = some (.tp j)) ∧
      o.children_ = (List.finRange rt.numMCSched_).map fun j => some (.mc i j) := by
  obtain ⟨hnew, hid, -, hnum⟩ := hc.prepared hlast (.tp i)
  obtain ⟨o, ho, hinv⟩ := h.obj (.tp i) hnew
  obtain ⟨hpeers, peers, hsome, hset⟩ := hinv.peers _ rfl (hnum _ rfl)
  have hTP := hc.gone_first (by decide : Before .linkTPSched .decFull TPThread0) hlast
  have hMC := hc.gone_first (by decide : Before .linkMCSched .decFull TPThread0) hlast
  exact ⟨o, peers, ho, by rw [hinv.id hid, threadId_tp], hpeers, hsome, hset hTP,
    hinv.children _ rfl hMC⟩

/-- And that of a worker. -/
theorem Objects.mc_obj (h : Objects s) (hc : Counts s)
    (hlast : .decFull ∉ s.rest (.tp (first rt))) (i : Fin rt.numTPSched_) (j : Fin rt.numMCSched_) :
    ∃ o, s.obj (.mc i j) = some o ∧ o.id_ = i * (1 + rt.numMCSched_) + j + 1 ∧
      o.parent_ = some (.tp i) := by
  obtain ⟨hnew, hid, -, -⟩ := hc.prepared hlast (.mc i j)
  obtain ⟨o, ho, hinv⟩ := h.obj (.mc i j) hnew
  have hMC := hc.gone_first (by decide : Before .linkMCSched .decFull TPThread0) hlast
  exact ⟨o, ho, by rw [hinv.id hid, threadId_mc], hinv.parent _ _ rfl hMC⟩

/-- Thread 0 decrements `fullcount_` when the runtime is complete. -/
theorem Objects.linked (h : Objects s) (hc : Counts s)
    (hlast : .decFull ∉ s.rest (.tp (first rt))) : Linked s := by
  have hprep := hc.prepared hlast
  have hslot : ∀ th, slotOf s th = some th := fun th => h.slot th (hprep th).1
  have halive : ∀ th, s.aliveSig (threadId rt th) = some th := fun th => h.alive th (hprep th).2.2.1
  have hobj : ∀ th, ∃ o, s.obj th = some o := fun th => by
    obtain ⟨o, ho, -⟩ := h.obj th (hprep th).1
    exact ⟨o, ho⟩
  refine ⟨fun i hi => ?_, fun i j hi hj => ?_, fun k hk => ?_, fun k k' hk hk' he => ?_,
    fun i hi => ?_, fun i j hi hj => ?_, terminate_spec halive hobj⟩
  · obtain ⟨o, peers, ho, hid, hnum, hsome, hset, hchildren⟩ := h.tp_obj hc hlast ⟨i, hi⟩
    refine ⟨_, o, peers, hslot (.tp ⟨i, hi⟩), ho, hid, hnum, hsome, fun j hj => ?_, ?_⟩
    · exact (hset ⟨j, hj⟩).trans (hslot (.tp ⟨j, hj⟩)).symm
    · rw [hchildren, ← List.map_coe_finRange_eq_range, List.map_map]
      exact List.map_congr_left fun j _ => (hslot (.mc ⟨i, hi⟩ j)).symm
  · obtain ⟨o, ho, hid, hparent⟩ := h.mc_obj hc hlast ⟨i, hi⟩ ⟨j, hj⟩
    exact ⟨_, o, hslot (.mc ⟨i, hi⟩ ⟨j, hj⟩), ho, hid, hparent.trans (hslot (.tp ⟨i, hi⟩)).symm⟩
  · obtain ⟨th, rfl⟩ := exists_threadId hk
    obtain ⟨o, ho⟩ := hobj th
    exact ⟨th, o, halive th, ho⟩
  · obtain ⟨th, rfl⟩ := exists_threadId hk
    obtain ⟨th', rfl⟩ := exists_threadId hk'
    rw [halive, halive] at he
    rw [Option.some.inj he]
  · exact ⟨_, threadId_lt (.tp ⟨i, hi⟩), (halive _).trans (hslot (.tp ⟨i, hi⟩)).symm⟩
  · exact ⟨_, threadId_lt (.mc ⟨i, hi⟩ ⟨j, hj⟩),
      (halive _).trans (hslot (.mc ⟨i, hi⟩ ⟨j, hj⟩)).symm⟩

/-- **The links of the schedulers are `Runtime.links`**, read through the tables. -/
theorem Linked.links (h : Linked s) {i j : Nat} (hi : i < rt.numTPSched_)
    (hj : j < rt.numMCSched_) : ∃ p o q w, s.TPSched_ i = some p ∧ s.obj p = some o ∧
      s.MCSched_ (rt.worker i j) = some q ∧ s.obj q = some w ∧
      o.children_.length = rt.links.getNumSub i ∧
      o.children_[j]? = (rt.links.getSubScheduler i j).map s.MCSched_ ∧
      w.id_ = rt.links.id_ (rt.worker i j) ∧
      w.parent_ = (rt.links.parent_ (rt.worker i j)).bind s.TPSched_ := by
  obtain ⟨p, o, peers, hp, ho, -, -, -, -, hchildren⟩ := h.TPSched i hi
  obtain ⟨q, w, hq, hw, hid, hparent⟩ := h.MCSched i j hi hj
  refine ⟨p, o, q, w, hp, ho, hq, hw, ?_, ?_, ?_, ?_⟩
  · rw [hchildren, Runtime.links_getNumSub hi, List.length_map, List.length_range]
  · rw [hchildren, Runtime.links_getSubScheduler hi hj]
    simp [hj, Runtime.worker]
  · rw [hid, Runtime.links_id hi hj]
  · rw [hparent, Runtime.links_parent hi hj, Option.bind_some]

/-! ## Everybody gets through -/

/-- What a thread has left starts at its next statement. -/
theorem Counts.not_mem_of_head (h : Counts s) {xs : List Stmt} (hrest : s.rest th = x :: xs)
    {y : Stmt} (hy : ∀ L ∈ [TPThread0, TPThread, MCThread], y ∉ x :: L.drop (L.idxOf x + 1)) :
    y ∉ s.rest th := by
  rw [hrest, h.tail hrest]
  rcases th with i | ⟨i, j⟩
  · exact program_tp (P := fun L => y ∉ x :: L.drop (L.idxOf x + 1)) (hy _ (by simp))
      (hy _ (by simp)) i
  · exact hy MCThread (by simp)

/-- A thread can only wait for a counter or for the flag. -/
theorem Objects.waiting (h : Objects s) (hc : Counts s) {xs : List Stmt}
    (hrest : s.rest th = x :: xs) (hwait : exec rt th s x = none) :
    x = .checkTP ∧ s.tpcount_ ≠ 0 ∨ x = .checkMC ∧ s.mccount_ ≠ 0 ∨ x = .spin ∧ s.spin_ = true := by
  have hobj : .newSched ∉ s.rest th → s.obj th ≠ none := by
    intro hno
    obtain ⟨o, ho, -⟩ := h.obj th hno
    rw [ho]
    simp
  cases x with
  | newSched => rcases th with i | ⟨i, j⟩ <;> cases hwait
  | setID | setNumPeers | setThread =>
    exact absurd (Option.map_eq_none_iff.mp hwait) (hobj (hc.not_mem_of_head hrest (by decide)))
  | addAliveSignal =>
    simp only [exec, threadId_lt th, if_true] at hwait
    cases hwait
  | decTP | decMC | decFull | clearSpin => cases hwait
  | checkTP =>
    refine .inl ⟨rfl, fun hz => ?_⟩
    simp [exec, hz] at hwait
  | checkMC =>
    refine .inr (.inl ⟨rfl, fun hz => ?_⟩)
    simp [exec, hz] at hwait
  | spin =>
    refine .inr (.inr ⟨rfl, ?_⟩)
    by_contra hz
    simp [exec, hz] at hwait
  | linkTPSched =>
    obtain rfl : th = .tp (first rt) :=
      eq_first (.inl ((hc.suffix th).subset (hrest ▸ List.mem_cons_self ..)))
    have hzero := hc.checkedTP (hc.not_mem_of_head hrest (by decide))
    obtain ⟨t, ht, -⟩ := linkTPSched_spec (h.tpReady hc hzero)
    exact absurd (ht.symm.trans hwait) (by simp)
  | linkMCSched =>
    obtain rfl : th = .tp (first rt) :=
      eq_first (.inr (.inl ((hc.suffix th).subset (hrest ▸ List.mem_cons_self ..))))
    have hzero := hc.checkedTP (hc.not_mem_of_head hrest (by decide))
    have hzero' := hc.checkedMC (hc.not_mem_of_head hrest (by decide))
    obtain ⟨t, ht, -⟩ := linkMCSched_spec (h.mcReady hc hzero hzero')
    exact absurd (ht.symm.trans hwait) (by simp)

/-- **The start-up does not block**: when no thread can move, every thread has called
`policy()`. -/
theorem startup_progress (hs : Reachable (step rt) (start rt) s) (hstuck : Stuck (step rt) s)
    (th : RtThread rt) : s.rest th = [] := by
  have hc := Counts.reachable hs
  have h := Objects.reachable hs
  have hwait : ∀ (th : RtThread rt) x xs, s.rest th = x :: xs →
      x = .checkTP ∧ s.tpcount_ ≠ 0 ∨ x = .checkMC ∧ s.mccount_ ≠ 0 ∨
        x = .spin ∧ s.spin_ = true := by
    intro th x xs hrest
    refine h.waiting hc hrest ?_
    have hnone := hstuck th
    unfold step at hnone
    rw [hrest] at hnone
    exact Option.map_eq_none_iff.mp hnone
  -- every thread is past the decrements that come before the places where one can wait
  have hpast : ∀ {y : Stmt}, (∀ L ∈ [TPThread0, TPThread, MCThread],
      y ∉ .checkTP :: L.drop (L.idxOf .checkTP + 1) ∧ y ∉ .checkMC :: L.drop (L.idxOf .checkMC + 1) ∧
      y ∉ .spin :: L.drop (L.idxOf .spin + 1)) → remaining s y = 0 := by
    intro y hy
    refine remaining_eq_zero.mpr fun th => ?_
    cases hrest : s.rest th with
    | nil => exact List.not_mem_nil
    | cons x xs =>
      rw [← hrest]
      refine hc.not_mem_of_head hrest fun L hL => ?_
      rcases hwait th x xs hrest with ⟨rfl, -⟩ | ⟨rfl, -⟩ | ⟨rfl, -⟩
      · exact (hy L hL).1
      · exact (hy L hL).2.1
      · exact (hy L hL).2.2
  have hTP : s.tpcount_ = 0 := hc.tpcount.trans (hpast (by decide))
  have hMC : s.mccount_ = 0 := hc.mccount.trans (hpast (by decide))
  have hspin : ∀ (th : RtThread rt) x xs, s.rest th = x :: xs → x = .spin ∧ s.spin_ = true := by
    intro th x xs hrest
    rcases hwait th x xs hrest with ⟨-, hne⟩ | ⟨-, hne⟩ | hspin
    · exact absurd hTP hne
    · exact absurd hMC hne
    · exact hspin
  have hgone : ∀ {y : Stmt}, (∀ L ∈ [TPThread0, TPThread, MCThread],
      y ∉ .spin :: L.drop (L.idxOf .spin + 1)) → ∀ th, y ∉ s.rest th := by
    intro y hy th
    cases hrest : s.rest th with
    | nil => exact List.not_mem_nil
    | cons x xs =>
      rw [← hrest]
      obtain ⟨rfl, -⟩ := hspin th x xs hrest
      exact hc.not_mem_of_head hrest hy
  cases hrest : s.rest th with
  | nil => rfl
  | cons x xs =>
    exfalso
    obtain ⟨-, htrue⟩ := hspin th x xs hrest
    rcases hc.opened (remaining_eq_zero.mpr (hgone (by decide))) with hfalse | ⟨th', -, hin⟩
    · rw [htrue] at hfalse
      cases hfalse
    · exact hgone (by decide) th' hin

/-- Every run executes each statement of each thread at most once. -/
theorem run_length_le {ths : List (RtThread rt)} (hrun : run (step rt) (start rt) ths = some s) :
    ths.length ≤ ∑ th : RtThread rt, (program th).length := by
  refine Transition.run_length_le
    (fun s m => m + ∑ th, (s.rest th).length = ∑ th : RtThread rt, (program th).length)
    (Nat.zero_add _) (fun s m th t hW hst => ?_) (fun s m hW => by omega) hrun
  obtain ⟨x, xs, s', hrest, -, rfl⟩ := step_inv hst
  have hlen : ∀ th', (s.rest th').length =
      (Function.update s.rest th xs th').length + if th' = th then 1 else 0 := by
    intro th'
    by_cases hth : th' = th
    · subst hth
      rw [hrest, Function.update_self, if_pos rfl, List.length_cons]
    · rw [Function.update_of_ne hth, if_neg hth, Nat.add_zero]
  rw [Finset.sum_congr rfl fun th' _ => hlen th', Finset.sum_add_distrib, Finset.sum_ite_eq',
    if_pos (Finset.mem_univ _)] at hW
  dsimp only
  omega

/-- **No scheduler starts before the machine is linked.** For every number of clusters and
of workers per cluster and in every interleaving: when a thread has executed its last
statement before `policy()`, the runtime is complete, and the thread works for its own
scheduler and for the TP scheduler of its cluster. -/
theorem startup_linked (rt : Runtime) (s : State rt.numTPSched_ rt.numMCSched_)
    (hs : Reachable (step rt) (start rt) s) (th : RtThread rt) (hth : s.rest th = []) :
    Linked s ∧ match th with
      | .tp i => s.threadTPsched th = s.TPSched_ i ∧ s.threadMCsched th = none
      | .mc i j => s.threadTPsched th = s.TPSched_ i ∧
          s.threadMCsched th = s.MCSched_ (rt.worker i j) := by
  have hc := Counts.reachable hs
  have h := Objects.reachable hs
  have hlast := hc.through hth
  refine ⟨h.linked hc hlast, ?_⟩
  have hslot : ∀ th, slotOf s th = some th := fun th => h.slot th (hc.prepared hlast th).1
  have hown := h.own th (by rw [hth]; exact List.not_mem_nil)
  rcases th with i | ⟨i, j⟩
  · exact ⟨hown.1.trans (hslot (.tp i)).symm, hown.2⟩
  · exact ⟨hown.1.trans (hslot (.tp i)).symm, hown.2.trans (hslot (.mc i j)).symm⟩

/-- Two clusters of one worker: a run in which everybody gets through. -/
theorem startup_linked_two : ∃ (rt : Runtime) (s : State rt.numTPSched_ rt.numMCSched_)
    (th : RtThread rt), rt.numTPSched_ = 2 ∧ rt.numMCSched_ = 1 ∧
      Reachable (step rt) (start rt) s ∧ s.rest th = [] ∧ Linked s := by
  obtain ⟨s, hs, hstuck⟩ := Reachable.exists_stuck (fun _ _ hrun => run_length_le hrun)
    (.start : Reachable (step ⟨2, 1, by decide, by decide⟩) (start ⟨2, 1, by decide, by decide⟩) _)
  have hdone := startup_progress hs hstuck (.mc ⟨1, by decide⟩ ⟨0, by decide⟩)
  exact ⟨_, s, _, rfl, rfl, hs, hdone, (startup_linked _ s hs _ hdone).1⟩

end Darts.Startup
