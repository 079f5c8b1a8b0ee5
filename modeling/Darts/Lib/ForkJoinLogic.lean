import Mathlib.Data.Set.Function
import Mathlib.Order.CompletePartialOrder
import Darts.Lib.ForkJoin

/-!
# Parallel tasks that do not write what others use

`Ok exec k p S R Q m` says of a process `p` on a memory `m`: as long as others leave the
part `S` of the memory alone, it writes only the part `R`; it runs at most `k` tasks,
every order and choice included; and when it has sent its last signal, `Q` holds.
Processes in parallel do not write what the other relies on (`Ok.par`), and what a
waiting task finds is what those it waited for have left (`Ok.wait`).

`Ok.completes` is soundness: an `Ok` process that sends one signal sends it exactly once,
in every run, and then `Q` holds and the memory outside `R` is as it was.
-/

namespace ForkJoin

open Transition

variable {C Ω L V : Type} (exec : C → Ω → (L → V) → (L → V) × Option (Proc C))

/-- What `Ok` says is at the top of the file. -/
inductive Ok : Nat → Proc C → Set L → Set L → ((L → V) → Prop) → (L → V) → Prop
  | done {k : Nat} {S R : Set L} {Q : (L → V) → Prop} {m : L → V} :
      (∀ m', Set.EqOn m m' S → Q m') → Ok k .done S R Q m
  | run {k : Nat} {c : C} {S R : Set L} {Q : (L → V) → Prop} {m : L → V} :
      (∀ ω m', Set.EqOn m m' S → Set.EqOn m' (exec c ω m').1 Rᶜ) →
      (∀ ω m', Set.EqOn m m' S → ∀ q ∈ (exec c ω m').2, q.signals = 1) →
      (∀ ω m', Set.EqOn m m' S → Ok k ((exec c ω m').2.getD .done) S R Q (exec c ω m').1) →
      Ok (k + 1) (.run c) S R Q m
  | par {k k₁ k₂ : Nat} {p₁ p₂ : Proc C} {S R S₁ R₁ S₂ R₂ : Set L} {Q Q₁ Q₂ : (L → V) → Prop}
      {m : L → V} :
      Disjoint R₁ S₂ → Disjoint R₂ S₁ → S₁ ⊆ S → S₂ ⊆ S → R₁ ⊆ R → R₂ ⊆ R →
      Ok k₁ p₁ S₁ R₁ Q₁ m → Ok k₂ p₂ S₂ R₂ Q₂ m →
      (∀ m', Set.EqOn m m' (S \ (R₁ ∪ R₂)) → Q₁ m' → Q₂ m' → Q m') → k₁ + k₂ ≤ k →
      Ok k (.par p₁ p₂) S R Q m
  | wait {k k₁ k₂ n : Nat} {c : C} {p : Proc C} {S R : Set L} {Q Q' : (L → V) → Prop} {m : L → V} :
      n = p.signals → 0 < n → Ok k₁ p S R Q' m → (∀ m', Q' m' → Ok k₂ (.run c) S R Q m') →
      k₁ + k₂ ≤ k → Ok k (.wait n c p) S R Q m

variable {exec} {k k' : Nat} {p p' : Proc C} {S R : Set L} {Q : (L → V) → Prop} {m m' : L → V}

namespace Ok

theorem wellFormed (h : Ok exec k p S R Q m) : p.WellFormed := by
  induction h with
  | done | run => trivial
  | par _ _ _ _ _ _ _ _ _ _ ih₁ ih₂ => exact ⟨ih₁, ih₂⟩
  | wait hn hpos _ _ _ ih => exact ⟨hn, hpos, ih⟩

/-- A task, by what one run of it does on a memory that `S` cannot tell from `m`. -/
theorem of_run {c : C} (h : ∀ ω m', Set.EqOn m m' S → Set.EqOn m' (exec c ω m').1 Rᶜ ∧
    (∀ q ∈ (exec c ω m').2, q.signals = 1) ∧
    Ok exec k ((exec c ω m').2.getD .done) S R Q (exec c ω m').1) :
    Ok exec (k + 1) (.run c) S R Q m :=
  .run (fun ω m' hm => (h ω m' hm).1) (fun ω m' hm => (h ω m' hm).2.1)
    fun ω m' hm => (h ω m' hm).2.2

/-- What others do elsewhere does not matter. -/
theorem stable (h : Ok exec k p S R Q m) (hm : Set.EqOn m m' S) : Ok exec k p S R Q m' := by
  induction h generalizing m' with
  | done hQ => exact .done fun m'' h => hQ m'' (hm.trans h)
  | run hframe hone hnext _ =>
    exact .run (fun ω m'' h => hframe ω m'' (hm.trans h)) (fun ω m'' h => hone ω m'' (hm.trans h))
      fun ω m'' h => hnext ω m'' (hm.trans h)
  | par hd₁ hd₂ hS₁ hS₂ hR₁ hR₂ _ _ hQ hk ih₁ ih₂ =>
    exact .par hd₁ hd₂ hS₁ hS₂ hR₁ hR₂ (ih₁ (hm.mono hS₁)) (ih₂ (hm.mono hS₂))
      (fun m'' h => hQ m'' ((hm.mono Set.sdiff_subset).trans h)) hk
  | wait hn hpos _ hk hle ih => exact .wait hn hpos (ih hm) hk hle

/-- More tasks may be allowed. -/
theorem mono (h : Ok exec k p S R Q m) (hk : k ≤ k') : Ok exec k' p S R Q m := by
  induction h generalizing k' with
  | done hQ => exact .done hQ
  | run hframe hone hnext ih =>
    obtain ⟨j, rfl⟩ := Nat.exists_eq_add_of_le hk
    rw [Nat.add_right_comm]
    exact .run hframe hone fun ω m'' h => ih ω m'' h (Nat.le_add_right _ j)
  | par hd₁ hd₂ hS₁ hS₂ hR₁ hR₂ hok₁ hok₂ hQ hle =>
    exact .par hd₁ hd₂ hS₁ hS₂ hR₁ hR₂ hok₁ hok₂ hQ (hle.trans hk)
  | wait hn hpos hok hnext hle => exact .wait hn hpos hok hnext (hle.trans hk)

/-- More may be relied on and written, and less promised. -/
theorem weaken {S' R' : Set L} {Q' : (L → V) → Prop} (h : Ok exec k p S R Q m) (hS : S ⊆ S')
    (hR : R ⊆ R') (hQ : ∀ m, Q m → Q' m) : Ok exec k p S' R' Q' m := by
  induction h generalizing S' R' Q' with
  | done h => exact .done fun m' hm => hQ m' (h m' (hm.mono hS))
  | run hframe hone hnext ih =>
    exact .run (fun ω m' hm => (hframe ω m' (hm.mono hS)).mono (Set.compl_subset_compl.mpr hR))
      (fun ω m' hm => hone ω m' (hm.mono hS)) fun ω m' hm => ih ω m' (hm.mono hS) hS hR hQ
  | par hd₁ hd₂ hS₁ hS₂ hR₁ hR₂ hok₁ hok₂ h hle =>
    exact .par hd₁ hd₂ (hS₁.trans hS) (hS₂.trans hS) (hR₁.trans hR) (hR₂.trans hR) hok₁ hok₂
      (fun m' hm h₁ h₂ => hQ m' (h m' (hm.mono (Set.sdiff_subset_sdiff_left hS)) h₁ h₂)) hle
  | wait hn hpos _ _ hle ih ihnext =>
    exact .wait hn hpos (ih hS hR fun _ h => h) (fun m' hm => ihnext m' hm hS hR hQ) hle

/-- A process that has sent all its signals has left what it promised. -/
theorem post (h : Ok exec k p S R Q m) (hp : p.signals = 0) : Q m := by
  induction h with
  | done hQ => exact hQ _ (Set.eqOn_refl ..)
  | run => simp [Proc.signals] at hp
  | par _ _ _ _ _ _ _ _ hQ _ ih₁ ih₂ =>
    simp only [Proc.signals] at hp
    exact hQ _ (Set.eqOn_refl ..) (ih₁ (by omega)) (ih₂ (by omega))
  | wait => simp [Proc.signals] at hp

/-- What a task of an `Ok` process leaves sends one signal, and its counters are right. -/
theorem task {c : C} (h : Ok exec k p S R Q m) (hc : p.Ready c) (ω : Ω) :
    ∀ q ∈ (exec c ω m).2, q.signals = 1 ∧ q.WellFormed := by
  induction h with
  | done => exact absurd hc id
  | run _ hone hnext _ =>
    obtain rfl : _ = c := hc
    intro q hq
    have hok := hnext ω _ (Set.eqOn_refl ..)
    rw [Option.mem_def.mp hq] at hok
    exact ⟨hone ω _ (Set.eqOn_refl ..) q hq, hok.wellFormed⟩
  | par _ _ _ _ _ _ _ _ _ _ ih₁ ih₂ => exact hc.elim ih₁ ih₂
  | wait _ _ _ _ _ ih => exact ih hc

/-- One task of an `Ok` process is run: what is left is `Ok`, with one task less to go, and
the rest of the memory is as it was. -/
theorem fires {c : C} {ω : Ω} {b : Bool} {r : Option (Proc C)} (h : Ok exec k p S R Q m)
    (hr : (exec c ω m).2 = r) (hf : Fires c r p p' b) :
    (∀ q ∈ r, q.signals = 1) ∧ Set.EqOn m (exec c ω m).1 Rᶜ ∧
      ∃ k' < k, Ok exec k' p' S R Q (exec c ω m).1 := by
  induction h generalizing p' b with
  | done => cases hf
  | @run k c' S R Q m hframe hone hnext _ =>
    have hleft : c' = c ∧ p' = r.getD .done := by
      cases hf with
      | next => exact ⟨rfl, rfl⟩
      | last => exact ⟨rfl, rfl⟩
    obtain ⟨rfl, rfl⟩ := hleft
    have heq : Set.EqOn m m S := Set.eqOn_refl ..
    subst hr
    exact ⟨hone ω m heq, hframe ω m heq, k, Nat.lt_succ_self k, hnext ω m heq⟩
  | @par k k₁ k₂ p₁ p₂ S R S₁ R₁ S₂ R₂ Q Q₁ Q₂ m hd₁ hd₂ hS₁ hS₂ hR₁ hR₂ hok₁ hok₂ hQ hk ih₁ ih₂ =>
    cases hf with
    | left hf =>
      obtain ⟨hone, hoff, k', hlt, hok⟩ := ih₁ hr hf
      have hother := hok₂.stable (hoff.mono (Set.subset_compl_iff_disjoint_left.mpr hd₁))
      have hoff' : Set.EqOn m (exec c ω m).1 (S \ (R₁ ∪ R₂)) :=
        hoff.mono fun l hl h => hl.2 (Or.inl h)
      exact ⟨hone, hoff.mono (Set.compl_subset_compl.mpr hR₁), k' + k₂, by omega,
        .par hd₁ hd₂ hS₁ hS₂ hR₁ hR₂ hok hother (fun m'' h => hQ m'' (hoff'.trans h)) le_rfl⟩
    | right hf =>
      obtain ⟨hone, hoff, k', hlt, hok⟩ := ih₂ hr hf
      have hother := hok₁.stable (hoff.mono (Set.subset_compl_iff_disjoint_left.mpr hd₂))
      have hoff' : Set.EqOn m (exec c ω m).1 (S \ (R₁ ∪ R₂)) :=
        hoff.mono fun l hl h => hl.2 (Or.inr h)
      exact ⟨hone, hoff.mono (Set.compl_subset_compl.mpr hR₂), k₁ + k', by omega,
        .par hd₁ hd₂ hS₁ hS₂ hR₁ hR₂ hother hok (fun m'' h => hQ m'' (hoff'.trans h)) le_rfl⟩
  | @wait k k₁ k₂ n d p S R Q Q' m hn hpos hok hnext hk ih =>
    cases hf with
    | inner hf =>
      obtain ⟨hone, hoff, k', hlt, hok'⟩ := ih hr hf
      have hsig := hf.signals_eq hone
      exact ⟨hone, hoff, k' + k₂, by omega, .wait (hn.trans hsig) hpos hok' hnext le_rfl⟩
    | more hf hne =>
      obtain ⟨hone, hoff, k', hlt, hok'⟩ := ih hr hf
      have hsig := hf.signals_eq hone
      simp only [if_true] at hsig
      exact ⟨hone, hoff, k' + k₂, by omega, .wait (by omega) (by omega) hok' hnext le_rfl⟩
    | wake hf =>
      obtain ⟨hone, hoff, k', hlt, hok'⟩ := ih hr hf
      have hsig := hf.signals_eq hone
      simp only [if_true] at hsig
      exact ⟨hone, hoff, k₂, by omega, hnext _ (hok'.post (by omega))⟩

/-- A list of processes in parallel, each with a part of the memory of its own. -/
theorem all {ι : Type} {l : List ι} {proc : ι → Proc C} {U : ι → Set L} {P : ι → (L → V) → Prop}
    (hl : l.Nodup) (hd : ∀ i ∈ l, ∀ j ∈ l, i ≠ j → Disjoint (U i) (U j))
    (h : ∀ i ∈ l, Ok exec k (proc i) (U i) (U i) (P i) m) :
    Ok exec (l.length * k) (.all (l.map proc)) (⋃ i ∈ l, U i) (⋃ i ∈ l, U i)
      (fun m' => ∀ i ∈ l, P i m') m := by
  induction l with
  | nil => exact .done fun m' _ i hi => by simp at hi
  | cons i l ih =>
    obtain ⟨hi, hl⟩ := List.nodup_cons.mp hl
    have hrest := ih hl (fun i hi j hj => hd i (List.mem_cons_of_mem _ hi) j (List.mem_cons_of_mem _ hj))
      fun i hi => h i (List.mem_cons_of_mem _ hi)
    have hapart : Disjoint (U i) (⋃ j ∈ l, U j) := by
      refine Set.disjoint_iUnion₂_right.mpr fun j hj => ?_
      exact hd i (List.mem_cons_self ..) j (List.mem_cons_of_mem _ hj) fun heq => hi (heq ▸ hj)
    have hsub : U i ⊆ ⋃ j ∈ i :: l, U j :=
      Set.subset_iUnion₂_of_subset i (List.mem_cons_self ..) subset_rfl
    have hsub' : (⋃ j ∈ l, U j) ⊆ ⋃ j ∈ i :: l, U j :=
      Set.iUnion₂_subset fun j hj =>
        Set.subset_iUnion₂_of_subset j (List.mem_cons_of_mem _ hj) subset_rfl
    refine .par hapart hapart.symm hsub hsub' hsub hsub' (h i (List.mem_cons_self ..)) hrest
      (fun m' _ hP hPs j hj => ?_) (by rw [List.length_cons, Nat.succ_mul]; omega)
    rcases List.mem_cons.mp hj with rfl | hj
    · exact hP
    · exact hPs j hj

end Ok

/-! ## Soundness -/

/-- The process left in a state, with at most `k` tasks to go. -/
def Left (exec : C → Ω → (L → V) → (L → V) × Option (Proc C)) (Q : (L → V) → Prop) (k : Nat)
    (s : State C L V) : Prop :=
  ∃ p rs ids, Rep s.slots p none rs ids ∧ s.ready.Perm rs ∧ Ok exec k p Set.univ Set.univ Q s.mem ∧
    s.signalled + p.signals = 1

/-- A process that is started is left. -/
theorem left_launch (h : Ok exec k p Set.univ Set.univ Q m) (hp : p.signals = 1) :
    Left exec Q k (launch p m) := by
  obtain ⟨ws, rs, ids, hstart, hrep, -⟩ :=
    start_spec h.wellFormed none ({ mem := m, slots := [], ready := [], signalled := 0 } : State C L V)
  unfold launch
  rw [hstart]
  exact ⟨p, rs, ids, hrep, .refl _, h, by simpa using hp⟩

/-- A ready task is taken out of the pool. -/
private theorem ready_perm {s : State C L V} {c : C} {f : Option Nat} {pos : Nat}
    (hpos : s.ready[pos]? = some (c, f)) : s.ready.Perm ((c, f) :: s.ready.eraseIdx pos) := by
  obtain ⟨hlt, hget⟩ := List.getElem?_eq_some_iff.mp hpos
  rw [← hget]
  exact (List.getElem_cons_eraseIdx_perm hlt).symm

/-- A task that is done leaves less, and one signal less to come. -/
private theorem left_done {s : State C L V} {c : C} {f : Option Nat} {pos : Nat} {ω : Ω}
    (h : Left exec Q k s) (hpos : s.ready[pos]? = some (c, f)) (hr : (exec c ω s.mem).2 = none) :
    ∃ k' < k, Left exec Q k'
      (State.signal { s with mem := (exec c ω s.mem).1, ready := s.ready.eraseIdx pos } f) := by
  obtain ⟨p, rs, ids, hrep, hperm, hok, hsig⟩ := h
  have hc : (c, f) ∈ rs := hperm.mem_iff.mp (List.mem_of_getElem? hpos)
  obtain ⟨p', rs₀, ids', b, hrs, -, hf, hcase⟩ := fires_of_none hrep hc
  have hrest : (s.ready.eraseIdx pos).Perm rs₀ :=
    ((ready_perm hpos).symm.trans (hperm.trans hrs)).cons_inv
  obtain ⟨hone, -, k', hlt, hok'⟩ := hok.fires hr hf
  have hsig' := hf.signals_eq hone
  refine ⟨k', hlt, ?_⟩
  cases b with
  | true =>
    -- it was the last one of all
    obtain ⟨rfl, hrep'⟩ := hcase
    simp only [if_true] at hsig'
    refine ⟨p', rs₀, ids', hrep', hrest, hok', ?_⟩
    simp only [State.signal]
    omega
  | false =>
    -- a slot has been signalled, and its task may be ready now
    obtain ⟨id, w, rs', rfl, -, hw, hrs', hrep'⟩ := hcase
    simp only [Bool.false_eq_true, if_false, Nat.add_zero] at hsig'
    simp only [State.signal, hw]
    refine ⟨p', rs', ids', hrep', ?_, hok', hsig' ▸ hsig⟩
    exact (hrest.append_right _).trans hrs'.symm

/-- A task that leaves a process has made one step of it. -/
private theorem left_start {s : State C L V} {c : C} {f : Option Nat} {pos : Nat} {ω : Ω} {q : Proc C}
    (h : Left exec Q k s) (hpos : s.ready[pos]? = some (c, f)) (hr : (exec c ω s.mem).2 = some q) :
    ∃ k' < k, Left exec Q k'
      (State.start q f { s with mem := (exec c ω s.mem).1, ready := s.ready.eraseIdx pos }) := by
  obtain ⟨p, rs, ids, hrep, hperm, hok, hsig⟩ := h
  have hc : (c, f) ∈ rs := hperm.mem_iff.mp (List.mem_of_getElem? hpos)
  obtain ⟨hq1, hwf⟩ := hok.task (hrep.ready hc) ω q hr
  obtain ⟨ws, rq, idq, hstart, hrepq, hidq⟩ := start_spec hwf f
    { s with mem := (exec c ω s.mem).1, ready := s.ready.eraseIdx pos }
  -- the slots of `q` are behind those that exist
  have hrep' : Rep (s.slots ++ ws) p none rs ids :=
    hrep.congr fun id hid => List.getElem?_append_left (hrep.lt id hid)
  obtain ⟨p', rs₀, rs', ids', hrs, hrs', hrep'', -, hf⟩ := fires_of_some hrep' hc hrepq hq1
    fun id hid h => absurd (hrep.lt id h) (Nat.not_lt.mpr (hidq id hid))
  have hrest : (s.ready.eraseIdx pos).Perm rs₀ :=
    ((ready_perm hpos).symm.trans (hperm.trans hrs)).cons_inv
  obtain ⟨hone, -, k', hlt, hok'⟩ := hok.fires hr hf
  have hsig' := hf.signals_eq hone
  simp only [Bool.false_eq_true, if_false, Nat.add_zero] at hsig'
  rw [hstart]
  exact ⟨k', hlt, p', rs', ids', hrep'', (hrest.append_right _).trans hrs'.symm, hok',
    hsig' ▸ hsig⟩

/-- Every step leaves less. -/
theorem left_step {s t : State C L V} {l : Nat × Ω} (h : Left exec Q k s)
    (hl : step exec s l = some t) : ∃ k' < k, Left exec Q k' t := by
  obtain ⟨pos, ω⟩ := l
  simp only [step] at hl
  split at hl
  next => cases hl
  next c f hpos =>
    obtain rfl := Option.some.inj hl
    cases hr : (exec c ω s.mem).2 with
    | none => exact left_done h hpos hr
    | some q => exact left_start h hpos hr

/-- What is known of a process that signals once, in every run: the signal is sent at most
once, and then the memory is as promised and nothing is left to be done; no run is longer
than `k` steps; and a run that cannot go on has sent the signal. -/
structure Completes (exec : C → Ω → (L → V) → (L → V) × Option (Proc C)) (p : Proc C) (m : L → V)
    (k : Nat) (Q : (L → V) → Prop) : Prop where
  once : ∀ s, Reachable (step exec) (launch p m) s →
    s.signalled = 0 ∨ (s.signalled = 1 ∧ Q s.mem ∧ s.ready = [])
  bound : ∀ ls s, Transition.run (step exec) (launch p m) ls = some s → ls.length ≤ k
  signals : ∀ s, Reachable (step exec) (launch p m) s → Stuck (step exec) s → s.signalled = 1

theorem Completes.imp {Q' : (L → V) → Prop} (h : Completes exec p m k Q) (hQ : ∀ m, Q m → Q' m) :
    Completes exec p m k Q' where
  once s hs := (h.once s hs).imp_right fun h => ⟨h.1, hQ _ h.2.1, h.2.2⟩
  bound := h.bound
  signals := h.signals

/-- Every run can be continued to one in which the signal has been sent. -/
theorem Completes.reaches (h : Completes exec p m k Q) {s : State C L V}
    (hs : Reachable (step exec) (launch p m) s) :
    ∃ t, Reachable (step exec) s t ∧ t.signalled = 1 ∧ Q t.mem := by
  obtain ⟨t, hst, hstuck⟩ := hs.exists_stuck h.bound
  have ht := hs.trans hst
  have hsig := h.signals t ht hstuck
  obtain hzero | ⟨-, hQ, -⟩ := h.once t ht
  · omega
  · exact ⟨t, hst, hsig, hQ⟩

theorem Left.once {s : State C L V} (h : Left exec Q k s) :
    s.signalled = 0 ∨ (s.signalled = 1 ∧ Q s.mem ∧ s.ready = []) := by
  obtain ⟨p, rs, ids, hrep, hperm, hok, hsig⟩ := h
  by_cases hp : p.signals = 0
  · have hrs : rs = [] := hrep.idle_iff.mpr hp
    exact Or.inr ⟨by omega, hok.post hp, (hrs ▸ hperm).eq_nil⟩
  · exact Or.inl (by omega)

/-- As long as the signal has not been sent, a task is ready. -/
theorem Left.ready {s : State C L V} (h : Left exec Q k s) (hs : s.ready = []) :
    s.signalled = 1 := by
  obtain ⟨p, rs, ids, hrep, hperm, hok, hsig⟩ := h
  have hrs : rs = [] := (hs ▸ hperm).symm.eq_nil
  have hp := hrep.idle_iff.mp hrs
  omega

/-- An `Ok` process leaves what it does not write alone. -/
theorem Ok.framed (h : Ok exec k p S R Q m) :
    Ok exec k (.par p .done) Set.univ Set.univ (fun m' => Q m' ∧ Set.EqOn m m' Rᶜ) m := by
  have hdone : Ok exec 0 .done ∅ ∅ (fun _ => True) m := .done fun _ _ => trivial
  refine .par (Set.disjoint_empty R) (Set.empty_disjoint S) (Set.subset_univ _) (Set.empty_subset _)
    (Set.subset_univ _) (Set.empty_subset _) h hdone
    (fun m' hoff hQ _ => ⟨hQ, hoff.mono fun l hl => ?_⟩) le_rfl
  exact ⟨trivial, fun h => hl (h.elim id False.elim)⟩

/-- **Soundness**. -/
theorem Ok.completes [Nonempty Ω] (hok : Ok exec k p S R Q m) (hsig : p.signals = 1) :
    Completes exec p m k fun m' => Q m' ∧ Set.EqOn m m' Rᶜ := by
  -- nothing in parallel makes no difference to the machine
  have hstart : Left exec _ k (launch p m) := left_launch (p := .par p .done) hok.framed hsig
  generalize (fun m' => Q m' ∧ Set.EqOn m m' Rᶜ) = Q' at hstart
  have hreach : ∀ s, Reachable (step exec) (launch p m) s → ∃ k', Left exec Q' k' s := by
    intro s hs
    refine hs.invariant (fun s => ∃ k', Left exec Q' k' s) ⟨k, hstart⟩ ?_
    intro s l t _ ⟨j, hj⟩ hl
    obtain ⟨k', -, hk'⟩ := left_step hj hl
    exact ⟨k', hk'⟩
  refine { once := fun s hs => ?_, bound := fun ls s hrun => ?_, signals := fun s hs hstuck => ?_ }
  · obtain ⟨k', hk'⟩ := hreach s hs
    exact hk'.once
  · refine run_length_le (fun s work => ∃ k', Left exec Q' k' s ∧ k' + work ≤ k)
      ⟨k, hstart, le_rfl⟩ ?_ (fun s work ⟨k', _, hle⟩ => by omega) hrun
    intro s work l t ⟨j, hj, hle⟩ hl
    obtain ⟨k', hlt, hk'⟩ := left_step hj hl
    exact ⟨k', hk', by omega⟩
  · obtain ⟨k', hk'⟩ := hreach s hs
    refine hk'.ready (List.eq_nil_iff_forall_not_mem.mpr fun x hx => ?_)
    obtain ⟨pos, hpos⟩ := List.mem_iff_getElem?.mp hx
    obtain ⟨ω⟩ := ‹Nonempty Ω›
    have := hstuck (pos, ω)
    simp [step, hpos] at this

end ForkJoin
