import Darts.CannonDfswp.Control
import Darts.Lib.Suffix

/-!
# What happens before what in the pipelined `cannonTP`

`Executed` says that an action of a copy, skew or end codelet has been carried
out. A codelet that has started finds everything executed that its sources do
before they signal it; along the pipeline this orders the phases: gather before
skew, every skew before every compute codelet, all `n` turns of a tile before
its scatter, every scatter before the end.
-/

namespace Darts.CannonDfswp

open Cannon Transition

variable {R : Type} {n p : Nat} [CommRing R] {blas : Blas R}
  {s t : State (Cod n) (Act n) (Frame R n p)}

/-- An action has been executed. -/
def Executed (blas : Blas R) (s : State (Cod n) (Act n) (Frame R n p)) (a : Act n) : Prop :=
  .act a ∉ OneShot.todo (cannonTP blas n p) s a.owner

/-- The owner loops, so "executed" has no meaning for it. -/
def Act.Once (a : Act n) : Prop := ∀ i, a.owner ≠ .compute i

instance (a : Act n) : Decidable (Executed blas s a) := inferInstanceAs (Decidable (¬_))

/-- The codelet whose action is executed has started, once. -/
theorem Ctl.owner_started (h : Ctl blas s) {l : Label (Cod n)} {a : Act n}
    (ha : s.nextAct l = some a) : s.fired a.owner = 1 := by
  obtain ⟨k, j, os, rfl, hrest⟩ := State.nextAct_eq_some ha
  obtain ⟨rfl, -, hf⟩ := h.owner hrest
  exact hf

/-- An action of a compute codelet tells where the codelet stands. -/
theorem Ctl.headAct_point (h : Ctl blas s) {l : Label (Cod n)} {a : Act n} {i : Tile n}
    (ha : s.nextAct l = some a) (hi : a.owner = .compute i) :
    Op.headAct ((point s i).rest i) = some a := by
  obtain ⟨k, j, os, rfl, hrest⟩ := State.nextAct_eq_some ha
  obtain ⟨rfl, rfl, -⟩ := h.owner hrest
  rw [← h.rest_compute i, ← hi, hrest]
  rfl

theorem Ctl.not_executed (h : Ctl blas s) {l : Label (Cod n)} {a : Act n}
    (ha : s.nextAct l = some a) : ¬Executed blas s a := by
  obtain ⟨k, j, os, rfl, hrest⟩ := State.nextAct_eq_some ha
  obtain ⟨rfl, -, -⟩ := h.owner hrest
  obtain ⟨-, -, htodo⟩ := h.one.todo_of_rest trivial hrest
  rw [Executed, htodo, not_not]
  exact List.mem_cons_self ..

/-- **A step executes the action it carries and no other.** -/
theorem Ctl.executed_step (h : Ctl blas s) {l : Label (Cod n)}
    (hl : (cannonTP blas n p).step s l = some t) {a : Act n} (ha : a.Once) :
    Executed blas t a ↔ Executed blas s a ∨ s.nextAct l = some a := by
  cases l with
  | fire k =>
    cases Program.step_inv hl with
    | fire _ hpool =>
      have htodo : OneShot.todo (cannonTP blas n p)
            (s.begin k ((cannonTP blas n p).fire k)) a.owner =
          OneShot.todo (cannonTP blas n p) s a.owner := by
        have hle := h.one.fired_le_one (k := k) trivial
        simp only [OneShot.todo, State.begin_fired, State.begin_rest]
        by_cases he : a.owner = k
        · have hf : s.fired k = 0 := by omega
          simp [he, hf, cannonTP]
        · simp [he]
      rw [Executed, Executed, htodo]
      simp [State.nextAct]
  | op k j =>
    obtain ⟨o, os, os', hrest, hfired, hr, hmem⟩ := Program.rest_of_op hl
    obtain ⟨rfl, hf, htodo⟩ := h.one.todo_of_rest trivial hrest
    by_cases hk : a.owner = k
    · have hos : os' = os := by
        rcases hmem with ⟨-, he, -⟩ | ⟨b, new, rfl, hexec, rfl⟩
        · exact he
        · have hrun : exec blas b s.mem = some (t.mem, new) := hexec
          rw [exec_rest hrun, List.nil_append]
          rintro i rfl
          exact ha i (hk.trans (h.owner hrest).1)
      have ht : OneShot.todo (cannonTP blas n p) t a.owner = os := by
        rw [OneShot.todo, hk, hfired, if_neg (by omega), hr, State.setRest_rest_self, hos]
      have hnext : s.nextAct (.op k 0) = some a ↔ o = .act a := by
        rw [State.nextAct, hrest]
        cases o <;> simp [Op.headAct]
      have hnd : (o :: os).Nodup := by
        have hsuf := h.suffix k 0 (fun i hi => ha i (hk.trans hi))
        rw [hrest] at hsuf
        exact (nodup_fireBody k).sublist hsuf.sublist
      rw [Executed, Executed, ht, hk, htodo, hnext, List.mem_cons]
      constructor
      · intro hno
        by_cases he : o = .act a
        · exact Or.inr he
        · exact Or.inl (by simp [hno, Ne.symm he])
      · rintro (hno | rfl)
        · exact fun hin => hno (Or.inr hin)
        · exact (List.nodup_cons.mp hnd).1
    · have hnext : s.nextAct (.op k 0) ≠ some a := by
        intro hc
        obtain ⟨k', j', os'', he, hrest'⟩ := State.nextAct_eq_some hc
        obtain ⟨rfl, rfl⟩ := Label.op.inj he
        exact hk (h.owner hrest').1.symm
      have ht : OneShot.todo (cannonTP blas n p) t a.owner =
          OneShot.todo (cannonTP blas n p) s a.owner := by
        rw [OneShot.todo, OneShot.todo, hfired, hr,
          State.setRest_rest_ne _ _ _ _ _ _ (fun hc => hk hc.1)]
      rw [Executed, Executed, ht]
      simp [hnext]

/-- A codelet that ends with its only signal to `k` is through once `k` starts. -/
theorem Ctl.finished (h : Ctl blas s) (k k' : Cod n) (xs : List (Op (Cod n) (Act n)))
    (hsrc : k' ∈ sources k) (hbody : fireBody k' = xs ++ [.decDep k])
    (hk' : ∀ i, k' ≠ .compute i) (hstart : 0 < s.pool k + s.fired k) :
    s.fired k' = 1 ∧ s.rest k' 0 = [] := by
  obtain ⟨hf, hno⟩ := h.one.source_done (oneShot blas n p) k k' trivial hstart hsrc
  refine ⟨hf, ?_⟩
  have hsuf := h.suffix k' 0 hk'
  rw [hbody] at hsuf
  by_contra hne
  exact hno (Suffix.last_mem xs _ hsuf hne)

/-- Nothing is left to execute of a codelet that is through. -/
theorem executed_of_finished {a : Act n} (hf : s.fired a.owner = 1)
    (hrest : s.rest a.owner 0 = []) : Executed blas s a := by
  rw [Executed, OneShot.todo, if_neg (by omega), hrest]
  exact List.not_mem_nil

/-! ## The phases -/

theorem Ctl.gathered (h : Ctl blas s) {u : Tile n} (hstart : 0 < s.pool (.skew u) + s.fired (.skew u)) :
    Executed blas s (.gatherA u) ∧ Executed blas s (.gatherB u) := by
  have hA := h.finished (.skew u) (.copyA u) [.act (.gatherA u)]
    (by simp [sources]) rfl (fun i => by simp) hstart
  have hB := h.finished (.skew u) (.copyB u) [.act (.gatherB u)]
    (by simp [sources]) rfl (fun i => by simp) hstart
  exact ⟨executed_of_finished (a := .gatherA u) hA.1 hA.2,
    executed_of_finished (a := .gatherB u) hB.1 hB.2⟩

/-- **The barrier**: a compute codelet starts after every skew codelet is through. -/
theorem Ctl.skew_finished (h : Ctl blas s) {i : Tile n}
    (hstart : 0 < s.pool (.compute i) + s.fired (.compute i)) (u : Tile n) :
    s.fired (.skew u) = 1 ∧ s.rest (.skew u) 0 = [] := by
  have hbar := h.one.source_done (oneShot blas n p) (.compute i) .skewBarrier trivial
    hstart (by simp [sources])
  exact h.finished .skewBarrier (.skew u) [.act (.pushScratchA u), .act (.pushScratchB u)]
    (by simp [sources]) rfl (fun i => by simp) (by omega)

theorem Ctl.skewed (h : Ctl blas s) {i : Tile n}
    (hstart : 0 < s.pool (.compute i) + s.fired (.compute i)) (u : Tile n) :
    Executed blas s (.pushScratchA u) ∧ Executed blas s (.pushScratchB u) := by
  obtain ⟨hf, hrest⟩ := h.skew_finished hstart u
  exact ⟨executed_of_finished (a := .pushScratchA u) hf hrest,
    executed_of_finished (a := .pushScratchB u) hf hrest⟩

/-- A tile is copied back after its last turn. -/
theorem Ctl.computed (h : Ctl blas s) {i : Tile n}
    (hstart : 0 < s.pool (.copyC i) + s.fired (.copyC i)) :
    point s i = .done ∧ s.mem.curIterations i = n := by
  obtain ⟨hf, hno⟩ := h.one.source_done (oneShot blas n p) (.copyC i) (.compute i) trivial
    hstart (by simp [sources])
  have hdone : point s i = .done := by
    rw [h.rest_compute i] at hno
    have hne : point s i ≠ .idle := fun hc => by
      have := point_idle_iff.mp hc
      omega
    cases hq : point s i <;> simp [hq, Point.rest, iteration, fireBody] at hno hne ⊢
  exact ⟨hdone, h.cur_end i (Or.inr hdone)⟩

theorem Ctl.scattered (h : Ctl blas s)
    (hstart : 0 < s.pool .endCodelet + s.fired .endCodelet) (i : Tile n) :
    Executed blas s (.scatterC i) := by
  have := h.finished .endCodelet (.copyC i) [.act (.scatterC i)]
    (by simp [sources]) rfl (fun i => by simp) hstart
  exact executed_of_finished (a := .scatterC i) this.1 this.2

end Darts.CannonDfswp
