import Darts.Threading.Machine

/-!
# A program whose actions take several steps

`Q` has finer actions than `P`: an action `b` of `Q` is a part of the action `f b`
of `P`. A step of `Q` either is a step of `P` on the coarse state, or it only
replaces the action at the head by another part of the same action. Then every state
`Q` reaches is one that `P` reaches (`Program.exists_coarse`).
-/

namespace Darts

open Transition

variable {K A B M N : Type}

/-- The same operation, with another name for the action. -/
def Op.map (f : B → A) : Op K B → Op K A
  | .decDep k => .decDep k
  | .resetCodelet k => .resetCodelet k
  | .act b => .act (f b)

namespace State

/-- The state with coarser actions and another frame. -/
def coarse (f : B → A) (m : M) (s : State K B N) : State K A M :=
  { sync := s.sync, pool := s.pool, fired := s.fired
    rest := fun k j => (s.rest k j).map (Op.map f), mem := m }

variable {f : B → A} {s : State K B N} {m : M}

@[simp] theorem coarse_sync : (s.coarse f m).sync = s.sync := rfl
@[simp] theorem coarse_pool : (s.coarse f m).pool = s.pool := rfl
@[simp] theorem coarse_fired : (s.coarse f m).fired = s.fired := rfl
@[simp] theorem coarse_mem : (s.coarse f m).mem = m := rfl

theorem coarse_rest (k : K) (j : Nat) :
    (s.coarse f m).rest k j = (s.rest k j).map (Op.map f) := rfl

theorem coarse_rest_cons {k : K} {j : Nat} {o : Op K B} {os : List (Op K B)}
    (h : s.rest k j = o :: os) :
    (s.coarse f m).rest k j = o.map f :: os.map (Op.map f) := by
  rw [coarse_rest, h, List.map_cons]

variable [DecidableEq K]

theorem coarse_setRest (k : K) (j : Nat) (os : List (Op K B)) :
    (s.setRest k j os).coarse f m = (s.coarse f m).setRest k j (os.map (Op.map f)) := by
  have hrest : ((s.setRest k j os).coarse f m).rest =
      ((s.coarse f m).setRest k j (os.map (Op.map f))).rest := by
    funext k' j'
    rw [coarse_rest, setRest_rest, setRest_rest, coarse_rest]
    split <;> rfl
  exact congrArg (fun r => ({ s.coarse f m with rest := r } : State K A M)) hrest

/-- Putting another part of the same action at the head changes nothing. -/
theorem coarse_setRest_same {k : K} {j : Nat} {b b' : B} {os : List (Op K B)}
    (h : s.rest k j = .act b :: os) (hb : f b' = f b) :
    (s.setRest k j (.act b' :: os)).coarse f m = s.coarse f m := by
  have hrest : (s.setRest k j (.act b' :: os)).coarse f m = (s.coarse f m).setRest k j
      ((s.coarse f m).rest k j) := by
    rw [coarse_setRest, coarse_rest_cons h, List.map_cons, Op.map, Op.map, hb]
  rw [hrest, setRest, Function.update_eq_self, Function.update_eq_self]

end State

variable [DecidableEq K] {P : Program K A M} {Q : Program K B N} {f : B → A}
  {s t : State K B N} {m m' : M}

namespace Program

/-- A step that is no action is the same step of `P`. -/
theorem step_coarse (hfire : ∀ k, P.fire k = (Q.fire k).map (Op.map f)) {l : Label K}
    (h : Q.step s l = some t) (hact : s.nextAct l = none) :
    P.step (s.coarse f m) l = some (t.coarse f m) := by
  cases step_inv h with
  | fire k hpool =>
    rw [step_fire (by exact hpool), hfire]
    exact congrArg some (congrArg (fun u : State K A M => { u with
      pool := Function.update s.pool k (s.pool k - 1)
      fired := Function.update s.fired k (s.fired k + 1) })
      (State.coarse_setRest (m := m) k (s.fired k) (Q.fire k)).symm)
  | decDep k j d os hrest =>
    rw [step, State.coarse_rest_cons hrest]
    exact congrArg (fun u : State K A M => some (u.decDep d))
      (State.coarse_setRest (m := m) k j os).symm
  | resetCodelet k j d os hrest =>
    rw [step, State.coarse_rest_cons hrest]
    exact congrArg (fun u : State K A M => some (u.resetCodelet d))
      (State.coarse_setRest (m := m) k j os).symm
  | act k j b os new n hrest hexec =>
    rw [State.nextAct, hrest] at hact
    exact absurd hact (by simp [Op.headAct])

/-- The last part of an action is the action. -/
theorem step_coarse_act {k : K} {j : Nat} {b : B} {os new : List (Op K B)} {n : N}
    (hrest : s.rest k j = .act b :: os)
    (hexec : P.exec (f b) m = some (m', new.map (Op.map f))) :
    P.step (s.coarse f m) (.op k j) =
      some (({ s.setRest k j (new ++ os) with mem := n } : State K B N).coarse f m') := by
  have hcoarse := State.coarse_setRest (s := s) (f := f) (m := m) k j (new ++ os)
  rw [List.map_append] at hcoarse
  rw [step, State.coarse_rest_cons hrest]
  show (P.exec (f b) m).map _ = _
  rw [hexec, Option.map_some]
  exact congrArg (fun u : State K A M => some { u with mem := m' }) hcoarse.symm

end Program

/-- **The rule**: `R` relates the states of `Q` to the frames of `P`, and every step is
at most one step of `P`. -/
theorem Program.exists_coarse (R : State K B N → M → Prop) {s₀ : State K B N} {m₀ : M}
    (hinit : R s₀ m₀)
    (hstep : ∀ s m l t, Reachable P.step (s₀.coarse f m₀) (s.coarse f m) → R s m →
      Q.step s l = some t → ∃ m', R t m' ∧
        (t.coarse f m' = s.coarse f m ∨ P.step (s.coarse f m) l = some (t.coarse f m')))
    (h : Reachable Q.step s₀ s) :
    ∃ m, R s m ∧ Reachable P.step (s₀.coarse f m₀) (s.coarse f m) := by
  induction h with
  | start => exact ⟨m₀, hinit, .start⟩
  | next _ hl ih =>
    obtain ⟨m, hR, hreach⟩ := ih
    obtain ⟨m', hR', hsame | hmove⟩ := hstep _ m _ _ hreach hR hl
    · exact ⟨m', hR', hsame ▸ hreach⟩
    · exact ⟨m', hR', hreach.next hmove⟩

end Darts
