import Darts.Scheduler.Conserved
import Darts.Threading.Machine

/-!
# A program on the whole runtime

`Threading/Machine.lean` runs a program with no scheduler: whatever is scheduled may start
at any time. Here the same program runs on the threads of `Scheduler/Dispatch.lean`, under
any TP policy and any workers. A thread in a factory makes the calls of `add` of the
constructor; a thread in a `fire()` executes the operations of its body one by one;
`decDep` first counts down and then, as a step of its own, hands the codelet to the
scheduler. What a policy does to a codelet in between, and for how long, is up to it.
The program is one TP, whose factory adds codelets that are ready (`ReadyAdds`).

Every state this reaches is, seen from the program, one that the machine reaches
(`refines_machine`): what is proved of every run of the machine holds on the runtime, for
every pair of policies that loses no codelet. And the runtime does not come to rest early:
when no codelet is in any of its places and no thread is in a `fire()`, the machine has
nothing left to do either.
-/

namespace Darts.Execution

open Transition Startup TPStatic Dispatch

/-! ## The runtime with a program -/

structure State (K A M : Type) (N n : Nat) where
  disp : Dispatch.State K N n
  sync : K → SyncSlot
  mem : M
  /-- The calls of `add` that the factory has still to make. -/
  adds : List K
  /-- How many firings of a codelet have started. -/
  fired : K → Nat
  /-- The firing that a thread is in, and what is left of it. -/
  body : Thread N n → Option (K × Nat × List (Op K A))
  /-- The codelet whose count a thread has brought to 0, until it is handed to the scheduler. -/
  due : Thread N n → Option K

/-- The steps of the threads. -/
inductive Label (N n : Nat)
  /-- The policy loops go on, as in `Dispatch.Label`. -/
  | tp (i : Fin N) (rand pos : Nat)
  | mc (k : Fin N × Fin n) (rand pos : Nat)
  /-- The next call of `add` in the factory. -/
  | add (th : Thread N n)
  /-- The next operation of the `fire()` that a thread is in. -/
  | op (th : Thread N n)
  /-- The second half of `decDep`. -/
  | schedule (th : Thread N n)
  /-- A call of `pushCodelet` goes on. -/
  | user (th : Thread N n)
  /-- The factory or the `fire()` returns. -/
  | done (th : Thread N n)

variable {K A M : Type} {N n : Nat}

namespace State

/-- The policy loop of a thread has made a step, in which `start` may start firing. -/
def moved [DecidableEq K] (Pr : Program K A M) (s : State K A M N n) (d : Dispatch.State K N n) :
    Option (Thread N n × K) → State K A M N n
  | none => { s with disp := d }
  | some (th, k) => { s with
      disp := d
      fired := Function.update s.fired k (s.fired k + 1)
      body := Function.update s.body th (some (k, s.fired k, Pr.fire k)) }

/-- What is left of the firing that a thread is in. -/
def setBody (s : State K A M N n) (th : Thread N n) (k : K) (j : Nat) (os : List (Op K A)) :
    State K A M N n :=
  { s with body := Function.update s.body th (some (k, j, os)) }

/-- `Codelet::decDep`, up to the test of the count. -/
def decDep [DecidableEq K] (s : State K A M N n) (th : Thread N n) (d : K) : State K A M N n :=
  { s with
    sync := Function.update s.sync d (s.sync d).decCounter.2
    due := if (s.sync d).decCounter.1 then Function.update s.due th (some d) else s.due }

/-- `Codelet::resetCodelet`. -/
def resetCodelet [DecidableEq K] (s : State K A M N n) (d : K) : State K A M N n :=
  { s with sync := Function.update s.sync d (s.sync d).resetCounter }

/-- A thread is in the factory. -/
def inFactory (s : State K A M N n) : Thread N n → Bool
  | .tp i => match s.disp.tp i with | .factory => true | _ => false
  | .mc _ _ => false

/-- Nothing is left to do in the factory or the `fire()` that a thread is in. -/
def finished (s : State K A M N n) (th : Thread N n) : Bool :=
  (s.due th).isNone &&
    match s.body th with
    | some (_, _, os) => os.isEmpty
    | none => s.adds.isEmpty

end State

variable [DecidableEq K] (links : Startup.State N n) (w : Wishes K) (P : TPPolicy)
  (Pr : Program K A M)

/-- Thread `th` executes `o`, with `os` left after it. -/
def execOp (s : State K A M N n) (th : Thread N n) (k : K) (j : Nat) (os : List (Op K A)) :
    Op K A → Option (State K A M N n)
  | .decDep d => some ((s.setBody th k j os).decDep th d)
  | .resetCodelet d => some ((s.setBody th k j os).resetCodelet d)
  | .act a => (Pr.exec a s.mem).map fun r => { s.setBody th k j (r.2 ++ os) with mem := r.1 }

/-- One step of the runtime. -/
def step (s : State K A M N n) : Label N n → Option (State K A M N n)
  | .tp i rand pos => (Dispatch.step links w P s.disp (.tp i rand pos)).map fun d =>
      s.moved Pr d (started links s.disp d (.tp i rand pos))
  | .mc k rand pos => (Dispatch.step links w P s.disp (.mc k rand pos)).map fun d =>
      s.moved Pr d (started links s.disp d (.mc k rand pos))
  | .add th =>
    match s.adds with
    | [] => none
    | k :: ks =>
      if s.inFactory th then
        if (s.sync k).ready then
          (Dispatch.step links w P s.disp (.add th k)).map fun d => { s with disp := d, adds := ks }
        else some { s with adds := ks }
      else none
  | .op th =>
    match s.body th with
    | some (k, j, o :: os) =>
      if inUser s.disp th && (s.due th).isNone then execOp Pr s th k j os o else none
    | _ => none
  | .schedule th => (s.due th).bind fun k =>
      (Dispatch.step links w P s.disp (.decDep th k)).map fun d =>
        { s with disp := d, due := Function.update s.due th none }
  | .user th => (Dispatch.step links w P s.disp (.user th)).map fun d => { s with disp := d }
  | .done th =>
    if s.finished th then
      (Dispatch.step links w P s.disp (.done th)).map fun d =>
        { s with disp := d, body := Function.update s.body th none }
    else none

/-- The state after `Runtime::run` with the closure of a TP whose constructor calls `add` on
`adds`. -/
def State.start {rt : Runtime} (m₀ : Darts.State K A M) (adds : List K)
    (workers : Fin rt.numTPSched_ × Fin rt.numMCSched_ → MScheduler K) :
    State K A M rt.numTPSched_ rt.numMCSched_ :=
  { disp := Dispatch.start workers, sync := m₀.sync, mem := m₀.mem, adds := adds
    fired := m₀.fired, body := fun _ => none, due := fun _ => none }

/-! ## Where the scheduled codelets are -/

/-- In the places of the scheduler, in the factory, or in a `decDep`. -/
abbrev Place (N n : Nat) : Type := Dispatch.Place N n ⊕ Option (Thread N n)

/-- What the factory and the threads have still to hand to the scheduler. -/
def State.waiting (s : State K A M N n) : Option (Thread N n) → List K
  | none => s.adds
  | some th => (s.due th).toList

/-- What is in a place. -/
def State.cell (s : State K A M N n) : Place N n → List K := Sum.elim s.disp.cell s.waiting

/-! ## The firings under way -/

/-- The threads carry what is left of the firings of the machine. -/
structure Bodies (body : Thread N n → Option (K × Nat × List (Op K A))) (m : Darts.State K A M) :
    Prop where
  rest : ∀ th k j os, body th = some (k, j, os) → m.rest k j = os
  begun : ∀ th k j os, body th = some (k, j, os) → j < m.fired k
  single : ∀ th th' k j os os', body th = some (k, j, os) → body th' = some (k, j, os') → th = th'
  busy : ∀ k j, m.rest k j ≠ [] → ∃ th os, body th = some (k, j, os)

section Bodies

variable {body : Thread N n → Option (K × Nat × List (Op K A))} {m m' : Darts.State K A M}
  {th : Thread N n} {k : K} {j : Nat} {os os' : List (Op K A)}

omit [DecidableEq K] in
theorem Bodies.congr (h : Bodies body m) (hrest : m'.rest = m.rest) (hfired : m'.fired = m.fired) :
    Bodies body m' where
  rest := by rw [hrest]; exact h.rest
  begun := by rw [hfired]; exact h.begun
  single := h.single
  busy := by rw [hrest]; exact h.busy

/-- A thread goes on in its firing. -/
theorem Bodies.op (h : Bodies body m) (hth : body th = some (k, j, os)) (os' : List (Op K A)) :
    Bodies (Function.update body th (some (k, j, os'))) (m.setRest k j os') where
  rest th' k' j' rest' h' := by
    rw [State.setRest_rest]
    by_cases heq : th' = th
    · subst heq
      rw [Function.update_self] at h'
      obtain ⟨rfl, rfl, rfl⟩ : k = k' ∧ j = j' ∧ os' = rest' := by simpa using h'
      rw [if_pos ⟨rfl, rfl⟩]
    · rw [Function.update_of_ne heq] at h'
      rw [if_neg, h.rest th' k' j' rest' h']
      rintro ⟨rfl, rfl⟩
      exact heq (h.single _ _ _ _ _ _ h' hth)
  begun th' k' j' rest' h' := by
    by_cases heq : th' = th
    · subst heq
      rw [Function.update_self] at h'
      obtain ⟨rfl, rfl, -⟩ : k = k' ∧ j = j' ∧ os' = rest' := by simpa using h'
      exact h.begun _ _ _ _ hth
    · rw [Function.update_of_ne heq] at h'
      exact h.begun _ _ _ _ h'
  single th₁ th₂ k' j' rest₁ rest₂ h₁ h₂ := by
    -- the update changes no thread's firing
    have hback : ∀ th' rest',
        Function.update body th (some (k, j, os')) th' = some (k', j', rest') →
        ∃ rest, body th' = some (k', j', rest) := by
      intro th' rest' h'
      by_cases heq : th' = th
      · subst heq
        rw [Function.update_self] at h'
        obtain ⟨rfl, rfl, -⟩ : k = k' ∧ j = j' ∧ os' = rest' := by simpa using h'
        exact ⟨os, hth⟩
      · rw [Function.update_of_ne heq] at h'
        exact ⟨rest', h'⟩
    obtain ⟨_, h₁⟩ := hback th₁ rest₁ h₁
    obtain ⟨_, h₂⟩ := hback th₂ rest₂ h₂
    exact h.single _ _ _ _ _ _ h₁ h₂
  busy k' j' hne := by
    rw [State.setRest_rest] at hne
    by_cases hkj : k' = k ∧ j' = j
    · obtain ⟨rfl, rfl⟩ := hkj
      exact ⟨th, os', Function.update_self _ _ _⟩
    · rw [if_neg hkj] at hne
      obtain ⟨th', rest', h'⟩ := h.busy k' j' hne
      refine ⟨th', rest', ?_⟩
      rw [Function.update_of_ne, h']
      rintro rfl
      rw [hth] at h'
      obtain ⟨rfl, rfl, -⟩ : k = k' ∧ j = j' ∧ os = rest' := by simpa using h'
      exact hkj ⟨rfl, rfl⟩

/-- A thread that was in no firing starts one. -/
theorem Bodies.fire (h : Bodies body m) (hth : body th = none) (k : K) (os : List (Op K A)) :
    Bodies (Function.update body th (some (k, m.fired k, os))) (m.begin k os) where
  rest th' k' j' rest' h' := by
    rw [State.begin_rest]
    by_cases heq : th' = th
    · subst heq
      rw [Function.update_self] at h'
      obtain ⟨rfl, rfl, rfl⟩ : k = k' ∧ m.fired k = j' ∧ os = rest' := by simpa using h'
      rw [if_pos ⟨rfl, rfl⟩]
    · rw [Function.update_of_ne heq] at h'
      rw [if_neg, h.rest th' k' j' rest' h']
      rintro ⟨rfl, rfl⟩
      exact Nat.lt_irrefl _ (h.begun _ _ _ _ h')
  begun th' k' j' rest' h' := by
    rw [State.begin_fired]
    by_cases heq : th' = th
    · subst heq
      rw [Function.update_self] at h'
      obtain ⟨rfl, rfl, -⟩ : k = k' ∧ m.fired k = j' ∧ os = rest' := by simpa using h'
      rw [if_pos rfl]
      exact Nat.lt_succ_self _
    · rw [Function.update_of_ne heq] at h'
      have hlt := h.begun _ _ _ _ h'
      split
      next hk =>
        subst hk
        exact Nat.lt_succ_of_lt hlt
      next => exact hlt
  single th₁ th₂ k' j' rest₁ rest₂ h₁ h₂ := by
    by_cases heq₁ : th₁ = th <;> by_cases heq₂ : th₂ = th
    · rw [heq₁, heq₂]
    · subst heq₁
      rw [Function.update_self] at h₁
      rw [Function.update_of_ne heq₂] at h₂
      obtain ⟨rfl, rfl, -⟩ : k = k' ∧ m.fired k = j' ∧ os = rest₁ := by simpa using h₁
      exact absurd (h.begun _ _ _ _ h₂) (Nat.lt_irrefl _)
    · subst heq₂
      rw [Function.update_self] at h₂
      rw [Function.update_of_ne heq₁] at h₁
      obtain ⟨rfl, rfl, -⟩ : k = k' ∧ m.fired k = j' ∧ os = rest₂ := by simpa using h₂
      exact absurd (h.begun _ _ _ _ h₁) (Nat.lt_irrefl _)
    · rw [Function.update_of_ne heq₁] at h₁
      rw [Function.update_of_ne heq₂] at h₂
      exact h.single _ _ _ _ _ _ h₁ h₂
  busy k' j' hne := by
    rw [State.begin_rest] at hne
    by_cases hkj : k' = k ∧ j' = m.fired k
    · obtain ⟨rfl, rfl⟩ := hkj
      exact ⟨th, os, Function.update_self _ _ _⟩
    · rw [if_neg hkj] at hne
      obtain ⟨th', rest', h'⟩ := h.busy k' j' hne
      refine ⟨th', rest', ?_⟩
      rw [Function.update_of_ne, h']
      rintro rfl
      rw [hth] at h'
      cases h'

omit [DecidableEq K] in
/-- A thread leaves a firing that has come to its end, or a factory. -/
theorem Bodies.leave (h : Bodies body m) (hth : ∀ k j os, body th = some (k, j, os) → os = []) :
    Bodies (Function.update body th none) m := by
  have hback : ∀ {th' : Thread N n} {x}, Function.update body th none th' = some x →
      body th' = some x := by
    intro th' x h'
    by_cases heq : th' = th
    · subst heq
      rw [Function.update_self] at h'
      cases h'
    · rwa [Function.update_of_ne heq] at h'
  refine ⟨fun th' k j os h' => h.rest th' k j os (hback h'),
    fun th' k j os h' => h.begun th' k j os (hback h'),
    fun th₁ th₂ k j os os' h₁ h₂ => h.single th₁ th₂ k j os os' (hback h₁) (hback h₂),
    fun k j hne => ?_⟩
  obtain ⟨th', os, h'⟩ := h.busy k j hne
  refine ⟨th', os, ?_⟩
  rw [Function.update_of_ne, h']
  rintro rfl
  obtain rfl := hth k j os h'
  exact hne (h.rest _ _ _ _ h')

end Bodies

/-! ## The machine follows -/

section Machine

variable {rt : Runtime} {links : Startup.State rt.numTPSched_ rt.numMCSched_} {w : Wishes K}
  {P : TPPolicy} {Pr : Program K A M} {m₀ m : Darts.State K A M} {adds : List K}
  {s t : State K A M rt.numTPSched_ rt.numMCSched_}

/-- The machine is where the runtime is. -/
structure Rel (P : TPPolicy) (s : State K A M rt.numTPSched_ rt.numMCSched_)
    (m : Darts.State K A M) : Prop where
  sync : m.sync = s.sync
  mem : m.mem = s.mem
  fired : m.fired = s.fired
  /-- What the machine has scheduled is somewhere, as often as it is scheduled. -/
  pool : Places.Holds s.cell m.pool
  bodies : Bodies s.body m
  /-- A thread is in a body while its policy loop is in `fire()`. -/
  inFire : ∀ th, (s.body th).isSome = firing s.disp th
  safe : Dispatch.Inv s.disp
  sure : Sure P s.disp

/-- The calls of `add` are for codelets that are ready and stay so until they are fired. The factory
does not add one that waits: its count may come to 0 before the call, which then schedules it
once more. -/
def ReadyAdds (Pr : Program K A M) (m₀ : Darts.State K A M) (adds : List K) : Prop :=
  ∀ m, Reachable Pr.step m₀ m → ∀ k ∈ adds, 0 < m.pool k → (m.sync k).ready = true

/-- What a policy gains and loses, the runtime gains and loses. -/
theorem change_disp {d : Dispatch.State K rt.numTPSched_ rt.numMCSched_} {gained lost : List K}
    (h : Places.Change s.disp.cell d.cell gained lost) (hdisp : t.disp = d)
    (hwaiting : t.waiting = s.waiting) : Places.Change s.cell t.cell gained lost := by
  have hboth := h.elim (Places.Change.refl s.waiting)
  rw [List.append_nil, List.append_nil] at hboth
  unfold State.cell
  rw [hdisp, hwaiting]
  exact hboth

/-- The policy loop of a thread makes a step, and the thread may start a codelet. -/
theorem Rel.moved (hR : Rel P s m) {d : Dispatch.State K rt.numTPSched_ rt.numMCSched_}
    {l : Dispatch.Label K rt.numTPSched_ rt.numMCSched_} (hnone : l.scheduled = [])
    (hdone : ∀ th, l ≠ .done th) (heffect : Effect links P s.disp d l) (hsafe : Dispatch.Inv d) :
    ∃ m', (m' = m ∨ ∃ k, Pr.step m (.fire k) = some m') ∧
      Rel P (s.moved Pr d (started links s.disp d l)) m' := by
  have hchange := heffect.change
  rw [hnone] at hchange
  cases hstart : started links s.disp d l with
  | none =>
    rw [hstart] at hchange
    have hall : Places.Change s.cell (s.moved Pr d none).cell [] [] := change_disp hchange rfl rfl
    refine ⟨m, .inl rfl, hR.sync, hR.mem, hR.fired, hR.pool.change hall fun _ => rfl, hR.bodies,
      fun th => (hR.inFire th).trans (Bool.eq_iff_iff.mpr ?_), hsafe, heffect.sure⟩
    show _ ↔ firing d th = true
    rw [heffect.fires th, hstart]
    simp [hdone th]
  | some start =>
    obtain ⟨th, k⟩ := start
    rw [hstart] at hchange
    have hidle : s.body th = none := by
      have hno := hR.inFire th
      rw [heffect.idle th k hstart] at hno
      exact Option.isSome_eq_false_iff.mp hno |> Option.isNone_iff_eq_none.mp
    have hall : Places.Change s.cell (s.moved Pr d (some (th, k))).cell [] [k] :=
      change_disp hchange rfl rfl
    have hpos : 0 < m.pool k := by
      have hk := hall k
      rw [hR.pool k] at hk
      simp at hk
      omega
    refine ⟨m.begin k (Pr.fire k), .inr ⟨k, Program.step_fire hpos⟩, hR.sync, hR.mem, ?_, ?_, ?_,
      fun th' => ?_, hsafe, heffect.sure⟩
    · show Function.update m.fired k _ = Function.update s.fired k _
      rw [hR.fired]
    · refine hR.pool.change hall fun t => ?_
      rw [State.begin_pool]
      by_cases ht : t = k
      · subst ht
        simp
        omega
      · simp [ht, Ne.symm ht]
    · have hbodies := hR.bodies.fire hidle k (Pr.fire k)
      rw [hR.fired] at hbodies
      exact hbodies
    · show (Function.update s.body th _ th').isSome = firing d th'
      refine Bool.eq_iff_iff.mpr ?_
      rw [heffect.fires th', hstart]
      by_cases hth : th' = th
      · subst hth
        simp
      · have hne : th ≠ th' := Ne.symm hth
        rw [Function.update_of_ne hth, hR.inFire th']
        simp [hne, hdone th']

/-- A codelet is handed over, and the machine does not notice. -/
theorem Rel.handed (hR : Rel P s m) {l : Dispatch.Label K rt.numTPSched_ rt.numMCSched_}
    (heffect : Effect links P s.disp t.disp l) (hstart : started links s.disp t.disp l = none)
    (hdone : ∀ th, l ≠ .done th) (hsafe : Dispatch.Inv t.disp)
    (ht : t = { s with disp := t.disp, adds := t.adds, due := t.due })
    (hchange : Places.Change s.cell t.cell [] []) : Rel P t m := by
  have hsync : t.sync = s.sync := by rw [ht]
  have hmem : t.mem = s.mem := by rw [ht]
  have hfired : t.fired = s.fired := by rw [ht]
  have hbody : t.body = s.body := by rw [ht]
  refine ⟨hR.sync.trans hsync.symm, hR.mem.trans hmem.symm, hR.fired.trans hfired.symm,
    hR.pool.change hchange fun _ => rfl, hbody ▸ hR.bodies, fun th => ?_, hsafe, heffect.sure⟩
  rw [hbody, hR.inFire th]
  refine Bool.eq_iff_iff.mpr ?_
  rw [heffect.fires th, hstart]
  simp [hdone th]

/-- What waits at `q` is handed to the scheduler. -/
theorem change_handed {k : K} {q : Option (Thread rt.numTPSched_ rt.numMCSched_)}
    (hdisp : Places.Change s.disp.cell t.disp.cell [k] []) (hq : s.waiting q = k :: t.waiting q)
    (hrest : ∀ r, r ≠ q → t.waiting r = s.waiting r) : Places.Change s.cell t.cell [] [] := by
  have hwaiting : Places.Change s.waiting t.waiting [] [k] :=
    .of_place (q := q) (.of_eq hq.symm) hrest
  have hboth : Places.Change s.cell t.cell ([k] ++ []) ([k] ++ []) := hdisp.elim hwaiting
  exact hboth.cancel

/-- The next operation of a body. -/
theorem Rel.op (hR : Rel P s m) {th : RtThread rt} {k : K} {j : Nat} {o : Op K A}
    {os : List (Op K A)} (hth : s.body th = some (k, j, o :: os)) (hdue : s.due th = none)
    (hop : execOp Pr s th k j os o = some t) :
    ∃ m', Pr.step m (.op k j) = some m' ∧ Rel P t m' := by
  have hrest : m.rest k j = o :: os := hR.bodies.rest _ _ _ _ hth
  have hfire : ∀ os' th', (Function.update s.body th (some (k, j, os')) th').isSome =
      firing s.disp th' := by
    intro os' th'
    by_cases heq : th' = th
    · subst heq
      rw [Function.update_self, ← hR.inFire th', hth]
      rfl
    · rw [Function.update_of_ne heq, hR.inFire th']
  have hbodies := hR.bodies.op hth
  cases o with
  | decDep d =>
    obtain rfl := Option.some.inj hop
    refine ⟨(m.setRest k j os).decDep d, by rw [Program.step, hrest]; rfl, ?_, hR.mem, hR.fired, ?_,
      (hbodies os).congr rfl rfl, hfire os, hR.safe, hR.sure⟩
    · show Function.update m.sync d (m.sync d).decCounter.2 = _
      rw [hR.sync]
      rfl
    · by_cases hone : (m.sync d).counter_ = 1
      · have hdec : (s.sync d).decCounter.1 = true := by
          rw [← hR.sync]
          simp [SyncSlot.decCounter, hone]
        have hnew : ((s.setBody th k j os).decDep th d).due = Function.update s.due th (some d) :=
          if_pos hdec
        have hchange : Places.Change s.cell ((s.setBody th k j os).decDep th d).cell [d] [] := by
          refine .of_place (q := .inr (some th)) ?_ fun r hr => ?_
          · show (((s.setBody th k j os).decDep th d).due th).toList.Perm ([d] ++ (s.due th).toList)
            rw [hnew, Function.update_self, hdue]
            exact .refl _
          · cases r with
            | inl q => rfl
            | inr q =>
              cases q with
              | none => rfl
              | some th' =>
                have heq : th' ≠ th := fun h => hr (by rw [h])
                show (((s.setBody th k j os).decDep th d).due th').toList = (s.due th').toList
                rw [hnew, Function.update_of_ne heq]
        refine hR.pool.change hchange fun x => ?_
        rw [State.decDep_pool]
        by_cases hx : x = d
        · subst hx
          simp [hone]
        · simp [hx, Ne.symm hx]
      · have hdec : ¬(s.sync d).decCounter.1 = true := by
          rw [← hR.sync]
          simp [SyncSlot.decCounter, hone]
        have hsame : ((s.setBody th k j os).decDep th d).due = s.due := if_neg hdec
        have hcell : ((s.setBody th k j os).decDep th d).cell = s.cell := by
          funext r
          cases r with
          | inl q => rfl
          | inr q =>
            cases q with
            | none => rfl
            | some th' => exact congrArg Option.toList (congrFun hsame th')
        rw [hcell]
        intro x
        rw [State.decDep_pool, if_neg fun hx => hone hx.2]
        exact hR.pool x
  | resetCodelet d =>
    obtain rfl := Option.some.inj hop
    refine ⟨(m.setRest k j os).resetCodelet d, by rw [Program.step, hrest]; rfl, ?_, hR.mem,
      hR.fired, hR.pool, (hbodies os).congr rfl rfl, hfire os, hR.safe, hR.sure⟩
    show Function.update m.sync d (m.sync d).resetCounter = _
    rw [hR.sync]
    rfl
  | act a =>
    obtain ⟨r, hr, rfl⟩ := Option.map_eq_some_iff.mp hop
    refine ⟨{ m.setRest k j (r.2 ++ os) with mem := r.1 }, ?_, hR.sync, rfl, hR.fired, hR.pool,
      (hbodies (r.2 ++ os)).congr rfl rfl, hfire _, hR.safe, hR.sure⟩
    rw [Program.step, hrest]
    show (Pr.exec a m.mem).map _ = _
    rw [hR.mem, hr]
    rfl

/-- A thread leaves the factory or a `fire()`. -/
theorem Rel.done (hR : Rel P s m) {th : RtThread rt}
    {d : Dispatch.State K rt.numTPSched_ rt.numMCSched_} (hend : s.finished th = true)
    (heffect : Effect links P s.disp d (.done th)) (hsafe : Dispatch.Inv d) :
    Rel P { s with disp := d, body := Function.update s.body th none } m := by
  have hchange : Places.Change s.cell
      (State.cell { s with disp := d, body := Function.update s.body th none }) [] [] :=
    change_disp heffect.change rfl rfl
  refine ⟨hR.sync, hR.mem, hR.fired, hR.pool.change hchange fun _ => rfl,
    hR.bodies.leave fun k j os hbody => ?_, fun th' => Bool.eq_iff_iff.mpr ?_, hsafe, heffect.sure⟩
  · unfold State.finished at hend
    rw [hbody] at hend
    exact List.isEmpty_iff.mp (Bool.and_eq_true_iff.mp hend).2
  · show (Function.update s.body th none th').isSome = true ↔ firing d th' = true
    rw [heffect.fires th']
    by_cases heq : th' = th
    · subst heq
      simp [started]
    · have hne : th ≠ th' := Ne.symm heq
      rw [Function.update_of_ne heq, hR.inFire th']
      simp [started, hne]

/-- **One step** of the runtime is at most one step of the machine. -/
theorem Rel.step (hserved : Served P rt.numMCSched_) (h : Steal.Ready links)
    (hadds : ReadyAdds Pr m₀ adds) (hm : Reachable Pr.step m₀ m) (hR : Rel P s m)
    (hsub : ∀ k ∈ s.adds, k ∈ adds) {l : Label rt.numTPSched_ rt.numMCSched_}
    (hl : step links w P Pr s l = some t) :
    ∃ m', (m' = m ∨ ∃ l', Pr.step m l' = some m') ∧ Rel P t m' ∧ ∀ k ∈ t.adds, k ∈ adds := by
  have hdisp : ∀ {d l'}, Dispatch.step links w P s.disp l' = some d →
      Effect links P s.disp d l' ∧ Dispatch.Inv d := fun hd =>
    ⟨step_effect hserved h hR.safe hR.sure hd, step_inv hserved h hR.safe hd⟩
  have hpolicy : ∀ {d l'}, l'.scheduled = [] → (∀ th, l' ≠ .done th) →
      Dispatch.step links w P s.disp l' = some d → ∃ m',
        (m' = m ∨ ∃ l', Pr.step m l' = some m') ∧
        Rel P (s.moved Pr d (started links s.disp d l')) m' ∧
        ∀ k ∈ (s.moved Pr d (started links s.disp d l')).adds, k ∈ adds := by
    intro d l' hnone hdone hd
    obtain ⟨m', hm', hR'⟩ : ∃ m', (m' = m ∨ ∃ k, Pr.step m (.fire k) = some m') ∧
        Rel P (s.moved Pr d (started links s.disp d l')) m' :=
      hR.moved hnone hdone (hdisp hd).1 (hdisp hd).2
    refine ⟨m', ?_, hR', ?_⟩
    · rcases hm' with hsame | ⟨k, hk⟩
      · exact .inl hsame
      · exact .inr ⟨_, hk⟩
    · cases started links s.disp d l' <;> exact hsub
  cases l with
  | tp i rand pos =>
    obtain ⟨d, hd, rfl⟩ := Option.map_eq_some_iff.mp hl
    exact hpolicy rfl (by simp) hd
  | mc k rand pos =>
    obtain ⟨d, hd, rfl⟩ := Option.map_eq_some_iff.mp hl
    exact hpolicy rfl (by simp) hd
  | add th =>
    unfold Execution.step at hl
    cases hs : s.adds with
    | nil =>
      rw [hs] at hl
      cases hl
    | cons k ks =>
      rw [hs] at hl hsub
      obtain ⟨-, hl⟩ := Option.ite_none_right_eq_some.mp hl
      have hpos : 0 < m.pool k := hR.pool.pos (p := .inr none) (by
        show k ∈ s.adds
        rw [hs]
        exact List.mem_cons_self)
      have hready : (s.sync k).ready = true := by
        rw [← hR.sync]
        exact hadds m hm k (hsub k List.mem_cons_self) hpos
      rw [if_pos hready] at hl
      obtain ⟨d, hd, rfl⟩ := Option.map_eq_some_iff.mp hl
      obtain ⟨heffect, hsafe⟩ := hdisp hd
      refine ⟨m, .inl rfl, hR.handed heffect rfl (by simp) hsafe rfl ?_,
        fun k' hk' => hsub k' (List.mem_cons_of_mem _ hk')⟩
      refine change_handed (q := none) heffect.change hs fun r hr => ?_
      cases r with
      | none => exact absurd rfl hr
      | some th' => rfl
  | op th =>
    simp only [Execution.step] at hl
    split at hl
    next k j o os hbody =>
      obtain ⟨hin, hl⟩ := Option.ite_none_right_eq_some.mp hl
      have hdue := Option.isNone_iff_eq_none.mp (Bool.and_eq_true_iff.mp hin).2
      obtain ⟨m', hm', hR'⟩ := hR.op hbody hdue hl
      refine ⟨m', .inr ⟨_, hm'⟩, hR', ?_⟩
      -- no operation touches the factory
      cases o with
      | decDep d | resetCodelet d =>
        obtain rfl := Option.some.inj hl
        exact hsub
      | act a =>
        obtain ⟨r, -, rfl⟩ := Option.map_eq_some_iff.mp hl
        exact hsub
    next => cases hl
  | schedule th =>
    obtain ⟨k, hk, hl⟩ := Option.bind_eq_some_iff.mp hl
    obtain ⟨d, hd, rfl⟩ := Option.map_eq_some_iff.mp hl
    obtain ⟨heffect, hsafe⟩ := hdisp hd
    refine ⟨m, .inl rfl, hR.handed heffect rfl (by simp) hsafe rfl ?_, hsub⟩
    refine change_handed (q := some th) heffect.change ?_ fun r hr => ?_
    · simp [State.waiting, hk]
    · cases r with
      | none => rfl
      | some th' =>
        have heq : th' ≠ th := fun h => hr (by rw [h])
        simp [State.waiting, heq]
  | user th =>
    obtain ⟨d, hd, rfl⟩ := Option.map_eq_some_iff.mp hl
    obtain ⟨heffect, hsafe⟩ := hdisp hd
    exact ⟨m, .inl rfl, hR.handed heffect rfl (by simp) hsafe rfl
      (change_disp heffect.change rfl rfl), hsub⟩
  | done th =>
    obtain ⟨hend, hl⟩ := Option.ite_none_right_eq_some.mp hl
    obtain ⟨d, hd, rfl⟩ := Option.map_eq_some_iff.mp hl
    obtain ⟨heffect, hsafe⟩ := hdisp hd
    exact ⟨m, .inl rfl, hR.done hend heffect hsafe, hsub⟩

/-! ## Every run -/

/-- No codelet is in any place and no thread in a `fire()`. -/
def Idle (s : State K A M rt.numTPSched_ rt.numMCSched_) : Prop :=
  (∀ p, s.cell p = []) ∧ ∀ th, s.body th = none

/-- Where the runtime is idle the machine is stuck. -/
theorem Rel.stuck (hR : Rel P s m) (hidle : Idle s) : Stuck Pr.step m := by
  intro l
  cases l with
  | fire k =>
    have hpool := hR.pool k
    simp only [hidle.1, List.count_nil, Finset.sum_const_zero] at hpool
    exact if_pos hpool.symm
  | op k j =>
    have hrest : m.rest k j = [] := by
      by_contra hne
      obtain ⟨th, os, hbody⟩ := hR.bodies.busy k j hne
      rw [hidle.2 th] at hbody
      cases hbody
    unfold Program.step
    simp only [hrest]

variable {workers : Fin rt.numTPSched_ × Fin rt.numMCSched_ → MScheduler K}

theorem rel_start (hkeeps : P ≠ .TPStatic ∨ ∀ k, ∃ buff, workers k = .MicroStatic buff)
    (hempty : ∀ k, (workers k).contents = []) (hpool : ∀ k, m₀.pool k = adds.count k)
    (hrest : ∀ k j, m₀.rest k j = []) : Rel P (State.start m₀ adds workers) m₀ where
  sync := rfl
  mem := rfl
  fired := rfl
  pool k := by
    have hcell : ∀ p, ((State.start m₀ adds workers).cell p).count k =
        if p = .inr none then m₀.pool k else 0 := by
      intro p
      cases p with
      | inl p =>
        show ((Dispatch.start workers).cell p).count k = _
        rw [cell_start hempty p]
        simp
      | inr q =>
        cases q with
        | none => simp [State.cell, State.waiting, State.start, hpool]
        | some th => simp [State.cell, State.waiting, State.start]
    rw [Finset.sum_congr rfl fun p _ => hcell p, Finset.sum_ite_eq', if_pos (Finset.mem_univ _)]
  bodies := {
    rest := fun _ _ _ _ h => by cases h
    begun := fun _ _ _ _ h => by cases h
    single := fun _ _ _ _ _ _ h => by cases h
    busy := fun k j h => absurd (hrest k j) h }
  inFire th := by
    cases th <;> rfl
  safe := inv_start workers
  sure := sure_start hkeeps

/-- The machine that a reachable state of the runtime shows. -/
theorem exists_machine (hserved : Served P rt.numMCSched_) (h : Steal.Ready links)
    (hkeeps : P ≠ .TPStatic ∨ ∀ k, ∃ buff, workers k = .MicroStatic buff)
    (hempty : ∀ k, (workers k).contents = []) (hpool : ∀ k, m₀.pool k = adds.count k)
    (hrest : ∀ k j, m₀.rest k j = []) (hadds : ReadyAdds Pr m₀ adds)
    (hs : Reachable (step links w P Pr) (State.start m₀ adds workers) s) :
    ∃ m, Reachable Pr.step m₀ m ∧ Rel P s m := by
  have hall : ∃ m, Reachable Pr.step m₀ m ∧ Rel P s m ∧ ∀ k ∈ s.adds, k ∈ adds := by
    refine hs.invariant
      (fun s => ∃ m, Reachable Pr.step m₀ m ∧ Rel P s m ∧ ∀ k ∈ s.adds, k ∈ adds)
      ⟨m₀, .start, rel_start hkeeps hempty hpool hrest, fun _ hk => hk⟩ ?_
    rintro s l t - ⟨m, hm, hR, hsub⟩ hl
    obtain ⟨m', hstep, hR', hsub'⟩ := hR.step hserved h hadds hm hsub hl
    refine ⟨m', ?_, hR', hsub'⟩
    rcases hstep with rfl | ⟨l', hl'⟩
    · exact hm
    · exact hm.next hl'
  obtain ⟨m, hm, hR, -⟩ := hall
  exact ⟨m, hm, hR⟩

/-- **The runtime refines the machine.** Whatever program of one TP runs on it, if the factory adds
codelets that are ready, under any TP policy over any workers (but for the pairs that lose
codelets), on any number of clusters and in every interleaving of the threads: every state is one
that the machine without a scheduler reaches, with the same counters, the same frame and the same
numbers of firings; and when the runtime is idle the machine has nothing left to do. -/
theorem refines_machine {th : RtThread rt}
    (hlinks : Reachable (Startup.step rt) (Startup.start rt) links) (hth : links.rest th = [])
    (hserved : Served P rt.numMCSched_)
    (hkeeps : P ≠ .TPStatic ∨ ∀ k, ∃ buff, workers k = .MicroStatic buff)
    (hempty : ∀ k, (workers k).contents = []) (hpool : ∀ k, m₀.pool k = adds.count k)
    (hrest : ∀ k j, m₀.rest k j = []) (hadds : ReadyAdds Pr m₀ adds)
    (hs : Reachable (step links w P Pr) (State.start m₀ adds workers) s) :
    ∃ m, Reachable Pr.step m₀ m ∧ m.sync = s.sync ∧ m.mem = s.mem ∧ m.fired = s.fired ∧
      (Idle s → Stuck Pr.step m) := by
  obtain ⟨m, hm, hR⟩ := exists_machine hserved (Steal.ready_of_through hlinks hth) hkeeps hempty
    hpool hrest hadds hs
  exact ⟨m, hm, hR.sync, hR.mem, hR.fired, hR.stuck⟩

end Machine

/-- A codelet that signals another one. -/
def handOver : Program Bool Empty Unit where
  fire
    | false => [.decDep true]
    | true => []
  exec a := a.elim

/-- The first is ready, the second waits for it. -/
def handOverStart : Darts.State Bool Empty Unit :=
  .start (fun k => if k then ⟨1, 1⟩ else ⟨0, 0⟩) (fun k => if k then 0 else 1) ()

theorem handOver_ready : ReadyAdds handOver handOverStart [false] := by
  intro m hm k hk _
  obtain rfl := List.mem_singleton.mp hk
  -- nobody signals the first
  have hI : (m.sync false).counter_ = 0 ∧ ∀ k j, ∀ o ∈ m.rest k j, o = .decDep true := by
    refine hm.invariant
      (fun m => (m.sync false).counter_ = 0 ∧ ∀ k j, ∀ o ∈ m.rest k j, o = .decDep true)
      ⟨rfl, fun k j o ho => by simp [handOverStart] at ho⟩ ?_
    rintro s l t - ⟨hcount, hops⟩ hl
    have htail : ∀ {k j o os}, s.rest k j = o :: os → ∀ k' j', ∀ o' ∈ (s.setRest k j os).rest k' j',
        o' = .decDep true := by
      intro k j o os hrest k' j' o' ho'
      rw [State.setRest_rest] at ho'
      split at ho'
      next => exact hops k j o' (by rw [hrest]; exact List.mem_cons_of_mem _ ho')
      next => exact hops k' j' o' ho'
    cases Program.step_inv hl with
    | fire k hpool =>
      refine ⟨hcount, fun k' j' o ho => ?_⟩
      rw [State.begin_rest] at ho
      split at ho
      next =>
        cases k
        · exact List.mem_singleton.mp ho
        · cases ho
      next => exact hops k' j' o ho
    | decDep k j d os hrest =>
      obtain rfl : d = true := Op.decDep.inj (hops k j _ (by rw [hrest]; exact List.mem_cons_self))
      exact ⟨hcount, htail hrest⟩
    | resetCodelet k j d os hrest =>
      cases hops k j _ (by rw [hrest]; exact List.mem_cons_self)
    | act k j a os os' mem hrest hexec => exact a.elim
  unfold SyncSlot.ready
  rw [hI.1]
  rfl

/-- In a `fire()` a codelet is scheduled after each of the numbers of operations in `ready`, and
`last` operations come at the end. -/
def fireTurn {N n : Nat} (th : Thread N n) (ready : List Nat) (last : Nat) : List (Label N n) :=
  ready.flatMap (fun k => List.replicate k (.op th) ++ [.schedule th]) ++
    List.replicate last (.op th) ++ [.done th]

/-- The factory on TP scheduler 0 makes `k` calls of `add`. -/
def factoryTurn (rt : Runtime) (k : Nat) : List (Label rt.numTPSched_ rt.numMCSched_) :=
  .tp (first rt) 0 0 :: List.replicate k (.add (.tp (first rt))) ++ [.done (.tp (first rt))]

/-- TP scheduler 0 fires the first codelet, and then the one that this signals. -/
def handedOver : List (Label Steal.two.numTPSched_ Steal.two.numMCSched_) :=
  let tp := first Steal.two
  factoryTurn Steal.two 1 ++ [.tp tp 0 0, .tp tp 0 0] ++ fireTurn (.tp tp) [1] 0 ++
    [.tp tp 0 0, .tp tp 0 0] ++ fireTurn (.tp tp) [] 0

/-- On two clusters of one stealing worker. -/
theorem refines_machine_two :
    ∃ s, run (step (Steal.linked Steal.two) ⟨fun _ => 0, fun _ => 0⟩ .TPDynamic handOver)
        (State.start handOverStart [false] fun _ => .MicroSteal []) handedOver = some s ∧
      s.fired false = 1 ∧ s.fired true = 1 ∧
      ∃ m, Reachable handOver.step handOverStart m ∧ m.fired = s.fired ∧ Stuck handOver.step m := by
  have hmap : (run (step (Steal.linked Steal.two) ⟨fun _ => 0, fun _ => 0⟩ .TPDynamic handOver)
      (State.start handOverStart [false] fun _ => .MicroSteal []) handedOver).map
        (fun s => (s.fired false, s.fired true, decide (∀ p, s.cell p = []),
          decide (∀ th, s.body th = none))) = some (1, 1, true, true) := by decide +kernel
  obtain ⟨s, hrun, heq⟩ := Option.map_eq_some_iff.mp hmap
  simp only [Prod.mk.injEq, decide_eq_true_eq] at heq
  obtain ⟨hfalse, htrue, hcells, hbodies⟩ := heq
  obtain ⟨hlinks, hdone⟩ := Steal.linked_two
  obtain ⟨m, hm, -, -, hfired, hstuck⟩ := refines_machine hlinks (hdone (.tp (first Steal.two)))
    (.inl (by decide)) (.inl (by simp)) (fun _ => rfl) (fun k => by cases k <;> rfl)
    (fun _ _ => rfl) handOver_ready (.of_run hrun)
  exact ⟨s, hrun, hfalse, htrue, m, hm, hfired, hstuck ⟨hcells, hbodies⟩⟩

end Darts.Execution
