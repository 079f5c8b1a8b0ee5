import Mathlib.Data.Fintype.Sum
import Mathlib.Tactic.DeriveFintype
import Darts.Lib.Places
import Darts.Scheduler.Dispatch

/-!
# No policy loses a codelet or fires one twice

A codelet that is scheduled goes from place to place, a pool, a buffer, the hand of a TP
scheduler, until a thread fires it. `Effect` says what one step of any policy does to the
places: what `decDep` and `add` schedule comes in, what a thread starts to fire goes out,
and the rest stays, wherever a refused push, a steal or a retry puts it.

The one pair of policies that drops codelets is `TPStatic` over workers that may refuse
one; `Sure` leaves it out.
-/

namespace Darts.Dispatch

open Transition Startup TPStatic

variable {C : Type} {N n : Nat}

/-! ## Where the codelets are -/

/-- Where a scheduled codelet can be. -/
inductive Place (N n : Nat)
  | pool (i : Fin N)
  | buffer (k : Fin N × Fin n)
  /-- What a TP scheduler has popped and not pushed or fired yet. -/
  | hand (i : Fin N)
  /-- A call of `pushCodelet` made in a factory or a `fire()`. -/
  | call (th : Thread N n)
deriving DecidableEq, Fintype

/-- The codelet in the hand of a TP scheduler. -/
def TPAt.hand : TPAt C N n → List C
  | .choose c _ => [c]
  | .push _ call => [call.codelet]
  | .popTP | .steal | .factory | .popCodelet | .fire => []

/-- What is in a place. -/
def State.cell (s : State C N n) : Place N n → List C
  | .pool i => s.codelets_ i
  | .buffer k => (s.workers k).contents
  | .hand i => (s.tp i).hand
  | .call th => ((s.user th).map Call.codelet).toList

section Cells

variable (s : State C N n)

theorem cell_pool (i : Fin N) (xs : List C) :
    State.cell { s with codelets_ := Function.update s.codelets_ i xs } =
      Function.update s.cell (.pool i) xs := by
  funext p
  cases p with
  | pool j => by_cases hj : j = i <;> simp [State.cell, hj]
  | buffer k | hand j | call th => rfl

theorem cell_buffer (k : Fin N × Fin n) (v : MScheduler C) :
    State.cell { s with workers := Function.update s.workers k v } =
      Function.update s.cell (.buffer k) v.contents := by
  funext p
  cases p with
  | buffer k' => by_cases hk : k' = k <;> simp [State.cell, hk]
  | pool j | hand j | call th => rfl

theorem cell_hand (i : Fin N) (a : TPAt C N n) :
    State.cell { s with tp := Function.update s.tp i a } =
      Function.update s.cell (.hand i) a.hand := by
  funext p
  cases p with
  | hand j => by_cases hj : j = i <;> simp [State.cell, hj]
  | pool j | buffer k | call th => rfl

theorem cell_call (th : Thread N n) (call : Option (Call C N n)) :
    State.cell { s with user := Function.update s.user th call } =
      Function.update s.cell (.call th) (call.map Call.codelet).toList := by
  funext p
  cases p with
  | call th' => by_cases hth : th' = th <;> simp [State.cell, hth]
  | pool j | buffer k | hand j => rfl

end Cells

/-- The codelet that a step schedules. -/
def Label.scheduled : Label C N n → List C
  | .decDep _ c | .add _ c => [c]
  | .tp _ _ _ | .mc _ _ _ | .user _ | .pushTP _ | .done _ => []

/-- The codelet that the policy loop of a worker gets hold of. -/
def taken (links : Startup.State N n) (s : State C N n) (k : Fin N × Fin n) (rand pos : Nat) :
    Option C :=
  match s.mc k with
  | .popCodelet =>
    match s.workers k with
    | .MicroDynamic =>
      match deref (links.obj (.mc k.1 k.2)) >>= fun o => deref o.parent_ >>= asTP with
      | .ok i => (s.codelets_ i)[pos]?
      | .error _ => none
    | _ => (popBuff pos (s.workers k)).map Prod.fst
  | .stealCodelet =>
    match stealCodelet links (.mc k.1 k.2) rand with
    | .ok (some (.inl i)) => (s.codelets_ i)[pos]?
    | .ok (some (.inr sibling)) => (popBuff pos (s.workers sibling)).map Prod.fst
    | _ => none
  | .fire => none

/-- The thread that starts a `fire()` in a step from `s` to `t`, and the codelet. -/
def started (links : Startup.State N n) (s t : State C N n) :
    Label C N n → Option (Thread N n × C)
  | .tp i _ _ =>
    match s.tp i, t.tp i with
    | .choose c _, .fire => some (.tp i, c)
    | _, _ => none
  | .mc k rand pos => (taken links s k rand pos).map fun c => (.mc k.1 k.2, c)
  | .decDep _ _ | .add _ _ | .user _ | .pushTP _ | .done _ => none

/-- A thread is in a `fire()`. -/
def firing (s : State C N n) : Thread N n → Bool
  | .tp i => match s.tp i with | .fire => true | _ => false
  | .mc i j => s.mc (i, j) == .fire

/-- The pairs of policies under which a push that is not repeated is never refused. -/
structure Sure (P : TPPolicy) (s : State C N n) : Prop where
  /-- Only `TPStatic` makes such pushes, -/
  user : P ≠ .TPStatic → ∀ th, s.user th = none
  /-- and then to queues without a bound. -/
  room : P = .TPStatic → ∀ k, ∃ buff, s.workers k = .MicroStatic buff

theorem Sure.kept {P : TPPolicy} {s t : State C N n} (h : Sure P s) (huser : t.user = s.user)
    (hworkers : t.workers = s.workers) : Sure P t where
  user hP := by
    rw [huser]
    exact h.user hP
  room hP := by
    rw [hworkers]
    exact h.room hP

/-- What a step of any policy does. -/
structure Effect [DecidableEq C] (links : Startup.State N n) (P : TPPolicy) (s t : State C N n)
    (l : Label C N n) : Prop where
  change : Places.Change s.cell t.cell l.scheduled ((started links s t l).map Prod.snd).toList
  /-- A thread starts a `fire()` when it is in none, and leaves it by `done`. -/
  idle : ∀ th c, started links s t l = some (th, c) → firing s th = false
  fires : ∀ th, firing t th = true ↔
    (∃ c, started links s t l = some (th, c)) ∨ (firing s th = true ∧ l ≠ .done th)
  sure : Sure P t

/-! ## Buffers -/

theorem popBuff_spec {pos : Nat} {v v' : MScheduler C} {c : C} (h : popBuff pos v = some (c, v')) :
    v.contents.Perm (c :: v'.contents) ∧
      ((∃ buff, v = .MicroStatic buff) → ∃ buff, v' = .MicroStatic buff) := by
  have hring : ∀ {buff : RingBuffer C 2} {c' : C}, buff.pull.1 = some c' →
      buff.contents.Perm (c' :: buff.pull.2.contents) := by
    intro buff c' hc'
    rcases RingBuffer.pull_spec buff with ⟨-, hempty⟩ | ⟨x, hret, hcont⟩
    · rw [hempty] at hc'
      cases hc'
    · rw [hret] at hc'
      obtain rfl := Option.some.inj hc'
      exact .of_eq hcont
  cases v with
  | MicroStandard buff | MicroSchedHint buff =>
    obtain ⟨c', hc', heq⟩ := Option.map_eq_some_iff.mp h
    obtain ⟨rfl, rfl⟩ := Prod.mk.inj heq
    exact ⟨hring hc', fun hex => nomatch hex⟩
  | MicroStatic buff =>
    obtain ⟨c', hc', heq⟩ := Option.map_eq_some_iff.mp h
    obtain ⟨rfl, rfl⟩ := Prod.mk.inj heq
    exact ⟨Places.perm_eraseIdx hc', fun _ => ⟨_, rfl⟩⟩
  | MicroSteal buff =>
    obtain ⟨c', hc', heq⟩ := Option.map_eq_some_iff.mp h
    obtain ⟨rfl, rfl⟩ := Prod.mk.inj heq
    exact ⟨Places.perm_eraseIdx hc', fun hex => nomatch hex⟩
  | MicroDynamic => cases h

variable {links : Startup.State N n} {w : Wishes C} {P : TPPolicy} {s t : State C N n}

/-- The worker of a call has been asked. -/
def State.asked (s : State C N n) (call : Call C N n) : State C N n :=
  let own := (s.workers call.worker).pushOwn call.codelet
  { s with workers := Function.update s.workers call.worker own.2 }

/-- A step of a call of `pushCodelet` leaves the codelet in the call or asks the worker. -/
theorem pushWorker_spec {call : Call C N n} {r : Pushing C N n}
    (h : pushWorker links w s call = .ok r) :
    (∃ call', r = .on call' ∧ call'.codelet = call.codelet) ∨
    r = .returned ((s.workers call.worker).pushOwn call.codelet).1 (s.asked call) := by
  have hkeep : ∀ r, keep s call = r → (∃ call', r = .on call' ∧ call'.codelet = call.codelet) ∨
      r = .returned ((s.workers call.worker).pushOwn call.codelet).1 (s.asked call) := by
    intro r hr
    unfold keep at hr
    dsimp only at hr
    split at hr
    next => exact .inl ⟨call, hr.symm, rfl⟩
    next => exact .inr hr.symm
  unfold pushWorker at h
  split at h
  next =>
    cases hv : victim links w call.worker call.codelet with
    | error e =>
      rw [hv] at h
      cases h
    | ok sub =>
      rw [hv, ok_bind] at h
      cases sub with
      | some sub => exact .inl ⟨_, (Except.ok.inj h).symm, rfl⟩
      | none => exact hkeep r (Except.ok.inj h)
  next => exact hkeep r (Except.ok.inj h)

/-! ## Who fires -/

theorem firing_tp {i : Fin N} : firing s (.tp i) = true ↔ s.tp i = .fire := by
  cases hat : s.tp i <;> simp [firing, hat]

theorem firing_mc {k : Fin N × Fin n} : firing s (.mc k.1 k.2) = true ↔ s.mc k = .fire := by
  simp [firing]

section Effects

variable [DecidableEq C]

/-- A step of the policy loop of a TP scheduler. -/
theorem Effect.tp {i : Fin N} {rand pos : Nat} {a : TPAt C N n} (hat : s.tp i ≠ .fire)
    (htp : t.tp = Function.update s.tp i a) (hmc : t.mc = s.mc)
    (hfire : a = .fire → ∃ c turn, s.tp i = .choose c turn)
    (hchange : Places.Change s.cell t.cell []
      ((started links s t (.tp i rand pos)).map Prod.snd).toList)
    (hsure : Sure P t) : Effect links P s t (.tp i rand pos) := by
  have hself : t.tp i = a := by rw [htp, Function.update_self]
  have hstart : ∀ th, (∃ c, started links s t (.tp i rand pos) = some (th, c)) ↔
      th = .tp i ∧ a = .fire := by
    intro th
    constructor
    · rintro ⟨c, hc⟩
      simp only [started, hself] at hc
      split at hc
      next => exact ⟨(Prod.mk.inj (Option.some.inj hc)).1.symm, rfl⟩
      next => cases hc
    · rintro ⟨rfl, rfl⟩
      obtain ⟨c, turn, hc⟩ := hfire rfl
      exact ⟨c, by simp only [started, hself, hc]⟩
  refine ⟨hchange, fun th c hth => ?_, fun th => ?_, hsure⟩
  · obtain ⟨rfl, -⟩ := (hstart th).mp ⟨c, hth⟩
    exact Bool.eq_false_iff.mpr fun hf => hat (firing_tp.mp hf)
  · rw [hstart]
    cases th with
    | inl j =>
      rw [firing_tp, firing_tp, htp]
      by_cases hj : j = i
      · subst hj
        simp [hat]
      · simp [hj]
    | inr k =>
      have hk : firing t (.mc k.1 k.2) = firing s (.mc k.1 k.2) := by
        unfold firing
        rw [hmc]
      simp [hk]

/-- A step of the policy loop of a worker. -/
theorem Effect.mc {k : Fin N × Fin n} {rand pos : Nat} {a : MCAt} (hat : s.mc k ≠ .fire)
    (hmc : t.mc = Function.update s.mc k a) (htp : t.tp = s.tp)
    (hfire : a = .fire ↔ (taken links s k rand pos).isSome)
    (hchange : Places.Change s.cell t.cell [] (taken links s k rand pos).toList)
    (hsure : Sure P t) : Effect links P s t (.mc k rand pos) := by
  have hstart : ∀ th, (∃ c, started links s t (.mc k rand pos) = some (th, c)) ↔
      th = .mc k.1 k.2 ∧ a = .fire := by
    intro th
    rw [hfire]
    cases htaken : taken links s k rand pos <;> simp [started, htaken, eq_comm]
  refine ⟨?_, fun th c hth => ?_, fun th => ?_, hsure⟩
  · have heq : (started links s t (.mc k rand pos)).map Prod.snd = taken links s k rand pos := by
      unfold started
      rw [Option.map_map]
      exact Option.map_id'
    rw [heq]
    exact hchange
  · obtain ⟨rfl, -⟩ := (hstart th).mp ⟨c, hth⟩
    exact Bool.eq_false_iff.mpr fun hf => hat (firing_mc.mp hf)
  · rw [hstart]
    cases th with
    | inl j =>
      rw [firing_tp, firing_tp, htp]
      simp
    | inr k' =>
      rw [firing_mc, firing_mc, hmc]
      by_cases hk : k' = k
      · subst hk
        simp [hat]
      · have hne : (.mc k'.1 k'.2 : Thread N n) ≠ .mc k.1 k.2 := by
          simpa using hk
        simp [hk, hne]

/-- A step of a factory or a `fire()` other than its return. -/
theorem Effect.user {l : Label C N n} (hstart : started links s t l = none)
    (hdone : ∀ th, l ≠ .done th) (htp : t.tp = s.tp) (hmc : t.mc = s.mc)
    (hchange : Places.Change s.cell t.cell l.scheduled []) (hsure : Sure P t) :
    Effect links P s t l := by
  refine ⟨?_, fun th c hth => ?_, fun th => ?_, hsure⟩
  · rw [hstart]
    exact hchange
  · rw [hstart] at hth
    cases hth
  · have hsame : firing t th = firing s th := by
      unfold firing
      rw [htp, hmc]
    simp [hstart, hsame, hdone th]

end Effects

/-! ## What becomes of a codelet -/

/-- Nothing moves. -/
theorem cell_congr (hpool : t.codelets_ = s.codelets_) (hworkers : t.workers = s.workers)
    (hhand : ∀ i, (t.tp i).hand = (s.tp i).hand)
    (hcall : ∀ th, (t.user th).map Call.codelet = (s.user th).map Call.codelet) :
    t.cell = s.cell := by
  funext p
  cases p with
  | pool i => exact congrFun hpool i
  | buffer k => exact congrArg MScheduler.contents (congrFun hworkers k)
  | hand i => exact hhand i
  | call th => exact congrArg Option.toList (hcall th)

/-- A worker that refuses a codelet is left as it is. -/
theorem asked_refused {call : Call C N n}
    (h : ((s.workers call.worker).pushOwn call.codelet).1 = false) : s.asked call = s := by
  rcases MScheduler.pushOwn_spec (s.workers call.worker) call.codelet with ⟨-, htrue, -⟩ | ⟨-, hret⟩
  · rw [h] at htrue
    cases htrue
  · unfold State.asked
    simp only [hret, Function.update_eq_self]

/-- One that takes it has it in its buffer. -/
theorem asked_taken {call : Call C N n}
    (h : ((s.workers call.worker).pushOwn call.codelet).1 = true) :
    ((s.asked call).workers call.worker).contents.Perm
      (call.codelet :: (s.workers call.worker).contents) := by
  rcases MScheduler.pushOwn_spec (s.workers call.worker) call.codelet with ⟨-, -, hcont⟩ | ⟨-, hret⟩
  · unfold State.asked
    simp only [Function.update_self, hcont]
    exact List.perm_append_comm
  · rw [hret] at h
    cases h

theorem cell_asked (call : Call C N n) : (s.asked call).cell = Function.update s.cell
    (.buffer call.worker) ((s.asked call).workers call.worker).contents := by
  simp only [State.asked, Function.update_self]
  exact cell_buffer s call.worker _

theorem asked_ne (call : Call C N n) {k : Fin N × Fin n} (h : k ≠ call.worker) :
    (s.asked call).workers k = s.workers k := Function.update_of_ne h _ _

theorem Sure.asked (hs : Sure P s) (call : Call C N n) : Sure P (s.asked call) where
  user := hs.user
  room hP k := by
    by_cases hk : k = call.worker
    · subst hk
      obtain ⟨buff, hbuff⟩ := hs.room hP call.worker
      unfold State.asked
      simp only [Function.update_self, hbuff]
      exact ⟨_, rfl⟩
    · rw [asked_ne call hk]
      exact hs.room hP k

section Moves

variable [DecidableEq C]

/-- A TP scheduler goes on with the same codelet in hand, or with none. -/
theorem Effect.stay {i : Fin N} {rand pos : Nat} {a : TPAt C N n} (hs : Sure P s)
    (hat : s.tp i ≠ .fire) (ha : a ≠ .fire) (hhand : a.hand = (s.tp i).hand)
    (htp : t.tp = Function.update s.tp i a) (hmc : t.mc = s.mc)
    (hpool : t.codelets_ = s.codelets_) (hworkers : t.workers = s.workers)
    (huser : t.user = s.user) : Effect links P s t (.tp i rand pos) := by
  refine .tp hat htp hmc (fun h => absurd h ha) ?_ (hs.kept huser hworkers)
  have hstart : started links s t (.tp i rand pos) = none := by
    simp only [started, htp, Function.update_self]
    split
    next => exact absurd rfl ha
    next => rfl
  rw [hstart]
  refine .of_eq (cell_congr hpool hworkers (fun j => ?_) fun th => by rw [huser])
  rw [htp]
  by_cases hj : j = i
  · subst hj
    rw [Function.update_self, hhand]
  · rw [Function.update_of_ne hj]

theorem takeTP_effect {i source : Fin N} {rand pos : Nat} {otherwise : TPAt C N n} (hs : Sure P s)
    (hat : s.tp i = .popTP ∨ s.tp i = .steal) (ho : otherwise = .steal ∨ otherwise = .popCodelet) :
    Effect links P s (takeTP s i source otherwise) (.tp i rand pos) := by
  have hne : s.tp i ≠ .fire := by
    rcases hat with hat | hat <;> simp [hat]
  have hempty : (s.tp i).hand = [] := by
    rcases hat with hat | hat <;> simp [hat, TPAt.hand]
  unfold takeTP
  split
  next => exact .stay (a := .factory) hs hne (by simp) hempty.symm rfl rfl rfl rfl rfl
  next =>
    refine .stay hs hne ?_ ?_ rfl rfl rfl rfl rfl
    · rcases ho with rfl | rfl <;> simp
    · rw [hempty]
      rcases ho with rfl | rfl <;> rfl

/-- A TP scheduler pops from its pool. -/
theorem popCodelet_effect {i : Fin N} {rand pos : Nat} {c : C} (hs : Sure P s)
    (hat : s.tp i = .popCodelet) (hpos : (s.codelets_ i)[pos]? = some c) :
    Effect links P s { s with
      codelets_ := Function.update s.codelets_ i ((s.codelets_ i).eraseIdx pos)
      tp := Function.update s.tp i (.choose c 0) } (.tp i rand pos) := by
  refine .tp (a := .choose c 0) (by simp [hat]) rfl rfl (by simp) ?_ (hs.kept rfl rfl)
  simp only [started, hat]
  have hcell := cell_hand
    { s with codelets_ := Function.update s.codelets_ i ((s.codelets_ i).eraseIdx pos) } i
    (.choose c 0)
  rw [cell_pool] at hcell
  refine Places.Change.trans_eq ?_ hcell.symm
  refine .update_move (by simp) (Places.perm_eraseIdx hpos) ?_
  simp [State.cell, TPAt.hand, hat]

/-- It fires what it has in hand. -/
theorem fire_effect {i : Fin N} {rand pos turn : Nat} {c : C} (hs : Sure P s)
    (hat : s.tp i = .choose c turn) :
    Effect links P s { s with tp := Function.update s.tp i .fire } (.tp i rand pos) := by
  refine .tp (a := .fire) (by simp [hat]) rfl rfl (fun _ => ⟨c, turn, hat⟩) ?_ (hs.kept rfl rfl)
  simp only [started, hat, Function.update_self, Option.map_some, Option.toList_some]
  rw [cell_hand]
  refine .update ?_
  simp [State.cell, TPAt.hand, hat]

/-- A worker takes what a TP scheduler has in hand. -/
theorem taken_effect {i : Fin N} {rand pos turn : Nat} {call : Call C N n} (hs : Sure P s)
    (hat : s.tp i = .push turn call)
    (htaken : ((s.workers call.worker).pushOwn call.codelet).1 = true) :
    Effect links P s { s.asked call with tp := Function.update s.tp i .popCodelet }
      (.tp i rand pos) := by
  refine .tp (a := .popCodelet) (by simp [hat]) rfl rfl (by simp) ?_ ((hs.asked call).kept rfl rfl)
  simp only [started, hat]
  have hcell := cell_hand (s.asked call) i .popCodelet
  rw [cell_asked, Function.update_comm (by simp)] at hcell
  refine Places.Change.trans_eq ?_ hcell.symm
  refine .update_move (by simp) ?_ (asked_taken htaken)
  simp [State.cell, TPAt.hand, hat]

/-- A worker takes a codelet from a pool. -/
theorem takeCodelet_effect {k : Fin N × Fin n} {source : Fin N} {rand pos : Nat} (hs : Sure P s)
    (hat : s.mc k ≠ .fire) (htaken : taken links s k rand pos = (s.codelets_ source)[pos]?) :
    Effect links P s (takeCodelet s k source pos) (.mc k rand pos) := by
  unfold takeCodelet
  split
  next c hc =>
    rw [hc] at htaken
    refine .mc (a := .fire) hat rfl rfl (by simp [htaken]) ?_ (hs.kept rfl rfl)
    rw [htaken]
    exact .trans_eq (.update (Places.perm_eraseIdx hc).symm) (cell_pool s source _).symm
  next hc =>
    rw [hc] at htaken
    refine .mc (a := .popCodelet) hat rfl rfl (by simp [htaken]) ?_ (hs.kept rfl rfl)
    rw [htaken]
    exact .of_eq (cell_congr rfl rfl (fun _ => rfl) fun _ => rfl)

/-- Or from a buffer. -/
theorem takeBuff_effect {k source : Fin N × Fin n} {rand pos : Nat} {otherwise : MCAt}
    (hs : Sure P s) (hat : s.mc k ≠ .fire) (ho : otherwise ≠ .fire)
    (htaken : taken links s k rand pos = (popBuff pos (s.workers source)).map Prod.fst) :
    Effect links P s (takeBuff s k source pos otherwise) (.mc k rand pos) := by
  unfold takeBuff
  split
  next c buff hc =>
    obtain ⟨hperm, hstatic⟩ := popBuff_spec hc
    rw [hc] at htaken
    refine .mc (a := .fire) hat rfl rfl (by simp [htaken]) ?_ ⟨hs.user, fun hP v => ?_⟩
    · rw [htaken]
      exact .trans_eq (.update hperm.symm) (cell_buffer s source buff).symm
    · by_cases hv : v = source
      · subst hv
        simp only [Function.update_self]
        exact hstatic (hs.room hP _)
      · simp only [Function.update_of_ne hv]
        exact hs.room hP v
  next hc =>
    rw [hc] at htaken
    refine .mc (a := otherwise) hat rfl rfl (by simp [htaken, ho]) ?_ (hs.kept rfl rfl)
    rw [htaken]
    exact .of_eq (cell_congr rfl rfl (fun _ => rfl) fun _ => rfl)

/-! ## The steps -/

omit [DecidableEq C] in
private theorem bind_eq_ok {α β : Type} {x : Except Fault α} {f : α → Except Fault β} {b : β}
    (h : x >>= f = .ok b) : ∃ a, x = .ok a ∧ f a = .ok b := by
  cases x with
  | error e => cases h
  | ok a => exact ⟨a, rfl, h⟩

theorem nextSub_effect {i : Fin N} {o : Sched N n} {c : C} {rand pos turn turn' : Nat}
    (hs : Sure P s) (hat : s.tp i = .choose c turn') (h : nextSub s i o c turn = .ok t) :
    Effect links P s t (.tp i rand pos) := by
  obtain ⟨which, -, h⟩ := bind_eq_ok h
  obtain ⟨k, -, h⟩ := bind_eq_ok h
  obtain rfl := Except.ok.inj h
  exact .stay (a := .push turn ⟨c, k, false⟩) hs (by simp [hat]) (by simp)
    (by simp [hat, TPAt.hand]) rfl rfl rfl rfl rfl

theorem choose_effect {i : Fin N} {c : C} {rand pos turn : Nat} (hs : Sure P s)
    (hat : s.tp i = .choose c turn) (h : choose links w P s i c turn = .ok t) :
    Effect links P s t (.tp i rand pos) := by
  obtain ⟨o, -, h⟩ := bind_eq_ok h
  cases P with
  | TPPushFull =>
    dsimp only at h
    split at h
    next => exact nextSub_effect hs hat h
    next =>
      obtain rfl := Except.ok.inj h
      exact fire_effect hs hat
  | TPRoundRobin => exact nextSub_effect hs hat h
  | TPStatic | TPDynamic =>
    obtain rfl := Except.ok.inj h
    exact fire_effect hs hat
  | TPHintSched =>
    dsimp only at h
    split at h
    next =>
      obtain ⟨k, -, h⟩ := bind_eq_ok h
      obtain rfl := Except.ok.inj h
      exact .stay (a := .push turn ⟨c, k, false⟩) hs (by simp [hat]) (by simp)
        (by simp [hat, TPAt.hand]) rfl rfl rfl rfl rfl
    next => exact nextSub_effect hs hat h

omit [DecidableEq C] in
/-- A refused codelet stays in hand. -/
theorem refused_hand (P : TPPolicy) (o : Sched N n) (turn : Nat) (call : Call C N n) :
    (refused w P o turn call).hand = [call.codelet] ∧ refused w P o turn call ≠ .fire := by
  cases P with
  | TPHintSched =>
    unfold refused
    dsimp only
    split <;> simp [TPAt.hand]
  | TPPushFull | TPRoundRobin | TPStatic | TPDynamic => simp [refused, TPAt.hand]

theorem push_effect {i : Fin N} {rand pos turn : Nat} {call : Call C N n} (hs : Sure P s)
    (hat : s.tp i = .push turn call) (h : act links w P s (.tp i rand pos) = some (.ok t)) :
    Effect links P s t (.tp i rand pos) := by
  have hne : s.tp i ≠ .fire := by simp [hat]
  unfold act tpStep at h
  simp only [hat] at h
  obtain ⟨pushing, hpushing, h⟩ := bind_eq_ok (Option.some.inj h)
  rcases pushWorker_spec hpushing with ⟨call', rfl, hcodelet⟩ | rfl
  · obtain rfl := Except.ok.inj h
    exact .stay (a := .push turn call') hs hne (by simp) (by simp [hat, TPAt.hand, hcodelet])
      rfl rfl rfl rfl rfl
  · cases hown : ((s.workers call.worker).pushOwn call.codelet).1 with
    | true =>
      rw [hown] at h
      obtain rfl := Except.ok.inj h
      exact taken_effect hs hat hown
    | false =>
      rw [hown] at h
      obtain ⟨o, -, h⟩ := bind_eq_ok h
      obtain rfl := Except.ok.inj h
      rw [asked_refused hown]
      obtain ⟨hhand, hfire⟩ := refused_hand (w := w) P o turn call
      exact .stay (a := refused w P o turn call) hs hne hfire (by rw [hhand, hat]; rfl)
        rfl rfl rfl rfl rfl

/-- The policy loop of a TP scheduler. -/
theorem tp_effect {i : Fin N} {rand pos : Nat} (hs : Sure P s)
    (h : act links w P s (.tp i rand pos) = some (.ok t)) :
    Effect links P s t (.tp i rand pos) := by
  cases hat : s.tp i with
  | popTP =>
    unfold act tpStep at h
    simp only [hat] at h
    obtain rfl := Except.ok.inj (Option.some.inj h)
    exact takeTP_effect hs (.inl hat) (.inl rfl)
  | steal =>
    unfold act tpStep at h
    simp only [hat] at h
    obtain ⟨source, -, h⟩ := bind_eq_ok (Option.some.inj h)
    cases source with
    | some source =>
      obtain rfl := Except.ok.inj h
      exact takeTP_effect hs (.inr hat) (.inr rfl)
    | none =>
      obtain rfl := Except.ok.inj h
      exact .stay (a := .popCodelet) hs (by simp [hat]) (by simp) (by simp [hat, TPAt.hand])
        rfl rfl rfl rfl rfl
  | popCodelet =>
    unfold act tpStep at h
    simp only [hat] at h
    split at h
    next c hc =>
      obtain rfl := Except.ok.inj (Option.some.inj h)
      exact popCodelet_effect hs hat hc
    next =>
      obtain ⟨-, h⟩ := Option.ite_none_right_eq_some.mp h
      obtain rfl := Except.ok.inj (Option.some.inj h)
      exact .stay (a := .popTP) hs (by simp [hat]) (by simp) (by simp [hat, TPAt.hand])
        rfl rfl rfl rfl rfl
  | choose c turn =>
    unfold act tpStep at h
    simp only [hat] at h
    exact choose_effect hs hat (Option.some.inj h)
  | push turn call => exact push_effect hs hat h
  | factory | fire =>
    unfold act tpStep at h
    simp only [hat] at h
    cases h

/-- The policy loop of a worker. -/
theorem mc_effect {k : Fin N × Fin n} {rand pos : Nat} (hs : Sure P s)
    (h : act links w P s (.mc k rand pos) = some (.ok t)) :
    Effect links P s t (.mc k rand pos) := by
  cases hat : s.mc k with
  | popCodelet =>
    have hne : s.mc k ≠ .fire := by simp [hat]
    have hbuff : ∀ {otherwise : MCAt}, otherwise ≠ .fire → s.workers k ≠ .MicroDynamic →
        Effect links P s (takeBuff s k k pos otherwise) (.mc k rand pos) := by
      intro otherwise ho hdynamic
      refine takeBuff_effect hs hne ho ?_
      unfold taken
      rw [hat]
      cases hw : s.workers k with
      | MicroDynamic => exact absurd hw hdynamic
      | MicroStandard buff | MicroStatic buff | MicroSteal buff | MicroSchedHint buff => rfl
    unfold act mcStep at h
    simp only [hat] at h
    cases hw : s.workers k with
    | MicroDynamic =>
      simp only [hw] at h
      obtain ⟨o, ho, h⟩ := bind_eq_ok (Option.some.inj h)
      obtain ⟨parent, hparent, h⟩ := bind_eq_ok h
      obtain ⟨i, hi, h⟩ := bind_eq_ok h
      obtain rfl := Except.ok.inj h
      refine takeCodelet_effect hs hne ?_
      unfold taken
      rw [hat]
      simp only [hw, ho, ok_bind, hparent, hi]
    | MicroStandard buff | MicroStatic buff | MicroSteal buff | MicroSchedHint buff =>
      simp only [hw] at h
      obtain rfl := Except.ok.inj (Option.some.inj h)
      exact hbuff (by simp) (by simp [hw])
  | stealCodelet =>
    have hne : s.mc k ≠ .fire := by simp [hat]
    unfold act mcStep at h
    simp only [hat] at h
    obtain ⟨source, hsource, h⟩ := bind_eq_ok (Option.some.inj h)
    cases source with
    | none =>
      obtain rfl := Except.ok.inj h
      have htaken : taken links s k rand pos = none := by
        unfold taken
        simp only [hat, hsource]
      refine .mc (a := .popCodelet) hne rfl rfl (by simp [htaken]) ?_ (hs.kept rfl rfl)
      rw [htaken]
      exact .of_eq (cell_congr rfl rfl (fun _ => rfl) fun _ => rfl)
    | some source =>
      cases source with
      | inl i =>
        obtain rfl := Except.ok.inj h
        refine takeCodelet_effect hs hne ?_
        unfold taken
        simp only [hat, hsource]
      | inr sibling =>
        obtain rfl := Except.ok.inj h
        refine takeBuff_effect hs hne (by simp) ?_
        unfold taken
        simp only [hat, hsource]
  | fire =>
    unfold act mcStep at h
    simp only [hat] at h
    cases h

/-- The codelet is in the pool of a TP scheduler. -/
def State.pooled (s : State C N n) (i : Fin N) (c : C) : State C N n :=
  { s with codelets_ := Function.update s.codelets_ i (s.codelets_ i ++ [c]) }

/-- A codelet is pushed to a TP scheduler, from a factory or a `fire()`. -/
theorem pushCodelet_change {th : Thread N n} {c : C} (hs : Sure P s) (hidle : s.user th = none)
    (h : pushCodelet links w P s th c = .ok t) :
    Places.Change s.cell t.cell [c] [] ∧ Sure P t ∧ t.tp = s.tp ∧ t.mc = s.mc := by
  have hpool : ∀ t, t = s.pooled (cluster th) c →
      Places.Change s.cell t.cell [c] [] ∧ Sure P t ∧ t.tp = s.tp ∧ t.mc = s.mc := by
    rintro t rfl
    refine ⟨?_, hs.kept rfl rfl, rfl, rfl⟩
    unfold State.pooled
    rw [cell_pool]
    refine .update ?_
    show (s.codelets_ (cluster th) ++ [c]).Perm ([c] ++ s.codelets_ (cluster th))
    exact List.perm_append_comm
  cases P with
  | TPStatic =>
    obtain ⟨o, -, h⟩ := bind_eq_ok h
    split at h
    next => exact hpool t (Except.ok.inj h).symm
    next =>
      obtain ⟨pos, -, h⟩ := bind_eq_ok h
      obtain ⟨k, -, h⟩ := bind_eq_ok h
      obtain rfl := Except.ok.inj h
      refine ⟨?_, ⟨fun hP => absurd rfl hP, fun hP => hs.room hP⟩, rfl, rfl⟩
      rw [cell_call]
      refine .update ?_
      simp [State.cell, hidle]
  | TPPushFull | TPRoundRobin | TPDynamic | TPHintSched => exact hpool t (Except.ok.inj h).symm

/-- A codelet becomes ready: it goes to the TP scheduler, or stays with the worker. -/
theorem decDep_change {th : Thread N n} {c : C} (hs : Sure P s) (hidle : s.user th = none)
    (h : decDep links w P s th c = .ok t) :
    Places.Change s.cell t.cell [c] [] ∧ Sure P t ∧ t.tp = s.tp ∧ t.mc = s.mc := by
  cases th with
  | inl i => exact pushCodelet_change hs hidle h
  | inr k =>
    unfold decDep at h
    dsimp only at h
    split at h
    next buff hbuff =>
      obtain rfl := Except.ok.inj h
      have hbuff : s.workers k = .MicroSteal buff := hbuff
      refine ⟨?_, ⟨hs.user, fun hP => ?_⟩, rfl, rfl⟩
      · refine .trans_eq (.update ?_) (cell_buffer s k (.MicroSteal (buff ++ [c]))).symm
        simp only [State.cell, hbuff]
        show (buff ++ [c]).Perm ([c] ++ buff)
        exact List.perm_append_comm
      · obtain ⟨buff', hbuff'⟩ := hs.room hP k
        rw [hbuff'] at hbuff
        cases hbuff
    next => exact pushCodelet_change hs hidle h

omit [DecidableEq C] in
theorem user_of_inUser {th : Thread N n} (h : inUser s th = true) : s.user th = none := by
  unfold inUser at h
  exact Option.isNone_iff_eq_none.mp (Bool.and_eq_true_iff.mp h).1

/-- A call of `pushCodelet` that a factory or a `fire()` has made goes on. -/
theorem user_effect {th : Thread N n} (hs : Sure P s)
    (h : act links w P s (.user th) = some (.ok t)) : Effect links P s t (.user th) := by
  obtain ⟨call, hcall, h⟩ := Option.map_eq_some_iff.mp h
  -- only `TPStatic` makes such calls, and then every worker takes the codelet
  have hP : P = .TPStatic := by
    by_contra hne
    rw [hs.user hne th] at hcall
    cases hcall
  obtain ⟨buff, hbuff⟩ := hs.room hP call.worker
  have hown : ((s.workers call.worker).pushOwn call.codelet).1 = true := by
    rw [hbuff]
    rfl
  obtain ⟨pushing, hpushing, h⟩ := bind_eq_ok h
  rcases pushWorker_spec hpushing with ⟨call', rfl, hcodelet⟩ | rfl
  · obtain rfl := Except.ok.inj h
    refine .user rfl (by simp) rfl rfl (.of_eq (cell_congr rfl rfl (fun _ => rfl) fun th' => ?_))
      ⟨fun hno => absurd hP hno, hs.room⟩
    by_cases hth : th' = th
    · subst hth
      simp [hcall, hcodelet]
    · simp [hth]
  · obtain rfl := Except.ok.inj h
    refine .user rfl (by simp) rfl rfl ?_ ⟨fun hno => absurd hP hno, (hs.asked call).room⟩
    have hcell := cell_call (s.asked call) th none
    rw [cell_asked, Function.update_comm (by simp)] at hcell
    refine Places.Change.trans_eq ?_ hcell.symm
    refine .update_move (by simp) ?_ (asked_taken hown)
    simp [State.cell, hcall]

/-- A factory or a `fire()` returns. -/
theorem done_effect {th : Thread N n} (hs : Sure P s)
    (h : act links w P s (.done th) = some (.ok t)) : Effect links P s t (.done th) := by
  obtain ⟨hin, h⟩ := Option.ite_none_right_eq_some.mp h
  have hin := (Bool.and_eq_true_iff.mp hin).2
  cases th with
  | inl i =>
    obtain rfl : { s with tp := Function.update s.tp i .popCodelet } = t :=
      Except.ok.inj (Option.some.inj h)
    have hempty : (s.tp i).hand = [] := by
      dsimp only at hin
      split at hin
      next hat => rw [hat]; rfl
      next hat => rw [hat]; rfl
      next => cases hin
    refine ⟨.of_eq (cell_congr rfl rfl (fun j => ?_) fun _ => rfl), fun _ _ hno => (nomatch hno),
      fun th' => ?_, hs.kept rfl rfl⟩
    · by_cases hj : j = i
      · subst hj
        rw [hempty]
        simp only [Function.update_self]
        rfl
      · simp [hj]
    · cases th' with
      | inl j =>
        rw [firing_tp, firing_tp]
        by_cases hj : j = i
        · subst hj
          simp [started]
        · simp [started, hj, Ne.symm hj]
      | inr k =>
        rw [firing_mc, firing_mc]
        simp [started]
  | inr k =>
    obtain rfl : { s with mc := Function.update s.mc k .popCodelet } = t :=
      Except.ok.inj (Option.some.inj h)
    refine ⟨.of_eq (cell_congr rfl rfl (fun _ => rfl) fun _ => rfl), fun _ _ hno => (nomatch hno),
      fun th' => ?_, hs.kept rfl rfl⟩
    cases th' with
    | inl j =>
      rw [firing_tp, firing_tp]
      simp [started]
    | inr k' =>
      rw [firing_mc, firing_mc]
      by_cases hk : k' = k
      · subst hk
        simp [started]
      · have hne : k ≠ k' := Ne.symm hk
        simp [started, hk, hne]

/-- **One step**, of any policy. -/
theorem act_effect {l : Label C N n} (hs : Sure P s) (h : act links w P s l = some (.ok t)) :
    Effect links P s t l := by
  cases l with
  | tp i rand pos => exact tp_effect hs h
  | mc k rand pos => exact mc_effect hs h
  | decDep th c =>
    obtain ⟨hin, h⟩ := Option.ite_none_right_eq_some.mp h
    obtain ⟨hchange, hsure, htp, hmc⟩ :=
      decDep_change hs (user_of_inUser hin) (Option.some.inj h)
    exact .user rfl (by simp) htp hmc hchange hsure
  | add th c =>
    obtain ⟨hin, h⟩ := Option.ite_none_right_eq_some.mp h
    obtain ⟨hchange, hsure, htp, hmc⟩ :=
      pushCodelet_change hs (user_of_inUser hin) (Option.some.inj h)
    exact .user rfl (by simp) htp hmc hchange hsure
  | user th => exact user_effect hs h
  | pushTP th =>
    obtain ⟨-, h⟩ := Option.ite_none_right_eq_some.mp h
    obtain rfl := Except.ok.inj (Option.some.inj h)
    exact .user rfl (by simp) rfl rfl (.of_eq (cell_congr rfl rfl (fun _ => rfl) fun _ => rfl))
      (hs.kept rfl rfl)
  | done th => exact done_effect hs h

end Moves

/-! ## Every run -/

section Runs

variable {rt : Runtime} {links : Startup.State rt.numTPSched_ rt.numMCSched_} {w : Wishes C}
  {P : TPPolicy} {s t : State C rt.numTPSched_ rt.numMCSched_}
  {workers : Fin rt.numTPSched_ × Fin rt.numMCSched_ → MScheduler C}

theorem sure_start (h : P ≠ .TPStatic ∨ ∀ k, ∃ buff, workers k = .MicroStatic buff) :
    Sure P (start workers) where
  user _ _ := rfl
  room hP := h.resolve_left (not_not_intro hP)

theorem cell_start (hempty : ∀ k, (workers k).contents = [])
    (p : Place rt.numTPSched_ rt.numMCSched_) : (start workers).cell p = [] := by
  cases p with
  | buffer k => exact hempty k
  | pool i => rfl
  | hand i => rfl
  | call th => rfl

variable [DecidableEq C]

theorem step_effect (hserved : Served P rt.numMCSched_) (h : Steal.Ready links) (hi : Inv s)
    (hs : Sure P s) {l : Label C rt.numTPSched_ rt.numMCSched_}
    (hl : step links w P s l = some t) : Effect links P s t l := by
  unfold step at hl
  rw [if_pos hi.fault] at hl
  obtain ⟨r, hr, heq⟩ := Option.map_eq_some_iff.mp hl
  obtain ⟨t', rfl, -⟩ := act_ok hserved h hi hr
  obtain rfl : t' = t := heq
  exact act_effect hs hr

/-- A run with what has happened in it. -/
structure Logged (C : Type) (N n : Nat) where
  state : State C N n
  /-- What `decDep` and `add` have scheduled. -/
  scheduled : List C
  /-- What has been fired, and by whom. -/
  fired : List (Thread N n × C)

/-- A step, and what it adds to the log. -/
def logStep (links : Startup.State N n) (w : Wishes C) (P : TPPolicy) (s : Logged C N n)
    (l : Label C N n) : Option (Logged C N n) :=
  (step links w P s.state l).map fun t =>
    ⟨t, s.scheduled ++ l.scheduled, s.fired ++ (started links s.state t l).toList⟩

/-- What holds in every reachable state. -/
structure Logged.Inv (P : TPPolicy) (s : Logged C rt.numTPSched_ rt.numMCSched_) : Prop where
  safe : Dispatch.Inv s.state
  sure : Sure P s.state
  count : ∀ c, ∑ p, (s.state.cell p).count c + (s.fired.map Prod.snd).count c =
    s.scheduled.count c

theorem Logged.reachable_inv (hserved : Served P rt.numMCSched_) (h : Steal.Ready links)
    (hkeeps : P ≠ .TPStatic ∨ ∀ k, ∃ buff, workers k = .MicroStatic buff)
    (hempty : ∀ k, (workers k).contents = []) {s : Logged C rt.numTPSched_ rt.numMCSched_}
    (hs : Reachable (logStep links w P) ⟨start workers, [], []⟩ s) : Logged.Inv P s := by
  refine hs.invariant (Logged.Inv P) ⟨inv_start workers, sure_start hkeeps, fun c => ?_⟩ ?_
  · simp [cell_start hempty]
  · intro s l t _ hI hl
    obtain ⟨u, hu, rfl⟩ := Option.map_eq_some_iff.mp hl
    have heffect := step_effect hserved h hI.safe hI.sure hu
    refine ⟨step_inv hserved h hI.safe hu, heffect.sure, fun c => ?_⟩
    have hchange := heffect.change c
    have hcount := hI.count c
    have hfired : ((started links s.state u l).toList.map Prod.snd).count c =
        ((started links s.state u l).map Prod.snd).toList.count c := by
      cases started links s.state u l <;> rfl
    show ∑ p, (u.cell p).count c + _ = _
    rw [List.map_append, List.count_append, List.count_append, hfired]
    omega

/-- **No codelet is lost and none is fired twice**, under any TP policy over any workers, on any
number of clusters, in every interleaving: as often as a codelet has been scheduled, it has been
fired or is in a pool, in a buffer, in the hand of a TP scheduler or in a call of `pushCodelet`. So
when nothing is in any of these places, what has been fired is what has been scheduled. -/
theorem conserved {th : RtThread rt}
    (hlinks : Reachable (Startup.step rt) (Startup.start rt) links) (hth : links.rest th = [])
    (hserved : Served P rt.numMCSched_)
    (hkeeps : P ≠ .TPStatic ∨ ∀ k, ∃ buff, workers k = .MicroStatic buff)
    (hempty : ∀ k, (workers k).contents = []) {s : Logged C rt.numTPSched_ rt.numMCSched_}
    (hs : Reachable (logStep links w P) ⟨start workers, [], []⟩ s) :
    (∀ c, s.scheduled.count c =
      (s.fired.map Prod.snd).count c + ∑ p, (s.state.cell p).count c) ∧
    ((∀ p, s.state.cell p = []) → (s.fired.map Prod.snd).Perm s.scheduled) := by
  have hI := Logged.reachable_inv hserved (Steal.ready_of_through hlinks hth) hkeeps hempty hs
  refine ⟨fun c => ?_, fun hnone => List.perm_iff_count.mpr fun c => ?_⟩
  · rw [← hI.count c, Nat.add_comm]
  · have hcount := hI.count c
    simp only [hnone, List.count_nil, Finset.sum_const_zero, Nat.zero_add] at hcount
    exact hcount

end Runs

/-- The first factory adds two codelets, which go to the worker; it fires the second one. -/
def addTwo : List (Label Nat Steal.two.numTPSched_ Steal.two.numMCSched_) :=
  let tp := first Steal.two
  [.tp tp 0 0, .add (.tp tp) 5, .user (.tp tp), .add (.tp tp) 6, .user (.tp tp),
    .mc (tp, ⟨0, by decide⟩) 0 1]

/-- Two clusters of one worker with an unbounded queue, under `TPStatic`. -/
theorem conserved_two :
    ∃ s, run (logStep (Steal.linked Steal.two) ⟨fun _ => 1, fun _ => 0⟩ .TPStatic)
        ⟨start fun _ => .MicroStatic [], [], []⟩ addTwo = some s ∧
      s.scheduled = [5, 6] ∧ s.fired.map Prod.snd = [6] ∧
      ∀ c, s.scheduled.count c =
        (s.fired.map Prod.snd).count c + ∑ p, (s.state.cell p).count c := by
  have hmap : (run (logStep (Steal.linked Steal.two) ⟨fun _ => 1, fun _ => 0⟩ .TPStatic)
      ⟨start fun _ => .MicroStatic [], [], []⟩ addTwo).map
        (fun s => (s.scheduled, s.fired.map Prod.snd)) = some ([5, 6], [6]) := by decide +kernel
  obtain ⟨s, hrun, heq⟩ := Option.map_eq_some_iff.mp hmap
  obtain ⟨hscheduled, hfired⟩ := Prod.mk.inj heq
  obtain ⟨hlinks, hdone⟩ := Steal.linked_two
  exact ⟨s, hrun, hscheduled, hfired, (conserved hlinks (hdone (.tp (first Steal.two)))
    (.inl (by decide)) (.inr fun _ => ⟨[], rfl⟩) (fun _ => rfl) (.of_run hrun)).1⟩

end Darts.Dispatch
