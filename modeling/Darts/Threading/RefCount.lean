import Mathlib.Logic.Function.Basic
import Darts.Lib.Places
import Darts.Lib.Transition
import Darts.Threading.SyncSlot

/-!
# Reference counts of threaded procedures

A threaded procedure (TP) is deleted by whoever brings its `ref_` to zero. The count
starts at 1 for the factory that constructs the TP, goes up when a codelet of the TP
is made ready (`ThreadedProcedure::add`, `Codelet::add`, `Codelet::decDep`) and when a
child is queued (`invoke`), and goes down in `TPFactory`, in the code of every policy
after `fire()`, and in the destructor of a child. `checkParent` decides whether the
last two happen at all: for a TP without parent, the root of a `launch`, they do not
(`src/threading/ThreadedProcedure.cpp`, `include/threading/doTP.h`,
`src/threading/Codelet.cpp`, `src/scheduler/MSchedPolicy.cpp`).

A step below does at most one operation on one count. A codelet is the number of its
TP: which codelet it is makes no difference to any count, and codelets without a TP
touch none. `add`, `decDep` and `invoke` are executed by the constructor or a codelet
of the TP they are about or of a descendant of it. `ref_` is an `unsigned int`, and a
`Nat` here that does not wrap when it grows: the steps are those of the source as long
as every TP has fewer than `2^32` references (`State.incRef_ref`).

TPs are numbered in the order of their construction.
-/

namespace Darts

namespace RefCount

open Word

/-- The threaded procedures of a run. `incs` and `deleted` are history. -/
structure State where
  /-- How many TPs have been constructed. -/
  next : Nat
  parentTP_ : Nat → Option Nat
  ref_ : Nat → Nat
  /-- Constructed, and the destructor has not run. -/
  live : List Nat
  /-- TPs whose `TPFactory` is still before its `decRef`, in the constructor for example. -/
  factories : List Nat
  /-- The parents of the closures in the pools of the TP schedulers. -/
  closures : List (Option Nat)
  /-- The TPs of the codelets in the pools and buffers. -/
  ready : List Nat
  /-- The TPs of the codelets being fired, with the `deleteTP` of the policy. -/
  running : List (Nat × Bool)
  /-- A `decRef` returned true, `delete` comes next. -/
  dying : List Nat
  /-- The TPs whose destructor has run, each as often as it has. -/
  deleted : List Nat
  /-- How often `ref_` has been incremented. -/
  incs : Nat → Nat

/-- Who executes an operation: the constructor of a TP, or a codelet being fired. -/
inductive Actor
  | ctor (tp : Nat)
  | codelet (pos : Nat)
deriving DecidableEq

/-- The steps; positions are those of the lists of the state. -/
inductive Label
  /-- `launch`, and `Runtime::run` with its closure. -/
  | launch
  /-- `TPFactory` of a queued closure constructs the TP. -/
  | construct (pos : Nat)
  /-- `add` of a ready codelet of `x`. -/
  | add (a : Actor) (x : Nat)
  /-- `decDep` brings the counter of a codelet of `x` to zero. -/
  | decDep (a : Actor) (x : Nat)
  /-- `invoke` with parent `x`. -/
  | invoke (a : Actor) (x : Nat)
  /-- `TPFactory` does its `decRef`. -/
  | factoryDecRef (pos : Nat)
  /-- A policy pops a codelet and calls `fire()`. -/
  | fire (pos : Nat)
  /-- `fire()` returns, and the policy does its `decRef`. -/
  | finish (pos : Nat)
  /-- `delete`. -/
  | destroy (pos : Nat)
deriving DecidableEq

namespace State

/-- Nothing launched yet. -/
def start : State :=
  { next := 0, parentTP_ := fun _ => none, ref_ := fun _ => 0, live := [], factories := []
    closures := [], ready := [], running := [], dying := [], deleted := [], incs := fun _ => 0 }

/-- `ThreadedProcedure::checkParent`. -/
def checkParent (s : State) (x : Nat) : Bool :=
  match s.parentTP_ x with
  | none => false
  | some p => p != x

/-- `ThreadedProcedure::incRef`. -/
def incRef (s : State) (x : Nat) : State :=
  { s with
    ref_ := Function.update s.ref_ x (s.ref_ x + 1)
    incs := Function.update s.incs x (s.incs x + 1) }

theorem incRef_ref {s : State} {x : Nat} (h : s.ref_ x < uintMax) :
    (s.incRef x).ref_ x = fetchAdd (s.ref_ x) :=
  (Function.update_self ..).trans (fetchAdd_of_lt h).symm

/-- `if (x->decRef()) delete x;` up to the `delete`. -/
def decRef (s : State) (x : Nat) : State :=
  { s with
    ref_ := Function.update s.ref_ x (fetchSub (s.ref_ x))
    dying := if s.ref_ x = 1 then s.dying ++ [x] else s.dying }

/-- The TP an actor belongs to. -/
def actor (s : State) : Actor → Option Nat
  | .ctor x => if x ∈ s.factories then some x else none
  | .codelet pos => (s.running[pos]?).map Prod.fst

/-- `x` is `y` or an ancestor of `y`, at most `fuel` generations up. -/
def descends (parentTP_ : Nat → Option Nat) (x : Nat) : Nat → Nat → Bool
  | 0, y => y == x
  | fuel + 1, y => y == x ||
    match parentTP_ y with
    | none => false
    | some z => descends parentTP_ x fuel z

/-- The actor belongs to `x` or to a descendant of `x`. There are `next` TPs, so no
ancestor is further up. -/
def mayTouch (s : State) (a : Actor) (x : Nat) : Bool :=
  match s.actor a with
  | none => false
  | some y => descends s.parentTP_ x s.next y

/-- A codelet of `x` becomes ready. -/
def makeReady (s : State) (x : Nat) : State :=
  { s.incRef x with ready := s.ready ++ [x] }

/-- The constructor of `ThreadedProcedure`, on a new object. -/
def construct (s : State) (parent : Option Nat) : State :=
  { s with
    next := s.next + 1
    parentTP_ := Function.update s.parentTP_ s.next parent
    ref_ := Function.update s.ref_ s.next 1
    incs := Function.update s.incs s.next 0
    live := s.live ++ [s.next]
    factories := s.factories ++ [s.next] }

/-- `~ThreadedProcedure`. -/
def destroy (s : State) (x : Nat) : State :=
  let s' := { s with live := s.live.erase x, deleted := s.deleted ++ [x] }
  match s.parentTP_ x with
  | none => s'
  | some p => if s.checkParent p then s'.decRef p else s'

end State

/-- The steps of all threads. -/
def step (s : State) : Label → Option State
  | .launch => some { s with closures := s.closures ++ [none] }
  | .construct pos => (s.closures[pos]?).map fun parent =>
      { s with closures := s.closures.eraseIdx pos }.construct parent
  | .add a x => if s.mayTouch a x then some (s.makeReady x) else none
  | .decDep a x => if s.mayTouch a x then some (s.makeReady x) else none
  | .invoke a x =>
    if s.mayTouch a x then some { s.incRef x with closures := s.closures ++ [some x] } else none
  | .factoryDecRef pos => (s.factories[pos]?).map fun x =>
      { s with factories := s.factories.eraseIdx pos }.decRef x
  | .fire pos => (s.ready[pos]?).map fun x => { s with
      ready := s.ready.eraseIdx pos
      running := s.running ++ [(x, s.checkParent x)] }
  | .finish pos => (s.running[pos]?).map fun (x, deleteTP) =>
      let s' := { s with running := s.running.eraseIdx pos }
      if deleteTP then s'.decRef x else s'
  | .destroy pos => (s.dying[pos]?).map fun x =>
      { s with dying := s.dying.eraseIdx pos }.destroy x

/-! ## What a count should be -/

/-- The factory that has not done its `decRef`, the codelets made ready whose `decRef` is
still to come, and the children that are queued or live. -/
def owed (s : State) (x : Nat) : Nat :=
  s.factories.count x + (s.ready.count x + (s.running.map Prod.fst).count x) +
    (s.closures.count (some x) + (s.live.map s.parentTP_).count (some x))

/-- The invariant, with `debt x` references of `x` still to be given back by the step
under way. -/
structure Inv (debt : Nat → Nat) (s : State) : Prop where
  /-- Only constructed TPs are referred to. -/
  fresh : ∀ x, s.next ≤ x → owed s x = 0
  parent_lt : ∀ x p, x < s.next → s.parentTP_ x = some p → p < x
  /-- A constructed TP is live or has been deleted, once. -/
  born : ∀ x, s.live.count x + s.deleted.count x = if x < s.next then 1 else 0
  /-- A deleted TP has count 0. -/
  dead : ∀ x, x ∈ s.deleted → s.ref_ x = 0
  /-- A live TP with count 0 is about to be deleted, by one thread. -/
  dying_iff : ∀ x, s.dying.count x = if x ∈ s.live ∧ s.ref_ x = 0 then 1 else 0
  /-- A policy has read `checkParent` of the codelet's TP. -/
  flag : ∀ e ∈ s.running, e.2 = s.checkParent e.1
  /-- **The count of a TP with a parent is exact.** -/
  exact : ∀ x, x < s.next → s.checkParent x = true → s.ref_ x = owed s x + debt x
  /-- The count of a root only ever loses the factory's reference. -/
  root : ∀ x, x < s.next → s.checkParent x = false →
    s.ref_ x = s.factories.count x + s.incs x + debt x ∧ owed s x + debt x ≤ s.ref_ x

theorem inv_start : Inv (fun _ => 0) State.start where
  fresh := fun x _ => rfl
  parent_lt := fun x p h => absurd h (Nat.not_lt_zero x)
  born := fun x => rfl
  dead := fun x h => absurd h List.not_mem_nil
  dying_iff := fun x => by simp [State.start]
  flag := fun e h => absurd h List.not_mem_nil
  exact := fun x h => absurd h (Nat.not_lt_zero x)
  root := fun x h => absurd h (Nat.not_lt_zero x)

section Invariant

variable {debt : Nat → Nat} {s t : State} {x : Nat}

/-! ## What is referred to is alive -/

theorem Inv.lt_of_owed (hs : Inv debt s) (h : 0 < owed s x) : x < s.next := by
  by_contra hge
  have := hs.fresh x (by omega)
  omega

/-- A TP that something refers to has a positive count. -/
theorem Inv.ref_pos (hs : Inv debt s) (h : 0 < owed s x) : 0 < s.ref_ x := by
  have hlt := hs.lt_of_owed h
  cases hcheck : s.checkParent x with
  | true =>
    have := hs.exact x hlt hcheck
    omega
  | false =>
    have := (hs.root x hlt hcheck).2
    omega

/-- A TP with a positive count is live. -/
theorem Inv.live_of_ref (hs : Inv debt s) (hlt : x < s.next) (h : 0 < s.ref_ x) :
    x ∈ s.live := by
  have hborn := hs.born x
  rw [if_pos hlt] at hborn
  have hdel : s.deleted.count x = 0 := by
    rw [List.count_eq_zero]
    intro hmem
    have := hs.dead x hmem
    omega
  exact List.count_pos_iff.mp (by omega)

theorem Inv.live_of_owed (hs : Inv debt s) (h : 0 < owed s x) : x ∈ s.live :=
  hs.live_of_ref (hs.lt_of_owed h) (hs.ref_pos h)

theorem Inv.lt_of_live (hs : Inv debt s) (h : x ∈ s.live) : x < s.next := by
  have hborn := hs.born x
  have := List.count_pos_iff.mpr h
  split at hborn
  next hlt => exact hlt
  next => omega

theorem owed_of_factory (h : x ∈ s.factories) : 0 < owed s x := by
  have := List.count_pos_iff.mpr h
  unfold owed
  omega

theorem owed_of_running {e : Nat × Bool} (h : e ∈ s.running) : 0 < owed s e.1 := by
  have := List.count_pos_iff.mpr (List.mem_map_of_mem (f := Prod.fst) h)
  unfold owed
  omega

theorem owed_of_closure (h : some x ∈ s.closures) : 0 < owed s x := by
  have := List.count_pos_iff.mpr h
  unfold owed
  omega

/-- The parent of a live TP is referred to. -/
theorem owed_parent {y z : Nat} (hy : y ∈ s.live) (hz : s.parentTP_ y = some z) :
    0 < owed s z := by
  have hmem : some z ∈ s.live.map s.parentTP_ := List.mem_map.mpr ⟨y, hy, hz⟩
  have := List.count_pos_iff.mpr hmem
  unfold owed
  omega

/-- So are all ancestors of a TP that is referred to. -/
private theorem Inv.owed_of_descends (hs : Inv debt s) (fuel : Nat) : ∀ {y : Nat}, 0 < owed s y →
    State.descends s.parentTP_ x fuel y = true → 0 < owed s x := by
  induction fuel with
  | zero =>
    intro y hy h
    obtain rfl := eq_of_beq h
    exact hy
  | succ fuel ih =>
    intro y hy h
    unfold State.descends at h
    rcases Bool.or_eq_true_iff.mp h with heq | hup
    · obtain rfl := eq_of_beq heq
      exact hy
    · split at hup
      next => cases hup
      next z hz => exact ih (owed_parent (hs.live_of_owed hy) hz) hup

/-- **Whoever may touch `x` keeps it alive.** -/
theorem Inv.owed_of_mayTouch (hs : Inv debt s) {a : Actor} (h : s.mayTouch a x = true) :
    0 < owed s x := by
  unfold State.mayTouch at h
  split at h
  next => cases h
  next y hy =>
    refine hs.owed_of_descends s.next ?_ h
    cases a with
    | ctor z =>
      simp only [State.actor] at hy
      split at hy
      next hmem =>
        obtain rfl := Option.some.inj hy
        exact owed_of_factory hmem
      next => cases hy
    | codelet pos =>
      simp only [State.actor] at hy
      obtain ⟨e, he, rfl⟩ := Option.map_eq_some_iff.mp hy
      exact owed_of_running (List.mem_of_getElem? he)

/-! ## Counting -/

private theorem count_eraseIdx {α : Type} [BEq α] [LawfulBEq α] [DecidableEq α]
    {xs : List α} {pos : Nat} {a : α}
    (h : xs[pos]? = some a) (b : α) :
    xs.count b = (xs.eraseIdx pos).count b + if b = a then 1 else 0 := by
  rw [(Places.perm_eraseIdx h).count_eq, List.count_cons]
  by_cases hb : b = a
  · subst hb
    simp
  · simp [hb, Ne.symm hb]

private theorem count_snoc {α : Type} [BEq α] [LawfulBEq α] [DecidableEq α] (xs : List α)
    (a b : α) :
    (xs ++ [a]).count b = xs.count b + if b = a then 1 else 0 := by
  rw [List.count_append, List.count_singleton]
  by_cases hb : b = a
  · subst hb
    simp
  · simp [hb, Ne.symm hb]

/-! ## What the operations do to the invariant -/

/-- One reference of `x` to be given back. -/
def one (x : Nat) : Nat → Nat := fun y => if y = x then 1 else 0

@[simp] theorem one_self (x : Nat) : one x x = 1 := if_pos rfl

theorem one_of_ne {x y : Nat} (h : y ≠ x) : one x y = 0 := if_neg h

private theorem update_add_one (f : Nat → Nat) (x y : Nat) :
    Function.update f x (f x + 1) y = f y + one x y := by
  by_cases hy : y = x
  · rw [hy, Function.update_self, one_self]
  · rw [Function.update_of_ne hy, one_of_ne hy, Nat.add_zero]

private theorem checkParent_congr (h : t.parentTP_ = s.parentTP_) (y : Nat) :
    t.checkParent y = s.checkParent y := by
  unfold State.checkParent
  rw [h]

/-- A step that only moves references around, and may set some aside as debt. -/
private theorem Inv.rebalance {debt' : Nat → Nat} (hs : Inv debt s)
    (hsame : t.next = s.next ∧ t.parentTP_ = s.parentTP_ ∧ t.ref_ = s.ref_ ∧ t.live = s.live ∧
      t.dying = s.dying ∧ t.deleted = s.deleted ∧ t.incs = s.incs)
    (hflag : ∀ e ∈ t.running, e.2 = s.checkParent e.1)
    (hle : ∀ y, owed t y ≤ owed s y)
    (hexact : ∀ y, s.checkParent y = true → owed t y + debt' y = owed s y + debt y)
    (hroot : ∀ y, s.checkParent y = false → owed t y + debt' y ≤ owed s y + debt y ∧
      t.factories.count y + debt' y = s.factories.count y + debt y) : Inv debt' t := by
  obtain ⟨hnext, hparent, href, hlive, hdying, hdeleted, hincs⟩ := hsame
  have hcheck := checkParent_congr hparent
  refine ⟨fun y hy => ?_, fun y p hy hp => ?_, fun y => ?_, fun y hy => ?_, fun y => ?_,
    fun e he => ?_, fun y hy hc => ?_, fun y hy hc => ?_⟩
  · have := hs.fresh y (hnext ▸ hy)
    have := hle y
    omega
  · exact hs.parent_lt y p (hnext ▸ hy) (hparent ▸ hp)
  · rw [hlive, hdeleted, hnext]
    exact hs.born y
  · rw [href]
    exact hs.dead y (hdeleted ▸ hy)
  · rw [hdying, hlive, href]
    exact hs.dying_iff y
  · rw [hcheck]
    exact hflag e he
  · rw [hcheck] at hc
    rw [href, hexact y hc]
    exact hs.exact y (hnext ▸ hy) hc
  · rw [hcheck] at hc
    have hbal := hroot y hc
    have hold := hs.root y (hnext ▸ hy) hc
    rw [href, hincs]
    omega

/-- `incRef` of a TP that is referred to, together with the new reference. -/
private theorem Inv.incRef (hs : Inv debt s) (hpos : 0 < owed s x)
    (hsame : t.next = s.next ∧ t.parentTP_ = s.parentTP_ ∧ t.ref_ = (s.incRef x).ref_ ∧
      t.live = s.live ∧ t.dying = s.dying ∧ t.deleted = s.deleted ∧
      t.incs = (s.incRef x).incs ∧ t.factories = s.factories ∧ t.running = s.running)
    (howed : ∀ y, owed t y = owed s y + one x y) : Inv debt t := by
  obtain ⟨hnext, hparent, href, hlive, hdying, hdeleted, hincs, hfact, hrun⟩ := hsame
  have hcheck := checkParent_congr hparent
  have href' : ∀ y, t.ref_ y = s.ref_ y + one x y := fun y => by
    rw [href]
    exact update_add_one s.ref_ x y
  have hincs' : ∀ y, t.incs y = s.incs y + one x y := fun y => by
    rw [hincs]
    exact update_add_one s.incs x y
  have hlt := hs.lt_of_owed hpos
  have hrefpos := hs.ref_pos hpos
  refine ⟨fun y hy => ?_, fun y p hy hp => ?_, fun y => ?_, fun y hy => ?_, fun y => ?_,
    fun e he => ?_, fun y hy hc => ?_, fun y hy hc => ?_⟩
  · rw [hnext] at hy
    rw [howed, hs.fresh y hy, one_of_ne (by omega)]
  · exact hs.parent_lt y p (hnext ▸ hy) (hparent ▸ hp)
  · rw [hlive, hdeleted, hnext]
    exact hs.born y
  · rw [hdeleted] at hy
    have hzero := hs.dead y hy
    have hne : y ≠ x := fun he => by
      rw [he] at hzero
      omega
    rw [href', hzero, one_of_ne hne]
  · rw [hdying, hlive, href', hs.dying_iff y]
    by_cases hy : y = x
    · subst hy
      rw [if_neg (by omega), if_neg (by omega)]
    · rw [one_of_ne hy, Nat.add_zero]
  · rw [hcheck]
    exact hs.flag e (hrun ▸ he)
  · rw [hcheck] at hc
    rw [href', howed, hs.exact y (hnext ▸ hy) hc]
    omega
  · rw [hcheck] at hc
    have hold := hs.root y (hnext ▸ hy) hc
    rw [href', howed, hincs', hfact]
    omega

/-- `decRef` gives a reference back; a count that was 1 sends the TP to its deletion. -/
private theorem Inv.decRef (hs : Inv (one x) s) (hlive : x ∈ s.live) (hlt : x < s.next) :
    Inv (fun _ => 0) (s.decRef x) := by
  have hpos : 0 < s.ref_ x := by
    have hdebt := one_self x
    cases hc : s.checkParent x with
    | true =>
      have := hs.exact x hlt hc
      omega
    | false =>
      have := (hs.root x hlt hc).2
      omega
  have href : ∀ y, (s.decRef x).ref_ y + one x y = s.ref_ y := fun y => by
    show Function.update s.ref_ x (fetchSub (s.ref_ x)) y + one x y = s.ref_ y
    by_cases hy : y = x
    · subst hy
      rw [one_self, Function.update_self, fetchSub_of_pos (by omega)]
      omega
    · rw [one_of_ne hy, Nat.add_zero, Function.update_of_ne hy]
  have howed : ∀ y, owed (s.decRef x) y = owed s y := fun y => rfl
  refine ⟨fun y hy => hs.fresh y hy, hs.parent_lt, hs.born, fun y hy => ?_, fun y => ?_, hs.flag,
    fun y hy hc => ?_, fun y hy hc => ?_⟩
  · have hzero := hs.dead y hy
    have := href y
    omega
  · have hold := hs.dying_iff y
    have hbal := href y
    show (if s.ref_ x = 1 then s.dying ++ [x] else s.dying).count y =
      if y ∈ s.live ∧ (s.decRef x).ref_ y = 0 then 1 else 0
    by_cases hy : y = x
    · subst hy
      rw [one_self] at hbal
      rw [if_neg (by omega)] at hold
      by_cases hlast : s.ref_ y = 1
      · rw [if_pos hlast, List.count_append, hold, if_pos ⟨hlive, by omega⟩]
        simp
      · rw [if_neg hlast, hold, if_neg (fun hc => by omega)]
    · rw [one_of_ne hy, Nat.add_zero] at hbal
      rw [hbal, ← hold]
      split
      next => rw [count_snoc, if_neg hy, Nat.add_zero]
      next => rfl
  · have := hs.exact y hy hc
    have := href y
    rw [howed]
    omega
  · have hold := hs.root y hy hc
    have := href y
    rw [howed]
    show (s.decRef x).ref_ y = s.factories.count y + s.incs y + 0 ∧ _
    omega

/-! ## The steps -/

private theorem map_fst_eraseIdx {xs : List (Nat × Bool)} {pos : Nat} {e : Nat × Bool}
    (h : xs[pos]? = some e) (y : Nat) :
    (xs.map Prod.fst).count y = ((xs.eraseIdx pos).map Prod.fst).count y + one e.1 y := by
  rw [((Places.perm_eraseIdx h).map Prod.fst).count_eq, List.map_cons, List.count_cons]
  unfold one
  by_cases hy : y = e.1
  · simp [hy]
  · simp [hy, Ne.symm hy]

private theorem inv_makeReady (hs : Inv debt s) (hpos : 0 < owed s x) :
    Inv debt (s.makeReady x) := by
  refine hs.incRef hpos ⟨rfl, rfl, rfl, rfl, rfl, rfl, rfl, rfl, rfl⟩ fun y => ?_
  unfold owed one State.makeReady State.incRef
  dsimp only
  rw [count_snoc]
  omega

private theorem inv_invoke (hs : Inv debt s) (hpos : 0 < owed s x) :
    Inv debt { s.incRef x with closures := s.closures ++ [some x] } := by
  refine hs.incRef hpos ⟨rfl, rfl, rfl, rfl, rfl, rfl, rfl, rfl, rfl⟩ fun y => ?_
  unfold owed one State.incRef
  dsimp only
  rw [count_snoc]
  simp only [Option.some.injEq]
  omega

private theorem inv_launch (hs : Inv debt s) :
    Inv debt { s with closures := s.closures ++ [none] } := by
  have howed : ∀ y, owed { s with closures := s.closures ++ [none] } y = owed s y := fun y => by
    unfold owed
    dsimp only
    rw [count_snoc, if_neg (by simp), Nat.add_zero]
  refine hs.rebalance ⟨rfl, rfl, rfl, rfl, rfl, rfl, rfl⟩ hs.flag (fun y => (howed y).le)
    (fun y _ => by rw [howed]) fun y _ => ⟨by rw [howed], rfl⟩

private theorem inv_fire (hs : Inv debt s) {pos : Nat} (hpos : s.ready[pos]? = some x) :
    Inv debt { s with
      ready := s.ready.eraseIdx pos
      running := s.running ++ [(x, s.checkParent x)] } := by
  have howed : ∀ y, owed { s with
      ready := s.ready.eraseIdx pos
      running := s.running ++ [(x, s.checkParent x)] } y = owed s y := fun y => by
    have hcount := count_eraseIdx hpos y
    unfold owed
    dsimp only
    rw [List.map_append, List.map_singleton, count_snoc]
    dsimp only
    omega
  refine hs.rebalance ⟨rfl, rfl, rfl, rfl, rfl, rfl, rfl⟩ (fun e he => ?_)
    (fun y => (howed y).le) (fun y _ => by rw [howed]) fun y _ => ⟨by rw [howed], rfl⟩
  rcases List.mem_append.mp he with hold | hnew
  · exact hs.flag e hold
  · rw [List.mem_singleton.mp hnew]

private theorem inv_factoryDecRef (hs : Inv (fun _ => 0) s) {pos : Nat}
    (hpos : s.factories[pos]? = some x) :
    Inv (fun _ => 0) ({ s with factories := s.factories.eraseIdx pos }.decRef x) := by
  have hx : 0 < owed s x := owed_of_factory (List.mem_of_getElem? hpos)
  have hcount : ∀ y, s.factories.count y = (s.factories.eraseIdx pos).count y + one x y :=
    count_eraseIdx hpos
  have howed : ∀ y, owed { s with factories := s.factories.eraseIdx pos } y + one x y =
      owed s y := fun y => by
    have := hcount y
    unfold owed
    dsimp only
    omega
  refine Inv.decRef ?_ (hs.live_of_owed hx) (hs.lt_of_owed hx)
  refine hs.rebalance ⟨rfl, rfl, rfl, rfl, rfl, rfl, rfl⟩ hs.flag
    (fun y => by have := howed y; omega) (fun y _ => howed y) fun y _ => ⟨(howed y).le, ?_⟩
  exact (hcount y).symm

private theorem inv_finish (hs : Inv (fun _ => 0) s) {pos : Nat} {e : Nat × Bool}
    (hpos : s.running[pos]? = some e) :
    Inv (fun _ => 0) (if e.2 then { s with running := s.running.eraseIdx pos }.decRef e.1
      else { s with running := s.running.eraseIdx pos }) := by
  have hmem : e ∈ s.running := List.mem_of_getElem? hpos
  have hx := owed_of_running hmem
  have howed : ∀ y, owed { s with running := s.running.eraseIdx pos } y + one e.1 y =
      owed s y := fun y => by
    have := map_fst_eraseIdx hpos y
    unfold owed
    dsimp only
    omega
  have hflag : ∀ e' ∈ s.running.eraseIdx pos, e'.2 = s.checkParent e'.1 := fun e' he' =>
    hs.flag e' (List.mem_of_mem_eraseIdx he')
  have hcheck := hs.flag e hmem
  split
  next hdel =>
    refine Inv.decRef ?_ (hs.live_of_owed hx) (hs.lt_of_owed hx)
    refine hs.rebalance ⟨rfl, rfl, rfl, rfl, rfl, rfl, rfl⟩ hflag
      (fun y => by have := howed y; omega) (fun y _ => howed y) fun y hy => ⟨(howed y).le, ?_⟩
    have hne : y ≠ e.1 := fun he => by
      rw [he, ← hcheck, hdel] at hy
      cases hy
    show s.factories.count y + one e.1 y = s.factories.count y + 0
    rw [one_of_ne hne]
  next hdel =>
    refine hs.rebalance ⟨rfl, rfl, rfl, rfl, rfl, rfl, rfl⟩ hflag
      (fun y => by have := howed y; omega) (fun y hy => ?_) fun y _ =>
        ⟨by have := howed y; omega, rfl⟩
    have hne : y ≠ e.1 := fun he => by
      rw [he, ← hcheck] at hy
      exact hdel hy
    have hbal := howed y
    rwa [one_of_ne hne] at hbal

/-- A new TP: its factory's reference, and its parent's reference to it instead of to its
closure. -/
private theorem inv_construct (hs : Inv (fun _ => 0) s) {pos : Nat} {parent : Option Nat}
    (hpos : s.closures[pos]? = some parent) :
    Inv (fun _ => 0) ({ s with closures := s.closures.eraseIdx pos }.construct parent) := by
  have hfresh := hs.fresh s.next (Nat.le_refl _)
  have hnew : s.live.count s.next = 0 ∧ s.deleted.count s.next = 0 := by
    have := hs.born s.next
    rw [if_neg (Nat.lt_irrefl _)] at this
    omega
  have hparent : ∀ y, y ≠ s.next → Function.update s.parentTP_ s.next parent y = s.parentTP_ y :=
    fun y hy => Function.update_of_ne hy _ _
  have hmap : (s.live ++ [s.next]).map (Function.update s.parentTP_ s.next parent) =
      s.live.map s.parentTP_ ++ [parent] := by
    rw [List.map_append, List.map_singleton, Function.update_self]
    congr 1
    exact List.map_congr_left fun y hy => hparent y fun he =>
      List.count_eq_zero.mp hnew.1 (he ▸ hy)
  have howed : ∀ y, owed ({ s with closures := s.closures.eraseIdx pos }.construct parent) y =
      owed s y + one s.next y := fun y => by
    have hcount := count_eraseIdx hpos (some y)
    unfold owed one State.construct
    dsimp only
    rw [hmap, count_snoc, count_snoc]
    omega
  have hcheck : ∀ y, y ≠ s.next →
      ({ s with closures := s.closures.eraseIdx pos }.construct parent).checkParent y =
      s.checkParent y := fun y hy => by
    unfold State.checkParent State.construct
    dsimp only
    rw [hparent y hy]
  have href : ∀ y, y ≠ s.next → Function.update s.ref_ s.next 1 y = s.ref_ y :=
    fun y hy => Function.update_of_ne hy _ _
  have hparts : s.factories.count s.next = 0 := by
    unfold owed at hfresh
    omega
  refine ⟨fun y hy => ?_, fun y p hy hp => ?_, fun y => ?_, fun y hy => ?_, fun y => ?_,
    fun e he => ?_, fun y hy hc => ?_, fun y hy hc => ?_⟩
  · have hgt : s.next + 1 ≤ y := hy
    rw [howed, hs.fresh y (by omega), one_of_ne (by omega)]
  · have hlt : y < s.next + 1 := hy
    change Function.update s.parentTP_ s.next parent y = some p at hp
    by_cases hy' : y = s.next
    · rw [hy', Function.update_self] at hp
      -- the closure refers to the parent
      rw [hy']
      exact hs.lt_of_owed (owed_of_closure (List.mem_of_getElem? (hp ▸ hpos)))
    · rw [hparent y hy'] at hp
      exact hs.parent_lt y p (by omega) hp
  · show (s.live ++ [s.next]).count y + s.deleted.count y = if y < s.next + 1 then 1 else 0
    have hborn := hs.born y
    rw [count_snoc]
    by_cases hy : y = s.next
    · subst hy
      rw [if_pos rfl, if_pos (by omega)]
      omega
    · rw [if_neg hy, Nat.add_zero, hborn]
      simp only [show y < s.next + 1 ↔ y < s.next by omega]
  · have hne : y ≠ s.next := fun he => List.count_eq_zero.mp hnew.2 (he ▸ hy)
    exact (href y hne).trans (hs.dead y hy)
  · show s.dying.count y =
      if y ∈ s.live ++ [s.next] ∧ Function.update s.ref_ s.next 1 y = 0 then 1 else 0
    rw [hs.dying_iff y]
    by_cases hy : y = s.next
    · subst hy
      rw [Function.update_self, if_neg (fun hc => List.count_eq_zero.mp hnew.1 hc.1),
        if_neg (by omega)]
    · rw [href y hy]
      simp [hy]
  · have hne : e.1 ≠ s.next := fun heq => by
      have hlt := hs.lt_of_owed (owed_of_running he)
      omega
    rw [hcheck e.1 hne]
    exact hs.flag e he
  · have hlt : y < s.next + 1 := hy
    show Function.update s.ref_ s.next 1 y = _
    rw [howed]
    by_cases hy' : y = s.next
    · rw [hy', Function.update_self, hfresh, one_self]
    · rw [href y hy', one_of_ne hy', hs.exact y (by omega) ((hcheck y hy').symm.trans hc)]
  · have hlt : y < s.next + 1 := hy
    show Function.update s.ref_ s.next 1 y = (s.factories ++ [s.next]).count y +
      Function.update s.incs s.next 0 y + 0 ∧ _ + 0 ≤ Function.update s.ref_ s.next 1 y
    rw [howed, count_snoc]
    by_cases hy' : y = s.next
    · subst hy'
      rw [Function.update_self, Function.update_self, one_self, if_pos rfl]
      omega
    · rw [href y hy', Function.update_of_ne hy', one_of_ne hy', if_neg hy']
      have := hs.root y (by omega) ((hcheck y hy').symm.trans hc)
      omega

/-- The destructor: the TP is gone, and its parent loses the reference to it. -/
private theorem inv_destroy (hs : Inv (fun _ => 0) s) {pos : Nat}
    (hpos : s.dying[pos]? = some x) :
    Inv (fun _ => 0) ({ s with dying := s.dying.eraseIdx pos }.destroy x) := by
  have hdying := hs.dying_iff x
  have hmem := List.count_pos_iff.mpr (List.mem_of_getElem? hpos)
  have hlive : x ∈ s.live ∧ s.ref_ x = 0 := by
    by_contra hno
    rw [if_neg hno] at hdying
    omega
  have hlt := hs.lt_of_live hlive.1
  have hborn := hs.born x
  have hcount := List.count_pos_iff.mpr hlive.1
  rw [if_pos hlt] at hborn
  have hchild : ∀ p, (s.live.map s.parentTP_).count (some p) =
      ((s.live.erase x).map s.parentTP_).count (some p) +
        if some p = s.parentTP_ x then 1 else 0 := fun p => by
    rw [((List.perm_cons_erase hlive.1).map s.parentTP_).count_eq, List.map_cons, List.count_cons]
    by_cases h : some p = s.parentTP_ x
    · rw [if_pos h, if_pos (beq_iff_eq.mpr h.symm)]
    · rw [if_neg h, if_neg (fun hbeq => h (eq_of_beq hbeq).symm)]
  -- the state between the deletion and the parent's `decRef`
  have hmid : ∀ debt' : Nat → Nat,
      (∀ p, s.checkParent p = true → debt' p = if some p = s.parentTP_ x then 1 else 0) →
      (∀ p, s.checkParent p = false → debt' p = 0) →
      Inv debt' { s with
        dying := s.dying.eraseIdx pos, live := s.live.erase x, deleted := s.deleted ++ [x] } := by
    intro debt' hproper hroot
    refine ⟨fun y hy => ?_, hs.parent_lt, fun y => ?_, fun y hy => ?_, fun y => ?_, hs.flag,
      fun y hy hc => ?_, fun y hy hc => ?_⟩
    · have hold := hs.fresh y hy
      have := hchild y
      unfold owed at hold ⊢
      dsimp only
      omega
    · show (s.live.erase x).count y + (s.deleted ++ [x]).count y = _
      rw [count_snoc, ← hs.born y, ((List.perm_cons_erase hlive.1).count_eq y), List.count_cons]
      by_cases hy : y = x
      · subst hy
        simp
        omega
      · simp [hy, Ne.symm hy]
    · rcases List.mem_append.mp hy with hold | hnew
      · exact hs.dead y hold
      · rw [List.mem_singleton.mp hnew]
        exact hlive.2
    · show (s.dying.eraseIdx pos).count y = if y ∈ s.live.erase x ∧ s.ref_ y = 0 then 1 else 0
      have hcount := count_eraseIdx hpos y
      rw [hs.dying_iff y] at hcount
      by_cases hy : y = x
      · subst hy
        have hgone : y ∉ s.live.erase y := by
          rw [← List.count_eq_zero, List.count_erase_self]
          omega
        rw [if_neg (fun hc => hgone hc.1)]
        rw [if_pos hlive, if_pos rfl] at hcount
        omega
      · rw [if_neg hy, Nat.add_zero] at hcount
        rw [← hcount]
        simp only [List.mem_erase_of_ne hy]
    · have hold := hs.exact y hy hc
      have := hchild y
      have := hproper y hc
      unfold owed at hold ⊢
      dsimp only
      omega
    · have hold := hs.root y hy hc
      have := hchild y
      have := hroot y hc
      unfold owed at hold ⊢
      dsimp only
      omega
  unfold State.destroy
  dsimp only
  split
  next hnone =>
    exact hmid _ (fun p _ => by rw [hnone]; simp) fun _ _ => rfl
  next p hp =>
    have howed := owed_parent hlive.1 hp
    split
    next hproper =>
      have hdebt := hmid (one p) (fun q _ => by rw [hp]; simp [one]) fun q hq => by
        have hne : q ≠ p := fun he => by
          rw [he] at hq
          exact absurd (hproper.symm.trans hq) (by simp)
        exact if_neg hne
      refine Inv.decRef hdebt ?_ (hs.lt_of_owed howed)
      -- the parent is not the TP that was deleted
      have hne : p ≠ x := fun he => by
        have := hs.parent_lt x p hlt hp
        omega
      exact (List.mem_erase_of_ne hne).mpr (hs.live_of_owed howed)
    next hroot =>
      refine hmid _ (fun q hq => ?_) fun _ _ => rfl
      rw [hp, if_neg]
      intro he
      rw [Option.some.inj he] at hq
      exact hroot hq

/-- Every step keeps the invariant. -/
theorem inv_step {l : Label} (hs : Inv (fun _ => 0) s) (h : step s l = some t) :
    Inv (fun _ => 0) t := by
  cases l with
  | launch =>
    obtain rfl := Option.some.inj h
    exact inv_launch hs
  | construct pos =>
    obtain ⟨parent, hpos, rfl⟩ := Option.map_eq_some_iff.mp h
    exact inv_construct hs hpos
  | add a x | decDep a x =>
    simp only [step] at h
    split at h
    next htouch =>
      obtain rfl := Option.some.inj h
      exact inv_makeReady hs (hs.owed_of_mayTouch htouch)
    next => cases h
  | invoke a x =>
    simp only [step] at h
    split at h
    next htouch =>
      obtain rfl := Option.some.inj h
      exact inv_invoke hs (hs.owed_of_mayTouch htouch)
    next => cases h
  | factoryDecRef pos =>
    obtain ⟨x, hpos, rfl⟩ := Option.map_eq_some_iff.mp h
    exact inv_factoryDecRef hs hpos
  | fire pos =>
    obtain ⟨x, hpos, rfl⟩ := Option.map_eq_some_iff.mp h
    exact inv_fire hs hpos
  | finish pos =>
    obtain ⟨e, hpos, rfl⟩ := Option.map_eq_some_iff.mp h
    exact inv_finish hs hpos
  | destroy pos =>
    obtain ⟨x, hpos, rfl⟩ := Option.map_eq_some_iff.mp h
    exact inv_destroy hs hpos

theorem reachable_inv (h : Transition.Reachable step State.start s) : Inv (fun _ => 0) s :=
  h.invariant (Inv fun _ => 0) inv_start fun _ _ _ _ hs hl => inv_step hs hl

/-- A TP has one factory. -/
private theorem nodup_step {l : Label} (hs : Inv (fun _ => 0) s) (hn : s.factories.Nodup)
    (h : step s l = some t) : t.factories.Nodup := by
  cases l with
  | launch =>
    obtain rfl := Option.some.inj h
    exact hn
  | construct pos =>
    obtain ⟨parent, hpos, rfl⟩ := Option.map_eq_some_iff.mp h
    refine List.nodup_append.mpr ⟨hn, List.nodup_singleton _, fun y hy z hz he => ?_⟩
    have hlt := hs.lt_of_owed (owed_of_factory hy)
    rw [he, List.mem_singleton.mp hz] at hlt
    exact Nat.lt_irrefl _ hlt
  | add a x | decDep a x | invoke a x =>
    simp only [step] at h
    split at h
    next =>
      obtain rfl := Option.some.inj h
      exact hn
    next => cases h
  | factoryDecRef pos =>
    obtain ⟨x, hpos, rfl⟩ := Option.map_eq_some_iff.mp h
    exact hn.eraseIdx pos
  | fire pos =>
    obtain ⟨x, hpos, rfl⟩ := Option.map_eq_some_iff.mp h
    exact hn
  | finish pos =>
    obtain ⟨e, hpos, rfl⟩ := Option.map_eq_some_iff.mp h
    dsimp only
    split
    next => exact hn
    next => exact hn
  | destroy pos =>
    obtain ⟨x, hpos, rfl⟩ := Option.map_eq_some_iff.mp h
    unfold State.destroy
    dsimp only
    split
    next => exact hn
    next =>
      split
      next => exact hn
      next => exact hn

theorem reachable_nodup (h : Transition.Reachable step State.start s) : s.factories.Nodup :=
  h.invariant (fun s => s.factories.Nodup) List.nodup_nil fun _ _ _ hs hn hl =>
    nodup_step (reachable_inv hs) hn hl

/-! ## Exactness -/

/-- **The reference count of a TP with a proper parent is exact** in every interleaving:
it is the number of things that still refer to the TP. The TP is deleted when, and only
when, nothing does, at most once, and nothing of a deleted TP is left to be done. -/
theorem refcount_exact (h : Transition.Reachable step State.start s) (hlt : x < s.next)
    (hproper : s.checkParent x = true) :
    (s.ref_ x = (if x ∈ s.factories then 1 else 0) +
        (s.ready.count x + (s.running.map Prod.fst).count x) +
        (s.closures.count (some x) + (s.live.map s.parentTP_).count (some x))) ∧
      (s.ref_ x = 0 ↔ x ∈ s.dying ∨ x ∈ s.deleted) ∧
      s.dying.count x + s.deleted.count x ≤ 1 ∧
      (x ∈ s.deleted → x ∉ s.factories ∧ x ∉ s.ready ∧ ∀ e ∈ s.running, e.1 ≠ x) := by
  have hs := reachable_inv h
  have hexact := hs.exact x hlt hproper
  have hborn := hs.born x
  have hdying := hs.dying_iff x
  rw [if_pos hlt] at hborn
  have hfactory : s.factories.count x = if x ∈ s.factories then 1 else 0 :=
    (reachable_nodup h).count
  refine ⟨?_, ⟨fun hzero => ?_, fun hgone => ?_⟩, ?_, fun hdel => ?_⟩
  · rw [hexact]
    unfold owed
    omega
  · by_cases hlive : x ∈ s.live
    · rw [if_pos ⟨hlive, hzero⟩] at hdying
      exact .inl (List.count_pos_iff.mp (by omega))
    · have := List.count_eq_zero.mpr hlive
      exact .inr (List.count_pos_iff.mp (by omega))
  · rcases hgone with hdie | hdel
    · by_contra hne
      rw [if_neg (fun hc => hne hc.2)] at hdying
      exact List.count_eq_zero.mp hdying hdie
    · exact hs.dead x hdel
  · split at hdying
    next hlive =>
      have := List.count_pos_iff.mpr hlive.1
      omega
    next => omega
  · have hzero : owed s x = 0 := by
      have := hs.dead x hdel
      omega
    unfold owed at hzero
    have hrun : (s.running.map Prod.fst).count x = 0 := by omega
    refine ⟨List.count_eq_zero.mp (by omega), List.count_eq_zero.mp (by omega),
      fun e he heq => List.count_eq_zero.mp hrun ?_⟩
    exact heq ▸ List.mem_map_of_mem he

/-- A child with its codelet ready while the factory is still in the constructor. -/
theorem refcount_exact_child :
    ∃ s, Transition.run step State.start
        [.launch, .construct 0, .invoke (.ctor 0) 0, .construct 0, .add (.ctor 1) 1] = some s ∧
      s.ref_ 1 = 2 ∧
      (s.ref_ 1 = (if 1 ∈ s.factories then 1 else 0) +
        (s.ready.count 1 + (s.running.map Prod.fst).count 1) +
        (s.closures.count (some 1) + (s.live.map s.parentTP_).count (some 1))) ∧
      (s.ref_ 1 = 0 ↔ 1 ∈ s.dying ∨ 1 ∈ s.deleted) := by
  obtain ⟨s, hrun, href, hlt, hproper⟩ : ∃ s, Transition.run step State.start
      [.launch, .construct 0, .invoke (.ctor 0) 0, .construct 0, .add (.ctor 1) 1] = some s ∧
      s.ref_ 1 = 2 ∧ 1 < s.next ∧ s.checkParent 1 = true :=
    ⟨_, rfl, rfl, by decide, rfl⟩
  have h := refcount_exact (.of_run hrun) hlt hproper
  exact ⟨s, hrun, href, h.1, h.2.1⟩

/-! ## What is left when a run is over -/

/-- No queued closure, no ready or running codelet, no factory in progress; a `delete`
is the end of a factory or of a policy's work on a codelet. -/
structure Quiescent (s : State) : Prop where
  closures : s.closures = []
  factories : s.factories = []
  ready : s.ready = []
  running : s.running = []
  dying : s.dying = []

/-- Only live children refer to a TP then. -/
private theorem Quiescent.owed_eq (hq : Quiescent s) :
    owed s x = (s.live.map s.parentTP_).count (some x) := by
  unfold owed
  rw [hq.closures, hq.factories, hq.ready, hq.running]
  simp

private theorem Inv.checkParent_of_parent (hs : Inv debt s) {p : Nat} (hlt : x < s.next)
    (hp : s.parentTP_ x = some p) : s.checkParent x = true := by
  have hlt := hs.parent_lt x p hlt hp
  unfold State.checkParent
  rw [hp]
  simp only [bne_iff_ne]
  omega

/-- Then no TP with a parent is live: a live one has a live child, which has a larger
number. -/
private theorem Quiescent.not_live (hq : Quiescent s) (hs : Inv (fun _ => 0) s) (k : Nat) :
    ∀ x < s.next, s.next - x ≤ k → s.checkParent x = true → x ∉ s.live := by
  induction k with
  | zero =>
    intro x hlt hk
    omega
  | succ k ih =>
    intro x hlt hk hproper hlive
    have href : s.ref_ x ≠ 0 := fun hzero => by
      have := hs.dying_iff x
      rw [if_pos ⟨hlive, hzero⟩, hq.dying] at this
      exact absurd this (by simp)
    have hexact := hs.exact x hlt hproper
    rw [hq.owed_eq] at hexact
    have hmem : some x ∈ s.live.map s.parentTP_ := List.count_pos_iff.mp (by omega)
    obtain ⟨y, hy, hparent⟩ := List.mem_map.mp hmem
    have hylt := hs.lt_of_live hy
    have := hs.parent_lt y x hylt hparent
    exact ih y hylt (by omega) (hs.checkParent_of_parent hylt hparent) hy

/-- **What is reclaimed**: when a run is over, every TP has been deleted exactly once,
except the roots on which a codelet was made ready or a child invoked; these are never
deleted. -/
theorem reclaimed (h : Transition.Reachable step State.start s) (hq : Quiescent s)
    (hlt : x < s.next) :
    s.deleted.count x = if s.parentTP_ x = none ∧ 0 < s.incs x then 0 else 1 := by
  have hs := reachable_inv h
  have hborn := hs.born x
  rw [if_pos hlt] at hborn
  cases hparent : s.parentTP_ x with
  | some p =>
    rw [if_neg (fun hc => by cases hc.1)]
    have hproper := hs.checkParent_of_parent hlt hparent
    have := List.count_eq_zero.mpr (hq.not_live hs _ x hlt (Nat.le_refl _) hproper)
    omega
  | none =>
    have hroot : s.checkParent x = false := by
      unfold State.checkParent
      rw [hparent]
    -- the policies never took off what was added
    have href := (hs.root x hlt hroot).1
    rw [hq.factories, List.count_nil] at href
    by_cases hinc : 0 < s.incs x
    · rw [if_pos ⟨rfl, hinc⟩, List.count_eq_zero]
      intro hdel
      have := hs.dead x hdel
      omega
    · rw [if_neg (fun hc => hinc hc.2)]
      have hlive : x ∉ s.live := fun hlive => by
        have := hs.dying_iff x
        rw [if_pos ⟨hlive, by omega⟩, hq.dying] at this
        exact absurd this (by simp)
      have := List.count_eq_zero.mpr hlive
      omega

/-- The root invokes a child with one codelet; the child is deleted, the root is not. -/
theorem reclaimed_child :
    ∃ s, Transition.run step State.start
        [.launch, .construct 0, .invoke (.ctor 0) 0, .factoryDecRef 0, .construct 0,
          .add (.ctor 1) 1, .factoryDecRef 0, .fire 0, .finish 0, .destroy 0] = some s ∧
      Quiescent s ∧ s.deleted.count 0 = 0 ∧ s.deleted.count 1 = 1 := by
  obtain ⟨s, hrun, hq, hnext, hincs, hroot, hchild⟩ : ∃ s, Transition.run step State.start
      [.launch, .construct 0, .invoke (.ctor 0) 0, .factoryDecRef 0, .construct 0,
        .add (.ctor 1) 1, .factoryDecRef 0, .fire 0, .finish 0, .destroy 0] = some s ∧
      Quiescent s ∧ s.next = 2 ∧ 0 < s.incs 0 ∧ s.parentTP_ 0 = none ∧ s.parentTP_ 1 = some 0 :=
    ⟨_, rfl, ⟨rfl, rfl, rfl, rfl, rfl⟩, rfl, by decide, rfl, rfl⟩
  have hreach := Transition.Reachable.of_run hrun
  refine ⟨s, hrun, hq, ?_, ?_⟩
  · rw [reclaimed hreach hq (by omega), if_pos ⟨hroot, hincs⟩]
  · rw [reclaimed hreach hq (by omega), if_neg]
    rw [hchild]
    exact fun hc => by cases hc.1

/-- A root with one codelet is never deleted. -/
theorem reclaimed_root_fails :
    ¬ ∀ s, Transition.Reachable step State.start s → Quiescent s →
      ∀ x < s.next, s.deleted.count x = 1 := by
  intro h
  obtain ⟨s, hrun, hq, hnext, hdel⟩ : ∃ s, Transition.run step State.start
      [.launch, .construct 0, .add (.ctor 0) 0, .factoryDecRef 0, .fire 0, .finish 0] = some s ∧
      Quiescent s ∧ 0 < s.next ∧ s.deleted = [] :=
    ⟨_, rfl, ⟨rfl, rfl, rfl, rfl, rfl⟩, by decide, rfl⟩
  have := h s (.of_run hrun) hq 0 hnext
  rw [hdel] at this
  cases this

end Invariant

end RefCount

end Darts
