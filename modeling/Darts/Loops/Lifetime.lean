import Mathlib.Algebra.BigOperators.Group.Finset.Piecewise
import Mathlib.Algebra.Order.BigOperators.Group.Finset
import Mathlib.Logic.Function.Basic
import Darts.Lib.Transition
import Darts.Threading.SyncSlot

/-!
# The lifetime of loop bodies (`include/threading/doLoop.h`, `loop.h`)

`LPFactory` constructs a body in storage of the loop, with a reference of its own that
it drops when the constructor has returned: if that was the last one it deletes the
body. Codelets that the constructor makes ready can run before that. A body is its own
parent, so what a policy does after `fire()` never counts as one of its references
(`checkParent`), and the count does not tell when the body is done: the loop destroys
it when the signals are in.

The machine is one loop, a `serialFor` or a `codeletFor`, with the fine steps of
`LPFactory` between those of other threads. `fire()` of the loop is one step up to its
first `LPFactory`, or to its end. Bodies are numbered in the order of their
construction, so that the object in a piece of storage can be told from the one that
was there before. A body is what can be seen of it: it makes codelets ready, and its
constructor and its codelets send the loop not more than `Res` signals.

Two things break the lifetimes: a body that makes no codelet ready before its factory
drops the reference is deleted there, and a loop that fires again while a factory has
still to drop it destroys the body before that. Without these two every body is
destroyed by the loop, and once (`lifetimes_safe`).
-/

namespace Darts

namespace Lifetime

open Transition Word

inductive Kind
  | serialFor | codeletFor
deriving DecidableEq

structure Loop where
  kind : Kind
  Dep : Nat
  Res : Nat
  iterations_ : Nat
  res_pos : 0 < Res
  /-- `codeletFor::fire` computes `Res * iterations_` as an `unsigned int`. -/
  fits : kind = .codeletFor → Res * iterations_ ≤ uintMax

/-- A body in the storage of the loop. -/
structure Obj where
  gen : Nat
  ref_ : Nat

/-- Where an `LPFactory` is. -/
inductive Pc
  /-- Before the placement `new`. -/
  | construct
  /-- In the constructor of body `g`. -/
  | ctor (g : Nat)
  | decRef (g : Nat)
  /-- The `decRef` returned true. -/
  | delete (g : Nat)

/-- A `fire()` of the loop that is in an `LPFactory`, and for which storage. -/
structure Frame where
  slot : Nat
  pc : Pc

/-- One loop. `made`, `next`, the activations and what follows are history. -/
structure State where
  sync_ : SyncSlot
  /-- Of a `serialFor`. -/
  curIterations_ : Nat
  /-- Of a `codeletFor`. -/
  fired : Bool
  /-- How often the loop is in a pool. -/
  queued : Nat
  /-- The storage. -/
  loop_ : Nat → Option Obj
  frames : List Frame
  /-- Codelets of bodies, ready or running: the body and where it is. -/
  codelets : List (Nat × Nat)
  /-- Signals that a body has still to send. -/
  owed : Nat → Nat
  /-- How many codelets a body has made ready. -/
  made : Nat → Nat
  /-- How many bodies have been constructed. -/
  next : Nat
  activations : Nat
  signalled : Nat
  /-- The `decRef`s of factories: the body constructed, and the one found. -/
  decRefs : List (Nat × Option Nat)
  /-- The bodies that factories have deleted. -/
  deleted : List Nat
  /-- What the loop found where it destroyed a body. -/
  destroyed : List (Option Nat)

/-- The steps. Positions are those in `frames` and in `codelets`. -/
inductive Label
  /-- The last signal from outside. -/
  | activate
  | fire
  | construct (k : Nat)
  | ctorAdd (k : Nat)
  | ctorSignal (k : Nat)
  | ctorReturn (k : Nat)
  | decRef (k : Nat)
  | delete (k : Nat)
  | codeletAdd (i : Nat)
  | codeletSignal (i : Nat)
  | codeletDone (i : Nat)

namespace State

def start (L : Loop) : State :=
  { sync_ := { counter_ := L.Dep, reset_ := L.Res }, curIterations_ := 0, fired := false
    queued := 0, loop_ := fun _ => none, frames := [], codelets := [], owed := fun _ => 0
    made := fun _ => 0, next := 0, activations := 0, signalled := 0
    decRefs := [], deleted := [], destroyed := [] }

/-- The body in a piece of storage. -/
def body (s : State) (j : Nat) : Option Nat := (s.loop_ j).map Obj.gen

/-- `Codelet::decDep` of the loop. -/
def decDep (s : State) : State :=
  { s with
    sync_ := s.sync_.decCounter.2
    queued := if s.sync_.decCounter.1 then s.queued + 1 else s.queued }

/-- A codelet of body `g` becomes ready: `incRef` of the body its `myTP_` points to. -/
def addCodelet (s : State) (g j : Nat) : State :=
  { s with
    loop_ := Function.update s.loop_ j ((s.loop_ j).map fun o => { o with ref_ := o.ref_ + 1 })
    codelets := s.codelets ++ [(g, j)]
    made := Function.update s.made g (s.made g + 1) }

/-- Body `g` signals the loop. -/
def signal (s : State) (g : Nat) : Option State :=
  if 0 < s.owed g then
    some { s.decDep with owed := Function.update s.owed g (s.owed g - 1) }
  else none

/-- `alloc::destroy(&loop_[j])`. -/
def destroy (s : State) (j : Nat) : State :=
  { s with loop_ := Function.update s.loop_ j none, destroyed := s.destroyed ++ [s.body j] }

/-- `for (i = 0; i < k; i++) alloc::destroy(&loop_[i])`. -/
def destroyUpTo : Nat → State → State
  | 0, s => s
  | k + 1, s => (destroyUpTo k s).destroy k

/-- The thread with frame `k` goes on with `fs`. -/
def setFrame (s : State) (k : Nat) (fs : List Frame) : State :=
  { s with frames := s.frames.take k ++ fs ++ s.frames.drop (k + 1) }

/-- The placement `new` of the next body: `ref_` is 1. -/
def construct (s : State) (Res j : Nat) : State :=
  { s with
    loop_ := Function.update s.loop_ j (some { gen := s.next, ref_ := 1 })
    owed := Function.update s.owed s.next Res
    next := s.next + 1 }

/-- `temp->decRef()` of the factory of `g`: was it the last reference, and the state
afterwards. -/
def decRef (s : State) (g j : Nat) : Bool × State :=
  ((s.loop_ j).any fun o => o.ref_ == 1,
    { s with
      loop_ := Function.update s.loop_ j
        ((s.loop_ j).map fun o => { o with ref_ := fetchSub o.ref_ })
      decRefs := s.decRefs ++ [(g, s.body j)] })

end State

/-- What the `fire()` of the loop does when the factory for storage `j` has returned. -/
def Loop.following (L : Loop) (j : Nat) : List Frame :=
  if L.kind = .codeletFor ∧ j + 1 < L.iterations_ then [{ slot := j + 1, pc := .construct }] else []

/-- `serialFor::fire`, up to `LPFactory`. -/
def serialFire (L : Loop) (s : State) : State :=
  if s.curIterations_ < L.iterations_ then
    let s := if s.curIterations_ = 0 then s else s.destroy 0
    { s with
      curIterations_ := s.curIterations_ + 1, sync_ := s.sync_.resetCounter
      frames := s.frames ++ [{ slot := 0, pc := .construct }] }
  else if s.curIterations_ = L.iterations_ then
    let s := if L.iterations_ ≠ 0 then s.destroy 0 else s
    { s with
      curIterations_ := 0, sync_ := { counter_ := L.Dep, reset_ := L.Res }
      signalled := s.signalled + 1 }
  else s

/-- `codeletFor::fire`, up to its first `LPFactory`. -/
def codeletFire (L : Loop) (s : State) : State :=
  if L.iterations_ ≠ 0 then
    let s := { s with fired := !s.fired }
    if s.fired then
      { s with
        sync_ := { counter_ := L.Res * L.iterations_, reset_ := L.Res }
        frames := s.frames ++ [{ slot := 0, pc := .construct }] }
    else
      { s.destroyUpTo L.iterations_ with
        sync_ := { counter_ := L.Dep, reset_ := L.Res }, signalled := s.signalled + 1 }
  else { s with signalled := s.signalled + 1 }

/-- The steps of all threads. The outside activates the loop again only after it has
signalled. -/
def step (L : Loop) (s : State) : Label → Option State
  | .activate =>
    if s.activations = s.signalled then
      some { s with
        sync_ := { s.sync_ with counter_ := 0 }, queued := s.queued + 1
        activations := s.activations + 1 }
    else none
  | .fire =>
    if 0 < s.queued then
      let s := { s with queued := s.queued - 1 }
      match L.kind with
      | .serialFor => some (serialFire L s)
      | .codeletFor => some (codeletFire L s)
    else none
  | .construct k =>
    match s.frames[k]? with
    | some ⟨j, .construct⟩ => some ((s.construct L.Res j).setFrame k [⟨j, .ctor s.next⟩])
    | _ => none
  | .ctorAdd k =>
    match s.frames[k]? with
    | some ⟨j, .ctor g⟩ => some (s.addCodelet g j)
    | _ => none
  | .ctorSignal k =>
    match s.frames[k]? with
    | some ⟨_, .ctor g⟩ => s.signal g
    | _ => none
  | .ctorReturn k =>
    match s.frames[k]? with
    | some ⟨j, .ctor g⟩ => some (s.setFrame k [⟨j, .decRef g⟩])
    | _ => none
  | .decRef k =>
    match s.frames[k]? with
    | some ⟨j, .decRef g⟩ =>
      some ((s.decRef g j).2.setFrame k
        (if (s.decRef g j).1 then [⟨j, .delete g⟩] else L.following j))
    | _ => none
  | .delete k =>
    match s.frames[k]? with
    | some ⟨j, .delete g⟩ =>
      some ({ s with
        loop_ := Function.update s.loop_ j none, deleted := s.deleted ++ [g] }.setFrame k
          (L.following j))
    | _ => none
  | .codeletAdd i => (s.codelets[i]?).map fun c => s.addCodelet c.1 c.2
  | .codeletSignal i => (s.codelets[i]?).bind fun c => s.signal c.1
  | .codeletDone i => (s.codelets[i]?).map fun _ => { s with codelets := s.codelets.eraseIdx i }

/-- The step is in time: the loop is fired when no factory of it is under way, and a factory
drops its reference when the body has made a codelet ready. -/
def InTime (s : State) : Label → Prop
  | .fire => s.frames = []
  | .decRef k => ∀ fr ∈ s.frames[k]?, ∀ g, fr.pc = .decRef g → 0 < s.made g
  | _ => True

/-- Body `g` is in its storage. -/
def Alive (s : State) (g : Nat) : Prop := ∃ j, s.body j = some g

/-- What is asked of the lifetimes. -/
structure Safe (s : State) : Prop where
  /-- A factory's `decRef` is applied to the body it constructed. -/
  own : ∀ d ∈ s.decRefs, d.2 = some d.1
  /-- No factory deletes the storage of the loop. -/
  kept : s.deleted = []
  /-- Where the loop destroys a body, there is one. -/
  found : ∀ d ∈ s.destroyed, ∃ g < s.next, d = some g
  /-- A body is alive until the loop destroys it, once. -/
  once : ∀ g < s.next, (Alive s g ∧ s.destroyed.count (some g) = 0) ∨
    (¬Alive s g ∧ s.destroyed.count (some g) = 1)
  /-- All are destroyed before the loop signals. -/
  all : s.activations = s.signalled → ∀ g < s.next, s.destroyed.count (some g) = 1

/-! ## Bodies: what is where -/

/-- Every body is in one piece of storage or has been destroyed. -/
structure Objects (s : State) : Prop where
  placed : ∀ j g, s.body j = some g → g < s.next
  apart : ∀ j j' g, s.body j = some g → s.body j' = some g → j = j'
  ledger : ∀ g < s.next, Alive s g ∨ some g ∈ s.destroyed
  gone : ∀ d ∈ s.destroyed, ∃ g < s.next, d = some g ∧ ¬Alive s g
  nodup : s.destroyed.Nodup
  owed : ∀ g, 0 < s.owed g → Alive s g
  codelets : ∀ c ∈ s.codelets, c.1 < s.next ∧ ∀ j, s.body j = some c.1 → j = c.2
  unmade : ∀ g, s.next ≤ g → s.made g = 0

namespace State

theorem body_update (s : State) (j : Nat) (o : Option Obj) (i : Nat) :
    (Function.update s.loop_ j o i).map Obj.gen = if i = j then o.map Obj.gen else s.body i := by
  unfold body Function.update
  split
  next h => subst h; rfl
  next => rfl

/-- A change of `ref_` leaves the bodies where they are. -/
theorem body_refs (s : State) (j : Nat) (f : Obj → Obj) (hf : ∀ o, (f o).gen = o.gen) (i : Nat) :
    (Function.update s.loop_ j ((s.loop_ j).map f) i).map Obj.gen = s.body i := by
  rw [body_update]
  split
  next h =>
    subst h
    unfold body
    cases s.loop_ i with
    | none => rfl
    | some o => exact congrArg some (hf o)
  next => rfl

/-- Below `uintMax` references `addCodelet` adds one as `fetchAdd` does. -/
theorem addCodelet_loop {s : State} {g j : Nat} (h : ∀ o ∈ s.loop_ j, o.ref_ < uintMax) :
    (s.addCodelet g j).loop_ = Function.update s.loop_ j
      ((s.loop_ j).map fun o => { o with ref_ := fetchAdd o.ref_ }) :=
  congrArg (Function.update s.loop_ j)
    (Option.map_congr fun o ho => by rw [fetchAdd_of_lt (h o ho)])

@[simp] theorem addCodelet_body (s : State) (g j i : Nat) : (s.addCodelet g j).body i = s.body i :=
  body_refs s j (fun o => { o with ref_ := o.ref_ + 1 }) (fun _ => rfl) i

@[simp] theorem decRef_body (s : State) (g j i : Nat) : (s.decRef g j).2.body i = s.body i :=
  body_refs s j (fun o => { o with ref_ := fetchSub o.ref_ }) (fun _ => rfl) i

theorem construct_body (s : State) (Res j i : Nat) :
    (s.construct Res j).body i = if i = j then some s.next else s.body i :=
  body_update s j _ i

theorem destroyUpTo_eq (s : State) (k : Nat) : s.destroyUpTo k =
    { s with
      loop_ := fun j => if j < k then none else s.loop_ j
      destroyed := s.destroyed ++ (List.range k).map s.body } := by
  induction k with
  | zero => simp [destroyUpTo]
  | succ k ih =>
    unfold destroyUpTo
    rw [ih]
    unfold destroy
    have hloop : Function.update (fun j => if j < k then none else s.loop_ j) k none =
        fun j => if j < k + 1 then none else s.loop_ j := by
      funext j
      unfold Function.update
      by_cases hj : j = k
      · simp [hj]
      · simp only [hj, dite_false]
        have : j < k ↔ j < k + 1 := by omega
        simp only [this]
    simp only [hloop]
    rw [List.range_succ, List.map_append, ← List.append_assoc]
    simp [body]

end State

/-- The bodies of `t` are those of `s`, where they were. -/
theorem alive_congr {s t : State} (h : ∀ i, t.body i = s.body i) (g : Nat) :
    Alive t g ↔ Alive s g := by
  simp only [Alive, h]

/-- A step that moves no body, and starts none, keeps the ledger. -/
theorem Objects.congr {s t : State} (h : Objects s) (hbody : ∀ i, t.body i = s.body i)
    (hnext : t.next = s.next) (hdestroyed : t.destroyed = s.destroyed) (howed : t.owed = s.owed)
    (hcodelets : ∀ c ∈ t.codelets,
      c ∈ s.codelets ∨ (c.1 < s.next ∧ ∀ j, s.body j = some c.1 → j = c.2))
    (hmade : ∀ g, s.next ≤ g → t.made g = 0) : Objects t := by
  refine { placed := fun i g => ?_, apart := fun i i' g => ?_, ledger := fun g hg => ?_
           gone := fun d hd => ?_, nodup := hdestroyed ▸ h.nodup, owed := fun g hg => ?_
           codelets := fun c hc => ?_, unmade := fun g hg => hmade g (hnext ▸ hg) }
  · rw [hbody, hnext]
    exact h.placed i g
  · rw [hbody, hbody]
    exact h.apart i i' g
  · rw [alive_congr hbody, hdestroyed]
    exact h.ledger g (hnext ▸ hg)
  · obtain ⟨g, hlt, hd', hna⟩ := h.gone d (hdestroyed ▸ hd)
    exact ⟨g, hnext ▸ hlt, hd', by rwa [alive_congr hbody]⟩
  · rw [alive_congr hbody]
    exact h.owed g (howed ▸ hg)
  · simp only [hbody, hnext]
    exact (hcodelets c hc).elim (h.codelets c) id

theorem Objects.addCodelet {s : State} {g j : Nat} (h : Objects s) (hg : g < s.next)
    (hj : ∀ i, s.body i = some g → i = j) : Objects (s.addCodelet g j) := by
  refine h.congr (State.addCodelet_body s g j) rfl rfl rfl (fun c hc => ?_) (fun g' hg' => ?_)
  · rcases List.mem_append.mp hc with hc | hc
    · exact Or.inl hc
    · rw [List.mem_singleton.mp hc]
      exact Or.inr ⟨hg, hj⟩
  · have hne : g' ≠ g := fun heq => absurd hg (by rw [← heq]; exact Nat.not_lt.mpr hg')
    exact (Function.update_of_ne hne _ _).trans (h.unmade g' hg')

/-- A signal leaves everything but what is owed. -/
theorem Objects.signal {s t : State} {g : Nat} (h : Objects s) (ht : s.signal g = some t) :
    Objects t := by
  unfold State.signal at ht
  simp only [Option.ite_none_right_eq_some, Option.some.injEq] at ht
  obtain ⟨ho, rfl⟩ := ht
  refine { h with owed := fun g' hg' => ?_ }
  by_cases hgg : g' = g
  · exact hgg ▸ h.owed g ho
  · exact h.owed g' (by simpa [Function.update_of_ne hgg] using hg')

/-- A new body in free storage. -/
theorem Objects.construct {s : State} {Res j : Nat} (h : Objects s) (hj : s.body j = none) :
    Objects (s.construct Res j) := by
  have halive : ∀ g, Alive (s.construct Res j) g ↔ Alive s g ∨ g = s.next := by
    intro g
    unfold Alive
    constructor
    · intro ⟨i, hi⟩
      rw [State.construct_body] at hi
      split at hi
      · exact Or.inr (Option.some.inj hi).symm
      · exact Or.inl ⟨i, hi⟩
    · intro hg
      rcases hg with ⟨i, hi⟩ | rfl
      · refine ⟨i, ?_⟩
        rw [State.construct_body, if_neg (fun heq => by rw [heq, hj] at hi; cases hi)]
        exact hi
      · exact ⟨j, by rw [State.construct_body, if_pos rfl]⟩
  refine { placed := ?_, apart := ?_, ledger := ?_, gone := ?_, nodup := h.nodup, owed := ?_
           codelets := ?_, unmade := fun g hg => h.unmade g (Nat.le_of_succ_le hg) }
  · intro i g hi
    rw [State.construct_body] at hi
    split at hi
    · exact Nat.lt_succ_of_le (Option.some.inj hi).ge
    · exact Nat.lt_succ_of_lt (h.placed i g hi)
  · intro i i' g hi hi'
    rw [State.construct_body] at hi hi'
    split at hi <;> split at hi'
    · omega
    · exact absurd (h.placed i' g hi') (by have := Option.some.inj hi; omega)
    · exact absurd (h.placed i g hi) (by have := Option.some.inj hi'; omega)
    · exact h.apart i i' g hi hi'
  · intro g hg
    rcases Nat.lt_succ_iff_lt_or_eq.mp hg with hlt | rfl
    · exact (h.ledger g hlt).imp_left fun ha => (halive g).mpr (Or.inl ha)
    · exact Or.inl ((halive _).mpr (Or.inr rfl))
  · intro d hd
    obtain ⟨g, hg, rfl, hna⟩ := h.gone d hd
    refine ⟨g, Nat.lt_succ_of_lt hg, rfl, fun ha => ?_⟩
    exact ((halive g).mp ha).elim hna hg.ne
  · intro g hg
    refine (halive g).mpr ?_
    by_cases hgn : g = s.next
    · exact Or.inr hgn
    · exact Or.inl (h.owed g (by simpa [State.construct, Function.update_of_ne hgn] using hg))
  · intro c hc
    obtain ⟨hlt, hpos⟩ := h.codelets c hc
    refine ⟨Nat.lt_succ_of_lt hlt, fun i hi => ?_⟩
    rw [State.construct_body] at hi
    split at hi
    · exact absurd (Option.some.inj hi) hlt.ne'
    · exact hpos i hi

/-- The bodies that fill the storage of the loop are destroyed, all of them once. -/
theorem Objects.destroyUpTo {s : State} {k : Nat} (h : Objects s)
    (hfull : ∀ j, (s.body j).isSome ↔ j < k) (howed : ∀ j g, s.body j = some g → s.owed g = 0) :
    Objects (s.destroyUpTo k) ∧ ∀ j, (s.destroyUpTo k).body j = none := by
  rw [State.destroyUpTo_eq]
  have hempty : ∀ j, (if j < k then none else s.loop_ j).map Obj.gen = none := by
    intro j
    split
    · rfl
    next hj =>
      have := (hfull j).not.mpr hj
      simpa [State.body] using this
  have hdead : ∀ g, ¬Alive { s with
      loop_ := fun j => if j < k then none else s.loop_ j
      destroyed := s.destroyed ++ (List.range k).map s.body } g := by
    intro g ⟨j, hj⟩
    exact absurd hj (by rw [State.body, hempty]; simp)
  have hmem : ∀ d ∈ (List.range k).map s.body, ∃ g < s.next, d = some g ∧ Alive s g := by
    intro d hd
    obtain ⟨j, hj, rfl⟩ := List.mem_map.mp hd
    obtain ⟨g, hg⟩ := Option.isSome_iff_exists.mp ((hfull j).mpr (List.mem_range.mp hj))
    exact ⟨g, h.placed j g hg, hg, j, hg⟩
  refine ⟨{ placed := ?_, apart := ?_, ledger := ?_, gone := ?_, nodup := ?_, owed := ?_
            codelets := ?_, unmade := h.unmade }, hempty⟩
  · intro j g hj
    exact absurd ⟨j, hj⟩ (hdead g)
  · intro j _ g hj
    exact absurd ⟨j, hj⟩ (hdead g)
  · intro g hg
    refine Or.inr (List.mem_append.mpr ?_)
    rcases h.ledger g hg with ⟨j, hj⟩ | hd
    · exact Or.inr (List.mem_map.mpr
        ⟨j, List.mem_range.mpr ((hfull j).mp (by rw [hj]; rfl)), hj⟩)
    · exact Or.inl hd
  · intro d hd
    rcases List.mem_append.mp hd with hd | hd
    · obtain ⟨g, hg, rfl, -⟩ := h.gone d hd
      exact ⟨g, hg, rfl, hdead g⟩
    · obtain ⟨g, hg, rfl, -⟩ := hmem d hd
      exact ⟨g, hg, rfl, hdead g⟩
  · refine List.nodup_append.mpr ⟨h.nodup, ?_, fun d hd d' hd' heq => ?_⟩
    · refine List.Nodup.map_on (fun j hj j' hj' heq => ?_) List.nodup_range
      obtain ⟨g, hg⟩ := Option.isSome_iff_exists.mp ((hfull j).mpr (List.mem_range.mp hj))
      exact h.apart j j' g hg (heq ▸ hg)
    · subst heq
      obtain ⟨g, -, rfl, hna⟩ := h.gone d hd
      obtain ⟨g', -, heq, ha⟩ := hmem _ hd'
      exact hna (Option.some.inj heq ▸ ha)
  · intro g hg
    obtain ⟨j, hj⟩ := h.owed g hg
    exact absurd (howed j g hj) hg.ne'
  · intro c hc
    refine ⟨(h.codelets c hc).1, fun j hj => absurd ⟨j, hj⟩ (hdead c.1)⟩

/-! ## Where the loop is -/

/-- How many pieces of storage the loop fills before it fires again. -/
def Loop.width (L : Loop) (s : State) : Nat :=
  match L.kind with
  | .serialFor => if s.curIterations_ = 0 then 0 else 1
  | .codeletFor => if s.fired then L.iterations_ else 0

/-- How many of them are filled. -/
def Loop.front (L : Loop) (s : State) : Nat :=
  match s.frames with
  | [] => L.width s
  | fr :: _ =>
    match fr.pc with
    | .construct => fr.slot
    | _ => fr.slot + 1

/-- The signals to come: what the bodies owe, and all of those not yet constructed. -/
def Loop.due (L : Loop) (s : State) : Nat :=
  ∑ j ∈ Finset.range (L.width s), ((s.body j).map s.owed).getD L.Res

/-- A factory that has its reference still to drop, holds it. -/
def Building (s : State) (fr : Frame) : Prop :=
  match fr.pc with
  | .construct => True
  | .ctor g | .decRef g => ∃ o, s.loop_ fr.slot = some o ∧ o.gen = g ∧ s.made g < o.ref_
  | .delete _ => False

/-- At most one factory is under way, the storage is filled from the front, and the loop
waits for the signals of the bodies it has constructed or is to construct. -/
structure Control (L : Loop) (s : State) : Prop where
  reset : s.sync_.reset_ = L.Res
  cur : s.curIterations_ ≤ L.iterations_
  one : s.frames.length ≤ 1
  inside : ∀ fr ∈ s.frames, fr.slot < L.width s
  building : ∀ fr ∈ s.frames, Building s fr
  full : ∀ j, (s.body j).isSome ↔ j < L.front s
  count : s.activations = s.signalled ∨ s.activations = s.signalled + 1
  counter : s.activations ≠ s.signalled → s.sync_.counter_ = L.due s
  queued : s.activations ≠ s.signalled → s.queued = if s.sync_.counter_ = 0 then 1 else 0
  rest : s.activations = s.signalled → s.queued = 0 ∧ L.width s = 0

structure Inv (L : Loop) (s : State) : Prop where
  objects : Objects s
  control : Control L s
  own : ∀ d ∈ s.decRefs, d.2 = some d.1
  kept : s.deleted = []

variable {L : Loop} {s t : State}

namespace Control

theorem only {k : Nat} {fr : Frame} (h : Control L s) (hk : s.frames[k]? = some fr) :
    k = 0 ∧ s.frames = [fr] := by
  have hone := h.one
  cases hf : s.frames with
  | nil => simp [hf] at hk
  | cons a l =>
    rw [hf] at hk hone
    obtain rfl : l = [] := List.eq_nil_of_length_eq_zero (by simpa using hone)
    cases k with
    | zero => exact ⟨rfl, by simpa using hk⟩
    | succ k => simp at hk

theorem front_le (h : Control L s) : L.front s ≤ L.width s := by
  unfold Loop.front
  split
  next => exact le_rfl
  next fr l hf =>
    have := h.inside fr (by simp [hf])
    split <;> omega

/-- A body is in the storage that the loop uses. -/
theorem lt_width {j g : Nat} (h : Control L s) (hj : s.body j = some g) : j < L.width s :=
  ((h.full j).mp (by rw [hj]; rfl)).trans_le h.front_le

/-- A loop with storage in use is active. -/
theorem active {j : Nat} (h : Control L s) (hj : j < L.width s) : s.activations ≠ s.signalled :=
  fun hc => absurd (h.rest hc).2 (Nat.ne_of_gt (Nat.zero_lt_of_lt hj))

end Control

/-- The next storage, or no more. -/
theorem following_cases {j : Nat} (hj : j < L.width s) :
    (L.following j = [⟨j + 1, .construct⟩] ∧ j + 1 < L.width s) ∨
      (L.following j = [] ∧ L.width s = j + 1) := by
  unfold Loop.following
  unfold Loop.width at hj ⊢
  cases hk : L.kind with
  | serialFor =>
    simp only [hk] at hj ⊢
    split at hj
    · omega
    · exact Or.inr ⟨by simp, by rw [if_neg ‹_›]; omega⟩
  | codeletFor =>
    simp only [hk] at hj ⊢
    split at hj
    next hf =>
      by_cases hnext : j + 1 < L.iterations_
      · exact Or.inl ⟨by simp [hnext], by rw [if_pos hf]; exact hnext⟩
      · exact Or.inr ⟨by simp [hnext], by rw [if_pos hf]; omega⟩
    next => omega

/-- A signal of one body is one signal less to come. -/
theorem due_signal {g : Nat} (h : Inv L s) (ho : 0 < s.owed g) (hbody : ∀ i, t.body i = s.body i)
    (hwidth : L.width t = L.width s) (howed : t.owed = Function.update s.owed g (s.owed g - 1)) :
    L.due s = L.due t + 1 := by
  obtain ⟨j, hj⟩ := h.objects.owed g ho
  have hmem : j ∈ Finset.range (L.width s) := Finset.mem_range.mpr (h.control.lt_width hj)
  have hterm : ∀ i ∈ Finset.range (L.width s), ((s.body i).map s.owed).getD L.Res =
      ((t.body i).map t.owed).getD L.Res + if i = j then 1 else 0 := by
    intro i _
    rw [hbody, howed]
    cases hi : s.body i with
    | none => simp [show i ≠ j from fun heq => by rw [heq, hj] at hi; cases hi]
    | some g' =>
      by_cases hij : i = j
      · obtain rfl : g' = g := by rw [hij, hj] at hi; exact (Option.some.inj hi).symm
        simp only [Option.map_some, Option.getD_some, Function.update_self, if_pos hij]
        omega
      · have hne : g' ≠ g := fun heq => hij (h.objects.apart i j g (heq ▸ hi) hj)
        simp [Function.update_of_ne hne, hij]
  unfold Loop.due
  rw [Finset.sum_congr rfl hterm, Finset.sum_add_distrib, Finset.sum_ite_eq', if_pos hmem, hwidth]

theorem Inv.signal {g : Nat} (h : Inv L s) (ht : s.signal g = some t) : Inv L t := by
  have hobj := h.objects.signal ht
  unfold State.signal at ht
  simp only [Option.ite_none_right_eq_some, Option.some.injEq] at ht
  obtain ⟨ho, rfl⟩ := ht
  have hc := h.control
  obtain ⟨j, hj⟩ := h.objects.owed g ho
  have hact := hc.active (hc.lt_width hj)
  have hdue := due_signal (t := { s.decDep with owed := Function.update s.owed g (s.owed g - 1) })
    h ho (fun _ => rfl) rfl rfl
  have hcounter := hc.counter hact
  have hqueued := hc.queued hact
  have hpos : s.sync_.counter_ ≠ 0 := by omega
  rw [if_neg hpos] at hqueued
  refine ⟨hobj, { hc with counter := fun _ => ?_, queued := fun _ => ?_, rest := ?_ }, h.own, h.kept⟩
  · change fetchSub s.sync_.counter_ = _
    rw [fetchSub_of_pos hpos]
    exact Nat.sub_eq_of_eq_add (hcounter.trans hdue)
  · -- the loop becomes ready exactly when this was the last signal to come
    change (if s.sync_.counter_ == 1 then s.queued + 1 else s.queued) =
      if fetchSub s.sync_.counter_ = 0 then 1 else 0
    rw [fetchSub_of_pos hpos, hqueued]
    by_cases hone : s.sync_.counter_ = 1
    · simp [hone]
    · have : s.sync_.counter_ - 1 ≠ 0 := by omega
      simp [hone, this]
  · intro hrest
    exact absurd hrest hact

/-- A codelet of a body becomes ready: if its factory is under way, that holds one more
reference. -/
theorem Inv.addCodelet {g j : Nat} (h : Inv L s) (hg : g < s.next)
    (hj : ∀ i, s.body i = some g → i = j) : Inv L (s.addCodelet g j) := by
  have hc := h.control
  have hbody : ∀ i, (s.addCodelet g j).body i = s.body i := State.addCodelet_body s g j
  have hkeep : ∀ fr g' o, s.loop_ fr = some o → o.gen = g' → s.made g' < o.ref_ →
      ∃ o, (s.addCodelet g j).loop_ fr = some o ∧ o.gen = g' ∧
        (s.addCodelet g j).made g' < o.ref_ := by
    intro fr g' o ho hgen hlt
    by_cases hfr : fr = j
    · subst hfr
      refine ⟨{ o with ref_ := o.ref_ + 1 }, by simp [State.addCodelet, ho], hgen, ?_⟩
      simp only [State.addCodelet]
      by_cases hgg : g' = g
      · subst hgg
        rw [Function.update_self]
        omega
      · rw [Function.update_of_ne hgg]
        omega
    · have hgg : g' ≠ g := fun heq => hfr (hj fr (by rw [State.body, ho, ← heq, ← hgen]; rfl))
      exact ⟨o, by simp [State.addCodelet, Function.update_of_ne hfr, ho], hgen,
        by simpa [State.addCodelet, Function.update_of_ne hgg] using hlt⟩
  refine ⟨h.objects.addCodelet hg hj, { hc with building := ?_, full := ?_, counter := ?_ },
    h.own, h.kept⟩
  · intro fr hfr
    have hb := hc.building fr hfr
    unfold Building at hb ⊢
    cases hpc : fr.pc with
    | construct => trivial
    | ctor g' | decRef g' =>
      simp only [hpc] at hb
      obtain ⟨o, ho, hgen, hlt⟩ := hb
      exact hkeep _ g' o ho hgen hlt
    | delete g' => simp [hpc] at hb
  · intro i
    rw [hbody]
    exact hc.full i
  · intro hact
    rw [show L.due (s.addCodelet g j) = L.due s by
      unfold Loop.due
      exact Finset.sum_congr rfl fun i _ => by rw [hbody]; rfl]
    exact hc.counter hact

/-- The next body comes into the first free storage. -/
theorem Inv.construct {j : Nat} (h : Inv L s) (hf : s.frames = [⟨j, .construct⟩]) :
    Inv L ((s.construct L.Res j).setFrame 0 [⟨j, .ctor s.next⟩]) := by
  have hc := h.control
  have hfront : L.front s = j := by simp [Loop.front, hf]
  have hj : j < L.width s := hc.inside ⟨j, .construct⟩ (by simp [hf])
  have hfree : s.body j = none := by
    have := (hc.full j).not.mpr (by rw [hfront]; exact lt_irrefl j)
    simpa using this
  have hobj : Objects (s.construct L.Res j) := h.objects.construct hfree
  have hframes : ((s.construct L.Res j).setFrame 0 [⟨j, .ctor s.next⟩]).frames =
      [⟨j, .ctor s.next⟩] := by
    simp [State.setFrame, State.construct, hf]
  refine ⟨{ hobj with }, { hc with one := ?_, inside := ?_, building := ?_, full := ?_, counter := ?_ },
    h.own, h.kept⟩
  · rw [hframes]
    exact le_rfl
  · rw [hframes]
    intro fr hfr
    rw [List.mem_singleton.mp hfr]
    exact hj
  · rw [hframes]
    intro fr hfr
    rw [List.mem_singleton.mp hfr]
    -- the factory's own reference, and no codelet yet
    refine ⟨{ gen := s.next, ref_ := 1 }, Function.update_self .., rfl, ?_⟩
    change s.made s.next < 1
    rw [h.objects.unmade _ le_rfl]
    exact Nat.one_pos
  · intro i
    change ((s.construct L.Res j).body i).isSome ↔ _
    have hfront' : L.front ((s.construct L.Res j).setFrame 0 [⟨j, .ctor s.next⟩]) = j + 1 := by
      unfold Loop.front
      rw [hframes]
    rw [State.construct_body, hfront']
    split
    next heq => simp [heq]
    next hne =>
      rw [hc.full i, hfront]
      omega
  · intro hact
    refine (hc.counter hact).trans (Finset.sum_congr rfl fun i _ => ?_)
    change _ = Option.getD (((s.construct L.Res j).body i).map
      (Function.update s.owed s.next L.Res)) L.Res
    rw [State.construct_body]
    split
    next heq => simp [heq, hfree]
    next hne =>
      cases hi : s.body i with
      | none => rfl
      | some g =>
        have hne : g ≠ s.next := (h.objects.placed i g hi).ne
        simp [Function.update_of_ne hne]

/-- The constructor has returned. -/
theorem Inv.ctorReturn {j g : Nat} (h : Inv L s) (hf : s.frames = [⟨j, .ctor g⟩]) :
    Inv L (s.setFrame 0 [⟨j, .decRef g⟩]) := by
  have hc := h.control
  have hframes : (s.setFrame 0 [⟨j, .decRef g⟩]).frames = [⟨j, .decRef g⟩] := by
    simp [State.setFrame, hf]
  have hfront : L.front (s.setFrame 0 [⟨j, .decRef g⟩]) = L.front s := by
    unfold Loop.front
    rw [hframes, hf]
  refine ⟨{ h.objects with }, { hc with one := ?_, inside := ?_, building := ?_, full := ?_ },
    h.own, h.kept⟩
  · rw [hframes]
    exact le_rfl
  · rw [hframes]
    intro fr hfr
    rw [List.mem_singleton.mp hfr]
    exact hc.inside ⟨j, .ctor g⟩ (by simp [hf])
  · rw [hframes]
    intro fr hfr
    rw [List.mem_singleton.mp hfr]
    exact hc.building ⟨j, .ctor g⟩ (by simp [hf])
  · intro i
    rw [hfront]
    exact hc.full i

/-- A factory that drops its reference in time drops it of its own body, and not the last. -/
theorem Inv.decRef {j g : Nat} (h : Inv L s) (hf : s.frames = [⟨j, .decRef g⟩])
    (hmade : 0 < s.made g) : (s.decRef g j).1 = false ∧
      Inv L ((s.decRef g j).2.setFrame 0 (L.following j)) := by
  have hc := h.control
  have hj : j < L.width s := hc.inside ⟨j, .decRef g⟩ (by simp [hf])
  obtain ⟨o, ho, hgen, hlt⟩ := hc.building ⟨j, .decRef g⟩ (by simp [hf])
  have ho : s.loop_ j = some o := ho
  have hbody : ∀ i, (s.decRef g j).2.body i = s.body i := State.decRef_body s g j
  have hframes : ((s.decRef g j).2.setFrame 0 (L.following j)).frames = L.following j := by
    simp [State.setFrame, State.decRef, hf]
  have hfront : L.front s = j + 1 := by simp [Loop.front, hf]
  refine ⟨by simp [State.decRef, ho]; omega, ?_⟩
  have hobj : Objects ((s.decRef g j).2.setFrame 0 (L.following j)) :=
    h.objects.congr hbody rfl rfl rfl (fun c hc => Or.inl hc) h.objects.unmade
  have hdue : L.due ((s.decRef g j).2.setFrame 0 (L.following j)) = L.due s :=
    Finset.sum_congr rfl fun i _ => congrArg (fun b => (Option.map s.owed b).getD L.Res) (hbody i)
  have hcase := following_cases (L := L) hj
  refine ⟨hobj, { hc with one := ?_, inside := ?_, building := ?_, full := ?_, counter := ?_ },
    ?_, h.kept⟩
  · rw [hframes]
    rcases hcase with ⟨hnext, -⟩ | ⟨hnext, -⟩ <;> simp [hnext]
  · rw [hframes]
    intro fr hfr
    rcases hcase with ⟨hnext, hlt⟩ | ⟨hnext, -⟩
    · rw [hnext] at hfr
      rw [List.mem_singleton.mp hfr]
      exact hlt
    · simp [hnext] at hfr
  · rw [hframes]
    intro fr hfr
    rcases hcase with ⟨hnext, -⟩ | ⟨hnext, -⟩
    · rw [hnext] at hfr
      rw [List.mem_singleton.mp hfr]
      trivial
    · simp [hnext] at hfr
  · intro i
    have hfront' : L.front ((s.decRef g j).2.setFrame 0 (L.following j)) = j + 1 := by
      unfold Loop.front
      rw [hframes]
      rcases hcase with ⟨hnext, -⟩ | ⟨hnext, hw⟩
      · rw [hnext]
      · rw [hnext]
        exact hw
    rw [hfront', ← hfront, ← hc.full i]
    exact iff_of_eq (congrArg (fun b => Option.isSome b = true) (hbody i))
  · intro hact
    rw [hdue]
    exact hc.counter hact
  · intro d hd
    rcases List.mem_append.mp hd with hd | hd
    · exact h.own d hd
    · rw [List.mem_singleton.mp hd]
      simp [State.body, ho, hgen]

/-! ## The loop fires -/

/-- The loop starts to fill its storage. -/
theorem Control.round (hframes : t.frames = [⟨0, .construct⟩]) (hbody : ∀ j, t.body j = none)
    (hw : 0 < L.width t) (hsync : t.sync_ = { counter_ := L.Res * L.width t, reset_ := L.Res })
    (hq : t.queued = 0) (hcount : t.activations = t.signalled + 1)
    (hcur : t.curIterations_ ≤ L.iterations_) : Control L t where
  reset := by rw [hsync]
  cur := hcur
  one := by rw [hframes]; exact le_rfl
  inside fr hfr := by
    rw [hframes, List.mem_singleton] at hfr
    rw [hfr]
    exact hw
  building fr hfr := by
    rw [hframes, List.mem_singleton] at hfr
    rw [hfr]
    trivial
  full j := by simp [hbody, Loop.front, hframes]
  count := Or.inr hcount
  counter _ := by
    have hdue : L.due t = ∑ _j ∈ Finset.range (L.width t), L.Res :=
      Finset.sum_congr rfl fun j _ => by rw [hbody j]; rfl
    rw [hsync, hdue, Finset.sum_const, Finset.card_range]
    exact Nat.mul_comm ..
  queued _ := by
    have hpos : 0 < L.Res * L.width t := Nat.mul_pos L.res_pos hw
    rw [hq, hsync, if_neg hpos.ne']
  rest hc := by omega

/-- The loop is through with its bodies. -/
theorem Control.done (hframes : t.frames = []) (hbody : ∀ j, t.body j = none)
    (hw : L.width t = 0) (hreset : t.sync_.reset_ = L.Res) (hq : t.queued = 0)
    (hcount : t.activations = t.signalled) (hcur : t.curIterations_ ≤ L.iterations_) :
    Control L t where
  reset := hreset
  cur := hcur
  one := by rw [hframes]; exact Nat.zero_le _
  inside fr hfr := by simp [hframes] at hfr
  building fr hfr := by simp [hframes] at hfr
  full j := by simp [hbody, Loop.front, hframes, hw]
  count := Or.inl hcount
  counter hc := absurd hcount hc
  queued hc := absurd hcount hc
  rest _ := ⟨hq, hw⟩

/-- What holds when the loop is fired in time: the storage in use is full, and nothing is
owed any more. -/
theorem Inv.ready (h : Inv L s) (hq : 0 < s.queued) (hf : s.frames = []) :
    s.queued = 1 ∧ s.activations = s.signalled + 1 ∧
      (∀ j, (s.body j).isSome ↔ j < L.width s) ∧ ∀ j g, s.body j = some g → s.owed g = 0 := by
  have hc := h.control
  have hact : s.activations ≠ s.signalled := fun heq => absurd (hc.rest heq).1 hq.ne'
  have hqueued := hc.queued hact
  have hzero : s.sync_.counter_ = 0 := by
    split at hqueued
    · assumption
    · omega
  have hfront : L.front s = L.width s := by simp [Loop.front, hf]
  refine ⟨by rw [hqueued, if_pos hzero], hc.count.resolve_left hact, hfront ▸ hc.full, ?_⟩
  intro j g hj
  have hsum : L.due s = 0 := by rw [← hc.counter hact, hzero]
  have := Finset.sum_eq_zero_iff.mp hsum j (Finset.mem_range.mpr (hc.lt_width hj))
  simpa [hj] using this

/-- The bodies in use are destroyed before anything else. -/
theorem Inv.destroyed (h : Inv L s) (hq : 0 < s.queued) (hf : s.frames = []) :
    Objects (s.destroyUpTo (L.width s)) ∧ ∀ j, (s.destroyUpTo (L.width s)).body j = none := by
  obtain ⟨-, -, hfull, howed⟩ := h.ready hq hf
  exact h.objects.destroyUpTo hfull howed

/-- What `fire()` leaves is `u`, up to what the ledger does not look at. -/
theorem Inv.of_destroyed {u : State} (hu : Objects u) (hc : Control L t)
    (hbody : ∀ i, t.body i = u.body i) (hnext : t.next = u.next)
    (hdestroyed : t.destroyed = u.destroyed) (howed : t.owed = u.owed)
    (hcodelets : t.codelets = u.codelets) (hmade : t.made = u.made)
    (hown : ∀ d ∈ t.decRefs, d.2 = some d.1) (hkept : t.deleted = []) : Inv L t :=
  ⟨hu.congr hbody hnext hdestroyed howed (fun _ h => Or.inl (hcodelets ▸ h))
    (fun g hg => hmade ▸ hu.unmade g hg), hc, hown, hkept⟩

theorem serialFire_inv (h : Inv L s) (hk : L.kind = .serialFor) (hq : 0 < s.queued)
    (hf : s.frames = []) : Inv L (serialFire L { s with queued := s.queued - 1 }) := by
  obtain ⟨hq1, hcount, -, -⟩ := h.ready hq hf
  obtain ⟨hobj, hnone⟩ := h.destroyed hq hf
  have hcur := h.control.cur
  have hw : L.width s = if s.curIterations_ = 0 then 0 else 1 := by simp [Loop.width, hk]
  rw [hw, State.destroyUpTo_eq] at hobj hnone
  unfold serialFire
  by_cases hlt : s.curIterations_ < L.iterations_
  · rw [if_pos hlt]
    by_cases h0 : s.curIterations_ = 0
    · -- nothing to destroy
      simp only [h0, if_true] at hobj hnone ⊢
      refine Inv.of_destroyed hobj ?_ (fun i => by simp [State.body]) rfl (by simp) rfl rfl rfl
        h.own h.kept
      refine Control.round (by simp [hf]) (fun j => by simpa [State.body] using hnone j) ?_ ?_
        (by simp [hq1]) hcount (by simp; omega)
      · simp [Loop.width, hk]
      · simp [Loop.width, hk, SyncSlot.resetCounter, h.control.reset]
    · simp only [h0, if_false] at hobj hnone ⊢
      have hloop : (fun j => if j < 1 then none else s.loop_ j) = Function.update s.loop_ 0 none := by
        funext j
        cases j <;> simp
      simp only [hloop] at hobj hnone
      refine Inv.of_destroyed hobj ?_ (fun i => rfl) rfl rfl rfl rfl rfl h.own h.kept
      refine Control.round (by simp [State.destroy, hf]) hnone ?_ ?_ (by simp [State.destroy, hq1])
        hcount (by simp [State.destroy]; omega)
      · simp [Loop.width, hk, State.destroy]
      · simp [Loop.width, hk, State.destroy, SyncSlot.resetCounter, h.control.reset]
  · have heq : s.curIterations_ = L.iterations_ := by omega
    rw [if_neg hlt, if_pos heq]
    by_cases h0 : L.iterations_ = 0
    · simp only [heq, h0, if_true, ne_eq, not_true, if_false] at hobj hnone ⊢
      refine Inv.of_destroyed hobj ?_ (fun i => by simp [State.body]) rfl (by simp) rfl rfl rfl
        h.own h.kept
      exact Control.done hf (fun j => by simpa [State.body] using hnone j) (by simp [Loop.width, hk])
        rfl (by simp [hq1]) hcount (Nat.zero_le _)
    · simp only [heq, h0, if_false, ne_eq, not_false_eq_true, if_true] at hobj hnone ⊢
      have hloop : (fun j => if j < 1 then none else s.loop_ j) = Function.update s.loop_ 0 none := by
        funext j
        cases j <;> simp
      simp only [hloop] at hobj hnone
      refine Inv.of_destroyed hobj ?_ (fun i => rfl) rfl rfl rfl rfl rfl h.own h.kept
      exact Control.done hf hnone (by simp [Loop.width, hk]) rfl (by simp [State.destroy, hq1])
        hcount (Nat.zero_le _)

theorem codeletFire_inv (h : Inv L s) (hk : L.kind = .codeletFor) (hq : 0 < s.queued)
    (hf : s.frames = []) : Inv L (codeletFire L { s with queued := s.queued - 1 }) := by
  obtain ⟨hq1, hcount, -, -⟩ := h.ready hq hf
  obtain ⟨hobj, hnone⟩ := h.destroyed hq hf
  have hcur := h.control.cur
  have hw : L.width s = if s.fired then L.iterations_ else 0 := by simp [Loop.width, hk]
  unfold codeletFire
  by_cases hn : L.iterations_ = 0
  · -- no bodies, and the counter is left alone
    rw [hn, ite_self] at hw
    rw [hw] at hobj hnone
    simp only [hn, ne_eq, not_true, if_false]
    exact Inv.of_destroyed hobj (Control.done hf hnone (by simp [Loop.width, hk, hn])
      h.control.reset (by simp [hq1]) hcount hcur) (fun i => rfl) rfl rfl rfl rfl rfl h.own h.kept
  · simp only [hn, ne_eq, not_false_eq_true, if_true]
    cases hfired : s.fired with
    | false =>
      simp only [hfired, Bool.false_eq_true, if_false] at hw
      rw [hw] at hobj hnone
      simp only [Bool.not_false, if_true]
      refine Inv.of_destroyed hobj ?_ (fun i => rfl) rfl rfl rfl rfl rfl h.own h.kept
      refine Control.round (by simp [hf]) hnone ?_ ?_ (by simp [hq1]) hcount hcur
      · simp [Loop.width, hk]
        omega
      · simp [Loop.width, hk]
    | true =>
      simp only [hfired, if_true] at hw
      rw [hw, State.destroyUpTo_eq] at hobj hnone
      simp only [Bool.not_true, Bool.false_eq_true, if_false, State.destroyUpTo_eq]
      refine Inv.of_destroyed hobj ?_ (fun i => rfl) rfl rfl rfl rfl rfl h.own h.kept
      exact Control.done hf hnone (by simp [Loop.width, hk]) rfl (by simp [hq1]) hcount hcur

/-! ## Every run whose steps are in time -/

theorem inv_start : Inv L (State.start L) where
  objects :=
    { placed := fun _ _ h => by simp [State.body, State.start] at h
      apart := fun _ _ _ h => by simp [State.body, State.start] at h
      ledger := fun _ h => absurd h (Nat.not_lt_zero _)
      gone := fun _ h => by simp [State.start] at h
      nodup := List.nodup_nil
      owed := fun _ h => absurd h (lt_irrefl 0)
      codelets := fun _ h => by simp [State.start] at h
      unmade := fun _ _ => rfl }
  control := Control.done rfl (fun _ => rfl) (by cases hk : L.kind <;> simp [Loop.width, hk, State.start])
    rfl rfl rfl (Nat.zero_le _)
  own d hd := by simp [State.start] at hd
  kept := rfl

theorem activate_inv (h : Inv L s) (hcount : s.activations = s.signalled) :
    Inv L { s with
      sync_ := { s.sync_ with counter_ := 0 }, queued := s.queued + 1
      activations := s.activations + 1 } := by
  have hc := h.control
  obtain ⟨hq, hw⟩ := hc.rest hcount
  refine ⟨{ h.objects with }, { hc with count := Or.inr (by simp [hcount]), counter := fun _ => ?_
                                        queued := fun _ => by simp [hq], rest := fun h => ?_ },
    h.own, h.kept⟩
  · have hdue : L.due s = 0 := by simp [Loop.due, hw]
    exact hdue.symm
  · simp only at h
    omega

theorem step_inv {l : Label} (h : Inv L s) (ht : InTime s l) (hl : step L s l = some t) :
    Inv L t := by
  have hc := h.control
  unfold step at hl
  cases l with
  | activate =>
    simp only [Option.ite_none_right_eq_some, Option.some.injEq] at hl
    obtain ⟨hcount, rfl⟩ := hl
    exact activate_inv h hcount
  | fire =>
    simp only [Option.ite_none_right_eq_some] at hl
    obtain ⟨hq, hl⟩ := hl
    cases hk : L.kind with
    | serialFor =>
      simp only [hk, Option.some.injEq] at hl
      exact hl ▸ serialFire_inv h hk hq ht
    | codeletFor =>
      simp only [hk, Option.some.injEq] at hl
      exact hl ▸ codeletFire_inv h hk hq ht
  | construct k =>
    simp only at hl
    split at hl
    next j hfr =>
      obtain ⟨rfl, hf⟩ := hc.only hfr
      exact Option.some.inj hl ▸ h.construct hf
    next => cases hl
  | ctorAdd k =>
    simp only at hl
    split at hl
    next j g hfr =>
      obtain ⟨rfl, hf⟩ := hc.only hfr
      obtain ⟨o, ho, hgen, -⟩ := hc.building ⟨j, .ctor g⟩ (by simp [hf])
      have hj : s.body j = some g := by rw [State.body, ho]; exact congrArg some hgen
      exact Option.some.inj hl ▸ h.addCodelet (h.objects.placed j g hj)
        fun i hi => h.objects.apart i j g hi hj
    next => cases hl
  | ctorSignal k =>
    simp only at hl
    split at hl
    next => exact h.signal hl
    next => cases hl
  | ctorReturn k =>
    simp only at hl
    split at hl
    next j g hfr =>
      obtain ⟨rfl, hf⟩ := hc.only hfr
      exact Option.some.inj hl ▸ h.ctorReturn hf
    next => cases hl
  | decRef k =>
    simp only at hl
    split at hl
    next j g hfr =>
      obtain ⟨rfl, hf⟩ := hc.only hfr
      obtain ⟨hlast, hinv⟩ := h.decRef hf (ht ⟨j, .decRef g⟩ hfr g rfl)
      rw [hlast] at hl
      exact Option.some.inj hl ▸ hinv
    next => cases hl
  | delete k =>
    simp only at hl
    split at hl
    next j g hfr =>
      obtain ⟨rfl, hf⟩ := hc.only hfr
      exact absurd (hc.building ⟨j, .delete g⟩ (by simp [hf])) (by simp [Building])
    next => cases hl
  | codeletAdd i =>
    simp only [Option.map_eq_some_iff] at hl
    obtain ⟨c, hci, rfl⟩ := hl
    obtain ⟨hlt, hpos⟩ := h.objects.codelets c (List.mem_of_getElem? hci)
    exact h.addCodelet hlt hpos
  | codeletSignal i =>
    simp only [Option.bind_eq_some_iff] at hl
    obtain ⟨c, -, hl⟩ := hl
    exact h.signal hl
  | codeletDone i =>
    simp only [Option.map_eq_some_iff] at hl
    obtain ⟨c, -, rfl⟩ := hl
    refine ⟨h.objects.congr (fun _ => rfl) rfl rfl rfl (fun c' hc' => Or.inl ?_) h.objects.unmade,
      { hc with }, h.own, h.kept⟩
    exact List.mem_of_mem_eraseIdx hc'

/-- The ledger says that all lifetimes are in order. -/
theorem Inv.safe (h : Inv L s) : Safe s := by
  have hobj := h.objects
  have hone : ∀ g < s.next, ¬Alive s g → s.destroyed.count (some g) = 1 := fun g hg hna =>
    List.count_eq_one_of_mem hobj.nodup ((hobj.ledger g hg).resolve_left hna)
  refine { own := h.own, kept := h.kept, found := fun d hd => ?_, once := fun g hg => ?_
           all := fun hrest g hg => hone g hg ?_ }
  · obtain ⟨g, hg, rfl, -⟩ := hobj.gone d hd
    exact ⟨g, hg, rfl⟩
  · by_cases ha : Alive s g
    · refine Or.inl ⟨ha, List.count_eq_zero.mpr fun hd => ?_⟩
      obtain ⟨g', -, heq, hna⟩ := hobj.gone _ hd
      exact hna (Option.some.inj heq ▸ ha)
    · exact Or.inr ⟨ha, hone g hg ha⟩
  · intro ⟨j, hj⟩
    exact h.control.active (h.control.lt_width hj) hrest

/-- In every run in which the loop never fires while a factory of it is under way, and no
factory drops its reference before its body has made a codelet ready, the lifetimes are in
order. -/
theorem lifetimes_safe (L : Loop) (s : State) (h : ReachableIf (step L) InTime (State.start L) s) :
    Safe s :=
  (h.invariant (Inv L) inv_start fun _ _ _ _ hi ht hl => step_inv hi ht hl).safe

/-- A `serialFor` that waits for one signal in each iteration. -/
def serial (iterations_ : Nat) : Loop :=
  { kind := .serialFor, Dep := 1, Res := 1, iterations_, res_pos := Nat.one_pos
    fits := fun h => by cases h }

/-- Two iterations. Each body makes a codelet ready in its constructor, which signals when the
factory is through. -/
theorem lifetimes_safe_two : ∃ s, s.signalled = 1 ∧ s.destroyed = [some 0, some 1] ∧ Safe s := by
  have hstart : ReachableIf (step (serial 2)) InTime (State.start (serial 2)) _ := .start
  have hactive := hstart.next (l := Label.activate) trivial rfl
  have hfirst := (((hactive.next (l := Label.fire) rfl rfl).next
    (l := Label.construct 0) trivial rfl).next (l := Label.ctorAdd 0) trivial rfl).next
    (l := Label.ctorReturn 0) trivial rfl
  have hdropped := hfirst.next (l := Label.decRef 0)
    (fun fr hfr g hpc => by cases hfr; cases hpc; decide) rfl
  have hsignalled := hdropped.next (l := Label.codeletSignal 0) trivial rfl
  have hsecond := (((hsignalled.next (l := Label.fire) rfl rfl).next
    (l := Label.construct 0) trivial rfl).next (l := Label.ctorAdd 0) trivial rfl).next
    (l := Label.ctorReturn 0) trivial rfl
  have hdropped' := hsecond.next (l := Label.decRef 0)
    (fun fr hfr g hpc => by cases hfr; cases hpc; decide) rfl
  have hdone := (hdropped'.next (l := Label.codeletSignal 1) trivial rfl).next (l := Label.fire) rfl
    rfl
  exact ⟨_, rfl, rfl, lifetimes_safe (serial 2) _ hdone⟩

/-- A body that only signals from its constructor is deleted by its factory. And when a
codelet of the body is faster than the factory, the loop has destroyed the body and
constructed the next one when the factory drops its reference. -/
theorem lifetimes_violated :
    (∃ s, run (step (serial 1)) (State.start (serial 1))
        [.activate, .fire, .construct 0, .ctorSignal 0, .ctorReturn 0, .decRef 0, .delete 0] =
          some s ∧ s.deleted = [0] ∧ ¬Safe s) ∧
      ∃ s, run (step (serial 2)) (State.start (serial 2))
        [.activate, .fire, .construct 0, .ctorAdd 0, .codeletSignal 0, .ctorReturn 0,
          .fire, .construct 1, .decRef 0] = some s ∧ s.decRefs = [(0, some 1)] ∧ ¬Safe s := by
  refine ⟨⟨_, rfl, rfl, fun h => ?_⟩, ⟨_, rfl, rfl, fun h => ?_⟩⟩
  · exact absurd h.kept (by decide)
  · exact absurd (h.own (0, some 1) (List.mem_singleton.mpr rfl)) (by decide)

end Lifetime

end Darts
