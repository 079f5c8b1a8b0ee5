import Darts.Lib.Transition
import Darts.Lib.Word

/-!
# Fork and join by counters

Tasks of an arbitrary kind `C` work on a memory `L → V`. A task that is run changes the
memory and either is done, and then signals the one who waits for it, or leaves a
process behind that is to signal in its place: tasks to run, in parallel, and tasks that
wait for a number of signals first. Which task runs next is arbitrary, and so is the
choice `ω : Ω` that a task may make.

The machine is flat, as a pool of tasks and counters is: a ready task knows where to
signal, a waiting one has a slot with a counter, which wraps when it is signalled too
often. `Rep` reads the process that is left off such a state, as a tree, and
`fires_of_none` and `fires_of_some` say what running one ready task does to that tree.
-/

namespace ForkJoin

open Word

variable {C Ω L V : Type}

/-- What is left to be done: nothing, a task, two processes in parallel, or a task that
waits for the `n` signals of a process. -/
inductive Proc (C : Type)
  | done
  | run (c : C)
  | par (p q : Proc C)
  | wait (n : Nat) (c : C) (p : Proc C)

namespace Proc

/-- How many signals a process sends. -/
def signals : Proc C → Nat
  | .done => 0
  | .run _ => 1
  | .par p q => p.signals + q.signals
  | .wait _ _ _ => 1

/-- Every counter waits for the signals that come. -/
def WellFormed : Proc C → Prop
  | .done | .run _ => True
  | .par p q => p.WellFormed ∧ q.WellFormed
  | .wait n _ p => n = p.signals ∧ 0 < n ∧ p.WellFormed

/-- `c` is one of the tasks that can be run now. -/
def Ready (c : C) : Proc C → Prop
  | .done => False
  | .run d => d = c
  | .par p q => p.Ready c ∨ q.Ready c
  | .wait _ _ p => p.Ready c

/-- All of a list of processes in parallel. -/
def all : List (Proc C) → Proc C
  | [] => .done
  | p :: ps => .par p (all ps)

theorem signals_all {ps : List (Proc C)} (h : ∀ p ∈ ps, p.signals = 1) :
    (all ps).signals = ps.length := by
  induction ps with
  | nil => rfl
  | cons p ps ih =>
    have hp := h p (List.mem_cons_self ..)
    have hps := ih fun q hq => h q (List.mem_cons_of_mem _ hq)
    simp only [all, signals, hp, hps, List.length_cons]
    omega

/-- Every task of a process, ready or waiting, is one of `K`. -/
def Forall (K : C → Prop) : Proc C → Prop
  | .done => True
  | .run c => K c
  | .par p q => p.Forall K ∧ q.Forall K
  | .wait _ c p => K c ∧ p.Forall K

theorem forall_all {K : C → Prop} {ps : List (Proc C)} (h : ∀ p ∈ ps, p.Forall K) :
    (all ps).Forall K := by
  induction ps with
  | nil => trivial
  | cons p ps ih =>
    exact ⟨h p (List.mem_cons_self ..), ih fun q hq => h q (List.mem_cons_of_mem _ hq)⟩

theorem ready_all {ps : List (Proc C)} {p : Proc C} {c : C} (hp : p ∈ ps) (hc : p.Ready c) :
    (all ps).Ready c := by
  induction ps with
  | nil => simp at hp
  | cons q ps ih =>
    rcases List.mem_cons.mp hp with rfl | hp
    · exact .inl hc
    · exact .inr (ih hp)

end Proc

/-- A waiting task: its counter, and where it signals. -/
structure Slot (C : Type) where
  counter : Nat
  task : C
  final : Option Nat

/-- `none` in the place of a slot is the outside. -/
structure State (C L V : Type) where
  mem : L → V
  slots : List (Slot C)
  /-- The tasks in the pool, each with where it signals. -/
  ready : List (C × Option Nat)
  /-- How often the outside has been signalled. -/
  signalled : Nat

namespace State

/-- A signal: the last one of a slot makes its task ready. -/
def signal (s : State C L V) : Option Nat → State C L V
  | none => { s with signalled := s.signalled + 1 }
  | some id =>
    match s.slots[id]? with
    | none => s
    | some w =>
      { s with
        slots := s.slots.set id { w with counter := fetchSub w.counter }
        ready := s.ready ++ if w.counter = 1 then [(w.task, w.final)] else [] }

/-- Starts a process that signals `f`. -/
def start : Proc C → Option Nat → State C L V → State C L V
  | .done, _, s => s
  | .run c, f, s => { s with ready := s.ready ++ [(c, f)] }
  | .par p q, f, s => start q f (start p f s)
  | .wait n c p, f, s =>
    start p (some s.slots.length)
      { s with slots := s.slots ++ [{ counter := n, task := c, final := f }] }

end State

/-- A process is started on a memory. -/
def launch (p : Proc C) (m : L → V) : State C L V :=
  State.start p none { mem := m, slots := [], ready := [], signalled := 0 }

/-- The ready task at a position is run. -/
def step (exec : C → Ω → (L → V) → (L → V) × Option (Proc C)) (s : State C L V) :
    Nat × Ω → Option (State C L V)
  | (pos, ω) =>
    match s.ready[pos]? with
    | none => none
    | some (c, f) =>
      let s' := { s with mem := (exec c ω s.mem).1, ready := s.ready.eraseIdx pos }
      some (match (exec c ω s.mem).2 with
        | none => s'.signal f
        | some p => State.start p f s')

/-! ## The process in a state -/

/-- The slots `ids` and the ready tasks `rs` are process `p`, which signals `f`. -/
inductive Rep (slots : List (Slot C)) :
    Proc C → Option Nat → List (C × Option Nat) → List Nat → Prop
  | done {f : Option Nat} : Rep slots .done f [] []
  | run {c : C} {f : Option Nat} : Rep slots (.run c) f [(c, f)] []
  | par {p q : Proc C} {f : Option Nat} {rs rs' : List (C × Option Nat)} {ids ids' : List Nat} :
      Rep slots p f rs ids → Rep slots q f rs' ids' → (∀ id ∈ ids, id ∉ ids') →
      Rep slots (.par p q) f (rs ++ rs') (ids ++ ids')
  | wait {n id : Nat} {c : C} {p : Proc C} {f : Option Nat} {rs : List (C × Option Nat)}
      {ids : List Nat} :
      Rep slots p (some id) rs ids → id ∉ ids →
      slots[id]? = some { counter := n, task := c, final := f } →
      n = p.signals → 0 < n →
      Rep slots (.wait n c p) f rs (id :: ids)

variable {ss ss' : List (Slot C)} {p p' q : Proc C} {f g : Option Nat}
  {rs : List (C × Option Nat)} {ids : List Nat} {c : C} {r : Option (Proc C)} {b : Bool}

/-- Slots of others do not matter. -/
theorem Rep.congr (h : Rep ss p f rs ids) (hs : ∀ id ∈ ids, ss'[id]? = ss[id]?) :
    Rep ss' p f rs ids := by
  induction h with
  | done => exact .done
  | run => exact .run
  | par _ _ hd ihp ihq =>
    exact .par (ihp fun id hid => hs id (List.mem_append_left _ hid))
      (ihq fun id hid => hs id (List.mem_append_right _ hid)) hd
  | wait _ hid hslot hn hpos ih =>
    refine .wait (ih fun id h => hs id (List.mem_cons_of_mem _ h)) hid ?_ hn hpos
    rw [hs _ (List.mem_cons_self ..)]
    exact hslot

theorem Rep.set {id : Nat} (h : Rep ss p f rs ids) (hid : id ∉ ids) (w : Slot C) :
    Rep (ss.set id w) p f rs ids := by
  refine h.congr fun id' h' => ?_
  have hne : id ≠ id' := fun heq => hid (heq ▸ h')
  exact List.getElem?_set_ne hne

/-- The slots of a process exist. -/
theorem Rep.lt (h : Rep ss p f rs ids) : ∀ id ∈ ids, id < ss.length := by
  induction h with
  | done | run => intro id hid; simp at hid
  | par _ _ _ ihp ihq =>
    intro id hid
    exact (List.mem_append.mp hid).elim (ihp id) (ihq id)
  | wait _ _ hslot _ _ ih =>
    intro id hid
    rcases List.mem_cons.mp hid with rfl | hid
    · exact (List.getElem?_eq_some_iff.mp hslot).1
    · exact ih id hid

theorem Rep.ready (h : Rep ss p f rs ids) (hc : (c, g) ∈ rs) : p.Ready c := by
  induction h with
  | done => simp at hc
  | run => exact (Prod.mk.inj (List.mem_singleton.mp hc)).1.symm
  | par _ _ _ ihp ihq => exact (List.mem_append.mp hc).imp ihp ihq
  | wait _ _ _ _ _ ih => exact ih hc

/-- A process that sends no more signals has no ready task, and the other way round. -/
theorem Rep.idle_iff (h : Rep ss p f rs ids) : rs = [] ↔ p.signals = 0 := by
  induction h with
  | done => simp [Proc.signals]
  | run => simp [Proc.signals]
  | par _ _ _ ihp ihq => simp [Proc.signals, ihp, ihq]
  | wait _ _ _ hn hpos ih =>
    rw [ih]
    simp only [Proc.signals, Nat.one_ne_zero, iff_false]
    omega

/-- What `start` adds to a state. -/
theorem start_spec (hp : p.WellFormed) (f : Option Nat) (s : State C L V) :
    ∃ ws rs ids, State.start p f s =
        { s with slots := s.slots ++ ws, ready := s.ready ++ rs } ∧
      Rep (s.slots ++ ws) p f rs ids ∧ ∀ id ∈ ids, s.slots.length ≤ id := by
  induction p generalizing f s with
  | done => exact ⟨[], [], [], by simp [State.start], .done, by simp⟩
  | run c => exact ⟨[], [(c, f)], [], by simp [State.start], .run, by simp⟩
  | par p q ihp ihq =>
    obtain ⟨ws, rs, ids, hstart, hrep, hids⟩ := ihp hp.1 f s
    obtain ⟨ws', rs', ids', hstart', hrep', hids'⟩ := ihq hp.2 f (State.start p f s)
    rw [hstart] at hstart' hrep' hids'
    refine ⟨ws ++ ws', rs ++ rs', ids ++ ids', ?_, ?_, ?_⟩
    · simp only [State.start]
      rw [hstart, hstart']
      simp
    · rw [← List.append_assoc]
      refine .par (hrep.congr fun id hid => ?_) hrep' fun id hid hid' => ?_
      · exact List.getElem?_append_left (hrep.lt id hid)
      · exact absurd (hrep.lt id hid) (Nat.not_lt.mpr (hids' id hid'))
    · intro id hid
      rcases List.mem_append.mp hid with hid | hid
      · exact hids id hid
      · have := hids' id hid
        simp only [List.length_append] at this
        omega
  | wait n c p ih =>
    obtain ⟨hn, hpos, hwf⟩ := hp
    -- the new slot comes before those of `p`
    obtain ⟨ws, rs, ids, hstart, hrep, hids⟩ := ih hwf (some s.slots.length)
      { s with slots := s.slots ++ [{ counter := n, task := c, final := f }] }
    simp only [List.length_append, List.length_singleton] at hids
    refine ⟨{ counter := n, task := c, final := f } :: ws, rs, s.slots.length :: ids, ?_, ?_, ?_⟩
    · simp only [State.start]
      rw [hstart]
      simp
    · rw [List.append_cons]
      refine .wait hrep (fun hid => absurd (hids _ hid) (by omega)) ?_ hn hpos
      rw [List.append_assoc, List.getElem?_append_right (Nat.le_refl _), Nat.sub_self]
      rfl
    · intro id hid
      rcases List.mem_cons.mp hid with rfl | hid
      · exact Nat.le_refl _
      · have := hids id hid
        omega

/-! ## Running one task -/

/-- Task `c` of `p` has been run and left `r`: the process is now `p'`, and has sent a signal
if `b`. -/
inductive Fires (c : C) : Option (Proc C) → Proc C → Proc C → Bool → Prop
  | next {q : Proc C} : Fires c (some q) (.run c) q false
  | last : Fires c none (.run c) .done true
  | left {r : Option (Proc C)} {p p' q : Proc C} {b : Bool} :
      Fires c r p p' b → Fires c r (.par p q) (.par p' q) b
  | right {r : Option (Proc C)} {p q q' : Proc C} {b : Bool} :
      Fires c r q q' b → Fires c r (.par p q) (.par p q') b
  | inner {r : Option (Proc C)} {n : Nat} {d : C} {p p' : Proc C} :
      Fires c r p p' false → Fires c r (.wait n d p) (.wait n d p') false
  | more {r : Option (Proc C)} {n : Nat} {d : C} {p p' : Proc C} :
      Fires c r p p' true → n ≠ 1 → Fires c r (.wait n d p) (.wait (n - 1) d p') false
  | wake {r : Option (Proc C)} {d : C} {p p' : Proc C} :
      Fires c r p p' true → Fires c r (.wait 1 d p) (.run d) false

/-- A signal sent is one less to send. -/
theorem Fires.signals_eq (h : Fires c r p p' b) (hr : ∀ q ∈ r, q.signals = 1) :
    p.signals = p'.signals + if b then 1 else 0 := by
  induction h with
  | next => exact (hr _ rfl).symm
  | last => rfl
  | left _ ih =>
    simp only [Proc.signals, ih hr]
    omega
  | right _ ih =>
    simp only [Proc.signals, ih hr]
    omega
  | inner | more | wake => rfl

/-- A ready task leaves a process in its place. -/
theorem fires_of_some {rq : List (C × Option Nat)} {idq : List Nat} (h : Rep ss p f rs ids)
    (hc : (c, g) ∈ rs) (hq : Rep ss q g rq idq) (hq1 : q.signals = 1) (hids : ∀ id ∈ idq, id ∉ ids) :
    ∃ p' rs₀ rs' ids', rs.Perm ((c, g) :: rs₀) ∧ rs'.Perm (rs₀ ++ rq) ∧ Rep ss p' f rs' ids' ∧
      (∀ id ∈ ids', id ∈ ids ∨ id ∈ idq) ∧ Fires c (some q) p p' false := by
  induction h with
  | done => simp at hc
  | run =>
    obtain ⟨rfl, rfl⟩ := Prod.mk.inj (List.mem_singleton.mp hc)
    exact ⟨q, [], rq, idq, .refl _, .refl _, hq, fun _ h => Or.inr h, .next⟩
  | @par p₁ p₂ f rs₁ rs₂ ids₁ ids₂ h₁ h₂ hd ih₁ ih₂ =>
    have hids₁ : ∀ id ∈ idq, id ∉ ids₁ := fun id h h' => hids id h (List.mem_append_left _ h')
    have hids₂ : ∀ id ∈ idq, id ∉ ids₂ := fun id h h' => hids id h (List.mem_append_right _ h')
    rcases List.mem_append.mp hc with hc | hc
    · -- a task of `p₁`; the slots of `q` are new, so `p₂` has none of them
      obtain ⟨p', rs₀, rs', ids', hrs, hrs', hrep, hsub, hf⟩ := ih₁ hc hids₁
      refine ⟨.par p' p₂, rs₀ ++ rs₂, rs' ++ rs₂, ids' ++ ids₂, hrs.append_right _, ?_,
        .par hrep h₂ fun id h h' => ?_, fun id h => ?_, .left hf⟩
      · refine (hrs'.append_right _).trans ?_
        rw [List.append_assoc, List.append_assoc]
        exact List.perm_append_comm.append_left _
      · exact (hsub id h).elim (fun h => hd id h h') (fun h => hids₂ id h h')
      · rcases List.mem_append.mp h with h | h
        · exact (hsub id h).imp_left (List.mem_append_left _)
        · exact Or.inl (List.mem_append_right _ h)
    · obtain ⟨p', rs₀, rs', ids', hrs, hrs', hrep, hsub, hf⟩ := ih₂ hc hids₂
      refine ⟨.par p₁ p', rs₁ ++ rs₀, rs₁ ++ rs', ids₁ ++ ids', ?_, ?_,
        .par h₁ hrep fun id h h' => ?_, fun id h => ?_, .right hf⟩
      · exact (hrs.append_left _).trans List.perm_middle
      · rw [List.append_assoc]
        exact hrs'.append_left _
      · exact (hsub id h').elim (fun h' => hd id h h') (fun h' => hids₁ id h' h)
      · rcases List.mem_append.mp h with h | h
        · exact Or.inl (List.mem_append_left _ h)
        · exact (hsub id h).imp_left (List.mem_append_right _)
  | @wait n id d p f rs ids hp hid hslot hn hpos ih =>
    obtain ⟨p', rs₀, rs', ids', hrs, hrs', hrep, hsub, hf⟩ :=
      ih hc fun id h h' => hids id h (List.mem_cons_of_mem _ h')
    -- what the slot still waits for is the same, since nothing has been signalled
    have hsig : p.signals = p'.signals := hf.signals_eq fun q' h => Option.some.inj h ▸ hq1
    refine ⟨.wait n d p', rs₀, rs', id :: ids', hrs, hrs',
      .wait hrep (fun h => ?_) hslot (hn.trans hsig) hpos, fun id' h => ?_, .inner hf⟩
    · exact (hsub id h).elim hid (fun h => hids id h (List.mem_cons_self ..))
    · rcases List.mem_cons.mp h with rfl | h
      · exact Or.inl (List.mem_cons_self ..)
      · exact (hsub id' h).imp_left (List.mem_cons_of_mem _)

/-- What a signal to a slot leaves: its counter is one less, and its task is ready when that
was the last one. -/
def woken (w : Slot C) : List (C × Option Nat) := if w.counter = 1 then [(w.task, w.final)] else []

/-- A ready task that is done either signals for the whole process, or a slot of it. -/
theorem fires_of_none (h : Rep ss p f rs ids) (hc : (c, g) ∈ rs) :
    ∃ p' rs₀ ids' b, rs.Perm ((c, g) :: rs₀) ∧ (∀ id ∈ ids', id ∈ ids) ∧ Fires c none p p' b ∧
      if b then g = f ∧ Rep ss p' f rs₀ ids'
      else ∃ id w rs', g = some id ∧ id ∈ ids ∧ ss[id]? = some w ∧ rs'.Perm (rs₀ ++ woken w) ∧
        Rep (ss.set id { w with counter := fetchSub w.counter }) p' f rs' ids' := by
  induction h with
  | done => simp at hc
  | run =>
    obtain ⟨rfl, rfl⟩ := Prod.mk.inj (List.mem_singleton.mp hc)
    exact ⟨.done, [], [], true, .refl _, fun _ h => h, .last, by simpa using Rep.done⟩
  | @par p₁ p₂ f rs₁ rs₂ ids₁ ids₂ h₁ h₂ hd ih₁ ih₂ =>
    rcases List.mem_append.mp hc with hc | hc
    · obtain ⟨p', rs₀, ids', b, hrs, hsub, hf, hcase⟩ := ih₁ hc
      have hd' : ∀ id ∈ ids', id ∉ ids₂ := fun id h => hd id (hsub id h)
      have hsub' : ∀ id ∈ ids' ++ ids₂, id ∈ ids₁ ++ ids₂ := fun id h =>
        (List.mem_append.mp h).elim (fun h => List.mem_append_left _ (hsub id h))
          (List.mem_append_right _)
      refine ⟨.par p' p₂, rs₀ ++ rs₂, ids' ++ ids₂, b, hrs.append_right _, hsub', .left hf, ?_⟩
      cases b with
      | true =>
        obtain ⟨hg, hrep⟩ := hcase
        exact ⟨hg, .par hrep h₂ hd'⟩
      | false =>
        obtain ⟨id, w, rs', hg, hid, hw, hrs', hrep⟩ := hcase
        refine ⟨id, w, rs' ++ rs₂, hg, List.mem_append_left _ hid, hw, ?_,
          .par hrep (h₂.set (hd id hid) _) hd'⟩
        refine (hrs'.append_right _).trans ?_
        rw [List.append_assoc, List.append_assoc]
        exact List.perm_append_comm.append_left _
    · obtain ⟨p', rs₀, ids', b, hrs, hsub, hf, hcase⟩ := ih₂ hc
      have hd' : ∀ id ∈ ids₁, id ∉ ids' := fun id h h' => hd id h (hsub id h')
      have hsub' : ∀ id ∈ ids₁ ++ ids', id ∈ ids₁ ++ ids₂ := fun id h =>
        (List.mem_append.mp h).elim (List.mem_append_left _)
          (fun h => List.mem_append_right _ (hsub id h))
      refine ⟨.par p₁ p', rs₁ ++ rs₀, ids₁ ++ ids', b, (hrs.append_left _).trans List.perm_middle,
        hsub', .right hf, ?_⟩
      cases b with
      | true =>
        obtain ⟨hg, hrep⟩ := hcase
        exact ⟨hg, .par h₁ hrep hd'⟩
      | false =>
        obtain ⟨id, w, rs', hg, hid, hw, hrs', hrep⟩ := hcase
        have hid₁ : id ∉ ids₁ := fun h => hd id h hid
        refine ⟨id, w, rs₁ ++ rs', hg, List.mem_append_right _ hid, hw, ?_,
          .par (h₁.set hid₁ _) hrep hd'⟩
        rw [List.append_assoc]
        exact hrs'.append_left _
  | @wait n id d p f rs ids hp hid hslot hn hpos ih =>
    obtain ⟨p', rs₀, ids', b, hrs, hsub, hf, hcase⟩ := ih hc
    have hsig := hf.signals_eq (fun q h => by cases h)
    have hid' : id ∉ ids' := fun h => hid (hsub id h)
    cases b with
    | true =>
      -- the signal is for this slot
      obtain ⟨hg, hrep⟩ := hcase
      have hrep' : Rep (ss.set id { counter := fetchSub n, task := d, final := f }) p' (some id) rs₀
          ids' := hrep.set hid' _
      have hless : fetchSub n = n - 1 := fetchSub_of_pos (by omega)
      simp only [if_true] at hsig
      by_cases hone : n = 1
      · -- the last one: nothing of `p` is left, and `d` becomes ready
        obtain rfl : rs₀ = [] := hrep.idle_iff.mpr (by omega)
        subst hone
        refine ⟨.run d, [], [], false, hrs, by simp, .wake hf, id, _, [(d, f)], hg,
          List.mem_cons_self .., hslot, ?_, .run⟩
        simp [woken]
      · refine ⟨.wait (n - 1) d p', rs₀, id :: ids', false, hrs, fun id' h => ?_, .more hf hone, id, _,
          rs₀, hg, List.mem_cons_self .., hslot, by simp [woken, hone],
          .wait hrep' hid' ?_ (by omega) (by omega)⟩
        · rcases List.mem_cons.mp h with rfl | h
          · exact List.mem_cons_self ..
          · exact List.mem_cons_of_mem _ (hsub id' h)
        · rw [hless]
          exact List.getElem?_set_self (List.getElem?_eq_some_iff.mp hslot).1
    | false =>
      -- the signal is for a slot further in
      obtain ⟨id₂, w, rs', hg, hid₂, hw, hrs', hrep⟩ := hcase
      simp only [Bool.false_eq_true, if_false, Nat.add_zero] at hsig
      refine ⟨.wait n d p', rs₀, id :: ids', false, hrs, fun id' h => ?_, .inner hf, id₂, w, rs', hg,
        List.mem_cons_of_mem _ hid₂, hw, hrs', .wait hrep hid' ?_ (hn.trans hsig) hpos⟩
      · rcases List.mem_cons.mp h with rfl | h
        · exact List.mem_cons_self ..
        · exact List.mem_cons_of_mem _ (hsub id' h)
      · have hne : id₂ ≠ id := fun heq => hid (heq ▸ hid₂)
        exact (List.getElem?_set_ne hne).trans hslot

/-! ## Invariants of the memory -/

/-- Every task in a state is one of `K`. -/
structure State.Tasks (K : C → Prop) (s : State C L V) : Prop where
  ready : ∀ x ∈ s.ready, K x.1
  slots : ∀ w ∈ s.slots, K w.task

theorem State.Tasks.signal {K : C → Prop} {s : State C L V} (h : s.Tasks K) (f : Option Nat) :
    (s.signal f).Tasks K := by
  cases f with
  | none => exact ⟨h.ready, h.slots⟩
  | some id =>
    simp only [State.signal]
    split
    next => exact h
    next w hw =>
      have hwK : K w.task := h.slots w (List.mem_of_getElem? hw)
      refine ⟨fun x hx => ?_, fun w' hw' => ?_⟩
      · rcases List.mem_append.mp hx with hx | hx
        · exact h.ready x hx
        · split at hx
          next => rw [List.mem_singleton.mp hx]; exact hwK
          next => simp at hx
      · rcases List.mem_or_eq_of_mem_set hw' with hw' | rfl
        · exact h.slots w' hw'
        · exact hwK

theorem State.Tasks.start {K : C → Prop} {p : Proc C} (hp : p.Forall K) {s : State C L V}
    (h : s.Tasks K) (f : Option Nat) : (State.start p f s).Tasks K := by
  induction p generalizing f s with
  | done => exact h
  | run c =>
    refine ⟨fun x hx => ?_, h.slots⟩
    rcases List.mem_append.mp hx with hx | hx
    · exact h.ready x hx
    · rw [List.mem_singleton.mp hx]
      exact hp
  | par p q ihp ihq => exact ihq hp.2 (ihp hp.1 h f) f
  | wait n c p ih =>
    have hslots : State.Tasks K
        { s with slots := s.slots ++ [{ counter := n, task := c, final := f }] } := by
      refine ⟨h.ready, fun w hw => ?_⟩
      rcases List.mem_append.mp hw with hw | hw
      · exact h.slots w hw
      · rw [List.mem_singleton.mp hw]
        exact hp.1
    exact ih hp.2 hslots _

theorem start_mem (p : Proc C) (f : Option Nat) (s : State C L V) :
    (State.start p f s).mem = s.mem := by
  induction p generalizing f s with
  | done | run => rfl
  | par p q ihp ihq => rw [State.start, ihq, ihp]
  | wait n c p ih => rw [State.start, ih]

theorem signal_mem (s : State C L V) (f : Option Nat) : (s.signal f).mem = s.mem := by
  cases f with
  | none => rfl
  | some id =>
    simp only [State.signal]
    split <;> rfl

/-- What every task of a set preserves holds in every run, when these tasks leave only tasks of
the set behind. -/
theorem mem_invariant {exec : C → Ω → (L → V) → (L → V) × Option (Proc C)} {K : C → Prop}
    {I : (L → V) → Prop} (hleft : ∀ c ω m, K c → ∀ q ∈ (exec c ω m).2, q.Forall K)
    (hmem : ∀ c ω m, K c → I m → I (exec c ω m).1) {p : Proc C} {m : L → V} (hp : p.Forall K)
    (hm : I m) {s : State C L V} (hs : Transition.Reachable (step exec) (launch p m) s) : I s.mem := by
  refine (hs.invariant (fun s => s.Tasks K ∧ I s.mem) ⟨?_, ?_⟩ ?_).2
  · exact .start hp ⟨fun x hx => by simp at hx, fun w hw => by simp at hw⟩ none
  · unfold launch
    rw [start_mem]
    exact hm
  · intro s l t _ ⟨htasks, hI⟩ hl
    obtain ⟨pos, ω⟩ := l
    simp only [step] at hl
    split at hl
    next => cases hl
    next c f hpos =>
      obtain rfl := Option.some.inj hl
      have hc : K c := htasks.ready (c, f) (List.mem_of_getElem? hpos)
      have hrest : State.Tasks K
          { s with mem := (exec c ω s.mem).1, ready := s.ready.eraseIdx pos } :=
        ⟨fun x hx => htasks.ready x (List.mem_of_mem_eraseIdx hx), htasks.slots⟩
      cases hq : (exec c ω s.mem).2 with
      | none =>
        refine ⟨hrest.signal f, ?_⟩
        simp only [signal_mem]
        exact hmem c ω s.mem hc hI
      | some q =>
        refine ⟨hrest.start (hleft c ω s.mem hc q hq) f, ?_⟩
        simp only [start_mem]
        exact hmem c ω s.mem hc hI

/-! ## Tasks without end -/

theorem mem_ready_of_start {p : Proc C} {x : C × Option Nat} (f : Option Nat)
    {s : State C L V} (hx : x ∈ s.ready) : x ∈ (State.start p f s).ready := by
  induction p generalizing f s with
  | done => exact hx
  | run c => exact List.mem_append_left _ hx
  | par p q ihp ihq => exact ihq f (ihp f hx)
  | wait n c p ih => exact ih _ hx

/-- A ready task of a process is in the pool once the process has been started. -/
theorem ready_start {p : Proc C} {c : C} (hc : p.Ready c) (f : Option Nat) (s : State C L V) :
    ∃ g, (c, g) ∈ (State.start p f s).ready := by
  induction p generalizing f s with
  | done => exact hc.elim
  | run d =>
    obtain rfl : d = c := hc
    exact ⟨f, List.mem_append_right _ (List.mem_singleton_self _)⟩
  | par p q ihp ihq =>
    rcases hc with hc | hc
    · obtain ⟨g, hg⟩ := ihp hc f s
      exact ⟨g, mem_ready_of_start (p := q) f hg⟩
    · exact ihq hc f _
  | wait n d p ih => exact ih hc _ _

/-- Tasks that always leave one of their kind behind never come to an end. -/
theorem endless {exec : C → Ω → (L → V) → (L → V) × Option (Proc C)} [Nonempty Ω]
    {K : C → Prop} (hK : ∀ c ω m, K c → ∃ p d, (exec c ω m).2 = some p ∧ p.Ready d ∧ K d)
    (n : Nat) {s : State C L V} (hs : ∃ c g, (c, g) ∈ s.ready ∧ K c) :
    ∃ ls t, Transition.run (step exec) s ls = some t ∧ ls.length = n := by
  induction n generalizing s with
  | zero => exact ⟨[], s, rfl, rfl⟩
  | succ n ih =>
    obtain ⟨c, g, hc, hkind⟩ := hs
    obtain ⟨pos, hpos⟩ := List.mem_iff_getElem?.mp hc
    obtain ⟨ω⟩ := ‹Nonempty Ω›
    obtain ⟨p, d, hp, hd, hkind'⟩ := hK c ω s.mem hkind
    obtain ⟨g', hg'⟩ := ready_start hd g
      { s with mem := (exec c ω s.mem).1, ready := s.ready.eraseIdx pos }
    obtain ⟨ls, t, hrun, hlen⟩ := ih ⟨d, g', hg', hkind'⟩
    refine ⟨(pos, ω) :: ls, t, ?_, congrArg Nat.succ hlen⟩
    refine (Transition.run_cons ?_ ls).trans hrun
    simp only [step, hpos, hp]

end ForkJoin
