import Mathlib.Data.List.Nodup
import Darts.Threading.Machine

/-!
# Codelets that fire once

In a group `S` of codelets where every member is signalled by a fixed list of
members (`srcs k`, each sending one `decDep`) and starts with a counter equal to
the length of that list, the counters can be read off the bodies: the counter of
`k` is the number of its sources that still have their `decDep` to execute
(`due`). From that single invariant, under every interleaving,

* no `decDep` meets a counter that is already zero (`dec_pos`),
* a codelet's own `resetCodelet` only ever overwrites a zero (`reset_zero`),
* a member fires at most once (`fired_le_one`), and only after every source has
  executed its signal (`source_done`),
* a state in which no member is scheduled or running has fired them all, when
  the signals follow a rank (`all_fired`).

The rest of the program may do anything, as long as it sends no signal to `S`.
-/

namespace Darts

open Program Word

variable {K A M : Type} [DecidableEq K] [DecidableEq A]

/-- The group `S` of the program `P`, whose slots start as `slot`, is signalled
from within and exactly once per listed source. -/
structure OneShot (P : Program K A M) (S : K → Prop) (slot : K → SyncSlot)
    (srcs : K → List K) : Prop where
  quiet : ∀ a m m' os k, P.exec a m = some (m', os) → S k →
    .decDep k ∉ os ∧ .resetCodelet k ∉ os
  dec_src : ∀ k k', S k → .decDep k ∈ P.fire k' → k' ∈ srcs k
  dec_once : ∀ k k', S k → (P.fire k').count (.decDep k) ≤ 1
  reset_own : ∀ k k', S k → .resetCodelet k ∈ P.fire k' → k' = k
  reset_once : ∀ k, S k → (P.fire k).count (.resetCodelet k) ≤ 1
  srcs_mem : ∀ k k', S k → k' ∈ srcs k → S k' ∧ .decDep k ∈ P.fire k'
  srcs_nodup : ∀ k, S k → (srcs k).Nodup
  counter : ∀ k, S k → (slot k).counter_ = (srcs k).length

namespace OneShot

/-- The operations `k` has not executed yet. -/
def todo (P : Program K A M) (s : State K A M) (k : K) : List (Op K A) :=
  if s.fired k = 0 then P.fire k else s.rest k 0

/-- How many of the sources of `k` have not signalled it yet. -/
def due (P : Program K A M) (srcs : K → List K) (s : State K A M) (k : K) : Nat :=
  (srcs k).countP fun k' => decide (.decDep k ∈ todo P s k')

/-- `k` has executed its own `resetCodelet`. -/
def Rearmed (P : Program K A M) (s : State K A M) (k : K) : Prop :=
  .resetCodelet k ∈ P.fire k ∧ .resetCodelet k ∉ todo P s k

instance (P : Program K A M) (s : State K A M) (k : K) : Decidable (Rearmed P s k) :=
  inferInstanceAs (Decidable (_ ∧ _))

/-- What holds of the group in every reachable state. -/
structure Inv (P : Program K A M) (S : K → Prop) (slot : K → SyncSlot)
    (srcs : K → List K) (s : State K A M) : Prop where
  once : ∀ k, S k → s.pool k + s.fired k = if due P srcs s k = 0 then 1 else 0
  single : ∀ k j, S k → s.rest k j ≠ [] → j = 0 ∧ s.fired k = 1
  slot_eq : ∀ k, S k → s.sync k =
    ⟨due P srcs s k + (if Rearmed P s k then (slot k).reset_ else 0), (slot k).reset_⟩
  dec_src : ∀ k k' j, S k → .decDep k ∈ s.rest k' j → k' ∈ srcs k
  dec_count : ∀ k k' j, S k → (s.rest k' j).count (.decDep k) ≤ 1
  reset_src : ∀ k k' j, S k → .resetCodelet k ∈ s.rest k' j →
    k' = k ∧ .resetCodelet k ∈ P.fire k
  reset_count : ∀ k j, S k → (s.rest k j).count (.resetCodelet k) ≤ 1

/-! ## Counting the sources that are left -/

/-- Dropping exactly one element of a duplicate-free list from a count. -/
private theorem countP_eq_succ {α : Type} {l : List α} {p q : α → Bool} {a : α}
    (hnd : l.Nodup) (ha : a ∈ l) (hp : p a = true) (hq : q a = false)
    (hne : ∀ b ∈ l, b ≠ a → p b = q b) : l.countP p = l.countP q + 1 := by
  induction l with
  | nil => exact absurd ha (by simp)
  | cons b l ih =>
    obtain ⟨hb, hnd'⟩ := List.nodup_cons.mp hnd
    rcases List.mem_cons.mp ha with rfl | ha'
    · have htail : l.countP p = l.countP q := by
        apply List.countP_congr
        intro c hc
        rw [hne c (List.mem_cons_of_mem _ hc) (fun he => hb (he ▸ hc))]
      rw [List.countP_cons, List.countP_cons, hp, hq, htail]
      simp
    · have hba : b ≠ a := fun he => hb (he ▸ ha')
      rw [List.countP_cons, List.countP_cons, hne b (List.mem_cons_self ..) hba,
        ih hnd' ha' (fun c hc => hne c (List.mem_cons_of_mem _ hc))]
      omega

theorem due_congr {P : Program K A M} {srcs : K → List K} {s t : State K A M} {k : K}
    (h : ∀ k' ∈ srcs k, (.decDep k ∈ todo P t k' ↔ .decDep k ∈ todo P s k')) :
    due P srcs t k = due P srcs s k := by
  apply List.countP_congr
  intro k' hk'
  simp only [decide_eq_true_eq]
  exact h k' hk'

/-- A source is still due exactly when the count is positive. -/
theorem due_eq_zero_iff {P : Program K A M} {srcs : K → List K} {s : State K A M} {k : K} :
    due P srcs s k = 0 ↔ ∀ k' ∈ srcs k, .decDep k ∉ todo P s k' := by
  simp [due]

/-! ## The invariant along a run -/

section Run

variable {P : Program K A M} {S : K → Prop} {slot : K → SyncSlot} {srcs : K → List K}
  {s t : State K A M}

theorem Inv.fired_le_one (h : Inv P S slot srcs s) {k : K} (hk : S k) :
    s.pool k + s.fired k ≤ 1 := by
  rw [h.once k hk]
  split <;> omega

/-- A running member is in its first firing. -/
theorem Inv.todo_of_rest (h : Inv P S slot srcs s) {k : K} {j : Nat} {o : Op K A}
    {os : List (Op K A)} (hk : S k) (hrest : s.rest k j = o :: os) :
    j = 0 ∧ s.fired k = 1 ∧ todo P s k = o :: os := by
  obtain ⟨rfl, hf⟩ := h.single k j hk (by rw [hrest]; simp)
  refine ⟨rfl, hf, ?_⟩
  rw [todo, if_neg (by omega), hrest]

/-- A started member is owed nothing and has lost no signal. -/
theorem Inv.due_of_started (h : Inv P S slot srcs s) {k : K} (hk : S k)
    (hstart : 0 < s.pool k + s.fired k) : due P srcs s k = 0 := by
  by_contra hne
  rw [h.once k hk, if_neg hne] at hstart
  omega

/-- A scheduled member that has not started has got every signal and has not rearmed. -/
theorem Inv.ready_of_pool (h : Inv P S slot srcs s) {k : K} (hk : S k) (hpool : 0 < s.pool k) :
    (s.sync k).ready = true := by
  have hdue := h.due_of_started hk (by omega)
  have hone := h.fired_le_one hk
  have hfired : s.fired k = 0 := by omega
  have hnot : ¬Rearmed P s k := by
    rintro ⟨hmem, hgone⟩
    unfold todo at hgone
    rw [if_pos hfired] at hgone
    exact hgone hmem
  rw [h.slot_eq k hk, hdue, if_neg hnot]
  rfl

/-- `k` starts only after each of its sources has executed its `decDep k`. -/
theorem Inv.source_done (h : Inv P S slot srcs s) (hP : OneShot P S slot srcs) (k k' : K)
    (hk : S k) (hstart : 0 < s.pool k + s.fired k) (hk' : k' ∈ srcs k) :
    s.fired k' = 1 ∧ .decDep k ∉ s.rest k' 0 := by
  have hno := due_eq_zero_iff.mp (h.due_of_started hk hstart) k' hk'
  obtain ⟨hS', hmem⟩ := hP.srcs_mem k k' hk hk'
  have hle := h.fired_le_one hS'
  by_cases hf : s.fired k' = 0
  · rw [todo, if_pos hf] at hno
    exact absurd hmem hno
  · rw [todo, if_neg hf] at hno
    exact ⟨by omega, hno⟩

/-- A signal about to be sent to a member finds its counter positive: the sender
is one of the sources still counted. -/
theorem Inv.due_pos (h : Inv P S slot srcs s) (hP : OneShot P S slot srcs) {k d : K}
    {j : Nat} {os : List (Op K A)} (hd : S d) (hrest : s.rest k j = .decDep d :: os) :
    0 < due P srcs s d := by
  have hsrc := h.dec_src d k j hd (by rw [hrest]; simp)
  obtain ⟨-, -, htodo⟩ := h.todo_of_rest (hP.srcs_mem d k hd hsrc).1 hrest
  rw [Nat.pos_iff_ne_zero]
  intro hz
  exact due_eq_zero_iff.mp hz k hsrc (by rw [htodo]; simp)

theorem Inv.dec_pos (h : Inv P S slot srcs s) (hP : OneShot P S slot srcs) {k d : K}
    {j : Nat} {os : List (Op K A)} (hd : S d) (hrest : s.rest k j = .decDep d :: os) :
    (s.sync d).counter_ ≠ 0 := by
  have := h.due_pos hP hd hrest
  rw [h.slot_eq d hd]
  show due P srcs s d + _ ≠ 0
  omega

theorem Inv.reset_zero (h : Inv P S slot srcs s) {k d : K} {j : Nat} {os : List (Op K A)}
    (hd : S d) (hrest : s.rest k j = .resetCodelet d :: os) :
    (s.sync d).counter_ = 0 := by
  obtain ⟨rfl, -⟩ := h.reset_src d k j hd (by rw [hrest]; simp)
  obtain ⟨-, hf, htodo⟩ := h.todo_of_rest hd hrest
  have hdue := h.due_of_started hd (by omega)
  have hre : ¬Rearmed P s k := fun hre => hre.2 (by rw [htodo]; simp)
  rw [h.slot_eq k hd, hdue, if_neg hre]

/-- Nothing has fired: every source is due. -/
theorem Inv.init (hP : OneShot P S slot srcs) {pool : K → Nat} {m : M}
    (hpool : ∀ k, S k → pool k = if (slot k).counter_ = 0 then 1 else 0) :
    Inv P S slot srcs (State.start slot pool m) := by
  have htodo : ∀ k, todo P (State.start slot pool m) k = P.fire k := fun k => rfl
  have hdue : ∀ k, S k → due P srcs (State.start slot pool m) k = (slot k).counter_ := by
    intro k hk
    rw [hP.counter k hk]
    apply List.countP_eq_length.mpr
    intro k' hk'
    rw [htodo, decide_eq_true_eq]
    exact (hP.srcs_mem k k' hk hk').2
  have hre : ∀ k, ¬Rearmed P (State.start slot pool m) k := fun k hre => hre.2 hre.1
  refine ⟨?_, ?_, ?_, ?_, ?_, ?_, ?_⟩
  · intro k hk
    rw [hdue k hk]
    exact hpool k hk
  · intro k j _ hne
    exact absurd rfl hne
  · intro k hk
    rw [hdue k hk, if_neg (hre k)]
    rfl
  all_goals simp

/-- Firing a member keeps everybody's remaining operations. -/
private theorem todo_begin (h : Inv P S slot srcs s) {k : K} (hpool : 0 < s.pool k)
    {k' : K} (hk' : S k') : todo P (s.begin k (P.fire k)) k' = todo P s k' := by
  by_cases he : k' = k
  · subst he
    have hf : s.fired k' = 0 := by
      have := h.fired_le_one hk'
      omega
    rw [todo, todo, State.begin_fired, if_pos rfl, if_neg (by omega), if_pos hf,
      State.begin_rest, hf, if_pos ⟨rfl, rfl⟩]
  · simp only [todo, State.begin_fired, State.begin_rest, he, false_and, if_false]

/-- An operation of the firing `(k, j)` leaves the remaining operations of every
other member alone. -/
private theorem todo_ne (h : Inv P S slot srcs s) {k : K} {j : Nat} {o : Op K A}
    {os l : List (Op K A)} (hrest : s.rest k j = o :: os) {k' : K} (hk' : S k')
    (hfired : t.fired = s.fired) (hr : t.rest = (s.setRest k j l).rest) :
    todo P t k' = if k' = k then l else todo P s k' := by
  by_cases he : k' = k
  · subst he
    obtain ⟨rfl, hf, -⟩ := h.todo_of_rest hk' hrest
    rw [todo, hfired, if_neg (by omega), hr, State.setRest_rest_self, if_pos rfl]
  · rw [todo, todo, hfired, hr, State.setRest_rest_ne _ _ _ _ _ _ (fun hc => he hc.1), if_neg he]

/-- Starting a codelet keeps the invariant. -/
private theorem Inv.fire (h : Inv P S slot srcs s) (hP : OneShot P S slot srcs) {k : K}
    (hpool : 0 < s.pool k) : Inv P S slot srcs (s.begin k (P.fire k)) := by
  have htodo := fun k' (hk' : S k') => todo_begin (k := k) h hpool hk'
  have hdue : ∀ d, S d → due P srcs (s.begin k (P.fire k)) d = due P srcs s d := by
    intro d hd
    apply due_congr
    intro k' hk'
    rw [htodo k' (hP.srcs_mem d k' hd hk').1]
  have hrest : ∀ k' j, (s.begin k (P.fire k)).rest k' j = P.fire k ∧ k' = k ∨
      (s.begin k (P.fire k)).rest k' j = s.rest k' j := by
    intro k' j
    rw [State.begin_rest]
    split
    next hc => exact Or.inl ⟨rfl, hc.1⟩
    next => exact Or.inr rfl
  refine ⟨?_, ?_, ?_, ?_, ?_, ?_, ?_⟩
  · intro d hd
    rw [hdue d hd, ← h.once d hd, State.begin_pool, State.begin_fired]
    split
    next he =>
      subst he
      omega
    next => rfl
  · intro d j hd hne
    rw [State.begin_rest] at hne
    rw [State.begin_fired]
    by_cases he : d = k
    · subst he
      have hle := h.fired_le_one hd
      rw [if_pos rfl]
      by_cases hj : j = s.fired d
      · exact ⟨by omega, by omega⟩
      · rw [if_neg (fun hc => hj hc.2)] at hne
        have := (h.single d j hd hne).2
        omega
    · rw [if_neg (fun hc => he hc.1)] at hne
      rw [if_neg he]
      exact h.single d j hd hne
  · intro d hd
    have hre : Rearmed P (s.begin k (P.fire k)) d ↔ Rearmed P s d := by
      rw [Rearmed, Rearmed, htodo d hd]
    rw [State.begin_sync, hdue d hd, h.slot_eq d hd]
    simp only [hre]
  · intro d k' j hd hmem
    rcases hrest k' j with ⟨he, rfl⟩ | he
    · rw [he] at hmem
      exact hP.dec_src d k' hd hmem
    · rw [he] at hmem
      exact h.dec_src d k' j hd hmem
  · intro d k' j hd
    rcases hrest k' j with ⟨he, -⟩ | he
    · rw [he]
      exact hP.dec_once d k hd
    · rw [he]
      exact h.dec_count d k' j hd
  · intro d k' j hd hmem
    rcases hrest k' j with ⟨he, rfl⟩ | he
    · rw [he] at hmem
      obtain rfl := hP.reset_own d k' hd hmem
      exact ⟨rfl, hmem⟩
    · rw [he] at hmem
      exact h.reset_src d k' j hd hmem
  · intro d j hd
    rcases hrest d j with ⟨he, rfl⟩ | he
    · rw [he]
      exact hP.reset_once d hd
    · rw [he]
      exact h.reset_count d j hd

/-- The clauses about what is left of the bodies survive any operation that
leaves no more signals behind than it found. -/
private theorem Inv.bodies (h : Inv P S slot srcs s) {k : K} {j : Nat} {o : Op K A}
    {os l : List (Op K A)} (hrest : s.rest k j = o :: os)
    (hfired : t.fired = s.fired) (hr : t.rest = (s.setRest k j l).rest)
    (hdec : ∀ d, S d → l.count (.decDep d) ≤ (o :: os).count (.decDep d))
    (hreset : ∀ d, S d → l.count (.resetCodelet d) ≤ (o :: os).count (.resetCodelet d)) :
    (∀ d i, S d → t.rest d i ≠ [] → i = 0 ∧ t.fired d = 1) ∧
    (∀ d k' i, S d → .decDep d ∈ t.rest k' i → k' ∈ srcs d) ∧
    (∀ d k' i, S d → (t.rest k' i).count (.decDep d) ≤ 1) ∧
    (∀ d k' i, S d → .resetCodelet d ∈ t.rest k' i → k' = d ∧ .resetCodelet d ∈ P.fire d) ∧
    (∀ d i, S d → (t.rest d i).count (.resetCodelet d) ≤ 1) := by
  have hcase : ∀ k' i, t.rest k' i = l ∧ k' = k ∧ i = j ∨ t.rest k' i = s.rest k' i := by
    intro k' i
    rw [hr, State.setRest_rest]
    split
    next hc => exact Or.inl ⟨rfl, hc⟩
    next => exact Or.inr rfl
  have hmem : ∀ (x : Op K A), l.count x ≤ (o :: os).count x → x ∈ l → x ∈ s.rest k j := by
    intro x hx hin
    rw [hrest]
    exact List.count_pos_iff.mp (Nat.lt_of_lt_of_le (List.count_pos_iff.mpr hin) hx)
  refine ⟨?_, ?_, ?_, ?_, ?_⟩
  · intro d i hd hne
    rw [hfired]
    rcases hcase d i with ⟨-, rfl, rfl⟩ | he
    · exact h.single d i hd (by rw [hrest]; simp)
    · rw [he] at hne
      exact h.single d i hd hne
  · intro d k' i hd hin
    rcases hcase k' i with ⟨he, rfl, rfl⟩ | he
    · rw [he] at hin
      exact h.dec_src d k' i hd (hmem _ (hdec d hd) hin)
    · rw [he] at hin
      exact h.dec_src d k' i hd hin
  · intro d k' i hd
    rcases hcase k' i with ⟨he, rfl, rfl⟩ | he
    · rw [he]
      have := h.dec_count d k' i hd
      rw [hrest] at this
      exact Nat.le_trans (hdec d hd) this
    · rw [he]
      exact h.dec_count d k' i hd
  · intro d k' i hd hin
    rcases hcase k' i with ⟨he, rfl, rfl⟩ | he
    · rw [he] at hin
      exact h.reset_src d k' i hd (hmem _ (hreset d hd) hin)
    · rw [he] at hin
      exact h.reset_src d k' i hd hin
  · intro d i hd
    rcases hcase d i with ⟨he, rfl, rfl⟩ | he
    · rw [he]
      have := h.reset_count d i hd
      rw [hrest] at this
      exact Nat.le_trans (hreset d hd) this
    · rw [he]
      exact h.reset_count d i hd

/-- Sending a signal keeps the invariant: the sender leaves the count, and the
last one to leave schedules the codelet. -/
private theorem Inv.decDep (h : Inv P S slot srcs s) (hP : OneShot P S slot srcs) {k d : K}
    {j : Nat} {os : List (Op K A)} (hrest : s.rest k j = .decDep d :: os) :
    Inv P S slot srcs ((s.setRest k j os).decDep d) := by
  have hb := h.bodies (t := (s.setRest k j os).decDep d) (l := os) hrest rfl rfl
    (fun e _ => by rw [List.count_cons]; omega) (fun e _ => by rw [List.count_cons]; omega)
  have htodo := fun k' (hk' : S k') =>
    todo_ne (t := (s.setRest k j os).decDep d) (l := os) h hrest hk' rfl rfl
  -- signals to other members are not affected
  have hdue_ne : ∀ e, S e → e ≠ d →
      due P srcs ((s.setRest k j os).decDep d) e = due P srcs s e := by
    intro e he hne
    apply due_congr
    intro k' hk'
    have hS' := (hP.srcs_mem e k' he hk').1
    rw [htodo k' hS']
    split
    next hkk =>
      subst hkk
      rw [(h.todo_of_rest hS' hrest).2.2]
      simp [hne]
    next => rfl
  have hre : ∀ e, S e → (Rearmed P ((s.setRest k j os).decDep d) e ↔ Rearmed P s e) := by
    intro e he
    rw [Rearmed, Rearmed, htodo e he]
    split
    next hkk =>
      subst hkk
      rw [(h.todo_of_rest he hrest).2.2]
      simp
    next => rfl
  have hdue_d : S d → due P srcs s d = due P srcs ((s.setRest k j os).decDep d) d + 1 := by
    intro hd
    have hsrc := h.dec_src d k j hd (by rw [hrest]; simp)
    have hSk := (hP.srcs_mem d k hd hsrc).1
    refine countP_eq_succ (hP.srcs_nodup d hd) hsrc ?_ ?_ ?_
    · rw [decide_eq_true_eq, (h.todo_of_rest hSk hrest).2.2]
      simp
    · rw [decide_eq_false_iff_not, htodo k hSk, if_pos rfl]
      have := h.dec_count d k j hd
      rw [hrest, List.count_cons_self] at this
      exact List.count_eq_zero.mp (by omega)
    · intro k' hk' hne
      rw [htodo k' (hP.srcs_mem d k' hd hk').1, if_neg hne]
  refine ⟨?_, hb.1, ?_, hb.2.1, hb.2.2.1, hb.2.2.2.1, hb.2.2.2.2⟩
  · intro e he
    rw [State.decDep_pool]
    by_cases hed : e = d
    · subst hed
      have hpos := h.due_pos hP he hrest
      have honce := h.once e he
      rw [if_neg (by omega)] at honce
      have hnre : ¬Rearmed P s e := by
        intro hre
        rw [Rearmed, todo, if_pos (by omega)] at hre
        exact hre.2 hre.1
      have hslot := h.slot_eq e he
      rw [if_neg hnre] at hslot
      have := hdue_d he
      simp only [State.setRest_sync, State.setRest_pool, State.decDep_fired,
        State.setRest_fired, hslot, true_and, Nat.add_zero]
      split <;> split <;> omega
    · rw [if_neg (fun hc => hed hc.1), hdue_ne e he hed]
      exact h.once e he
  · intro e he
    rw [State.decDep_sync]
    by_cases hed : e = d
    · subst hed
      have hd := hdue_d he
      have hslot := h.slot_eq e he
      rw [if_pos rfl, State.setRest_sync, hslot, SyncSlot.decCounter]
      simp only [hre e he]
      rw [fetchSub_of_pos (by omega), hd]
      congr 1
      omega
    · rw [if_neg hed, State.setRest_sync, hdue_ne e he hed, h.slot_eq e he]
      simp only [hre e he]

/-- Re-arming keeps the invariant: it happens after the codelet has started, so
nothing is due. -/
private theorem Inv.resetCodelet (h : Inv P S slot srcs s) (hP : OneShot P S slot srcs)
    {k d : K} {j : Nat} {os : List (Op K A)} (hrest : s.rest k j = .resetCodelet d :: os) :
    Inv P S slot srcs ((s.setRest k j os).resetCodelet d) := by
  have hb := h.bodies (t := (s.setRest k j os).resetCodelet d) (l := os) hrest rfl rfl
    (fun e _ => by rw [List.count_cons]; omega) (fun e _ => by rw [List.count_cons]; omega)
  have htodo := fun k' (hk' : S k') =>
    todo_ne (t := (s.setRest k j os).resetCodelet d) (l := os) h hrest hk' rfl rfl
  have hdue : ∀ e, S e → due P srcs ((s.setRest k j os).resetCodelet d) e = due P srcs s e := by
    intro e he
    apply due_congr
    intro k' hk'
    have hS' := (hP.srcs_mem e k' he hk').1
    rw [htodo k' hS']
    split
    next hkk =>
      subst hkk
      rw [(h.todo_of_rest hS' hrest).2.2]
      simp
    next => rfl
  refine ⟨?_, hb.1, ?_, hb.2.1, hb.2.2.1, hb.2.2.2.1, hb.2.2.2.2⟩
  · intro e he
    rw [hdue e he]
    exact h.once e he
  · intro e he
    rw [State.resetCodelet_sync, hdue e he]
    by_cases hed : e = d
    · subst hed
      obtain ⟨rfl, hfire⟩ := h.reset_src e k j he (by rw [hrest]; simp)
      obtain ⟨rfl, hf, htd⟩ := h.todo_of_rest he hrest
      have hre : Rearmed P ((s.setRest k 0 os).resetCodelet k) k := by
        refine ⟨hfire, ?_⟩
        rw [htodo k he, if_pos rfl]
        have := h.reset_count k 0 he
        rw [hrest, List.count_cons_self] at this
        exact List.count_eq_zero.mp (by omega)
      rw [if_pos rfl, if_pos hre, h.due_of_started he (by omega), State.setRest_sync,
        h.slot_eq k he, SyncSlot.resetCounter, Nat.zero_add]
    · have hre : Rearmed P ((s.setRest k j os).resetCodelet d) e ↔ Rearmed P s e := by
        rw [Rearmed, Rearmed, htodo e he]
        split
        next hkk =>
          subst hkk
          rw [(h.todo_of_rest he hrest).2.2]
          simp [hed]
        next => rfl
      rw [if_neg hed, State.setRest_sync, h.slot_eq e he]
      simp only [hre]

/-- An action keeps the invariant: what it unfolds into sends no signal to the
group. -/
private theorem Inv.act (h : Inv P S slot srcs s) (hP : OneShot P S slot srcs) {k : K}
    {j : Nat} {a : A} {os os' : List (Op K A)} {m : M}
    (hrest : s.rest k j = .act a :: os) (hexec : P.exec a s.mem = some (m, os')) :
    Inv P S slot srcs { s.setRest k j (os' ++ os) with mem := m } := by
  have hquiet := fun e he => hP.quiet a s.mem m os' e hexec he
  have hb := h.bodies (t := { s.setRest k j (os' ++ os) with mem := m }) (l := os' ++ os)
    hrest rfl rfl
    (fun e he => by
      rw [List.count_append, List.count_eq_zero.mpr (hquiet e he).1, List.count_cons]; omega)
    (fun e he => by
      rw [List.count_append, List.count_eq_zero.mpr (hquiet e he).2, List.count_cons]; omega)
  have htodo := fun k' (hk' : S k') =>
    todo_ne (t := { s.setRest k j (os' ++ os) with mem := m }) (l := os' ++ os)
      h hrest hk' rfl rfl
  have hdue : ∀ e, S e →
      due P srcs { s.setRest k j (os' ++ os) with mem := m } e = due P srcs s e := by
    intro e he
    apply due_congr
    intro k' hk'
    have hS' := (hP.srcs_mem e k' he hk').1
    rw [htodo k' hS']
    split
    next hkk =>
      subst hkk
      rw [(h.todo_of_rest hS' hrest).2.2]
      simp [(hquiet e he).1]
    next => rfl
  refine ⟨?_, hb.1, ?_, hb.2.1, hb.2.2.1, hb.2.2.2.1, hb.2.2.2.2⟩
  · intro e he
    rw [hdue e he]
    exact h.once e he
  · intro e he
    have hre : Rearmed P { s.setRest k j (os' ++ os) with mem := m } e ↔ Rearmed P s e := by
      rw [Rearmed, Rearmed, htodo e he]
      split
      next hkk =>
        subst hkk
        rw [(h.todo_of_rest he hrest).2.2]
        simp [(hquiet e he).2]
      next => rfl
    rw [hdue e he]
    simp only [hre]
    exact h.slot_eq e he

/-- **One step keeps the invariant.** -/
theorem Inv.step (h : Inv P S slot srcs s) (hP : OneShot P S slot srcs) {l : Label K}
    (hl : P.step s l = some t) : Inv P S slot srcs t := by
  cases step_inv hl with
  | fire k hpool => exact h.fire hP hpool
  | decDep k j d os hrest => exact h.decDep hP hrest
  | resetCodelet k j d os hrest => exact h.resetCodelet hP hrest
  | act k j a os os' m hrest hexec => exact h.act hP hrest hexec

/-- **The group's invariant holds in every reachable state.** -/
theorem Inv.reachable (hP : OneShot P S slot srcs) {pool : K → Nat} {m : M}
    (hpool : ∀ k, S k → pool k = if (slot k).counter_ = 0 then 1 else 0)
    (hs : Transition.Reachable P.step (State.start slot pool m) s) : Inv P S slot srcs s :=
  hs.invariant (Inv P S slot srcs) (Inv.init hP hpool) fun _ _ _ _ hi hl => hi.step hP hl

/-- Once no member is scheduled or running, all of them have fired. -/
theorem Inv.all_fired (h : Inv P S slot srcs s) (hP : OneShot P S slot srcs) (rank : K → Nat)
    (hrank : ∀ k k', S k → k' ∈ srcs k → rank k' < rank k)
    (hpool : ∀ k, S k → s.pool k = 0) (hrest : ∀ k, S k → s.rest k 0 = []) :
    ∀ k, S k → s.fired k = 1 := by
  have main : ∀ r k, rank k < r → S k → s.fired k = 1 := by
    intro r
    induction r with
    | zero => intro k hk; exact absurd hk (Nat.not_lt_zero _)
    | succ r ih =>
      intro k hk hS
      have hdue : due P srcs s k = 0 := by
        rw [due_eq_zero_iff]
        intro k' hk'
        have hS' := (hP.srcs_mem k k' hS hk').1
        have := ih k' (by have := hrank k k' hS hk'; omega) hS'
        rw [todo, if_neg (by omega), hrest k' hS']
        simp
      have := h.once k hS
      rw [if_pos hdue, hpool k hS] at this
      omega
  intro k hS
  exact main (rank k + 1) k (Nat.lt_succ_self _) hS

end Run

end OneShot

end Darts
