import Mathlib.Tactic.Simps.Basic
import Darts.CannonDouble.Program
import Darts.Lib.Suffix
import Darts.Threading.Rounds

/-!
# The double-buffered `cannonTP` follows the round protocol

`view` reads the state of the round protocol off a state of the program: the
loop codelet with the compute codelets as workers and the copy-back codelets as
collectors. `Ctl.sim` says that every step of the program is a step of the
protocol, or invisible to it; `Ctl` puts the protocol's invariant together with
what the protocol does not see: which suffix of its body each codelet has left,
and that only the latest firing of a codelet has anything left at all.
-/

namespace Darts.CannonDouble

open Cannon Transition

variable {R : Type} {n p : Nat}

/-- What is left of the latest firing of `k`. -/
def crest (s : State (Cod n) (Act n) (Frame R n p)) (k : Cod n) : List (Op (Cod n) (Act n)) :=
  s.rest k (s.fired k - 1)

/-- What is left to do of a codelet that fires once. -/
def todo (s : State (Cod n) (Act n) (Frame R n p)) (k : Cod n) : List (Op (Cod n) (Act n)) :=
  if s.fired k = 0 then fireBody k else crest s k

/-- The round protocol in a state of the program. -/
@[simps] def view (s : State (Cod n) (Act n) (Frame R n p)) : Rounds.State (Tile n) where
  counter := (s.sync .loop).counter_
  pool := s.pool .loop
  fired := s.fired .loop
  toReset := (crest s .loop).count (.resetCodelet .loop)
  toTest := (crest s .loop).count (.act .test)
  toCount := (crest s .loop).count (.act .incr)
  curIterations := s.mem.curIterations
  first i := (todo s (.skew i)).count (.decDep .loop)
  toRelease i := (crest s .loop).count (.decDep (.compute i))
  wcounter i := (s.sync (.compute i)).counter_
  wpool i := s.pool (.compute i)
  wfired i := s.fired (.compute i)
  toRearm i := (crest s (.compute i)).count (.resetCodelet (.compute i))
  toSignal i := (crest s (.compute i)).count (.decDep .loop)
  toFinish i := (crest s .loop).count (.decDep (.copyC i))
  ccounter i := (s.sync (.copyC i)).counter_
  cpool i := s.pool (.copyC i)
  cfired i := s.fired (.copyC i)
  toEnd i := (todo s (.copyC i)).count (.decDep .endCodelet)
  ecounter := (s.sync .endCodelet).counter_
  epool := s.pool .endCodelet
  efired := s.fired .endCodelet

/-- The control part of the invariant. -/
structure Ctl [CommRing R] (blas : Blas R) (s : State (Cod n) (Act n) (Frame R n p)) : Prop where
  early : OneShot.Inv (cannonTP blas n p) Early (slot n) sources s
  single : ∀ k j, s.rest k j ≠ [] → j + 1 = s.fired k
  suffix : ∀ k, k ≠ .loop → crest s k <:+ fireBody k
  loop_suffix : crest s .loop <:+ fireBody .loop ∨ crest s .loop <:+ roundBody n ∨
    crest s .loop <:+ finishBody n
  resets : ∀ k, (s.sync k).reset_ = (slot n k).reset_
  rounds : Rounds.Inv n (view s)

/-! ## What one step does to the bodies -/

section Bodies

variable {s t : State (Cod n) (Act n) (Frame R n p)}

theorem crest_op (hsingle : ∀ k j, s.rest k j ≠ [] → j + 1 = s.fired k) {k : Cod n} {j : Nat}
    {o : Op (Cod n) (Act n)} {os os' : List (Op (Cod n) (Act n))} (hrest : s.rest k j = o :: os)
    (hfired : t.fired = s.fired) (hr : t.rest = (s.setRest k j os').rest) :
    crest s k = o :: os ∧ 0 < s.fired k ∧ ∀ k', crest t k' = if k' = k then os' else crest s k' := by
  have hj := hsingle k j (by rw [hrest]; simp)
  have hj' : s.fired k - 1 = j := by omega
  refine ⟨by rw [crest, hj', hrest], by omega, fun k' => ?_⟩
  rw [crest, hfired, hr, State.setRest_rest]
  by_cases hk : k' = k
  · subst hk
    rw [if_pos ⟨rfl, hj'⟩, if_pos rfl]
  · rw [if_neg (fun hc => hk hc.1), if_neg hk, crest]

theorem todo_op (hsingle : ∀ k j, s.rest k j ≠ [] → j + 1 = s.fired k) {k : Cod n} {j : Nat}
    {o : Op (Cod n) (Act n)} {os os' : List (Op (Cod n) (Act n))} (hrest : s.rest k j = o :: os)
    (hfired : t.fired = s.fired) (hr : t.rest = (s.setRest k j os').rest) :
    todo s k = o :: os ∧ ∀ k', todo t k' = if k' = k then os' else todo s k' := by
  obtain ⟨hs, hpos, ht⟩ := crest_op hsingle hrest hfired hr
  refine ⟨by rw [todo, if_neg (by omega), hs], fun k' => ?_⟩
  rw [todo, hfired, ht]
  by_cases hk : k' = k
  · subst hk
    rw [if_neg (by omega), if_pos rfl, if_pos rfl]
  · rw [if_neg hk, if_neg hk, todo]

theorem crest_begin (k k' : Cod n) : crest (s.begin k (fireBody k)) k' =
    if k' = k then fireBody k else crest s k' := by
  rw [crest, State.begin_fired, State.begin_rest]
  by_cases hk : k' = k
  · subst hk
    simp
  · simp [hk, crest]

theorem todo_begin {k : Cod n} (k' : Cod n) (hf : k' = k → s.fired k = 0) :
    todo (s.begin k (fireBody k)) k' = todo s k' := by
  rw [todo, todo, crest_begin, State.begin_fired]
  by_cases hk : k' = k
  · subst hk
    simp [hf rfl]
  · simp [hk]

theorem roundBody_eq (n : Nat) : roundBody n =
    ((List.finRange (n * n)).map (fun i => .act (.swap i)) ++ [.act .incr]) ++
      (List.finRange (n * n)).map fun i => .decDep (.compute i) := by
  rw [roundBody, List.append_cons]

end Bodies

/-! ## Counting in the branches of the loop codelet -/

theorem count_map {f : Tile n → Op (Cod n) (Act n)} (hf : Function.Injective f)
    (i : Tile n) : ((List.finRange (n * n)).map f).count (f i) = 1 :=
  List.count_eq_one_of_mem ((List.nodup_finRange _).map hf)
    (List.mem_map_of_mem (List.mem_finRange i))

theorem count_map_of_ne {f : Tile n → Op (Cod n) (Act n)} {o : Op (Cod n) (Act n)}
    (hf : ∀ i, f i ≠ o) : ((List.finRange (n * n)).map f).count o = 0 := by
  rw [List.count_eq_zero]
  intro hmem
  obtain ⟨i, -, hi⟩ := List.mem_map.mp hmem
  exact hf i hi

theorem count_incr_round : (roundBody n).count (.act .incr) = 1 := by
  rw [roundBody, List.count_append, List.count_cons, count_map_of_ne (by simp),
    count_map_of_ne (by simp)]
  simp

theorem count_swap_round (i : Tile n) : (roundBody n).count (.act (.swap i)) = 1 := by
  have hone : ((List.finRange (n * n)).map fun j => Op.act (.swap j)).count
      (.act (.swap i) : Op (Cod n) (Act n)) = 1 :=
    count_map (f := fun j => .act (.swap j)) (fun i j hij => by simpa using hij) i
  rw [roundBody, List.count_append, List.count_cons, hone, count_map_of_ne (by simp)]
  simp

theorem count_release_round (i : Tile n) : (roundBody n).count (.decDep (.compute i)) = 1 := by
  have hone : ((List.finRange (n * n)).map fun j => Op.decDep (.compute j)).count
      (.decDep (.compute i) : Op (Cod n) (Act n)) = 1 :=
    count_map (f := fun j => .decDep (.compute j)) (fun i j hij => by simpa using hij) i
  rw [roundBody, List.count_append, List.count_cons, count_map_of_ne (by simp), hone]
  simp

theorem count_round_of_ne {o : Op (Cod n) (Act n)} (hswap : ∀ i, o ≠ .act (.swap i))
    (hincr : o ≠ .act .incr) (hrel : ∀ i, o ≠ .decDep (.compute i)) :
    (roundBody n).count o = 0 := by
  rw [roundBody, List.count_append, List.count_cons, count_map_of_ne fun i => (hswap i).symm,
    count_map_of_ne fun i => (hrel i).symm]
  simp [hincr.symm]

theorem count_finish (i : Tile n) : (finishBody n).count (.decDep (.copyC i)) = 1 :=
  count_map (f := fun i => .decDep (.copyC i)) (fun i j hij => by simpa using hij) i

theorem count_finish_of_ne {o : Op (Cod n) (Act n)} (ho : ∀ i, o ≠ .decDep (.copyC i)) :
    (finishBody n).count o = 0 :=
  count_map_of_ne fun i => (ho i).symm

/-! ## The simulation -/

section Sim

variable [NeZero n] [CommRing R] {blas : Blas R} {s t : State (Cod n) (Act n) (Frame R n p)}

instance : Nonempty (Tile n) := ⟨⟨0, Nat.mul_pos (Nat.pos_of_neZero n) (Nat.pos_of_neZero n)⟩⟩

omit [NeZero n] in
/-- A firing that is not over still has its last signal to send. -/
theorem Ctl.compute_left (h : Ctl blas s) {i : Tile n} (hne : crest s (.compute i) ≠ []) :
    0 < (view s).toSignal i := by
  have hs : crest s (.compute i) <:+ [.resetCodelet (.compute i), .act (.multiply i),
      .act (.shift .A i), .act (.shift .B i)] ++ [.decDep .loop] := h.suffix (.compute i) (by simp)
  exact List.count_pos_iff.mpr (Suffix.last_mem _ _ hs hne)

/-- What is scheduled has finished its earlier firings. -/
theorem Ctl.idle (h : Ctl blas s) {k : Cod n} (hpool : 0 < s.pool k) : crest s k = [] := by
  have honce : s.fired k = 0 → crest s k = [] := by
    intro hf
    by_contra hne
    have := h.single k _ hne
    omega
  cases k with
  | copyA i =>
    have := h.early.fired_le_one (k := .copyA i) trivial
    exact honce (by omega)
  | copyB i =>
    have := h.early.fired_le_one (k := .copyB i) trivial
    exact honce (by omega)
  | skew i =>
    have := h.early.fired_le_one (k := .skew i) trivial
    exact honce (by omega)
  | copyC i =>
    have := h.rounds.ccounter_eq i
    simp only [view] at this
    exact honce (by omega)
  | endCodelet =>
    have := h.rounds.efired_le
    simp only [view] at this
    exact honce (by omega)
  | compute i =>
    by_contra hne
    have hleft := h.compute_left hne
    have hle := h.rounds.pend_le i
    have : 0 < (view s).wpool i := hpool
    simp only [Rounds.pend] at hle
    omega
  | loop =>
    obtain ⟨hpend, -, hone, hended, -⟩ := h.rounds.over (show 0 < (view s).pool + _ by
      show 0 < s.pool .loop + _
      omega)
    have htest : (view s).toTest = 0 := by
      have : 0 < (view s).pool := hpool
      omega
    by_contra hne
    have hfin : List.finRange (n * n) ≠ [] := by
      rw [Ne, List.finRange_eq_nil_iff]
      exact Nat.pos_iff_ne_zero.mp (Nat.mul_pos (Nat.pos_of_neZero n) (Nat.pos_of_neZero n))
    rcases h.loop_suffix with hs | hs | hs
    · have hs' : crest s .loop <:+ [.resetCodelet .loop] ++ [.act .test] := hs
      exact List.count_eq_zero.mp htest (Suffix.last_mem _ _ hs' hne)
    · rw [roundBody_eq] at hs
      obtain ⟨y, hy, hmem⟩ := Suffix.exists_mem hs hne (by simpa using hfin)
      obtain ⟨i, -, rfl⟩ := List.mem_map.mp hy
      have hrel : 0 < (view s).toRelease i := List.count_pos_iff.mpr hmem
      have := hpend i
      simp only [Rounds.pend] at this
      omega
    · obtain ⟨y, hmem⟩ := List.exists_mem_of_ne_nil _ hne
      obtain ⟨i, -, rfl⟩ := List.mem_map.mp (hs.subset hmem)
      have hrel : 0 < (view s).toFinish i := List.count_pos_iff.mpr hmem
      have := h.rounds.cfired_eq i
      omega

omit [NeZero n] in
/-- A codelet that fires once and is scheduled has not fired yet. -/
theorem Ctl.fired_zero (h : Ctl blas s) {k : Cod n} (hpool : 0 < s.pool k)
    (hk : ∀ i, k ≠ .compute i) (hloop : k ≠ .loop) : s.fired k = 0 := by
  cases k with
  | copyA i =>
    have := h.early.fired_le_one (k := .copyA i) trivial
    omega
  | copyB i =>
    have := h.early.fired_le_one (k := .copyB i) trivial
    omega
  | skew i =>
    have := h.early.fired_le_one (k := .skew i) trivial
    omega
  | copyC i =>
    have := h.rounds.ccounter_eq i
    simp only [view] at this
    omega
  | endCodelet =>
    have := h.rounds.efired_le
    simp only [view] at this
    omega
  | compute i => exact absurd rfl (hk i)
  | loop => exact absurd rfl hloop

/-- Starting a codelet. -/
private theorem Ctl.sim_fire (h : Ctl blas s) {k : Cod n} (hpool : 0 < s.pool k) :
    view (s.begin k (fireBody k)) = view s ∨
      Rounds.Step (n * n) n (view s) (view (s.begin k (fireBody k))) := by
  cases k with
  | copyA i =>
    left
    ext j <;> simp [crest_begin, todo, State.begin_pool, State.begin_fired]
  | copyB i =>
    left
    ext j <;> simp [crest_begin, todo, State.begin_pool, State.begin_fired]
  | skew i =>
    left
    have hf := h.fired_zero hpool (by simp) (by simp)
    have htodo := fun j => todo_begin (s := s) (k := .skew i) j fun _ => hf
    ext j <;> simp [crest_begin, htodo, State.begin_pool, State.begin_fired]
  | copyC i =>
    right
    have hf := h.fired_zero hpool (by simp) (by simp)
    have htodo := fun j => todo_begin (s := s) (k := .copyC i) j fun _ => hf
    convert Rounds.Step.collect (N := n * n) (n := n) (v := view s) i hpool using 1
    ext j <;> simp [crest_begin, htodo, State.begin_pool, State.begin_fired, Function.update_apply]
  | endCodelet =>
    right
    convert Rounds.Step.stop (N := n * n) (n := n) (v := view s) hpool using 1
    ext j <;> simp [crest_begin, todo, State.begin_pool, State.begin_fired]
  | compute i =>
    right
    convert Rounds.Step.start (N := n * n) (n := n) (v := view s) i hpool using 1
    ext j <;> simp [crest_begin, todo, State.begin_pool, State.begin_fired, Function.update_apply]
    all_goals by_cases hj : j = i <;> simp [hj, fireBody]
  | loop =>
    right
    have hnil := h.idle hpool
    convert Rounds.Step.fire (N := n * n) (n := n) (v := view s) hpool using 1
    ext j <;> simp [crest_begin, todo, State.begin_pool, State.begin_fired, hnil]
    all_goals simp [fireBody]

omit [NeZero n] in
/-- What follows a release in the body of the loop codelet are releases. -/
private theorem no_incr_of_release {i : Tile n} {os : List (Op (Cod n) (Act n))}
    (h : .decDep (.compute i) :: os <:+ roundBody n) :
    (Op.decDep (.compute i) :: os).count (.act .incr) = 0 := by
  rw [roundBody_eq] at h
  rw [List.count_eq_zero]
  rcases Suffix.append_cases h with hsuf | ⟨z, zs, hsuf, hl⟩
  · exact fun hmem => absurd (hsuf.subset hmem) (by simp)
  · obtain ⟨rfl, -⟩ := List.cons.inj hl
    exact absurd (hsuf.subset (List.mem_cons_self ..)) (by simp)

omit [NeZero n] in
/-- The signal is the last thing a compute codelet does. -/
private theorem no_rearm_of_signal {i : Tile n} {os : List (Op (Cod n) (Act n))}
    (h : .decDep .loop :: os <:+ fireBody (.compute i)) :
    (Op.decDep .loop :: os).count (.resetCodelet (.compute i)) = 0 := by
  rw [List.count_eq_zero]
  have hbody : fireBody (.compute i) = [.resetCodelet (.compute i), .act (.multiply i),
    .act (.shift .A i), .act (.shift .B i)] ++ [.decDep .loop] := rfl
  rw [hbody] at h
  rcases Suffix.append_cases h with hsuf | ⟨z, zs, hsuf, hl⟩
  · exact fun hmem => absurd (hsuf.subset hmem) (by simp)
  · obtain ⟨rfl, -⟩ := List.cons.inj hl
    exact absurd (hsuf.subset (List.mem_cons_self ..)) (by simp)

/-- Who signals whom. -/
inductive Sends : Cod n → Cod n → Prop
  | copyA (i : Tile n) : Sends (.copyA i) (.skew i)
  | copyB (i : Tile n) : Sends (.copyB i) (.skew i)
  | skew (i : Tile n) : Sends (.skew i) .loop
  | release (i : Tile n) : Sends .loop (.compute i)
  | compute (i : Tile n) : Sends (.compute i) .loop
  | finish (i : Tile n) : Sends .loop (.copyC i)
  | copyC (i : Tile n) : Sends (.copyC i) .endCodelet

omit [NeZero n] in
theorem Ctl.sends (h : Ctl blas s) {k d : Cod n} {os : List (Op (Cod n) (Act n))}
    (hcs : crest s k = .decDep d :: os) : Sends k d := by
  by_cases hloop : k = .loop
  · subst hloop
    rcases h.loop_suffix with hs | hs | hs <;> rw [hcs] at hs <;>
      have hmem := hs.subset (List.mem_cons_self ..)
    · simp [fireBody] at hmem
    · obtain ⟨i, rfl⟩ : ∃ i, d = .compute i := by simpa [roundBody, eq_comm] using hmem
      exact .release i
    · obtain ⟨i, rfl⟩ : ∃ i, d = .copyC i := by simpa [finishBody, eq_comm] using hmem
      exact .finish i
  · have hs := h.suffix k hloop
    rw [hcs] at hs
    have hmem := hs.subset (List.mem_cons_self ..)
    cases k <;> simp [fireBody] at hmem
    case copyA i => exact hmem ▸ .copyA i
    case copyB i => exact hmem ▸ .copyB i
    case skew i => exact hmem ▸ .skew i
    case compute i => exact hmem ▸ .compute i
    case copyC i => exact hmem ▸ .copyC i

omit [NeZero n] in
/-- Only the loop and compute codelets re-arm, each its own counter. -/
theorem Ctl.rearms (h : Ctl blas s) {k d : Cod n} {os : List (Op (Cod n) (Act n))}
    (hcs : crest s k = .resetCodelet d :: os) : d = k ∧ (k = .loop ∨ ∃ i, k = .compute i) := by
  by_cases hloop : k = .loop
  · subst hloop
    refine ⟨?_, Or.inl rfl⟩
    rcases h.loop_suffix with hs | hs | hs <;> rw [hcs] at hs <;>
      have hmem := hs.subset (List.mem_cons_self ..) <;>
      simp [fireBody, roundBody, finishBody] at hmem
    exact hmem
  · have hs := h.suffix k hloop
    rw [hcs] at hs
    have hmem := hs.subset (List.mem_cons_self ..)
    cases k <;> simp [fireBody] at hmem
    case compute i => exact ⟨hmem, Or.inr ⟨i, rfl⟩⟩
    case loop => exact absurd rfl hloop

omit [NeZero n] in
/-- A signal, a release. -/
private theorem Ctl.sim_decDep (h : Ctl blas s) {k d : Cod n} {j : Nat}
    {os : List (Op (Cod n) (Act n))} (hrest : s.rest k j = .decDep d :: os) :
    view ((s.setRest k j os).decDep d) = view s ∨
      Rounds.Step (n * n) n (view s) (view ((s.setRest k j os).decDep d)) := by
  obtain ⟨hcs, hpos, hct⟩ := crest_op (t := (s.setRest k j os).decDep d) h.single hrest rfl rfl
  obtain ⟨hts, htt⟩ := todo_op (t := (s.setRest k j os).decDep d) h.single hrest rfl rfl
  cases h.sends hcs with
  | copyA i | copyB i =>
    left
    ext l <;> simp [hct, htt, State.decDep_sync, State.decDep_pool]
  | skew i =>
    right
    have hfirst : 0 < (view s).first i := by simp [hts]
    convert Rounds.Step.first (N := n * n) (n := n) (v := view s) i hfirst using 1
    ext l <;> simp [hct, htt, hts, State.decDep_sync, State.decDep_pool, SyncSlot.decCounter,
      Function.update_apply, Rounds.State.signalled, Rounds.State.owing]
    all_goals grind
  | compute i =>
    right
    have hs := h.suffix (.compute i) (by simp)
    rw [hcs] at hs
    have hsig : 0 < (view s).toSignal i := by simp [hcs]
    convert Rounds.Step.signal (N := n * n) (n := n) (v := view s) i hsig
      (by simp only [view, hcs]; exact no_rearm_of_signal hs) using 1
    ext l <;> simp [hct, htt, hcs, State.decDep_sync, State.decDep_pool, SyncSlot.decCounter,
      Function.update_apply, Rounds.State.signalled, Rounds.State.owing]
    all_goals grind
  | release i =>
    right
    have hrel : 0 < (view s).toRelease i := by simp [hcs]
    have hcount : (view s).toCount = 0 := by
      simp only [view, hcs]
      rcases h.loop_suffix with hs | hs | hs <;> rw [hcs] at hs
      · have hmem := hs.subset (List.mem_cons_self ..)
        simp [fireBody] at hmem
      · exact no_incr_of_release hs
      · have hmem := hs.subset (List.mem_cons_self ..)
        simp [finishBody] at hmem
    convert Rounds.Step.release (N := n * n) (n := n) (v := view s) i hrel hcount using 1
    ext l <;> simp [hct, htt, hcs, State.decDep_sync, State.decDep_pool, SyncSlot.decCounter,
      Function.update_apply]
    all_goals grind
  | finish i =>
    right
    have hfin : 0 < (view s).toFinish i := by simp [hcs]
    convert Rounds.Step.finish (N := n * n) (n := n) (v := view s) i hfin using 1
    ext l <;> simp [hct, htt, hcs, State.decDep_sync, State.decDep_pool, SyncSlot.decCounter,
      Function.update_apply]
    all_goals grind
  | copyC i =>
    right
    have hend : 0 < (view s).toEnd i := by simp [hts]
    convert Rounds.Step.deliver (N := n * n) (n := n) (v := view s) i hend hpos using 1
    ext l <;> simp [hct, htt, hts, State.decDep_sync, State.decDep_pool, SyncSlot.decCounter,
      Function.update_apply]
    all_goals grind

omit [NeZero n] in
/-- Re-arming. -/
private theorem Ctl.sim_reset (h : Ctl blas s) {k d : Cod n} {j : Nat}
    {os : List (Op (Cod n) (Act n))} (hrest : s.rest k j = .resetCodelet d :: os) :
    Rounds.Step (n * n) n (view s) (view ((s.setRest k j os).resetCodelet d)) := by
  obtain ⟨hcs, hpos, hct⟩ := crest_op (t := (s.setRest k j os).resetCodelet d) h.single hrest rfl rfl
  obtain ⟨hts, htt⟩ := todo_op (t := (s.setRest k j os).resetCodelet d) h.single hrest rfl rfl
  have hreset := h.resets d
  obtain ⟨rfl, rfl | ⟨i, rfl⟩⟩ := h.rearms hcs
  · have hre : 0 < (view s).toReset := by simp [hcs]
    convert Rounds.Step.reset (N := n * n) (n := n) (v := view s) hre using 1
    ext l <;> simp [hct, htt, hcs, State.resetCodelet_sync, SyncSlot.resetCounter, hreset, slot]
  · have hre : 0 < (view s).toRearm i := by simp [hcs]
    convert Rounds.Step.rearm (N := n * n) (n := n) (v := view s) i hre using 1
    ext l <;> simp [hct, htt, hcs, State.resetCodelet_sync, SyncSlot.resetCounter, hreset, slot,
      Function.update_apply]
    all_goals grind

omit [NeZero n] [CommRing R] in
/-- Only `curIterations++` counts. -/
theorem exec_cur [CommRing R] {blas : Blas R} {a : Act n} {f f' : Frame R n p}
    {os : List (Op (Cod n) (Act n))} (h : exec blas a f = some (f', os)) :
    f'.curIterations = f.curIterations + if a = .incr then 1 else 0 := by
  cases a <;> obtain ⟨rfl, -⟩ := Prod.mk.inj (Option.some.inj h) <;> simp [Frame.setTile]

omit [NeZero n] in
private theorem Ctl.test_owner (h : Ctl blas s) {k : Cod n} {os : List (Op (Cod n) (Act n))}
    (hcs : crest s k = .act .test :: os) : k = .loop := by
  by_contra hloop
  have hs := h.suffix k hloop
  rw [hcs] at hs
  have hmem := hs.subset (List.mem_cons_self ..)
  cases k <;> simp [fireBody] at hmem
  exact hloop rfl

omit [NeZero n] in
/-- The test is the last operation written out in the body of the loop codelet. -/
private theorem Ctl.test_last (h : Ctl blas s) {os : List (Op (Cod n) (Act n))}
    (hcs : crest s .loop = .act .test :: os) : os = [] := by
  rcases h.loop_suffix with hs | hs | hs <;> rw [hcs] at hs
  · have hbody : (fireBody .loop : List (Op (Cod n) (Act n))) =
      [.resetCodelet .loop] ++ [.act .test] := rfl
    rw [hbody] at hs
    rcases Suffix.append_cases hs with hsuf | ⟨z, zs, hsuf, hl⟩
    · exact List.length_eq_zero_iff.mp (by simpa using hsuf.length_le)
    · obtain ⟨rfl, -⟩ := List.cons.inj hl
      have hmem := hsuf.subset (List.mem_cons_self ..)
      simp at hmem
  · have hmem := hs.subset (List.mem_cons_self ..)
    simp [roundBody] at hmem
  · have hmem := hs.subset (List.mem_cons_self ..)
    simp [finishBody] at hmem

omit [NeZero n] in
/-- An action. -/
private theorem Ctl.sim_act (h : Ctl blas s) {k : Cod n} {j : Nat} {a : Act n}
    {os new : List (Op (Cod n) (Act n))} (hrest : s.rest k j = .act a :: os)
    (hexec : exec blas a s.mem = some (t.mem, new)) (hsync : t.sync = s.sync)
    (hpool : t.pool = s.pool) (hfired : t.fired = s.fired)
    (hr : t.rest = (s.setRest k j (new ++ os)).rest) :
    view t = view s ∨ Rounds.Step (n * n) n (view s) (view t) := by
  obtain ⟨hcs, hpos, hct⟩ := crest_op h.single hrest hfired hr
  obtain ⟨hts, htt⟩ := todo_op h.single hrest hfired hr
  have hcur := exec_cur hexec
  have hnew := exec_rest hexec
  by_cases htest : a = .test
  · subst htest
    right
    obtain rfl := h.test_owner hcs
    have htest : 0 < (view s).toTest := by simp [hcs]
    obtain rfl := h.test_last hcs
    have hre : (view s).toReset = 0 := by simp [hcs]
    rw [if_neg (by simp), Nat.add_zero] at hcur
    by_cases hlt : s.mem.curIterations < n
    · rw [if_pos rfl, if_pos hlt] at hnew
      subst hnew
      convert Rounds.Step.more (N := n * n) (n := n) (v := view s) htest hre hlt using 1
      ext l <;> simp [hct, htt, hcs, hcur, hsync, hpool, hfired, count_incr_round,
        count_release_round, count_round_of_ne]
    · rw [if_pos rfl, if_neg hlt] at hnew
      subst hnew
      convert Rounds.Step.last (N := n * n) (n := n) (v := view s) htest hre (Nat.le_of_not_lt hlt)
        using 1
      ext l <;> simp [hct, htt, hcs, hcur, hsync, hpool, hfired, count_finish,
        count_finish_of_ne]
  · rw [if_neg htest] at hnew
    subst hnew
    by_cases hincr : a = .incr
    · subst hincr
      right
      obtain rfl : k = .loop := by
        by_contra hloop
        have hs := h.suffix k hloop
        rw [hcs] at hs
        have hmem := hs.subset (List.mem_cons_self ..)
        cases k <;> simp [fireBody] at hmem
      have hc : 0 < (view s).toCount := by simp [hcs]
      convert Rounds.Step.count (N := n * n) (n := n) (v := view s) hc using 1
      ext l <;> simp [hct, htt, hcs, hcur, hsync, hpool, hfired]
    · left
      rw [if_neg hincr, Nat.add_zero] at hcur
      ext l <;> simp [hct, htt, hcur, hsync, hpool, hfired]
      all_goals grind

/-- **Every step of the program is a step of the round protocol**, or invisible to it. -/
theorem Ctl.sim (h : Ctl blas s) {l : Label (Cod n)}
    (hl : (cannonTP blas n p).step s l = some t) :
    view t = view s ∨ Rounds.Step (n * n) n (view s) (view t) := by
  cases Program.step_inv hl with
  | fire k hpool => exact h.sim_fire hpool
  | decDep k j d os hrest => exact h.sim_decDep hrest
  | resetCodelet k j d os hrest => exact Or.inr (h.sim_reset hrest)
  | act k j a os new m hrest hexec => exact h.sim_act hrest hexec rfl rfl rfl rfl

/-- What a step does to the bodies. -/
inductive Move (s t : State (Cod n) (Act n) (Frame R n p)) : Label (Cod n) → Prop
  | fire (k : Cod n) (hidle : crest s k = []) (hpool : 0 < s.pool k)
      (hcrest : ∀ k', crest t k' = if k' = k then fireBody k else crest s k')
      (hfired : ∀ k', t.fired k' = if k' = k then s.fired k + 1 else s.fired k')
      (hcur : t.mem.curIterations = s.mem.curIterations) : Move s t (.fire k)
  | op (k : Cod n) (j : Nat) (o : Op (Cod n) (Act n)) (os : List (Op (Cod n) (Act n)))
      (hcs : crest s k = o :: os) (hpos : 0 < s.fired k) (hne : o ≠ .act .test)
      (hcrest : ∀ k', crest t k' = if k' = k then os else crest s k') (hfired : t.fired = s.fired)
      (hcur : t.mem.curIterations = s.mem.curIterations + if o = .act .incr then 1 else 0) :
      Move s t (.op k j)
  | test (j : Nat) (hcs : crest s .loop = [.act .test]) (hpos : 0 < s.fired .loop)
      (hcrest : ∀ k', crest t k' = if k' = .loop then
        (if s.mem.curIterations < n then roundBody n else finishBody n) else crest s k')
      (hfired : t.fired = s.fired) (hcur : t.mem.curIterations = s.mem.curIterations) :
      Move s t (.op .loop j)

/-- The inversion lemma for the bodies. -/
theorem Ctl.move (h : Ctl blas s) {l : Label (Cod n)}
    (hl : (cannonTP blas n p).step s l = some t) : Move s t l := by
  cases l with
  | fire k =>
    cases Program.step_inv hl with
    | fire _ hpool =>
      exact .fire k (h.idle hpool) hpool (crest_begin k) (fun k' => State.begin_fired _ _ _ _) rfl
  | op k j =>
    obtain ⟨o, os, os', hrest, hfired, hr, hmem⟩ := Program.rest_of_op hl
    obtain ⟨hcs, hpos, hct⟩ := crest_op h.single hrest hfired hr
    rcases hmem with ⟨hno, rfl, hmem⟩ | ⟨a, new, rfl, hexec, rfl⟩
    · exact .op k j o os' hcs hpos (hno _) hct hfired (by rw [hmem, if_neg (hno _), Nat.add_zero])
    · have hrun : exec blas a s.mem = some (t.mem, new) := hexec
      have hnew := exec_rest hrun
      have hcur := exec_cur hrun
      by_cases htest : a = .test
      · subst htest
        obtain rfl := h.test_owner hcs
        obtain rfl := h.test_last hcs
        rw [if_pos rfl] at hnew
        rw [hnew, List.append_nil] at hct
        exact .test j hcs hpos hct hfired hcur
      · rw [if_neg htest] at hnew
        rw [hnew, List.nil_append] at hct
        refine .op k j _ os hcs hpos (fun he => htest (Op.act.inj he)) hct hfired ?_
        rw [hcur]
        simp only [Op.act.injEq]

/-- **One step keeps the control invariant.** -/
theorem Ctl.step (h : Ctl blas s) {l : Label (Cod n)}
    (hl : (cannonTP blas n p).step s l = some t) : Ctl blas t where
  early := h.early.step (early_oneShot blas n p) hl
  rounds := by
    rcases h.sim hl with he | hs
    · rw [he]
      exact h.rounds
    · refine h.rounds.step ?_
      rw [Fintype.card_fin]
      exact hs
  resets := by
    intro k
    rw [← h.resets k]
    cases Program.step_inv hl with
    | fire _ _ => rfl
    | decDep _ _ d os _ =>
      rw [State.decDep_sync]
      split
      next he => rw [he]; rfl
      next => rfl
    | resetCodelet _ _ d os _ =>
      rw [State.resetCodelet_sync]
      split
      next he => rw [he]; rfl
      next => rfl
    | act _ _ a os new m _ _ => rfl
  single := by
    intro k' j' hne
    cases l with
    | fire k =>
      cases Program.step_inv hl with
      | fire _ hpool =>
        rw [State.begin_rest] at hne
        rw [State.begin_fired]
        by_cases hk : k' = k
        · subst hk
          by_cases hj : j' = s.fired k'
          · rw [if_pos rfl, hj]
          · -- an earlier firing is over
            rw [if_neg (fun hc => hj hc.2)] at hne
            have hj' := h.single k' j' hne
            have hidle := h.idle hpool
            rw [crest, ← hj', Nat.add_sub_cancel] at hidle
            exact absurd hidle hne
        · rw [if_neg (fun hc => hk hc.1)] at hne
          rw [if_neg hk]
          exact h.single k' j' hne
    | op k j =>
      obtain ⟨o, os, os', hrest, hfired, hr, -⟩ := Program.rest_of_op hl
      rw [hfired]
      rw [hr, State.setRest_rest] at hne
      by_cases hk : k' = k ∧ j' = j
      · rw [hk.1, hk.2]
        exact h.single k j (by rw [hrest]; simp)
      · rw [if_neg hk] at hne
        exact h.single k' j' hne
  suffix := by
    intro k' hk'
    cases h.move hl with
    | fire k _ _ hcrest _ _ =>
      rw [hcrest]
      split
      next he => rw [he]
      next => exact h.suffix k' hk'
    | op k j o os hcs _ _ hcrest _ _ =>
      rw [hcrest]
      split
      next he =>
        subst he
        have hs := h.suffix k' hk'
        rw [hcs] at hs
        exact (List.suffix_cons o os).trans hs
      next => exact h.suffix k' hk'
    | test j _ _ hcrest _ _ =>
      rw [hcrest, if_neg hk']
      exact h.suffix k' hk'
  loop_suffix := by
    have hloop := h.loop_suffix
    cases h.move hl with
    | fire k _ _ hcrest _ _ =>
      rw [hcrest]
      split
      next he => exact Or.inl (he ▸ List.suffix_rfl)
      next => exact hloop
    | op k j o os hcs _ _ hcrest _ _ =>
      rw [hcrest]
      split
      next he =>
        subst he
        rw [hcs] at hloop
        have htail := List.suffix_cons o os
        exact hloop.imp htail.trans (Or.imp htail.trans htail.trans)
      next => exact hloop
    | test j _ _ hcrest _ _ =>
      rw [hcrest, if_pos rfl]
      split
      · exact Or.inr (Or.inl List.suffix_rfl)
      · exact Or.inr (Or.inr List.suffix_rfl)

omit [NeZero n] in
/-- The constructor leaves the round protocol at its start. -/
theorem view_launched (a b c : Nat → R) :
    view (launched n p a b c) = (Rounds.State.start : Rounds.State (Tile n)) := by
  have hcard : Fintype.card (Tile n) = n * n := Fintype.card_fin _
  have hcrest : ∀ k, crest (launched n p a b c) k = [] := fun k => rfl
  have htodo : ∀ k, todo (launched n p a b c) k = fireBody k := fun k => rfl
  ext i <;> simp only [view, hcrest, htodo, Rounds.State.start, hcard] <;>
    simp [launched, slot, added, frame, fireBody]

theorem Ctl.init (a b c : Nat → R) : Ctl blas (launched n p a b c) where
  early := OneShot.Inv.init (early_oneShot blas n p) fun k _ => added_eq (Nat.pos_of_neZero n) k
  single _ _ hne := absurd rfl hne
  suffix _ _ := List.nil_suffix
  loop_suffix := Or.inl List.nil_suffix
  resets _ := rfl
  rounds := by
    rw [view_launched]
    exact Rounds.Inv.init n

/-- **The control invariant holds in every reachable state.** -/
theorem Ctl.reachable {a b c : Nat → R}
    (hs : Reachable (cannonTP blas n p).step (launched n p a b c) s) : Ctl blas s :=
  hs.invariant _ (Ctl.init a b c) fun _ _ _ _ h hl => h.step hl

end Sim

end Darts.CannonDouble
