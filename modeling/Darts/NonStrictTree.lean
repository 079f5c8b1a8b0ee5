import Mathlib.Algebra.Order.Ring.Nat
import Darts.Lib.ForkJoin

/-!
# `Tree/non_strict.cpp`: the same tree, where every TP signals one codelet

`endCD` of the launcher waits for `pow(fannout, depth)` signals, as many as there are leaves. But
the TPs above the leaves signal it too, so the launcher may signal while TPs of the tree have yet
to (`nonStrict_early`).

The program writes no data: the memory is history, the number of TPs that have signalled. The
`decDep` that ends `cd1NonStrict::fire` is a task of its own, since others fire between it and the
loop. `pow` multiplies in `int`, and the signals that come after `endCD` is ready wrap its counter:
the number of TPs is taken to fit an `int`, so that neither matters.
-/

namespace Darts.NonStrictTree

open ForkJoin Transition Word

/-! ## The program -/

abbrev Memory : Type := Unit → Nat

/-- `class tpNonStrict`: what the constructor is given. -/
structure TP where
  depth : Nat
  fanout : Nat
deriving DecidableEq

/-- What is scheduled: the closures of the TPs, and the codelets. -/
inductive Codelet
  | launch (depth fannout : Nat)
  | startCD (depth fannout : Nat)
  | endCD
  | invoke (myNonStrict : TP)
  | CD1 (myNonStrict : TP)
  | toSignal
deriving DecidableEq

/-- The loop of `cd1NonStrict::fire`. -/
def TP.children (myNonStrict : TP) : Proc Codelet :=
  .all (List.replicate myNonStrict.fanout
    (.run (.invoke ⟨myNonStrict.depth - 1, myNonStrict.fanout⟩)))

/-- The constructors and the `fire`s. -/
def fire : Codelet → Unit → Memory → Memory × Option (Proc Codelet)
  | .launch depth fannout, _, m => (m, some (.run (.startCD depth fannout)))
  | .startCD depth fannout, _, m =>
    (m, some (.wait (fannout ^ depth) .endCD (.run (.invoke ⟨depth, fannout⟩))))
  | .endCD, _, m => (m, none)
  | .invoke myNonStrict, _, m => (m, some (.run (.CD1 myNonStrict)))
  | .CD1 myNonStrict, _, m =>
    if myNonStrict.depth = 0 then (m, some (.run .toSignal))
    else (m, some (.par myNonStrict.children (.run .toSignal)))
  | .toSignal, _, m => (fun _ => m () + 1, none)

/-! ## What is to come -/

/-- How many TPs a tree has. -/
def nodes (f : Nat) : Nat → Nat
  | 0 => 1
  | d + 1 => f * nodes f d + 1

/-- How many signals come of a task. -/
def weight : Codelet → Nat
  | .invoke myNonStrict | .CD1 myNonStrict => nodes myNonStrict.fanout myNonStrict.depth
  | .toSignal => 1
  | .launch _ _ | .startCD _ _ | .endCD => 0

/-- How much there is to do. -/
def work : Codelet → Nat
  | .invoke myNonStrict => 3 * nodes myNonStrict.fanout myNonStrict.depth
  | .CD1 myNonStrict => 3 * nodes myNonStrict.fanout myNonStrict.depth - 1
  | .toSignal => 1
  | .launch _ _ | .startCD _ _ | .endCD => 0

variable {f d : Nat}

theorem pow_le_nodes (f d : Nat) : f ^ d ≤ nodes f d := by
  induction d with
  | zero => exact le_rfl
  | succ d ih =>
    have hmul : f * f ^ d ≤ f * nodes f d := Nat.mul_le_mul_left f ih
    rw [Nat.pow_succ']
    unfold nodes
    omega

/-- From depth 1 on, there are more TPs than leaves. -/
theorem pow_lt_nodes (f : Nat) (hd : 0 < d) : f ^ d < nodes f d := by
  obtain ⟨d, rfl⟩ := Nat.exists_eq_succ_of_ne_zero hd.ne'
  have hmul : f * f ^ d ≤ f * nodes f d := Nat.mul_le_mul_left f (pow_le_nodes f d)
  rw [Nat.pow_succ']
  unfold nodes
  omega

abbrev Machine : Type := State Codelet Unit Nat

/-- A measure of the pool. -/
def total (g : Codelet → Nat) (s : Machine) : Nat := (s.ready.map fun x => g x.1).sum

theorem total_erase (g : Codelet → Nat) {s : Machine} {pos : Nat} {x : Codelet × Option Nat}
    (hpos : s.ready[pos]? = some x) (m : Memory) (w : List (Slot Codelet)) (n : Nat) :
    total g ⟨m, w, s.ready.eraseIdx pos, n⟩ + g x.1 = total g s := by
  obtain ⟨hlt, rfl⟩ := List.getElem?_eq_some_iff.mp hpos
  have hperm := ((List.getElem_cons_eraseIdx_perm hlt).map fun x => g x.1).sum_eq
  rw [List.map_cons, List.sum_cons] at hperm
  unfold total
  dsimp only
  omega

theorem count_erase {s : Machine} {pos : Nat} {x : Codelet × Option Nat}
    (hpos : s.ready[pos]? = some x) (hx : x.1 ≠ .endCD) :
    (s.ready.eraseIdx pos).countP (fun x => x.1 = .endCD) =
      s.ready.countP (fun x => x.1 = .endCD) := by
  obtain ⟨hlt, heq⟩ := List.getElem?_eq_some_iff.mp hpos
  have hperm := (List.getElem_cons_eraseIdx_perm hlt).countP_eq (fun x => x.1 = .endCD)
  rw [heq, List.countP_cons_of_neg (by simpa using hx)] at hperm
  exact hperm

theorem start_replicate (n : Nat) (c : Codelet) (g : Option Nat) (s : Machine) :
    State.start (.all (List.replicate n (.run c))) g s =
      { s with ready := s.ready ++ List.replicate n (c, g) } := by
  induction n generalizing s with
  | zero => simp [Proc.all, State.start]
  | succ n ih =>
    simp only [List.replicate_succ, Proc.all, State.start, ih, List.append_assoc,
      List.singleton_append]

/-- The pool once the root has been invoked: `endCD`, when it has been signalled often enough,
and tasks that lead to the signals that have not been sent. -/
structure Inv (d f : Nat) (s : Machine) : Prop where
  slots : s.slots = [{ counter := fetchSub^[s.mem ()] (f ^ d), task := .endCD, final := none }]
  sum : s.mem () + total weight s = nodes f d
  final : ∀ x ∈ s.ready, (x.1 = .endCD ∧ x.2 = none) ∨ (0 < weight x.1 ∧ x.2 = some 0)
  once : s.ready.countP (fun x => x.1 = .endCD) + s.signalled = if f ^ d ≤ s.mem () then 1 else 0

variable {s : Machine} {pos : Nat} {c : Codelet} {g : Option Nat}

theorem Inv.final_endCD (h : Inv d f s) (hmem : (.endCD, g) ∈ s.ready) : g = none := by
  rcases h.final _ hmem with ⟨-, hg⟩ | ⟨hweight, -⟩
  · exact hg
  · exact absurd hweight (Nat.lt_irrefl 0)

/-- A task that leaves others, with as many signals to come. -/
theorem Inv.more (h : Inv d f s) (hpos : s.ready[pos]? = some (c, g)) (hc : c ≠ .endCD)
    {xs : List (Codelet × Option Nat)} (hxs : ∀ x ∈ xs, 0 < weight x.1 ∧ x.2 = some 0)
    (hsum : (xs.map fun x => weight x.1).sum = weight c) :
    Inv d f { s with ready := s.ready.eraseIdx pos ++ xs } := by
  have hmem : ∀ x ∈ xs, ¬x.1 = .endCD := by
    rintro x hx heq
    have hpos := (hxs x hx).1
    rw [heq] at hpos
    exact absurd hpos (Nat.lt_irrefl 0)
  refine { slots := h.slots, sum := ?_, final := ?_, once := ?_ }
  · have herase := total_erase weight hpos s.mem s.slots s.signalled
    have hall := h.sum
    unfold total at herase hall ⊢
    rw [List.map_append, List.sum_append, hsum]
    dsimp only at herase ⊢
    omega
  · intro x hx
    rcases List.mem_append.mp hx with hx | hx
    · exact h.final x (List.mem_of_mem_eraseIdx hx)
    · exact .inr (hxs x hx)
  · have hnone : xs.countP (fun x => x.1 = .endCD) = 0 := by
      rw [List.countP_eq_zero]
      intro x hx
      simpa using hmem x hx
    dsimp only
    rw [List.countP_append, hnone, count_erase hpos hc, Nat.add_zero]
    exact h.once

/-- A signal. -/
theorem Inv.signal (h : Inv d f s) (hfits : nodes f d ≤ 2147483647)
    (hpos : s.ready[pos]? = some (.toSignal, g)) :
    Inv d f (State.signal { s with mem := fun _ => s.mem () + 1, ready := s.ready.eraseIdx pos }
      (some 0)) := by
  have hcount := count_erase hpos (by simp)
  have herase := total_erase weight hpos s.mem s.slots s.signalled
  have hone : weight .toSignal = 1 := rfl
  have hzero : weight .endCD = 0 := rfl
  have hsum := h.sum
  have honce := h.once
  have hlast : fetchSub^[s.mem ()] (f ^ d) = 1 ↔ s.mem () + 1 = f ^ d :=
    fetchSub_iterate_eq_one (by unfold uintMax; omega)
  unfold total at herase hsum
  simp only [State.signal, h.slots, List.getElem?_cons_zero, hlast]
  refine { slots := ?_, sum := ?_, final := ?_, once := ?_ }
  · simp only [List.set_cons_zero, Function.iterate_succ_apply']
  · unfold total
    dsimp only at herase ⊢
    split <;> simp only [List.append_nil, List.map_append, List.sum_append, List.map_cons,
      List.map_nil, List.sum_cons, List.sum_nil] <;> omega
  · intro x hx
    rcases List.mem_append.mp hx with hx | hx
    · exact h.final x (List.mem_of_mem_eraseIdx hx)
    · split at hx
      · obtain rfl := List.mem_singleton.mp hx
        exact .inl ⟨rfl, rfl⟩
      · simp at hx
  · dsimp only
    rw [List.countP_append, hcount]
    by_cases hnow : s.mem () + 1 = f ^ d
    · rw [if_pos hnow, if_pos (by omega), List.countP_singleton]
      rw [if_neg (by omega)] at honce
      simp only [decide_true, if_true]
      omega
    · rw [if_neg hnow, List.countP_nil]
      by_cases hle : f ^ d ≤ s.mem ()
      · rw [if_pos (by omega)]
        rw [if_pos hle] at honce
        omega
      · rw [if_neg (by omega)]
        rw [if_neg hle] at honce
        omega

/-- The last firing of all, as far as the launcher goes. -/
theorem Inv.close (h : Inv d f s) (hpos : s.ready[pos]? = some (.endCD, g)) :
    Inv d f { s with ready := s.ready.eraseIdx pos, signalled := s.signalled + 1 } := by
  obtain ⟨hlt, heq⟩ := List.getElem?_eq_some_iff.mp hpos
  have hperm := (List.getElem_cons_eraseIdx_perm hlt).countP_eq (fun x => x.1 = .endCD)
  rw [heq, List.countP_cons_of_pos (by simp)] at hperm
  have herase := total_erase weight hpos s.mem s.slots (s.signalled + 1)
  have hsum := h.sum
  have hzero : weight .endCD = 0 := rfl
  refine { slots := h.slots, sum := ?_, final := ?_, once := ?_ }
  · dsimp only at herase hsum ⊢
    omega
  · exact fun x hx => h.final x (List.mem_of_mem_eraseIdx hx)
  · rw [← h.once]
    dsimp only
    omega

/-! ## Runs -/

/-- What one firing of a task other than `endCD` leads to. -/
def Next (d f : Nat) (s : Machine) (pos : Nat) : Prop :=
  ∃ t, step fire s (pos, ()) = some t ∧ Inv d f t ∧ total work t < total work s ∧
    t.signalled = s.signalled ∧ t.mem () ≤ s.mem () + 1

theorem Inv.spawn (h : Inv d f s) (hpos : s.ready[pos]? = some (c, some 0)) (hc : c ≠ .endCD)
    {p : Proc Codelet} (hfire : ∀ m, fire c () m = (m, some p)) (cs : List Codelet)
    (hstart : ∀ s : Machine, State.start p (some 0) s =
      { s with ready := s.ready ++ cs.map fun c => (c, some 0) })
    (hcs : ∀ c ∈ cs, 0 < weight c) (hsum : (cs.map weight).sum = weight c)
    (hwork : (cs.map work).sum < work c) : Next d f s pos := by
  have herase := total_erase work hpos s.mem s.slots s.signalled
  refine ⟨{ s with ready := s.ready.eraseIdx pos ++ cs.map fun c => (c, some 0) }, ?_, ?_, ?_, rfl,
    Nat.le_succ _⟩
  · simp only [step, hpos, hfire, hstart]
  · refine h.more hpos hc (fun x hx => ?_) ?_
    · obtain ⟨c', hc', rfl⟩ := List.mem_map.mp hx
      exact ⟨hcs c' hc', rfl⟩
    · rw [List.map_map]
      exact hsum
  · have hmap : ((cs.map fun c => (c, some 0)).map fun x => work x.1) = cs.map work := by
      rw [List.map_map]
      rfl
    unfold total at herase ⊢
    rw [List.map_append, List.sum_append, hmap]
    dsimp only at herase ⊢
    omega

theorem nodes_pos (f d : Nat) : 0 < nodes f d := by
  cases d <;> exact Nat.succ_pos _

/-- Any other task than `endCD` can be run, which leaves less to do. -/
theorem Inv.next (h : Inv d f s) (hfits : nodes f d ≤ 2147483647)
    (hpos : s.ready[pos]? = some (c, g)) (hc : c ≠ .endCD) : Next d f s pos := by
  have hfinal := (h.final _ (List.mem_of_getElem? hpos)).resolve_left fun heq => hc heq.1
  obtain ⟨hweight, hg⟩ := hfinal
  obtain rfl : g = some 0 := hg
  cases c with
  | launch depth fannout | startCD depth fannout => exact absurd hweight (Nat.lt_irrefl 0)
  | endCD => exact absurd rfl hc
  | invoke my =>
    have hnodes := nodes_pos my.fanout my.depth
    refine h.spawn hpos hc (fun _ => rfl) [.CD1 my] (fun _ => rfl) (fun c' hc' => ?_) ?_ ?_
    · rw [List.mem_singleton.mp hc']
      exact hnodes
    · rfl
    · simp only [List.map_cons, List.map_nil, List.sum_cons, List.sum_nil, work]
      omega
  | CD1 my =>
    obtain ⟨depth, fanout⟩ := my
    cases depth with
    | zero =>
      refine h.spawn hpos hc (fun _ => rfl) [.toSignal] (fun _ => rfl) (fun c' hc' => ?_) rfl ?_
      · rw [List.mem_singleton.mp hc']
        exact Nat.one_pos
      · exact Nat.one_lt_two
    | succ depth =>
      have hnodes := nodes_pos fanout depth
      refine h.spawn hpos hc (fun _ => rfl)
        (List.replicate fanout (.invoke ⟨depth, fanout⟩) ++ [.toSignal]) (fun s => ?_)
        (fun c' hc' => ?_) ?_ ?_
      · simp [State.start, TP.children, start_replicate]
      · rcases List.mem_append.mp hc' with hc' | hc'
        · rw [List.eq_of_mem_replicate hc']
          exact hnodes
        · rw [List.mem_singleton.mp hc']
          exact Nat.one_pos
      · simp [weight, nodes]
      · simp only [List.map_append, List.sum_append, List.map_replicate, List.sum_replicate_nat,
          List.map_cons, List.map_nil, List.sum_cons, List.sum_nil, work, nodes]
        rw [Nat.mul_left_comm]
        omega
  | toSignal =>
    have herase := total_erase work hpos s.mem s.slots s.signalled
    refine ⟨_, ?_, h.signal hfits hpos, ?_, ?_, ?_⟩
    · simp only [step, hpos, fire]
    · have hone : work .toSignal = 1 := rfl
      have hzero : work .endCD = 0 := rfl
      unfold total at herase ⊢
      simp only [State.signal, h.slots, List.getElem?_cons_zero]
      dsimp only at herase
      split <;> simp only [List.append_nil, List.map_append, List.sum_append, List.map_cons,
        List.map_nil, List.sum_cons, List.sum_nil] <;> omega
    · simp only [State.signal, h.slots, List.getElem?_cons_zero]
    · simp only [State.signal, h.slots, List.getElem?_cons_zero, le_refl]

/-- The pool before the root has been invoked. -/
def Before (d f : Nat) (s : Machine) : Prop :=
  s.slots = [] ∧ s.signalled = 0 ∧ s.mem () = 0 ∧
    (s.ready = [(.launch d f, none)] ∨ s.ready = [(.startCD d f, none)])

theorem Before.step (h : Before d f s) (hpow : 0 < f ^ d) {l : Nat × Unit} {t : Machine}
    (hl : step fire s l = some t) : Before d f t ∨ Inv d f t := by
  obtain ⟨hslots, hsignalled, hmem, hready⟩ := h
  obtain ⟨pos, _⟩ := l
  cases pos with
  | succ pos => rcases hready with hready | hready <;> simp [ForkJoin.step, hready] at hl
  | zero =>
    rcases hready with hready | hready
    · simp only [ForkJoin.step, hready, List.getElem?_cons_zero, fire, State.start,
        Option.some.injEq] at hl
      subst hl
      exact .inl ⟨hslots, hsignalled, hmem, .inr rfl⟩
    · simp only [ForkJoin.step, hready, List.getElem?_cons_zero, fire, State.start,
        Option.some.injEq] at hl
      subst hl
      refine .inr { slots := ?_, sum := ?_, final := ?_, once := ?_ }
      · simp [hslots, hmem]
      · simp [hmem, total, weight]
      · intro x hx
        obtain rfl : x = (.invoke ⟨d, f⟩, some 0) := by simpa [hslots] using hx
        exact .inr ⟨nodes_pos f d, rfl⟩
      · dsimp only
        rw [hsignalled, hmem, if_neg (Nat.not_le.mpr hpow)]
        rfl

theorem Inv.step (h : Inv d f s) (hfits : nodes f d ≤ 2147483647) {l : Nat × Unit} {t : Machine}
    (hl : step fire s l = some t) : Inv d f t := by
  obtain ⟨pos, _⟩ := l
  cases hpos : s.ready[pos]? with
  | none => simp [ForkJoin.step, hpos] at hl
  | some x =>
    obtain ⟨c, g⟩ := x
    by_cases hc : c = .endCD
    · subst hc
      obtain rfl := h.final_endCD (List.mem_of_getElem? hpos)
      simp only [ForkJoin.step, hpos, fire, State.signal, Option.some.injEq] at hl
      exact hl ▸ h.close hpos
    · obtain ⟨t', ht', hinv, -⟩ := h.next hfits hpos hc
      obtain rfl : t' = t := Option.some.inj (ht'.symm.trans hl)
      exact hinv

/-- The tasks before `endCD` can all be run first, up to the signal that makes it ready. -/
theorem Inv.exists_early (hfits : nodes f d ≤ 2147483647) (n : Nat) :
    ∀ s : Machine, total work s = n → Inv d f s → s.mem () < f ^ d →
    ∃ t, Reachable (ForkJoin.step fire) s t ∧ t.signalled = 1 ∧ t.mem () = f ^ d := by
  induction n using Nat.strongRecOn with
  | ind n ih =>
    intro s hn h hlt
    have hnone := h.once
    rw [if_neg (by omega)] at hnone
    obtain ⟨x, hx, hweight⟩ : ∃ x ∈ s.ready, weight x.1 ≠ 0 := by
      by_contra hall
      push Not at hall
      have hzero : total weight s = 0 := by
        refine List.sum_eq_zero fun w hw => ?_
        obtain ⟨x, hx, rfl⟩ := List.mem_map.mp hw
        exact hall x hx
      have hsum := h.sum
      have hle := pow_le_nodes f d
      omega
    obtain ⟨pos, hpos⟩ := List.mem_iff_getElem?.mp hx
    obtain ⟨t, ht, hinv, hless, hsignalled, hmem⟩ :=
      h.next hfits hpos fun heq => hweight (by rw [heq]; rfl)
    have hst : Reachable (ForkJoin.step fire) s t := Reachable.start.next ht
    by_cases hmore : t.mem () < f ^ d
    · obtain ⟨u, hu, hrest⟩ := ih _ (hn ▸ hless) t rfl hinv hmore
      exact ⟨u, hst.trans hu, hrest⟩
    · -- that was the signal that makes `endCD` ready
      have hone := hinv.once
      rw [if_pos (by omega)] at hone
      have hcount : 0 < t.ready.countP (fun x => x.1 = .endCD) := by omega
      obtain ⟨y, hy, hyend⟩ := List.countP_pos_iff.mp hcount
      obtain ⟨c, g⟩ := y
      obtain rfl : c = .endCD := by simpa using hyend
      obtain ⟨pos', hpos'⟩ := List.mem_iff_getElem?.mp hy
      obtain rfl := hinv.final_endCD hy
      refine ⟨{ t with ready := t.ready.eraseIdx pos', signalled := t.signalled + 1 },
        hst.next (l := (pos', ())) ?_, ?_, ?_⟩
      · simp only [ForkJoin.step, hpos', fire, State.signal]
      · dsimp only
        omega
      · dsimp only
        omega

/-- **The launcher signals once, and not before as many TPs as there are leaves, but maybe before
the others**: whatever the depth and the fanout of a tree whose TPs an `int` can count, in some run
it has signalled when exactly `f ^ d` of the `nodes f d` TPs have, which from depth 1 on are not
all. -/
theorem nonStrict_early (d f : Nat) (hf : 0 < f) (hfits : nodes f d ≤ 2147483647) :
    (∀ s, Reachable (step fire) (ForkJoin.launch (.run (.launch d f)) fun _ => 0) s →
      s.signalled ≤ 1 ∧ (s.signalled = 1 → f ^ d ≤ s.mem ()) ∧ s.mem () ≤ nodes f d) ∧
    ∃ s, Reachable (step fire) (ForkJoin.launch (.run (.launch d f)) fun _ => 0) s ∧
      s.signalled = 1 ∧ s.mem () = f ^ d ∧ (0 < d → s.mem () < nodes f d) := by
  have hpow : 0 < f ^ d := Nat.pow_pos hf
  have hstart : Before d f (ForkJoin.launch (.run (.launch d f)) fun _ => 0) :=
    ⟨rfl, rfl, rfl, .inl rfl⟩
  constructor
  · intro s hs
    have hinv : Before d f s ∨ Inv d f s :=
      hs.invariant (fun s => Before d f s ∨ Inv d f s) (.inl hstart) fun s l t _ h hl =>
        h.elim (fun h => h.step hpow hl) fun h => .inr (h.step hfits hl)
    rcases hinv with ⟨-, hsignalled, hmem, -⟩ | h
    · exact ⟨by omega, by omega, by omega⟩
    · have honce := h.once
      have hsum := h.sum
      split at honce
      · exact ⟨by omega, fun _ => ‹_›, by omega⟩
      · exact ⟨by omega, by omega, by omega⟩
  · let s₁ : Machine :=
      { mem := fun _ => 0, slots := [], ready := [(.startCD d f, none)], signalled := 0 }
    let s₂ : Machine :=
      { mem := fun _ => 0
        slots := [{ counter := f ^ d, task := .endCD, final := none }]
        ready := [(.invoke ⟨d, f⟩, some 0)]
        signalled := 0 }
    have hbefore : Before d f s₁ := ⟨rfl, rfl, rfl, .inr rfl⟩
    have hinv : Inv d f s₂ := (hbefore.step (l := (0, ())) hpow rfl).resolve_left
      fun h => by cases h.1
    obtain ⟨s, hs, hsignalled, hmem⟩ := Inv.exists_early hfits _ s₂ rfl hinv hpow
    have hrun : run (step fire) (ForkJoin.launch (.run (.launch d f)) fun _ => 0)
        [(0, ()), (0, ())] = some s₂ := rfl
    exact ⟨s, (Reachable.of_run hrun).trans hs, hsignalled, hmem, fun hd => hmem ▸ pow_lt_nodes f hd⟩

/-- Four of seven. -/
theorem nonStrict_early_two :
    ∃ s, Reachable (step fire) (ForkJoin.launch (.run (.launch 2 2)) fun _ => 0) s ∧
      s.signalled = 1 ∧ s.mem () = 4 ∧ s.mem () < nodes 2 2 := by
  obtain ⟨s, hs, hsignalled, hmem, hlt⟩ := (nonStrict_early 2 2 (by decide) (by decide)).2
  exact ⟨s, hs, hsignalled, hmem, hlt (by decide)⟩

end Darts.NonStrictTree
