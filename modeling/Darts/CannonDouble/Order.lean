import Darts.CannonDouble.Control

/-!
# What happens when in the double-buffered `cannonTP`

`times` counts how often an action of a copy, skew or compute codelet has been
carried out, `swaps` how often the buffers of a tile have been swapped. Both are
read off the bodies and grow by one with the step that carries the action. The
round protocol then orders them: a tile is swapped when every block of the round
has been handed on, and nobody computes before all tiles have been swapped.
-/

namespace Darts.CannonDouble

open Cannon Transition

variable {R : Type} {n p : Nat}

/-- The codelet whose `fire()` contains the action. -/
def Act.owner : Act n → Cod n
  | .gather .A i => .copyA i
  | .gather .B i => .copyB i
  | .scatterC i => .copyC i
  | .skewShift _ i => .skew i
  | .test | .swap _ | .incr => .loop
  | .multiply i | .shift _ i => .compute i
  | .continuation => .endCodelet

/-- How often an action has been executed. -/
def times (s : State (Cod n) (Act n) (Frame R n p)) (a : Act n) : Nat :=
  s.fired a.owner - (crest s a.owner).count (.act a)

/-- How often the buffers of tile `i` have been swapped. -/
def swaps (s : State (Cod n) (Act n) (Frame R n p)) (i : Tile n) : Nat :=
  Rounds.rounds (view s) - (crest s .loop).count (.act (.swap i))

theorem count_owner {a : Act n} (ha : a.owner ≠ .loop) : (fireBody a.owner).count (.act a) = 1 := by
  refine List.count_eq_one_of_mem (nodup_fireBody _) ?_
  cases a with
  | gather d i => cases d <;> simp [Act.owner, fireBody]
  | skewShift d i => cases d <;> simp [Act.owner, fireBody]
  | shift d i => cases d <;> simp [Act.owner, fireBody]
  | test | swap i | incr => exact absurd rfl ha
  | scatterC i | multiply i | continuation => simp [Act.owner, fireBody]

theorem owner_of_mem {k : Cod n} {a : Act n} (h : .act a ∈ fireBody k) : a.owner = k := by
  cases k <;> simp [fireBody] at h
  case copyA | copyB | copyC | loop | endCodelet => subst h; rfl
  case skew => rcases h with rfl | rfl <;> rfl
  case compute => rcases h with rfl | rfl | rfl <;> rfl

section

variable [CommRing R] {blas : Blas R} {s t : State (Cod n) (Act n) (Frame R n p)}

/-- A firing in progress is the latest of its codelet. -/
theorem Ctl.crest_of_rest (h : Ctl blas s) {k : Cod n} {j : Nat} {o : Op (Cod n) (Act n)}
    {os : List (Op (Cod n) (Act n))} (hrest : s.rest k j = o :: os) :
    crest s k = o :: os ∧ j + 1 = s.fired k := by
  have hj := h.single k j (by rw [hrest]; simp)
  rw [crest, ← hj, Nat.add_sub_cancel, hrest]
  exact ⟨rfl, rfl⟩

/-- A step works on the latest firing. -/
theorem Ctl.rest_of_op (h : Ctl blas s) {k : Cod n} {j : Nat}
    (hl : (cannonTP blas n p).step s (.op k j) = some t) {o : Op (Cod n) (Act n)}
    {os : List (Op (Cod n) (Act n))} (hcs : crest s k = o :: os) : s.rest k j = o :: os := by
  obtain ⟨o', os', -, hrest, -⟩ := Program.rest_of_op hl
  rw [hrest, ← (h.crest_of_rest hrest).1, hcs]

/-- Only the owner of an action executes it. -/
theorem Ctl.owner (h : Ctl blas s) {l : Label (Cod n)} {a : Act n} (ha : s.nextAct l = some a) :
    ∃ j os, l = .op a.owner j ∧ s.rest a.owner j = .act a :: os ∧
      crest s a.owner = .act a :: os := by
  obtain ⟨k, j, os, rfl, hrest⟩ := State.nextAct_eq_some ha
  obtain ⟨hcs, -⟩ := h.crest_of_rest hrest
  have hk : a.owner = k := by
    by_cases hloop : k = .loop
    · subst hloop
      rcases h.loop_suffix with hs | hs | hs <;> rw [hcs] at hs
      · exact owner_of_mem (hs.subset (List.mem_cons_self ..))
      · have hmem := hs.subset (List.mem_cons_self ..)
        simp [roundBody] at hmem
        rcases hmem with ⟨i, rfl⟩ | rfl <;> rfl
      · have hmem := hs.subset (List.mem_cons_self ..)
        simp [finishBody] at hmem
    · have hs := h.suffix k hloop
      rw [hcs] at hs
      exact owner_of_mem (hs.subset (List.mem_cons_self ..))
  subst hk
  exact ⟨j, os, rfl, hrest, hcs⟩

/-- A codelet other than the loop has begun what it has left. -/
theorem Ctl.count_le (h : Ctl blas s) {a : Act n} (ha : a.owner ≠ .loop) :
    (crest s a.owner).count (.act a) ≤ s.fired a.owner := by
  by_cases hnil : crest s a.owner = []
  · simp [hnil]
  · have hpos := h.single _ _ hnil
    have hle := (h.suffix a.owner ha).sublist.count_le (.act a)
    rw [count_owner ha] at hle
    omega

/-- **A step executes the action it carries and no other.** -/
theorem Ctl.times_step [NeZero n] (h : Ctl blas s) {l : Label (Cod n)}
    (hl : (cannonTP blas n p).step s l = some t) {a : Act n} (ha : a.owner ≠ .loop) :
    times t a = times s a + if s.nextAct l = some a then 1 else 0 := by
  have hle := h.count_le ha
  cases h.move hl with
  | fire k hidle _ hcrest hfired _ =>
    rw [times, times, hcrest, hfired]
    by_cases hk : a.owner = k
    · subst hk
      simp [hidle, count_owner ha, State.nextAct]
    · simp [hk, State.nextAct]
  | op k j o os hcs hpos _ hcrest hfired _ =>
    rw [times, times, hcrest, hfired]
    by_cases hk : a.owner = k
    · subst hk
      have hnext : s.nextAct (.op a.owner j) = some a ↔ o = .act a := by
        rw [State.nextAct, h.rest_of_op hl hcs]
        cases o <;> simp [Op.headAct]
      rw [if_pos rfl, hcs, List.count_cons]
      rw [hcs, List.count_cons] at hle
      simp only [hnext, beq_iff_eq] at hle ⊢
      omega
    · have hnext : s.nextAct (.op k j) ≠ some a := by
        intro hc
        obtain ⟨j', os', he, -⟩ := h.owner hc
        exact hk (Label.op.inj he).1.symm
      simp [hk, hnext]
  | test j hcs _ hcrest hfired _ =>
    have hnext : s.nextAct (.op .loop j) ≠ some a := by
      intro hc
      obtain ⟨j', os', he, -⟩ := h.owner hc
      exact ha (Label.op.inj he).1.symm
    rw [times, times, hcrest, hfired, if_neg ha, if_neg hnext, Nat.add_zero]

omit [CommRing R] in
theorem rounds_view : Rounds.rounds (view s) =
    s.mem.curIterations + (crest s .loop).count (.act .incr) := rfl

/-- A tile is swapped at most once a round. -/
theorem Ctl.swap_le_one (h : Ctl blas s) (i : Tile n) :
    (crest s .loop).count (.act (.swap i)) ≤ 1 := by
  rcases h.loop_suffix with hs | hs | hs
  · have := hs.sublist.count_le (.act (.swap i))
    simp [fireBody] at this
    omega
  · have := hs.sublist.count_le (.act (.swap i))
    rwa [count_swap_round] at this
  · have := hs.sublist.count_le (.act (.swap i))
    rw [count_finish_of_ne (by simp)] at this
    omega

/-- The swaps of a round come before the round is counted. -/
theorem Ctl.swap_le (h : Ctl blas s) (i : Tile n) :
    (crest s .loop).count (.act (.swap i)) ≤ (crest s .loop).count (.act .incr) := by
  rcases h.loop_suffix with hs | hs | hs
  · have := hs.sublist.count_le (.act (.swap i))
    simp [fireBody] at this
    omega
  · have hone := h.swap_le_one i
    rw [roundBody] at hs
    rcases Suffix.append_cases hs with hsuf | ⟨z, zs, -, hl⟩
    · have := hsuf.sublist.count_le (.act (.swap i))
      rw [List.count_cons, count_map_of_ne (by simp)] at this
      simp at this
      omega
    · have hincr : (crest s .loop).count (.act .incr) ≠ 0 := by
        rw [hl, Ne, List.count_eq_zero]
        simp
      omega
  · have := hs.sublist.count_le (.act (.swap i))
    rw [count_finish_of_ne (by simp)] at this
    omega

/-- **A swap counts itself.** -/
theorem Ctl.swaps_step [NeZero n] (h : Ctl blas s) {l : Label (Cod n)}
    (hl : (cannonTP blas n p).step s l = some t) (i : Tile n) :
    swaps t i = swaps s i + if s.nextAct l = some (.swap i) then 1 else 0 := by
  have hle := h.swap_le i
  cases h.move hl with
  | fire k hidle _ hcrest _ hcur =>
    rw [swaps, swaps, rounds_view, rounds_view, hcrest, hcur]
    by_cases hk : .loop = k
    · subst hk
      simp [hidle, fireBody, State.nextAct]
    · simp [hk, State.nextAct]
  | op k j o os hcs hpos _ hcrest _ hcur =>
    rw [swaps, swaps, rounds_view, rounds_view, hcrest, hcur]
    have hnext : ∀ a, s.nextAct (.op k j) = some a ↔ o = .act a := by
      intro a
      rw [State.nextAct, h.rest_of_op hl hcs]
      cases o <;> simp [Op.headAct]
    by_cases hk : .loop = k
    · subst hk
      rw [if_pos rfl, hcs, List.count_cons, List.count_cons]
      rw [hcs, List.count_cons, List.count_cons] at hle
      simp only [hnext, beq_iff_eq] at hle ⊢
      by_cases hincr : o = .act .incr
      · subst hincr
        simp at hle ⊢
        omega
      · simp only [if_neg hincr] at hle ⊢
        omega
    · have hno : ∀ a : Act n, a.owner = .loop → o ≠ .act a := by
        rintro a ha rfl
        obtain ⟨j', os', he, -⟩ := h.owner ((hnext a).mpr rfl)
        exact hk ((Label.op.inj he).1.trans ha).symm
      simp [hk, hnext, hno (.swap i) rfl, hno .incr rfl]
  | test j hcs _ hcrest _ hcur =>
    have hnext : s.nextAct (.op .loop j) = some .test := by
      rw [State.nextAct, h.rest_of_op hl hcs]
      rfl
    rw [swaps, swaps, rounds_view, rounds_view, hcrest, hcur, if_pos rfl, hcs, hnext]
    split
    · rw [count_incr_round, count_swap_round]
      simp
    · rw [count_finish_of_ne (by simp), count_finish_of_ne (by simp)]
      simp

/-! ## The phases -/

/-- A codelet that has its last signal to send is not over, and the other way round. -/
private theorem mem_todo_skew (h : Ctl blas s) {u : Tile n} (hne : todo s (.skew u) ≠ []) :
    0 < (view s).first u := by
  have hs : todo s (.skew u) <:+ [.act (.skewShift .A u), .act (.skewShift .B u)] ++
      [.decDep .loop] := by
    rw [todo]
    split
    · exact List.suffix_rfl
    · exact h.suffix (.skew u) (by simp)
  exact List.count_pos_iff.mpr (Suffix.last_mem _ _ hs hne)

/-- **While a skew codelet is not over no round has begun.** -/
theorem Ctl.opening (h : Ctl blas s) {u : Tile n} (hne : todo s (.skew u) ≠ []) :
    Rounds.rounds (view s) = 0 ∧ ∀ i, s.fired (.compute i) = 0 := by
  have hrounds := h.rounds.first_eq u (mem_todo_skew h hne)
  refine ⟨hrounds, fun i => ?_⟩
  have : s.pool (.compute i) + s.fired (.compute i) + _ = _ := h.rounds.wfired_eq i
  omega

/-- A copy codelet that still has its signal to send. -/
private theorem mem_copy (h : Ctl blas s) {k d : Cod n} {a : Act n}
    (hbody : fireBody k = [.act a, .decDep d]) (hk : k ≠ .loop) (hne : crest s k ≠ []) :
    .decDep d ∈ crest s k := by
  have hs := h.suffix k hk
  rw [hbody, show ([.act a, .decDep d] : List (Op (Cod n) (Act n))) = [.act a] ++ [.decDep d] from rfl]
    at hs
  exact Suffix.last_mem _ _ hs hne

/-- The copy codelet of a block. -/
def copy : Side → Tile n → Cod n
  | .A => .copyA
  | .B => .copyB

/-- **A block is skewed after it has been copied in.** -/
theorem Ctl.gathered (h : Ctl blas s) {u : Tile n} (hstart : 0 < s.pool (.skew u) + s.fired (.skew u))
    (d : Side) : crest s (copy d u) = [] ∧ times s (.gather d u) = 1 := by
  obtain ⟨hf, hno⟩ := h.early.source_done (early_oneShot blas n p) (.skew u) (copy d u)
    trivial hstart (by cases d <;> simp [sources, copy])
  have hnil : crest s (copy d u) = [] := by
    by_contra hne
    have hmem := mem_copy h (k := copy d u) (d := .skew u) (a := .gather d u) (by cases d <;> rfl)
      (by cases d <;> simp [copy]) hne
    rw [crest, hf] at hmem
    exact hno hmem
  have howner : (Act.gather d u).owner = copy d u := by cases d <;> rfl
  refine ⟨hnil, ?_⟩
  rw [times, howner, hnil, hf]
  rfl

/-- While a block is copied in the skew of its tile has not begun. -/
theorem Ctl.gathering (h : Ctl blas s) {u : Tile n} {d : Side} (hne : crest s (copy d u) ≠ []) :
    s.fired (.skew u) = 0 ∧ todo s (.skew u) ≠ [] := by
  have hf : s.fired (.skew u) = 0 := by
    by_contra hf
    exact hne (h.gathered (by omega) d).1
  exact ⟨hf, by rw [todo, if_pos hf]; simp [fireBody]⟩

/-- A tile whose opening signal has been sent has skewed its blocks. -/
theorem Ctl.skewed (h : Ctl blas s) {u : Tile n} (hfirst : (view s).first u = 0) (d : Side) :
    times s (.skewShift d u) = 1 := by
  have hnil : todo s (.skew u) = [] := by
    by_contra hne
    have := mem_todo_skew h hne
    omega
  have hle := h.early.fired_le_one (k := .skew u) trivial
  rw [todo] at hnil
  split at hnil
  next => simp [fireBody] at hnil
  next hf =>
    rw [times]
    simp only [Act.owner, hnil]
    simp
    omega

/-- **While a tile computes, all tiles have been swapped for the round.** -/
theorem Ctl.computing (h : Ctl blas s) {i : Tile n}
    (hi : 0 < s.pool (.compute i) ∨ crest s (.compute i) ≠ []) :
    0 < Rounds.rounds (view s) ∧ s.pool (.compute i) + s.fired (.compute i) =
      Rounds.rounds (view s) ∧ (∀ j, swaps s j = Rounds.rounds (view s)) ∧
      ∀ d u, times s (.skewShift d u) = 1 := by
  have hsig : 0 < s.pool (.compute i) + (view s).toSignal i ∧
      0 < s.pool (.compute i) + s.fired (.compute i) := by
    rcases hi with hpool | hne
    · omega
    · have := h.compute_left hne
      have := h.single _ _ hne
      omega
  obtain ⟨hcount, hfired, hpos, hfirst⟩ := h.rounds.working hsig.1 hsig.2
  refine ⟨hpos, hfired, fun j => ?_, fun d u => h.skewed (hfirst u) d⟩
  have hle := h.swap_le j
  have hincr : (crest s .loop).count (.act .incr) = 0 := hcount
  rw [swaps]
  omega

/-- **A tile is swapped after every tile has computed**, once in the round. -/
theorem Ctl.swapping (h : Ctl blas s) {i : Tile n}
    (hi : 0 < (crest s .loop).count (.act (.swap i))) :
    swaps s i + 1 = Rounds.rounds (view s) ∧
      (∀ j, crest s (.compute j) = [] ∧ s.fired (.compute j) + 1 = Rounds.rounds (view s)) ∧
      ∀ d u, times s (.skewShift d u) = 1 := by
  have hle := h.swap_le i
  have hcount : 0 < (view s).toCount := by
    show 0 < (crest s .loop).count (.act .incr)
    omega
  refine ⟨?_, fun j => ?_, fun d u => h.skewed (h.rounds.counting hcount u).2.1 d⟩
  · have hone := h.swap_le_one i
    have hrounds := rounds_view (s := s)
    rw [swaps]
    omega
  · obtain ⟨hfired, -, hsig⟩ := h.rounds.counting hcount j
    refine ⟨?_, hfired⟩
    by_contra hne
    have := h.compute_left hne
    omega

/-- **A tile is copied back after its last round.** -/
theorem Ctl.collecting (h : Ctl blas s) {i : Tile n}
    (hi : 0 < s.pool (.copyC i) + s.fired (.copyC i)) (j : Tile n) :
    s.fired (.compute j) = n ∧ crest s (.compute j) = [] := by
  obtain ⟨hfired, hsig⟩ := h.rounds.collecting hi j
  refine ⟨hfired, ?_⟩
  by_contra hne
  have := h.compute_left hne
  omega

/-- **The end codelet is scheduled after all of `C` has been copied back.** -/
theorem Ctl.delivered (h : Ctl blas s) (he : 0 < s.pool .endCodelet + s.fired .endCodelet)
    (i : Tile n) : times s (.scatterC i) = 1 := by
  have hend : (todo s (.copyC i)).count (.decDep .endCodelet) = 0 := h.rounds.delivered he i
  have hs : todo s (.copyC i) <:+ [.act (.scatterC i)] ++ [.decDep .endCodelet] := by
    rw [todo]
    split
    · exact List.suffix_rfl
    · exact h.suffix (.copyC i) (by simp)
  have hnil : todo s (.copyC i) = [] := by
    by_contra hne
    exact List.count_eq_zero.mp hend (Suffix.last_mem _ _ hs hne)
  have hle : _ + s.pool (.copyC i) + s.fired (.copyC i) = 1 := h.rounds.ccounter_eq i
  rw [todo] at hnil
  split at hnil
  next => simp [fireBody] at hnil
  next hf =>
    rw [times]
    simp only [Act.owner, hnil]
    simp
    omega

end

end Darts.CannonDouble
