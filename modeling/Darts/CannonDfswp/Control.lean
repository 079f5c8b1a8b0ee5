import Mathlib.Data.List.Infix
import Darts.CannonDfswp.Program

/-!
# Where every codelet of the pipelined `cannonTP` stands

The counters are settled by `OneShot`: every codelet fires at most once, and
only after all of its sources. This file adds the program points. A codelet
other than a compute codelet has a suffix of its body left; a compute codelet
is at one of the points of its loop (`Point`), and what it has left is a function
of that point alone (`Point.rest`). `count s i m` is the number of turns in which
tile `i` has executed operation `m` of its loop body (0 multiply, 1 push A,
2 push B, 3 pop A, 4 pop B): a step of the program advances one of these counts
by one, or none.
-/

namespace Darts.CannonDfswp

open Cannon Transition

variable {R : Type} {n p : Nat}

/-- Program points of `cannonCodCompute::fire`; `idle` before it starts. -/
inductive Point
  | idle
  | reset
  | test
  | multiply
  | pushA
  | pushB
  | popA
  | popB
  | incr
  | signal
  | done
deriving DecidableEq

/-- The point is inside a turn of the loop. -/
def Point.Inside : Point → Prop
  | .multiply | .pushA | .pushB | .popA | .popB | .incr => True
  | _ => False

/-- How many operations of the current turn have been executed. -/
def Point.stage : Point → Nat
  | .pushA => 1
  | .pushB => 2
  | .popA => 3
  | .popB => 4
  | .incr => 5
  | _ => 0

/-- What a compute codelet has left at each point. -/
def Point.rest (i : Tile n) : Point → List (Op (Cod n) (Act n))
  | .idle => []
  | .reset => fireBody (.compute i)
  | .test => [.act (.test i), .decDep (.copyC i)]
  | .multiply => iteration i ++ [.decDep (.copyC i)]
  | .pushA => (iteration i).drop 1 ++ [.decDep (.copyC i)]
  | .pushB => (iteration i).drop 2 ++ [.decDep (.copyC i)]
  | .popA => (iteration i).drop 3 ++ [.decDep (.copyC i)]
  | .popB => (iteration i).drop 4 ++ [.decDep (.copyC i)]
  | .incr => (iteration i).drop 5 ++ [.decDep (.copyC i)]
  | .signal => [.decDep (.copyC i)]
  | .done => []

/-- The point a remaining body belongs to, read off its first operation. -/
def Point.ofRest : List (Op (Cod n) (Act n)) → Point
  | .resetCodelet _ :: _ => .reset
  | .decDep _ :: _ => .signal
  | .act (.test _) :: _ => .test
  | .act (.multiply _) :: _ => .multiply
  | .act (.pushA _) :: _ => .pushA
  | .act (.pushB _) :: _ => .pushB
  | .act (.popA _) :: _ => .popA
  | .act (.popB _) :: _ => .popB
  | .act (.incr _) :: _ => .incr
  | _ => .done

/-- Where the compute codelet of tile `i` stands. -/
def point (s : State (Cod n) (Act n) (Frame R n p)) (i : Tile n) : Point :=
  if s.fired (.compute i) = 0 then .idle else .ofRest (s.rest (.compute i) 0)

/-- In how many turns tile `i` has executed operation `m` of the loop body. -/
def count (s : State (Cod n) (Act n) (Frame R n p)) (i : Tile n) (m : Nat) : Nat :=
  s.mem.curIterations i + if m < (point s i).stage then 1 else 0

/-- The codelet whose body contains an action. -/
def Act.owner : Act n → Cod n
  | .gatherA i => .copyA i
  | .gatherB i => .copyB i
  | .scatterC i => .copyC i
  | .pushScratchA i | .pushScratchB i => .skew i
  | .test i | .multiply i | .pushA i | .pushB i | .popA i | .popB i | .incr i => .compute i
  | .continuation => .endCodelet

theorem Point.ofRest_rest (i : Tile n) {q : Point} (h : q ≠ .idle) : ofRest (q.rest i) = q := by
  cases q <;> first | rfl | exact absurd rfl h

theorem Point.owner_of_mem_rest {i : Tile n} {q : Point} {a : Act n} (h : .act a ∈ q.rest i) :
    a.owner = .compute i := by
  cases q <;> simp [Point.rest, iteration, fireBody] at h
  case reset => subst h; rfl
  all_goals rcases h with rfl | rfl | rfl | rfl | rfl | rfl | rfl <;> rfl

theorem owner_of_mem_fireBody {k : Cod n} {a : Act n} (h : .act a ∈ fireBody k) : a.owner = k := by
  cases k <;> simp [fireBody] at h
  case skew i => rcases h with rfl | rfl <;> rfl
  all_goals subst h; rfl

/-- The point after the next operation; `more` says that the loop test succeeds. -/
def Point.next (more : Bool) : Point → Point
  | .idle => .idle
  | .reset => .test
  | .test => if more then .multiply else .signal
  | .multiply => .pushA
  | .pushA => .pushB
  | .pushB => .popA
  | .popA => .popB
  | .popB => .incr
  | .incr => .test
  | .signal => .done
  | .done => .done

/-- Which operation of which tile's turn an action is. -/
def Act.turn : Act n → Option (Tile n × Nat)
  | .multiply i => some (i, 0)
  | .pushA i => some (i, 1)
  | .pushB i => some (i, 2)
  | .popA i => some (i, 3)
  | .popB i => some (i, 4)
  | _ => none

theorem exec_cur [CommRing R] {blas : Blas R} {a : Act n} {f f' : Frame R n p}
    {os : List (Op (Cod n) (Act n))} (h : exec blas a f = some (f', os)) (j : Tile n) :
    f'.curIterations j = f.curIterations j + if a = .incr j then 1 else 0 := by
  cases a with
  | incr i =>
    obtain ⟨rfl, -⟩ := Prod.mk.inj (Option.some.inj h)
    by_cases hj : j = i
    · subst hj; simp
    · simp [hj, Ne.symm hj]
  | multiply i | pushA i | pushB i | popA i | popB i =>
    obtain ⟨_, -, he⟩ := Option.map_eq_some_iff.mp h
    obtain ⟨rfl, -⟩ := Prod.mk.inj he
    simp [Frame.setTile]
  | gatherA i | gatherB i | scatterC i | pushScratchA i | pushScratchB i | test i | continuation =>
    obtain ⟨rfl, -⟩ := Prod.mk.inj (Option.some.inj h)
    simp [Frame.setTile]

theorem exec_rest [CommRing R] {blas : Blas R} {a : Act n} {f f' : Frame R n p}
    {os : List (Op (Cod n) (Act n))} (h : exec blas a f = some (f', os)) (ha : ∀ i, a ≠ .test i) :
    os = [] := by
  rcases exec_acts h with rfl | ⟨i, rfl, -⟩
  · rfl
  · exact absurd rfl (ha i)

/-- The control part of the invariant. -/
structure Ctl [CommRing R] (blas : Blas R) (s : State (Cod n) (Act n) (Frame R n p)) : Prop where
  one : OneShot.Inv (cannonTP blas n p) (fun _ => True) (slot n) sources s
  suffix : ∀ k j, (∀ i, k ≠ .compute i) → s.rest k j <:+ fireBody k
  rest_compute : ∀ i, s.rest (.compute i) 0 = (point s i).rest i
  cur_le : ∀ i, s.mem.curIterations i ≤ n
  cur_lt : ∀ i, (point s i).Inside → s.mem.curIterations i < n
  cur_start : ∀ i, point s i = .idle ∨ point s i = .reset → s.mem.curIterations i = 0
  cur_end : ∀ i, point s i = .signal ∨ point s i = .done → s.mem.curIterations i = n

section Ctl

variable [CommRing R] {blas : Blas R} {s t : State (Cod n) (Act n) (Frame R n p)}

/-- An action is executed by its owner, in the owner's first firing. -/
theorem Ctl.owner (h : Ctl blas s) {k : Cod n} {j : Nat} {a : Act n}
    {os : List (Op (Cod n) (Act n))} (hrest : s.rest k j = .act a :: os) :
    k = a.owner ∧ j = 0 ∧ s.fired k = 1 := by
  obtain ⟨rfl, hf, -⟩ := h.one.todo_of_rest trivial hrest
  refine ⟨?_, rfl, hf⟩
  by_cases hk : ∃ i, k = .compute i
  · obtain ⟨i, rfl⟩ := hk
    have hmem : .act a ∈ (point s i).rest i := by
      rw [← h.rest_compute i, hrest]
      exact List.mem_cons_self ..
    exact (Point.owner_of_mem_rest hmem).symm
  · have hsuf := h.suffix k 0 (fun i hi => hk ⟨i, hi⟩)
    rw [hrest] at hsuf
    exact (owner_of_mem_fireBody (hsuf.subset (List.mem_cons_self ..))).symm

omit [CommRing R] in
/-- The point of a compute codelet that has started. -/
theorem point_of_fired {i : Tile n} (hf : s.fired (.compute i) ≠ 0) :
    point s i = .ofRest (s.rest (.compute i) 0) :=
  if_neg hf

omit [CommRing R] in
theorem point_idle_iff {i : Tile n} :
    point s i = .idle ↔ s.fired (.compute i) = 0 := by
  constructor
  · intro hp
    by_contra hf
    rw [point_of_fired hf] at hp
    unfold Point.ofRest at hp
    split at hp <;> cases hp
  · exact fun hf => if_pos hf

omit [CommRing R] in
/-- After an operation of `k` the points of the compute codelets other than `k`
are where they were. -/
theorem point_setRest {k : Cod n} {os : List (Op (Cod n) (Act n))}
    (hfired : t.fired = s.fired) (hr : t.rest = (s.setRest k 0 os).rest) (i : Tile n) :
    point t i = if k = .compute i ∧ s.fired k ≠ 0 then .ofRest os else point s i := by
  simp only [point, hfired, hr, State.setRest_rest, and_true]
  by_cases hk : Cod.compute i = k
  · subst hk
    by_cases hf : s.fired (.compute i) = 0 <;> simp [hf]
  · have hk' : ¬(k = .compute i ∧ s.fired k ≠ 0) := fun hc => hk hc.1.symm
    simp only [hk, if_false, hk']

/-- The initial state. -/
theorem Ctl.init (hn : 0 < n) (a b c : Nat → R) : Ctl blas (launched n p a b c) := by
  have hidle : ∀ i : Tile n, point (launched n p a b c) i = .idle := fun i => rfl
  refine ⟨OneShot.Inv.init (oneShot blas n p) fun k _ => added_eq hn k, ?_, ?_, ?_, ?_, ?_, ?_⟩
  · intro k j _
    exact List.nil_suffix
  · intro i
    rw [hidle]
    rfl
  · exact fun i => Nat.zero_le _
  · intro i hin
    rw [hidle] at hin
    exact hin.elim
  · exact fun i _ => rfl
  · intro i hend
    rw [hidle] at hend
    rcases hend with he | he <;> cases he

/-- **The compute codelet, operation by operation.** -/
theorem Ctl.compute_op (h : Ctl blas s) {i : Tile n}
    (hl : (cannonTP blas n p).step s (.op (.compute i) 0) = some t) :
    t.fired = s.fired ∧
    t.rest = (s.setRest (.compute i) 0
      (((point s i).next (decide (s.mem.curIterations i < n))).rest i)).rest ∧
    ∀ j, t.mem.curIterations j =
      s.mem.curIterations j + if j = i ∧ point s i = .incr then 1 else 0 := by
  have hbody := h.rest_compute i
  cases Program.step_inv hl with
  | decDep _ _ d os hrest =>
    rw [hrest] at hbody
    cases hq : point s i <;> simp [hq, Point.rest, iteration, fireBody] at hbody
    obtain ⟨rfl, rfl⟩ := hbody
    exact ⟨rfl, rfl, fun j => by simp⟩
  | resetCodelet _ _ d os hrest =>
    rw [hrest] at hbody
    cases hq : point s i <;> simp [hq, Point.rest, iteration, fireBody] at hbody
    obtain ⟨rfl, rfl⟩ := hbody
    exact ⟨rfl, rfl, fun j => by simp⟩
  | act _ _ a os os' m hrest hexec =>
    rw [hrest] at hbody
    have hrun : exec blas a s.mem = some (m, os') := hexec
    refine ⟨rfl, ?_, ?_⟩
    · cases hq : point s i <;> simp [hq, Point.rest, iteration, fireBody] at hbody
      case test =>
        obtain ⟨rfl, rfl⟩ := hbody
        obtain ⟨-, rfl⟩ := Prod.mk.inj (Option.some.inj hrun)
        by_cases hm : s.mem.curIterations i < n <;> simp [hm, Point.next, Point.rest]
      all_goals
        obtain ⟨rfl, rfl⟩ := hbody
        obtain rfl := exec_rest hrun (fun i => by simp)
        rfl
    · intro j
      show m.curIterations j = _
      rw [exec_cur hrun j]
      cases hq : point s i <;> simp [hq, Point.rest, iteration, fireBody] at hbody <;>
        simp [hbody.1, eq_comm]

/-- Where tile `i` stands after the step `l`. -/
def advance (s : State (Cod n) (Act n) (Frame R n p)) (l : Label (Cod n)) (i : Tile n) : Point :=
  if l = .fire (.compute i) then .reset
  else if l = .op (.compute i) 0 then (point s i).next (decide (s.mem.curIterations i < n))
  else point s i

/-- A step moves the compute codelet it belongs to and no other. -/
theorem Ctl.point_step (h : Ctl blas s) {l : Label (Cod n)}
    (hl : (cannonTP blas n p).step s l = some t) (i : Tile n) :
    point t i = advance s l i ∧
    (l = .fire (.compute i) ∨ l = .op (.compute i) 0 →
      t.rest (.compute i) 0 = (advance s l i).rest i) ∧
    (l ≠ .fire (.compute i) → l ≠ .op (.compute i) 0 →
      t.rest (.compute i) 0 = s.rest (.compute i) 0) ∧
    t.mem.curIterations i =
      s.mem.curIterations i + if l = .op (.compute i) 0 ∧ point s i = .incr then 1 else 0 := by
  cases l with
  | fire k =>
    cases Program.step_inv hl with
    | fire _ hpool =>
      by_cases hk : k = .compute i
      · subst hk
        have hf : s.fired (.compute i) = 0 := by
          have := h.one.fired_le_one (k := .compute i) trivial
          omega
        have hrest : (s.begin (.compute i) (fireBody (.compute i))).rest (.compute i) 0 =
            fireBody (.compute i) := by
          rw [State.begin_rest, hf, if_pos ⟨rfl, rfl⟩]
        have hadv : advance s (.fire (.compute i)) i = .reset := if_pos rfl
        refine ⟨?_, fun _ => ?_, fun hne => absurd rfl hne, by simp⟩
        · rw [hadv, point_of_fired (by rw [State.begin_fired, if_pos rfl]; omega)]
          show Point.ofRest ((s.begin (.compute i) (fireBody (.compute i))).rest _ 0) = _
          rw [hrest]
          rfl
        · rw [hadv]
          exact hrest
      · have hrest : (s.begin k (fireBody k)).rest (.compute i) 0 = s.rest (.compute i) 0 := by
          rw [State.begin_rest, if_neg (fun hc => hk hc.1.symm)]
        have hfired : (s.begin k (fireBody k)).fired (.compute i) = s.fired (.compute i) := by
          rw [State.begin_fired, if_neg (fun hc => hk hc.symm)]
        have hadv : advance s (.fire k) i = point s i := by simp [advance, hk]
        refine ⟨?_, fun hc => absurd hc (by simp [hk]), fun _ _ => hrest, by simp⟩
        rw [hadv]
        show point (s.begin k (fireBody k)) i = point s i
        rw [point, point, hfired, hrest]
  | op k j =>
    obtain ⟨o, os, os', hrest, hfired, hr, hmem⟩ := Program.rest_of_op hl
    obtain ⟨rfl, hf, -⟩ := h.one.todo_of_rest trivial hrest
    have hpt := point_setRest hfired hr i
    by_cases hk : k = .compute i
    · subst hk
      obtain ⟨-, hr', hcur⟩ := h.compute_op hl
      have hadv : advance s (.op (.compute i) 0) i =
          (point s i).next (decide (s.mem.curIterations i < n)) := by simp [advance]
      have hos : os' = (advance s (.op (.compute i) 0) i).rest i := by
        have := congrFun (congrFun (hr.symm.trans hr') (.compute i)) 0
        rwa [State.setRest_rest_self, State.setRest_rest_self, ← hadv] at this
      have hidle : advance s (.op (.compute i) 0) i ≠ .idle := by
        rw [hadv]
        have hne : point s i ≠ .idle := fun hc => by
          have := point_idle_iff.mp hc
          omega
        cases hq : point s i <;> simp [Point.next] <;> first | exact absurd hq hne | skip
        split <;> simp
      refine ⟨?_, fun _ => ?_, fun _ hne => absurd rfl hne, ?_⟩
      · rw [hpt, if_pos ⟨rfl, by omega⟩, hos, Point.ofRest_rest i hidle]
      · rw [hr, State.setRest_rest_self, hos]
      · rw [hcur i]
        simp
    · have hadv : advance s (.op k 0) i = point s i := by simp [advance, hk]
      refine ⟨?_, fun hc => absurd hc (by simp [hk]), fun _ _ => ?_, ?_⟩
      · rw [hpt, if_neg (fun hc => hk hc.1), hadv]
      · rw [hr, State.setRest_rest_ne _ _ _ _ _ _ (fun hc => hk hc.1.symm)]
      · have hne : ∀ a, o = .act a → a ≠ .incr i := by
          rintro a rfl rfl
          exact hk (h.owner hrest).1
        rcases hmem with ⟨-, -, he⟩ | ⟨a, new, rfl, hexec, -⟩
        · simp [he, hk]
        · have hrun : exec blas a s.mem = some (t.mem, new) := hexec
          rw [exec_cur hrun i, if_neg (hne a rfl)]
          simp [hk]

/-- The bodies of the other codelets only shrink. -/
private theorem Ctl.suffix_step (h : Ctl blas s) {l : Label (Cod n)}
    (hl : (cannonTP blas n p).step s l = some t) (k : Cod n) (j : Nat) (hk : ∀ i, k ≠ .compute i) :
    t.rest k j <:+ fireBody k := by
  cases l with
  | fire k' =>
    cases Program.step_inv hl with
    | fire _ _ =>
      rw [State.begin_rest]
      split
      next hc => exact hc.1 ▸ List.suffix_rfl
      next => exact h.suffix k j hk
  | op k' j' =>
    obtain ⟨o, os, os', hrest, -, hr, hmem⟩ := Program.rest_of_op hl
    rw [hr, State.setRest_rest]
    split
    next hc =>
      obtain ⟨rfl, rfl⟩ := hc
      have hos : os' = os := by
        rcases hmem with ⟨-, he, -⟩ | ⟨a, new, rfl, hexec, rfl⟩
        · exact he
        · have hrun : exec blas a s.mem = some (t.mem, new) := hexec
          rw [exec_rest hrun, List.nil_append]
          rintro i rfl
          exact hk i (h.owner hrest).1
      have hsuf := h.suffix k j hk
      rw [hrest] at hsuf
      rw [hos]
      exact (List.suffix_cons o os).trans hsuf
    next => exact h.suffix k j hk

/-- **One step keeps the control invariant.** -/
theorem Ctl.step (h : Ctl blas s) {l : Label (Cod n)}
    (hl : (cannonTP blas n p).step s l = some t) : Ctl blas t := by
  -- what a step of the compute codelet of tile `i` does to its counter
  have hmove : ∀ i, (advance s l i).Inside ∧ t.mem.curIterations i < n ∨
      (advance s l i = .idle ∨ advance s l i = .reset) ∧ t.mem.curIterations i = 0 ∨
      advance s l i = .test ∧ t.mem.curIterations i ≤ n ∨
      (advance s l i = .signal ∨ advance s l i = .done) ∧ t.mem.curIterations i = n := by
    intro i
    obtain ⟨-, -, -, hcur⟩ := h.point_step hl i
    rw [hcur]
    have hle := h.cur_le i
    have hlt := h.cur_lt i
    have hstart := h.cur_start i
    have hend := h.cur_end i
    unfold advance
    split
    next hc =>
      have : point s i = .idle := by
        subst hc
        cases Program.step_inv hl with
        | fire _ hpool =>
          have := h.one.fired_le_one (k := .compute i) trivial
          exact point_idle_iff.mpr (by omega)
      simp [this, hstart (Or.inl this)]
    next hc =>
      split
      next ho =>
        by_cases hmore : s.mem.curIterations i < n <;> cases hq : point s i <;>
          simp [hq, Point.Inside] at hlt hstart hend <;>
          simp [ho, hmore, Point.next, Point.Inside] <;> omega
      next ho =>
        cases hq : point s i <;> simp [hq, Point.Inside] at hlt hstart hend <;>
          simp [Point.Inside, *]
  refine ⟨h.one.step (oneShot blas n p) hl, h.suffix_step hl, ?_, ?_, ?_, ?_, ?_⟩
  · intro i
    obtain ⟨hpt, hin, hout, -⟩ := h.point_step hl i
    rw [hpt]
    by_cases hc : l = .fire (.compute i) ∨ l = .op (.compute i) 0
    · exact hin hc
    · have hne := not_or.mp hc
      rw [hout hne.1 hne.2, h.rest_compute i, advance, if_neg hne.1, if_neg hne.2]
  all_goals
    intro i
    have hm := hmove i
    rw [← (h.point_step hl i).1] at hm
  · rcases hm with ⟨-, hm⟩ | ⟨-, hm⟩ | ⟨-, hm⟩ | ⟨-, hm⟩ <;> omega
  · intro hin
    rcases hm with ⟨-, hm⟩ | ⟨hq | hq, -⟩ | ⟨hq, -⟩ | ⟨hq | hq, -⟩
    · exact hm
    all_goals exact absurd hin (by simp [hq, Point.Inside])
  · intro hq
    rcases hm with ⟨hi, -⟩ | ⟨-, hm⟩ | ⟨hq', -⟩ | ⟨hq', -⟩
    · rcases hq with hq | hq <;> simp [hq, Point.Inside] at hi
    · exact hm
    all_goals rcases hq with hq | hq <;> simp [hq] at hq'
  · intro hq
    rcases hm with ⟨hi, -⟩ | ⟨hq', -⟩ | ⟨hq', -⟩ | ⟨-, hm⟩
    · rcases hq with hq | hq <;> simp [hq, Point.Inside] at hi
    · rcases hq with hq | hq <;> simp [hq] at hq'
    · rcases hq with hq | hq <;> simp [hq] at hq'
    · exact hm

/-- **The control invariant holds in every reachable state.** -/
theorem Ctl.reachable (hn : 0 < n) {a b c : Nat → R}
    (hs : Reachable (cannonTP blas n p).step (launched n p a b c) s) : Ctl blas s :=
  hs.invariant (Ctl blas) (Ctl.init hn a b c) fun _ _ _ _ hi hl => hi.step hl

/-- **A step executes at most one operation of one turn**, and `count` says which. -/
theorem Ctl.count_step (h : Ctl blas s) {l : Label (Cod n)}
    (hl : (cannonTP blas n p).step s l = some t) (i : Tile n) {m : Nat} (hm : m < 5) :
    count t i m =
      count s i m + if (s.nextAct l).bind Act.turn = some (i, m) then 1 else 0 := by
  obtain ⟨hpt, -, -, hcur⟩ := h.point_step hl i
  rw [count, count, hpt, hcur]
  by_cases ho : l = .op (.compute i) 0
  · subst ho
    have hact : s.nextAct (.op (.compute i) 0) = Op.headAct ((point s i).rest i) := by
      rw [← h.rest_compute i]
      rfl
    rw [hact]
    by_cases hmore : s.mem.curIterations i < n <;> cases hq : point s i <;>
      simp [advance, hq, hmore, Point.next, Point.stage, Point.rest, iteration, fireBody,
        Op.headAct, Act.turn, hm] <;> grind
  · have hturn : (s.nextAct l).bind Act.turn ≠ some (i, m) := by
      intro hc
      obtain ⟨a, ha, hturn⟩ := Option.bind_eq_some_iff.mp hc
      obtain ⟨k, j, os, rfl, hrest⟩ := State.nextAct_eq_some ha
      obtain ⟨rfl, rfl, -⟩ := h.owner hrest
      cases a <;> simp [Act.turn] at hturn <;> exact ho (by rw [Act.owner, hturn.1])
    rw [if_neg hturn, if_neg (fun hc => ho hc.1), advance]
    split
    next hc =>
      subst hc
      have : point s i = .idle := by
        cases Program.step_inv hl with
        | fire _ hpool =>
          have := h.one.fired_le_one (k := .compute i) trivial
          exact point_idle_iff.mpr (by omega)
      simp [this, Point.stage]
    next => rfl

/-! ## Runs are finite -/

/-- How many steps of its body a compute codelet made in the current turn, and to
get to it. -/
def Point.work : Point → Nat
  | .idle => 0
  | .reset => 1
  | .test => 2
  | .multiply => 3
  | .pushA => 4
  | .pushB => 5
  | .popA => 6
  | .popB => 7
  | .incr => 8
  | .signal => 3
  | .done => 4

/-- How many steps a codelet has made, its start included. -/
def work (s : State (Cod n) (Act n) (Frame R n p)) (k : Cod n) : Nat :=
  match k with
  | .compute i => 7 * s.mem.curIterations i + (point s i).work
  | k => if s.fired k = 0 then 0 else 1 + ((fireBody k).length - (s.rest k 0).length)

/-- How many steps a codelet makes at most. -/
def workLimit (n : Nat) (k : Cod n) : Nat :=
  match k with
  | .compute _ => 7 * n + 4
  | k => 1 + (fireBody k).length

omit [CommRing R] in
theorem work_of_ne {k : Cod n} (hk : ∀ i, k ≠ .compute i) : work s k =
    if s.fired k = 0 then 0 else 1 + ((fireBody k).length - (s.rest k 0).length) := by
  cases k <;> first | rfl | exact absurd rfl (hk _)

theorem Ctl.work_le (h : Ctl blas s) (k : Cod n) : work s k ≤ workLimit n k := by
  by_cases hk : ∃ i, k = .compute i
  · obtain ⟨i, rfl⟩ := hk
    have hle := h.cur_le i
    have hlt := h.cur_lt i
    simp only [work, workLimit]
    cases hq : point s i <;> simp [hq, Point.Inside] at hlt <;> simp only [Point.work] <;> omega
  · have hk' : ∀ i, k ≠ .compute i := fun i hi => hk ⟨i, hi⟩
    have : workLimit n k = 1 + (fireBody k).length := by
      cases k <;> first | rfl | exact absurd rfl (hk' _)
    rw [work_of_ne hk', this]
    split <;> omega

/-- A step is one unit of work of its codelet. -/
theorem Ctl.work_step (h : Ctl blas s) {l : Label (Cod n)}
    (hl : (cannonTP blas n p).step s l = some t) (k : Cod n) :
    work t k = work s k + if k = l.cod then 1 else 0 := by
  by_cases hk : ∃ i, k = .compute i
  · obtain ⟨i, rfl⟩ := hk
    obtain ⟨hpt, -, -, hcur⟩ := h.point_step hl i
    simp only [work, hpt, hcur]
    cases l with
    | fire k =>
      by_cases hk : k = .compute i
      · subst hk
        have hidle : point s i = .idle := by
          cases Program.step_inv hl with
          | fire _ hpool =>
            have := h.one.fired_le_one (k := .compute i) trivial
            exact point_idle_iff.mpr (by omega)
        simp [advance, hidle, Point.work, Label.cod]
      · simp [advance, hk, Label.cod, Ne.symm hk]
    | op k j =>
      obtain ⟨o, os, os', hrest, -⟩ := Program.rest_of_op hl
      obtain ⟨rfl, hf, -⟩ := h.one.todo_of_rest trivial hrest
      by_cases hk : k = .compute i
      · subst hk
        have hbody := h.rest_compute i
        rw [hrest] at hbody
        by_cases hmore : s.mem.curIterations i < n <;> cases hq : point s i <;>
          simp [hq, Point.rest] at hbody <;>
          simp [advance, hq, hmore, Point.next, Point.work, Label.cod] <;> omega
      · simp [advance, hk, Label.cod, Ne.symm hk]
  · have hk' : ∀ i, k ≠ .compute i := fun i hi => hk ⟨i, hi⟩
    rw [work_of_ne hk', work_of_ne hk']
    have hsuf := (h.step hl).suffix k 0 hk'
    cases l with
    | fire k' =>
      cases Program.step_inv hl with
      | fire _ hpool =>
        rw [State.begin_fired, State.begin_rest]
        by_cases he : k = k'
        · subst he
          have hf : s.fired k = 0 := by
            have := h.one.fired_le_one (k := k) trivial
            omega
          simp [hf, Label.cod, cannonTP]
        · simp [he, Label.cod]
    | op k' j =>
      obtain ⟨o, os, os', hrest, hfired, hr, hmem⟩ := Program.rest_of_op hl
      obtain ⟨rfl, hf, -⟩ := h.one.todo_of_rest trivial hrest
      rw [hfired]
      by_cases he : k = k'
      · subst he
        have hos : os' = os := by
          rcases hmem with ⟨-, he, -⟩ | ⟨a, new, rfl, hexec, rfl⟩
          · exact he
          · have hrun : exec blas a s.mem = some (t.mem, new) := hexec
            rw [exec_rest hrun, List.nil_append]
            rintro i rfl
            exact hk' i (h.owner hrest).1
        have hlen := (h.suffix k 0 hk').length_le
        rw [hrest, List.length_cons] at hlen
        rw [hr, State.setRest_rest_self, hrest, hos, List.length_cons]
        simp only [hf, Label.cod, if_true]
        rw [if_neg (by omega), if_neg (by omega)]
        omega
      · rw [hr, State.setRest_rest_ne _ _ _ _ _ _ (fun hc => he hc.1)]
        simp [he, Label.cod]

/-- **Every run of `cannonTP` is finite**, with a bound that depends on `n` only. -/
theorem run_length_le (hn : 0 < n) {a b c : Nat → R} {ls : List (Label (Cod n))}
    (hrun : run (cannonTP blas n p).step (launched n p a b c) ls = some s) :
    ls.length ≤ ∑ k, workLimit n k :=
  run_length_le_sum (Ctl blas) work Label.cod (workLimit n) (Ctl.init hn a b c)
    (fun k => by cases k <;> rfl) (fun _ _ _ h hl => ⟨h.step hl, h.work_step hl⟩)
    (fun _ k h => h.work_le k) hrun

end Ctl

end Darts.CannonDfswp
