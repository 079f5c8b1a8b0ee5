import Darts.Lib.ForkJoinLogic

/-!
# `Tree/strict.cpp`: a tree of threaded procedures that wait for their children

`CD1` of a `tpStrict` of depth 0 signals; otherwise it invokes `fanout` TPs of the depth below,
whose signals go to `CD2`, which waits for as many and signals then. The launcher waits for the
root.

A TP is named by the way to it from the root. The program writes no data: the memory is
history, the TPs that have signalled. A depth is an integer here: where `depth - 1` is no `int`,
which the language leaves open, the invoking goes on.
-/

namespace Darts.StrictTree

open ForkJoin Transition

/-! ## The program -/

/-- Whether a TP has signalled. -/
abbrev Memory : Type := List Nat → Bool

/-- `class tpStrict`: what the constructor is given, and the way to the TP, the last turn first. -/
structure TP where
  depth : Int
  fanout : Int
  way : List Nat

/-- What is scheduled: the closures of the TPs, and the codelets. -/
inductive Codelet
  | launch (depth fannout : Int)
  | startCD (depth fannout : Int)
  | endCD
  | invoke (myStrict : TP)
  | CD1 (myStrict : TP)
  | CD2 (myStrict : TP)

/-- The TP that turn `i` of the loop of `cd1Strict::fire` invokes. -/
def TP.child (myStrict : TP) (i : Nat) : TP :=
  ⟨myStrict.depth - 1, myStrict.fanout, i :: myStrict.way⟩

/-- The loop of `cd1Strict::fire`. -/
def TP.children (myStrict : TP) : Proc Codelet :=
  .all ((List.range myStrict.fanout.toNat).map fun i => .run (.invoke (myStrict.child i)))

/-- The constructors and the `fire`s. -/
def fire : Codelet → Unit → Memory → Memory × Option (Proc Codelet)
  | .launch depth fannout, _, m => (m, some (.run (.startCD depth fannout)))
  | .startCD depth fannout, _, m =>
    (m, some (.wait 1 .endCD (.run (.invoke ⟨depth, fannout, []⟩))))
  | .endCD, _, m => (m, none)
  | .invoke myStrict, _, m => (m, some (.run (.CD1 myStrict)))
  | .CD1 myStrict, _, m =>
    if myStrict.depth = 0 then (Function.update m myStrict.way true, none)
    -- the counter is a `uint32_t`
    else (m, some (.wait (BitVec.ofInt 32 myStrict.fanout).toNat (.CD2 myStrict) myStrict.children))
  | .CD2 myStrict, _, m => (Function.update m myStrict.way true, none)

/-- What describes a tree: depth 0, or a depth and a branching. -/
def IsTree (depth fannout : Int) : Prop := depth = 0 ∨ 0 < depth ∧ 0 < fannout

/-! ## What is below a TP -/

/-- The TPs below one, and the TP itself. -/
def below (way : List Nat) : Set (List Nat) := { way' | way <:+ way' }

theorem mem_below_self (way : List Nat) : way ∈ below way := List.suffix_refl way

theorem below_cons (i : Nat) (way : List Nat) : below (i :: way) ⊆ below way :=
  fun _ h => (List.suffix_cons i way).trans h

theorem below_disjoint {i j : Nat} (h : i ≠ j) (way : List Nat) :
    Disjoint (below (i :: way)) (below (j :: way)) := by
  refine Set.disjoint_left.mpr fun way' hi hj => h ?_
  have hsame := List.suffix_of_suffix_length_le hi hj le_rfl
  exact (List.cons.inj (hsame.eq_of_length rfl)).1

/-- All of the tree from a TP on has signalled. -/
def Finished (depth fanout : Nat) (way : List Nat) (m : Memory) : Prop :=
  ∀ turns : List Nat, turns.length ≤ depth → (∀ i ∈ turns, i < fanout) → m (turns ++ way) = true

variable {d f : Nat} {fanout : Int} {way : List Nat} {m m' : Memory}

theorem Finished.congr (h : Finished d f way m) (hm : Set.EqOn m m' (below way)) :
    Finished d f way m' := by
  intro turns hlen hturns
  rw [← hm (List.suffix_append turns way)]
  exact h turns hlen hturns

theorem Finished.zero (h : m way = true) : Finished 0 f way m := by
  intro turns hlen _
  obtain rfl : turns = [] := List.length_eq_zero_iff.mp (Nat.le_zero.mp hlen)
  exact h

theorem Finished.succ (h : m way = true) (hbelow : ∀ i < f, Finished d f (i :: way) m) :
    Finished (d + 1) f way m := by
  intro turns hlen hturns
  rcases List.eq_nil_or_concat turns with rfl | ⟨rest, i, rfl⟩
  · exact h
  · rw [List.concat_eq_append, List.append_assoc]
    simp only [List.concat_eq_append, List.length_append, List.length_singleton] at hlen
    refine hbelow i (hturns i (by simp)) rest (by omega) fun j hj => hturns j (by simp [hj])

/-! ## Every order of firing -/

/-- How many constructors and codelets of `tpStrict`s are run. -/
def steps (f : Nat) : Nat → Nat
  | 0 => 2
  | d + 1 => f * steps f d + 3

/-- A codelet that signals. -/
theorem signal_ok {c : Codelet} {Q : Memory → Prop}
    (hfire : ∀ m, fire c () m = (Function.update m way true, none))
    (hQ : ∀ m', Set.EqOn (Function.update m way true) m' (below way) → Q m') :
    Ok fire 1 (.run c) (below way) (below way) Q m := by
  refine .of_run fun _ m' hm => ?_
  have hsame : Set.EqOn (Function.update m way true) (Function.update m' way true) (below way) := by
    intro l hl
    by_cases heq : l = way
    · rw [heq, Function.update_self, Function.update_self]
    · rw [Function.update_of_ne heq, Function.update_of_ne heq, hm hl]
  rw [hfire]
  refine ⟨fun l hl => ?_, (fun q hq => by cases hq), .done fun m'' hm' => hQ m'' (hsame.trans hm')⟩
  refine (Function.update_of_ne ?_ _ _).symm
  rintro rfl
  exact hl (mem_below_self _)

theorem children_succ (d : Nat) (fanout : Int) (way : List Nat) :
    TP.children ⟨(d + 1 : Nat), fanout, way⟩ =
      .all ((List.range fanout.toNat).map fun i => .run (.invoke ⟨d, fanout, i :: way⟩)) := by
  have hdepth : ((d + 1 : Nat) : Int) - 1 = d := by omega
  simp only [TP.children, TP.child, hdepth]

theorem signals_children (myStrict : TP) :
    myStrict.children.signals = myStrict.fanout.toNat := by
  unfold TP.children
  rw [Proc.signals_all, List.length_map, List.length_range]
  intro p hp
  obtain ⟨i, -, rfl⟩ := List.mem_map.mp hp
  rfl

/-- The children of a TP, when each is as it should be. -/
theorem children_ok {k : Nat} (h : ∀ i, Ok fire k (.run (.invoke ⟨d, fanout, i :: way⟩))
    (below (i :: way)) (below (i :: way)) (Finished d fanout.toNat (i :: way)) m) :
    Ok fire (fanout.toNat * k) (TP.children ⟨(d + 1 : Nat), fanout, way⟩) (below way) (below way)
      (fun m' => ∀ i < fanout.toNat, Finished d fanout.toNat (i :: way) m') m := by
  have hall := Ok.all (List.nodup_range (n := fanout.toNat))
    (fun i _ j _ hne => below_disjoint hne way) (fun i _ => h i)
  have hsub : (⋃ i ∈ List.range fanout.toNat, below (i :: way)) ⊆ below way :=
    Set.iUnion₂_subset fun i _ => below_cons i way
  rw [List.length_range, ← children_succ] at hall
  exact hall.weaken hsub hsub fun m' hm' i hi => hm' i (List.mem_range.mpr hi)

/-- `CD2`, once the children have signalled. -/
theorem cd2_ok (h : ∀ i < f, Finished d f (i :: way) m) {depth fanout : Int} :
    Ok fire 1 (.run (.CD2 ⟨depth, fanout, way⟩)) (below way) (below way)
      (Finished (d + 1) f way) m := by
  refine signal_ok (fun _ => rfl) fun m' hm' => ?_
  have hself : m' way = true := by
    rw [← hm' (mem_below_self way), Function.update_self]
  refine Finished.succ hself fun i hi => (h i hi).congr fun l hl => ?_
  rw [← hm' (below_cons i way hl)]
  refine (Function.update_of_ne ?_ _ _).symm
  rintro rfl
  have hlen := List.IsSuffix.length_le hl
  simp at hlen

/-- A TP, by induction on its depth. -/
theorem tpStrict_ok (hpos : d = 0 ∨ 0 < fanout) (hint : fanout < 2 ^ 31) (way : List Nat)
    (m : Memory) :
    Ok fire (steps fanout.toNat d) (.run (.invoke ⟨d, fanout, way⟩)) (below way) (below way)
      (Finished d fanout.toNat way) m := by
  induction d generalizing way m with
  | zero =>
    refine .of_run fun _ m' _ => ⟨Set.eqOn_refl .., (fun q hq => Option.some.inj hq ▸ rfl), ?_⟩
    refine signal_ok (fun _ => rfl) fun m'' hm'' => Finished.zero ?_
    rw [← hm'' (mem_below_self way), Function.update_self]
  | succ d ih =>
    have hpos : 0 < fanout := hpos.resolve_left (Nat.succ_ne_zero d)
    refine .of_run fun _ m' _ => ⟨Set.eqOn_refl .., (fun q hq => Option.some.inj hq ▸ rfl), ?_⟩
    refine .of_run fun _ m' _ => ?_
    have hdepth : ¬((d + 1 : Nat) : Int) = 0 := by omega
    simp only [fire, if_neg hdepth]
    refine ⟨Set.eqOn_refl .., (fun q hq => Option.some.inj hq ▸ rfl), ?_⟩
    have hcounter : (BitVec.ofInt 32 fanout).toNat = fanout.toNat := by
      rw [BitVec.toNat_ofInt]
      omega
    refine .wait ?_ (by omega) (children_ok fun i => ih (.inr hpos) (i :: way) m')
      (fun m'' hm'' => cd2_ok hm'') le_rfl
    rw [hcounter, signals_children]

/-- The launcher. -/
theorem launcher_completes (hpos : d = 0 ∨ 0 < fanout) (hint : fanout < 2 ^ 31) (m : Memory) :
    Completes fire (.run (.launch d fanout)) m (steps fanout.toNat d + 3)
      (Finished d fanout.toNat []) := by
  have hok : Ok fire (steps fanout.toNat d + 3) (.run (.launch d fanout)) (below []) (below [])
      (Finished d fanout.toNat []) m := by
    refine .of_run fun _ m' _ => ⟨Set.eqOn_refl .., (fun q hq => Option.some.inj hq ▸ rfl), ?_⟩
    refine .of_run fun _ m' _ => ⟨Set.eqOn_refl .., (fun q hq => Option.some.inj hq ▸ rfl), ?_⟩
    refine .wait rfl Nat.one_pos (tpStrict_ok hpos hint [] m') (fun m'' hm'' => ?_) le_rfl
    refine .of_run fun _ m₃ hm₃ => ⟨Set.eqOn_refl .., (fun q hq => by cases hq), ?_⟩
    exact .done fun m₄ hm₄ => hm''.congr (hm₃.trans hm₄)
  exact (hok.completes rfl).imp fun m' hm' => hm'.1

/-! ## Other depths and fanouts -/

variable {depth : Int}

/-- Without branching, `CD2` of the root is never signalled. -/
theorem stuck_of_nonpos (hdepth : depth ≠ 0) (hfanout : fanout ≤ 0) (m : Memory) :
    ∃ s, Reachable (step fire) (ForkJoin.launch (.run (.launch depth fanout)) m) s ∧
      Stuck (step fire) s ∧ s.signalled = 0 := by
  have hnone : fanout.toNat = 0 := Int.toNat_of_nonpos hfanout
  let s : State Codelet (List Nat) Bool :=
    { mem := m
      slots := [{ counter := 1, task := .endCD, final := none },
        { counter := (BitVec.ofInt 32 fanout).toNat, task := .CD2 ⟨depth, fanout, []⟩,
          final := some 0 }]
      ready := []
      signalled := 0 }
  have hrun : run (step fire) (ForkJoin.launch (.run (.launch depth fanout)) m)
      (List.replicate 4 (0, ())) = some s := by
    simp [run, step, ForkJoin.launch, State.start, fire, TP.children, Proc.all, hnone, hdepth, s]
  exact ⟨s, Reachable.of_run hrun, fun l => rfl, rfl⟩

/-- What never ends: a tree that starts below depth 0. -/
def Endless : Codelet → Prop
  | .launch depth fannout | .startCD depth fannout => depth < 0 ∧ 0 < fannout
  | .invoke myStrict | .CD1 myStrict => myStrict.depth < 0 ∧ 0 < myStrict.fanout
  | .endCD | .CD2 _ => False

theorem Endless.next (c : Codelet) (ω : Unit) (m : Memory) (h : Endless c) :
    ∃ p c', (fire c ω m).2 = some p ∧ p.Ready c' ∧ Endless c' := by
  cases c with
  | launch depth fannout => exact ⟨_, .startCD depth fannout, rfl, rfl, h⟩
  | startCD depth fannout => exact ⟨_, .invoke ⟨depth, fannout, []⟩, rfl, rfl, h⟩
  | invoke myStrict => exact ⟨_, .CD1 myStrict, rfl, rfl, h⟩
  | CD1 myStrict =>
    obtain ⟨hdepth, hfanout⟩ := h
    have hne : ¬myStrict.depth = 0 := by omega
    simp only [fire, if_neg hne]
    refine ⟨_, .invoke (myStrict.child 0), rfl, ?_, ?_⟩
    · refine Proc.ready_all (List.mem_map.mpr ⟨0, ?_, rfl⟩) rfl
      exact List.mem_range.mpr (by omega)
    · exact ⟨show myStrict.depth - 1 < 0 by omega, hfanout⟩
  | endCD => exact h.elim
  | CD2 myStrict => exact h.elim

/-- **The strict tree waits for all of its TPs**: under every order of firing the launcher signals
once, when every TP of the tree has signalled and nothing is left to be fired; no run is longer
than `steps` and the launcher's own three; and none stops before the signal. What describes no tree
does not complete: without branching `CD2` is never signalled, and a negative depth is never 0. -/
theorem strict_completes (depth fanout : Int) (hint : fanout < 2 ^ 31) (m : Memory) :
    (IsTree depth fanout → Completes fire (.run (.launch depth fanout)) m
      (steps fanout.toNat depth.toNat + 3) (Finished depth.toNat fanout.toNat [])) ∧
    (¬IsTree depth fanout → ∀ k Q, ¬Completes fire (.run (.launch depth fanout)) m k Q) := by
  constructor
  · intro htree
    have hdepth : 0 ≤ depth := htree.elim (fun h => h.symm.le) fun h => h.1.le
    obtain ⟨d, rfl⟩ := Int.eq_ofNat_of_zero_le hdepth
    have hpos : d = 0 ∨ 0 < fanout := htree.imp Int.natCast_eq_zero.mp And.right
    exact launcher_completes hpos hint m
  · intro htree k Q h
    unfold IsTree at htree
    by_cases hfanout : fanout ≤ 0
    · obtain ⟨s, hs, hstuck, hnone⟩ := stuck_of_nonpos (fun hdepth => htree (.inl hdepth)) hfanout m
      have hsome := h.signals s hs hstuck
      omega
    · have hend : Endless (.launch depth fanout) := ⟨by omega, by omega⟩
      have hstart : ∃ c g, (c, g) ∈ (ForkJoin.launch (.run (.launch depth fanout)) m).ready ∧
          Endless c := ⟨_, none, List.mem_singleton_self _, hend⟩
      obtain ⟨ls, t, hrun, hlen⟩ := endless Endless.next (k + 1) hstart
      have hbound := h.bound ls t hrun
      omega

/-- Depth 2 and two children each, and none. -/
theorem strict_completes_two :
    Completes fire (.run (.launch 2 2)) (fun _ => false) 20 (Finished 2 2 []) ∧
      ∀ k Q, ¬Completes fire (.run (.launch 2 0)) (fun _ => false) k Q := by
  refine ⟨(strict_completes 2 2 (by decide) _).1 (.inr (by decide)), ?_⟩
  refine (strict_completes 2 0 (by decide) _).2 ?_
  unfold IsTree
  decide

end Darts.StrictTree
