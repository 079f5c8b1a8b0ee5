import Darts.CannonDfswp.RealQueues
import Darts.CannonDfswp.Spsc

/-!
# What a completed call does, seen from `Program`

`withQueues` is the frame of `Program` that belongs to a frame with real queues, once it
is known what blocks the queues hold. A push, a pop and a multiplication have there the
effect that the last access of the call has here; and the block a push in progress was
given stays the block it is to push, whatever the other codelets do meanwhile
(`Ctl.pushed_stable`).
-/

namespace Darts.CannonDfswp

open Cannon Transition

variable {R : Type} {n p : Nat}

section SetAt

variable {α : Type} (f : Side → Tile n → α) (d : Side) (i : Tile n) (v : α)

@[simp] theorem setAt_self : setAt f d i v d i = v := if_pos ⟨rfl, rfl⟩

theorem setAt_ne {d' : Side} {i' : Tile n} (h : ¬(d' = d ∧ i' = i)) :
    setAt f d i v d' i' = f d' i' := if_neg h

theorem setAt_eq {d' : Side} {i' : Tile n} :
    setAt f d i v d' i' = if d' = d ∧ i' = i then v else f d' i' := rfl

theorem setAt_setAt (w : α) : setAt (setAt f d i v) d i w = setAt f d i w := by
  funext d' i'
  rw [setAt_eq, setAt_eq, setAt_eq]
  split <;> rfl

end SetAt

/-- The frame of `Program` with the blocks `Q` in the queues. -/
def LiveFrame.withQueues (f : LiveFrame R n p) (Q : Side → Tile n → List (Mat R)) :
    Frame R n p :=
  { A := f.A, B := f.B, C := f.C, allMatrices := fun i => ⟨f.mem i, Q .A i, Q .B i⟩
    curIterations := f.curIterations, continuations := f.continuations }

namespace LiveFrame

variable {f : LiveFrame R n p} {Q : Side → Tile n → List (Mat R)} {d : Side} {i : Tile n}

@[simp] theorem queue_withQueues (f : LiveFrame R n p) (Q : Side → Tile n → List (Mat R))
    (d : Side) (i : Tile n) : queue d ((f.withQueues Q).allMatrices i) = Q d i := by
  cases d <;> rfl

theorem withQueues_setAt (l : List (Mat R)) :
    f.withQueues (setAt Q d i l) = (f.withQueues Q).setTile i (match d with
      | .A => { (f.withQueues Q).allMatrices i with AQueue := l }
      | .B => { (f.withQueues Q).allMatrices i with BQueue := l }) := by
  refine congrArg (fun m => ({ f.withQueues Q with allMatrices := m } : Frame R n p)) ?_
  funext i'
  by_cases hi : i' = i
  · subst hi
    cases d <;> simp [withQueues, setAt_eq]
  · simp [withQueues, setAt_eq, hi]

theorem withQueues_mem (t : TileMem R p) (hA : t.AQueue = Q .A i) (hB : t.BQueue = Q .B i) :
    ({ f with mem := Function.update f.mem i t.mem } : LiveFrame R n p).withQueues Q =
      (f.withQueues Q).setTile i t := by
  refine congrArg (fun m => ({ f.withQueues Q with allMatrices := m } : Frame R n p)) ?_
  funext i'
  by_cases hi : i' = i
  · subst hi
    simp [← hA, ← hB]
  · simp [withQueues, hi]

end LiveFrame

/-- An action that has nothing to do with the queues. -/
def Act.Local : Act n → Prop
  | .gatherA _ | .gatherB _ | .scatterC _ | .test _ | .incr _ | .continuation => True
  | _ => False

theorem map_action_act (os : List (Op (Cod n) (Act n))) :
    (os.map (Op.map Access.act)).map (Op.map Access.action) = os := by
  rw [List.map_map]
  refine (List.map_congr_left fun o _ => ?_).trans (List.map_id os)
  cases o <;> rfl

/-- The block a push adds to its queue. -/
def pushed [Zero R] (m : Frame R n p) : Act n → Option (Mat R)
  | .pushScratchA i => some (m.allMatrices i).tileA_scratch.copy
  | .pushScratchB i => some (m.allMatrices i).tileB_scratch.copy
  | .pushA i => (m.allMatrices i).getCurrentHeadA.map Mat.copy
  | .pushB i => (m.allMatrices i).getCurrentHeadB.map Mat.copy
  | _ => none

theorem pushed_pushScratch [Zero R] (m : Frame R n p) (d : Side) (u : Tile n) :
    pushed m (pushScratch d u) = some (scratch d (m.allMatrices u)).copy := by
  cases d <;> rfl

theorem pushed_push [Zero R] (m : Frame R n p) (d : Side) (u : Tile n) :
    pushed m (push d u) = (queue d (m.allMatrices u)).head?.map Mat.copy := by
  cases d <;> rfl

section Exec

variable [CommRing R] {blas : Blas R} {f : LiveFrame R n p} {Q : Side → Tile n → List (Mat R)}

/-- An action without queues does the same here and there. -/
theorem exec_local {x : Act n} (h : x.Local) : exec blas x (f.withQueues Q) =
    some ((beginAct f x).1.withQueues Q, (beginAct f x).2.map (Op.map Access.action)) := by
  cases x with
  | gatherA i | gatherB i =>
    exact congrArg (fun m => some (m, []))
      (LiveFrame.withQueues_mem ⟨_, Q .A i, Q .B i⟩ rfl rfl).symm
  | scatterC i | incr i | continuation => rfl
  | test i =>
    show some (_, if f.curIterations i < n then _ else _) =
      some (_, List.map _ (if _ then _ else _))
    split
    · rw [map_action_act]
      rfl
    · rfl
  | _ => exact absurd h id

/-- A push adds its block at the end of its queue. -/
theorem exec_pushed {x : Act n} {d : Side} {i : Tile n} {v : Mat R}
    (hx : x.pushesInto = some (d, i)) (hv : pushed (f.withQueues Q) x = some v) :
    exec blas x (f.withQueues Q) = some (f.withQueues (setAt Q d i (Q d i ++ [v])), []) := by
  rw [LiveFrame.withQueues_setAt]
  cases x with
  | pushScratchA j | pushScratchB j =>
    obtain ⟨rfl, rfl⟩ := Prod.mk.inj (Option.some.inj hx)
    obtain rfl := Option.some.inj hv
    rfl
  | pushA j | pushB j =>
    obtain ⟨rfl, rfl⟩ := Prod.mk.inj (Option.some.inj hx)
    obtain ⟨X, hX, rfl⟩ := Option.map_eq_some_iff.mp hv
    exact (congrArg (Option.map _) hX).trans rfl
  | _ => exact absurd hx (by simp [Act.pushesInto])

/-- A pop takes the first block. -/
theorem exec_pop {d : Side} {i : Tile n} (hne : Q d i ≠ []) :
    exec blas (pop d i) (f.withQueues Q) = some (f.withQueues (setAt Q d i (Q d i).tail), []) := by
  rw [LiveFrame.withQueues_setAt]
  obtain ⟨X, l, hl⟩ := List.exists_cons_of_ne_nil hne
  cases d with
  | A =>
    have hhead : ((f.withQueues Q).allMatrices i).getCurrentHeadA = some X := by
      show (Q .A i).head? = some X
      rw [hl]
      rfl
    exact (congrArg (Option.map _) hhead).trans rfl
  | B =>
    have hhead : ((f.withQueues Q).allMatrices i).getCurrentHeadB = some X := by
      show (Q .B i).head? = some X
      rw [hl]
      rfl
    exact (congrArg (Option.map _) hhead).trans rfl

/-- `DGEMM` on what the pointers point at is `DGEMM` on the heads. -/
theorem exec_multiply {i : Tile n}
    (hd : ∀ d, ∃ X, f.deref d i = some X ∧ (Q d i).head? = some X) :
    (f.multiply blas i).2 = [] ∧ exec blas (.multiply i) (f.withQueues Q) =
      some ((f.multiply blas i).1.withQueues Q, []) := by
  obtain ⟨A, hA, hA'⟩ := hd .A
  obtain ⟨B, hB, hB'⟩ := hd .B
  unfold LiveFrame.multiply
  rw [hA, hB]
  refine ⟨rfl, ?_⟩
  have hmul : multiply blas ((f.withQueues Q).allMatrices i) =
      some (((f.withQueues Q).allMatrices i).storeC
        (blas.dgemm p p p 1 A.ptr p B.ptr p 1 ((f.withQueues Q).allMatrices i).tileC.ptr p)) := by
    unfold multiply
    rw [show ((f.withQueues Q).allMatrices i).getCurrentHeadA = some A from hA',
      show ((f.withQueues Q).allMatrices i).getCurrentHeadB = some B from hB']
  refine (congrArg (Option.map _) hmul).trans (congrArg (fun m => some (m, [])) ?_)
  exact (LiveFrame.withQueues_mem _ rfl rfl).symm

end Exec

/-! ## A push in progress -/

section Stable

variable [CommRing R] {blas : Blas R} {s : State (Cod n) (Act n) (Frame R n p)}

/-- Only the copy codelets and the multiplication write to the memory of a tile. -/
theorem mem_of_exec {y : Act n} {m m' : Frame R n p} {os : List (Op (Cod n) (Act n))}
    (h : exec blas y m = some (m', os)) (u : Tile n) :
    (m'.allMatrices u).mem = (m.allMatrices u).mem ∨ y = .gatherA u ∨ y = .gatherB u ∨
      y = .multiply u := by
  rcases exec_tile h u with ⟨-, hstep⟩ | ⟨-, heq⟩
  · generalize m'.allMatrices u = t at hstep
    cases hstep with
    | gatherA => exact Or.inr (Or.inl rfl)
    | gatherB => exact Or.inr (Or.inr (Or.inl rfl))
    | multiply => exact Or.inr (Or.inr (Or.inr rfl))
    | pushScratchA | pushScratchB | pushA | pushB | popA | popB => exact Or.inl rfl
  · exact Or.inl (by rw [heq])

/-- **The block a push was given stays the block it is to push**: nobody writes to the
scratch tiles any more, and the head of a queue is only popped by the codelet that
pushes it on. -/
theorem Ctl.pushed_stable (hc : Ctl blas s) {k k' : Cod n} {j j' : Nat} {x y : Act n}
    {os : List (Op (Cod n) (Act n))} {m' : Frame R n p} {d : Side} {i : Tile n} {v : Mat R}
    (hy : At s k j y) (hx : At s k' j' x) (hne : (k', j') ≠ (k, j))
    (hexec : exec blas y s.mem = some (m', os)) (hpush : x.pushesInto = some (d, i))
    (hv : pushed s.mem x = some v) : pushed m' x = some v := by
  obtain ⟨osx, hrestx⟩ := hx
  obtain ⟨osy, hresty⟩ := hy
  obtain ⟨rfl, rfl, hfx⟩ := hc.owner hrestx
  obtain ⟨rfl, rfl, -⟩ := hc.owner hresty
  have hnext : s.nextAct (.op y.owner 0) = some y := by rw [State.nextAct, hresty]; rfl
  rcases pushesInto_iff.mp hpush with ⟨u, rfl, -⟩ | ⟨u, rfl, -⟩
  · rw [owner_pushScratch] at hrestx hfx
    have hgathered := hc.gathered (u := u) (by omega)
    have hmem : (m'.allMatrices u).mem = (s.mem.allMatrices u).mem := by
      rcases mem_of_exec hexec u with h | rfl | rfl | rfl
      · exact h
      · exact absurd hgathered.1 (hc.not_executed hnext)
      · exact absurd hgathered.2 (hc.not_executed hnext)
      · rw [(hc.skew_over ⟨osy, hresty⟩ u).2.2 0] at hrestx
        cases hrestx
    rw [pushed_pushScratch] at hv ⊢
    rw [← hv]
    cases d <;>
      simp only [scratch, TileMem.tileA_scratch, TileMem.tileB_scratch, TileMem.tileP, hmem]
  · rw [pushed_push] at hv ⊢
    obtain ⟨X, hX, rfl⟩ := Option.map_eq_some_iff.mp hv
    refine Option.map_eq_some_iff.mpr ⟨X, ?_, rfl⟩
    obtain ⟨l, hl⟩ := List.head?_eq_some_iff.mp hX
    have hstep := exec_queue hexec d u
    generalize queue d (m'.allMatrices u) = q at hstep
    cases hstep with
    | pushScratch w hw => rw [hl]; rfl
    | push w Y hw hY => rw [hl]; rfl
    | pop Y hY =>
      have howner : (pop d u).owner = .compute u := by cases d <;> rfl
      rw [owner_push, howner] at hne
      exact absurd rfl hne
    | other => exact hX

end Stable

end Darts.CannonDfswp
