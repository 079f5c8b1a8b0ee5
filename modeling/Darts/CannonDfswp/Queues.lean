import Darts.Cannon.Side
import Darts.CannonDfswp.Program

/-!
# The actions of `cannonTP` on tiles and queues

An action changes the `tile_mem` of at most one tile, its target (`exec_tile`).
The two queues of a tile are filled and drained the same way (`exec_queue`).
-/

namespace Darts.CannonDfswp

open Cannon

variable {R : Type} {n p : Nat}

/-! ## What an action can do to the frame -/

section Exec

variable [CommRing R] {blas : Blas R} {f f' : Frame R n p} {a : Act n}
  {os : List (Op (Cod n) (Act n))}

theorem exec_AB (h : exec blas a f = some (f', os)) : f'.A = f.A ∧ f'.B = f.B := by
  cases a with
  | multiply i | pushA i | pushB i | popA i | popB i =>
    obtain ⟨_, -, he⟩ := Option.map_eq_some_iff.mp h
    obtain ⟨rfl, -⟩ := Prod.mk.inj he
    exact ⟨rfl, rfl⟩
  | gatherA i | gatherB i | scatterC i | pushScratchA i | pushScratchB i | test i | incr i
  | continuation =>
    obtain ⟨rfl, -⟩ := Prod.mk.inj (Option.some.inj h)
    exact ⟨rfl, rfl⟩

/-- Only the scatter loop writes to `C`. -/
theorem exec_C (h : exec blas a f = some (f', os)) :
    (∀ i, a ≠ .scatterC i) ∧ f'.C = f.C ∨ ∃ i, a = .scatterC i ∧ f'.C = { f.C with
      ptr := scatterTile f.C.M p (initialIndex n f.C.M p i) (f.allMatrices i).mem
        (2 * (p * p)) f.C.ptr } := by
  cases a with
  | scatterC i =>
    obtain ⟨rfl, -⟩ := Prod.mk.inj (Option.some.inj h)
    exact Or.inr ⟨i, rfl, rfl⟩
  | multiply i | pushA i | pushB i | popA i | popB i =>
    obtain ⟨_, -, he⟩ := Option.map_eq_some_iff.mp h
    obtain ⟨rfl, -⟩ := Prod.mk.inj he
    exact Or.inl ⟨fun i => by simp, rfl⟩
  | gatherA i | gatherB i | pushScratchA i | pushScratchB i | test i | incr i | continuation =>
    obtain ⟨rfl, -⟩ := Prod.mk.inj (Option.some.inj h)
    exact Or.inl ⟨fun i => by simp, rfl⟩

/-- The tile whose `tile_mem` an action changes. -/
def Act.target : Act n → Option (Tile n)
  | .gatherA i | .gatherB i | .multiply i | .popA i | .popB i => some i
  | .pushScratchA i => some (destRow i)
  | .pushScratchB i => some (destCol i)
  | .pushA i => some (nextRow i)
  | .pushB i => some (nextCol i)
  | .scatterC _ | .test _ | .incr _ | .continuation => none

/-- What an action makes of its target. -/
inductive TileStep (blas : Blas R) (f : Frame R n p) : Act n → Tile n → TileMem R p → Prop
  | gatherA (i : Tile n) : TileStep blas f (.gatherA i) i { f.allMatrices i with
      mem := gatherTile f.A.M p (initialIndex n f.A.M p i) f.A.ptr (f.allMatrices i).mem 0 }
  | gatherB (i : Tile n) : TileStep blas f (.gatherB i) i { f.allMatrices i with
      mem := gatherTile f.B.M p (initialIndex n f.B.M p i) f.B.ptr (f.allMatrices i).mem (p * p) }
  | pushScratchA (i : Tile n) : TileStep blas f (.pushScratchA i) (destRow i)
      ((f.allMatrices (destRow i)).pushA (f.allMatrices i).tileA_scratch)
  | pushScratchB (i : Tile n) : TileStep blas f (.pushScratchB i) (destCol i)
      ((f.allMatrices (destCol i)).pushB (f.allMatrices i).tileB_scratch)
  | multiply (i : Tile n) (A B : Mat R) (hA : (f.allMatrices i).AQueue.head? = some A)
      (hB : (f.allMatrices i).BQueue.head? = some B) :
      TileStep blas f (.multiply i) i ((f.allMatrices i).storeC
        (blas.dgemm p p p 1 A.ptr p B.ptr p 1 (f.allMatrices i).tileC.ptr p))
  | pushA (i : Tile n) (A : Mat R) (hA : (f.allMatrices i).AQueue.head? = some A) :
      TileStep blas f (.pushA i) (nextRow i) ((f.allMatrices (nextRow i)).pushA A)
  | pushB (i : Tile n) (B : Mat R) (hB : (f.allMatrices i).BQueue.head? = some B) :
      TileStep blas f (.pushB i) (nextCol i) ((f.allMatrices (nextCol i)).pushB B)
  | popA (i : Tile n) (A : Mat R) (hA : (f.allMatrices i).AQueue.head? = some A) :
      TileStep blas f (.popA i) i (f.allMatrices i).popCurrentHeadA
  | popB (i : Tile n) (B : Mat R) (hB : (f.allMatrices i).BQueue.head? = some B) :
      TileStep blas f (.popB i) i (f.allMatrices i).popCurrentHeadB

omit [CommRing R] in
private theorem setTile_apply {j i : Tile n} {t : TileMem R p} :
    (f.setTile j t).allMatrices i = if i = j then t else f.allMatrices i := by
  simp only [Frame.setTile, Function.update_apply]

/-- **An action changes its target and no other tile.** -/
theorem exec_tile (h : exec blas a f = some (f', os)) (i : Tile n) :
    a.target = some i ∧ TileStep blas f a i (f'.allMatrices i) ∨
      a.target ≠ some i ∧ f'.allMatrices i = f.allMatrices i := by
  -- an update of one tile, described at that tile
  have hset : ∀ {j : Tile n} {t : TileMem R p}, TileStep blas f a j t → a.target = some j →
      f' = f.setTile j t → a.target = some i ∧ TileStep blas f a i (f'.allMatrices i) ∨
        a.target ≠ some i ∧ f'.allMatrices i = f.allMatrices i := by
    rintro j t hstep htarget rfl
    rw [setTile_apply]
    by_cases hj : i = j
    · subst hj
      rw [if_pos rfl]
      exact Or.inl ⟨htarget, hstep⟩
    · rw [if_neg hj, htarget]
      exact Or.inr ⟨fun hc => hj (Option.some.inj hc).symm, rfl⟩
  cases a with
  | gatherA j => exact hset (.gatherA j) rfl (Prod.mk.inj (Option.some.inj h)).1.symm
  | gatherB j => exact hset (.gatherB j) rfl (Prod.mk.inj (Option.some.inj h)).1.symm
  | pushScratchA j => exact hset (.pushScratchA j) rfl (Prod.mk.inj (Option.some.inj h)).1.symm
  | pushScratchB j => exact hset (.pushScratchB j) rfl (Prod.mk.inj (Option.some.inj h)).1.symm
  | multiply j =>
    obtain ⟨t, ht, he⟩ := Option.map_eq_some_iff.mp h
    simp only [multiply] at ht
    split at ht
    next A B hA hB =>
      obtain rfl := Option.some.inj ht
      exact hset (.multiply j A B hA hB) rfl (Prod.mk.inj he).1.symm
    next => exact absurd ht (by simp)
  | pushA j =>
    obtain ⟨A, hA, he⟩ := Option.map_eq_some_iff.mp h
    exact hset (.pushA j A hA) rfl (Prod.mk.inj he).1.symm
  | pushB j =>
    obtain ⟨B, hB, he⟩ := Option.map_eq_some_iff.mp h
    exact hset (.pushB j B hB) rfl (Prod.mk.inj he).1.symm
  | popA j =>
    obtain ⟨A, hA, he⟩ := Option.map_eq_some_iff.mp h
    exact hset (.popA j A hA) rfl (Prod.mk.inj he).1.symm
  | popB j =>
    obtain ⟨B, hB, he⟩ := Option.map_eq_some_iff.mp h
    exact hset (.popB j B hB) rfl (Prod.mk.inj he).1.symm
  | scatterC j | test j | incr j | continuation =>
    obtain ⟨rfl, -⟩ := Prod.mk.inj (Option.some.inj h)
    exact Or.inr ⟨by simp [Act.target], rfl⟩

end Exec

/-! ## The two sides of a tile -/

/-- `AQueue` or `BQueue`. -/
def queue : Side → TileMem R p → List (Mat R)
  | .A, t => t.AQueue
  | .B, t => t.BQueue

/-- `tileA_scratch` or `tileB_scratch`. -/
def scratch : Side → TileMem R p → Mat R
  | .A, t => t.tileA_scratch
  | .B, t => t.tileB_scratch

def gather : Side → Tile n → Act n
  | .A => .gatherA
  | .B => .gatherB

def pushScratch : Side → Tile n → Act n
  | .A => .pushScratchA
  | .B => .pushScratchB

def push : Side → Tile n → Act n
  | .A => .pushA
  | .B => .pushB

def pop : Side → Tile n → Act n
  | .A => .popA
  | .B => .popB

section Queue

variable [CommRing R] {blas : Blas R} {f f' : Frame R n p} {a : Act n}
  {os : List (Op (Cod n) (Act n))}

/-- What an action does to one queue. -/
inductive QueueStep (d : Side) (f : Frame R n p) (i : Tile n) : Act n → List (Mat R) → Prop
  | pushScratch (u : Tile n) (hu : d.dest u = i) : QueueStep d f i (pushScratch d u)
      (queue d (f.allMatrices i) ++ [(scratch d (f.allMatrices u)).copy])
  | push (u : Tile n) (X : Mat R) (hu : d.next u = i)
      (hX : (queue d (f.allMatrices u)).head? = some X) :
      QueueStep d f i (push d u) (queue d (f.allMatrices i) ++ [X.copy])
  | pop (X : Mat R) (hX : (queue d (f.allMatrices i)).head? = some X) :
      QueueStep d f i (pop d i) (queue d (f.allMatrices i)).tail
  | other (a : Act n) (hskew : ∀ u, d.dest u = i → a ≠ pushScratch d u)
      (hpush : ∀ u, d.next u = i → a ≠ push d u) (hpop : a ≠ pop d i) :
      QueueStep d f i a (queue d (f.allMatrices i))

/-- **What can happen to a queue.** -/
theorem exec_queue (h : exec blas a f = some (f', os)) (d : Side) (i : Tile n) :
    QueueStep d f i a (queue d (f'.allMatrices i)) := by
  rcases exec_tile h i with ⟨-, hstep⟩ | ⟨hne, heq⟩
  · generalize f'.allMatrices i = t at hstep
    cases d <;> cases hstep
    case A.pushScratchA u => exact .pushScratch (d := .A) u rfl
    case B.pushScratchB u => exact .pushScratch (d := .B) u rfl
    case A.pushA u X hX => exact .push (d := .A) u X rfl hX
    case B.pushB u X hX => exact .push (d := .B) u X rfl hX
    case A.popA X hX => exact .pop (d := .A) X hX
    case B.popB X hX => exact .pop (d := .B) X hX
    all_goals exact .other _ (by simp [pushScratch]) (by simp [push]) (by simp [pop])
  · rw [heq]
    refine .other a ?_ ?_ ?_
    · rintro u rfl rfl
      cases d <;> exact hne rfl
    · rintro u rfl rfl
      cases d <;> exact hne rfl
    · intro he
      subst he
      cases d <;> exact hne rfl

end Queue

end Darts.CannonDfswp
