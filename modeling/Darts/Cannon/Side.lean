import Darts.Cannon.Index

/-!
# The two sides of Cannon's scheme

Blocks of `A` travel along the rows of the torus and blocks of `B` along the
columns, in the same way. `Side` names everything that comes in two, so that each
fact about the travelling blocks is stated once.
-/

namespace Darts.Cannon

variable {n : Nat}

/-- Which of the two factors a block belongs to. -/
inductive Side
  | A
  | B
deriving DecidableEq

namespace Side

/-- The one of two things that belongs to the side. -/
def pick {α : Type} : Side → α → α → α
  | .A, x, _ => x
  | .B, _, y => y

/-- Where the skew sends the block. -/
def dest : Side → Tile n → Tile n
  | .A => destRow
  | .B => destCol

/-- Where a turn sends the block. -/
def next : Side → Tile n → Tile n
  | .A => nextRow
  | .B => nextCol

variable [NeZero n]

/-- The block the tile holds after `k` moves. -/
def held : Side → Tile n → Nat → Tile n
  | .A => heldA
  | .B => heldB

def destPerm (n : Nat) [NeZero n] : Side → Equiv.Perm (Tile n)
  | .A => destRowPerm n
  | .B => destColPerm n

def nextPerm (n : Nat) [NeZero n] : Side → Equiv.Perm (Tile n)
  | .A => nextRowPerm n
  | .B => nextColPerm n

/-- The tile whose block the skew moves to tile `i`. -/
def skewed (d : Side) (i : Tile n) : Tile n := (d.destPerm n).symm i

/-- The tile that hands its blocks on to tile `i`. -/
def feeder (d : Side) (i : Tile n) : Tile n := (d.nextPerm n).symm i

theorem destPerm_apply (d : Side) (i : Tile n) : d.destPerm n i = d.dest i := by
  cases d
  · exact destRowPerm_apply i
  · exact destColPerm_apply i

theorem nextPerm_apply (d : Side) (i : Tile n) : d.nextPerm n i = d.next i := by
  cases d
  · exact nextRowPerm_apply i
  · exact nextColPerm_apply i

@[simp] theorem dest_skewed (d : Side) (i : Tile n) : d.dest (d.skewed i) = i := by
  rw [← destPerm_apply, skewed, Equiv.apply_symm_apply]

@[simp] theorem skewed_dest (d : Side) (i : Tile n) : d.skewed (d.dest i) = i := by
  rw [← destPerm_apply, skewed, Equiv.symm_apply_apply]

@[simp] theorem next_feeder (d : Side) (i : Tile n) : d.next (d.feeder i) = i := by
  rw [← nextPerm_apply, feeder, Equiv.apply_symm_apply]

@[simp] theorem feeder_next (d : Side) (i : Tile n) : d.feeder (d.next i) = i := by
  rw [← nextPerm_apply, feeder, Equiv.symm_apply_apply]

theorem held_dest (d : Side) (i : Tile n) : d.held (d.dest i) 0 = i := by
  cases d
  · exact heldA_destRow i
  · exact heldB_destCol i

theorem held_next (d : Side) (i : Tile n) (k : Nat) : d.held (d.next i) (k + 1) = d.held i k := by
  cases d
  · exact heldA_nextRow i k
  · exact heldB_nextCol i k

theorem dest_bijective (d : Side) : Function.Bijective (d.dest (n := n)) := by
  rw [← funext d.destPerm_apply]
  exact (d.destPerm n).bijective

theorem next_bijective (d : Side) : Function.Bijective (d.next (n := n)) := by
  rw [← funext d.nextPerm_apply]
  exact (d.nextPerm n).bijective

end Side

end Darts.Cannon
