import Darts.Lib.ForkJoin
import Darts.Matrix.Mat

/-!
# Tiled matrix multiplication (`apps/MatrixMultiply`)

`mmTile` is a `paraFor` over the row tiles of `C`; the body `iloop` takes a copy of its
rows of `A` and has a `codeletFor` over the column tiles, whose bodies have one codelet
each, `tileMult`. A loop fires twice: first it starts its bodies, and when all of them
have signalled, it signals on (`Darts/Lib/ForkJoin.lean`). Which `#ifdef` is taken is a
`Build`.

The memory is the storage of `C`. `A` and `B` are read only and the copy of an `iloop` is
written by its constructor alone, so they are values here. An element of the storage has
no value when it was copied from what `DGEMM` leaves after a call that is outside of its
documentation. How often it has been written is history. An `INT` is a natural number:
the numbers of elements are taken to fit it.
-/

namespace Darts

namespace MatrixMultiply

open ForkJoin

variable {R : Type}

/-- The two builds with a row-major `DGEMM`. -/
inductive Build
  | CBLAS | MKL
deriving DecidableEq

/-- An element of the storage of `C`. -/
structure Entry (R : Type) where
  val : Option R
  writes : Nat

abbrev Memory (R : Type) := Nat → Entry R

/-- `mmArgs`, with the size of `c` for `c`. -/
structure MmArgs (R : Type) where
  a : Mat R
  b : Mat R
  cM : Nat
  cN : Nat
  msi : Nat
  msj : Nat
  msk : Nat
  iCut : Nat
  jCut : Nat

namespace MmArgs

def iTile (args : MmArgs R) : Nat := args.msi / args.iCut

def jTile (args : MmArgs R) : Nat := args.msj / args.jCut

def iMod (args : MmArgs R) : Nat := args.msi % args.iCut

def jMod (args : MmArgs R) : Nat := args.msj % args.jCut

end MmArgs

/-! ## `matrix.h`, `matrix.cpp` -/

/-- The loop of the constructor that copies a part of a matrix, after `i` turns. -/
def subMatrixLoop [Zero R] (source : Mat R) (x y n : Nat) : Nat → Nat → R
  | 0 => fun _ => 0
  | i + 1 => copyN (offset source.ptr ((i + x) * source.N + y)) n (subMatrixLoop source x y n i) (i * n)

/-- `matrix(source, x, y, m, n)`. -/
def subMatrix [Zero R] (source : Mat R) (x y m n : Nat) : Mat R :=
  { M := m, N := n, ptr := subMatrixLoop source x y n m }

/-- `memcpy` into the storage of `C`. -/
def memcpy (m : Memory R) (dst : Nat) (src : Nat → Option R) (n : Nat) : Memory R := fun k =>
  if dst ≤ k ∧ k < dst + n then { val := src (k - dst), writes := (m k).writes + 1 } else m k

/-- The loop of `copyMatrix`, after `i` turns. -/
def copyMatrixLoop (dN dXoff dYoff : Nat) (source : Mat (Option R)) (sXoff sYoff row : Nat)
    (m : Memory R) : Nat → Memory R
  | 0 => m
  | i + 1 =>
    memcpy (copyMatrixLoop dN dXoff dYoff source sXoff sYoff row m i) ((i + dXoff) * dN + dYoff)
      (offset source.ptr ((i + sXoff) * source.N + sYoff)) row

/-- `copyMatrix`, to a matrix of `dM` times `dN`. -/
def copyMatrix (dM dN : Nat) (source : Mat (Option R)) (x y : Nat) (m : Memory R) : Memory R :=
  let sN := source.N
  let sM := source.M
  let col := if dM < sM then dM else sM
  let row := if dN < sN then dN else sN
  let dYoff := if dN > sN then y else 0
  let sYoff := if dN > sN then 0 else if sN > dN then y else 0
  let dXoff := if dM > sM then x else 0
  let sXoff := if dM > sM then 0 else if dM < sM then x else 0
  if dN = sN ∧ dM = sM then memcpy m 0 source.ptr (dN * dM)
  else copyMatrixLoop dN dXoff dYoff source sXoff sYoff row m col

/-- What the documentation of `cblas_dgemm` asks for, row-major and without transposition: rows
that are not longer than the leading dimensions, and arrays (here of `aLen`, `bLen` and `cLen`
elements from the pointers on) that have all that is read and written. -/
def Documented (i j k aLen aSize bLen bSize cLen cSize : Nat) : Prop :=
  k ≤ aSize ∧ j ≤ bSize ∧ j ≤ cSize ∧ (i - 1) * aSize + k ≤ aLen ∧ (k - 1) * bSize + j ≤ bLen ∧
    (i - 1) * cSize + j ≤ cLen

instance (i j k aLen aSize bLen bSize cLen cSize : Nat) :
    Decidable (Documented i j k aLen aSize bLen bSize cLen cSize) :=
  inferInstanceAs (Decidable (_ ∧ _))

/-- `DGEMM(i, j, k, alpha, A, A.getN(), &b[bOff], b.getN(), beta, C, C.getN())`, and what is then
in `C`. -/
def DGEMM [CommRing R] (blas : Blas R) (i j k : Nat) (alpha : R) (A b : Mat R) (bOff : Nat)
    (beta : R) (C : Mat R) : Mat (Option R) :=
  if Documented i j k (A.M * A.N) A.N (b.M * b.N - bOff) b.N (C.M * C.N) C.N then
    { M := C.M, N := C.N, ptr := fun z =>
        some (blas.dgemm i j k alpha A.ptr A.N (offset b.ptr bOff) b.N beta C.ptr C.N z) }
  else { M := C.M, N := C.N, ptr := fun _ => none }

/-! ## `loopCodelets.cpp` -/

/-- `tempISize` and `tempJSize`. -/
def tempISize (args : MmArgs R) (i : Nat) : Nat :=
  if i + 1 = args.iCut then args.iTile + args.iMod else args.iTile

def tempJSize (args : MmArgs R) (j : Nat) : Nat :=
  if j + 1 = args.jCut then args.jTile + args.jMod else args.jTile

/-- `tileMult::fire`. -/
def tileMultFire [CommRing R] (blas : Blas R) (build : Build) (args : MmArgs R) (i j : Nat)
    (A : Mat R) (m : Memory R) : Memory R :=
  let C : Mat R := match build with
    | .MKL => { M := tempISize args i, N := tempJSize args j, ptr := fun _ => 0 }
    | .CBLAS => { M := tempJSize args j, N := tempISize args i, ptr := fun _ => 0 }
  let C := DGEMM blas (tempISize args i) (tempJSize args j) args.msk 1 A args.b (j * args.jTile) 0 C
  match build with
  | .MKL => copyMatrix args.cM args.cN C (i * args.iTile) (j * args.jTile) m
  | .CBLAS => copyMatrix args.cM args.cN C (j * args.jTile) (i * args.iTile) m

/-! ## `loopTPs.h` -/

/-- The codelets, and the TP that the `paraFor` has pushed for an iteration. -/
inductive Codelet (R : Type)
  | il (fired : Bool)
  | iloop (it : Nat)
  | jl (it : Nat) (tempA : Mat R) (fired : Bool)
  | mul (it : Nat) (tempA : Mat R) (j : Nat)

/-- The copy of an `iloop`. -/
def tempA [Zero R] (args : MmArgs R) (it : Nat) : Mat R :=
  subMatrix args.a (it * args.iTile) 0
    (if it + 1 = args.iCut then args.iMod + args.iTile else args.iTile) args.msk

/-- `fire()` of each codelet, and the construction of an `iloop`, which adds `jl`. A body of `jl`
is constructed at once and adds its `mul`. -/
def fire [CommRing R] (blas : Blas R) (build : Build) (args : MmArgs R) :
    Codelet R → Unit → Memory R → Memory R × Option (Proc (Codelet R))
  | .il false, _, m =>
    (m, some (.wait args.iCut (.il true) (.all ((List.range args.iCut).map fun it => .run (.iloop it)))))
  | .il true, _, m => (m, none)
  | .iloop it, _, m => (m, some (.run (.jl it (tempA args it) false)))
  | .jl it A false, _, m =>
    if args.jCut = 0 then (m, none)
    else (m, some (.wait args.jCut (.jl it A true)
      (.all ((List.range args.jCut).map fun j => .run (.mul it A j)))))
  | .jl _ _ true, _, m => (m, none)
  | .mul it A j, _, m => (tileMultFire blas build args it j A m, none)

/-- `launch<mmTile>`: the constructor adds `il`. -/
def mmTile : Proc (Codelet R) := .run (.il false)

end MatrixMultiply

end Darts
