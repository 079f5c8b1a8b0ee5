import Mathlib.Data.Nat.Fib.Basic
import Mathlib.Tactic.NormNum.NatFib
import Darts.Lib.ForkJoinLogic

/-!
# `fib.cpp`: Fibonacci numbers by a tree of threaded procedures

`check` either writes `num` through `result` and signals, or invokes `fib` for `num - 1` and
`num - 2`, whose results go to `x` and `y` of its own frame and whose signals go to `adder`;
`adder` waits for both and writes the sum through `result`.

A frame is named by the way to it from the outermost one. An `int` has 32 bits; where the
sum overflows, which the language leaves open, it wraps here.
-/

namespace Darts.Fib

open ForkJoin

/-! ## The program -/

/-- The `int`s that are written: what `main` reads, and the variables of the frames. -/
inductive Loc
  | result
  | x (frame : List Bool)
  | y (frame : List Bool)
deriving DecidableEq

abbrev Memory : Type := Loc → BitVec 32

/-- `class fib`: what the constructor is given, and where the frame is. -/
structure TP where
  num : Int
  result : Loc
  frame : List Bool

/-- What is scheduled: the closure of a TP, and its codelets. -/
inductive Codelet
  | invoke (myFib : TP)
  | check (myFib : TP)
  | adder (myFib : TP)

/-- The TPs that `check` invokes. -/
def TP.first (myFib : TP) : TP := ⟨myFib.num - 1, .x myFib.frame, false :: myFib.frame⟩
def TP.second (myFib : TP) : TP := ⟨myFib.num - 2, .y myFib.frame, true :: myFib.frame⟩

/-- The constructor, `cd1::fire` and `cd2::fire`. -/
def fire : Codelet → Unit → Memory → Memory × Option (Proc Codelet)
  | .invoke myFib, _, m =>
    (Function.update (Function.update m (.x myFib.frame) 0) (.y myFib.frame) 0,
      some (.run (.check myFib)))
  | .check myFib, _, m =>
    if myFib.num < 2 then (Function.update m myFib.result (BitVec.ofInt 32 myFib.num), none)
    else (m, some (.wait 2 (.adder myFib)
      (.par (.run (.invoke myFib.first)) (.run (.invoke myFib.second)))))
  | .adder myFib, _, m =>
    (Function.update m myFib.result (m (.x myFib.frame) + m (.y myFib.frame)), none)

/-! ## What a TP touches -/

/-- The variables of a frame and of the frames below it. -/
def cells (frame : List Bool) : Set Loc :=
  fun l => ∃ below, frame <:+ below ∧ (l = .x below ∨ l = .y below)

/-- And where the result goes. -/
def TP.uses (myFib : TP) : Set Loc := insert myFib.result (cells myFib.frame)

theorem mem_cells_x {frame frame' : List Bool} : .x frame' ∈ cells frame ↔ frame <:+ frame' := by
  constructor
  · rintro ⟨below, hbelow, h | h⟩
    · rwa [Loc.x.inj h]
    · cases h
  · exact fun h => ⟨frame', h, .inl rfl⟩

theorem mem_cells_y {frame frame' : List Bool} : .y frame' ∈ cells frame ↔ frame <:+ frame' := by
  constructor
  · rintro ⟨below, hbelow, h | h⟩
    · cases h
    · rwa [Loc.y.inj h]
  · exact fun h => ⟨frame', h, .inr rfl⟩

theorem TP.result_mem (myFib : TP) : myFib.result ∈ myFib.uses := Set.mem_insert _ _

theorem TP.x_mem (myFib : TP) : .x myFib.frame ∈ myFib.uses :=
  .inr (mem_cells_x.mpr (List.suffix_refl _))

theorem TP.y_mem (myFib : TP) : .y myFib.frame ∈ myFib.uses :=
  .inr (mem_cells_y.mpr (List.suffix_refl _))

theorem cells_cons (b : Bool) (frame : List Bool) : cells (b :: frame) ⊆ cells frame := by
  rintro l ⟨below, hbelow, hl⟩
  exact ⟨below, (List.suffix_cons b frame).trans hbelow, hl⟩

theorem not_suffix_cons {b : Bool} {frame : List Bool} : ¬b :: frame <:+ frame := by
  intro h
  have hlen := h.length_le
  simp at hlen

/-- The two TPs that `check` invokes have nothing in common. -/
theorem first_second_apart (myFib : TP) : Disjoint myFib.first.uses myFib.second.uses := by
  refine Set.disjoint_left.mpr fun l hl hl' => ?_
  rcases hl with rfl | hl <;> rcases hl' with heq | hl'
  · cases heq
  · exact not_suffix_cons (mem_cells_x.mp hl')
  · subst heq
    exact not_suffix_cons (mem_cells_y.mp hl)
  · obtain ⟨below, hbelow, hl⟩ := hl
    obtain ⟨below', hbelow', hl'⟩ := hl'
    obtain rfl : below = below' := by
      rcases hl with rfl | rfl <;> rcases hl' with h | h <;> cases h <;> rfl
    -- both frames end the same way, at the same length
    have hsame := List.suffix_of_suffix_length_le hbelow hbelow' le_rfl
    have heq := hsame.eq_of_length rfl
    cases heq

theorem first_uses (myFib : TP) : myFib.first.uses ⊆ cells myFib.frame := by
  refine Set.insert_subset ?_ (cells_cons false _)
  exact mem_cells_x.mpr (List.suffix_refl _)

theorem second_uses (myFib : TP) : myFib.second.uses ⊆ cells myFib.frame := by
  refine Set.insert_subset ?_ (cells_cons true _)
  exact mem_cells_y.mpr (List.suffix_refl _)

/-! ## What it computes -/

/-- The number that is meant. -/
def value (num : Int) : Int := if num < 2 then num else (Nat.fib num.toNat : Int)

/-- How many constructors and codelets are run. -/
def steps (num : Int) : Nat := 5 * Nat.fib (num.toNat + 1) - 3

theorem value_natCast (k : Nat) : value k = Nat.fib k := by
  unfold value
  split
  next hlt =>
    obtain rfl | rfl : k = 0 ∨ k = 1 := by omega
    · rfl
    · rfl
  next => rw [Int.toNat_natCast]

theorem value_add {num : Int} (h : 2 ≤ num) : value (num - 1) + value (num - 2) = value num := by
  obtain ⟨k, hk⟩ := Int.eq_ofNat_of_zero_le (show 0 ≤ num - 2 by omega)
  have h₁ : num - 1 = ((k + 1 : Nat) : Int) := by omega
  have h₂ : num = ((k + 2 : Nat) : Int) := by omega
  rw [h₁, hk, h₂, value_natCast, value_natCast, value_natCast, Nat.fib_add_two]
  push_cast
  ring

theorem steps_add {num : Int} (h : 2 ≤ num) :
    steps (num - 1) + steps (num - 2) + 3 = steps num := by
  obtain ⟨k, hk⟩ := Int.eq_ofNat_of_zero_le (show 0 ≤ num - 2 by omega)
  have h₁ : (num - 1).toNat + 1 = k + 1 + 1 := by omega
  have h₂ : (num - 2).toNat + 1 = k + 1 := by omega
  have h₃ : num.toNat + 1 = k + 1 + 2 := by omega
  have hpos : 0 < Nat.fib (k + 1) := Nat.fib_pos.mpr (Nat.succ_pos k)
  have hpos' : 0 < Nat.fib (k + 1 + 1) := Nat.fib_pos.mpr (Nat.succ_pos _)
  have hrec : Nat.fib (k + 1 + 2) = Nat.fib (k + 1) + Nat.fib (k + 1 + 1) := Nat.fib_add_two
  unfold steps
  rw [h₁, h₂, h₃]
  omega

/-- While the number fits an `int`, so does its value. -/
theorem value_lt {num : Int} (h : num ≤ 46) : value num < 2 ^ 31 := by
  unfold value
  split
  next => omega
  next =>
    have hmono : Nat.fib num.toNat ≤ Nat.fib 46 := Nat.fib_mono (by omega)
    have hlast : Nat.fib 46 = 1836311903 := by norm_num
    omega

/-! ## Every order of firing -/

variable {myFib : TP} {m : Memory}

/-- `adder` finds the two results. -/
theorem adder_ok {v w : BitVec 32} (hx : m (.x myFib.frame) = v) (hy : m (.y myFib.frame) = w) :
    Ok fire 1 (.run (.adder myFib)) myFib.uses myFib.uses
      (fun m' => m' myFib.result = v + w) m := by
  refine .of_run fun _ m' hm => ⟨fun l hl => ?_, by simp [fire], .done fun m'' hm' => ?_⟩
  · refine (Function.update_of_ne ?_ _ _).symm
    rintro rfl
    exact hl myFib.result_mem
  · have hx' : m' (.x myFib.frame) = v := by
      rw [← hx, hm myFib.x_mem]
    have hy' : m' (.y myFib.frame) = w := by
      rw [← hy, hm myFib.y_mem]
    rw [← hm' myFib.result_mem]
    show Function.update m' myFib.result (m' (.x myFib.frame) + m' (.y myFib.frame)) _ = _
    rw [Function.update_self, hx', hy']

/-- `check` of a small number. -/
theorem check_leaf (h : myFib.num < 2) :
    Ok fire 1 (.run (.check myFib)) myFib.uses myFib.uses
      (fun m' => m' myFib.result = BitVec.ofInt 32 myFib.num) m := by
  refine .of_run fun _ m' hm => ?_
  simp only [fire, if_pos h]
  refine ⟨fun l hl => ?_, by simp, .done fun m'' hm' => ?_⟩
  · refine (Function.update_of_ne ?_ _ _).symm
    rintro rfl
    exact hl myFib.result_mem
  · rw [← hm' myFib.result_mem, Function.update_self]

/-- The constructor writes its own frame, and `check` goes on. -/
theorem invoke_ok {k : Nat} {Q : Memory → Prop}
    (h : ∀ m, Ok fire k (.run (.check myFib)) myFib.uses myFib.uses Q m) :
    Ok fire (k + 1) (.run (.invoke myFib)) myFib.uses myFib.uses Q m := by
  refine .of_run fun _ m' _ => ⟨fun l hl => ?_, by simp [fire, Proc.signals], h _⟩
  have hx : l ≠ .x myFib.frame := by
    rintro rfl
    exact hl myFib.x_mem
  have hy : l ≠ .y myFib.frame := by
    rintro rfl
    exact hl myFib.y_mem
  show m' l = Function.update (Function.update m' (.x myFib.frame) 0) (.y myFib.frame) 0 l
  rw [Function.update_of_ne hy, Function.update_of_ne hx]

/-- A TP, by induction on its number. -/
theorem fib_ok (n : Nat) : ∀ (myFib : TP), myFib.num.toNat = n → ∀ m,
    Ok fire (steps myFib.num) (.run (.invoke myFib)) myFib.uses myFib.uses
      (fun m' => m' myFib.result = BitVec.ofInt 32 (value myFib.num)) m := by
  induction n using Nat.strongRecOn with
  | ind n ih =>
    intro myFib hn m
    by_cases hlt : myFib.num < 2
    · have hsteps : steps myFib.num = 1 + 1 := by
        unfold steps
        obtain h | h : myFib.num.toNat = 0 ∨ myFib.num.toNat = 1 := by omega
        · rw [h]
          rfl
        · rw [h]
          rfl
      have hvalue : value myFib.num = myFib.num := if_pos hlt
      rw [hsteps, hvalue]
      exact invoke_ok fun m => check_leaf hlt
    · have hle : 2 ≤ myFib.num := by omega
      have hfirst := ih (myFib.num - 1).toNat (by omega) myFib.first rfl
      have hsecond := ih (myFib.num - 2).toNat (by omega) myFib.second rfl
      have hcells : cells myFib.frame ⊆ myFib.uses := Set.subset_insert _ _
      have hsub := (first_uses myFib).trans hcells
      have hsub' := (second_uses myFib).trans hcells
      rw [← steps_add hle]
      refine invoke_ok (k := steps (myFib.num - 1) + steps (myFib.num - 2) + 2) fun m => ?_
      refine .of_run fun _ m' _ => ?_
      simp only [fire, if_neg hlt]
      refine ⟨fun l _ => rfl, by simp [Proc.signals], ?_⟩
      -- both results are there when `adder` fires
      have hboth : Ok fire (steps (myFib.num - 1) + steps (myFib.num - 2))
          (.par (.run (.invoke myFib.first)) (.run (.invoke myFib.second))) myFib.uses myFib.uses
          (fun m' => m' (.x myFib.frame) = BitVec.ofInt 32 (value (myFib.num - 1)) ∧
            m' (.y myFib.frame) = BitVec.ofInt 32 (value (myFib.num - 2))) m' :=
        .par (first_second_apart myFib) (first_second_apart myFib).symm hsub hsub' hsub hsub'
          (hfirst m') (hsecond m') (fun _ _ h₁ h₂ => ⟨h₁, h₂⟩) le_rfl
      refine .wait rfl (by decide) hboth (fun m'' hm'' => ?_) le_rfl
      rw [← value_add hle, BitVec.ofInt_add]
      exact adder_ok hm''.1 hm''.2

/-- **`fib` computes Fibonacci numbers**, for every number and under every order of firing: the
outermost TP signals once, after which `result` is the number's value, as far as an `int` holds it,
and nothing is left to be fired; no run is longer than `steps num`; and none stops before the
signal. Up to `num = 46` the `int` holds all of it. -/
theorem fib_correct (num : Int) (m : Memory) :
    Completes fire (.run (.invoke ⟨num, .result, []⟩)) m (steps num) fun m' =>
      m' .result = BitVec.ofInt 32 (value num) ∧
      (-2 ^ 31 ≤ num → num ≤ 46 → (m' .result).toInt = value num) := by
  refine ((fib_ok _ ⟨num, .result, []⟩ rfl m).completes rfl).imp fun m' hm' => ?_
  have hresult : m' .result = BitVec.ofInt 32 (value num) := hm'.1
  refine ⟨hresult, fun hlow hhigh => ?_⟩
  rw [hresult, BitVec.toInt_ofInt]
  have hlt := value_lt hhigh
  have hge : -2 ^ 31 ≤ value num := by
    unfold value
    split <;> omega
  rw [Int.bmod_eq_of_le] <;> omega

end Darts.Fib
