import Mathlib.Data.List.Nodup
import Mathlib.Logic.Function.Basic

/-!
# What a program stores, and in which order

A log is the list of the stores of a program, each an address and a value. `replay` makes
them. A log that stores to no address twice leaves at each address what it stores there
(`replay_of_mem`), and nothing changes elsewhere (`replay_of_notMem`).
-/

namespace Stores

variable {L V : Type} [DecidableEq L]

/-- The stores of a log, one after the other. -/
def replay (m : L → V) : List (L × V) → L → V
  | [] => m
  | (l, v) :: log => replay (Function.update m l v) log

/-- The addresses that are stored to. -/
def targets (log : List (L × V)) : List L := log.map Prod.fst

omit [DecidableEq L] in
@[simp] theorem targets_cons (l : L) (v : V) (log : List (L × V)) :
    targets ((l, v) :: log) = l :: targets log := rfl

theorem replay_append (m : L → V) (log log' : List (L × V)) :
    replay m (log ++ log') = replay (replay m log) log' := by
  induction log generalizing m with
  | nil => rfl
  | cons store log ih => exact ih _

/-- Logs that are made one after the other. -/
theorem foldl_replay {ι : Type} (m : L → V) (log : ι → List (L × V)) (is : List ι) :
    is.foldl (fun m i => replay m (log i)) m = replay m (is.flatMap log) := by
  induction is generalizing m with
  | nil => rfl
  | cons i is ih =>
    rw [List.flatMap_cons, replay_append]
    exact ih _

omit [DecidableEq L] in
theorem targets_flatMap {ι : Type} (log : ι → List (L × V)) (is : List ι) :
    targets (is.flatMap log) = is.flatMap fun i => targets (log i) :=
  List.map_flatMap

/-- Everything else stays as it is. -/
theorem replay_of_notMem {l : L} {log : List (L × V)} (m : L → V) (h : l ∉ targets log) :
    replay m log l = m l := by
  induction log generalizing m with
  | nil => rfl
  | cons store log ih =>
    obtain ⟨hne, hlog⟩ := not_or.mp fun hl => h (List.mem_cons.mpr hl)
    exact (ih _ hlog).trans (Function.update_of_ne hne ..)

/-- What is stored, and not overwritten. -/
theorem replay_of_mem {l : L} {v : V} {log : List (L × V)} (m : L → V)
    (hnodup : (targets log).Nodup) (h : (l, v) ∈ log) : replay m log l = v := by
  induction log generalizing m with
  | nil => cases h
  | cons store log ih =>
    obtain ⟨hfirst, hrest⟩ := List.nodup_cons.mp hnodup
    rcases List.mem_cons.mp h with rfl | h
    · exact (replay_of_notMem _ hfirst).trans (Function.update_self ..)
    · exact ih _ hrest h

end Stores
