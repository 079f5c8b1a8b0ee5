import Mathlib.Data.Set.Lattice
import Mathlib.Order.CompletePartialOrder

/-!
# Footprints

A store has locations; `agree l s t` says that `s` and `t` hold the same at `l`.
`Within f s R W` says that `f`, run in `s`, reads at most `R` and writes at most
`W`: run in any store that agrees with `s` on `R` it leaves everything outside `W`
alone and writes to `W` what it writes in `s`. Footprints compose, and two
functions with footprints that do not conflict commute.
-/

namespace Footprint

variable {S L : Type}

/-- A store: it is determined by what it holds at its locations. -/
structure Store (S L : Type) where
  agree : L → S → S → Prop
  refl : ∀ l s, agree l s s
  symm : ∀ {l s t}, agree l s t → agree l t s
  trans : ∀ {l s t u}, agree l s t → agree l t u → agree l s u
  ext : ∀ {s t}, (∀ l, agree l s t) → s = t

variable {M : Store S L}

/-- `f` run in `s` reads at most `R` and writes at most `W`. -/
structure Within (M : Store S L) (f : S → S) (s : S) (R W : Set L) : Prop where
  frame : ∀ t, (∀ l ∈ R, M.agree l s t) → ∀ l ∉ W, M.agree l (f t) t
  writes : ∀ t, (∀ l ∈ R, M.agree l s t) → ∀ l ∈ W, M.agree l (f s) (f t)

/-- Neither writes what the other reads or writes. -/
def Apart (R W R' W' : Set L) : Prop :=
  Disjoint W (R' ∪ W') ∧ Disjoint W' (R ∪ W)

theorem Apart.symm {R W R' W' : Set L} (h : Apart R W R' W') : Apart R' W' R W := ⟨h.2, h.1⟩

/-- Doing nothing. -/
theorem Within.id (s : S) : Within M id s ∅ ∅ where
  frame t _ l _ := M.refl l t
  writes _ _ l hl := absurd hl (Set.notMem_empty l)

/-- One after the other. -/
theorem Within.comp {f g : S → S} {s : S} {R W R' W' : Set L} (hf : Within M f s R W)
    (hg : Within M g (f s) R' W') :
    Within M (g ∘ f) s (R ∪ R') (W ∪ W') := by
  have hread : ∀ t, (∀ l ∈ R ∪ R', M.agree l s t) → ∀ l ∈ R', M.agree l (f s) (f t) := by
    intro t ht l hl
    by_cases hw : l ∈ W
    · exact hf.writes t (fun m hm => ht m (Or.inl hm)) l hw
    · exact M.trans (hf.frame s (fun m _ => M.refl m s) l hw) (M.trans (ht l (Or.inr hl))
        (M.symm (hf.frame t (fun m hm => ht m (Or.inl hm)) l hw)))
  refine ⟨fun t ht l hl => ?_, fun t ht l hl => ?_⟩
  · exact M.trans (hg.frame (f t) (hread t ht) l fun hw => hl (Or.inr hw))
      (hf.frame t (fun m hm => ht m (Or.inl hm)) l fun hw => hl (Or.inl hw))
  · by_cases hw' : l ∈ W'
    · exact hg.writes (f t) (hread t ht) l hw'
    · have hw : l ∈ W := hl.resolve_right hw'
      exact M.trans (hg.frame (f s) (fun m _ => M.refl m _) l hw')
        (M.trans (hf.writes t (fun m hm => ht m (Or.inl hm)) l hw)
          (M.symm (hg.frame (f t) (hread t ht) l hw')))

/-- **Functions that do not conflict commute.** -/
theorem Within.comm {f g : S → S} {s : S} {R W R' W' : Set L} (hf : Within M f s R W)
    (hg : Within M g s R' W') (hapart : Apart R W R' W') :
    f (g s) = g (f s) := by
  have hfg : ∀ l ∈ R ∪ W, l ∉ W' := fun l hl hw => Set.disjoint_left.mp hapart.2 hw hl
  have hgf : ∀ l ∈ R' ∪ W', l ∉ W := fun l hl hw => Set.disjoint_left.mp hapart.1 hw hl
  have hs : ∀ l, M.agree l s s := fun l => M.refl l s
  have hgs : ∀ l ∈ R, M.agree l s (g s) := fun l hl =>
    M.symm (hg.frame s (fun m _ => hs m) l (hfg l (Or.inl hl)))
  have hfs : ∀ l ∈ R', M.agree l s (f s) := fun l hl =>
    M.symm (hf.frame s (fun m _ => hs m) l (hgf l (Or.inl hl)))
  apply M.ext
  intro l
  by_cases hw : l ∈ W
  · exact M.trans (M.symm (hf.writes (g s) hgs l hw))
      (M.symm (hg.frame (f s) hfs l (hfg l (Or.inr hw))))
  · refine M.trans (hf.frame (g s) hgs l hw) ?_
    by_cases hw' : l ∈ W'
    · exact hg.writes (f s) hfs l hw'
    · exact M.trans (hg.frame s (fun m _ => hs m) l hw')
        (M.trans (M.symm (hf.frame s (fun m _ => hs m) l hw)) (M.symm (hg.frame (f s) hfs l hw')))

end Footprint
