/-!
# The C loop `for (i = a; i < bound; i += step)`

`forStep bound step body a s` runs `body i` on the loop state for
`i = a, a + step, ...` while `i < bound`. A zero step would not terminate in C
for a non-empty range; here the guard `0 < step` stops it, and no rule below
says anything about that case.

`forStep_rule` is the loop rule: an invariant indexed by the number of turns
made, for a range that `step` divides evenly. `forStep_nested_rule` is the same
for a loop in a loop, with an invariant indexed by the turns of both.
-/

namespace CLoop

variable {σ : Type}

/-- `for (i = a; i < bound; i += step) s = body i s;` -/
def forStep (bound step : Nat) (body : Nat → σ → σ) (i : Nat) (s : σ) : σ :=
  if _h : i < bound ∧ 0 < step then forStep bound step body (i + step) (body i s) else s
  termination_by bound - i
  decreasing_by omega

theorem forStep_of_ge {bound step : Nat} {body : Nat → σ → σ} {i : Nat} {s : σ}
    (h : bound ≤ i) : forStep bound step body i s = s := by
  rw [forStep, dif_neg (by omega)]

theorem forStep_of_lt {bound step : Nat} {body : Nat → σ → σ} {i : Nat} {s : σ}
    (h : i < bound) (hstep : 0 < step) :
    forStep bound step body i s = forStep bound step body (i + step) (body i s) := by
  rw [forStep, dif_pos ⟨h, hstep⟩]

/-- **The loop rule.** Over `[a, a + turns * step)` the body runs exactly
`turns` times, at `a + k * step` for `k = 0, 1, ...`; what holds at the start
and is carried from turn `k` to turn `k + 1` holds at the end. -/
theorem forStep_rule (step turns a : Nat) (body : Nat → σ → σ) (s : σ)
    (I : Nat → σ → Prop) (hstep : 0 < step) (hinit : I 0 s)
    (hbody : ∀ k s, k < turns → I k s → I (k + 1) (body (a + k * step) s)) :
    I turns (forStep (a + turns * step) step body a s) := by
  have main : ∀ (left k : Nat) (s : σ), k + left = turns → I k s →
      I turns (forStep (a + turns * step) step body (a + k * step) s) := by
    intro left
    induction left with
    | zero =>
      intro k s hk hI
      obtain rfl : k = turns := hk
      rw [forStep_of_ge (Nat.le_refl _)]
      exact hI
    | succ left ih =>
      intro k s hk hI
      have hlt : a + k * step < a + turns * step :=
        Nat.add_lt_add_left (Nat.mul_lt_mul_of_pos_right (by omega) hstep) a
      rw [forStep_of_lt hlt hstep, Nat.add_assoc, ← Nat.succ_mul]
      exact ih (k + 1) _ (by omega) (hbody k s (by omega) hI)
  have := main turns 0 s (Nat.zero_add _) hinit
  rwa [Nat.zero_mul, Nat.add_zero] at this

/-- The rule for `for (i = 0; i < m; i++) for (j = 0; j < n; j++) s = body i j s;`:
a finished row `i` is the start of row `i + 1`. -/
theorem forStep_nested_rule (m n : Nat) (body : Nat → Nat → σ → σ) (s : σ)
    (J : Nat → Nat → σ → Prop) (hinit : J 0 0 s)
    (hbody : ∀ i j s, i < m → j < n → J i j s → J i (j + 1) (body i j s))
    (hrow : ∀ i s, i < m → J i n s → J (i + 1) 0 s) :
    J m 0 (forStep m 1 (fun i => forStep n 1 (body i) 0) 0 s) := by
  have houter := forStep_rule 1 m 0 (fun i => forStep n 1 (body i) 0) s (fun i => J i 0)
    Nat.one_pos hinit fun i s hi hJ => by
      have hinner := forStep_rule 1 n 0 (body i) s (J i) Nat.one_pos hJ fun j s hj hJ => by
        rw [Nat.zero_add, Nat.mul_one]
        exact hbody i j s hi hj hJ
      rw [Nat.zero_add, Nat.mul_one] at hinner ⊢
      exact hrow i _ hi (by simpa using hinner)
  simpa using houter

end CLoop
