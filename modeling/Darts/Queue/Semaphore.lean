import Mathlib.Tactic.Common

/-!
# `moodycamel::spsc_sema::LightweightSemaphore`

A counter in front of a kernel semaphore (`src/include/common/atomicops.h`), for one
thread that signals and one that waits. The waiter takes one off the counter before
it sleeps, so a negative counter tells the signaller to post; a waiter whose time is
up puts the one back, and if it was signalled in between it has to take the post too.

`permits` are the signals no wait was granted yet. `Inv` says how the counter and the
kernel semaphore account for them while both threads are in the middle of a call:
a post is on its way, or in the kernel, exactly while the waiter counts on it and has
a permit.
-/

namespace Darts.Queue

/-- The data members; `m_sema` is the kernel's count. -/
structure LightweightSemaphore where
  m_count : Int
  m_sema : Nat
  /-- An `assert` failed. -/
  fault : Bool

/-- Where a call of `signal` is. -/
inductive Signal
  /-- `oldCount = m_count.fetch_add_release(count)`. -/
  | add
  /-- `m_sema.signal(1)`. -/
  | post
  | returned
deriving DecidableEq

/-- `tryWait()`, `wait()`, and `wait(timeout_usecs)` with a timeout that is not negative. -/
inductive WaitMode
  | tryWait
  | wait
  | timed
deriving DecidableEq

/-- Where a call of `tryWait` or `wait` is. -/
inductive Wait
  /-- `if (m_count.load() > 0)` of `tryWait`. -/
  | load
  /-- `m_count.fetch_add_acquire(-1); return true;` after a load. -/
  | take
  /-- `if (m_count.load() > 0)` of the spinning loop. -/
  | spin (spin : Nat)
  /-- `oldCount = m_count.fetch_add_acquire(-1)` after the loop. -/
  | borrow
  /-- `m_sema.wait()` or `m_sema.timed_wait(timeout_usecs)`. -/
  | sleep
  /-- `oldCount = m_count.fetch_add_release(1)`. -/
  | restore
  /-- `oldCount = m_count.fetch_add_acquire(-1)` of the last loop. -/
  | retake
  /-- `m_sema.try_wait()`. -/
  | kernelTry
  | returned (ok : Bool)
deriving DecidableEq

namespace LightweightSemaphore

/-- `LightweightSemaphore(initialCount)`. -/
def make (initialCount : Int) : LightweightSemaphore :=
  { m_count := initialCount, m_sema := 0, fault := !decide (0 ≤ initialCount) }

/-- One step of `signal()`. -/
def signal (s : LightweightSemaphore) : Signal → Option (LightweightSemaphore × Signal)
  | .add =>
    let oldCount := s.m_count
    some ({ s with m_count := oldCount + 1, fault := s.fault || !decide (-1 ≤ oldCount) },
      if oldCount < 0 then .post else .returned)
  | .post => some ({ s with m_sema := s.m_sema + 1 }, .returned)
  | .returned => none

/-- `while (--spin >= 0)`. -/
def spinning : Nat → Wait
  | 0 => .borrow
  | spin + 1 => .spin spin

/-- One step of `tryWait()` or `wait(..)`; `timeout` says that the time is up. A waiter
without one sleeps until the kernel's count is positive. -/
def wait (mode : WaitMode) (timeout : Bool) (s : LightweightSemaphore) :
    Wait → Option (LightweightSemaphore × Wait)
  | .load =>
    some (s, if 0 < s.m_count then .take
      else match mode with
        | .tryWait => .returned false
        | _ => spinning 10000)
  | .take => some ({ s with m_count := s.m_count - 1 }, .returned true)
  | .spin spin => some (s, if 0 < s.m_count then .take else spinning spin)
  | .borrow =>
    let oldCount := s.m_count
    some ({ s with m_count := oldCount - 1 }, if 0 < oldCount then .returned true else .sleep)
  | .sleep =>
    if mode = .timed ∧ timeout then some (s, .restore)
    else if 0 < s.m_sema then some ({ s with m_sema := s.m_sema - 1 }, .returned true)
    else none
  | .restore =>
    let oldCount := s.m_count
    some ({ s with m_count := oldCount + 1 }, if oldCount < 0 then .returned false else .retake)
  | .retake =>
    let oldCount := s.m_count
    some ({ s with m_count := oldCount - 1 }, if 0 < oldCount then .kernelTry else .restore)
  | .kernelTry =>
    if 0 < s.m_sema then some ({ s with m_sema := s.m_sema - 1 }, .returned true)
    else some (s, .restore)
  | .returned _ => none

/-- `availableApprox()`. -/
def availableApprox (s : LightweightSemaphore) : Nat := s.m_count.toNat

end LightweightSemaphore

/-! ## The invariant -/

/-- The signaller has seen a negative counter and has not posted. -/
def Signal.posting : Signal → Nat
  | .post => 1
  | _ => 0

/-- The waiter is in a call. -/
def Wait.busy : Wait → Bool
  | .returned _ => false
  | _ => true

/-- What the waiter has taken off the counter without being granted a permit. -/
def Wait.borrowed : Wait → Nat
  | .sleep | .restore | .kernelTry => 1
  | _ => 0

/-- The waiter may have been seen behind a negative counter. -/
def Wait.announced : Wait → Bool
  | .sleep | .restore | .retake | .kernelTry => true
  | _ => false

/-- The waiter has seen that there is a permit. -/
def Wait.sure : Wait → Bool
  | .take | .retake | .kernelTry => true
  | _ => false

theorem Wait.borrowed_le (pw : Wait) : pw.borrowed ≤ 1 := by
  cases pw <;> simp [borrowed]

theorem Wait.announced_of_borrowed (pw : Wait) (h : 0 < pw.borrowed) : pw.announced := by
  cases pw <;> simp [borrowed, announced] at *

theorem Wait.borrowed_of_announced (pw : Wait) (h : pw.announced) (hsure : ¬pw.sure) :
    pw.borrowed = 1 := by
  cases pw <;> simp [borrowed, announced, sure] at *

namespace LightweightSemaphore

/-- **The invariant** of a semaphore with so many `permits`. -/
structure Inv (s : LightweightSemaphore) (ps : Signal) (pw : Wait) (permits : Nat) : Prop where
  ok : s.fault = false
  count : s.m_count = permits - pw.borrowed
  /-- One post for a waiter that was announced and has a permit, none otherwise. -/
  posts : s.m_sema + ps.posting = if pw.announced ∧ 0 < permits then 1 else 0
  sure : pw.sure → 0 < permits

variable {s s' : LightweightSemaphore} {ps ps' : Signal} {pw pw' : Wait} {permits : Nat}

/-- A new semaphore. -/
theorem inv_make (permits : Nat) {ps : Signal} (hps : ps ≠ .post) (ok : Bool) :
    (make permits).Inv ps (.returned ok) permits where
  ok := by simp [make]
  count := by simp [make, Wait.borrowed]
  posts := by
    have hnone : ps.posting = 0 := by cases ps <;> first | rfl | exact absurd rfl hps
    simp [make, hnone, Wait.announced]
  sure hs := absurd hs Bool.false_ne_true

/-- The waiter's next call. -/
theorem Inv.call_wait (h : s.Inv ps pw permits) (hidle : pw.busy = false) :
    s.Inv ps .load permits := by
  cases pw with
  | returned ok => exact { h with }
  | _ => exact absurd hidle (by simp [Wait.busy])

/-- What `wait` returned does not matter afterwards. -/
theorem Inv.of_returned {ok : Bool} (h : s.Inv ps (.returned ok) permits) (ok' : Bool) :
    s.Inv ps (.returned ok') permits := { h with }

/-- The signaller's next call. -/
theorem Inv.call_signal (h : s.Inv .returned pw permits) : s.Inv .add pw permits := { h with }

/-- `signal` increases the counter once. -/
theorem signal_ne_add (hs : s.signal ps = some (s', ps')) : ps' ≠ .add := by
  cases ps with
  | returned => exact absurd hs (by simp [signal])
  | post =>
    obtain ⟨-, rfl⟩ := Prod.mk.inj (Option.some.inj hs)
    simp
  | add =>
    obtain ⟨-, rfl⟩ := Prod.mk.inj (Option.some.inj hs)
    split <;> simp

/-- **A step of `signal`**: its first step makes one more permit. -/
theorem Inv.signal_step (h : s.Inv ps pw permits) (hs : s.signal ps = some (s', ps')) :
    s'.Inv ps' pw (if ps = .add then permits + 1 else permits) := by
  have hcount := h.count
  have hposts := h.posts
  cases ps with
  | returned => exact absurd hs (by simp [signal])
  | post =>
    obtain ⟨rfl, rfl⟩ := Prod.mk.inj (Option.some.inj hs)
    exact { h with posts := hposts }
  | add =>
    obtain ⟨rfl, rfl⟩ := Prod.mk.inj (Option.some.inj hs)
    have hle := pw.borrowed_le
    refine ⟨?_, ?_, ?_, fun _ => Nat.succ_pos _⟩
    · have hge : -1 ≤ s.m_count := by omega
      simp [h.ok, hge]
    · show s.m_count + 1 = ((permits + 1 : Nat) : Int) - pw.borrowed
      omega
    · show s.m_sema + (if s.m_count < 0 then Signal.post else Signal.returned).posting =
        if pw.announced ∧ 0 < permits + 1 then 1 else 0
      have hzero : s.m_count < 0 ↔ pw.announced ∧ permits = 0 := by
        refine ⟨fun hneg => ⟨pw.announced_of_borrowed (by omega), by omega⟩, ?_⟩
        rintro ⟨hann, rfl⟩
        have := pw.borrowed_of_announced hann fun hs => absurd (h.sure hs) (Nat.lt_irrefl 0)
        omega
      rw [show Signal.add.posting = 0 from rfl, Nat.add_zero] at hposts
      by_cases hann : pw.announced
      · by_cases hnone : permits = 0
        · -- the sleeper is owed the post from now on
          rw [if_pos (hzero.mpr ⟨hann, hnone⟩), if_pos ⟨hann, Nat.succ_pos _⟩, hposts,
            if_neg fun hp => absurd hnone (Nat.ne_of_gt hp.2)]
          rfl
        · rw [if_neg fun hneg => hnone (hzero.mp hneg).2, if_pos ⟨hann, Nat.succ_pos _⟩,
            hposts, if_pos ⟨hann, Nat.pos_of_ne_zero hnone⟩]
          rfl
      · rw [if_neg fun hneg => hann (hzero.mp hneg).1, if_neg fun hp => hann hp.1, hposts,
          if_neg fun hp => hann hp.1]
        rfl

/-- A waiter that was not announced goes on without being announced. -/
theorem Inv.unannounced (h : s.Inv ps pw permits) (hpw : pw.announced = false)
    {count : Int} {permits' : Nat} (hcount : count = permits' - pw'.borrowed)
    (hpw' : pw'.announced = false) (hsure : pw'.sure → 0 < permits') :
    ({ s with m_count := count } : LightweightSemaphore).Inv ps pw' permits' where
  ok := h.ok
  count := hcount
  posts := by
    have := h.posts
    rw [if_neg (by simp [hpw])] at this
    rw [if_neg (by simp [hpw'])]
    exact this
  sure := hsure

/-- An announced waiter goes on being announced. -/
theorem Inv.announced (h : s.Inv ps pw permits) (hpw : pw.announced) {count : Int}
    (hcount : count = permits - pw'.borrowed) (hpw' : pw'.announced)
    (hsure : pw'.sure → 0 < permits) :
    ({ s with m_count := count } : LightweightSemaphore).Inv ps pw' permits where
  ok := h.ok
  count := hcount
  posts := by
    have := h.posts
    simp only [hpw, true_and] at this
    simp only [hpw', true_and]
    exact this
  sure := hsure

/-- The waiter takes the post from the kernel. -/
theorem Inv.take_post (h : s.Inv ps pw permits) (hpw : pw.borrowed = 1) (hpost : 0 < s.m_sema) :
    ∃ permits', permits = permits' + 1 ∧
      ({ s with m_sema := s.m_sema - 1 } : LightweightSemaphore).Inv ps (.returned true)
        permits' := by
  have hcount := h.count
  have hposts := h.posts
  have hpos : 0 < permits := by
    by_contra hnone
    rw [if_neg fun hp => hnone hp.2] at hposts
    omega
  rw [if_pos ⟨pw.announced_of_borrowed (by omega), hpos⟩] at hposts
  refine ⟨permits - 1, by omega, h.ok, ?_, ?_, fun hs => absurd hs Bool.false_ne_true⟩
  · show s.m_count = ((permits - 1 : Nat) : Int) - 0
    omega
  · show s.m_sema - 1 + ps.posting = 0
    omega

/-- What a step of the waiter says of the permits: `wait` takes one and returns `true`, or
returns `false` without one. -/
def Granted (permits permits' : Nat) : Wait → Prop
  | .returned true => permits = permits' + 1
  | .returned false => permits = 0 ∧ permits' = 0
  | _ => permits' = permits

theorem spinning_eq (n : Nat) : spinning n = .borrow ∨ ∃ spin, spinning n = .spin spin := by
  cases n with
  | zero => exact Or.inl rfl
  | succ spin => exact Or.inr ⟨spin, rfl⟩

theorem Inv.spinning (h : s.Inv ps pw permits) (hpw : pw.announced = false)
    (hcount : s.m_count = permits) (n : Nat) :
    Granted permits permits (spinning n) ∧ s.Inv ps (spinning n) permits := by
  rcases spinning_eq n with he | ⟨spin, he⟩ <;> rw [he] <;>
    exact ⟨rfl, h.unannounced hpw (by simpa [Wait.borrowed] using hcount) rfl
      fun hs => absurd hs Bool.false_ne_true⟩

/-- **A step of `tryWait` or `wait`.** -/
theorem Inv.wait_step (h : s.Inv ps pw permits) {mode : WaitMode} {timeout : Bool}
    (hs : s.wait mode timeout pw = some (s', pw')) :
    ∃ permits', Granted permits permits' pw' ∧ s'.Inv ps pw' permits' := by
  have hcount := h.count
  cases pw with
  | returned ok => exact absurd hs (by simp [wait])
  | load =>
    obtain ⟨rfl, rfl⟩ := Prod.mk.inj (Option.some.inj hs)
    have hpermits : s.m_count = permits := by simpa [Wait.borrowed] using hcount
    split
    next hpos =>
      exact ⟨permits, rfl, h.unannounced rfl (by simpa [Wait.borrowed] using hpermits) rfl
        fun _ => by omega⟩
    next hnone =>
      cases mode with
      | tryWait =>
        obtain rfl : permits = 0 := by omega
        exact ⟨0, ⟨rfl, rfl⟩, h.unannounced rfl (by simpa [Wait.borrowed] using hpermits) rfl
          fun hs => absurd hs Bool.false_ne_true⟩
      | wait | timed => exact ⟨permits, h.spinning rfl hpermits _⟩
  | spin spin =>
    obtain ⟨rfl, rfl⟩ := Prod.mk.inj (Option.some.inj hs)
    have hpermits : s.m_count = permits := by simpa [Wait.borrowed] using hcount
    split
    next hpos =>
      exact ⟨permits, rfl, h.unannounced rfl (by simpa [Wait.borrowed] using hpermits) rfl
        fun _ => by omega⟩
    next hnone => exact ⟨permits, h.spinning rfl hpermits _⟩
  | take =>
    obtain ⟨rfl, rfl⟩ := Prod.mk.inj (Option.some.inj hs)
    obtain ⟨k, rfl⟩ := Nat.exists_eq_add_of_lt (h.sure rfl)
    refine ⟨k, by simp [Granted], h.unannounced rfl ?_ rfl
      fun hs => absurd hs Bool.false_ne_true⟩
    simp [Wait.borrowed] at hcount ⊢
    omega
  | borrow =>
    obtain ⟨rfl, rfl⟩ := Prod.mk.inj (Option.some.inj hs)
    have hpermits : s.m_count = permits := by simpa [Wait.borrowed] using hcount
    split
    next hpos =>
      obtain ⟨k, rfl⟩ : ∃ k, permits = k + 1 := ⟨permits - 1, by omega⟩
      exact ⟨k, rfl, h.unannounced rfl (by simp [Wait.borrowed]; omega) rfl
        fun hs => absurd hs Bool.false_ne_true⟩
    next hnone =>
      obtain rfl : permits = 0 := by omega
      refine ⟨0, rfl, h.ok, ?_, ?_, fun hs => absurd hs Bool.false_ne_true⟩
      · show s.m_count - 1 = ((0 : Nat) : Int) - 1
        omega
      · simpa [Wait.announced] using h.posts
  | sleep =>
    rw [wait] at hs
    split at hs
    next =>
      obtain ⟨rfl, rfl⟩ := Prod.mk.inj (Option.some.inj hs)
      exact ⟨permits, rfl, h.announced rfl hcount rfl fun hs => absurd hs Bool.false_ne_true⟩
    next =>
      split at hs
      next hpost =>
        obtain ⟨rfl, rfl⟩ := Prod.mk.inj (Option.some.inj hs)
        exact h.take_post rfl hpost
      next => exact absurd hs (by simp)
  | restore =>
    obtain ⟨rfl, rfl⟩ := Prod.mk.inj (Option.some.inj hs)
    have hlent : s.m_count = permits - 1 := by simpa [Wait.borrowed] using hcount
    split
    next hneg =>
      obtain rfl : permits = 0 := by omega
      refine ⟨0, ⟨rfl, rfl⟩, h.ok, ?_, ?_, fun hs => absurd hs Bool.false_ne_true⟩
      · show s.m_count + 1 = ((0 : Nat) : Int) - 0
        omega
      · simpa [Wait.announced] using h.posts
    next => exact ⟨permits, rfl, h.announced rfl (by simp [Wait.borrowed]; omega) rfl
        fun _ => by omega⟩
  | retake =>
    obtain ⟨rfl, rfl⟩ := Prod.mk.inj (Option.some.inj hs)
    have hpos := h.sure rfl
    have hpermits : s.m_count = permits := by simpa [Wait.borrowed] using hcount
    rw [if_pos (by omega)]
    exact ⟨permits, rfl, h.announced rfl (by simp [Wait.borrowed]; omega) rfl fun _ => hpos⟩
  | kernelTry =>
    rw [wait] at hs
    split at hs
    next hpost =>
      obtain ⟨rfl, rfl⟩ := Prod.mk.inj (Option.some.inj hs)
      exact h.take_post rfl hpost
    next =>
      obtain ⟨rfl, rfl⟩ := Prod.mk.inj (Option.some.inj hs)
      exact ⟨permits, rfl, h.announced rfl hcount rfl fun hs => absurd hs Bool.false_ne_true⟩

/-- A permit is never left with the kernel or the signaller alone: whoever sleeps while
there is one is about to be woken. -/
theorem Inv.awake (h : s.Inv ps pw permits) (hsleep : pw = .sleep) (hpos : 0 < permits) :
    0 < s.m_sema ∨ ps = .post := by
  have hposts := h.posts
  subst hsleep
  rw [if_pos ⟨rfl, hpos⟩] at hposts
  cases ps with
  | post => exact Or.inr rfl
  | add | returned =>
    have : s.m_sema = 1 := hposts
    exact Or.inl (by omega)

end LightweightSemaphore

end Darts.Queue
