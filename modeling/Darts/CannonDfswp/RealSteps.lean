import Darts.CannonDfswp.QueueTies

/-!
# Every access keeps the queues of `cannonTP` tied to `Program`

One lemma for each kind of access. A step either goes on with a call, and then nothing is
to be seen in `Program`, or it is the last access of a call, and then it is the step
`Program` makes.
-/

namespace Darts.CannonDfswp

open Cannon Queue Transition

variable {R : Type} {n p : Nat} [CommRing R] {blas : Blas R} {room : Prop}
  {s t : State (Cod n) (Access n) (LiveFrame R n p)} {Q Q' : Side → Tile n → List (Mat R)}

/-- The state of `Program`. -/
abbrev seen (s : State (Cod n) (Access n) (LiveFrame R n p))
    (Q : Side → Tile n → List (Mat R)) : State (Cod n) (Act n) (Frame R n p) :=
  s.coarse Access.action (s.mem.withQueues Q)

/-- After the step of a firing: what is left of it, and the frame. -/
def advanced (s : State (Cod n) (Access n) (LiveFrame R n p)) (k : Cod n)
    (os : List (Op (Cod n) (Access n))) (f : LiveFrame R n p) :
    State (Cod n) (Access n) (LiveFrame R n p) :=
  { s.setRest k 0 os with mem := f }

/-- Of two `getCurrentHead`s, what the second and the loop test take at most. -/
def Side.later : Side → Nat
  | .A => 30
  | .B => 0

namespace LiveFrame

/-- The turn of the waiting loop goes round once more in any case. -/
def stale (f : LiveFrame R n p) (i : Tile n) : Side → Nat
  | .A => 0
  | .B => if f.heads .A i = none then 100 else 0

/-- How many accesses an action still takes at most, while there is a head wherever it
looks for one. -/
def left (f : LiveFrame R n p) : Access n → Nat
  | .act (.multiply _) => 60
  | .act (.popA _) | .act (.popB _) => 12
  | .act _ => 10
  | .enqueue _ d i => (f.queues d i).enqLeft
  | .getCurrentHead d i => f.stale i d + Side.later d + 28
  | .size d i => f.stale i d + Side.later d + 16 + (f.queues d i).deqLeft
  | .peek d i => f.stale i d + Side.later d + 2 + (f.queues d i).deqLeft
  | .heads i => if f.heads .A i = none ∨ f.heads .B i = none then 101 else 1
  | .pop d i => (f.queues d i).deqLeft

variable {f : LiveFrame R n p} {d : Side} {i : Tile n}

omit [CommRing R] in
theorem setQueue_setQueue (b b' : Blocking (Mat R)) :
    (f.setQueue d i b).setQueue d i b' = f.setQueue d i b' :=
  congrArg (fun q => ({ f with queues := q } : LiveFrame R n p)) (setAt_setAt f.queues d i b b')

omit [CommRing R] in
@[simp] theorem setQueue_queues (b : Blocking (Mat R)) : (f.setQueue d i b).queues d i = b :=
  setAt_self _ _ _ _

omit [CommRing R] in
@[simp] theorem setQueue_stale (b : Blocking (Mat R)) (j : Tile n) (d' : Side) :
    (f.setQueue d i b).stale j d' = f.stale j d' := rfl

end LiveFrame

/-- The same for the firing of a codelet. -/
def leftOf (s : State (Cod n) (Access n) (LiveFrame R n p)) (k : Cod n) : Nat :=
  match Op.headAct (s.rest k 0) with
  | some b => s.mem.left b
  | none => 0

/-- What a step has to show: it is the step of `Program`, or nothing is to be seen, and
the firing is nearer to its step, unless it waits in `Program`. -/
def Kept (blas : Blas R) (room : Prop) (s : State (Cod n) (Access n) (LiveFrame R n p))
    (Q : Side → Tile n → List (Mat R)) (l : Label (Cod n))
    (t : State (Cod n) (Access n) (LiveFrame R n p)) : Prop :=
  ∃ Q', Live room t Q' ∧
    (seen t Q' = seen s Q ∧ (∃ b, s.nextAct l = some b ∧
        (exec blas b.action (s.mem.withQueues Q) ≠ none → leftOf t l.cod < leftOf s l.cod)) ∨
      (cannonTP blas n p).step (seen s Q) l = some (seen t Q'))

omit [CommRing R] in
theorem current_advanced {k : Cod n} {os : List (Op (Cod n) (Access n))} {f : LiveFrame R n p}
    (i : Tile n) : current (advanced s k os f) i =
      if Cod.compute i = k then Op.headAct os else current s i := by
  unfold current advanced
  rw [State.setRest_rest]
  by_cases hk : Cod.compute i = k
  · rw [if_pos ⟨hk, rfl⟩, if_pos hk]
  · rw [if_neg fun hc => hk hc.1, if_neg hk]

omit [CommRing R] in
/-- A step of a firing that is not in `enqueue` on the queue, before or after. -/
theorem pushing_advanced {k : Cod n} {os : List (Op (Cod n) (Access n))} {f : LiveFrame R n p}
    {d : Side} {i : Tile n} (hold : ∀ x, Op.headAct (s.rest k 0) ≠ some (.enqueue x d i))
    (hnew : ∀ x, Op.headAct os ≠ some (.enqueue x d i)) (x : Act n) :
    Pushing (advanced s k os f) d i x ↔ Pushing s d i x := by
  constructor
  · rintro ⟨k', j', he⟩
    rw [advanced, State.setRest_rest] at he
    split at he
    next => exact absurd he (hnew x)
    next => exact ⟨k', j', he⟩
  · rintro ⟨k', j', he⟩
    refine ⟨k', j', ?_⟩
    rw [advanced, State.setRest_rest, if_neg]
    · exact he
    · rintro ⟨rfl, rfl⟩
      exact hold x he

/-- What a compute codelet does leaves its pointers to the queues of side `d` alone. -/
structure Leaves (d : Side) (old new : Option (Access n)) : Prop where
  calling : calling d new = calling d old
  looked : looked d new → looked d old
  used : used d new → used d old

namespace Live

/-- What follows an action in a body. -/
theorem headAct_rest (hc : Ctl blas (seen s Q)) (h : Live room s Q) {i : Tile n} {b : Access n}
    {os : List (Op (Cod n) (Access n))} (hrest : s.rest (.compute i) 0 = .act b :: os) :
    Op.headAct os = (after b.action).map .act := by
  have htail := hc.headAct_tail (State.coarse_rest_cons hrest)
  rw [h.fresh _ _ _ _ hrest, headAct_map, htail]

/-- What follows is not in a call. -/
theorem headAct_fresh (h : Live room s Q) {k : Cod n} {j : Nat}
    {o : Op (Cod n) (Access n)} {os : List (Op (Cod n) (Access n))}
    (hrest : s.rest k j = o :: os) (x : Act n) (d : Side) (i : Tile n) :
    Op.headAct os ≠ some (.enqueue x d i) := by
  rw [h.fresh _ _ _ _ hrest, headAct_map]
  cases Op.headAct (os.map (Op.map Access.action)) <;> simp

/-- **A queue that the step does not access.** -/
theorem untouched (h : Live room s Q) {k : Cod n} {b : Access n}
    {os new : List (Op (Cod n) (Access n))} (hrest : s.rest k 0 = .act b :: os)
    {f : LiveFrame R n p} {d : Side} {i : Tile n} (hqueue : f.queues d i = s.mem.queues d i)
    (hQ : Q' d i = Q d i) (hold : ∀ x, b ≠ .enqueue x d i)
    (hnew : ∀ x, Op.headAct new ≠ some (.enqueue x d i))
    (hpushed : ∀ x v, Pushing s d i x → x.pushesInto = some (d, i) →
      pushed (s.mem.withQueues Q) x = some v → pushed (f.withQueues Q') x = some v)
    (hother : k ≠ .compute i → f.heads d i = s.mem.heads d i)
    (hown : k = .compute i → calling d (Op.headAct new) = calling d (some b) ∧
      (looked d (Op.headAct new) → looked d (some b) ∧ f.heads d i = s.mem.heads d i) ∧
      (used d (Op.headAct new) → f.heads d i ≠ none)) :
    ∃ a, QueueTied room (f.withQueues Q') (Pushing (advanced s k new f) d i) d i
      (f.queues d i) (f.heads d i) (current (advanced s k new f) i) (Q' d i) a := by
  obtain ⟨a, ha⟩ := h.queues d i
  have hpushing : ∀ x, Pushing (advanced s k new f) d i x ↔ Pushing s d i x :=
    pushing_advanced (by rw [hrest]; exact fun x he => hold x (Option.some.inj he)) hnew
  have hcurrent : current (advanced s k new f) i =
      if Cod.compute i = k then Op.headAct new else current s i := current_advanced i
  refine ⟨a, ?_⟩
  rw [hqueue, hQ]
  by_cases hk : k = .compute i
  · rw [hcurrent, if_pos hk.symm]
    have hhead : current s i = some b := by rw [current, ← hk, hrest]; rfl
    obtain ⟨hcall, hlooked, hused⟩ := hown hk
    rw [hhead] at ha
    exact ha.frame hpushing hpushed hcall hlooked hused
  · rw [hcurrent, if_neg (Ne.symm hk), hother hk]
    exact ha.frame hpushing hpushed rfl (fun hl => ⟨hl, rfl⟩) ha.used

/-- The same when the codelet leaves its pointers alone. -/
theorem untouched_of_leaves (h : Live room s Q) {k : Cod n} {b : Access n}
    {os new : List (Op (Cod n) (Access n))} (hrest : s.rest k 0 = .act b :: os)
    {f : LiveFrame R n p} {d : Side} {i : Tile n} (hqueue : f.queues d i = s.mem.queues d i)
    (hQ : Q' d i = Q d i) (hold : ∀ x, b ≠ .enqueue x d i)
    (hnew : ∀ x, Op.headAct new ≠ some (.enqueue x d i))
    (hpushed : ∀ x v, Pushing s d i x → x.pushesInto = some (d, i) →
      pushed (s.mem.withQueues Q) x = some v → pushed (f.withQueues Q') x = some v)
    (hheads : f.heads d i = s.mem.heads d i)
    (hown : k = .compute i → Leaves d (some b) (Op.headAct new)) :
    ∃ a, QueueTied room (f.withQueues Q') (Pushing (advanced s k new f) d i) d i
      (f.queues d i) (f.heads d i) (current (advanced s k new f) i) (Q' d i) a := by
  refine h.untouched hrest hqueue hQ hold hnew hpushed (fun _ => hheads) fun hk => ?_
  obtain ⟨a, ha⟩ := h.queues d i
  have hleaves := hown hk
  refine ⟨hleaves.calling, fun hl => ⟨hleaves.looked hl, hheads⟩, fun hu => ?_⟩
  rw [hheads]
  refine ha.used ?_
  rw [current, ← hk, hrest]
  exact hleaves.used hu

/-- A firing goes on with the call it is in. -/
theorem going_on (h : Live room s Q) {k : Cod n} {b c : Access n}
    {os : List (Op (Cod n) (Access n))} (hrest : s.rest k 0 = .act b :: os)
    (hb : c.action = b.action) {f : LiveFrame R n p}
    (hf : f.withQueues Q = s.mem.withQueues Q) (hok : f.fault = false)
    (hq : ∀ d i, ∃ a, QueueTied room (s.mem.withQueues Q)
      (Pushing (advanced s k (.act c :: os) f) d i) d i (f.queues d i) (f.heads d i)
      (current (advanced s k (.act c :: os) f) i) (Q d i) a)
    (hleft : exec blas b.action (s.mem.withQueues Q) ≠ none → f.left c < s.mem.left b) :
    Kept blas room s Q (.op k 0) (advanced s k (.act c :: os) f) := by
  refine ⟨Q, ⟨hok, fun k' j' o os' ho => ?_, fun d i => ?_⟩,
    Or.inl ⟨?_, b, ?_, fun henabled => ?_⟩⟩
  · rw [advanced, State.setRest_rest] at ho
    split at ho
    next =>
      obtain ⟨-, rfl⟩ := List.cons.inj ho
      exact h.fresh _ _ _ _ hrest
    next => exact h.fresh _ _ _ _ ho
  · have := hq d i
    rwa [← hf] at this
  · exact (congrArg (fun m => ({ s.setRest k 0 (.act c :: os) with mem := f } :
      State (Cod n) (Access n) (LiveFrame R n p)).coarse Access.action m) hf).trans
      (State.coarse_setRest_same hrest hb)
  · rw [State.nextAct, hrest]
    rfl
  · have hafter : leftOf (advanced s k (.act c :: os) f) k = f.left c := by
      rw [leftOf, advanced, State.setRest_rest_self]
      rfl
    have hbefore : leftOf s k = s.mem.left b := by
      rw [leftOf, hrest]
      rfl
    show leftOf (advanced s k (.act c :: os) f) k < leftOf s k
    rw [hafter, hbefore]
    exact hleft henabled

/-- The last access of a call, or an action without one. -/
theorem done (h : Live room s Q) {k : Cod n} {b : Access n}
    {os new : List (Op (Cod n) (Access n))} (hrest : s.rest k 0 = .act b :: os)
    (hnew : new = (new.map (Op.map Access.action)).map (Op.map .act)) {f : LiveFrame R n p}
    (hexec : exec blas b.action (s.mem.withQueues Q) =
      some (f.withQueues Q', new.map (Op.map Access.action))) (hok : f.fault = false)
    (hq : ∀ d i, ∃ a, QueueTied room (f.withQueues Q')
      (Pushing (advanced s k (new ++ os) f) d i) d i (f.queues d i) (f.heads d i)
      (current (advanced s k (new ++ os) f) i) (Q' d i) a) :
    Kept blas room s Q (.op k 0) (advanced s k (new ++ os) f) := by
  refine ⟨Q', ⟨hok, fun k' j' o os' ho => ?_, hq⟩, Or.inr ?_⟩
  · rw [advanced, State.setRest_rest] at ho
    split at ho
    next =>
      have hall : new ++ os = ((new ++ os).map (Op.map Access.action)).map (Op.map .act) := by
        rw [List.map_append, List.map_append, ← hnew, ← h.fresh _ _ _ _ hrest]
      rw [ho, List.map_cons, List.map_cons] at hall
      exact (List.cons.inj hall).2
    next => exact h.fresh _ _ _ _ ho
  · exact Program.step_coarse_act hrest hexec

omit [CommRing R] in
/-- The operations start with their head action. -/
theorem eq_cons_of_headAct {b : Access n} {os : List (Op (Cod n) (Access n))}
    (h : Op.headAct os = some b) : ∃ os', os = .act b :: os' := by
  unfold Op.headAct at h
  split at h
  next a os' =>
    obtain rfl := Option.some.inj h
    exact ⟨os', rfl⟩
  next => cases h

/-- What the other pushes in progress are about to push, after an action. -/
theorem pushed_kept (hc : Ctl blas (seen s Q)) {k : Cod n} {b : Access n}
    {os : List (Op (Cod n) (Access n))} (hrest : s.rest k 0 = .act b :: os)
    {m' : Frame R n p} {new : List (Op (Cod n) (Act n))}
    (hexec : exec blas b.action (s.mem.withQueues Q) = some (m', new)) {d : Side} {i : Tile n}
    (hold : ∀ x, b ≠ .enqueue x d i) (x : Act n) (v : Mat R) (hx : Pushing s d i x)
    (hinto : x.pushesInto = some (d, i)) (hv : pushed (s.mem.withQueues Q) x = some v) :
    pushed m' x = some v := by
  obtain ⟨k', j', he⟩ := hx
  obtain ⟨os', hrest'⟩ := eq_cons_of_headAct he
  have hat : At (seen s Q) k 0 b.action := ⟨_, State.coarse_rest_cons hrest⟩
  have hat' : At (seen s Q) k' j' x := ⟨_, State.coarse_rest_cons hrest'⟩
  refine hc.pushed_stable hat hat' (fun hsame => ?_) hexec hinto hv
  obtain ⟨rfl, rfl⟩ := Prod.mk.inj hsame
  rw [hrest] at hrest'
  exact hold x (Op.act.inj (List.cons.inj hrest').1)

omit [CommRing R] in
/-- The local actions leave the queues and the pointers alone. -/
theorem beginAct_local [Zero R] (f : LiveFrame R n p) {x : Act n} (hx : x.Local) :
    (beginAct f x).1.queues = f.queues ∧ (beginAct f x).1.heads = f.heads ∧
      (beginAct f x).1.fault = f.fault ∧
      (beginAct f x).2 = ((beginAct f x).2.map (Op.map Access.action)).map (Op.map .act) := by
  cases x with
  | gatherA i | gatherB i | scatterC i | incr i | continuation => exact ⟨rfl, rfl, rfl, rfl⟩
  | test i =>
    refine ⟨rfl, rfl, rfl, ?_⟩
    show (if f.curIterations i < n then _ else _) = List.map _ (List.map _ (if _ then _ else _))
    split
    · rw [map_action_act]
    · rfl
  | _ => exact absurd hx id

omit [CommRing R] in
/-- After a local action comes what was left, or a turn of the loop. -/
theorem headAct_local [Zero R] (f : LiveFrame R n p) {x : Act n} (hx : x.Local)
    (os : List (Op (Cod n) (Access n))) :
    Op.headAct ((beginAct f x).2 ++ os) = Op.headAct os ∨
      ∃ i, x = .test i ∧ Op.headAct ((beginAct f x).2 ++ os) = some (.act (.multiply i)) := by
  cases x with
  | gatherA i | gatherB i | scatterC i | incr i | continuation => exact Or.inl rfl
  | test i =>
    show Op.headAct ((if f.curIterations i < n then _ else _) ++ os) = _ ∨
      ∃ _, _ ∧ Op.headAct ((if f.curIterations i < n then _ else _) ++ os) = _
    split
    · exact Or.inr ⟨i, rfl, rfl⟩
    · exact Or.inl rfl
  | _ => exact absurd hx id

/-- **An action without queues.** -/
theorem local_kept (hc : Ctl blas (seen s Q)) (h : Live room s Q) {x : Act n} (hx : x.Local)
    {os : List (Op (Cod n) (Access n))} (hrest : s.rest x.owner 0 = .act (.act x) :: os) :
    Kept blas room s Q (.op x.owner 0)
      (advanced s x.owner ((beginAct s.mem x).2 ++ os) (beginAct s.mem x).1) := by
  obtain ⟨hqueues, hheads, hfault, hmap⟩ := beginAct_local s.mem hx
  have hhead := headAct_local s.mem hx os
  have hexec : exec blas x (s.mem.withQueues Q) = some ((beginAct s.mem x).1.withQueues Q,
      (beginAct s.mem x).2.map (Op.map Access.action)) := exec_local hx
  refine h.done hrest hmap hexec (hfault.trans h.ok) fun d i => ?_
  refine h.untouched_of_leaves hrest (by rw [hqueues]) rfl (by simp) ?_
    (fun y v => pushed_kept hc hrest hexec (by simp) y v) (by rw [hheads]) fun hk => ?_
  · rcases hhead with hos | ⟨j, -, hmul⟩
    · rw [hos]
      exact fun y => h.headAct_fresh hrest y d i
    · rw [hmul]
      simp
  · rcases hhead with hos | ⟨j, -, hmul⟩
    · rw [hk] at hrest
      rw [hos, h.headAct_rest hc hrest]
      cases x <;> first | exact ⟨rfl, id, id⟩ | exact absurd hx id
    · rw [hmul]
      exact ⟨rfl, fun hl => absurd hl (by simp [looked, used]),
        fun hu => absurd hu (by simp [used])⟩

/-- Nobody else is in `enqueue` on the queue. -/
theorem pushing_unique [NeZero n] (hc : Ctl blas (seen s Q)) (h : Live room s Q) {k : Cod n}
    {b : Access n} {os : List (Op (Cod n) (Access n))} (hrest : s.rest k 0 = .act b :: os)
    {d : Side} {i : Tile n} (hinto : b.action.pushesInto = some (d, i)) {k' : Cod n} {j' : Nat}
    {x : Act n} (hx : Op.headAct (s.rest k' j') = some (.enqueue x d i)) :
    k' = k ∧ j' = 0 ∧ b = .enqueue x d i := by
  obtain ⟨a, ha⟩ := h.queues d i
  obtain ⟨os', hrest'⟩ := eq_cons_of_headAct hx
  have hsame := hc.producer_unique d.dest_bijective.injective d.next_bijective.injective
    ⟨_, State.coarse_rest_cons hrest'⟩ ⟨_, State.coarse_rest_cons hrest⟩
    (ha.pushes x ⟨k', j', hx⟩).1 hinto
  obtain ⟨rfl, rfl⟩ := Prod.mk.inj hsame
  rw [hrest] at hrest'
  exact ⟨rfl, rfl, Op.act.inj (List.cons.inj hrest').1⟩

/-- A firing goes on with the call it is in, after an access to queue `d` of tile `i`. -/
theorem accessed (h : Live room s Q) {k : Cod n} {b c : Access n}
    {os : List (Op (Cod n) (Access n))} (hrest : s.rest k 0 = .act b :: os)
    (hc : c.action = b.action) {d : Side} {i : Tile n} {b' : Blocking (Mat R)}
    (hold : ∀ x d' i', b = .enqueue x d' i' → d' = d ∧ i' = i)
    (hnew : ∀ x d' i', c = .enqueue x d' i' → d' = d ∧ i' = i)
    (hleaves : ∀ d' i', k = .compute i' → ¬(d' = d ∧ i' = i) →
      Leaves d' (some b) (some c))
    (hmine : ∃ a, QueueTied room (s.mem.withQueues Q)
      (Pushing (advanced s k (.act c :: os) (s.mem.setQueue d i b')) d i) d i b'
      (s.mem.heads d i)
      (current (advanced s k (.act c :: os) (s.mem.setQueue d i b')) i) (Q d i) a)
    (hleft : (s.mem.setQueue d i b').left c < s.mem.left b) :
    Kept blas room s Q (.op k 0) (advanced s k (.act c :: os) (s.mem.setQueue d i b')) := by
  refine h.going_on (f := s.mem.setQueue d i b') hrest hc rfl h.ok (fun d' i' => ?_)
    fun _ => hleft
  by_cases hsame : d' = d ∧ i' = i
  · obtain ⟨rfl, rfl⟩ := hsame
    show ∃ a, QueueTied room (s.mem.withQueues Q) _ d' i' (setAt s.mem.queues d' i' b' d' i') _ _
      (Q d' i') a
    rw [setAt_self]
    exact hmine
  · show ∃ a, QueueTied room ((s.mem.setQueue d i b').withQueues Q)
      (Pushing (advanced s k (.act c :: os) (s.mem.setQueue d i b')) d' i') d' i'
      ((s.mem.setQueue d i b').queues d' i') ((s.mem.setQueue d i b').heads d' i') _ _ a
    exact h.untouched_of_leaves hrest (setAt_ne _ _ _ _ hsame) rfl
      (fun x he => hsame (hold x d' i' he))
      (fun x he => hsame (hnew x d' i' (Option.some.inj he))) (fun _ _ _ _ hv => hv) rfl
      fun hk => hleaves d' i' hk hsame

omit [CommRing R] in
/-- What a compute codelet is at, before and after a step of its own or of another. -/
theorem current_of_rest {k : Cod n} {b : Access n} {os : List (Op (Cod n) (Access n))}
    (hrest : s.rest k 0 = .act b :: os) (new : List (Op (Cod n) (Access n)))
    (f : LiveFrame R n p) (i : Tile n) :
    k = .compute i ∧ current s i = some b ∧ current (advanced s k new f) i = Op.headAct new ∨
      k ≠ .compute i ∧ current (advanced s k new f) i = current s i := by
  rw [current_advanced]
  by_cases hk : k = .compute i
  · subst hk
    rw [if_pos rfl, current, hrest]
    exact Or.inl ⟨rfl, rfl, rfl⟩
  · rw [if_neg (Ne.symm hk)]
    exact Or.inr ⟨hk, rfl⟩

/-- **A push calls `enqueue`.** -/
theorem push_kept [NeZero n] (hc : Ctl blas (seen s Q)) (h : Live room s Q) {x : Act n}
    {d : Side} {i : Tile n} (hx : x.pushesInto = some (d, i))
    {os : List (Op (Cod n) (Access n))} (hrest : s.rest x.owner 0 = .act (.act x) :: os)
    {X : Mat R} (hX : pushed (s.mem.withQueues Q) x = some X.copy)
    (hroom : room ∨ (Q d i).length < 15) :
    Kept blas room s Q (.op x.owner 0) (advanced s x.owner
      ((s.mem.push x d i (some X)).2 ++ os) (s.mem.push x d i (some X)).1) := by
  obtain ⟨a, ha⟩ := h.queues d i
  have hno : ∀ y, ¬Pushing s d i y := fun y ⟨k', j', he⟩ =>
    absurd (pushing_unique hc h hrest hx he).2.2 (by simp)
  obtain ⟨b', es, hcall, htied⟩ := ha.push_call hno hx hX hroom
  have hpush : s.mem.push x d i (some X) =
      (s.mem.setQueue d i b', [.act (.enqueue x d i)]) := by
    simp only [LiveFrame.push, hcall]
  rw [hpush]
  -- a compute codelet that pushes goes on using both pointers
  have hleaves : ∀ d' i', x.owner = .compute i' →
      Leaves d' (some (.act x)) (some (.enqueue x d i)) := by
    intro d' i' hk
    cases x with
    | pushA j | pushB j => exact ⟨rfl, fun _ => rfl, fun _ => rfl⟩
    | pushScratchA j | pushScratchB j => exact absurd hk (by simp [Act.owner])
    | _ => exact absurd hx (by simp [Act.pushesInto])
  refine h.accessed (c := .enqueue x d i) hrest rfl (by simp) (fun y d' i' he => ?_)
    (fun d' i' hk _ => hleaves d' i' hk) ?_ ?_
  · cases he
    exact ⟨rfl, rfl⟩
  · obtain ⟨a', ha'⟩ := htied (Pushing (advanced s x.owner (.act (.enqueue x d i) :: os)
        (s.mem.setQueue d i b')) d i) fun y => by
      constructor
      · rintro ⟨k', j', he⟩
        rw [advanced, State.setRest_rest] at he
        split at he
        next => exact ((Access.enqueue.inj (Option.some.inj he)).1).symm
        next => exact absurd ⟨k', j', he⟩ (hno y)
      · rintro rfl
        refine ⟨y.owner, 0, ?_⟩
        rw [advanced, State.setRest_rest_self]
        rfl
    refine ⟨a', ?_⟩
    rcases current_of_rest hrest (.act (.enqueue x d i) :: os) (s.mem.setQueue d i b') i
      with ⟨hk, hbefore, hafter⟩ | ⟨hk, hafter⟩
    · rw [hafter]
      rw [hbefore] at ha'
      have hl := hleaves d i hk
      exact ha'.frame (fun _ => Iff.rfl) (fun _ _ _ _ hv => hv) hl.calling
        (fun hlook => ⟨hl.looked hlook, rfl⟩) fun hu => ha'.used (hl.used hu)
    · rw [hafter]
      exact ha'
  · show ((s.mem.setQueue d i b').queues d i).enqLeft < s.mem.left (.act x)
    rw [LiveFrame.setQueue_queues, Blocking.callEnqueue_left hcall]
    cases x <;> simp [LiveFrame.left]

/-- The call goes on as before. -/
theorem again_kept (h : Live room s Q) {k : Cod n} {b : Access n}
    {os : List (Op (Cod n) (Access n))} (hrest : s.rest k 0 = .act b :: os) {d : Side} {i : Tile n}
    {b' : Blocking (Mat R)} (hold : ∀ x d' i', b = .enqueue x d' i' → d' = d ∧ i' = i)
    (hmine : ∃ a, QueueTied room (s.mem.withQueues Q) (Pushing s d i) d i b' (s.mem.heads d i)
      (current s i) (Q d i) a)
    (hleft : (s.mem.setQueue d i b').left b < s.mem.left b) :
    Kept blas room s Q (.op k 0) (advanced s k (.act b :: os) (s.mem.setQueue d i b')) := by
  refine h.accessed hrest rfl hold hold (fun _ _ _ _ => ⟨rfl, id, id⟩) ?_ hleft
  obtain ⟨a, ha⟩ := hmine
  have hpushing : ∀ x, Pushing (advanced s k (.act b :: os) (s.mem.setQueue d i b')) d i x ↔
      Pushing s d i x := by
    intro x
    have hsame : ∀ k' j', Op.headAct ((advanced s k (.act b :: os)
        (s.mem.setQueue d i b')).rest k' j') = Op.headAct (s.rest k' j') := by
      intro k' j'
      rw [advanced, State.setRest_rest]
      split
      next he => rw [he.1, he.2, hrest]
      next => rfl
    simp only [Pushing, hsame]
  have hcurrent : current (advanced s k (.act b :: os) (s.mem.setQueue d i b')) i =
      current s i := by
    rcases current_of_rest hrest (.act b :: os) (s.mem.setQueue d i b') i with
      ⟨-, hbefore, hafter⟩ | ⟨-, hafter⟩
    · rw [hafter, hbefore]
      rfl
    · exact hafter
  rw [hcurrent]
  exact ⟨a, ha.frame hpushing (fun _ _ _ _ hv => hv) rfl (fun hl => ⟨hl, rfl⟩) ha.used⟩

/-- **An access in `enqueue`**: the last one is the push. -/
theorem enqueue_kept [NeZero n] (hc : Ctl blas (seen s Q)) (h : Live room s Q) {x : Act n}
    {d : Side} {i : Tile n} {os : List (Op (Cod n) (Access n))}
    (hrest : s.rest x.owner 0 = .act (.enqueue x d i) :: os)
    {malloc : Side → Tile n → Nat → Bool} (hmalloc : room → ∀ d i q, malloc d i q = true) :
    Kept blas room s Q (.op x.owner 0) (advanced s x.owner
      ((s.mem.enqueue malloc x d i).2 ++ os) (s.mem.enqueue malloc x d i).1) := by
  obtain ⟨a, ha⟩ := h.queues d i
  have hx : Pushing s d i x := ⟨x.owner, 0, by rw [hrest]; rfl⟩
  have hinto := (ha.pushes x hx).1
  obtain ⟨b', es, hs, hgoing | hdone⟩ := ha.push_access hx
    (malloc d i (s.mem.queues d i).inner.brk) (fun hr => hmalloc hr _ _ _)
  · obtain ⟨hbusy, hmine⟩ := hgoing
    have hrun : s.mem.enqueue malloc x d i =
        (s.mem.setQueue d i b', [.act (.enqueue x d i)]) := by
      simp only [LiveFrame.enqueue, hs, hbusy, if_true]
    rw [hrun]
    refine h.again_kept hrest (fun y d' i' he => ?_) hmine ?_
    · cases he
      exact ⟨rfl, rfl⟩
    · show ((s.mem.setQueue d i b').queues d i).enqLeft < (s.mem.queues d i).enqLeft
      rw [LiveFrame.setQueue_queues]
      exact Blocking.producer_left hs
  · obtain ⟨hidle, v, hv, hmine⟩ := hdone
    have hrun : s.mem.enqueue malloc x d i = (s.mem.setQueue d i b', []) := by
      simp only [LiveFrame.enqueue, hs, hidle]
      rfl
    rw [hrun]
    have hexec : exec blas x (s.mem.withQueues Q) =
        some ((s.mem.setQueue d i b').withQueues (setAt Q d i (Q d i ++ [v])), []) :=
      exec_pushed hinto hv
    refine h.done hrest rfl hexec h.ok fun d' i' => ?_
    -- a compute codelet that pushes goes on using both pointers
    have hleaves : ∀ d' i', x.owner = .compute i' →
        Leaves d' (some (.enqueue x d i)) (Op.headAct os) := by
      intro d' i' hk
      rw [hk] at hrest
      rw [h.headAct_rest hc hrest]
      cases x with
      | pushA j | pushB j => exact ⟨rfl, fun _ => rfl, fun _ => rfl⟩
      | pushScratchA j | pushScratchB j => exact absurd hk (by simp [Act.owner])
      | _ => exact absurd hinto (by simp [Act.pushesInto])
    by_cases hsame : d' = d ∧ i' = i
    · obtain ⟨rfl, rfl⟩ := hsame
      have hnone : ∀ y, ¬Pushing (advanced s x.owner os (s.mem.setQueue d' i' b')) d' i' y := by
        rintro y ⟨k', j', he⟩
        rw [advanced, State.setRest_rest] at he
        split at he
        next => exact h.headAct_fresh hrest y d' i' he
        next hne =>
          obtain ⟨hk, hj, -⟩ := pushing_unique hc h hrest hinto he
          exact hne ⟨hk, hj⟩
      obtain ⟨a', ha'⟩ := hmine _ hnone
      show ∃ a, QueueTied room _ _ d' i' (setAt s.mem.queues d' i' b' d' i') (s.mem.heads d' i')
        (current (advanced s x.owner os (s.mem.setQueue d' i' b')) i')
        (setAt Q d' i' (Q d' i' ++ [v]) d' i') a
      rw [setAt_self, setAt_self]
      refine ⟨a', ?_⟩
      rcases current_of_rest hrest os (s.mem.setQueue d' i' b') i' with
        ⟨hk, hbefore, hafter⟩ | ⟨-, hafter⟩
      · rw [hafter]
        rw [hbefore] at ha'
        have hl := hleaves d' i' hk
        exact ha'.frame (fun _ => Iff.rfl) (fun y _ hy => absurd hy (hnone y)) hl.calling
          (fun hlook => ⟨hl.looked hlook, rfl⟩) fun hu => ha'.used (hl.used hu)
      · rw [hafter]
        exact ha'.frame (fun _ => Iff.rfl) (fun y _ hy => absurd hy (hnone y)) rfl
          (fun hlook => ⟨hlook, rfl⟩) ha'.used
    · refine h.untouched_of_leaves hrest (setAt_ne _ _ _ _ hsame) (setAt_ne _ _ _ _ hsame) ?_
        (fun y => h.headAct_fresh hrest y d' i') ?_ rfl (hleaves d' i')
      · rintro y he
        cases he
        exact hsame ⟨rfl, rfl⟩
      · refine fun y w => pushed_kept hc hrest hexec ?_ y w
        rintro z he
        cases he
        exact hsame ⟨rfl, rfl⟩

end Live

end Darts.CannonDfswp
