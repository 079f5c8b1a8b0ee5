import Darts.CannonDfswp.RealSteps

/-!
# The consumer's side of the queues of `cannonTP`

A compute codelet asks for the heads, multiplies, and pops. What `getCurrentHeadA()`
returned is a pointer into the queue; the block is still there when `DGEMM` and the
pushes read it, since no one else pops.
-/

namespace Darts.CannonDfswp

open Cannon Queue Transition

variable {R : Type} {n p : Nat} [CommRing R] {blas : Blas R} {room : Prop}
  {s t : State (Cod n) (Access n) (LiveFrame R n p)} {Q Q' : Side → Tile n → List (Mat R)}

namespace LiveFrame

variable {f : LiveFrame R n p} {d : Side} {i : Tile n}

variable {again : Access n}
  {returned : LiveFrame R n p → Result (Mat R) → LiveFrame R n p × LiveFrame.Next n}
  {b' : Blocking (Mat R)} {es : List (BlockingEvent (Mat R))}

omit [CommRing R] in
theorem access_going (hs : (f.queues d i).consumer false = some (b', es))
    (hgoing : ∀ result, b'.deq ≠ .returned result) :
    f.access d i again returned = (f.setQueue d i b', [.act again]) := by
  simp only [access, hs]

omit [CommRing R] in
theorem access_returned (hs : (f.queues d i).consumer false = some (b', es))
    {result : Result (Mat R)} (hd : b'.deq = .returned result) :
    f.access d i again returned = returned (f.setQueue d i b') result := by
  simp only [access, hs, hd]

/-- `DGEMM` leaves the queues and the pointers alone. -/
theorem multiply_frame (blas : Blas R) (hd : ∀ d, ∃ X, f.deref d i = some X) :
    (f.multiply blas i).1.queues = f.queues ∧ (f.multiply blas i).1.heads = f.heads ∧
      (f.multiply blas i).1.fault = f.fault := by
  obtain ⟨A, hA⟩ := hd .A
  obtain ⟨B, hB⟩ := hd .B
  simp only [multiply, hA, hB, and_self]

end LiveFrame

/-- Whoever does not wait has a head on both sides. -/
theorem ne_nil_of_enabled {f : LiveFrame R n p} {i : Tile n}
    (h : exec blas (.multiply i) (f.withQueues Q) ≠ none) (d : Side) : Q d i ≠ [] := by
  intro hnil
  refine h (Option.map_eq_none_iff.mpr ?_)
  have hhead : ∀ d, Q d i = [] → (queue d ((f.withQueues Q).allMatrices i)).head? = none := by
    intro d hd
    rw [LiveFrame.queue_withQueues, hd]
    rfl
  unfold multiply
  cases d with
  | A => rw [show ((f.withQueues Q).allMatrices i).getCurrentHeadA = none from hhead .A hnil]
  | B =>
    rw [show ((f.withQueues Q).allMatrices i).getCurrentHeadB = none from hhead .B hnil]
    cases ((f.withQueues Q).allMatrices i).getCurrentHeadA <;> rfl

namespace Live

/-- **A call of the consumer.** -/
theorem consume_kept (h : Live room s Q) {i : Tile n} {b : Access n}
    {os : List (Op (Cod n) (Access n))} (hrest : s.rest (.compute i) 0 = .act b :: os) (d : Side)
    (op : BlockingOp) (c : Access n) (hc : c.action = b.action) (hop : op.mode = .tryWait)
    (hidle : calling d (some b) = none) (hcall : calling d (some c) = some op)
    (hne : op = .peek ∨ op = .pop → Q d i ≠ []) (hold : ∀ x d' i', b ≠ .enqueue x d' i')
    (hleaves : ∀ d', d' ≠ d → Leaves d' (some b) (some c))
    (hleft : ∀ b', b'.deqLeft ≤ 11 → (s.mem.setQueue d i b').left c < s.mem.left b) :
    Kept blas room s Q (.op (.compute i) 0) (advanced s (.compute i)
      ((s.mem.consume d i op c).2 ++ os)
      (s.mem.consume d i op c).1) := by
  obtain ⟨a, ha⟩ := h.queues d i
  have hcurrent : current s i = some b := by rw [current, hrest]; rfl
  rw [hcurrent] at ha
  obtain ⟨b', es, hs, a', ha'⟩ := ha.consume_call hidle hop hcall hne
  have hrun : s.mem.consume d i op c = (s.mem.setQueue d i b', [.act c]) := by
    simp only [LiveFrame.consume, hs]
  rw [hrun]
  have hnew : ∀ x d' i', c ≠ .enqueue x d' i' := by
    rintro x d' i' rfl
    exact absurd hcall (by simp [calling])
  refine h.accessed hrest hc (fun x d' i' he => absurd he (hold x d' i'))
    (fun x d' i' he => absurd he (hnew x d' i')) (fun d' i' hk hsame => ?_) ⟨a', ?_⟩
    (hleft b' (Blocking.callConsume_left hs))
  · refine hleaves d' fun hd => hsame ⟨hd, ?_⟩
    exact (Cod.compute.inj hk).symm
  · have hpushing : ∀ x, Pushing (advanced s (.compute i) (.act c :: os)
        (s.mem.setQueue d i b')) d i x ↔ Pushing s d i x :=
      pushing_advanced (by rw [hrest]; exact fun x he => hold x d i (Option.some.inj he))
        (fun x he => hnew x d i (Option.some.inj he))
    rw [current_advanced, if_pos rfl]
    exact ha'.frame hpushing (fun _ _ _ _ hv => hv) rfl (fun hl => ⟨hl, rfl⟩) ha'.used

/-- **A turn of the waiting loop begins.** -/
theorem look_kept (h : Live room s Q) {d : Side} {i : Tile n}
    {os : List (Op (Cod n) (Access n))}
    (hrest : s.rest (.compute i) 0 = .act (.getCurrentHead d i) :: os) :
    Kept blas room s Q (.op (.compute i) 0) (advanced s (.compute i)
      ((s.mem.consume d i .size_approx (.size d i)).2 ++ os)
      (s.mem.consume d i .size_approx (.size d i)).1) := by
  refine h.consume_kept hrest d .size_approx (.size d i) rfl rfl rfl (if_pos rfl) (by simp)
    (by simp) (fun d' hd => ?_) fun b' hb => ?_
  · cases d <;> cases d' <;> first
      | exact absurd rfl hd
      | exact ⟨rfl, id, id⟩
  · simp only [LiveFrame.left, LiveFrame.setQueue_queues, LiveFrame.setQueue_stale]
    omega

/-- **A pop is called**: the queue is not empty. -/
theorem pop_kept (h : Live room s Q) {d : Side} {i : Tile n} {os : List (Op (Cod n) (Access n))}
    (hrest : s.rest (.compute i) 0 = .act (.act (pop d i)) :: os) :
    Kept blas room s Q (.op (.compute i) 0) (advanced s (.compute i)
      ((s.mem.consume d i .pop (.pop d i)).2 ++ os) (s.mem.consume d i .pop (.pop d i)).1) := by
  have hidle : calling d (some (.act (pop d i))) = none := by cases d <;> rfl
  refine h.consume_kept hrest d .pop (.pop d i) rfl rfl hidle (if_pos rfl) (fun _ => ?_) (by simp)
    (fun d' hd => ?_) fun b' hb => ?_
  · obtain ⟨a, ha⟩ := h.queues d i
    have hcurrent : current s i = some (.act (pop d i)) := by rw [current, hrest]; rfl
    rw [hcurrent] at ha
    have hused : used d (some (.act (pop d i))) = true := by cases d <;> rfl
    obtain ⟨e, he⟩ := Option.ne_none_iff_exists'.mp (ha.used hused)
    exact (ha.pointer (QueueTied.looked_of_used hused) e he).2
  · cases d <;> cases d' <;> first
      | exact absurd rfl hd
      | exact ⟨rfl, id, id⟩
  · have hpop : s.mem.left (.act (pop d i)) = 12 := by cases d <;> rfl
    rw [hpop]
    simp only [LiveFrame.left, LiveFrame.setQueue_queues]
    omega

/-- **A pointer is set.** -/
theorem head_kept (h : Live room s Q) {d : Side} {i : Tile n} {b : Access n}
    {os : List (Op (Cod n) (Access n))} (hrest : s.rest (.compute i) 0 = .act b :: os)
    (hb : b = .size d i ∨ b = .peek d i) {b' : Blocking (Mat R)} {ptr : Option (Nat × Nat)}
    (hmine : ∀ head, calling d head = none → used d head = false →
      ∃ a, QueueTied room (s.mem.withQueues Q) (Pushing s d i) d i b' ptr head (Q d i) a)
    (hpos : 0 < (s.mem.queues d i).deqLeft) (hset : Q d i ≠ [] → ptr ≠ none) :
    Kept blas room s Q (.op (.compute i) 0) (advanced s (.compute i)
      (((s.mem.setQueue d i b').setHead d i ptr).2 ++ os)
      ((s.mem.setQueue d i b').setHead d i ptr).1) := by
  have hold : ∀ x d' i', b ≠ .enqueue x d' i' := by
    rcases hb with rfl | rfl <;> simp
  have hnew : ∀ x d' i', Access.afterHead d i ≠ .enqueue x d' i' := by
    cases d <;> simp [Access.afterHead]
  have haction : (Access.afterHead d i).action = b.action := by
    rcases hb with rfl | rfl <;> cases d <;> rfl
  have hleaves : ∀ d', d' ≠ d → Leaves d' (some b) (some (.afterHead d i)) := by
    intro d' hd
    rcases hb with rfl | rfl <;> cases d <;> cases d' <;> first
      | exact absurd rfl hd
      | exact ⟨rfl, id, id⟩
  refine h.going_on (c := .afterHead d i) (f := ((s.mem.setQueue d i b').setHead d i ptr).1)
    hrest haction rfl h.ok (fun d' i' => ?_) ?_
  by_cases hsame : d' = d ∧ i' = i
  · obtain ⟨rfl, rfl⟩ := hsame
    have hcall : calling d' (some (.afterHead d' i')) = none := by cases d' <;> rfl
    have hused : used d' (some (.afterHead d' i')) = false := by cases d' <;> rfl
    obtain ⟨a, ha⟩ := hmine _ hcall hused
    show ∃ a, QueueTied room _ _ d' i' (setAt s.mem.queues d' i' b' d' i')
      (setAt s.mem.heads d' i' ptr d' i') _ (Q d' i') a
    rw [setAt_self, setAt_self, current_advanced, if_pos rfl]
    refine ⟨a, ha.frame (pushing_advanced ?_ ?_) (fun _ _ _ _ hv => hv) rfl
      (fun hl => ⟨hl, rfl⟩) ha.used⟩
    · rw [hrest]
      exact fun x he => hold x d' i' (Option.some.inj he)
    · exact fun x he => hnew x d' i' (Option.some.inj he)
  · refine h.untouched_of_leaves (f := ((s.mem.setQueue d i b').setHead d i ptr).1) hrest
      (setAt_ne _ _ _ _ hsame) rfl (fun x => hold x d' i')
      (fun x he => hnew x d' i' (Option.some.inj he)) (fun _ _ _ _ hv => hv)
      (setAt_ne _ _ _ _ hsame) fun hk => hleaves d' fun hd => hsame ⟨hd, ?_⟩
    exact (Cod.compute.inj hk).symm
  · intro henabled
    have hmul : b.action = .multiply i := by rcases hb with rfl | rfl <;> rfl
    have hptr := hset (ne_nil_of_enabled (hmul ▸ henabled) d)
    have hbefore : s.mem.stale i d + Side.later d + 2 < s.mem.left b := by
      rcases hb with rfl | rfl <;> simp only [LiveFrame.left] <;> omega
    refine Nat.lt_of_le_of_lt ?_ hbefore
    cases d with
    | A =>
      have hnot : ((s.mem.setQueue .A i b').setHead .A i ptr).1.heads .A i ≠ none := by
        show setAt s.mem.heads .A i ptr .A i ≠ none
        rwa [setAt_self]
      simp only [Access.afterHead, LiveFrame.left, LiveFrame.stale, Side.later, if_neg hnot]
      omega
    | B =>
      have hnot : ((s.mem.setQueue .B i b').setHead .B i ptr).1.heads .B i ≠ none := by
        show setAt s.mem.heads .B i ptr .B i ≠ none
        rwa [setAt_self]
      have hsame : ((s.mem.setQueue .B i b').setHead .B i ptr).1.heads .A i =
          s.mem.heads .A i := by
        show setAt s.mem.heads .B i ptr .A i = _
        rw [setAt_ne _ _ _ _ (by simp)]
      simp only [Access.afterHead, LiveFrame.left, LiveFrame.stale, Side.later, hsame, hnot,
        or_false]
      split <;> omega

/-- **An access in `size_approx()`**, and what `getCurrentHeadA()` does next. -/
theorem size_kept (h : Live room s Q) {d : Side} {i : Tile n}
    {malloc : Side → Tile n → Nat → Bool} {os : List (Op (Cod n) (Access n))}
    (hrest : s.rest (.compute i) 0 = .act (.size d i) :: os) :
    Kept blas room s Q (.op (.compute i) 0) (advanced s (.compute i)
      ((execAccess malloc blas s.mem (.size d i)).2 ++ os)
      (execAccess malloc blas s.mem (.size d i)).1) := by
  obtain ⟨a, ha⟩ := h.queues d i
  have hcurrent : current s i = some (.size d i) := by rw [current, hrest]; rfl
  rw [hcurrent] at ha
  have hcall : calling d (some (.size d i)) = some .size_approx := if_pos rfl
  obtain ⟨b', es, hs, ⟨hgoing, hmine⟩ | ⟨result, a', hd, hanswer, hnext⟩⟩ :=
    ha.access hcall
  all_goals have hleft := Blocking.consumer_left ha.seen.calm hs
  · rw [execAccess, LiveFrame.access_going hs hgoing]
    refine h.again_kept hrest (by simp) (hcurrent ▸ hmine) ?_
    simp only [LiveFrame.left, LiveFrame.setQueue_queues, LiveFrame.setQueue_stale]
    omega
  · rw [execAccess, LiveFrame.access_returned hs hd]
    cases result with
    | removed element => cases element <;> exact absurd hanswer.1 (by simp [BlockingOp.waits])
    | peeked ptr => exact absurd hanswer.1 (by simp)
    | size count =>
      obtain ⟨-, hcount, hsame⟩ := hanswer
      rw [hsame, ha.visible] at hnext
      rw [ha.visible] at hcount
      cases count with
      | zero =>
        -- `NULL`
        refine h.head_kept hrest (Or.inl rfl) (fun head hcall hused => ⟨a', ?_⟩)
          (Nat.zero_lt_of_lt hleft)
          fun hne => absurd (List.eq_nil_of_length_eq_zero hcount.symm) hne
        exact hnext _ head none (fun _ _ _ _ hv => hv) hcall (fun _ _ he => absurd he (by simp))
          fun hu => absurd hu (by rw [hused]; simp)
      | succ count =>
        have htied := hnext (s.mem.withQueues Q) none (s.mem.heads d i) (fun _ _ _ _ hv => hv) rfl
          (fun hl => absurd hl (by simp [looked, used])) (fun hu => absurd hu (by simp [used]))
        have hne : Q d i ≠ [] := fun hnil => by
          rw [hnil] at hcount
          exact absurd hcount (by simp)
        have hpeek : calling d (some (.peek d i)) = some .peek := if_pos rfl
        obtain ⟨b₂, es₂, hs₂, a₂, htied₂⟩ :=
          htied.consume_call rfl rfl hpeek fun _ => hne
        have hrun : (s.mem.setQueue d i b').consume d i .peek (.peek d i) =
            (s.mem.setQueue d i b₂, [.act (.peek d i)]) := by
          simp only [LiveFrame.consume, LiveFrame.setQueue_queues, hs₂,
            LiveFrame.setQueue_setQueue]
        show Kept blas room s Q (.op (.compute i) 0) (advanced s (.compute i)
          (((s.mem.setQueue d i b').consume d i .peek (.peek d i)).2 ++ os)
          ((s.mem.setQueue d i b').consume d i .peek (.peek d i)).1)
        rw [hrun]
        refine h.accessed (c := .peek d i) hrest rfl (by simp) (by simp)
          (fun d' i' hk hsame => ?_) ⟨a₂, ?_⟩ ?_
        · obtain rfl := Cod.compute.inj hk
          cases d <;> cases d' <;> first
            | exact absurd ⟨rfl, rfl⟩ hsame
            | exact ⟨rfl, id, id⟩
        · rw [current_advanced, if_pos rfl]
          refine htied₂.frame (pushing_advanced ?_ ?_) (fun _ _ _ _ hv => hv) rfl
            (fun hl => ⟨hl, rfl⟩) htied₂.used
          · rw [hrest]
            simp [Op.headAct]
          · simp [Op.headAct]
        · have hpeekLeft := Blocking.callConsume_left hs₂
          simp only [LiveFrame.left, LiveFrame.setQueue_queues, LiveFrame.setQueue_stale]
          omega

/-- **An access in `peek()`.** -/
theorem peek_kept (h : Live room s Q) {d : Side} {i : Tile n}
    {malloc : Side → Tile n → Nat → Bool} {os : List (Op (Cod n) (Access n))}
    (hrest : s.rest (.compute i) 0 = .act (.peek d i) :: os) :
    Kept blas room s Q (.op (.compute i) 0) (advanced s (.compute i)
      ((execAccess malloc blas s.mem (.peek d i)).2 ++ os)
      (execAccess malloc blas s.mem (.peek d i)).1) := by
  obtain ⟨a, ha⟩ := h.queues d i
  have hcurrent : current s i = some (.peek d i) := by rw [current, hrest]; rfl
  rw [hcurrent] at ha
  have hcall : calling d (some (.peek d i)) = some .peek := if_pos rfl
  have hpresent := ha.present (Or.inl hcall)
  obtain ⟨b', es, hs, ⟨hgoing, hmine⟩ | ⟨result, a', hd, hanswer, hnext⟩⟩ :=
    ha.access hcall
  all_goals have hleft := Blocking.consumer_left ha.seen.calm hs
  · rw [execAccess, LiveFrame.access_going hs hgoing]
    refine h.again_kept hrest (by simp) (hcurrent ▸ hmine) ?_
    simp only [LiveFrame.left, LiveFrame.setQueue_queues, LiveFrame.setQueue_stale]
    omega
  · rw [execAccess, LiveFrame.access_returned hs hd]
    cases result with
    | removed element => cases element <;> exact absurd hanswer.1 (by simp [BlockingOp.waits])
    | size count => exact absurd hanswer.1 (by simp)
    | peeked ptr =>
      obtain ⟨-, hnull, hsame⟩ := hanswer
      rw [hsame, ha.visible] at hnext
      refine h.head_kept hrest (Or.inr rfl) (fun head hcall hused => ⟨a', ?_⟩)
        (Nat.zero_lt_of_lt hleft) fun _ he => ha.nonempty hcall (hnull he)
      refine hnext _ head ptr (fun _ _ _ _ hv => hv) hcall (fun _ e he => ?_)
        fun hu => absurd hu (by rw [hused]; simp)
      exact ⟨by rw [he], hpresent⟩

/-- **The loop test, and `DGEMM` once both pointers are set.** -/
theorem heads_kept (hc : Ctl blas (seen s Q)) (h : Live room s Q) {i : Tile n}
    {malloc : Side → Tile n → Nat → Bool} {os : List (Op (Cod n) (Access n))}
    (hrest : s.rest (.compute i) 0 = .act (.heads i) :: os) :
    Kept blas room s Q (.op (.compute i) 0) (advanced s (.compute i)
      ((execAccess malloc blas s.mem (.heads i)).2 ++ os)
      (execAccess malloc blas s.mem (.heads i)).1) := by
  rw [execAccess]
  split
  next hnull =>
    refine h.going_on (c := .getCurrentHead .A i) hrest rfl rfl h.ok (fun d' i' => ?_) fun _ => ?_
    · refine h.untouched_of_leaves hrest rfl rfl (by simp) (by simp [Op.headAct])
        (fun _ _ _ _ hv => hv) rfl fun _ => ?_
      exact ⟨rfl, fun _ => rfl, fun hu => absurd hu (by simp [Op.headAct, used])⟩
    · simp only [LiveFrame.left, LiveFrame.stale, Side.later, if_pos hnull]
      omega
  next hset =>
    rw [not_or] at hset
    have hptr : ∀ d, s.mem.heads d i ≠ none := fun d => by
      cases d
      · exact hset.1
      · exact hset.2
    have hcurrent : current s i = some (.heads i) := by rw [current, hrest]; rfl
    have hderef : ∀ d, ∃ X, s.mem.deref d i = some X ∧ (Q d i).head? = some X := by
      intro d
      obtain ⟨a, ha⟩ := h.queues d i
      rw [hcurrent] at ha
      obtain ⟨e, he⟩ := Option.ne_none_iff_exists'.mp (hptr d)
      obtain ⟨X, hdata, hhead⟩ := ha.deref rfl he
      refine ⟨X, ?_, hhead⟩
      rw [LiveFrame.deref, he]
      exact hdata
    obtain ⟨hnew, hexec⟩ : (s.mem.multiply blas i).2 = [] ∧
        exec blas (.multiply i) (s.mem.withQueues Q) =
          some ((s.mem.multiply blas i).1.withQueues Q, []) := exec_multiply hderef
    obtain ⟨hqueues, hheads, hfault⟩ :=
      LiveFrame.multiply_frame blas fun d => (hderef d).imp fun _ hX => hX.1
    refine h.done hrest (by rw [hnew]; rfl) (by rw [hnew]; exact hexec) (hfault.trans h.ok)
      fun d' i' => ?_
    rw [hnew, List.nil_append]
    refine h.untouched hrest (by rw [hqueues]) rfl (by simp)
      (fun y => h.headAct_fresh hrest y d' i') (fun y v => pushed_kept hc hrest hexec (by simp) y v)
      (fun _ => by rw [hheads]) fun hk => ?_
    obtain rfl := Cod.compute.inj hk
    rw [h.headAct_rest hc hrest, hheads]
    exact ⟨rfl, fun _ => ⟨rfl, rfl⟩, fun _ => hptr d'⟩

/-- **An access in `pop()`**: the last one takes the head. -/
theorem popped_kept (hc : Ctl blas (seen s Q)) (h : Live room s Q) {d : Side} {i : Tile n}
    {malloc : Side → Tile n → Nat → Bool} {os : List (Op (Cod n) (Access n))}
    (hrest : s.rest (.compute i) 0 = .act (.pop d i) :: os) :
    Kept blas room s Q (.op (.compute i) 0) (advanced s (.compute i)
      ((execAccess malloc blas s.mem (.pop d i)).2 ++ os)
      (execAccess malloc blas s.mem (.pop d i)).1) := by
  obtain ⟨a, ha⟩ := h.queues d i
  have hcurrent : current s i = some (.pop d i) := by rw [current, hrest]; rfl
  rw [hcurrent] at ha
  have hcall : calling d (some (.pop d i)) = some .pop := if_pos rfl
  have hpresent := ha.present (Or.inr hcall)
  obtain ⟨b', es, hs, ⟨hgoing, hmine⟩ | ⟨result, a', hd, hanswer, hnext⟩⟩ :=
    ha.access hcall
  · rw [execAccess, LiveFrame.access_going hs hgoing]
    refine h.again_kept hrest (by simp) (hcurrent ▸ hmine) ?_
    simp only [LiveFrame.left, LiveFrame.setQueue_queues]
    exact Blocking.consumer_left ha.seen.calm hs
  · rw [execAccess, LiveFrame.access_returned hs hd]
    obtain ⟨v, blocks, hblocks, hv⟩ : ∃ v blocks, a'.visible = blocks ∧ Q d i = v :: blocks := by
      rw [← ha.visible]
      cases result with
      | removed element =>
        cases element with
        | none => exact absurd (ha.visible ▸ hanswer.2.1) hpresent
        | some v => exact ⟨v, _, rfl, hanswer.2⟩
      | peeked ptr => exact absurd hanswer.1 (by simp)
      | size count => exact absurd hanswer.1 (by simp)
    rw [hblocks] at hnext
    have hexec : exec blas (pop d i) (s.mem.withQueues Q) =
        some ((s.mem.setQueue d i b').withQueues (setAt Q d i blocks), []) := by
      have hpop : exec blas (pop d i) (s.mem.withQueues Q) =
          some (s.mem.withQueues (setAt Q d i (Q d i).tail), []) := exec_pop hpresent
      rwa [hv, List.tail_cons] at hpop
    have hhead : Op.headAct os = (after (pop d i)).map .act := h.headAct_rest hc hrest
    -- the other pointer is still used when `A` has been popped, none after both pops
    have hleaves : ∀ d', d' ≠ d → Leaves d' (some (.pop d i)) (Op.headAct os) := by
      intro d' hd'
      rw [hhead]
      cases d <;> cases d' <;> first
        | exact absurd rfl hd'
        | exact ⟨rfl, id, id⟩
    refine h.done hrest rfl hexec h.ok fun d' i' => ?_
    by_cases hsame : d' = d ∧ i' = i
    · obtain ⟨rfl, rfl⟩ := hsame
      have hidle : calling d' (Op.headAct os) = none ∧ looked d' (Op.headAct os) = false ∧
          used d' (Op.headAct os) = false := by
        rw [hhead]
        cases d' <;> exact ⟨rfl, rfl, rfl⟩
      show ∃ a, QueueTied room ((s.mem.setQueue d' i' b').withQueues (setAt Q d' i' blocks))
        (Pushing (advanced s (.compute i') os (s.mem.setQueue d' i' b')) d' i') d' i'
        (setAt s.mem.queues d' i' b' d' i') (s.mem.heads d' i') _ (setAt Q d' i' blocks d' i') a
      rw [setAt_self, setAt_self, current_advanced, if_pos rfl]
      have htied := hnext ((s.mem.setQueue d' i' b').withQueues (setAt Q d' i' blocks))
        (Op.headAct os) (s.mem.heads d' i')
        (fun y w => pushed_kept hc hrest hexec (by simp) y w) hidle.1
        (fun hl => absurd hl (by rw [hidle.2.1]; simp))
        fun hu => absurd hu (by rw [hidle.2.2]; simp)
      refine ⟨a', htied.frame (pushing_advanced ?_ ?_) (fun _ _ _ _ hv => hv) rfl
        (fun hl => ⟨hl, rfl⟩) htied.used⟩
      · rw [hrest]
        simp [Op.headAct]
      · exact fun y => h.headAct_fresh hrest y d' i'
    · refine h.untouched_of_leaves hrest (setAt_ne _ _ _ _ hsame) (setAt_ne _ _ _ _ hsame)
        (by simp) (fun y => h.headAct_fresh hrest y d' i')
        (fun y w => pushed_kept hc hrest hexec (by simp) y w) rfl fun hk => ?_
      obtain rfl := Cod.compute.inj hk
      exact hleaves d' fun hd' => hsame ⟨hd', rfl⟩

/-! ## The steps that are no actions -/

/-- A firing starts, or has done a counter operation. -/
theorem plain_live (h : Live room s Q) {k : Cod n} {j : Nat} (os : List (Op (Cod n) (Access n)))
    (hmem : t.mem = s.mem) (hrest : t.rest = (s.setRest k j os).rest)
    (hold : Op.headAct (s.rest k j) = none)
    (hfresh : ∀ o os', os = o :: os' → os' = (os'.map (Op.map Access.action)).map (Op.map .act))
    (hnew : ∀ x d i, Op.headAct os ≠ some (.enqueue x d i))
    (hown : ∀ i, k = .compute i →
      Op.headAct os = none ∨ Op.headAct os = some (.act (.test i))) :
    Live room t Q where
  ok := by rw [hmem, h.ok]
  fresh k' j' o os' ho := by
    rw [hrest, State.setRest_rest] at ho
    split at ho
    next => exact hfresh o os' ho
    next => exact h.fresh _ _ _ _ ho
  queues d i := by
    obtain ⟨a, ha⟩ := h.queues d i
    have hpushing : ∀ x, Pushing t d i x ↔ Pushing s d i x := by
      intro x
      constructor
      · rintro ⟨k', j', he⟩
        rw [hrest, State.setRest_rest] at he
        split at he
        next => exact absurd he (hnew x d i)
        next => exact ⟨k', j', he⟩
      · rintro ⟨k', j', he⟩
        refine ⟨k', j', ?_⟩
        rw [hrest, State.setRest_rest, if_neg]
        · exact he
        · rintro ⟨rfl, rfl⟩
          rw [hold] at he
          exact absurd he (by simp)
    rw [hmem]
    refine ⟨a, ?_⟩
    by_cases hk : Cod.compute i = k ∧ 0 = j
    · have hbefore : current s i = none := by rw [current, hk.1, hk.2, hold]
      have hafter : current t i = Op.headAct os := by
        rw [current, hrest, State.setRest_rest, if_pos hk]
      rw [hafter]
      rw [hbefore] at ha
      rcases hown i hk.1.symm with hos | hos <;> rw [hos] <;>
        exact ha.frame hpushing (fun _ _ _ _ hv => hv) rfl
          (fun hl => absurd hl (by simp [looked, used])) fun hu => absurd hu (by simp [used])
    · have hsame : current t i = current s i := by
        rw [current, hrest, State.setRest_rest, if_neg hk, current]
      rw [hsame]
      exact ha.frame hpushing (fun _ _ _ _ hv => hv) rfl (fun hl => ⟨hl, rfl⟩) ha.used

/-- The same for what is left after a counter operation. -/
theorem plain_rest (hc : Ctl blas (seen s Q)) (h : Live room s Q) {k : Cod n} {j : Nat}
    {o : Op (Cod n) (Access n)} {os : List (Op (Cod n) (Access n))} (hrest : s.rest k j = o :: os)
    (ho : ∀ x, o ≠ .act x) (hmem : t.mem = s.mem) (ht : t.rest = (s.setRest k j os).rest) :
    Live room t Q := by
  have hfresh := h.fresh _ _ _ _ hrest
  refine h.plain_live os hmem ht ?_ (fun o' os' he => ?_) (h.headAct_fresh hrest) fun i hk => ?_
  · rw [hrest]
    cases o with
    | act x => exact absurd rfl (ho x)
    | decDep | resetCodelet => rfl
  · rw [he, List.map_cons, List.map_cons] at hfresh
    exact (List.cons.inj hfresh).2
  · subst hk
    obtain ⟨rfl, -⟩ := hc.one.todo_of_rest trivial (State.coarse_rest_cons hrest)
    have hplain := hc.headAct_plain (State.coarse_rest_cons hrest) fun x he => by
      cases o with
      | act y => exact ho y rfl
      | decDep | resetCodelet => cases he
    rw [hfresh, headAct_map]
    rcases hplain with hnone | hsome
    · rw [hnone]
      exact Or.inl rfl
    · rw [hsome]
      exact Or.inr rfl

/-- **A step without an action.** -/
theorem plain_kept (hc : Ctl blas (seen s Q)) (h : Live room s Q)
    {malloc : Side → Tile n → Nat → Bool} {l : Label (Cod n)}
    (hl : (realTP malloc blas p).step s l = some t) (hact : s.nextAct l = none) :
    Kept blas room s Q l t := by
  have hcoarse : (cannonTP blas n p).step (seen s Q) l = some (t.coarse Access.action
      (s.mem.withQueues Q)) :=
    Program.step_coarse (fun k => (map_action_act (fireBody k)).symm) hl hact
  refine ⟨Q, ?_, Or.inr ?_⟩
  · cases Program.step_inv hl with
    | fire k hpool =>
      have hfired : s.fired k = 0 := by
        have := hc.one.fired_le_one (k := k) trivial
        simp only [State.coarse_pool, State.coarse_fired] at this
        omega
      refine h.plain_live ((fireBody k).map (Op.map .act)) rfl rfl ?_ (fun o os' he => ?_)
        (fun x d i => ?_) fun i hk => ?_
      · -- it has not fired before
        cases hrest : s.rest k (s.fired k) with
        | nil => rfl
        | cons o os =>
          have := (hc.one.todo_of_rest trivial (State.coarse_rest_cons hrest)).2.1
          simp only [State.coarse_fired] at this
          omega
      · have hall := congrArg (List.map (Op.map Access.act)) (map_action_act (fireBody k))
        rw [he, List.map_cons, List.map_cons] at hall
        exact (List.cons.inj hall).2.symm
      · rw [headAct_map]
        cases Op.headAct (fireBody k) <;> simp
      · subst hk
        exact Or.inl rfl
    | decDep k j d os hrest => exact h.plain_rest hc hrest (by simp) rfl rfl
    | resetCodelet k j d os hrest => exact h.plain_rest hc hrest (by simp) rfl rfl
    | act k j b os new m hrest hexec =>
      rw [State.nextAct, hrest] at hact
      exact absurd hact (by simp [Op.headAct])
  · have hmem : t.mem = s.mem := by
      rcases Program.mem_of_step hl with ⟨-, hmem⟩ | ⟨b, new, hb, -⟩
      · exact hmem
      · rw [hact] at hb
        exact absurd hb (by simp)
    rw [hcoarse, seen, hmem]

/-! ## A step -/

/-- `A = .., B = ..` are reset. -/
theorem reset_kept (h : Live room s Q) {i : Tile n} {malloc : Side → Tile n → Nat → Bool}
    {os : List (Op (Cod n) (Access n))}
    (hrest : s.rest (.compute i) 0 = .act (.act (.multiply i)) :: os) :
    Kept blas room s Q (.op (.compute i) 0) (advanced s (.compute i)
      ((execAccess malloc blas s.mem (.act (.multiply i))).2 ++ os)
      (execAccess malloc blas s.mem (.act (.multiply i))).1) := by
  refine h.going_on (c := .getCurrentHead .A i) hrest rfl
    (f := (execAccess malloc blas s.mem (.act (.multiply i))).1) rfl h.ok (fun d' i' => ?_)
    fun _ => (by decide : 0 + 30 + 28 < 60)
  refine h.untouched (f := (execAccess malloc blas s.mem (.act (.multiply i))).1) hrest rfl rfl
    (by simp) (by simp [Op.headAct]) (fun _ _ _ _ hv => hv) (fun hk => ?_) fun hk => ?_
  · have hne : i' ≠ i := fun he => hk (by rw [he])
    show setAt (setAt s.mem.heads .A i none) .B i none d' i' = s.mem.heads d' i'
    rw [setAt_ne _ _ _ _ (fun hc => hne hc.2), setAt_ne _ _ _ _ (fun hc => hne hc.2)]
  · exact ⟨rfl, fun hl => absurd hl (by simp [Op.headAct, looked, used]),
      fun hu => absurd hu (by simp [Op.headAct, used])⟩

/-- What a compute codelet pushes on: the head its pointer points at. -/
theorem head_of_push (h : Live room s Q) {d : Side} {i : Tile n}
    {os : List (Op (Cod n) (Access n))}
    (hrest : s.rest (.compute i) 0 = .act (.act (push d i)) :: os) :
    ∃ X, s.mem.deref d i = some X ∧
      pushed (s.mem.withQueues Q) (push d i) = some X.copy := by
  obtain ⟨a, ha⟩ := h.queues d i
  have hcurrent : current s i = some (.act (push d i)) := by rw [current, hrest]; rfl
  rw [hcurrent] at ha
  have hused : used d (some (.act (push d i))) = true := by cases d <;> rfl
  obtain ⟨e, he⟩ := Option.ne_none_iff_exists'.mp (ha.used hused)
  obtain ⟨X, hdata, hhead⟩ := ha.deref (QueueTied.looked_of_used hused) he
  refine ⟨X, ?_, ?_⟩
  · rw [LiveFrame.deref, he]
    exact hdata
  · rw [pushed_push, LiveFrame.queue_withQueues, hhead]
    rfl

/-- **The step lemma.** -/
theorem step [NeZero n] (hc : Ctl blas (seen s Q)) (h : Live room s Q)
    {malloc : Side → Tile n → Nat → Bool} (hmalloc : room → ∀ d i q, malloc d i q = true)
    (hroom : ∀ x d i, At (seen s Q) x.owner 0 x → x.pushesInto = some (d, i) →
      room ∨ (Q d i).length < 15)
    {l : Label (Cod n)} (hl : (realTP malloc blas p).step s l = some t) :
    Kept blas room s Q l t := by
  cases hact : s.nextAct l with
  | none => exact h.plain_kept hc hl hact
  | some b =>
    obtain ⟨k, j, os, rfl, hrest⟩ := State.nextAct_eq_some hact
    obtain ⟨rfl, rfl, -⟩ := hc.owner (State.coarse_rest_cons hrest)
    have hpush : ∀ {x d i X}, b = .act x → x.pushesInto = some (d, i) →
        pushed (s.mem.withQueues Q) x = some X.copy →
        Kept blas room s Q (.op b.action.owner 0) (advanced s b.action.owner
          ((s.mem.push x d i (some X)).2 ++ os) (s.mem.push x d i (some X)).1) := by
      rintro x d i X rfl hx hX
      exact h.push_kept hc hx hrest hX (hroom x d i ⟨_, State.coarse_rest_cons hrest⟩ hx)
    obtain rfl : advanced s b.action.owner ((execAccess malloc blas s.mem b).2 ++ os)
        (execAccess malloc blas s.mem b).1 = t := by
      rw [Program.step, hrest] at hl
      exact Option.some.inj hl
    cases b with
    | act x =>
      cases x with
      | gatherA i => exact h.local_kept hc (x := .gatherA i) trivial hrest
      | gatherB i => exact h.local_kept hc (x := .gatherB i) trivial hrest
      | scatterC i => exact h.local_kept hc (x := .scatterC i) trivial hrest
      | test i => exact h.local_kept hc (x := .test i) trivial hrest
      | incr i => exact h.local_kept hc (x := .incr i) trivial hrest
      | continuation => exact h.local_kept hc (x := .continuation) trivial hrest
      | multiply i => exact h.reset_kept hrest
      | pushScratchA i | pushScratchB i => exact hpush rfl rfl rfl
      | pushA i =>
        obtain ⟨X, hX, hpushed⟩ := h.head_of_push (d := .A) hrest
        have := hpush rfl rfl hpushed
        rwa [← hX] at this
      | pushB i =>
        obtain ⟨X, hX, hpushed⟩ := h.head_of_push (d := .B) hrest
        have := hpush rfl rfl hpushed
        rwa [← hX] at this
      | popA i => exact h.pop_kept (d := .A) hrest
      | popB i => exact h.pop_kept (d := .B) hrest
    | enqueue x d i => exact h.enqueue_kept hc hrest hmalloc
    | getCurrentHead d i => exact h.look_kept hrest
    | size d i => exact h.size_kept hrest
    | peek d i => exact h.peek_kept hrest
    | heads i => exact h.heads_kept hc hrest
    | pop d i => cases d <;> exact h.popped_kept hc hrest

end Live

end Darts.CannonDfswp
