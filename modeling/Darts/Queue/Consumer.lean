import Darts.Queue.Frames

/-!
# The steps of `try_dequeue`, `peek` and `pop`

One lemma for each place in the source, then `Rel.dequeue_step`: a step of the
consumer keeps the invariant, the store that releases the cell removes the head
of the queue, every other step leaves the queue as it is, and a call finds
nothing only if the queue was empty when it began.
-/

namespace Darts.Queue

open Circular

variable {T : Type} {cap least : Nat} {q q' : Rwq T} {th : Threads T} {g : Ghost T}
  {op : ConsumerOp} {pd : Dequeue T}

/-- After its step the consumer is at `pd`, and the queue holds `items`. -/
def DeqStep (cap least : Nat) (th : Threads T) (g : Ghost T) (q' : Rwq T) (pd : Dequeue T)
    (items : List T) : Prop :=
  ∃ g', Rel cap least q' { th with deq := pd } g' ∧ g'.items = items ∧ g'.held = g.held ∧
    g'.wasEmpty = g.wasEmpty

/-- The consumer has not come back with or without an element. -/
def Dequeue.Quiet : Dequeue T → Prop
  | .removed _ | .peeked none => False
  | _ => True

theorem Dequeue.quiet_of_busy (h : pd.busy) : pd.Quiet := by
  cases pd with
  | removed result => exact absurd h (by simp [Dequeue.busy])
  | peeked element => exact absurd h (by simp [Dequeue.busy])
  | _ => trivial

namespace Rel

/-- A used block the consumer writes to. -/
theorem keeps_used {b : Nat} (hb : b ∈ g.used) {B : Block T} {m : Marks} {c : List T}
    (htail : B.tail = (q.blocks b).tail) (hnext : B.next = (q.blocks b).next)
    (hmask : B.sizeMask = (q.blocks b).sizeMask) (ht : m.t = (g.marks b).t)
    (hlf : m.lf = (g.marks b).lf) :
    ConsumerKeeps q g (q.setBlock b fun _ => B) (g.setBlock b m c) where
  tailBlock := rfl
  brk := rfl
  ring _ := Iff.rfl
  free := ⟨[], (List.append_nil _).symm⟩
  tail x := by
    rw [Rwq.setBlock_blocks, Ghost.setBlock_marks]
    by_cases hx : x = b
    · rw [if_pos hx, if_pos hx, hx]
      exact ⟨htail, hnext, hmask, ht, hlf⟩
    · rw [if_neg hx, if_neg hx]
      exact ⟨rfl, rfl, rfl, rfl, rfl⟩
  unused x hx := by
    have hne : x ≠ b := (ne_of_mem_of_not_mem hb hx).symm
    rw [Rwq.setBlock_blocks_ne _ _ _ _ hne, Ghost.setBlock_marks, if_neg hne,
      Ghost.setBlock_content, if_neg hne]
    exact ⟨rfl, rfl, rfl⟩
  held := rfl

/-- A step that only moves the consumer on. -/
theorem deq_pass (h : Rel cap least q th g) (hbusy : th.deq.busy)
    (htaken : ∀ x, pd.taken x = th.deq.taken x)
    (hdeq : ({ th with deq := pd } : Threads T).deqInv q g) :
    DeqStep cap least th g q pd g.items :=
  ⟨g, h.pass (fun x => ⟨htaken x, rfl⟩) (Or.inr rfl) (fun _ hx => hx) h.enq hdeq h.held
    (fun _ => h.wasEmpty hbusy), rfl, rfl, rfl⟩

/-- `localTail` of a used block is refreshed. -/
theorem refresh (h : Rel cap least q th g) {b : Nat} (hb : b ∈ g.used) (hbusy : th.deq.busy)
    (htaken : ∀ x, pd.taken x = th.deq.taken x)
    (hdeq : ({ th with deq := pd } : Threads T).deqInv
      (q.setBlock b fun B => { B with localTail := (q.blocks b).tail })
      (g.setBlock b { g.marks b with lt := (g.marks b).t } (g.content b))) :
    DeqStep cap least th g (q.setBlock b fun B => { B with localTail := (q.blocks b).tail }) pd
      g.items := by
  have hring : b ∈ g.ring := Ghost.mem_ring.mpr (Or.inl hb)
  have hinv := h.inv b hring
  have := hinv.length; have hlt := hinv.lt_le; have hf := hinv.f_le
  have hsame := Ghost.items_setBlock_self g b { g.marks b with lt := (g.marks b).t }
  refine ⟨_, ?_, hsame, rfl, rfl⟩
  refine h.update (fun _ => rfl) (h.least_le b)
    { hinv with localTail := hinv.tail, f_le := hf.trans hlt, lt_le := Nat.le_refl _ } ?_
    (fun x _ => ⟨htaken x, rfl⟩) (Or.inr rfl) (fun x hx hne => ?_) (h.behind b) (h.left_full b) ?_ hdeq
    (fun he => ?_) (fun _ hnil => ?_)
  · show ({ q.blocks b with localTail := (q.blocks b).tail } : Block T).Cells _ _ (pd.taken b) _
    rw [htaken b]
    exact h.cells b hring
  · refine h.free_empty x hx ?_
    rw [Ghost.setBlock_content, if_neg (ne_of_mem_of_not_mem hb (h.notMem_used hx)).symm] at hne
    exact hne
  · exact h.enqInv_stable (keeps_used hb rfl rfl rfl rfl rfl) rfl rfl rfl
  · rw [hsame]
    exact h.held he
  · rw [hsame] at hnil
    exact h.wasEmpty hbusy hnil

/-- A block found nonempty leads to `take` or ends a `peek`. -/
theorem found_inv {b : Nat} {l : List Nat} (hfirst : g.used = q.frontBlock :: l)
    (hb : b = q.frontBlock) (hlt : (g.marks b).f < (g.marks b).lt) (hne : g.content b ≠ []) :
    ({ th with deq := Rwq.found th.op b (q.blocks b).front } : Threads T).deqInv q g := by
  subst hb
  unfold Threads.deqInv Rwq.found
  cases hop : th.op with
  | peek => exact ⟨rfl, [], l, hfirst, by simp, hne, rfl⟩
  | try_dequeue | pop => exact ⟨rfl, rfl, hlt, by simp⟩

/-- The same right after `localTail` was refreshed. -/
theorem refreshed_found (h : Rel cap least q th g) (hne : g.content q.frontBlock ≠ []) :
    ({ th with deq := Rwq.found th.op q.frontBlock (q.blocks q.frontBlock).front } :
      Threads T).deqInv
      (q.setBlock q.frontBlock fun B => { B with localTail := (q.blocks q.frontBlock).tail })
      (g.setBlock q.frontBlock { g.marks q.frontBlock with lt := (g.marks q.frontBlock).t }
        (g.content q.frontBlock)) := by
  obtain ⟨l, hl⟩ := h.used_cons
  have hlen := (h.inv _ h.front_mem).length
  have hpos := List.length_pos_iff.mpr hne
  have hfront : (q.blocks q.frontBlock).front = ((q.setBlock q.frontBlock fun B =>
      { B with localTail := (q.blocks q.frontBlock).tail }).blocks q.frontBlock).front := by
    rw [Rwq.setBlock_blocks_self]
  rw [hfront]
  exact found_inv hl rfl (by simp; omega) (by simpa using hne)

theorem taken_found (op : ConsumerOp) (b i x : Nat) :
    (Rwq.found op b i : Dequeue T).taken x = [] := by
  cases op <;> rfl

theorem quiet_found (op : ConsumerOp) (b i : Nat) : (Rwq.found op b i : Dequeue T).Quiet := by
  cases op <;> trivial

theorem taken_nothing (op : ConsumerOp) (x : Nat) :
    (Rwq.nothing op : Dequeue T).taken x = [] := by
  cases op <;> rfl

theorem deq_check (h : Rel cap least q th g) (hd : th.deq = .check)
    (hs : q.dequeue th.op th.deq = some (q', pd)) :
    pd.Quiet ∧ DeqStep cap least th g q' pd g.items := by
  rw [hd] at hs
  simp only [Rwq.dequeue, Option.some.injEq, Prod.mk.injEq] at hs
  obtain ⟨rfl, rfl⟩ := hs
  obtain ⟨l, hl⟩ := h.used_cons
  have hinv := h.inv _ h.front_mem
  refine ⟨?_, h.deq_pass (by rw [hd]; rfl) (fun x => ?_) ?_⟩
  · split
    next => exact quiet_found _ _ _
    next => trivial
  · rw [hd]
    split
    next => exact taken_found _ _ _ _
    next => rfl
  · split
    next hne =>
      have hlt := Nat.lt_of_le_of_ne hinv.f_le (mt hinv.front_eq_localTail.mpr hne)
      exact found_inv hl rfl hlt (hinv.content_ne_nil hlt)
    next => exact ⟨rfl, rfl⟩

theorem deq_loadTail (h : Rel cap least q th g) {b blockFront : Nat}
    (hd : th.deq = .loadTail b blockFront) (hs : q.dequeue th.op th.deq = some (q', pd)) :
    pd.Quiet ∧ DeqStep cap least th g q' pd g.items := by
  have hknow := h.deq
  rw [Threads.deqInv, hd] at hknow
  obtain ⟨rfl, rfl⟩ := hknow
  rw [hd] at hs
  simp only [Rwq.dequeue, Option.some.injEq, Prod.mk.injEq] at hs
  obtain ⟨rfl, rfl⟩ := hs
  obtain ⟨l, hl⟩ := h.used_cons
  have hinv := h.inv _ h.front_mem
  refine ⟨?_, h.refresh (by rw [hl]; exact List.mem_cons_self) (by rw [hd]; rfl) (fun x => ?_) ?_⟩
  · split
    next => exact quiet_found _ _ _
    next => trivial
  · rw [hd]
    split
    next => exact taken_found _ _ _ _
    next => rfl
  · split
    next hne =>
      exact h.refreshed_found (mt hinv.front_eq_tail.mpr hne)
    next heq =>
      refine ⟨rfl, fun hone => h.wasEmpty (by rw [hd]; rfl) ?_⟩
      have hnil := hinv.front_eq_tail.mp (not_ne_iff.mp heq)
      have hone : g.used = [] ++ q.frontBlock :: [] := hone
      rw [Ghost.items_eq _ _ _ _ hone, hnil]
      rfl

theorem deq_loadTailBlock (h : Rel cap least q th g) {b : Nat} (hd : th.deq = .loadTailBlock b)
    (hs : q.dequeue th.op th.deq = some (q', pd)) :
    (pd.busy ∨ pd = Rwq.nothing th.op ∧ g.wasEmpty) ∧ DeqStep cap least th g q' pd g.items := by
  have hknow := h.deq
  rw [Threads.deqInv, hd] at hknow
  obtain ⟨rfl, hempty⟩ := hknow
  rw [hd] at hs
  simp only [Rwq.dequeue, Option.some.injEq, Prod.mk.injEq] at hs
  obtain ⟨rfl, rfl⟩ := hs
  obtain ⟨l, hl⟩ := h.used_cons
  have hlast := h.last
  rw [hl] at hlast
  -- one used block exactly when the front block is the tail block
  have hone : q.frontBlock = q.tailBlock ↔ l = [] := by
    refine ⟨fun heq => ?_, fun hnil => ?_⟩
    · by_contra hne
      obtain ⟨r, hr⟩ := h.used_concat
      rw [List.getLast?_cons_of_ne_nil hne] at hlast
      have := h.front_notMem_tail
      rw [hl, List.tail_cons, heq] at this
      exact this (List.mem_of_getLast? hlast)
    · rw [hnil] at hlast
      exact Option.some.inj hlast
  refine ⟨?_, h.deq_pass (by rw [hd]; rfl) (fun x => ?_) ?_⟩
  · split
    next => exact Or.inl rfl
    next heq => exact Or.inr ⟨rfl, hempty (by rw [hl, hone.mp (not_ne_iff.mp heq)])⟩
  · rw [hd]
    split
    next => rfl
    next => exact taken_nothing _ _
  · split
    next hne =>
      show g.used.tail ≠ []
      rw [hl]
      exact mt hone.mpr hne
    next =>
      unfold Threads.deqInv Rwq.nothing
      cases th.op <;> trivial

theorem deq_reload (h : Rel cap least q th g) (hd : th.deq = .reload)
    (hs : q.dequeue th.op th.deq = some (q', pd)) :
    pd.Quiet ∧ DeqStep cap least th g q' pd g.items := by
  have hknow := h.deq
  rw [Threads.deqInv, hd] at hknow
  rw [hd] at hs
  simp only [Rwq.dequeue, Option.some.injEq, Prod.mk.injEq] at hs
  obtain ⟨rfl, rfl⟩ := hs
  obtain ⟨l, hl⟩ := h.used_cons
  have hinv := h.inv _ h.front_mem
  refine ⟨?_, h.refresh (by rw [hl]; exact List.mem_cons_self) (by rw [hd]; rfl) (fun x => ?_) ?_⟩
  · split
    next => exact quiet_found _ _ _
    next => trivial
  · rw [hd]
    split
    next => exact taken_found _ _ _ _
    next => rfl
  · split
    next hne =>
      exact h.refreshed_found (mt hinv.front_eq_tail.mpr hne)
    next heq =>
      have hnil := hinv.front_eq_tail.mp (not_ne_iff.mp heq)
      exact ⟨rfl, hknow, by simpa using hnil⟩

/-! ## On to the next block -/

theorem deq_loadNext (h : Rel cap least q th g) {b : Nat} (hd : th.deq = .loadNext b)
    (hs : q.dequeue th.op th.deq = some (q', pd)) :
    pd.busy ∧ DeqStep cap least th g q' pd g.items := by
  have hknow := h.deq
  rw [Threads.deqInv, hd] at hknow
  obtain ⟨rfl, hne, hnil⟩ := hknow
  rw [hd] at hs
  simp only [Rwq.dequeue, Option.some.injEq, Prod.mk.injEq] at hs
  obtain ⟨rfl, rfl⟩ := hs
  obtain ⟨l, hl⟩ := h.used_cons
  rw [hl, List.tail_cons] at hne
  obtain ⟨n, r, rfl⟩ := List.exists_cons_of_ne_nil hne
  have hlinked := h.linked
  rw [Ghost.ring, hl] at hlinked
  have hnext : (q.blocks q.frontBlock).next = n := hlinked.next_head
  refine ⟨rfl, h.deq_pass (by rw [hd]; rfl) (fun x => by rw [hd]; rfl) ⟨?_, hnil⟩⟩
  rw [hl, hnext]
  rfl

theorem deq_nextTail (h : Rel cap least q th g) {n : Nat} (hd : th.deq = .nextTail n)
    (hs : q.dequeue th.op th.deq = some (q', pd)) :
    pd.Quiet ∧ DeqStep cap least th g q' pd g.items := by
  have hknow := h.deq
  rw [Threads.deqInv, hd] at hknow
  obtain ⟨hn, hnil⟩ := hknow
  obtain ⟨l, hl⟩ := h.used_cons
  obtain ⟨r, hr⟩ := List.head?_eq_some_iff.mp hn
  rw [hl, List.tail_cons] at hr
  subst hr
  have hmem : n ∈ g.used := by rw [hl]; simp
  have hnf : n ≠ q.frontBlock := by
    have := h.nodup_used
    rw [hl] at this
    exact fun heq => (List.nodup_cons.mp this).1 (heq ▸ List.mem_cons_self)
  have hinv := h.inv n (Ghost.mem_ring.mpr (Or.inl hmem))
  have hbehind := h.behind n (by rw [hl]; exact List.mem_cons_self)
  have hne : (q.blocks n).front ≠ (q.blocks n).tail := mt hinv.front_eq_tail.mp hbehind.1
  have hlen := hinv.length
  have hpos := List.length_pos_iff.mpr hbehind.1
  rw [hd] at hs
  simp only [Rwq.dequeue, Rwq.assert_true _ (bne_iff_ne.mpr hne)] at hs
  -- taking and popping go on behind the refreshed tail
  have hmove : th.op ≠ .peek → DeqStep cap least th g
      (q.setBlock n fun B => { B with localTail := (q.blocks n).tail })
      (.moveFront n (q.blocks n).front) g.items := by
    intro hop
    refine h.refresh hmem (by rw [hd]; rfl) (fun x => by rw [hd]; rfl) ⟨hn, ?_, ?_, ?_, hop⟩
    · rw [Rwq.setBlock_frontBlock, Ghost.setBlock_content, if_neg hnf.symm]
      exact hnil
    · rw [Rwq.setBlock_blocks_self]
    · rw [Ghost.setBlock_marks_self]
      show (g.marks n).f < (g.marks n).t
      omega
  cases hop : th.op with
  | peek =>
    simp only [hop, Option.some.injEq, Prod.mk.injEq] at hs
    obtain ⟨rfl, rfl⟩ := hs
    refine ⟨trivial, h.deq_pass (by rw [hd]; rfl) (fun x => by rw [hd]; rfl) ?_⟩
    exact ⟨hop, [q.frontBlock], r, hl, by simpa using hnil, hbehind.1, rfl⟩
  | try_dequeue | pop =>
    simp only [hop, Option.some.injEq, Prod.mk.injEq] at hs
    obtain ⟨rfl, rfl⟩ := hs
    exact ⟨trivial, hmove (by rw [hop]; simp)⟩

/-- The front block is empty and becomes free. -/
theorem deq_moveFront (h : Rel cap least q th g) {n nextBlockFront : Nat}
    (hd : th.deq = .moveFront n nextBlockFront) (hs : q.dequeue th.op th.deq = some (q', pd)) :
    pd.busy ∧ DeqStep cap least th g q' pd g.items := by
  have hknow := h.deq
  rw [Threads.deqInv, hd] at hknow
  obtain ⟨hn, hnil, rfl, hlt, hpeek⟩ := hknow
  obtain ⟨l, hl⟩ := h.used_cons
  obtain ⟨r, hr⟩ := List.head?_eq_some_iff.mp hn
  rw [hl, List.tail_cons] at hr
  subst hr
  rw [hd] at hs
  simp only [Rwq.dequeue, Option.some.injEq, Prod.mk.injEq] at hs
  obtain ⟨rfl, rfl⟩ := hs
  have hring : g.ring = q.frontBlock :: (n :: r ++ g.free) := by rw [Ghost.ring, hl]; rfl
  have hmem : ∀ x, x ∈ (n :: r) ++ (g.free ++ [q.frontBlock]) ↔ x ∈ g.ring := fun x => by
    rw [hring, ← List.append_assoc, List.mem_append, List.mem_singleton, List.mem_cons, or_comm]
  have hitems : (n :: r).flatMap g.content = g.items := by
    rw [Ghost.items_eq _ _ [] _ hl, hnil]
    rfl
  refine ⟨rfl, { g with used := n :: r, free := g.free ++ [q.frontBlock] }, ?_, hitems, rfl, rfl⟩
  refine
    { ok := h.ok
      linked := ?_
      nodup := ?_
      pos := fun b hb => h.pos b ((hmem b).mp hb)
      below := fun b hb => h.below b ((hmem b).mp hb)
      owned := fun b hpos hb => (h.owned b hpos hb).imp_left (hmem b).mpr
      first := rfl
      last := ?_
      inv := fun b hb => h.inv b ((hmem b).mp hb)
      cells := fun b hb => ?_
      free_empty := fun b hb hne => ?_
      behind := fun b hb => h.behind b ?_
      left_full := fun b hb => h.left_full b ?_
      enq := ?_
      deq := ⟨rfl, rfl, hlt, hpeek⟩
      held := fun hb => ?_
      wasEmpty := fun _ hempty => ?_
      large := h.large
      least_le := fun b hb => h.least_le b ((hmem b).mp hb)
      capacity := ?_ }
  · show Linked _ ((n :: r) ++ (g.free ++ [q.frontBlock]))
    rw [← List.append_assoc]
    have hlinked := h.linked
    rw [hring] at hlinked
    exact hlinked.rotate
  · show ((n :: r) ++ (g.free ++ [q.frontBlock])).Nodup
    have hnd := h.nodup
    rw [hring] at hnd
    rw [← List.append_assoc]
    exact (List.perm_append_singleton _ _).nodup_iff.mpr hnd
  · have hlast := h.last
    rw [hl, List.getLast?_cons_of_ne_nil (by simp)] at hlast
    exact hlast
  · have := h.cells b ((hmem b).mp hb)
    rw [hd] at this
    exact this
  · rw [List.mem_append, List.mem_singleton] at hb
    rcases hb with hb | rfl
    · exact h.free_empty b hb hne
    · exact absurd hnil hne
  · rw [hl]
    exact List.mem_cons_of_mem _ hb
  · rw [hl, List.dropLast_cons_of_ne_nil (by simp)]
    exact List.mem_cons_of_mem _ hb
  · exact h.enqInv_stable ⟨rfl, rfl, hmem, ⟨[q.frontBlock], rfl⟩,
      fun _ => ⟨rfl, rfl, rfl, rfl, rfl⟩, fun _ _ => ⟨rfl, rfl, rfl⟩, rfl⟩ rfl rfl rfl
  · show ((n :: r).flatMap g.content).length ≤ g.held
    rw [hitems]
    exact h.held hb
  · exact h.wasEmpty (by rw [hd]; rfl) (hitems.symm.trans hempty)
  · have hlen : ((n :: r) ++ (g.free ++ [q.frontBlock])).length = g.ring.length := by
      rw [hring]
      simp only [List.length_append, List.length_cons, List.length_nil]
      omega
    show cap ≤ max 1 (((n :: r) ++ (g.free ++ [q.frontBlock])).length - 1) * least
    rw [hlen]
    exact h.capacity

/-! ## Taking the element -/

/-- The content of the front block, while there is one. -/
theorem front_cons (h : Rel cap least q th g)
    (hlt : (g.marks q.frontBlock).f < (g.marks q.frontBlock).lt) :
    ∃ x c, g.content q.frontBlock = x :: c :=
  List.exists_cons_of_ne_nil ((h.inv _ h.front_mem).content_ne_nil hlt)

theorem length_staged (element : Option T) (b : Nat) (pe : Enqueue) :
    (pe.staged element b).length ≤ 1 := by
  unfold Enqueue.staged
  split
  all_goals try split
  all_goals cases element <;> simp

theorem deq_take (h : Rel cap least q th g) {b blockFront : Nat}
    (hd : th.deq = .take b blockFront) (hs : q.dequeue th.op th.deq = some (q', pd)) :
    pd.busy ∧ DeqStep cap least th g q' pd g.items := by
  have hknow := h.deq
  rw [Threads.deqInv, hd] at hknow
  obtain ⟨rfl, rfl, hlt, hpeek⟩ := hknow
  obtain ⟨l, hl⟩ := h.used_cons
  obtain ⟨x, c, hcontent⟩ := h.front_cons hlt
  have hinv := h.inv _ h.front_mem
  have hcells := h.cells _ h.front_mem
  have hmem : q.frontBlock ∈ g.used := by rw [hl]; exact List.mem_cons_self
  rw [hd, hcontent] at hcells
  rw [hcontent] at hinv
  obtain ⟨hdata, htaken⟩ := hcells.take hinv (length_staged _ _ _)
  rw [hd] at hs
  simp only [Rwq.dequeue, hdata, Option.some.injEq, Prod.mk.injEq] at hs
  obtain ⟨rfl, rfl⟩ := hs
  unfold Rwq.destroy
  rw [Rwq.assert_true _ (by rw [hdata]; rfl)]
  have hsame := Ghost.items_setBlock_self g q.frontBlock (g.marks q.frontBlock)
  rw [hcontent] at hsame
  refine ⟨rfl, g.setBlock q.frontBlock (g.marks q.frontBlock) (x :: c), ?_, hsame, rfl, rfl⟩
  refine h.update (fun _ => rfl) (h.least_le _) (hinv.of_data _) ?_ (fun y hy => ⟨?_, rfl⟩)
    (Or.inr rfl) (fun y hy hne => ?_) (fun hb => absurd hb h.front_notMem_tail) (h.left_full _) ?_ ?_
    (fun he => ?_) (fun _ hnil => ?_)
  · simpa [Dequeue.taken] using htaken
  · simp [Dequeue.taken, hd, hy]
  · refine h.free_empty y hy ?_
    rw [Ghost.setBlock_content, if_neg (ne_of_mem_of_not_mem hmem (h.notMem_used hy)).symm] at hne
    exact hne
  · exact h.enqInv_stable (keeps_used hmem rfl rfl rfl rfl rfl) rfl rfl rfl
  · refine ⟨rfl, ?_, by simpa using hlt, hpeek⟩
    rw [hinv.next_front, Ghost.setBlock_marks_self, Rwq.setBlock_blocks_self]
    rfl
  · rw [hsame]
    exact h.held he
  · rw [hsame] at hnil
    exact h.wasEmpty (by rw [hd]; rfl) hnil

/-- The store into the front removes the element. -/
theorem deq_release (h : Rel cap least q th g) {b blockFront : Nat} {result : T}
    (hd : th.deq = .release b blockFront result) (hs : q.dequeue th.op th.deq = some (q', pd)) :
    pd = .removed (some result) ∧ th.op ≠ .peek ∧ ∃ items, g.items = result :: items ∧
      DeqStep cap least th g q' pd items := by
  have hknow := h.deq
  rw [Threads.deqInv, hd] at hknow
  obtain ⟨rfl, rfl, hlt, hpeek⟩ := hknow
  obtain ⟨l, hl⟩ := h.used_cons
  obtain ⟨x, c, hcontent⟩ := h.front_cons hlt
  have hinv := h.inv _ h.front_mem
  have hmem : q.frontBlock ∈ g.used := by rw [hl]; exact List.mem_cons_self
  have hcells := h.cells _ h.front_mem
  rw [hd, hcontent] at hcells
  obtain ⟨live, hlive, hdata⟩ := hcells
  simp only [Dequeue.taken, if_true, List.cons_append, List.nil_append, List.cons.injEq,
    List.length_singleton] at hlive hdata
  obtain ⟨rfl, rfl⟩ := hlive
  rw [hd] at hs
  simp only [Rwq.dequeue, Option.some.injEq, Prod.mk.injEq] at hs
  obtain ⟨rfl, rfl⟩ := hs
  have hitems : (g.setBlock q.frontBlock
      { g.marks q.frontBlock with f := (g.marks q.frontBlock).f + 1 } c).items =
      c ++ l.flatMap g.content :=
    Ghost.items_setBlock _ _ _ _ [] _ hl h.nodup_used
  have hold : g.items = result :: (c ++ l.flatMap g.content) := by
    rw [Ghost.items_eq _ _ [] _ hl, hcontent]
    rfl
  have hlen := hinv.length
  rw [hcontent, List.length_cons] at hlen
  have := hinv.lf_le
  refine ⟨rfl, hpeek, _, hold, _, ?_, hitems, rfl, rfl⟩
  refine h.update (fun _ => rfl) (h.least_le _)
    { hinv with front := rfl, lf_le := ?_, f_le := hlt, length := ?_ } ⟨_, rfl, hdata⟩
    (fun y hy => ⟨?_, rfl⟩) (Or.inr rfl) (fun y hy hne => ?_)
    (fun hb => absurd hb h.front_notMem_tail) (h.left_full _) ?_ trivial (fun he => ?_)
    (fun hb => absurd hb (by simp [Dequeue.busy]))
  · show (g.marks q.frontBlock).lf ≤ (g.marks q.frontBlock).f + 1
    omega
  · show (g.marks q.frontBlock).f + 1 + c.length = (g.marks q.frontBlock).t
    omega
  · simp [Dequeue.taken, hd, hy]
  · refine h.free_empty y hy ?_
    rw [Ghost.setBlock_content, if_neg (ne_of_mem_of_not_mem hmem (h.notMem_used hy)).symm] at hne
    exact hne
  · exact h.enqInv_stable (keeps_used hmem rfl rfl rfl rfl rfl) rfl rfl rfl
  · have hheld := h.held he
    rw [hitems]
    rw [hold, List.length_cons] at hheld
    omega

/-! ## Every step -/

/-- What a step of the consumer to `pd` makes of the elements in the queue. -/
def DeqItems (op : ConsumerOp) (g : Ghost T) : Dequeue T → List T → Prop
  | .removed (some v), items => op ≠ .peek ∧ g.items = v :: items
  | .removed none, items => op ≠ .peek ∧ items = g.items ∧ g.wasEmpty
  | .peeked none, items => op = .peek ∧ items = g.items ∧ g.wasEmpty
  | _, items => items = g.items

theorem deqItems_quiet (hq : pd.Quiet) (hstep : DeqStep cap least th g q' pd g.items) :
    ∃ items, DeqStep cap least th g q' pd items ∧ DeqItems th.op g pd items := by
  refine ⟨g.items, hstep, ?_⟩
  cases pd with
  | removed result => exact absurd hq id
  | peeked element =>
    cases element with
    | none => exact absurd hq id
    | some pointer => rfl
  | _ => rfl

/-- **A step of the consumer.** -/
theorem dequeue_step (h : Rel cap least q th g) (hs : q.dequeue th.op th.deq = some (q', pd)) :
    ∃ items, DeqStep cap least th g q' pd items ∧ DeqItems th.op g pd items := by
  cases hd : th.deq with
  | check =>
    obtain ⟨hq, hstep⟩ := h.deq_check hd hs
    exact deqItems_quiet hq hstep
  | loadTail b blockFront =>
    obtain ⟨hq, hstep⟩ := h.deq_loadTail hd hs
    exact deqItems_quiet hq hstep
  | loadTailBlock b =>
    obtain ⟨hb | ⟨rfl, hempty⟩, hstep⟩ := h.deq_loadTailBlock hd hs
    · exact deqItems_quiet (Dequeue.quiet_of_busy hb) hstep
    · refine ⟨_, hstep, ?_⟩
      unfold Rwq.nothing
      cases th.op with
      | peek => exact ⟨rfl, rfl, hempty⟩
      | try_dequeue | pop => exact ⟨by simp, rfl, hempty⟩
  | reload =>
    obtain ⟨hq, hstep⟩ := h.deq_reload hd hs
    exact deqItems_quiet hq hstep
  | loadNext b =>
    obtain ⟨hb, hstep⟩ := h.deq_loadNext hd hs
    exact deqItems_quiet (Dequeue.quiet_of_busy hb) hstep
  | nextTail n =>
    obtain ⟨hq, hstep⟩ := h.deq_nextTail hd hs
    exact deqItems_quiet hq hstep
  | moveFront n nextBlockFront =>
    obtain ⟨hb, hstep⟩ := h.deq_moveFront hd hs
    exact deqItems_quiet (Dequeue.quiet_of_busy hb) hstep
  | take b blockFront =>
    obtain ⟨hb, hstep⟩ := h.deq_take hd hs
    exact deqItems_quiet (Dequeue.quiet_of_busy hb) hstep
  | release b blockFront result =>
    obtain ⟨rfl, hpeek, items, hitems, hstep⟩ := h.deq_release hd hs
    exact ⟨items, hstep, hpeek, hitems⟩
  | removed result =>
    rw [hd] at hs
    exact absurd hs (by simp [Rwq.dequeue])
  | peeked element =>
    rw [hd] at hs
    exact absurd hs (by simp [Rwq.dequeue])

/-- What the pointer of a finished `peek` points at: the head of the queue. -/
theorem deref_peeked (h : Rel cap least q th g) {b i : Nat}
    (hd : th.deq = .peeked (some (b, i))) :
    ∃ v, (q.blocks b).data i = some v ∧ g.items.head? = some v := by
  have hknow := h.deq
  rw [Threads.deqInv, hd] at hknow
  obtain ⟨-, pre, post, hused, hnil, hne, rfl⟩ := hknow
  have hring : b ∈ g.ring := Ghost.mem_ring.mpr (Or.inl (by rw [hused]; simp))
  obtain ⟨v, c, hcontent⟩ := List.exists_cons_of_ne_nil hne
  have hinv := h.inv b hring
  obtain ⟨live, hlive, hdata⟩ := h.cells b hring
  rw [hd, hcontent] at hlive
  obtain rfl : live = v :: (c ++ _) := hlive
  have hsize := hinv.size_pos
  have hhead := hdata.head (by omega)
  rw [hd] at hhead
  refine ⟨v, ?_, ?_⟩
  · rw [hinv.front]
    exact hhead
  · have hpre : pre.flatMap g.content = [] := List.flatMap_eq_nil_iff.mpr hnil
    rw [Ghost.items_eq _ _ _ _ hused, hpre, hcontent]
    rfl

end Rel

end Darts.Queue
