import Mathlib.Algebra.Order.BigOperators.Group.List
import Mathlib.Algebra.Order.Group.Nat
import Darts.Queue.Frames

/-!
# The steps of `inner_enqueue`

One lemma for each place in the source, then `Rel.enqueue_step`: a step of the
producer keeps the invariant, the store that returns `true` appends the element
to the queue, every other step leaves the queue as it is, and `false` is
returned only if `cap` elements were held when the call began.
-/

namespace Darts.Queue

open Circular

variable {T : Type} {cap least MAX : Nat} {q q' : Rwq T} {th : Threads T} {g : Ghost T} {v : T}
  {ca : AllocationMode} {malloc : Bool} {pe : Enqueue}

/-- After its step the producer is at `pe`, and the queue holds `items`. -/
def EnqStep (cap least : Nat) (th : Threads T) (g : Ghost T) (q' : Rwq T) (pe : Enqueue)
    (items : List T) : Prop :=
  ∃ g', Rel cap least q' { th with enq := pe } g' ∧ g'.items = items ∧ g'.held = g.held ∧
    g'.wasEmpty = g.wasEmpty

/-- A block the consumer does not know of. -/
theorem ProducerKeeps.of_notMem {b : Nat} (hb : b ∉ g.used) {m : Marks} {c : List T}
    (hfront : q'.frontBlock = q.frontBlock) (hblocks : ∀ x, x ≠ b → q'.blocks x = q.blocks x) :
    ProducerKeeps q g q' (g.setBlock b m c) where
  frontBlock := hfront
  used := ⟨[], (List.append_nil _).symm⟩
  front x hx := by
    have hne : x ≠ b := ne_of_mem_of_not_mem hx hb
    rw [hblocks x hne, Ghost.setBlock_marks, if_neg hne]
    exact ⟨rfl, rfl, rfl, rfl⟩
  content x hx := by rw [Ghost.setBlock_content, if_neg (ne_of_mem_of_not_mem hx hb)]
  settled x hx := by
    rw [Ghost.setBlock_content, if_neg (ne_of_mem_of_not_mem (List.mem_of_mem_dropLast hx) hb)]
  wasEmpty := rfl

namespace Rel

/-- A block the producer may write to: the tail block or a free one. -/
theorem keeps_setBlock (h : Rel cap least q th g) {b : Nat} (hb : b = q.tailBlock ∨ b ∈ g.free)
    {B : Block T} {m : Marks} {c : List T} (hfront : B.front = (q.blocks b).front)
    (hmask : B.sizeMask = (q.blocks b).sizeMask) (hf : m.f = (g.marks b).f)
    (hlt : m.lt = (g.marks b).lt) (hc : g.content b <+: c) :
    ProducerKeeps q g (q.setBlock b fun _ => B) (g.setBlock b m c) where
  frontBlock := rfl
  used := ⟨[], (List.append_nil _).symm⟩
  front x _ := by
    rw [Rwq.setBlock_blocks, Ghost.setBlock_marks]
    by_cases hx : x = b
    · rw [if_pos hx, if_pos hx, hx]
      exact ⟨hfront, congrArg (· + 1) hmask, hf, hlt⟩
    · rw [if_neg hx, if_neg hx]
      exact ⟨rfl, rfl, rfl, rfl⟩
  content x _ := by
    rw [Ghost.setBlock_content]
    by_cases hx : x = b
    · rw [if_pos hx, hx]
      exact hc
    · rw [if_neg hx]
  settled x hx := by
    rw [Ghost.setBlock_content, if_neg]
    rintro rfl
    rcases hb with rfl | hfree
    · exact h.tail_notMem_dropLast hx
    · exact h.notMem_used hfree (List.mem_of_mem_dropLast hx)
  wasEmpty := rfl

/-- The tail block's share of the queue is the last one. -/
theorem items_tail (h : Rel cap least q th g) {m : Marks} (c : List T) :
    (g.setBlock q.tailBlock m (g.content q.tailBlock ++ c)).items = g.items ++ c := by
  obtain ⟨l, hl⟩ := h.used_concat
  rw [Ghost.items_setBlock _ _ _ _ l [] hl h.nodup_used,
    Ghost.items_eq _ _ l [] hl]
  simp

/-- Until the producer advances, what it does to the tail block leaves the free ones empty. -/
theorem free_setBlock (h : Rel cap least q th g) (he : ∀ n, th.enq ≠ .advance n) {b x : Nat}
    {m : Marks} {c : List T} (hx : x ∈ g.free) (hb : b = q.tailBlock ∨ x ≠ b) :
    (g.setBlock b m c).content x = [] := by
  have hne : x ≠ b := by
    rcases hb with rfl | hne
    · exact ne_of_mem_of_not_mem hx h.tail_notMem_free
    · exact hne
  rw [Ghost.setBlock_content, if_neg hne]
  by_contra hcontent
  exact he x (h.free_empty x hx hcontent)

/-! ## Room in the tail block -/

/-- The first look, at the local copy of the front. -/
theorem enq_check (h : Rel cap least q th g) (he : th.enq = .check)
    (hs : q.inner_enqueue MAX ca v malloc .check = some (q', pe)) :
    pe.busy ∧ EnqStep cap least th g q' pe g.items := by
  have hinv := h.inv _ h.tail_mem
  simp only [Rwq.inner_enqueue, Option.some.injEq, Prod.mk.injEq] at hs
  obtain ⟨rfl, rfl⟩ := hs
  refine ⟨by split <;> rfl, g, ?_, rfl, rfl, rfl⟩
  refine h.pass (fun x => ⟨rfl, ?_⟩) (Or.inl (by rw [he]; rfl)) (fun x hx => ?_) ?_ h.deq
    (fun _ => h.held (by rw [he]; rfl)) h.wasEmpty
  · rw [he]
    split <;> rfl
  · rw [he] at hx
    exact absurd hx (by simp)
  · have hnext := hinv.next_tail
    split
    next hne =>
      refine ⟨rfl, rfl, hnext, ?_⟩
      have hfull := mt hinv.tail_eq_localFront.mpr (hnext ▸ hne)
      have := hinv.room
      omega
    next => exact ⟨rfl, rfl, hnext⟩

/-- The second look, at the front itself. -/
theorem enq_loadFront (h : Rel cap least q th g) {b blockTail nextBlockTail : Nat}
    (he : th.enq = .loadFront b blockTail nextBlockTail)
    (hs : q.inner_enqueue MAX ca v malloc th.enq = some (q', pe)) :
    pe.busy ∧ EnqStep cap least th g q' pe g.items := by
  have hknow := h.enq
  rw [Threads.enqInv, he] at hknow
  obtain ⟨rfl, rfl, rfl⟩ := hknow
  rw [he] at hs
  simp only [Rwq.inner_enqueue, Option.some.injEq, Prod.mk.injEq] at hs
  obtain ⟨rfl, rfl⟩ := hs
  have hinv := h.inv _ h.tail_mem
  refine ⟨by split <;> rfl, g.setBlock q.tailBlock
    { g.marks q.tailBlock with lf := (g.marks q.tailBlock).f } (g.content q.tailBlock), ?_,
    Ghost.items_setBlock_self _ _ _, rfl, rfl⟩
  have := hinv.lf_le; have := hinv.f_le; have := hinv.lt_le; have := hinv.room
  refine h.update (fun _ => rfl) (h.least_le _)
    { hinv with localFront := hinv.front, lf_le := Nat.le_refl _, room := ?_ } ?_ (fun x _ => ?_)
    (Or.inl (by rw [he]; rfl)) (fun x hx hne => ?_) (fun hb => ⟨(h.behind _ hb).1, rfl⟩)
    (fun hb => absurd hb h.tail_notMem_dropLast) ?_ ?_ (fun _ => ?_) (fun hd hnil => ?_)
  · show (g.marks q.tailBlock).t < (g.marks q.tailBlock).f + (q.blocks q.tailBlock).size
    omega
  · have hcells := h.cells _ h.tail_mem
    rw [he] at hcells
    split <;> exact hcells
  · rw [he]
    refine ⟨rfl, ?_⟩
    split <;> rfl
  · exact absurd (h.free_setBlock (by simp [he]) hx (Or.inl rfl)) hne
  · have hfull := hinv.tail_eq_front
    split
    next hne =>
      have := mt hfull.mpr hne
      exact ⟨rfl, by simp, by simp; rfl, by simp [Block.size] at *; omega⟩
    next heq =>
      have heq := hfull.mp (not_ne_iff.mp heq)
      refine ⟨rfl, by simp [Threads.TailFull]; exact heq, ?_⟩
      -- a full block alone holds as many elements as it has usable cells
      obtain ⟨l, hl⟩ := h.used_concat
      have hitems := congrArg List.length (Ghost.items_eq _ _ l [] hl)
      have hheld := h.held (by rw [he]; rfl)
      have hlen := hinv.length
      simp only [List.length_append, List.flatMap_nil, List.length_nil] at hitems
      simp only [Rwq.setBlock_blocks_self, Ghost.setBlock_held]
      unfold Block.size at heq
      omega
  · exact deqInv_stable h.deq h.first (h.keeps_setBlock (Or.inl rfl) rfl rfl rfl rfl
      (List.prefix_refl _)) rfl rfl
  · rw [Ghost.items_setBlock_self]
    exact h.held (by rw [he]; rfl)
  · rw [Ghost.items_setBlock_self] at hnil
    exact h.wasEmpty hd hnil

theorem enq_write (h : Rel cap least q th g) {b blockTail nextBlockTail : Nat}
    (he : th.enq = .write b blockTail nextBlockTail) (hv : th.element = some v)
    (hs : q.inner_enqueue MAX ca v malloc th.enq = some (q', pe)) :
    pe.busy ∧ EnqStep cap least th g q' pe g.items := by
  have hknow := h.enq
  rw [Threads.enqInv, he] at hknow
  obtain ⟨rfl, rfl, rfl, hroom⟩ := hknow
  rw [he] at hs
  simp only [Rwq.inner_enqueue, Option.some.injEq, Prod.mk.injEq] at hs
  obtain ⟨rfl, rfl⟩ := hs
  have hinv := h.inv _ h.tail_mem
  have hcells := h.cells _ h.tail_mem
  rw [he] at hcells
  obtain ⟨hraw, hstaged⟩ := hcells.stage hinv v
  unfold Rwq.construct
  rw [Rwq.assert_true _ (by rw [hraw]; rfl)]
  refine ⟨rfl, g.setBlock q.tailBlock (g.marks q.tailBlock) (g.content q.tailBlock), ?_,
    Ghost.items_setBlock_self _ _ _, rfl, rfl⟩
  refine h.update (fun _ => rfl) (h.least_le _) (hinv.of_data _) ?_ (fun x hx => ?_)
    (Or.inl (by rw [he]; rfl)) (fun x hx hne => ?_) (h.behind _) (h.left_full _) ?_ ?_
    (fun _ => ?_) (fun hd hnil => ?_)
  · simpa [Enqueue.staged, hv] using hstaged
  · simp [Enqueue.staged, he, hx]
  · exact absurd (h.free_setBlock (by simp [he]) hx (Or.inl rfl)) hne
  · exact ⟨rfl, by simp; rfl, by simp; exact hroom⟩
  · exact deqInv_stable h.deq h.first (h.keeps_setBlock (Or.inl rfl) rfl rfl rfl rfl
      (List.prefix_refl _)) rfl rfl
  · rw [Ghost.items_setBlock_self]
    exact h.held (by rw [he]; rfl)
  · rw [Ghost.items_setBlock_self] at hnil
    exact h.wasEmpty hd hnil

/-- The store into the tail publishes the element. -/
theorem enq_store (h : Rel cap least q th g) {b nextBlockTail : Nat}
    (he : th.enq = .store b nextBlockTail) (hv : th.element = some v)
    (hs : q.inner_enqueue MAX ca v malloc th.enq = some (q', pe)) :
    pe = .returned true ∧ EnqStep cap least th g q' pe (g.items ++ [v]) := by
  have hknow := h.enq
  rw [Threads.enqInv, he] at hknow
  obtain ⟨rfl, rfl, hroom⟩ := hknow
  rw [he] at hs
  simp only [Rwq.inner_enqueue, Option.some.injEq, Prod.mk.injEq] at hs
  obtain ⟨rfl, rfl⟩ := hs
  have hinv := h.inv _ h.tail_mem
  have := hinv.lt_le; have := hinv.length
  refine ⟨rfl, g.setBlock q.tailBlock
    { g.marks q.tailBlock with t := (g.marks q.tailBlock).t + 1 }
    (g.content q.tailBlock ++ [v]), ?_, h.items_tail [v], rfl, rfl⟩
  refine h.update (fun _ => rfl) (h.least_le _)
    { hinv with tail := rfl, lt_le := ?_, room := hroom, length := ?_ } ?_ (fun x hx => ?_)
    (Or.inl (by rw [he]; rfl)) (fun x hx hne => ?_) (fun hb => ⟨by simp, (h.behind _ hb).2⟩)
    (fun hb => absurd hb h.tail_notMem_dropLast) trivial ?_ (fun hb => ?_) (fun hd hnil => ?_)
  · show (g.marks q.tailBlock).lt ≤ (g.marks q.tailBlock).t + 1
    omega
  · show (g.marks q.tailBlock).f + (g.content q.tailBlock ++ [v]).length =
      (g.marks q.tailBlock).t + 1
    rw [List.length_append, List.length_singleton]
    omega
  · have hcells := h.cells _ h.tail_mem
    rw [he] at hcells
    obtain ⟨live, hlive, hdata⟩ := hcells
    refine ⟨live, ?_, hdata⟩
    simpa [Enqueue.staged, hv] using hlive
  · simp [Enqueue.staged, he, hx]
  · exact absurd (h.free_setBlock (by simp [he]) hx (Or.inl rfl)) hne
  · exact deqInv_stable h.deq h.first (h.keeps_setBlock (Or.inl rfl) rfl rfl rfl rfl
      (List.prefix_append _ _)) rfl rfl
  · exact absurd hb (by simp [Enqueue.busy])
  · rw [h.items_tail] at hnil
    exact absurd hnil (by simp)

/-! ## The tail block is full -/

/-- The block behind the tail one, when some block is free. -/
theorem next_tail (h : Rel cap least q th g) {n : Nat} {r : List Nat} (hfree : g.free = n :: r) :
    (q.blocks q.tailBlock).next = n := by
  obtain ⟨l, hl⟩ := h.used_concat
  have hlinked := h.linked
  rw [Ghost.ring, hl, hfree, List.append_assoc] at hlinked
  exact hlinked.next_eq

/-- The block behind the tail one, when no block is free. -/
theorem next_tail_of_nil (h : Rel cap least q th g) (hfree : g.free = []) :
    (q.blocks q.tailBlock).next = q.frontBlock := by
  obtain ⟨l, hl⟩ := h.used_cons
  have hlinked := h.linked
  have hlast := h.last
  rw [Ghost.ring, hl, hfree, List.append_nil] at hlinked
  rw [hl, List.getLast?_eq_some_getLast (by simp)] at hlast
  have := hlinked.next_last
  rwa [Option.some.inj hlast] at this

/-- The block behind the tail one is the front block exactly when no block is free. -/
theorem next_tail_eq (h : Rel cap least q th g) :
    (q.blocks q.tailBlock).next = q.frontBlock ↔ g.free = [] := by
  refine ⟨fun heq => ?_, h.next_tail_of_nil⟩
  cases hf : g.free with
  | nil => rfl
  | cons n r =>
    rw [h.next_tail hf] at heq
    exact absurd (by rw [hf, heq]; exact List.mem_cons_self) h.front_notMem_free

/-- A used block behind the front one holds all it can. -/
theorem length_content (h : Rel cap least q th g) (hfull : Threads.TailFull q g) {b : Nat}
    (hb : b ∈ g.used.tail) : (g.content b).length = (q.blocks b).sizeMask := by
  have hused : b ∈ g.used := List.mem_of_mem_tail hb
  have hleft : (g.marks b).t + 1 = (g.marks b).lf + (q.blocks b).size := by
    obtain ⟨l, hl⟩ := h.used_concat
    rw [hl, List.mem_append, List.mem_singleton] at hused
    rcases hused with hmem | rfl
    · exact h.left_full b (by rw [hl, List.dropLast_concat]; exact hmem)
    · exact hfull
  have hlen := (h.inv b (Ghost.mem_ring.mpr (Or.inl (List.mem_of_mem_tail hb)))).length
  have hlf := (h.behind b hb).2
  unfold Block.size at hleft
  omega

/-- With every block used and the tail block full, `cap` elements were held. -/
theorem cap_le_held (h : Rel cap least q th g) (hfull : Threads.TailFull q g)
    (hmask : (q.blocks q.tailBlock).sizeMask ≤ g.held) (hitems : g.items.length ≤ g.held)
    (hfree : g.free = []) : cap ≤ g.held := by
  obtain ⟨l, hl⟩ := h.used_cons
  have hcap := h.capacity
  rw [Ghost.ring, hfree, List.append_nil, hl, List.length_cons, Nat.add_sub_cancel] at hcap
  rcases Nat.lt_or_ge 1 l.length with hlt | hle
  · have hsum : l.length * least ≤ (l.map fun b => (g.content b).length).sum := by
      have := List.card_nsmul_le_sum (l.map fun b => (g.content b).length) least ?_
      · simpa using this
      · intro x hx
        obtain ⟨b, hb, rfl⟩ := List.mem_map.mp hx
        rw [h.length_content hfull (by rw [hl]; exact hb)]
        have hmem : b ∈ g.used := by rw [hl]; exact List.mem_cons_of_mem _ hb
        exact h.least_le b (Ghost.mem_ring.mpr (Or.inl hmem))
    have hlen := g.length_items _ hl
    rw [Nat.max_eq_right (by omega)] at hcap
    omega
  · have hleast := h.least_le _ h.tail_mem
    rw [Nat.max_eq_left hle, Nat.one_mul] at hcap
    omega

/-- Is there a free block ahead? -/
theorem enq_full (h : Rel cap least q th g) {b : Nat} (he : th.enq = .full b)
    (hs : q.inner_enqueue MAX th.canAlloc v malloc th.enq = some (q', pe)) :
    (pe.busy ∨ pe = .returned false ∧ cap ≤ g.held ∧ th.canAlloc = .CannotAlloc) ∧
      EnqStep cap least th g q' pe g.items := by
  have hknow := h.enq
  rw [Threads.enqInv, he] at hknow
  obtain ⟨rfl, hfull, hmask⟩ := hknow
  have hheld := h.held (by rw [he]; rfl)
  have hcap := h.cap_le_held hfull hmask hheld
  rw [he] at hs
  simp only [Rwq.inner_enqueue, Option.some.injEq, Prod.mk.injEq] at hs
  obtain ⟨rfl, rfl⟩ := hs
  refine ⟨?_, g, ?_, rfl, rfl, rfl⟩
  · split
    next => exact Or.inl rfl
    next heq =>
      have hnil := h.next_tail_eq.mp (not_ne_iff.mp heq)
      cases hca : th.canAlloc with
      | CanAlloc => exact Or.inl rfl
      | CannotAlloc => exact Or.inr ⟨rfl, hcap hnil, rfl⟩
  · refine h.pass (fun x => ⟨rfl, ?_⟩) (Or.inl (by rw [he]; rfl)) (fun x hx => ?_) ?_ h.deq
      (fun _ => hheld) h.wasEmpty
    · rw [he]
      split
      next => rfl
      next => split <;> rfl
    · rw [he] at hx
      exact absurd hx (by simp)
    · split
      next hne => exact ⟨rfl, hfull, mt h.next_tail_eq.mpr hne⟩
      next heq =>
        cases hca : th.canAlloc with
        | CanAlloc => exact ⟨rfl, hfull, rfl, hcap (h.next_tail_eq.mp (not_ne_iff.mp heq))⟩
        | CannotAlloc => trivial

/-! ## The free block ahead -/

/-- What the producer knows about the block ahead until it advances. -/
theorem ahead_mem (h : Rel cap least q th g) {n : Nat} (ha : Threads.Ahead g n) :
    n ∈ g.free ∧ n ∈ g.ring ∧ n ∉ g.used ∧ n ≠ q.tailBlock := by
  have hmem : n ∈ g.free := List.mem_of_mem_head? ha.1
  exact ⟨hmem, Ghost.mem_ring.mpr (Or.inr hmem), h.notMem_used hmem,
    ne_of_mem_of_not_mem hmem h.tail_notMem_free⟩

/-- A change to the block ahead leaves the tail block full. -/
theorem tailFull_setBlock {n : Nat} (hfull : Threads.TailFull q g)
    (hn : n ≠ q.tailBlock) {B : Block T} {m : Marks} {c : List T} :
    Threads.TailFull (q.setBlock n fun _ => B) (g.setBlock n m c) := by
  unfold Threads.TailFull
  rw [Rwq.setBlock_tailBlock, Ghost.setBlock_marks, if_neg hn.symm,
    Rwq.setBlock_blocks_ne _ _ _ _ hn.symm]
  exact hfull

theorem ahead_setBlock {n : Nat} (ha : Threads.Ahead g n) {m : Marks} (hm : m.lf = m.f)
    {c : List T} : Threads.Ahead (g.setBlock n m c) n :=
  ⟨ha.1, by rw [Ghost.setBlock_marks_self]; exact hm⟩

/-- A free block keeps its place at the end of a step on it. -/
theorem update_ahead (h : Rel cap least q th g) {n : Nat} (hfree : n ∈ g.free)
    (he : ∀ n, th.enq ≠ .advance n) {B : Block T} {m : Marks} {c : List T}
    (hnext : B.next = (q.blocks n).next) (hmask : B.sizeMask = (q.blocks n).sizeMask)
    (hfront : B.front = (q.blocks n).front) (hf : m.f = (g.marks n).f)
    (hlt : m.lt = (g.marks n).lt) (hinv : B.Inv m c)
    (hcells : B.Cells m c (th.deq.taken n) (pe.staged th.element n))
    (hother : ∀ x, x ≠ n → pe.staged th.element x = th.enq.staged th.element x)
    (hc : c ≠ [] → pe = .advance n)
    (henq : ({ th with enq := pe } : Threads T).enqInv (q.setBlock n fun _ => B) (g.setBlock n m c)
      cap least) (hbusy : th.enq.busy) (hlink : th.enq.unlinked = none) :
    EnqStep cap least th g (q.setBlock n fun _ => B) pe g.items := by
  have hring : n ∈ g.ring := Ghost.mem_ring.mpr (Or.inr hfree)
  have hused := h.notMem_used hfree
  have hempty : g.content n = [] := by
    by_contra hne
    exact he n (h.free_empty n hfree hne)
  have hitems := Ghost.items_setBlock_of_notMem g n m c hused
  refine ⟨g.setBlock n m c, ?_, hitems, rfl, rfl⟩
  refine h.update (fun _ => hnext) (fun _ => hmask ▸ h.least_le n hring) hinv hcells
    (fun x hx => ⟨rfl, hother x hx⟩) (Or.inl hlink) (fun x hx hne => ?_)
    (fun hb => absurd (List.mem_of_mem_tail hb) hused)
    (fun hb => absurd (List.mem_of_mem_dropLast hb) hused) henq ?_ (fun _ => ?_)
    (fun hd hnil => ?_)
  · by_cases hxn : x = n
    · rw [hxn, Ghost.setBlock_content_self] at hne
      rw [hxn]
      exact hc hne
    · exact absurd (h.free_setBlock he hx (Or.inr hxn)) hne
  · exact deqInv_stable h.deq h.first (h.keeps_setBlock (Or.inr hfree) hfront hmask hf hlt
      (by rw [hempty]; exact List.nil_prefix)) rfl rfl
  · rw [hitems]
    exact h.held hbusy
  · rw [hitems] at hnil
    exact h.wasEmpty hd hnil

theorem enq_nextFront (h : Rel cap least q th g) {b : Nat} (he : th.enq = .nextFront b)
    (hs : q.inner_enqueue MAX ca v malloc th.enq = some (q', pe)) :
    pe.busy ∧ EnqStep cap least th g q' pe g.items := by
  have hknow := h.enq
  rw [Threads.enqInv, he] at hknow
  obtain ⟨rfl, hfull, hne⟩ := hknow
  obtain ⟨n, r, hfree⟩ : ∃ n r, g.free = n :: r := List.exists_cons_of_ne_nil hne
  rw [he] at hs
  simp only [Rwq.inner_enqueue, h.next_tail hfree, Option.some.injEq, Prod.mk.injEq] at hs
  obtain ⟨rfl, rfl⟩ := hs
  have hmem : n ∈ g.free := by rw [hfree]; exact List.mem_cons_self
  have hring : n ∈ g.ring := Ghost.mem_ring.mpr (Or.inr hmem)
  have hinv := h.inv n hring
  have hempty : g.content n = [] := by
    by_contra hcontent
    have := h.free_empty n hmem hcontent
    rw [he] at this
    exact absurd this (by simp)
  have heq := hinv.front_eq_tail.mpr hempty
  rw [Rwq.assert_true _ (beq_iff_eq.mpr heq)]
  refine ⟨rfl, ?_⟩
  have hlf := hinv.lf_le; have := hinv.room
  have hn : n ≠ q.tailBlock := ne_of_mem_of_not_mem hmem h.tail_notMem_free
  have hcells := h.cells n hring
  rw [he] at hcells
  have hroom : (g.marks n).t < (g.marks n).f + (q.blocks n).size := by omega
  -- the shadow copy of the front is refreshed
  refine h.update_ahead (c := g.content n) (m := { g.marks n with lf := (g.marks n).f }) hmem
    (by simp [he]) rfl rfl rfl rfl rfl
    { hinv with localFront := hinv.front, lf_le := Nat.le_refl _, room := hroom } hcells
    (fun x _ => by rw [he]; rfl) (fun hc => absurd hempty hc) ?_ (by rw [he]; rfl)
    (by rw [he]; rfl)
  exact ⟨tailFull_setBlock hfull hn, ⟨by simp [hfree], by simp⟩, by simp⟩

theorem enq_writeNext (h : Rel cap least q th g) {n nextBlockTail : Nat}
    (he : th.enq = .writeNext n nextBlockTail) (hv : th.element = some v)
    (hs : q.inner_enqueue MAX ca v malloc th.enq = some (q', pe)) :
    pe.busy ∧ EnqStep cap least th g q' pe g.items := by
  have hknow := h.enq
  rw [Threads.enqInv, he] at hknow
  obtain ⟨hfull, ha, rfl⟩ := hknow
  rw [he] at hs
  simp only [Rwq.inner_enqueue, Option.some.injEq, Prod.mk.injEq] at hs
  obtain ⟨rfl, rfl⟩ := hs
  obtain ⟨hfree, hring, -, hn⟩ := h.ahead_mem ha
  have hinv := h.inv n hring
  have hcells := h.cells n hring
  rw [he] at hcells
  obtain ⟨hraw, hstaged⟩ := hcells.stage hinv v
  unfold Rwq.construct
  rw [Rwq.assert_true _ (by rw [hraw]; rfl)]
  refine ⟨rfl, h.update_ahead (c := g.content n) (m := g.marks n) hfree (by simp [he]) rfl rfl rfl
    rfl rfl (hinv.of_data _) ?_ (fun x hx => ?_) (fun hc => ?_) ?_ (by rw [he]; rfl)
    (by rw [he]; rfl)⟩
  · simpa [Enqueue.staged, hv] using hstaged
  · simp [Enqueue.staged, he, hx]
  · have := h.free_empty n hfree hc
    rw [he] at this
    exact absurd this (by simp)
  · exact ⟨tailFull_setBlock hfull hn, ahead_setBlock ha ha.2, by simp⟩

theorem enq_storeNext (h : Rel cap least q th g) {n nextBlockTail : Nat}
    (he : th.enq = .storeNext n nextBlockTail) (hv : th.element = some v)
    (hs : q.inner_enqueue MAX ca v malloc th.enq = some (q', pe)) :
    pe.busy ∧ EnqStep cap least th g q' pe g.items := by
  have hknow := h.enq
  rw [Threads.enqInv, he] at hknow
  obtain ⟨hfull, ha, rfl⟩ := hknow
  rw [he] at hs
  simp only [Rwq.inner_enqueue, Option.some.injEq, Prod.mk.injEq] at hs
  obtain ⟨rfl, rfl⟩ := hs
  obtain ⟨hfree, hring, -, hn⟩ := h.ahead_mem ha
  have hinv := h.inv n hring
  have hempty : g.content n = [] := by
    by_contra hc
    have := h.free_empty n hfree hc
    rw [he] at this
    exact absurd this (by simp)
  have hlen := hinv.length
  rw [hempty, List.length_nil, Nat.add_zero] at hlen
  have := hinv.lt_le; have := hinv.size_pos; have := ha.2
  refine ⟨rfl, h.update_ahead (c := [v]) (m := { g.marks n with t := (g.marks n).t + 1 }) hfree
    (by simp [he]) rfl rfl rfl rfl rfl
    { hinv with tail := hinv.next_tail, lt_le := ?_, room := ?_, length := ?_ } ?_ (fun x hx => ?_)
    (fun _ => rfl) ?_ (by rw [he]; rfl) (by rw [he]; rfl)⟩
  · show (g.marks n).lt ≤ (g.marks n).t + 1
    omega
  · show (g.marks n).t + 1 < (g.marks n).lf + (q.blocks n).size
    omega
  · show (g.marks n).f + 1 = (g.marks n).t + 1
    omega
  · have hcells := h.cells n hring
    rw [he] at hcells
    obtain ⟨live, hlive, hdata⟩ := hcells
    refine ⟨live, ?_, hdata⟩
    simpa [Enqueue.staged, hv, hempty] using hlive
  · simp [Enqueue.staged, he, hx]
  · exact ⟨tailFull_setBlock hfull hn,
      ahead_setBlock ha (m := { g.marks n with t := (g.marks n).t + 1 }) ha.2, by simp [hv]⟩

/-- The store into `tailBlock` publishes the block and the element in it. -/
theorem enq_advance (h : Rel cap least q th g) {n : Nat} (he : th.enq = .advance n)
    (hv : th.element = some v) (hs : q.inner_enqueue MAX ca v malloc th.enq = some (q', pe)) :
    pe = .returned true ∧ EnqStep cap least th g q' pe (g.items ++ [v]) := by
  have hknow := h.enq
  rw [Threads.enqInv, he] at hknow
  obtain ⟨hfull, ha, hcontent⟩ := hknow
  rw [hv, Option.toList_some] at hcontent
  rw [he] at hs
  simp only [Rwq.inner_enqueue, Option.some.injEq, Prod.mk.injEq] at hs
  obtain ⟨rfl, rfl⟩ := hs
  obtain ⟨hfree, -, hused, -⟩ := h.ahead_mem ha
  obtain ⟨r, hr⟩ := List.head?_eq_some_iff.mp ha.1
  obtain ⟨a, hfront⟩ := h.used_cons
  have hring : (g.used ++ [n]) ++ r = g.ring := by rw [Ghost.ring, hr, List.append_assoc]; rfl
  have hitems : (g.used ++ [n]).flatMap g.content = g.items ++ [v] := by
    rw [List.flatMap_append, List.flatMap_singleton, hcontent]
    rfl
  have hnr : n ∉ r := by
    have := (List.nodup_append.mp h.nodup).2.1
    rw [hr] at this
    exact (List.nodup_cons.mp this).1
  refine ⟨rfl, { g with used := g.used ++ [n], free := r }, ?_, hitems, rfl, rfl⟩
  refine
    { ok := h.ok
      linked := ?_
      nodup := ?_
      pos := fun b hb => h.pos b (hring ▸ hb)
      below := fun b hb => h.below b (hring ▸ hb)
      owned := fun b hpos hb => Or.inl ?_
      first := ?_
      last := by simp
      inv := fun b hb => h.inv b (hring ▸ hb)
      cells := fun b hb => ?_
      free_empty := fun b hb hne => ?_
      behind := fun b hb => ?_
      left_full := fun b hb => ?_
      enq := trivial
      deq := ?_
      held := fun hb => absurd hb (by simp [Enqueue.busy])
      wasEmpty := fun _ hnil => ?_
      large := h.large
      least_le := fun b hb => h.least_le b (hring ▸ hb)
      capacity := ?_ }
  · show Linked _ ((g.used ++ [n]) ++ r)
    rw [hring]
    exact h.linked
  · show ((g.used ++ [n]) ++ r).Nodup
    rw [hring]
    exact h.nodup
  · have hown := (h.owned b hpos hb).resolve_right (by rw [he]; simp [Enqueue.unlinked])
    show b ∈ (g.used ++ [n]) ++ r
    rwa [hring]
  · show (g.used ++ [n]).head? = some q.frontBlock
    rw [hfront]
    rfl
  · have := h.cells b (hring ▸ hb)
    rw [he] at this
    exact this
  · have hmem : b ∈ g.free := by rw [hr]; exact List.mem_cons_of_mem _ hb
    have := h.free_empty b hmem hne
    rw [he, Enqueue.advance.injEq] at this
    exact absurd (this ▸ hb) hnr
  · have htail : (g.used ++ [n]).tail = g.used.tail ++ [n] := by rw [hfront]; rfl
    rw [htail, List.mem_append, List.mem_singleton] at hb
    rcases hb with hb | rfl
    · exact h.behind b hb
    · exact ⟨by rw [hcontent]; simp, ha.2⟩
  · rw [List.dropLast_concat] at hb
    obtain ⟨l, hl⟩ := h.used_concat
    rw [hl, List.mem_append, List.mem_singleton] at hb
    rcases hb with hb | rfl
    · exact h.left_full b (by rw [hl, List.dropLast_concat]; exact hb)
    · exact hfull
  · exact deqInv_stable h.deq h.first ⟨rfl, ⟨[n], rfl⟩, fun _ _ => ⟨rfl, rfl, rfl, rfl⟩,
      fun _ _ => List.prefix_refl _, fun _ _ => rfl, rfl⟩ rfl rfl
  · exact absurd (hitems.symm.trans hnil) (by simp)
  · show cap ≤ max 1 (((g.used ++ [n]) ++ r).length - 1) * least
    rw [hring]
    exact h.capacity

/-! ## A new block -/

/-- The block `grow` makes, as it is when its address is stored. -/
def grown (capacity next : Nat) (v : T) : Block T :=
  { Block.make T capacity with
    data := Function.update (fun _ => none) 0 (some v), tail := 1, localTail := 1, next := next }

theorem grown_inv (next : Nat) (v : T) {capacity k : Nat} (hlt : k < 63) (hcap : capacity = 2 ^ (k + 1)) :
    (grown capacity next v).Inv ⟨0, 0, 1, 1⟩ [v] ∧
      (grown capacity next v).Cells ⟨0, 0, 1, 1⟩ [v] [] [] := by
  have hk := Nat.two_pow_pos k
  have hsize : (grown capacity next v).size = capacity := by
    show capacity - 1 + 1 = capacity
    rw [hcap, Nat.pow_succ]
    omega
  have hone : 1 % capacity = 1 := Nat.mod_eq_of_lt (by rw [hcap, Nat.pow_succ]; omega)
  refine ⟨⟨⟨k, hlt, hsize.trans hcap⟩, ?_, ?_, ?_, ?_, Nat.le_refl _, Nat.zero_le _, Nat.le_refl _, ?_,
    rfl⟩, ⟨[v], rfl, ?_⟩⟩
  · rw [hsize]
    exact (Nat.zero_mod _).symm
  · rw [hsize]
    exact (Nat.zero_mod _).symm
  · rw [hsize]
    exact hone.symm
  · rw [hsize]
    exact hone.symm
  · show 1 < 0 + (grown capacity next v).size
    rw [hsize, hcap, Nat.pow_succ]
    omega
  · have hraw := (Holds.raw (α := T) (grown capacity next v).size 0).push (x := v) (by
      rw [hsize, hcap, Nat.pow_succ, List.length_nil]
      omega)
    have hzero : (0 + ([] : List T).length) % (grown capacity next v).size = 0 := Nat.zero_mod _
    rwa [hzero] at hraw

/-- Only the front block can be short of an element. -/
theorem taken_of_ne (h : Rel cap least q th g) {x : Nat} (hx : x ≠ q.frontBlock) :
    th.deq.taken x = [] := by
  have hknow := h.deq
  unfold Threads.deqInv at hknow
  cases hd : th.deq with
  | release b blockFront result =>
    rw [hd] at hknow
    obtain ⟨rfl, -⟩ := hknow
    exact if_neg hx
  | _ => rfl

/-- The new block is filled before anybody can see it. -/
theorem enq_grow (h : Rel cap least q th g) (hMAX : MAX ≤ 2 ^ 63) {b : Nat}
    (he : th.enq = .grow b) (hv : th.element = some v)
    (hs : q.inner_enqueue MAX ca v malloc th.enq = some (q', pe)) :
    cap ≤ g.held ∧ (pe.busy ∨ pe = .returned false ∧ malloc = false) ∧
      EnqStep cap least th g q' pe g.items := by
  have hknow := h.enq
  rw [Threads.enqInv, he] at hknow
  obtain ⟨rfl, hfull, hmode, hcap⟩ := hknow
  have hheld := h.held (by rw [he]; rfl)
  rw [he] at hs
  refine ⟨hcap, ?_⟩
  cases malloc with
  | false =>
    simp only [Rwq.inner_enqueue, Bool.false_eq_true, if_false, Option.some.injEq,
      Prod.mk.injEq] at hs
    obtain ⟨rfl, rfl⟩ := hs
    refine ⟨Or.inr ⟨rfl, rfl⟩, g, ?_, rfl, rfl, rfl⟩
    exact h.pass (fun x => ⟨rfl, by rw [he]; rfl⟩) (Or.inl (by rw [he]; rfl))
      (fun x hx => absurd (he.symm.trans hx) (by simp)) trivial h.deq (fun _ => hheld) h.wasEmpty
  | true =>
    obtain ⟨k, hlt, hk, hleast⟩ := h.large
    simp only [Rwq.inner_enqueue, if_true, Option.some.injEq, Prod.mk.injEq] at hs
    obtain ⟨hq, rfl⟩ := hs
    -- the size of the new block
    obtain ⟨size, hsize⟩ : ∃ size, size = if q.largestBlockSize ≥ MAX then q.largestBlockSize
      else q.largestBlockSize * 2 := ⟨_, rfl⟩
    rw [← hsize] at hq
    have hpow : ∃ k < 63, size = 2 ^ (k + 1) ∧ least < size := by
      by_cases hmax : q.largestBlockSize ≥ MAX
      · exact ⟨k, hlt, by rw [hsize, if_pos hmax, hk], by rw [hsize, if_pos hmax]; exact hleast⟩
      · have hexp : k + 1 < 63 := (Nat.pow_lt_pow_iff_right (by decide : 1 < 2)).mp (by omega)
        exact ⟨k + 1, hexp, by rw [hsize, if_neg hmax, hk, Nat.pow_succ 2 (k + 1)],
          by rw [hsize, if_neg hmax]; omega⟩
    obtain ⟨k', hlt', hk', hleast'⟩ := hpow
    obtain ⟨hinv, hcells⟩ := grown_inv (q.blocks q.tailBlock).next v hlt' hk'
    have hbrk : ∀ x ∈ g.ring, x ≠ q.brk := fun x hx => (h.below x hx).ne
    have hnot : q.brk ∉ g.ring := fun hmem => hbrk _ hmem rfl
    have hnused : q.brk ∉ g.used := fun hu => hnot (Ghost.mem_ring.mpr (Or.inl hu))
    have hblock : q' = Rwq.setBlock
        { q with brk := q.brk + 1, largestBlockSize := size } q.brk
        fun _ => grown size (q.blocks q.tailBlock).next v := by
      rw [← hq]
      have hne := hbrk _ h.tail_mem
      simp [Rwq.make_block, Rwq.construct, Rwq.assert, Rwq.setBlock, Block.make, grown, hne]
    have hitems := Ghost.items_setBlock_of_notMem g q.brk ⟨0, 0, 1, 1⟩ [v] hnused
    have htail := (hbrk _ h.tail_mem).symm
    have hfull' := tailFull_setBlock (m := ⟨0, 0, 1, 1⟩) (c := [v])
      (B := grown size (q.blocks q.tailBlock).next v) hfull htail
    have htaken := h.taken_of_ne (hbrk _ h.front_mem).symm
    -- the new block in the heap, before its address is taken
    have hblockRel : Rel cap least
        (q.setBlock q.brk fun _ => grown size (q.blocks q.tailBlock).next v) th
        (g.setBlock q.brk ⟨0, 0, 1, 1⟩ [v]) := by
      refine h.update (fun hmem => absurd hmem hnot) (fun hmem => absurd hmem hnot) hinv ?_
        (fun x _ => ⟨rfl, rfl⟩) (Or.inr rfl) (fun x hx hne => ?_)
        (fun hb => absurd (List.mem_of_mem_tail hb) hnused)
        (fun hb => absurd (List.mem_of_mem_dropLast hb) hnused) ?_ ?_ (fun _ => ?_)
        (fun hd hnil => ?_)
      · rw [htaken, he]
        exact hcells
      · have hxn : x ≠ q.brk := hbrk x (Ghost.mem_ring.mpr (Or.inr hx))
        exact absurd (h.free_setBlock (by simp [he]) hx (Or.inr hxn)) hne
      · rw [Threads.enqInv, he]
        exact ⟨rfl, hfull', hmode, hcap⟩
      · exact deqInv_stable h.deq h.first (.of_notMem hnused rfl fun x hx =>
          Rwq.setBlock_blocks_ne _ _ _ _ hx) rfl rfl
      · rw [hitems]
        exact hheld
      · rw [hitems] at hnil
        exact h.wasEmpty hd hnil
    subst hblock
    refine ⟨Or.inl rfl, g.setBlock q.brk ⟨0, 0, 1, 1⟩ [v], ?_, hitems, rfl, rfl⟩
    refine
      { hblockRel with
        below := fun x hx => Nat.lt_succ_of_lt (h.below x hx)
        owned := fun x hpos hx => ?_
        cells := fun x hx => ?_
        free_empty := fun x hx hne => ?_
        enq := ⟨rfl, hfull', hnot, ⟨?_, Nat.lt_succ_self _⟩, ?_, ?_, ?_, ?_, ?_, ?_⟩
        held := fun _ => hitems ▸ hheld
        large := ⟨k', hlt', hk', hleast'⟩ }
    · rcases Nat.lt_succ_iff_lt_or_eq.mp hx with hlt | rfl
      · exact Or.inl ((h.owned x hpos hlt).resolve_right (by rw [he]; simp [Enqueue.unlinked]))
      · exact Or.inr rfl
    · have := hblockRel.cells x hx
      rw [he] at this
      exact this
    · have := hblockRel.free_empty x hx hne
      rw [he] at this
      exact absurd this (by simp)
    · exact (h.pos _ h.front_mem).trans (h.below _ h.front_mem)
    · rw [Rwq.setBlock_blocks_self, Rwq.setBlock_blocks_ne _ _ _ _ htail.symm]
      rfl
    · simpa using hinv
    · simpa using hcells
    · simp [hv]
    · simp
    · simp only [Rwq.setBlock_blocks_self]
      show least ≤ size - 1
      omega

/-- The new block becomes the block ahead. -/
theorem enq_link (h : Rel cap least q th g) {b n : Nat} (he : th.enq = .link b n)
    (hs : q.inner_enqueue MAX ca v malloc th.enq = some (q', pe)) :
    pe.busy ∧ EnqStep cap least th g q' pe g.items := by
  have hknow := h.enq
  rw [Threads.enqInv, he] at hknow
  obtain ⟨rfl, hfull, hn, hbrk, hnext, hinv, hcells, hcontent, hlf, hleast⟩ := hknow
  have hheld := h.held (by rw [he]; rfl)
  rw [he] at hs
  simp only [Rwq.inner_enqueue, Option.some.injEq, Prod.mk.injEq] at hs
  obtain ⟨rfl, rfl⟩ := hs
  obtain ⟨l, hl⟩ := h.used_concat
  have hnt : n ≠ q.tailBlock := fun heq => hn (heq ▸ h.tail_mem)
  have hnf : n ≠ q.frontBlock := fun heq => hn (heq ▸ h.front_mem)
  -- `n` stands between the used blocks and the free ones
  have hmem : ∀ x, x ∈ g.used ++ n :: g.free ↔ x = n ∨ x ∈ g.ring := fun x => by
    simp only [Ghost.ring, List.mem_append, List.mem_cons]
    exact or_left_comm
  have hblocks : ∀ x, ∃ next, (q.setBlock q.tailBlock fun B => { B with next := n }).blocks x =
      { q.blocks x with next } := fun x => by
    rw [Rwq.setBlock_blocks]
    by_cases hx : x = q.tailBlock
    · rw [if_pos hx, hx]
      exact ⟨n, rfl⟩
    · rw [if_neg hx]
      exact ⟨_, rfl⟩
  have hother : ∀ x, x ≠ q.tailBlock →
      (q.setBlock q.tailBlock fun B => { B with next := n }).blocks x = q.blocks x := fun x hx =>
    Rwq.setBlock_blocks_ne _ _ _ _ hx
  refine ⟨rfl, { g with free := n :: g.free }, ?_, rfl, rfl, rfl⟩
  refine
    { ok := h.ok
      linked := ?_
      nodup := ?_
      pos := fun x hx => ?_
      below := fun x hx => ?_
      owned := fun x hpos hx => Or.inl ((hmem x).mpr ?_)
      first := h.first
      last := h.last
      inv := fun x hx => ?_
      cells := fun x hx => ?_
      free_empty := fun x hx hne => ?_
      behind := h.behind
      left_full := fun x hx => ?_
      enq := ⟨?_, ⟨rfl, hlf⟩, hcontent⟩
      deq := ?_
      held := fun _ => hheld
      wasEmpty := h.wasEmpty
      large := h.large
      least_le := fun x hx => ?_
      capacity := ?_ }
  · show Linked _ (g.used ++ n :: g.free)
    rw [hl, List.append_assoc]
    have hlinked := h.linked
    rw [Ghost.ring, hl, List.append_assoc] at hlinked
    have hnd := h.nodup
    rw [Ghost.ring, hl, List.append_assoc] at hnd
    refine Linked.comm (hlinked.comm.insert (by simp) ?_ fun x hx => ?_)
    · rw [hother n hnt]
      exact hnext
    · have hxt : x ≠ q.tailBlock := by
        have := (List.perm_append_comm.nodup_iff.mp hnd)
        exact ne_of_mem_of_not_mem hx (List.nodup_cons.mp this).1
      rw [hother x hxt]
  · show (g.used ++ n :: g.free).Nodup
    rw [List.nodup_middle]
    exact List.nodup_cons.mpr ⟨hn, h.nodup⟩
  · rcases (hmem x).mp hx with rfl | hx
    · exact hbrk.1
    · exact h.pos x hx
  · rcases (hmem x).mp hx with rfl | hx
    · exact hbrk.2
    · exact h.below x hx
  · rcases h.owned x hpos hx with hring | hlink
    · exact Or.inr hring
    · rw [he] at hlink
      exact Or.inl (Option.some.inj hlink).symm
  · obtain ⟨next, hb⟩ := hblocks x
    rw [hb]
    rcases (hmem x).mp hx with rfl | hx
    · exact { hinv with }
    · exact { h.inv x hx with }
  · obtain ⟨next, hb⟩ := hblocks x
    rw [hb]
    rcases (hmem x).mp hx with rfl | hx
    · rw [h.taken_of_ne hnf]
      exact hcells
    · have := h.cells x hx
      rw [he] at this
      exact this
  · rcases List.mem_cons.mp hx with rfl | hx
    · rfl
    · have := h.free_empty x hx hne
      rw [he] at this
      exact absurd this (by simp)
  · obtain ⟨next, hb⟩ := hblocks x
    rw [hb]
    exact h.left_full x hx
  · obtain ⟨next, hb⟩ := hblocks q.tailBlock
    unfold Threads.TailFull
    rw [Rwq.setBlock_tailBlock, hb]
    exact hfull
  · refine deqInv_stable h.deq h.first ⟨rfl, ⟨[], (List.append_nil _).symm⟩, fun x _ => ?_,
      fun _ _ => List.prefix_refl _, fun _ _ => rfl, rfl⟩ rfl rfl
    obtain ⟨next, hb⟩ := hblocks x
    rw [hb]
    exact ⟨rfl, rfl, rfl, rfl⟩
  · obtain ⟨next, hb⟩ := hblocks x
    rw [hb]
    rcases (hmem x).mp hx with rfl | hx
    · exact hleast
    · exact h.least_le x hx
  · have hcap := h.capacity
    have hlen : (g.used ++ n :: g.free).length = g.ring.length + 1 := by
      rw [Ghost.ring, List.length_append, List.length_append, List.length_cons]
      omega
    show cap ≤ max 1 ((g.used ++ n :: g.free).length - 1) * least
    rw [hlen]
    exact hcap.trans (Nat.mul_le_mul_right _ (by omega))

/-! ## Every step -/

/-- What a step of the producer to `pe` makes of the elements in the queue. -/
def EnqItems (th : Threads T) (v : T) (malloc : Bool) (cap : Nat) (g : Ghost T) :
    Enqueue → List T → Prop
  | .returned true, items => items = g.items ++ [v]
  | .returned false, items =>
    items = g.items ∧ cap ≤ g.held ∧
      (th.canAlloc = .CanAlloc → malloc = false ∧ ∃ b, th.enq = .grow b)
  | _, items => items = g.items

theorem enqItems_busy (hb : pe.busy) (hca : EnqStep cap least th g q' pe g.items) :
    ∃ items, EnqStep cap least th g q' pe items ∧ EnqItems th v malloc cap g pe items := by
  refine ⟨g.items, hca, ?_⟩
  cases pe with
  | returned ok => exact absurd hb (by simp [Enqueue.busy])
  | _ => rfl

/-- **A step of the producer.** -/
theorem enqueue_step (h : Rel cap least q th g) (hMAX : MAX ≤ 2 ^ 63) (hv : th.element = some v)
    (hs : q.inner_enqueue MAX th.canAlloc v malloc th.enq = some (q', pe)) :
    ∃ items, EnqStep cap least th g q' pe items ∧
      EnqItems th v malloc cap g pe items := by
  cases he : th.enq with
  | check =>
    obtain ⟨hb, hstep⟩ := h.enq_check he (he ▸ hs)
    exact enqItems_busy hb hstep
  | loadFront b blockTail nextBlockTail =>
    obtain ⟨hb, hstep⟩ := h.enq_loadFront he hs
    exact enqItems_busy hb hstep
  | write b blockTail nextBlockTail =>
    obtain ⟨hb, hstep⟩ := h.enq_write he hv hs
    exact enqItems_busy hb hstep
  | store b nextBlockTail =>
    obtain ⟨rfl, hstep⟩ := h.enq_store he hv hs
    exact ⟨_, hstep, rfl⟩
  | full b =>
    obtain ⟨hb | ⟨rfl, hcap, hmode⟩, hstep⟩ := h.enq_full he hs
    · exact enqItems_busy hb hstep
    · exact ⟨_, hstep, rfl, hcap, fun hcan => absurd (hcan.symm.trans hmode) (by simp)⟩
  | nextFront b =>
    obtain ⟨hb, hstep⟩ := h.enq_nextFront he hs
    exact enqItems_busy hb hstep
  | writeNext n nextBlockTail =>
    obtain ⟨hb, hstep⟩ := h.enq_writeNext he hv hs
    exact enqItems_busy hb hstep
  | storeNext n nextBlockTail =>
    obtain ⟨hb, hstep⟩ := h.enq_storeNext he hv hs
    exact enqItems_busy hb hstep
  | grow b =>
    obtain ⟨hcap, hb | ⟨rfl, hmalloc⟩, hstep⟩ := h.enq_grow hMAX he hv hs
    · exact enqItems_busy hb hstep
    · exact ⟨_, hstep, rfl, hcap, fun _ => ⟨hmalloc, b, he⟩⟩
  | link b n =>
    obtain ⟨hb, hstep⟩ := h.enq_link he hs
    exact enqItems_busy hb hstep
  | advance n =>
    obtain ⟨rfl, hstep⟩ := h.enq_advance he hv hs
    exact ⟨_, hstep, rfl⟩
  | returned ok =>
    rw [he] at hs
    exact absurd hs (by simp [Rwq.inner_enqueue])

end Rel

end Darts.Queue
