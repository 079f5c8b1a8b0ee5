import Darts.Queue.Invariant

/-!
# What a step of one thread leaves alone

Most steps change one block, and `Rel.update` reduces them to that block. What a
step of the producer keeps of the queue (`ProducerKeeps`) is enough for what the
consumer knows (`deqInv_stable`), and the other way round (`ConsumerKeeps`,
`enqInv_stable`).
-/

namespace Darts.Queue

open Circular

variable {T : Type} {cap least : Nat} {q q' : Rwq T} {th th' : Threads T} {g g' : Ghost T}

/-! ## Updates of one block -/

namespace Rwq

variable (q : Rwq T) (b x : Nat) (f : Block T → Block T)

@[simp] theorem setBlock_frontBlock : (q.setBlock b f).frontBlock = q.frontBlock := rfl
@[simp] theorem setBlock_tailBlock : (q.setBlock b f).tailBlock = q.tailBlock := rfl
@[simp] theorem setBlock_brk : (q.setBlock b f).brk = q.brk := rfl
@[simp] theorem setBlock_fault : (q.setBlock b f).fault = q.fault := rfl
@[simp] theorem setBlock_largestBlockSize :
    (q.setBlock b f).largestBlockSize = q.largestBlockSize := rfl

theorem setBlock_blocks :
    (q.setBlock b f).blocks x = if x = b then f (q.blocks b) else q.blocks x := by
  simp only [setBlock, Function.update_apply]

@[simp] theorem setBlock_blocks_self : (q.setBlock b f).blocks b = f (q.blocks b) := by
  simp [setBlock_blocks]

theorem setBlock_blocks_ne (h : x ≠ b) : (q.setBlock b f).blocks x = q.blocks x := by
  rw [setBlock_blocks, if_neg h]

theorem make_block_blocks (capacity : Nat) :
    (q.make_block capacity).blocks x = if x = q.brk then Block.make T capacity else q.blocks x := by
  simp only [make_block, Function.update_apply]

theorem assert_true {p : Bool} (h : p = true) : q.assert p = q := by
  subst h
  simp [assert]

end Rwq

namespace Ghost

variable (g : Ghost T) (b x : Nat) (m : Marks) (c : List T)

@[simp] theorem setBlock_used : (g.setBlock b m c).used = g.used := rfl
@[simp] theorem setBlock_free : (g.setBlock b m c).free = g.free := rfl
@[simp] theorem setBlock_ring : (g.setBlock b m c).ring = g.ring := rfl
@[simp] theorem setBlock_held : (g.setBlock b m c).held = g.held := rfl
@[simp] theorem setBlock_wasEmpty : (g.setBlock b m c).wasEmpty = g.wasEmpty := rfl

theorem setBlock_marks : (g.setBlock b m c).marks x = if x = b then m else g.marks x := by
  simp only [setBlock, Function.update_apply]

theorem setBlock_content : (g.setBlock b m c).content x = if x = b then c else g.content x := by
  simp only [setBlock, Function.update_apply]

@[simp] theorem setBlock_marks_self : (g.setBlock b m c).marks b = m := by
  simp [setBlock_marks]

@[simp] theorem setBlock_content_self : (g.setBlock b m c).content b = c := by
  simp [setBlock_content]

theorem mem_ring {g : Ghost T} {b : Nat} : b ∈ g.ring ↔ b ∈ g.used ∨ b ∈ g.free :=
  List.mem_append

/-- A block that is not used contributes nothing. -/
theorem items_setBlock_of_notMem (h : b ∉ g.used) : (g.setBlock b m c).items = g.items := by
  unfold items
  rw [setBlock_used]
  refine List.flatMap_congr fun x hx => ?_
  rw [setBlock_content, if_neg (ne_of_mem_of_not_mem hx h)]

/-- New counters do not change what is in the queue. -/
@[simp] theorem items_setBlock_self : (g.setBlock b m (g.content b)).items = g.items := by
  unfold items
  rw [setBlock_used]
  refine List.flatMap_congr fun x _ => ?_
  rw [setBlock_content]
  split
  next hx => rw [hx]
  next => rfl

/-- The contribution of one block is replaced. -/
theorem items_setBlock (pre post : List Nat) (hused : g.used = pre ++ b :: post)
    (hnd : g.used.Nodup) :
    (g.setBlock b m c).items = pre.flatMap g.content ++ (c ++ post.flatMap g.content) := by
  rw [hused] at hnd
  have hpre : b ∉ pre := fun h =>
    (List.nodup_append.mp hnd).2.2 b h b List.mem_cons_self rfl
  have hpost : b ∉ post := (List.nodup_cons.mp (List.nodup_append.mp hnd).2.1).1
  have hrest : ∀ {l : List Nat}, b ∉ l → l.flatMap (g.setBlock b m c).content = l.flatMap g.content :=
    fun {l} hl => List.flatMap_congr fun x hx => by
      rw [setBlock_content, if_neg (ne_of_mem_of_not_mem hx hl)]
  unfold items
  rw [setBlock_used, hused, List.flatMap_append, List.flatMap_cons, hrest hpre, hrest hpost,
    setBlock_content_self]

theorem items_eq (pre post : List Nat) (hused : g.used = pre ++ b :: post) :
    g.items = pre.flatMap g.content ++ (g.content b ++ post.flatMap g.content) := by
  unfold items
  rw [hused, List.flatMap_append, List.flatMap_cons]

/-- How many elements the front block and the others hold. -/
theorem length_items {l : List Nat} (hused : g.used = b :: l) :
    g.items.length = (g.content b).length + (l.map fun x => (g.content x).length).sum := by
  rw [items_eq _ _ [] _ hused]
  simp [List.length_flatMap]

end Ghost

/-! ## Where the two ends are -/

namespace Rel

/-- The used blocks, seen from the front. -/
theorem used_cons (h : Rel cap least q th g) : ∃ l, g.used = q.frontBlock :: l := by
  have hfirst := h.first
  cases hu : g.used with
  | nil => simp [hu] at hfirst
  | cons a l =>
    rw [hu, List.head?_cons] at hfirst
    exact ⟨l, by rw [Option.some.inj hfirst]⟩

/-- The used blocks, seen from the tail. -/
theorem used_concat (h : Rel cap least q th g) : ∃ l, g.used = l ++ [q.tailBlock] := by
  obtain ⟨l, hl⟩ := List.getLast?_eq_some_iff.mp h.last
  exact ⟨l, hl⟩

theorem front_mem (h : Rel cap least q th g) : q.frontBlock ∈ g.ring := by
  obtain ⟨l, hl⟩ := h.used_cons
  exact Ghost.mem_ring.mpr (Or.inl (by simp [hl]))

theorem tail_mem (h : Rel cap least q th g) : q.tailBlock ∈ g.ring := by
  obtain ⟨l, hl⟩ := h.used_concat
  exact Ghost.mem_ring.mpr (Or.inl (by simp [hl]))

theorem nodup_used (h : Rel cap least q th g) : g.used.Nodup :=
  (List.nodup_append.mp h.nodup).1

theorem notMem_used (h : Rel cap least q th g) {b : Nat} (hb : b ∈ g.free) : b ∉ g.used :=
  fun hu => (List.nodup_append.mp h.nodup).2.2 b hu b hb rfl

theorem tail_notMem_free (h : Rel cap least q th g) : q.tailBlock ∉ g.free := fun hf => by
  obtain ⟨l, hl⟩ := h.used_concat
  exact h.notMem_used hf (by simp [hl])

theorem front_notMem_free (h : Rel cap least q th g) : q.frontBlock ∉ g.free := fun hf => by
  obtain ⟨l, hl⟩ := h.used_cons
  exact h.notMem_used hf (by simp [hl])

theorem front_notMem_tail (h : Rel cap least q th g) : q.frontBlock ∉ g.used.tail := by
  obtain ⟨l, hl⟩ := h.used_cons
  have := h.nodup_used
  rw [hl] at this ⊢
  exact (List.nodup_cons.mp this).1

theorem tail_notMem_dropLast (h : Rel cap least q th g) : q.tailBlock ∉ g.used.dropLast := by
  obtain ⟨l, hl⟩ := h.used_concat
  have := h.nodup_used
  rw [hl] at this ⊢
  rw [List.dropLast_concat]
  exact fun hm => (List.nodup_append.mp this).2.2 _ hm _ List.mem_cons_self rfl

theorem owned_of_link (h : Rel cap least q th g)
    (hlink : th.enq.unlinked = none ∨ th'.enq = th.enq) (b : Nat) (hpos : 0 < b) (hb : b < q.brk) :
    b ∈ g.ring ∨ th'.enq.unlinked = some b := by
  rcases hlink with hnone | heq
  · refine Or.inl ((h.owned b hpos hb).resolve_right ?_)
    rw [hnone]
    simp
  · rw [heq]
    exact h.owned b hpos hb

/-- **One block changes.** Everything about the other blocks and the circle is kept. -/
theorem update (h : Rel cap least q th g) {b : Nat} {B : Block T} {m : Marks}
    {c : List T} (hnext : b ∈ g.ring → B.next = (q.blocks b).next)
    (hleast : b ∈ g.ring → least ≤ B.sizeMask) (hinv : B.Inv m c)
    (hcells : B.Cells m c (th'.deq.taken b) (th'.enq.staged th'.element b))
    (hother : ∀ x, x ≠ b → th'.deq.taken x = th.deq.taken x ∧
      th'.enq.staged th'.element x = th.enq.staged th.element x)
    (hlink : th.enq.unlinked = none ∨ th'.enq = th.enq)
    (hfree : ∀ x ∈ g.free, (g.setBlock b m c).content x ≠ [] → th'.enq = .advance x)
    (hbehind : b ∈ g.used.tail → c ≠ [] ∧ m.lf = m.f)
    (hfull : b ∈ g.used.dropLast → m.t + 1 = m.lf + B.size)
    (henq : th'.enqInv (q.setBlock b fun _ => B) (g.setBlock b m c) cap least)
    (hdeq : th'.deqInv (q.setBlock b fun _ => B) (g.setBlock b m c))
    (hheld : th'.enq.busy → (g.setBlock b m c).items.length ≤ g.held)
    (hempty : th'.deq.busy → (g.setBlock b m c).items = [] → g.wasEmpty) :
    Rel cap least (q.setBlock b fun _ => B) th' (g.setBlock b m c) where
  ok := h.ok
  linked := by
    refine h.linked.congr fun x hmem => ?_
    rw [Rwq.setBlock_blocks]
    split
    next hx => rw [hx, hnext (hx ▸ hmem)]
    next => rfl
  nodup := h.nodup
  pos := h.pos
  below := h.below
  owned := h.owned_of_link hlink
  first := h.first
  last := h.last
  inv x hx := by
    rw [Rwq.setBlock_blocks, Ghost.setBlock_marks, Ghost.setBlock_content]
    by_cases hxb : x = b
    · rw [if_pos hxb, if_pos hxb, if_pos hxb]
      exact hinv
    · rw [if_neg hxb, if_neg hxb, if_neg hxb]
      exact h.inv x hx
  cells x hx := by
    rw [Rwq.setBlock_blocks, Ghost.setBlock_marks, Ghost.setBlock_content]
    by_cases hxb : x = b
    · rw [if_pos hxb, if_pos hxb, if_pos hxb, hxb]
      exact hcells
    · rw [if_neg hxb, if_neg hxb, if_neg hxb, (hother x hxb).1, (hother x hxb).2]
      exact h.cells x hx
  free_empty := hfree
  behind x hx := by
    rw [Ghost.setBlock_marks, Ghost.setBlock_content]
    by_cases hxb : x = b
    · rw [if_pos hxb, if_pos hxb]
      exact hbehind (hxb ▸ hx)
    · rw [if_neg hxb, if_neg hxb]
      exact h.behind x hx
  left_full x hx := by
    rw [Ghost.setBlock_marks, Rwq.setBlock_blocks]
    by_cases hxb : x = b
    · rw [if_pos hxb, if_pos hxb]
      exact hfull (hxb ▸ hx)
    · rw [if_neg hxb, if_neg hxb]
      exact h.left_full x hx
  enq := henq
  deq := hdeq
  held := hheld
  wasEmpty := hempty
  large := h.large
  least_le x hx := by
    rw [Rwq.setBlock_blocks]
    split
    next hxb => exact hleast (hxb ▸ hx)
    next => exact h.least_le x hx
  capacity := h.capacity

/-- A step that only moves a thread on. -/
theorem pass (h : Rel cap least q th g)
    (hother : ∀ x, th'.deq.taken x = th.deq.taken x ∧
      th'.enq.staged th'.element x = th.enq.staged th.element x)
    (hlink : th.enq.unlinked = none ∨ th'.enq = th.enq)
    (hadvance : ∀ x, th.enq = .advance x → th'.enq = .advance x)
    (henq : th'.enqInv q g cap least) (hdeq : th'.deqInv q g)
    (hheld : th'.enq.busy → g.items.length ≤ g.held)
    (hempty : th'.deq.busy → g.items = [] → g.wasEmpty) : Rel cap least q th' g :=
  { h with
    cells := fun b hb => by
      rw [(hother b).1, (hother b).2]
      exact h.cells b hb
    owned := h.owned_of_link hlink
    free_empty := fun b hb hne => hadvance b (h.free_empty b hb hne)
    enq := henq
    deq := hdeq
    held := hheld
    wasEmpty := hempty }

end Rel

/-! ## The producer leaves the consumer's view alone -/

/-- What a step of the producer keeps. -/
structure ProducerKeeps (q : Rwq T) (g : Ghost T) (q' : Rwq T) (g' : Ghost T) : Prop where
  frontBlock : q'.frontBlock = q.frontBlock
  used : ∃ l, g'.used = g.used ++ l
  front : ∀ b ∈ g.used, (q'.blocks b).front = (q.blocks b).front ∧
    (q'.blocks b).size = (q.blocks b).size ∧ (g'.marks b).f = (g.marks b).f ∧
    (g'.marks b).lt = (g.marks b).lt
  /-- The content only grows. -/
  content : ∀ b ∈ g.used, g.content b <+: g'.content b
  /-- And only in the tail block. -/
  settled : ∀ b ∈ g.used.dropLast, g'.content b = g.content b
  wasEmpty : g'.wasEmpty = g.wasEmpty

theorem ProducerKeeps.refl (q : Rwq T) (g : Ghost T) : ProducerKeeps q g q g :=
  ⟨rfl, ⟨[], (List.append_nil _).symm⟩, fun _ _ => ⟨rfl, rfl, rfl, rfl⟩,
    fun _ _ => List.prefix_refl _, fun _ _ => rfl, rfl⟩

theorem deqInv_stable (hdeq : th.deqInv q g) (hfirst : g.used.head? = some q.frontBlock)
    (hk : ProducerKeeps q g q' g') (hth : th'.deq = th.deq) (hop : th'.op = th.op) :
    th'.deqInv q' g' := by
  obtain ⟨l, hused⟩ := hk.used
  obtain ⟨r, hr⟩ : ∃ r, g.used = q.frontBlock :: r := by
    cases hu : g.used with
    | nil => simp [hu] at hfirst
    | cons a r =>
      rw [hu, List.head?_cons] at hfirst
      exact ⟨r, by rw [Option.some.inj hfirst]⟩
  have hfront : q.frontBlock ∈ g.used := by rw [hr]; exact List.mem_cons_self
  have htail : g'.used.tail = r ++ l := by rw [hused, hr]; rfl
  have hrtail : g.used.tail = r := by rw [hr]; rfl
  -- with a second used block the front one is settled
  have hsettled : r ≠ [] → g'.content q.frontBlock = g.content q.frontBlock := fun hne =>
    hk.settled _ (by rw [hr, List.dropLast_cons_of_ne_nil hne]; exact List.mem_cons_self)
  unfold Threads.deqInv at hdeq ⊢
  rw [hth, hop]
  cases hd : th.deq with
  | check => trivial
  | loadTail b blockFront =>
    rw [hd] at hdeq
    obtain ⟨rfl, rfl⟩ := hdeq
    exact ⟨hk.frontBlock.symm, (hk.front _ hfront).1.symm⟩
  | loadTailBlock b =>
    rw [hd] at hdeq
    obtain ⟨rfl, hempty⟩ := hdeq
    refine ⟨hk.frontBlock.symm, fun hone => ?_⟩
    rw [hk.wasEmpty]
    refine hempty ?_
    rw [hused, hr] at hone
    rw [hr, (List.append_eq_nil_iff.mp (List.cons.inj hone).2).1]
  | reload =>
    rw [hd, hrtail] at hdeq
    show g'.used.tail ≠ []
    rw [htail]
    exact List.append_ne_nil_of_left_ne_nil hdeq l
  | loadNext b =>
    rw [hd, hrtail] at hdeq
    obtain ⟨rfl, hne, hcontent⟩ := hdeq
    refine ⟨hk.frontBlock.symm, ?_, (hsettled hne).trans hcontent⟩
    rw [htail]
    exact List.append_ne_nil_of_left_ne_nil hne l
  | nextTail n =>
    rw [hd, hrtail] at hdeq
    obtain ⟨hn, hcontent⟩ := hdeq
    have hne : r ≠ [] := by rintro rfl; simp at hn
    refine ⟨?_, ?_⟩
    · rw [htail, List.head?_append_of_ne_nil _ hne]
      exact hn
    · rw [hk.frontBlock, hsettled hne, hcontent]
  | moveFront n nextBlockFront =>
    rw [hd, hrtail] at hdeq
    obtain ⟨hn, hcontent, rfl, hlt, hpeek⟩ := hdeq
    have hne : r ≠ [] := by rintro rfl; simp at hn
    have hmem : n ∈ g.used := by
      rw [hr]
      exact List.mem_cons_of_mem _ (List.mem_of_mem_head? hn)
    refine ⟨?_, ?_, (hk.front n hmem).1.symm, ?_, hpeek⟩
    · rw [htail, List.head?_append_of_ne_nil _ hne]
      exact hn
    · rw [hk.frontBlock, hsettled hne, hcontent]
    · rw [(hk.front n hmem).2.2.1, (hk.front n hmem).2.2.2]
      exact hlt
  | take b blockFront =>
    rw [hd] at hdeq
    obtain ⟨rfl, rfl, hlt, hpeek⟩ := hdeq
    refine ⟨hk.frontBlock.symm, (hk.front _ hfront).1.symm, ?_, hpeek⟩
    rw [(hk.front _ hfront).2.2.1, (hk.front _ hfront).2.2.2]
    exact hlt
  | release b blockFront result =>
    rw [hd] at hdeq
    obtain ⟨rfl, rfl, hlt, hpeek⟩ := hdeq
    refine ⟨hk.frontBlock.symm, ?_, ?_, hpeek⟩
    · rw [(hk.front _ hfront).2.2.1, (hk.front _ hfront).2.1]
    · rw [(hk.front _ hfront).2.2.1, (hk.front _ hfront).2.2.2]
      exact hlt
  | removed result => trivial
  | peeked element =>
    cases element with
    | none => trivial
    | some pointer =>
      obtain ⟨b, i⟩ := pointer
      rw [hd] at hdeq
      obtain ⟨hpeek, pre, post, hpre, hnil, hne, rfl⟩ := hdeq
      have hmem : b ∈ g.used := by simp [hpre]
      refine ⟨hpeek, pre, post ++ l, by rw [hused, hpre]; simp, fun x hx => ?_, ?_,
        (hk.front b hmem).1.symm⟩
      · rw [hk.settled x (by rw [hpre]; simp [List.dropLast_append_of_ne_nil, hx]), hnil x hx]
      · intro hnil'
        have := hk.content b hmem
        rw [hnil', List.prefix_nil] at this
        exact hne this

/-! ## The consumer leaves the producer's view alone -/

/-- What a step of the consumer keeps. -/
structure ConsumerKeeps (q : Rwq T) (g : Ghost T) (q' : Rwq T) (g' : Ghost T) : Prop where
  tailBlock : q'.tailBlock = q.tailBlock
  brk : q'.brk = q.brk
  ring : ∀ b, b ∈ g'.ring ↔ b ∈ g.ring
  /-- Blocks only become free. -/
  free : ∃ l, g'.free = g.free ++ l
  tail : ∀ b, (q'.blocks b).tail = (q.blocks b).tail ∧ (q'.blocks b).next = (q.blocks b).next ∧
    (q'.blocks b).sizeMask = (q.blocks b).sizeMask ∧ (g'.marks b).t = (g.marks b).t ∧
    (g'.marks b).lf = (g.marks b).lf
  /-- Blocks that are not used are the producer's. -/
  unused : ∀ b, b ∉ g.used → q'.blocks b = q.blocks b ∧ g'.marks b = g.marks b ∧
    g'.content b = g.content b
  held : g'.held = g.held

theorem ConsumerKeeps.refl (q : Rwq T) (g : Ghost T) : ConsumerKeeps q g q g :=
  ⟨rfl, rfl, fun _ => Iff.rfl, ⟨[], (List.append_nil _).symm⟩, fun _ => ⟨rfl, rfl, rfl, rfl, rfl⟩,
    fun _ _ => ⟨rfl, rfl, rfl⟩, rfl⟩

theorem ConsumerKeeps.size (hk : ConsumerKeeps q g q' g') (b : Nat) :
    (q'.blocks b).size = (q.blocks b).size := by
  unfold Block.size
  rw [(hk.tail b).2.2.1]

theorem ConsumerKeeps.tailFull (hk : ConsumerKeeps q g q' g') (h : Threads.TailFull q g) :
    Threads.TailFull q' g' := by
  unfold Threads.TailFull
  rw [hk.tailBlock, (hk.tail _).2.2.2.1, (hk.tail _).2.2.2.2, hk.size]
  exact h

/-- The block ahead stays the block ahead, untouched. -/
theorem Rel.ahead_stable (h : Rel cap least q th g) (hk : ConsumerKeeps q g q' g') {n : Nat}
    (ha : Threads.Ahead g n) : Threads.Ahead g' n ∧ q'.blocks n = q.blocks n ∧
      g'.content n = g.content n := by
  obtain ⟨hn, hlf⟩ := ha
  obtain ⟨l, hl⟩ := hk.free
  have hmem : n ∈ g.free := List.mem_of_mem_head? hn
  obtain ⟨hblock, hmarks, hcontent⟩ := hk.unused n (h.notMem_used hmem)
  refine ⟨⟨?_, ?_⟩, hblock, hcontent⟩
  · rw [hl, List.head?_append_of_ne_nil _ (List.ne_nil_of_mem hmem)]
    exact hn
  · rw [hmarks]
    exact hlf

theorem Rel.enqInv_stable (h : Rel cap least q th g) (hk : ConsumerKeeps q g q' g')
    (henq : th'.enq = th.enq) (hel : th'.element = th.element) (hca : th'.canAlloc = th.canAlloc) :
    th'.enqInv q' g' cap least := by
  have hinv := h.enq
  unfold Threads.enqInv at hinv ⊢
  rw [henq, hel, hca]
  cases he : th.enq with
  | check => trivial
  | loadFront b blockTail nextBlockTail =>
    rw [he] at hinv
    obtain ⟨rfl, rfl, rfl⟩ := hinv
    refine ⟨hk.tailBlock.symm, (hk.tail _).1.symm, ?_⟩
    rw [(hk.tail _).2.2.2.1, hk.size]
  | write b blockTail nextBlockTail =>
    rw [he] at hinv
    obtain ⟨rfl, rfl, rfl, hroom⟩ := hinv
    refine ⟨hk.tailBlock.symm, (hk.tail _).1.symm, ?_, ?_⟩
    · rw [(hk.tail _).2.2.2.1, hk.size]
    · rw [(hk.tail _).2.2.2.1, (hk.tail _).2.2.2.2, hk.size]
      exact hroom
  | store b nextBlockTail =>
    rw [he] at hinv
    obtain ⟨rfl, rfl, hroom⟩ := hinv
    refine ⟨hk.tailBlock.symm, ?_, ?_⟩
    · rw [(hk.tail _).2.2.2.1, hk.size]
    · rw [(hk.tail _).2.2.2.1, (hk.tail _).2.2.2.2, hk.size]
      exact hroom
  | full b =>
    rw [he] at hinv
    obtain ⟨rfl, hfull, hheld⟩ := hinv
    refine ⟨hk.tailBlock.symm, hk.tailFull hfull, ?_⟩
    rw [hk.held, (hk.tail _).2.2.1]
    exact hheld
  | nextFront b =>
    rw [he] at hinv
    obtain ⟨rfl, hfull, hne⟩ := hinv
    obtain ⟨l, hl⟩ := hk.free
    refine ⟨hk.tailBlock.symm, hk.tailFull hfull, ?_⟩
    rw [hl]
    exact List.append_ne_nil_of_left_ne_nil hne l
  | writeNext n nextBlockTail | storeNext n nextBlockTail =>
    rw [he] at hinv
    obtain ⟨hfull, ha, rfl⟩ := hinv
    obtain ⟨ha', hblock, -⟩ := h.ahead_stable hk ha
    refine ⟨hk.tailFull hfull, ha', ?_⟩
    rw [hblock]
  | grow b =>
    rw [he] at hinv
    obtain ⟨rfl, hfull, hmode, hcap⟩ := hinv
    refine ⟨hk.tailBlock.symm, hk.tailFull hfull, hmode, ?_⟩
    rw [hk.held]
    exact hcap
  | link b n =>
    rw [he] at hinv
    obtain ⟨rfl, hfull, hn, hbrk, hnext, hblock, hcells, hcontent, hlf, hleast⟩ := hinv
    obtain ⟨hb', hm', hc'⟩ := hk.unused n fun hu => hn (Ghost.mem_ring.mpr (Or.inl hu))
    refine ⟨hk.tailBlock.symm, hk.tailFull hfull, fun hu => hn ((hk.ring n).mp hu), ?_, ?_, ?_,
      ?_, ?_, ?_, ?_⟩
    · rw [hk.brk]
      exact hbrk
    · rw [hb', (hk.tail _).2.1]
      exact hnext
    · rw [hb', hm', hc']
      exact hblock
    · rw [hb', hm', hc']
      exact hcells
    · rw [hc']
      exact hcontent
    · rw [hm']
      exact hlf
    · rw [hb']
      exact hleast
  | advance n =>
    rw [he] at hinv
    obtain ⟨hfull, ha, hcontent⟩ := hinv
    obtain ⟨ha', -, hc'⟩ := h.ahead_stable hk ha
    exact ⟨hk.tailFull hfull, ha', hc'.trans hcontent⟩
  | returned ok => trivial

end Darts.Queue
