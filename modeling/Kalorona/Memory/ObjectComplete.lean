import Kalorona.Memory.ObjectLinkRuns

namespace Kalorona.Memory

open Kalorona.Data Kalorona.Utilities

/-! # When there is no object

`kmem_object_alloc` gives up only where the smallest block that holds an object is not to be had.
-/

variable {σ : Type} [PageAllocator σ]

/-- A refused request leaves the pages as they are, and requests for larger blocks are refused too. -/
structure Refuses (kmem : σ) : Prop where
  same : ∀ {order after}, allocPages order kmem = .ok (0, after) → after = kmem
  larger : ∀ {order larger}, allocPages order kmem = .ok (0, kmem) → order ≤ larger →
    larger < maxMemOrder → allocPages larger kmem = .ok (0, kmem)

variable {kmem : Kmem} {order : Nat}

theorem BuddySound.null_iff (sound : BuddySound kmem) (ordered : order < maxMemOrder) :
    Memory.kmemAllocPages order kmem = .ok (0, kmem) ↔
      ∀ ord, order ≤ ord → ord < maxMemOrder → (kmem.freeAreas ord).freePageList = [] := by
  rcases search : findOrder kmem (maxMemOrder - order) order with _ | ⟨found, node⟩
  · have empty := findOrder_none search
    refine iff_of_true ?_ fun ord lower upper => empty ord lower (by omega)
    rw [Memory.kmemAllocPages, if_neg (Nat.not_le_of_lt ordered), search]
    rfl
  · obtain ⟨lower, upper, listed⟩ := findOrder_some search
    obtain ⟨start, _, address, _⟩ := findOrder_split sound.tiled sound.paired search
    refine iff_of_false (fun run => ?_) fun empty => ?_
    · rw [Memory.kmemAllocPages, if_neg (Nat.not_le_of_lt ordered), search] at run
      dsimp only at run
      rw [if_neg (Nat.not_lt_of_le lower)] at run
      obtain ⟨split, _, run⟩ := Result.bind_ok run
      obtain ⟨detached, _, run⟩ := Result.bind_ok run
      obtain ⟨memMap, _, run⟩ := Result.bind_ok run
      have null : node = 0 := (Prod.mk.inj (Except.ok.inj run)).1
      exact absurd (address.symm.trans null) (pageVaddr_ne_zero kmem start)
    · rw [empty found lower (by omega)] at listed
      cases listed

theorem BuddySound.refuses (sound : BuddySound kmem) : Refuses kmem where
  same run := sound.refused run
  larger {order larger} refused atMost ordered := by
    have empty := (sound.null_iff (Nat.lt_of_le_of_lt atMost ordered)).mp refused
    exact (sound.null_iff ordered).mpr fun ord lower upper => empty ord (atMost.trans lower) upper

theorem Faithful.refuses {pages : Set Nat} {state : LinkedKmem}
    (faithful : Faithful pages state kmem) : Refuses state where
  same run := faithful.refused run
  larger {order larger} refused atMost ordered := by
    obtain ⟨after, granted, _⟩ := faithful.alloc refused
    obtain rfl := faithful.sound.refused granted
    obtain ⟨final, run, _⟩ := faithful.alloc_returns (faithful.sound.refuses.larger granted atMost ordered)
    exact run.trans (congrArg (fun state => Except.ok (0, state)) (faithful.refused run))

/-- A block of this order has room for an object. -/
def HoldsObject (objectSize order : Nat) : Prop :=
  order < maxMemOrder ∧ objectSize + objectHeaderSize ≤ 2 ^ (order + pageShift) - objectBlockSize

theorem blockCapacity_eq (ordered : order < maxMemOrder) :
    blockCapacity order = 2 ^ (order + pageShift) - objectBlockSize := by
  revert order
  decide

theorem HoldsObject.mono {objectSize larger : Nat} (holds : HoldsObject objectSize order)
    (atMost : order ≤ larger) (ordered : larger < maxMemOrder) : HoldsObject objectSize larger := by
  have power : 2 ^ (order + pageShift) ≤ 2 ^ (larger + pageShift) := Nat.pow_le_pow_right (by decide) (by omega)
  have enough := holds.2
  exact ⟨ordered, by omega⟩

theorem holdsObject_iff {objectSize order : Nat} (ordered : order < maxMemOrder) :
    blockCapacity order ≥ objectSize + objectHeaderSize ↔ HoldsObject objectSize order := by
  rw [blockCapacity_eq ordered]
  exact ⟨fun enough => ⟨ordered, enough⟩, fun holds => holds.2⟩

theorem firstBlockOrder_enough {allocatedSum remaining order : Nat} (ordered : order < maxMemOrder)
    (enough : maxMemOrder ≤ order + remaining) :
    allocatedSum < blockCapacity (firstBlockOrder allocatedSum remaining order) ∨
      firstBlockOrder allocatedSum remaining order = maxMemOrder - 1 := by
  induction remaining generalizing order with
  | zero => omega
  | succ remaining ih =>
    rw [firstBlockOrder]
    split
    next more => exact ih more.1 (by omega)
    next stops =>
      by_cases last : order + 1 < maxMemOrder
      · exact .inl (Nat.lt_of_not_le fun small => stops ⟨last, small⟩)
      · exact .inr (by omega)

section
variable {heap after : ObjectHeap σ} {manager objectSize order block : Nat}

theorem kmemObjectCreateBlock_alloc
    (run : kmemObjectCreateBlock manager order objectSize heap = .ok (block, after)) :
    ∃ kmem, allocPages order heap.kmem = .ok (block, kmem) ∧
      (block = 0 → after = { heap with kmem }) := by
  unfold kmemObjectCreateBlock at run
  split at run
  · cases run
  obtain ⟨⟨found, kmem⟩, alloc, run⟩ := Result.bind_ok run
  dsimp only at run
  split at run
  next null =>
    cases run
    exact ⟨kmem, null ▸ alloc, fun _ => rfl⟩
  next notNull =>
    cases run
    exact ⟨kmem, alloc, fun null => absurd null notNull⟩

theorem createSomeBlock_null (refuses : Refuses heap.kmem) (ordered : order < maxMemOrder)
    (run : createSomeBlock manager (objectSize + objectHeaderSize) objectSize order heap = .ok (block, after)) :
    (block = 0 → after = heap ∧ ∀ smaller ≤ order, HoldsObject objectSize smaller →
      allocPages smaller heap.kmem = .ok (0, heap.kmem)) ∧
    (block ≠ 0 → ∃ smaller ≤ order, HoldsObject objectSize smaller ∧
      ∃ kmem, allocPages smaller heap.kmem = .ok (block, kmem)) := by
  induction order with
  | zero =>
    rw [createSomeBlock] at run
    split at run
    next capacity =>
      have holds := (holdsObject_iff ordered).mp capacity
      obtain ⟨kmem, alloc, same⟩ := kmemObjectCreateBlock_alloc run
      refine ⟨fun null => ?_, fun _ => ⟨0, Nat.le_refl _, holds, kmem, alloc⟩⟩
      subst null
      obtain rfl := refuses.same alloc
      refine ⟨same rfl, fun smaller atMost _ => ?_⟩
      rw [Nat.le_zero.mp atMost]
      exact alloc
    next small =>
      cases run
      refine ⟨fun _ => ⟨rfl, fun smaller atMost holds => ?_⟩, fun notNull => absurd rfl notNull⟩
      exact absurd ((holdsObject_iff ordered).mpr (holds.mono atMost ordered)) small
  | succ order ih =>
    rw [createSomeBlock] at run
    split at run
    next capacity =>
      have holds := (holdsObject_iff ordered).mp capacity
      obtain ⟨⟨found, middle⟩, create, run⟩ := Result.bind_ok run
      obtain ⟨kmem, alloc, same⟩ := kmemObjectCreateBlock_alloc create
      dsimp only at run
      split at run
      next null =>
        subst null
        obtain rfl := refuses.same alloc
        obtain rfl := same rfl
        obtain ⟨refused, granted⟩ := ih (Nat.lt_of_succ_lt ordered) run
        constructor
        · intro null
          refine ⟨(refused null).1, fun smaller atMost smallerHolds => ?_⟩
          rcases Nat.le_succ_iff.mp atMost with earlier | rfl
          · exact (refused null).2 smaller earlier smallerHolds
          · exact alloc
        · intro notNull
          obtain ⟨smaller, atMost, rest⟩ := granted notNull
          exact ⟨smaller, Nat.le_succ_of_le atMost, rest⟩
      next notNull =>
        cases run
        exact ⟨fun null => absurd null notNull, fun _ => ⟨order + 1, Nat.le_refl _, holds, kmem, alloc⟩⟩
    next small =>
      cases run
      refine ⟨fun _ => ⟨rfl, fun smaller atMost holds => ?_⟩, fun notNull => absurd rfl notNull⟩
      exact absurd ((holdsObject_iff ordered).mpr (holds.mono atMost ordered)) small

theorem createSomeBlock_refused {unitSize : Nat} (refuses : Refuses heap.kmem)
    (run : createSomeBlock manager unitSize objectSize order heap = .ok (0, after)) : after = heap := by
  have kept : ∀ {order}, kmemObjectCreateBlock manager order objectSize heap = .ok (0, after) → after = heap := by
    intro order run
    obtain ⟨kmem, alloc, same⟩ := kmemObjectCreateBlock_alloc run
    obtain rfl := refuses.same alloc
    exact same rfl
  induction order with
  | zero =>
    rw [createSomeBlock] at run
    split at run
    · exact kept run
    · cases run
      rfl
  | succ order ih =>
    rw [createSomeBlock] at run
    split at run
    · obtain ⟨⟨found, middle⟩, create, run⟩ := Result.bind_ok run
      dsimp only at run
      split at run
      next null =>
        subst null
        obtain ⟨kmem, alloc, same⟩ := kmemObjectCreateBlock_alloc create
        obtain rfl := refuses.same alloc
        obtain rfl := same rfl
        exact ih run
      next notNull =>
        cases run
        exact absurd rfl notNull
    · cases run
      rfl

/-- No slot is free, and no block can be made. -/
def OutOfMemory (manager : Nat) (heap : ObjectHeap σ) : Prop :=
  (∀ block ∈ (heap.managers manager).blocks, (heap.blocks block).freeSlots = []) ∧
    ((∀ order, ¬ HoldsObject (heap.managers manager).objectSize order) ∨
      ∃ order, HoldsObject (heap.managers manager).objectSize order ∧
        (∀ smaller, HoldsObject (heap.managers manager).objectSize smaller → order ≤ smaller) ∧
        ∃ kmem, allocPages order heap.kmem = .ok (0, kmem))

theorem outOfMemory_iff (refuses : Refuses heap.kmem) : OutOfMemory manager heap ↔
      (∀ block ∈ (heap.managers manager).blocks, (heap.blocks block).freeSlots = []) ∧
      ∀ order, HoldsObject (heap.managers manager).objectSize order →
        allocPages order heap.kmem = .ok (0, heap.kmem) := by
  refine and_congr_right fun _ => ⟨?_, fun refused => ?_⟩
  · rintro (none | ⟨least, _, isLeast, kmem, alloc⟩) order holds
    · exact absurd holds (none order)
    · exact refuses.larger (refuses.same alloc ▸ alloc) (isLeast order holds) holds.1
  · by_cases some : ∃ order, HoldsObject (heap.managers manager).objectSize order
    · classical
      exact .inr ⟨Nat.find some, Nat.find_spec some, fun smaller holds => Nat.find_min' some holds, _,
        refused _ (Nat.find_spec some)⟩
    · exact .inl fun order holds => some ⟨order, holds⟩

omit [PageAllocator σ] in
theorem kmemObjectAllocFromBlock_total {vaddr : Nat}
    (run : kmemObjectAllocFromBlock block heap = .ok (vaddr, after)) : vaddr ≠ 0 ∧ after.managers = heap.managers ∧
      ∀ other, (after.blocks other).total = (heap.blocks other).total := by
  unfold kmemObjectAllocFromBlock at run
  dsimp only at run
  split at run
  · cases run
  · cases run
    refine ⟨Nat.succ_ne_zero _, rfl, fun other => ?_⟩
    by_cases same : other = block
    · subst same
      simp [ObjectHeap.setBlock]
    · simp [ObjectHeap.setBlock, same]

def unlocked (manager : Nat) (heap : ObjectHeap σ) : ObjectHeap σ :=
  heap.setManager manager { heap.managers manager with lock := ⟨0, 0⟩ }

theorem kmemObjectAlloc_refused {hart : Nat} (refuses : Refuses heap.kmem)
    (run : kmemObjectAlloc hart manager heap = .ok (0, after)) : after = unlocked manager heap := by
  obtain ⟨lock, acquired, run⟩ := Result.bind_ok run
  obtain ⟨⟨found, middle⟩, search, run⟩ := Result.bind_ok run
  rw [spinlockRelease_acquired acquired] at run
  cases run
  dsimp only at search
  split at search
  next => exact absurd rfl (kmemObjectAllocFromBlock_total search).1
  next =>
    obtain ⟨⟨block, created⟩, create, search⟩ := Result.bind_ok search
    dsimp only at search
    split at search
    next null =>
      subst null
      cases search
      obtain rfl := createSomeBlock_refused refuses create
      rfl
    next => exact absurd rfl (kmemObjectAllocFromBlock_total search).1

theorem refused_above {allocatedSum : Nat} (refuses : Refuses heap.kmem)
    (enough : objectSize + objectHeaderSize ≤ allocatedSum)
    (refused : ∀ smaller ≤ firstBlockOrder allocatedSum maxMemOrder 0, HoldsObject objectSize smaller →
      allocPages smaller heap.kmem = .ok (0, heap.kmem)) : ∀ larger, HoldsObject objectSize larger →
      allocPages larger heap.kmem = .ok (0, heap.kmem) := by
  intro larger holds
  have ordered := holds.1
  have first : firstBlockOrder allocatedSum maxMemOrder 0 < maxMemOrder := firstBlockOrder_lt (by decide)
  by_cases tried : larger ≤ firstBlockOrder allocatedSum maxMemOrder 0
  · exact refused larger tried holds
  · have large := (@firstBlockOrder_enough allocatedSum maxMemOrder 0 (by decide) (by decide)).resolve_right
      (by omega)
    have firstHolds := (@holdsObject_iff objectSize _ first).mp (by omega)
    exact refuses.larger (refused _ (Nat.le_refl _) firstHolds) (by omega) ordered

variable [LawfulRuns σ]

theorem Carved.total_pos (carved : Carved manager objectSize block heap after) :
    0 < (after.blocks block).total := by
  obtain ⟨pageOrder, count, kmem, parentBlock, rfl, some, _⟩ := carved
  simpa [ObjectHeap.setBlock, carvedBlock] using some

/-- A sound heap over pages of which a refused request takes none. -/
structure HeapReady (heap : ObjectHeap σ) : Prop extends HeapSound heap where
  refuses : Refuses heap.kmem

theorem kmemObjectAlloc_cases {hart vaddr : Nat} (ready : HeapReady heap) (known : manager ∈ heap.known)
    (run : kmemObjectAlloc hart manager heap = .ok (vaddr, after)) :
    (vaddr = 0 ∧ OutOfMemory manager heap ∧ after = unlocked manager heap) ∨
      (vaddr ≠ 0 ∧ ¬ OutOfMemory manager heap ∧
        ∀ block ∈ (after.managers manager).blocks, block ∉ (heap.managers manager).blocks →
          0 < (after.blocks block).total) := by
  obtain ⟨sound, refuses⟩ := ready
  obtain ⟨rounded, bounded⟩ := sound.sizes manager known
  have unit := sound.unit known
  rw [outOfMemory_iff refuses]
  obtain ⟨lock, acquired, run⟩ := Result.bind_ok run
  obtain ⟨⟨found, middle⟩, search, run⟩ := Result.bind_ok run
  rw [spinlockRelease_acquired acquired] at run
  cases run
  dsimp only at search
  split at search
  next block first =>
    obtain ⟨notNull, sameManagers, _⟩ := kmemObjectAllocFromBlock_total search
    have member := List.mem_of_find?_eq_some first
    have free : (heap.blocks block).freeSlots ≠ [] := by simpa using List.find?_some first
    refine .inr ⟨notNull, fun out => free (out.1 block member), fun other inAfter isNew => ?_⟩
    simp only [ObjectHeap.setManager, Function.update_self, sameManagers] at inAfter
    exact absurd inAfter isNew
  next none =>
    have full : ∀ block ∈ (heap.managers manager).blocks, (heap.blocks block).freeSlots = [] := by
      intro block member
      simpa using List.find?_eq_none.mp none block member
    rw [unit, ulong_of_lt (by unfold objectHeaderSize; omega)] at search
    obtain ⟨⟨block, created⟩, create, search⟩ := Result.bind_ok search
    generalize List.foldl _ _ _ = used at create
    generalize sumIs : (if used < ((heap.managers manager).objectSize + objectHeaderSize) * 4 then
      ((heap.managers manager).objectSize + objectHeaderSize) * 4 else used) = allocatedSum at create
    have enough : (heap.managers manager).objectSize + objectHeaderSize ≤ allocatedSum := by
      rw [← sumIs]
      split <;> omega
    have ordered : firstBlockOrder allocatedSum maxMemOrder 0 < maxMemOrder := firstBlockOrder_lt (by decide)
    obtain ⟨refused, granted⟩ := createSomeBlock_null refuses ordered create
    dsimp only at search
    split at search
    next null =>
      cases search
      obtain ⟨rfl, all⟩ := refused null
      exact .inl ⟨rfl, ⟨full, refused_above refuses enough all⟩, rfl⟩
    next notNull =>
      obtain ⟨vaddrNotNull, sameManagers, totals⟩ := kmemObjectAllocFromBlock_total search
      refine .inr ⟨vaddrNotNull, fun out => ?_, fun other inAfter isNew => ?_⟩
      · obtain ⟨smaller, _, holds, kmem, alloc⟩ := granted notNull
        rw [out.2 smaller holds] at alloc
        exact notNull (Prod.mk.inj (Except.ok.inj alloc)).1.symm
      · obtain ⟨_, _, createAgain, outcome⟩ :=
          @createSomeBlock_spec _ _ _ manager _ _ heap sound.sound rounded bounded ordered
        cases createAgain.symm.trans create
        have carved := (outcome.resolve_left fun refused => notNull refused.1).2
        simp only [ObjectHeap.setManager, Function.update_self, sameManagers, List.mem_cons] at inAfter
        obtain rfl := inAfter.resolve_right isNew
        show 0 < (middle.blocks other).total
        rw [totals]
        exact carved.total_pos

end

/-- A call of the object allocator, or a step of the page manager below that takes no page of a
block. -/
inductive PagedStep [LawfulRuns σ] (pages : σ → σ → Prop) : ObjectHeap σ → ObjectHeap σ → Prop
  | alloc {before after : ObjectHeap σ} {hart manager vaddr : Nat} (known : manager ∈ before.known)
      (run : kmemObjectAlloc hart manager before = .ok (vaddr, after)) : PagedStep pages before after
  | free {before after : ObjectHeap σ} {hart manager vaddr : Nat} (live : Live manager vaddr before)
      (run : kmemObjectFree hart vaddr before = .ok after) : PagedStep pages before after
  | createManager {before after : ObjectHeap σ} {hart objectSize manager : Nat} {name : String}
      {memory : Memory} (small : objectSize ≤ 2 ^ 32)
      (run : kmemObjectCreateManager hart objectSize name memory before = .ok (manager, after)) :
      PagedStep pages before after
  | pages {before : ObjectHeap σ} {kmem : σ} (step : pages before.kmem kmem)
      (kept : ∀ manager address, before.Has manager address →
        (before.blocks address).pages address ⊆ LawfulRuns.reserved kmem) :
      PagedStep pages before { before with kmem }

theorem PagedStep.heapStep [LawfulRuns σ] {pages : σ → σ → Prop} {keeps : σ → Prop}
    {before after : ObjectHeap σ} (lawful : LawfulSteps pages keeps) (kept : keeps before.kmem)
    (step : PagedStep pages before after) : HeapStep before after ∧ keeps after.kmem := by
  cases step with
  | alloc known run => exact ⟨.alloc known run, lawful.alloc.kmemObjectAlloc kept run⟩
  | free live run => exact ⟨.free live run, (kmemObjectFree_same run).1 ▸ kept⟩
  | createManager small run => exact ⟨.createManager small run, lawful.alloc.kmemObjectCreateManager kept run⟩
  | pages step room =>
    have next := lawful.step kept step
    exact ⟨.others (lawful.sound next) room, next⟩

theorem FaithfulPages.refuses {pages : Set Nat} {state : LinkedKmem} (kept : FaithfulPages pages state) :
    Refuses state := by
  obtain ⟨_, faithful, _⟩ := kept
  exact faithful.refuses

theorem NodeMapped.below {node : BootmemNode} (mapped : NodeMapped node) :
    node.beginPpn + node.numPpn + 2 ^ maxMemOrder ≤ 2 ^ 26 := by
  have inside := mapped.mapped
  unfold pageSize vaKernelPmaSize at inside
  have largest : 2 ^ maxMemOrder = 2048 := by decide
  omega

/-- In every state of the object allocator on a board whose maps fit, a call returns null exactly when
memory is out, and then leaves the blocks and the pages alone. -/
theorem object_alloc_null_iff {freeable : Set Nat} {node : BootmemNode} {memory : Memory}
    {links : Links AreaNode} {start heap : ObjectHeap LinkedKmem} {hart manager : Nat} {lock : Spinlock}
    (mapped : NodeMapped node) (heads : ∀ ord < maxMemOrder, links.nxt (.head ord) = none)
    (pages : PageRun freeable node memory links start.kmem)
    (noBlocks : (start.managers rootManager).blocks = []) (noManagers : start.managerList = [])
    (run : Relation.ReflTransGen (PagedStep (LinkedStep freeable)) (kmemObjectInit start) heap)
    (known : manager ∈ heap.known) (free : spinlockAcquire hart (heap.managers manager).lock = .ok lock) :
    ∃ vaddr after, kmemObjectAlloc hart manager heap = .ok (vaddr, after) ∧
      (vaddr = 0 ↔ OutOfMemory manager heap) ∧
      (vaddr = 0 → after.kmem = heap.kmem ∧ after.blocks = heap.blocks ∧
        ∀ other, (after.managers other).blocks = (heap.managers other).blocks) ∧
      ∀ block ∈ (after.managers manager).blocks, block ∉ (heap.managers manager).blocks →
        0 < (after.blocks block).total := by
  obtain ⟨allowed, within, kept⟩ := pages.faithfulPages mapped.toNodeFits heads mapped.below
  have lawful := FaithfulPages.lawful within
  obtain ⟨heapSound, heapKept⟩ : HeapSound heap ∧ FaithfulPages allowed heap.kmem := by
    refine run_preserves (fun heap => HeapSound heap ∧ FaithfulPages allowed heap.kmem) ?_
      ⟨kmemObjectInit_sound (lawful.sound kept) noBlocks noManagers, kept⟩ run
    rintro before after ⟨sound, kept⟩ step
    obtain ⟨heapStep, next⟩ := step.heapStep lawful kept
    exact ⟨heapStep.sound sound, next⟩
  obtain ⟨vaddr, after, alloc, _⟩ := kmemObjectAlloc_spec heapSound known free
  refine ⟨vaddr, after, alloc, ?_⟩
  rcases kmemObjectAlloc_cases ⟨heapSound, heapKept.refuses⟩ known alloc with
    ⟨null, out, rfl⟩ | ⟨notNull, notOut, slots⟩
  · have same : ∀ other, ((unlocked manager heap).managers other).blocks = (heap.managers other).blocks := by
      intro other
      by_cases here : other = manager
      · subst here
        simp [unlocked, ObjectHeap.setManager]
      · simp [unlocked, ObjectHeap.setManager, here]
    refine ⟨iff_of_true null out, fun _ => ⟨rfl, rfl, same⟩, fun block inAfter isNew => ?_⟩
    rw [same] at inAfter
    exact absurd inAfter isNew
  · exact ⟨iff_of_false notNull notOut, fun null => absurd null notNull, slots⟩

/-- Sixteen pages of RAM of which three are free, and then taken: there is no first object. -/
theorem object_alloc_null_iff_no_page : ∃ (kmem : LinkedKmem) (after : ObjectHeap LinkedKmem),
      PageRun { pn | pn ≠ 0 } sixteenPages (fun _ => 0) nullLinks kmem ∧
      kmemObjectAlloc 1 rootManager (kmemObjectInit (emptyHeap kmem)) = .ok (0, after) ∧
      OutOfMemory rootManager (kmemObjectInit (emptyHeap kmem)) := by
  obtain ⟨_, init, ⟨_, _⟩, pairTaken, ⟨_, kmem⟩, lastTaken, ⟨_, after⟩, run, rfl⟩ :
      ∃ state, LinkedKmem.kmemPageManagerInit sixteenPages (fun _ => 0) nullLinks = .ok state ∧
        ∃ pair, state.kmemAllocPages 1 = .ok pair ∧ ∃ last, pair.2.kmemAllocPages 0 = .ok last ∧
          ∃ object, kmemObjectAlloc 1 rootManager (kmemObjectInit (emptyHeap last.2)) = .ok object ∧
            object.1 = 0 := by decide +kernel
  obtain ⟨mapped, node, memory, booted, maps, fit, boot, steps⟩ := sixteenPages_run init
  have pages : PageRun { pn | pn ≠ 0 } sixteenPages (fun _ => 0) nullLinks kmem :=
    ⟨mapped, node, memory, booted, maps, fit, boot, (steps.tail (.alloc pairTaken)).tail (.alloc lastTaken)⟩
  obtain ⟨_, _, again, iff, _⟩ := @object_alloc_null_iff _ _ _ _ (emptyHeap kmem) _ 1 rootManager ⟨1, 1⟩
    sixteenPages_mapped (fun _ _ => rfl) pages rfl rfl .refl List.mem_cons_self rfl
  cases again.symm.trans run
  exact ⟨kmem, after, pages, run, iff.mp rfl⟩

/-- 17 pages of RAM, of which 2, 3 and 16 are free.  The first block is made of page 16, which is
listed together with a page behind the end; the next block is made of that page, although 2 and 3 are
free. -/
theorem kmemObjectAlloc_panics_past_end : ∃ (kmem : LinkedKmem) (manager : Nat) (heap : ObjectHeap LinkedKmem),
      LinkedKmem.kmemPageManagerInit (raggedPages 2 0xf1) (fun _ => 0) nullLinks = .ok kmem ∧
      kmemObjectCreateManager 1 listNodeSize "list_node" (fun _ => 0) (kmemObjectInit (emptyHeap kmem)) =
        .ok (manager, heap) ∧
      heap.kmem.kmem.numPpn = 17 ∧ testBit heap.kmem.kmem.memMap 2 = false ∧
      testBit heap.kmem.kmem.memMap 3 = false ∧
      kmemObjectAlloc 1 manager heap = .error (.panic "kmem_alloc_pages - allocated") := by
  obtain ⟨kmem, boot, ⟨manager, heap⟩, create, panics⟩ :
      ∃ kmem, LinkedKmem.kmemPageManagerInit (raggedPages 2 0xf1) (fun _ => 0) nullLinks = .ok kmem ∧
        ∃ made, kmemObjectCreateManager 1 listNodeSize "list_node" (fun _ => 0)
          (kmemObjectInit (emptyHeap kmem)) = .ok made ∧ made.2.kmem.kmem.numPpn = 17 ∧
            testBit made.2.kmem.kmem.memMap 2 = false ∧ testBit made.2.kmem.kmem.memMap 3 = false ∧
            kmemObjectAlloc 1 made.1 made.2 = .error (.panic "kmem_alloc_pages - allocated") := by decide +kernel
  exact ⟨kmem, manager, heap, boot, create, panics⟩

end Kalorona.Memory
