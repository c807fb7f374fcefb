import Kalorona.Memory.BuddyPages
import Kalorona.Memory.ObjectInvariant

namespace Kalorona.Memory

open Kalorona.Data Kalorona.Utilities

/-! # Sequences of calls of the object allocator -/

open LawfulRuns (reserved)

variable {σ : Type}

/-- The claims of one block: its two lists split its slots, which lie side by side in its pages. -/
structure BlockHolds (heap : ObjectHeap σ) (manager address : Nat) : Prop where
  disjoint : ∀ slot ∈ (heap.blocks address).freeSlots, slot ∉ (heap.blocks address).allocatedSlots
  nodup : (heap.blocks address).slots.Nodup
  total : (heap.blocks address).slots.length = (heap.blocks address).total
  used : (heap.blocks address).used = (heap.blocks address).allocatedSlots.length
  parent : ∀ slot ∈ (heap.blocks address).slots, heap.parentBlock slot = address
  size : (heap.blocks address).objectSize =
    binaryRoundUp (heap.managers manager).objectSize objectAlignment
  aligned : ∀ slot ∈ (heap.blocks address).slots, slot % 8 = 0
  inside : ∀ slot ∈ (heap.blocks address).slots, address + objectBlockSize ≤ slot ∧
    slot + (heap.blocks address).unitSize ≤ address + (heap.blocks address).pageCount * pageSize

def SlotsApart (heap : ObjectHeap σ) : Prop :=
  ∀ manager address other otherAddress, heap.Has manager address → heap.Has other otherAddress →
    ∀ slot ∈ (heap.blocks address).slots, ∀ otherSlot ∈ (heap.blocks otherAddress).slots,
    (address = otherAddress ∧ slot = otherSlot) ∨
      slot + (heap.blocks address).unitSize ≤ otherSlot ∨
      otherSlot + (heap.blocks otherAddress).unitSize ≤ slot

variable [PageAllocator σ]

/-- The claims of all blocks, and that the allocator never finds a block without the slot that it
looks for. -/
structure ObjectsHold (heap : ObjectHeap σ) : Prop where
  blocks : ∀ manager address, heap.Has manager address → BlockHolds heap manager address
  slots : SlotsApart heap
  never : ∀ hart, ∀ manager ∈ heap.known, kmemObjectAlloc hart manager heap ≠
    .error (.panic "kmem_object_alloc_from_block - no slots available")

variable [LawfulRuns σ]

/-- Any use of the heap; callers free live objects only. -/
inductive HeapStep : ObjectHeap σ → ObjectHeap σ → Prop
  | alloc {before after : ObjectHeap σ} {hart manager vaddr : Nat} (known : manager ∈ before.known)
      (run : kmemObjectAlloc hart manager before = .ok (vaddr, after)) : HeapStep before after
  | free {before after : ObjectHeap σ} {hart manager vaddr : Nat} (live : Live manager vaddr before)
      (run : kmemObjectFree hart vaddr before = .ok after) : HeapStep before after
  | createManager {before after : ObjectHeap σ} {hart objectSize manager : Nat} {name : String}
      {memory : Memory} (small : objectSize ≤ 2 ^ 32)
      (run : kmemObjectCreateManager hart objectSize name memory before = .ok (manager, after)) :
      HeapStep before after
  /-- Others take and give back pages. -/
  | others {before : ObjectHeap σ} {kmem : σ} (sound : LawfulRuns.Sound kmem)
      (kept : ∀ manager address, before.Has manager address →
        (before.blocks address).pages address ⊆ reserved kmem) : HeapStep before { before with kmem }

section
variable {heap after : ObjectHeap σ} {hart manager vaddr : Nat}

theorem HeapSound.alloc (sound : HeapSound heap) (known : manager ∈ heap.known)
    (run : kmemObjectAlloc hart manager heap = .ok (vaddr, after)) :
    HeapSound after ∧ after.managerList = heap.managerList ∧ (vaddr = 0 ∨ Live manager vaddr after) := by
  obtain ⟨lock, free, _⟩ := Result.bind_ok run
  obtain ⟨_, _, returned, facts⟩ := kmemObjectAlloc_spec sound known free
  cases returned.symm.trans run
  exact facts

omit [PageAllocator σ] [LawfulRuns σ] in
theorem kmemObjectAllocFromBlock_slot {address : Nat}
    (run : kmemObjectAllocFromBlock address heap = .ok (vaddr, after)) :
    ∃ slot ∈ (heap.blocks address).freeSlots, vaddr = slot + objectHeaderSize := by
  unfold kmemObjectAllocFromBlock at run
  dsimp only at run
  split at run
  · cases run
  next slot freeSlots first =>
    cases run
    rw [first]
    exact ⟨slot, List.mem_cons_self, rfl⟩

section
variable (sound : HeapSound heap) (known : manager ∈ heap.known)
  (run : kmemObjectAlloc hart manager heap = .ok (vaddr, after))
include sound known run

theorem HeapSound.alloc_cases :
    ∃ middle lock, after = middle.setManager manager { middle.managers manager with lock } ∧
      ((∃ block, heap.Has manager block ∧ kmemObjectAllocFromBlock block heap = .ok (vaddr, middle)) ∨
        (vaddr = 0 ∧ Refused heap middle) ∨
        ∃ block created, Carved manager (heap.managers manager).objectSize block heap created ∧
          kmemObjectAllocFromBlock block (created.setManager manager
            { heap.managers manager with blocks := block :: (heap.managers manager).blocks }) =
            .ok (vaddr, middle)) := by
  obtain ⟨rounded, bounded⟩ := sound.sizes manager known
  obtain ⟨_, _, run⟩ := Result.bind_ok run
  obtain ⟨⟨found, middle⟩, search, run⟩ := Result.bind_ok run
  obtain ⟨lock, _, run⟩ := Result.bind_ok run
  cases run
  refine ⟨middle, lock, rfl, ?_⟩
  dsimp only at search
  split at search
  next block first => exact .inl ⟨block, ⟨known, List.mem_of_find?_eq_some first⟩, search⟩
  next =>
    rw [sound.unit known] at search
    obtain ⟨⟨block, created⟩, create, search⟩ := Result.bind_ok search
    have ordered : ∀ sum, firstBlockOrder sum maxMemOrder 0 < maxMemOrder := fun _ => firstBlockOrder_lt (by decide)
    obtain ⟨_, _, createAgain, outcome⟩ :=
      @createSomeBlock_spec _ _ _ manager _ _ heap sound.sound rounded bounded (ordered _)
    cases createAgain.symm.trans create
    dsimp only at search
    rcases outcome with ⟨null, refused⟩ | ⟨notNull, carved⟩
    · rw [if_pos null] at search
      cases search
      exact .inr (.inl ⟨rfl, refused⟩)
    · rw [if_neg notNull] at search
      exact .inr (.inr ⟨block, created, carved, search⟩)

theorem HeapSound.alloc_unused {other object : Nat} (live : Live other object heap) : vaddr ≠ object := by
  obtain ⟨address, slot, has, allocated, rfl, _⟩ := live
  obtain ⟨middle, _, _, ⟨block, blockHas, take⟩ | ⟨null, _⟩ | ⟨block, created, carved, take⟩⟩ :=
    sound.alloc_cases known run
  · rintro rfl
    obtain ⟨free, isFree, same⟩ := kmemObjectAllocFromBlock_slot take
    obtain rfl : slot = free := Nat.add_right_cancel same
    obtain rfl := sound.slot_unique blockHas has (List.mem_append_left _ isFree) (List.mem_append_right _ allocated)
    exact (List.nodup_append.mp (sound.blocks has).nodup).2.2 slot isFree slot allocated rfl
  · rw [null]
    exact (Nat.succ_ne_zero _).symm
  · rintro rfl
    obtain ⟨free, isFree, same⟩ := kmemObjectAllocFromBlock_slot take
    obtain rfl : slot = free := Nat.add_right_cancel same
    obtain ⟨pageOrder, count, kmem, parentBlock, rfl, _, _, blockSound, fresh, _⟩ := carved
    simp only [ObjectHeap.setManager, ObjectHeap.setBlock, Function.update_self] at isFree
    -- the slot lies in pages that nobody had reserved
    refine Set.disjoint_left.mp fresh (blockSound.slot_mem_pages (List.mem_append_left _ isFree)) ?_
    exact sound.pages has ((sound.blocks has).slot_mem_pages (List.mem_append_right _ allocated))

end

omit [LawfulRuns σ] in
theorem kmemObjectAlloc_slot (some : ∃ block ∈ (heap.managers manager).blocks, (heap.blocks block).freeSlots ≠ [])
    (run : kmemObjectAlloc hart manager heap = .ok (vaddr, after)) : vaddr ≠ 0 ∧ after.kmem = heap.kmem := by
  obtain ⟨lock, acquired, run⟩ := Result.bind_ok run
  obtain ⟨⟨found, middle⟩, search, run⟩ := Result.bind_ok run
  rw [spinlockRelease_acquired acquired] at run
  cases run
  dsimp only at search
  split at search
  · obtain ⟨slot, _, rfl⟩ := kmemObjectAllocFromBlock_slot search
    have same : middle.kmem = heap.kmem := kmemObjectAllocFromBlock_kmem search
    exact ⟨Nat.succ_ne_zero _, same⟩
  next none =>
    obtain ⟨block, member, free⟩ := some
    exact absurd (by simpa using List.find?_eq_none.mp none block member) free

def freedSlot (address slot : Nat) (heap : ObjectHeap σ) : ObjectHeap σ :=
  heap.setBlock address
    { heap.blocks address with
      freeSlots := slot :: (heap.blocks address).freeSlots.erase slot
      allocatedSlots := (heap.blocks address).allocatedSlots.erase slot
      used := ulongSub (heap.blocks address).used 1 }

omit [PageAllocator σ] [LawfulRuns σ] in
theorem BlockSound.header_eq {parentBlock : Nat → Nat} {address slot : Nat} {block : ObjectBlock}
    (sound : BlockSound parentBlock manager address block) (member : slot ∈ block.slots) :
    ulongSub (slot + objectHeaderSize) objectHeaderSize = slot := by
  have inside := sound.slot_inside member
  have bounded := sound.bounded
  unfold ObjectBlock.unitSize at inside
  unfold ulongSub objectHeaderSize at *
  omega

theorem kmemObjectFree_steps (sound : HeapSound heap) (live : Live manager vaddr heap) :
    ∃ address slot, heap.Has manager address ∧ slot ∈ (heap.blocks address).allocatedSlots ∧
      vaddr = slot + objectHeaderSize ∧
      (∀ lock, HeapSound ((freedSlot address slot heap).setManager manager { heap.managers manager with lock })) ∧
      kmemObjectFree hart vaddr heap = (do
        let lock ← spinlockAcquire hart (heap.managers manager).lock
        let lock ← spinlockRelease hart lock
        return (freedSlot address slot heap).setManager manager { heap.managers manager with lock }) := by
  obtain ⟨address, slot, has, allocated, rfl, notRecord⟩ := live
  have blockSound := sound.blocks has
  have member : slot ∈ (heap.blocks address).slots := List.mem_append_right _ allocated
  have listed : ¬ (slot ∉ (heap.blocks address).freeSlots ∧ slot ∉ (heap.blocks address).allocatedSlots) :=
    fun absent => absent.2 allocated
  have freed : HeapSound (freedSlot address slot heap) :=
    sound.set_block has (blockSound.give allocated) rfl rfl (by
      intro other otherAllocated record
      refine (List.mem_erase_of_ne ?_).mpr otherAllocated
      rintro rfl
      exact notRecord record)
  refine ⟨address, slot, has, allocated, rfl, fun lock => freed.set_manager rfl rfl, ?_⟩
  rw [kmemObjectFree, blockSound.header_eq member, blockSound.parent slot member]
  dsimp only [freedSlot]
  rw [blockSound.ofManager]
  simp only [listed, if_false]

theorem HeapSound.free (sound : HeapSound heap) (live : Live manager vaddr heap)
    (run : kmemObjectFree hart vaddr heap = .ok after) : HeapSound after := by
  obtain ⟨_, _, _, _, _, finalSound, steps⟩ := @kmemObjectFree_steps _ _ _ heap hart _ _ sound live
  rw [steps] at run
  obtain ⟨_, _, run⟩ := Result.bind_ok run
  obtain ⟨lock, _, run⟩ := Result.bind_ok run
  cases run
  exact finalSound lock

theorem kmemObjectFree_returns (sound : HeapSound heap) (live : Live manager vaddr heap) {lock : Spinlock}
    (acquired : spinlockAcquire hart (heap.managers manager).lock = .ok lock) :
    ∃ after, kmemObjectFree hart vaddr heap = .ok after := by
  obtain ⟨_, _, _, _, _, _, steps⟩ := @kmemObjectFree_steps _ _ _ heap hart _ _ sound live
  rw [steps, acquired, Result.ok_bind, spinlockRelease_acquired acquired, Result.ok_bind]
  exact ⟨_, rfl⟩

theorem HeapSound.createManager {objectSize : Nat} {name : String} {memory : Memory}
    (sound : HeapSound heap) (small : objectSize ≤ 2 ^ 32)
    (run : kmemObjectCreateManager hart objectSize name memory heap = .ok (manager, after)) :
    HeapSound after ∧ manager ∈ after.known := by
  obtain ⟨⟨newMgr, middle⟩, alloc, run⟩ := Result.bind_ok run
  obtain ⟨middleSound, _, null | ⟨address, slot, has, allocated, rfl, isNew⟩⟩ :=
    sound.alloc List.mem_cons_self alloc
  · dsimp only at run
    rw [if_pos null] at run
    cases run
  · have notNull : slot + objectHeaderSize ≠ 0 := Nat.succ_ne_zero _
    dsimp only at run
    rw [if_neg notNull] at run
    cases run
    refine ⟨middleSound.add_manager has allocated isNew rfl ?_ ?_, List.mem_cons_of_mem _ List.mem_cons_self⟩
    · dsimp only
      rw [binaryRoundUp_eq (by omega)]
      unfold objectAlignment
      omega
    · dsimp only
      rw [binaryRoundUp_eq (by omega)]
      omega

theorem HeapStep.sound (sound : HeapSound heap) (step : HeapStep heap after) : HeapSound after := by
  cases step with
  | alloc known run => exact (sound.alloc known run).1
  | free live run => exact sound.free live run
  | createManager small run => exact (sound.createManager small run).1
  | others soundAfter kept => exact sound.set_kmem soundAfter kept

theorem HeapSound.holds (sound : HeapSound heap) : ObjectsHold heap where
  blocks manager address has := by
    have blockSound := sound.blocks has
    obtain ⟨rounded, small⟩ := sound.sizes manager has.1
    refine ⟨?_, blockSound.nodup, blockSound.total, blockSound.used, blockSound.parent, ?_,
      fun slot member => blockSound.slot_aligned member, fun slot member => blockSound.slot_inside member⟩
    · intro slot free allocated
      exact (List.nodup_append.mp blockSound.nodup).2.2 slot free slot allocated rfl
    · rw [sound.size has, binaryRoundUp_of_rounded (by omega) rounded]
  slots manager address other otherAddress has otherHas slot member otherSlot otherMember := by
    by_cases sameBlock : address = otherAddress
    · subst sameBlock
      by_cases same : slot = otherSlot
      · exact .inl ⟨rfl, same⟩
      · exact .inr ((sound.blocks has).slots_apart member otherMember same)
    · have inside := (sound.blocks has).slot_inside member
      have otherInside := (sound.blocks otherHas).slot_inside otherMember
      have apart := Set.Ico_disjoint_Ico.mp (sound.apart has otherHas sameBlock)
      unfold ObjectBlock.unitSize objectHeaderSize objectBlockSize at *
      omega
  never hart manager known panics := by
    cases acquired : spinlockAcquire hart (heap.managers manager).lock with
    | ok lock =>
      obtain ⟨_, _, returned, _⟩ := kmemObjectAlloc_spec sound known acquired
      cases returned.symm.trans panics
    | error stop =>
      have stops : kmemObjectAlloc hart manager heap = .error stop := by
        rw [kmemObjectAlloc]
        dsimp only
        rw [acquired]
        rfl
      cases stops.symm.trans panics
      unfold spinlockAcquire at acquired
      split at acquired
      · exact absurd (Stop.panic.inj (Except.error.inj acquired)) (by decide)
      · split at acquired <;> cases acquired

end

theorem kmemObjectInit_sound {heap : ObjectHeap σ} (sound : LawfulRuns.Sound heap.kmem)
    (noBlocks : (heap.managers rootManager).blocks = []) (noManagers : heap.managerList = []) :
    HeapSound (kmemObjectInit heap) := by
  have empty : ∀ {manager address}, ¬ (kmemObjectInit heap).Has manager address := by
    rintro manager address ⟨known, member⟩
    rw [ObjectHeap.known, show (kmemObjectInit heap).managerList = [] from noManagers, List.mem_singleton] at known
    subst known
    simp [kmemObjectInit, ObjectHeap.setManager, noBlocks] at member
  refine ⟨sound, ?_, fun has => absurd has empty, fun has => absurd has empty,
    fun has => absurd has empty, fun has => absurd has empty, ?_⟩
  · intro manager known
    rw [ObjectHeap.known, show (kmemObjectInit heap).managerList = [] from noManagers, List.mem_singleton] at known
    subst known
    simp only [kmemObjectInit, ObjectHeap.setManager, Function.update_self]
    decide
  · rw [show (kmemObjectInit heap).managerList = [] from noManagers]
    simp

theorem mem_run_bytes {first order address : Nat} :
    address ∈ Set.Ico (frameVa first) (frameVa first + 2 ^ (order + pageShift)) ↔
      ∃ frame, (first ≤ frame ∧ frame < first + 2 ^ order) ∧ address ∈ frameBytes frame := by
  rw [Nat.pow_add, show 2 ^ pageShift = 4096 by decide]
  simp only [Set.mem_Ico, frameBytes, frameVa, pageSize]
  constructor
  · rintro ⟨lower, upper⟩
    exact ⟨(address - vaKernelBegin) / 4096, by omega, by omega, by omega⟩
  · rintro ⟨frame, bounds, lower, upper⟩
    omega

/-- The addresses of the frames in use; RAM ends before the last blocks of the direct map. -/
instance : LawfulRuns Kmem where
  Sound kmem := BuddySound kmem ∧ kmem.beginPpn + kmem.numPpn + 2 ^ maxMemOrder ≤ 2 ^ 26
  reserved kmem := { address | ∃ frame ∈ usedFrames kmem, address ∈ frameBytes frame }
  alloc {order kmem} sound small := by
    obtain ⟨buddy, below⟩ := sound
    have returns : ∃ vaddr after, kmemAllocPages order kmem = .ok (vaddr, after) := by
      rcases buddy.kmemAllocPages small with refused | ⟨start, after, granted, _⟩
      · exact ⟨_, _, refused⟩
      · exact ⟨_, _, granted⟩
    obtain ⟨vaddr, after, run⟩ := returns
    have same : SameFrame kmem after := (kmemAllocPages_shrinks buddy run).frame
    obtain ⟨afterSound, _, outcome⟩ := buddy.allocPages run
    refine ⟨vaddr, after, run, ⟨afterSound, by rwa [same.beginPpn, same.numPpn]⟩, ?_⟩
    rcases outcome with ⟨null, sameUse⟩ | ⟨first, rfl, unused, used⟩
    · exact .inl ⟨null, by rw [sameUse]⟩
    have positive : 0 < 2 ^ order := Nat.two_pow_pos order
    have power : 2 ^ order ≤ 2 ^ maxMemOrder := Nat.pow_le_pow_right (by decide) (Nat.le_of_lt small)
    have last := (unused (2 ^ order - 1) (by omega)).2.1.2
    refine .inr ⟨frameVa_ne_zero first, ?_, ?_, ?_, ?_⟩
    · unfold frameVa vaKernelBegin pageSize
      omega
    · rw [Nat.pow_add, show 2 ^ pageShift = 4096 by decide]
      unfold frameVa vaKernelBegin pageSize
      omega
    · refine Set.disjoint_left.mpr fun address inRun inUse => ?_
      obtain ⟨frame, bounds, inFrame⟩ := mem_run_bytes.mp inRun
      obtain ⟨other, otherUsed, inOther⟩ := inUse
      obtain rfl := frameBytes_unique inFrame inOther
      have clear := (unused (frame - first) (by omega)).2.2
      rw [Nat.add_sub_cancel' bounds.1] at clear
      exact clear otherUsed
    · ext address
      rw [Set.mem_union, mem_run_bytes, used]
      constructor
      · rintro ⟨frame, old | new, inFrame⟩
        · exact .inl ⟨frame, old, inFrame⟩
        · exact .inr ⟨frame, new, inFrame⟩
      · rintro (⟨frame, old, inFrame⟩ | ⟨frame, new, inFrame⟩)
        · exact ⟨frame, .inl old, inFrame⟩
        · exact ⟨frame, .inr new, inFrame⟩

theorem object_runs_hold {start heap : ObjectHeap σ} (sound : LawfulRuns.Sound start.kmem)
    (noBlocks : (start.managers rootManager).blocks = []) (noManagers : start.managerList = [])
    (run : Relation.ReflTransGen HeapStep (kmemObjectInit start) heap) : ObjectsHold heap :=
  (run_preserves HeapSound (fun _ _ sound step => step.sound sound)
    (kmemObjectInit_sound sound noBlocks noManagers) run).holds

theorem sixteen_pages_lawful : ∃ kmem node memory,
      kmemPageManagerInit (smallNode 16 0) (fun _ => 0) = .ok (kmem, node, memory) ∧
      LawfulRuns.Sound kmem := by
  obtain ⟨kmem, node, memory, boot, buddy, begins, counts, _⟩ := sixteen_pages_sound
  refine ⟨kmem, node, memory, boot, buddy, ?_⟩
  rw [begins, counts]
  decide

/-- The first object on a board with sixteen pages of RAM at 0x80000000. -/
theorem object_runs_hold_first_object : ∃ (kmem : Kmem) (heap : ObjectHeap Kmem) (vaddr : Nat),
      LawfulRuns.Sound kmem ∧
      kmemObjectAlloc 1 rootManager (kmemObjectInit (emptyHeap kmem)) = .ok (vaddr, heap) ∧
      vaddr ≠ 0 ∧ ObjectsHold heap := by
  obtain ⟨kmem, _, _, boot, sound⟩ := sixteen_pages_lawful
  obtain ⟨_, again, ⟨vaddr, heap⟩, run, notNull⟩ :
      ∃ boot, kmemPageManagerInit (smallNode 16 0) (fun _ => 0) = .ok boot ∧
        ∃ object, kmemObjectAlloc 1 rootManager (kmemObjectInit (emptyHeap boot.1)) = .ok object ∧
          object.1 ≠ 0 := by decide +kernel
  cases boot.symm.trans again
  have step : HeapStep (kmemObjectInit (emptyHeap kmem)) heap := .alloc List.mem_cons_self run
  exact ⟨kmem, heap, vaddr, sound, run, notNull,
    @object_runs_hold _ _ _ (emptyHeap kmem) heap sound rfl rfl (.single step)⟩

/-- Two pages of RAM at the end of the direct map, one of them taken by the maps: the end of the
other is 2 ^ 64, which is 0 in a `ulong`, so the first block holds no slot. -/
theorem kmemObjectAlloc_panics_at_top : ∃ (kmem : Kmem) (node : BootmemNode) (memory : Memory),
      kmemPageManagerInit ⟨2 ^ 26 - 2, 2, 0, fun _ => 0, 1, 0, 0⟩ (fun _ => 0) = .ok (kmem, node, memory) ∧
      BuddySound kmem ∧
      kmemObjectAlloc 1 rootManager (kmemObjectInit (emptyHeap kmem)) =
        .error (.panic "kmem_object_alloc_from_block - no slots available") := by
  obtain ⟨kmem, node, memory, boot, tiled, paired, _⟩ :=
    @kmemPageManagerInit_spec ⟨2 ^ 26 - 2, 2, 0, fun _ => 0, 1, 0, 0⟩ (fun _ => 0) (by decide)
  obtain ⟨_, again, panics⟩ :
      ∃ boot, kmemPageManagerInit ⟨2 ^ 26 - 2, 2, 0, fun _ => 0, 1, 0, 0⟩ (fun _ => 0) = .ok boot ∧
        kmemObjectAlloc 1 rootManager (kmemObjectInit (emptyHeap boot.1)) =
          .error (.panic "kmem_object_alloc_from_block - no slots available") := by decide +kernel
  cases boot.symm.trans again
  exact ⟨kmem, node, memory, boot, ⟨tiled, paired⟩, panics⟩

end Kalorona.Memory
