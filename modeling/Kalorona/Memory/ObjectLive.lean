import Kalorona.Memory.ObjectRuns

namespace Kalorona.Memory

open Kalorona.Data Kalorona.Utilities

/-! # Live objects

An object stays live until it is freed itself, whatever is allocated and freed meanwhile.
-/

variable {σ : Type}

/-- Nothing that was live is lost. -/
structure Grows (heap after : ObjectHeap σ) : Prop where
  list : after.managerList = heap.managerList
  has : ∀ {manager address}, heap.Has manager address → after.Has manager address
  slots : ∀ {manager address}, heap.Has manager address →
    (heap.blocks address).allocatedSlots ⊆ (after.blocks address).allocatedSlots

section
variable {heap middle after : ObjectHeap σ} {manager address vaddr object : Nat}

theorem Grows.trans (first : Grows heap middle) (second : Grows middle after) : Grows heap after :=
  ⟨second.list.trans first.list, fun has => second.has (first.has has),
    fun has => List.Subset.trans (first.slots has) (second.slots (first.has has))⟩

theorem Grows.live (grows : Grows heap after) (live : Live manager object heap) : Live manager object after := by
  obtain ⟨address, slot, has, allocated, rfl, notRecord⟩ := live
  exact ⟨address, slot, grows.has has, grows.slots has allocated, rfl, grows.list ▸ notRecord⟩

theorem Grows.setManager {record : ObjectManager} (kept : (heap.managers manager).blocks ⊆ record.blocks) :
    Grows heap (heap.setManager manager record) := by
  refine ⟨rfl, ?_, fun _ => List.Subset.refl _⟩
  rintro other address ⟨known, member⟩
  refine ⟨known, ?_⟩
  by_cases same : other = manager
  · subst same
    simpa [ObjectHeap.setManager] using kept member
  · simpa [ObjectHeap.setManager, same] using member

theorem kmemObjectAllocFromBlock_grows (run : kmemObjectAllocFromBlock address heap = .ok (vaddr, after)) :
    Grows heap after := by
  unfold kmemObjectAllocFromBlock at run
  dsimp only at run
  split at run <;> cases run
  refine ⟨rfl, id, fun {_ other} _ slot allocated => ?_⟩
  by_cases same : other = address
  · subst same
    simpa [ObjectHeap.setBlock] using .inr allocated
  · simpa [ObjectHeap.setBlock, same] using allocated

end

variable [PageAllocator σ] [LawfulRuns σ]

section
variable {heap after : ObjectHeap σ} {hart manager vaddr object : Nat}

section
variable (sound : HeapSound heap)
include sound

theorem Carved.grows {size block : Nat} (carved : Carved manager size block heap after) : Grows heap after := by
  obtain ⟨pageOrder, count, kmem, parentBlock, rfl, _, _, blockSound, fresh, _⟩ := carved
  refine ⟨rfl, id, fun {_ other} has slot allocated => ?_⟩
  have different : other ≠ block := by
    rintro rfl
    exact Set.disjoint_left.mp fresh blockSound.address_mem (sound.pages has (sound.blocks has).address_mem)
  simpa [ObjectHeap.setBlock, different] using allocated

theorem kmemObjectAlloc_grows (known : manager ∈ heap.known)
    (run : kmemObjectAlloc hart manager heap = .ok (vaddr, after)) : Grows heap after := by
  obtain ⟨middle, lock, rfl, outcome⟩ := sound.alloc_cases known run
  have middleGrows : Grows heap middle := by
    rcases outcome with ⟨block, _, take⟩ | ⟨_, kmem, rfl, _⟩ | ⟨block, created, carved, take⟩
    · exact kmemObjectAllocFromBlock_grows take
    · exact ⟨rfl, id, fun _ => List.Subset.refl _⟩
    · have managers : created.managers = heap.managers := by
        obtain ⟨_, _, _, _, rfl, _⟩ := carved
        rfl
      refine ((carved.grows sound).trans (Grows.setManager ?_)).trans (kmemObjectAllocFromBlock_grows take)
      rw [managers]
      exact List.subset_cons_self ..
  exact middleGrows.trans (Grows.setManager (List.Subset.refl _))

theorem kmemObjectCreateManager_managerList {objectSize newMgr : Nat} {name : String} {memory : Memory}
    (run : kmemObjectCreateManager hart objectSize name memory heap = .ok (newMgr, after)) :
    heap.managerList ⊆ after.managerList := by
  obtain ⟨⟨record, middle⟩, alloc, run⟩ := Result.bind_ok run
  have list := (sound.alloc List.mem_cons_self alloc).2.1
  dsimp only at run
  split at run <;> cases run
  rw [← list]
  exact List.subset_cons_self ..

theorem Live.createManager {objectSize newMgr : Nat} {name : String} {memory : Memory}
    (live : Live manager object heap)
    (run : kmemObjectCreateManager hart objectSize name memory heap = .ok (newMgr, after)) :
    Live manager object after := by
  obtain ⟨⟨record, middle⟩, alloc, run⟩ := Result.bind_ok run
  have unused := sound.alloc_unused List.mem_cons_self alloc live
  obtain ⟨address, slot, has, allocated, rfl, notRecord⟩ :=
    (kmemObjectAlloc_grows sound List.mem_cons_self alloc).live live
  dsimp only at run
  by_cases null : record = 0
  · rw [if_pos null] at run
    cases run
  · rw [if_neg null] at run
    cases run
    -- the record of the new manager was no manager before
    have isNew : newMgr ∉ middle.managerList := by
      obtain ⟨_, _, null' | ⟨_, _, _, _, _, isNew⟩⟩ := sound.alloc List.mem_cons_self alloc
      · exact absurd null' null
      · exact isNew
    have different : manager ≠ newMgr := by
      rintro rfl
      rcases List.mem_cons.mp has.1 with isRoot | listed
      · exact null isRoot
      · exact isNew listed
    refine ⟨address, slot, ⟨?_, ?_⟩, allocated, rfl, ?_⟩
    · exact List.mem_cons.mpr ((List.mem_cons.mp has.1).imp_right (List.mem_cons_of_mem _))
    · simpa [ObjectHeap.setManager, different] using has.2
    · intro member
      rcases List.mem_cons.mp member with same | listed
      · exact unused same.symm
      · exact notRecord listed

theorem Live.free {other : Nat} (live : Live manager object heap)
    (freed : Live other vaddr heap) (different : object ≠ vaddr)
    (run : kmemObjectFree hart vaddr heap = .ok after) : Live manager object after := by
  obtain ⟨address, slot, has, _, rfl, _, steps⟩ := @kmemObjectFree_steps _ _ _ heap hart _ _ sound freed
  rw [steps] at run
  obtain ⟨_, _, run⟩ := Result.bind_ok run
  obtain ⟨lock, _, run⟩ := Result.bind_ok run
  cases run
  obtain ⟨place, kept, placeHas, allocated, rfl, notRecord⟩ := live
  have slots : kept ≠ slot := fun same => different (by rw [same])
  have managers : Grows (freedSlot address slot heap)
      ((freedSlot address slot heap).setManager other { heap.managers other with lock }) :=
    Grows.setManager (List.Subset.refl _)
  refine ⟨place, kept, managers.has placeHas, ?_, rfl, notRecord⟩
  by_cases same : place = address
  · subst same
    simpa [ObjectHeap.setManager, freedSlot, ObjectHeap.setBlock] using (List.mem_erase_of_ne slots).mpr allocated
  · simpa [ObjectHeap.setManager, freedSlot, ObjectHeap.setBlock, same] using allocated

theorem Live.manager_unique {other : Nat} (live : Live manager object heap)
    (otherLive : Live other object heap) : manager = other := by
  obtain ⟨address, slot, has, allocated, rfl, _⟩ := live
  obtain ⟨otherAddress, otherSlot, otherHas, otherAllocated, same, _⟩ := otherLive
  obtain rfl : slot = otherSlot := Nat.add_right_cancel same
  obtain rfl := sound.slot_unique has otherHas (List.mem_append_right _ allocated)
    (List.mem_append_right _ otherAllocated)
  exact (sound.blocks has).ofManager.symm.trans (sound.blocks otherHas).ofManager

end

end

end Kalorona.Memory
