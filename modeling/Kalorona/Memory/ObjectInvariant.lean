import Kalorona.Memory.Kmem
import Mathlib.Data.List.Nodup
import Mathlib.Order.Interval.Set.Disjoint

namespace Kalorona.Memory

open Kalorona.Data Kalorona.Utilities

/-! # What the blocks of the object allocator keep

The slots of a block lie side by side behind its structure, and a new block lies in pages that no
other block has.
-/

/-- An allocator of runs of pages, seen through the addresses that it has handed out.  A run ends
at least its own length below the end of the address space. -/
class LawfulRuns (σ : Type) [PageAllocator σ] where
  Sound : σ → Prop
  reserved : σ → Set Nat
  alloc : ∀ {order : Nat} {pages : σ}, Sound pages → order < maxMemOrder →
    ∃ vaddr after, allocPages order pages = .ok (vaddr, after) ∧ Sound after ∧
      ((vaddr = 0 ∧ reserved after = reserved pages) ∨
        (vaddr ≠ 0 ∧ vaddr % pageSize = 0 ∧ vaddr + 2 * 2 ^ (order + pageShift) ≤ 2 ^ 64 ∧
          Disjoint (Set.Ico vaddr (vaddr + 2 ^ (order + pageShift))) (reserved pages) ∧
          reserved after = reserved pages ∪ Set.Ico vaddr (vaddr + 2 ^ (order + pageShift))))

open LawfulRuns (reserved)

namespace ObjectBlock

def slots (block : ObjectBlock) : List Nat := block.freeSlots ++ block.allocatedSlots

def unitSize (block : ObjectBlock) : Nat := objectHeaderSize + block.objectSize

def pages (block : ObjectBlock) (address : Nat) : Set Nat :=
  Set.Ico address (address + block.pageCount * pageSize)

end ObjectBlock

/-- The slots of a block are those that fit behind its header, each free or allocated. -/
structure BlockSound (parentBlock : Nat → Nat) (manager address : Nat) (block : ObjectBlock) :
    Prop where
  nodup : block.slots.Nodup
  total : block.slots.length = block.total
  used : block.used = block.allocatedSlots.length
  parent : ∀ slot ∈ block.slots, parentBlock slot = address
  place : ∀ slot ∈ block.slots, ∃ index < block.total,
    slot = address + objectBlockSize + index * block.unitSize
  fits : objectBlockSize + block.total * block.unitSize ≤ block.pageCount * pageSize
  rounded : block.objectSize % objectAlignment = 0
  aligned : address % pageSize = 0
  bounded : address + block.pageCount * pageSize ≤ 2 ^ 64
  ofManager : block.parentManager = manager

section
variable {parentBlock : Nat → Nat} {manager address slot other : Nat} {block : ObjectBlock}

section
variable (sound : BlockSound parentBlock manager address block)
include sound

theorem BlockSound.slot_inside (member : slot ∈ block.slots) : address + objectBlockSize ≤ slot ∧
      slot + block.unitSize ≤ address + block.pageCount * pageSize := by
  obtain ⟨index, bound, rfl⟩ := sound.place slot member
  have step : (index + 1) * block.unitSize ≤ block.total * block.unitSize := Nat.mul_le_mul_right _ bound
  have fits := sound.fits
  rw [Nat.succ_mul] at step
  omega

theorem BlockSound.slots_apart
    (member : slot ∈ block.slots) (otherMember : other ∈ block.slots) (different : slot ≠ other) :
    slot + block.unitSize ≤ other ∨ other + block.unitSize ≤ slot := by
  obtain ⟨index, _, rfl⟩ := sound.place slot member
  obtain ⟨otherIndex, _, rfl⟩ := sound.place other otherMember
  rcases Nat.lt_trichotomy index otherIndex with before | same | after
  · have step : (index + 1) * block.unitSize ≤ otherIndex * block.unitSize := Nat.mul_le_mul_right _ before
    rw [Nat.succ_mul] at step
    omega
  · exact absurd (by rw [same]) different
  · have step : (otherIndex + 1) * block.unitSize ≤ index * block.unitSize := Nat.mul_le_mul_right _ after
    rw [Nat.succ_mul] at step
    omega

theorem BlockSound.slot_aligned (member : slot ∈ block.slots) : slot % objectAlignment = 0 := by
  obtain ⟨index, _, rfl⟩ := sound.place slot member
  have unit : objectAlignment ∣ block.unitSize := Nat.dvd_add (by decide) (Nat.dvd_of_mod_eq_zero sound.rounded)
  have base : objectAlignment ∣ address :=
    (show objectAlignment ∣ pageSize by decide).trans (Nat.dvd_of_mod_eq_zero sound.aligned)
  exact Nat.mod_eq_zero_of_dvd (Nat.dvd_add (Nat.dvd_add base (by decide)) (Dvd.dvd.mul_left unit index))

theorem BlockSound.address_mem : address ∈ block.pages address := by
  have fits := sound.fits
  refine ⟨Nat.le_refl _, ?_⟩
  unfold objectBlockSize at fits
  omega

theorem BlockSound.slot_mem_pages (member : slot ∈ block.slots) : slot ∈ block.pages address := by
  have inside := sound.slot_inside member
  unfold ObjectBlock.unitSize objectHeaderSize at inside
  exact ⟨by omega, by omega⟩

theorem BlockSound.total_lt : block.total < 2 ^ 64 := by
  have fits := sound.fits
  have bounded := sound.bounded
  have step : block.total * 24 ≤ block.total * block.unitSize := Nat.mul_le_mul_left _ (Nat.le_add_right ..)
  unfold objectBlockSize at fits
  omega

theorem BlockSound.move {freeSlots allocatedSlots : List Nat} {used : Nat}
    (moved : (freeSlots ++ allocatedSlots).Perm block.slots) (counted : used = allocatedSlots.length) :
    BlockSound parentBlock manager address { block with freeSlots, allocatedSlots, used } where
  nodup := moved.nodup_iff.mpr sound.nodup
  total := moved.length_eq.trans sound.total
  used := counted
  parent slot member := sound.parent slot (moved.mem_iff.mp member)
  place slot member := sound.place slot (moved.mem_iff.mp member)
  fits := sound.fits
  rounded := sound.rounded
  aligned := sound.aligned
  bounded := sound.bounded
  ofManager := sound.ofManager

theorem BlockSound.take {freeSlots : List Nat}
    (first : block.freeSlots = slot :: freeSlots) : BlockSound parentBlock manager address
      { block with freeSlots, allocatedSlots := slot :: block.allocatedSlots, used := block.used + 1 } := by
  refine sound.move ?_ ?_
  · rw [ObjectBlock.slots, first]
    exact List.perm_middle
  · rw [sound.used, List.length_cons]

theorem BlockSound.give
    (allocated : slot ∈ block.allocatedSlots) : BlockSound parentBlock manager address { block with
        freeSlots := slot :: block.freeSlots.erase slot
        allocatedSlots := block.allocatedSlots.erase slot
        used := ulongSub block.used 1 } := by
  have notFree : slot ∉ block.freeSlots := fun free =>
    (List.nodup_append.mp sound.nodup).2.2 slot free slot allocated rfl
  have positive : 0 < block.allocatedSlots.length := List.length_pos_of_mem allocated
  refine sound.move ?_ ?_
  · rw [List.erase_of_not_mem notFree]
    exact List.perm_middle.symm.trans ((List.perm_cons_erase allocated).symm.append_left _)
  · have short : block.allocatedSlots.length ≤ block.total := by
      rw [← sound.total, ObjectBlock.slots, List.length_append]
      omega
    have bounded := sound.total_lt
    rw [sound.used, ulongSub_of_le (by omega) (by omega), List.length_erase_of_mem allocated]

end

end

variable {σ : Type}

namespace ObjectHeap

def known (heap : ObjectHeap σ) : List Nat := rootManager :: heap.managerList

def Has (heap : ObjectHeap σ) (manager address : Nat) : Prop :=
  manager ∈ heap.known ∧ address ∈ (heap.managers manager).blocks

end ObjectHeap

variable [PageAllocator σ] [LawfulRuns σ]

/-- Every block is well formed, lies on pages of its own that are reserved, and managers are
objects of the root. -/
structure HeapSound (heap : ObjectHeap σ) : Prop where
  sound : LawfulRuns.Sound heap.kmem
  sizes : ∀ manager ∈ heap.known, (heap.managers manager).objectSize % objectAlignment = 0 ∧
    (heap.managers manager).objectSize ≤ 2 ^ 32
  blocks : ∀ {manager address}, heap.Has manager address →
    BlockSound heap.parentBlock manager address (heap.blocks address)
  size : ∀ {manager address}, heap.Has manager address →
    (heap.blocks address).objectSize = (heap.managers manager).objectSize
  pages : ∀ {manager address}, heap.Has manager address →
    (heap.blocks address).pages address ⊆ reserved heap.kmem
  apart : ∀ {manager address other otherAddress}, heap.Has manager address →
    heap.Has other otherAddress → address ≠ otherAddress →
    Disjoint ((heap.blocks address).pages address) ((heap.blocks otherAddress).pages otherAddress)
  records : ∀ manager ∈ heap.managerList, ∃ address slot, heap.Has rootManager address ∧
    slot ∈ (heap.blocks address).allocatedSlots ∧ manager = slot + objectHeaderSize

section
variable {heap after : ObjectHeap σ} {manager address slot : Nat}

section
variable (sound : HeapSound heap)
include sound

theorem HeapSound.unit (known : manager ∈ heap.known) :
    ulong ((heap.managers manager).objectSize + objectHeaderSize) =
      (heap.managers manager).objectSize + objectHeaderSize := by
  have bounded := (sound.sizes manager known).2
  exact ulong_of_lt (by unfold objectHeaderSize; omega)

theorem HeapSound.slot_unique {other otherAddress : Nat}
    (has : heap.Has manager address) (otherHas : heap.Has other otherAddress)
    (member : slot ∈ (heap.blocks address).slots) (otherMember : slot ∈ (heap.blocks otherAddress).slots) :
    address = otherAddress := by
  by_contra different
  exact Set.disjoint_left.mp (sound.apart has otherHas different)
    ((sound.blocks has).slot_mem_pages member) ((sound.blocks otherHas).slot_mem_pages otherMember)

theorem HeapSound.free_not_record (has : heap.Has manager address)
    (free : slot ∈ (heap.blocks address).freeSlots) : slot + objectHeaderSize ∉ heap.managerList := by
  intro member
  obtain ⟨other, otherSlot, otherHas, allocated, same⟩ := sound.records _ member
  obtain rfl : slot = otherSlot := Nat.add_right_cancel same
  obtain rfl := sound.slot_unique has otherHas (List.mem_append_left _ free) (List.mem_append_right _ allocated)
  exact (List.nodup_append.mp (sound.blocks has).nodup).2.2 slot free slot allocated rfl

theorem HeapSound.set_kmem {kmem : σ} (soundAfter : LawfulRuns.Sound kmem)
    (kept : ∀ manager address, heap.Has manager address →
      (heap.blocks address).pages address ⊆ reserved kmem) : HeapSound { heap with kmem } :=
  ⟨soundAfter, sound.sizes, sound.blocks, sound.size, fun {manager address} has => kept manager address has,
    sound.apart, sound.records⟩

theorem HeapSound.set_manager {record : ObjectManager}
    (sameSize : record.objectSize = (heap.managers manager).objectSize)
    (sameBlocks : record.blocks = (heap.managers manager).blocks) : HeapSound (heap.setManager manager record) := by
  have size : ∀ other, ((heap.setManager manager record).managers other).objectSize =
      (heap.managers other).objectSize := by
    intro other
    by_cases same : other = manager
    · subst same
      simp [ObjectHeap.setManager, sameSize]
    · simp [ObjectHeap.setManager, same]
  have blocks : ∀ other, ((heap.setManager manager record).managers other).blocks =
      (heap.managers other).blocks := by
    intro other
    by_cases same : other = manager
    · subst same
      simp [ObjectHeap.setManager, sameBlocks]
    · simp [ObjectHeap.setManager, same]
  have has : ∀ {other address}, (heap.setManager manager record).Has other address → heap.Has other address := by
    rintro other address ⟨known, member⟩
    rw [blocks] at member
    exact ⟨known, member⟩
  refine ⟨sound.sound, ?_, fun here => sound.blocks (has here), ?_, fun here => sound.pages (has here),
    fun here there => sound.apart (has here) (has there), ?_⟩
  · intro other known
    rw [size]
    exact sound.sizes other known
  · intro other address here
    rw [size]
    exact sound.size (has here)
  · intro other member
    obtain ⟨address, slot, ⟨known, inBlocks⟩, rest⟩ := sound.records other member
    refine ⟨address, slot, ⟨known, ?_⟩, rest⟩
    rwa [blocks]

theorem HeapSound.set_block {block : ObjectBlock}
    (has : heap.Has manager address) (blockSound : BlockSound heap.parentBlock manager address block)
    (sameSize : block.objectSize = (heap.blocks address).objectSize)
    (samePages : block.pageCount = (heap.blocks address).pageCount)
    (kept : ∀ slot ∈ (heap.blocks address).allocatedSlots, slot + objectHeaderSize ∈ heap.managerList →
      slot ∈ block.allocatedSlots) : HeapSound (heap.setBlock address block) := by
  have pages : ∀ other, ((heap.setBlock address block).blocks other).pages other =
      (heap.blocks other).pages other := by
    intro other
    by_cases same : other = address
    · subst same
      simp [ObjectHeap.setBlock, ObjectBlock.pages, samePages]
    · simp [ObjectHeap.setBlock, same]
  refine ⟨sound.sound, sound.sizes, ?_, ?_, ?_, ?_, ?_⟩
  · intro other otherAddress here
    by_cases same : otherAddress = address
    · subst same
      have owner : other = manager :=
        (sound.blocks (show heap.Has other otherAddress from here)).ofManager.symm.trans
          (sound.blocks has).ofManager
      subst owner
      simpa [ObjectHeap.setBlock] using blockSound
    · simpa [ObjectHeap.setBlock, same] using sound.blocks here
  · intro other otherAddress here
    by_cases same : otherAddress = address
    · subst same
      simpa [ObjectHeap.setBlock, sameSize] using sound.size here
    · simpa [ObjectHeap.setBlock, same] using sound.size here
  · intro other otherAddress here
    rw [pages]
    exact sound.pages here
  · intro one oneAddress two twoAddress here there different
    rw [pages, pages]
    exact sound.apart here there different
  · intro other member
    obtain ⟨otherAddress, slot, otherHas, allocated, rfl⟩ := sound.records other member
    refine ⟨otherAddress, slot, otherHas, ?_, rfl⟩
    by_cases same : otherAddress = address
    · subst same
      simpa [ObjectHeap.setBlock] using kept slot allocated member
    · simpa [ObjectHeap.setBlock, same] using allocated

end

/-- The heap with a new block of `manager`. -/
structure Attached (manager address : Nat) (block : ObjectBlock) (heap final : ObjectHeap σ) : Prop where
  list : final.managerList = heap.managerList
  size : ∀ other, (final.managers other).objectSize = (heap.managers other).objectSize
  old : ∀ other, other ≠ address → final.blocks other = heap.blocks other
  new : final.blocks address = block
  has_iff : ∀ {other otherAddress}, final.Has other otherAddress ↔
    (other = manager ∧ otherAddress = address) ∨ heap.Has other otherAddress

omit [PageAllocator σ] [LawfulRuns σ] in
theorem attached_front {block : ObjectBlock} {kmem : σ} {parentBlock : Nat → Nat} (known : manager ∈ heap.known) :
    Attached manager address block heap (({ heap with kmem, parentBlock }.setBlock address block).setManager manager
        { heap.managers manager with blocks := address :: (heap.managers manager).blocks }) := by
  refine ⟨rfl, fun other => ?_, fun other different => ?_, ?_, fun {other otherAddress} => ?_⟩
  · by_cases same : other = manager
    · subst same
      simp [ObjectHeap.setManager]
    · simp [ObjectHeap.setManager, ObjectHeap.setBlock, same]
  · simp [ObjectHeap.setManager, ObjectHeap.setBlock, different]
  · simp [ObjectHeap.setManager, ObjectHeap.setBlock]
  · show other ∈ heap.known ∧ _ ↔ _
    by_cases same : other = manager
    · subst same
      simp [ObjectHeap.setManager, ObjectHeap.Has, known]
    · simp [ObjectHeap.setManager, ObjectHeap.setBlock, ObjectHeap.Has, same]

theorem HeapSound.add_block (sound : HeapSound heap) (known : manager ∈ heap.known)
    {block : ObjectBlock} {kmem : σ} {parentBlock : Nat → Nat}
    (blockSound : BlockSound parentBlock manager address block)
    (sameSize : block.objectSize = (heap.managers manager).objectSize) (soundAfter : LawfulRuns.Sound kmem)
    (fresh : Disjoint (block.pages address) (reserved heap.kmem))
    (grown : reserved kmem = reserved heap.kmem ∪ block.pages address)
    (sameParents : ∀ header ∈ reserved heap.kmem, parentBlock header = heap.parentBlock header) :
    HeapSound (({ heap with kmem, parentBlock }.setBlock address block).setManager manager
      { heap.managers manager with blocks := address :: (heap.managers manager).blocks }) := by
  have attached := @attached_front _ heap manager address block kmem parentBlock known
  generalize finalEq : ({ heap with kmem, parentBlock }.setBlock address block).setManager manager
    { heap.managers manager with blocks := address :: (heap.managers manager).blocks } = final at attached ⊢
  have kmemEq : final.kmem = kmem := by rw [← finalEq]; rfl
  have parentEq : final.parentBlock = parentBlock := by rw [← finalEq]; rfl
  -- an old block keeps its record: its address is reserved, the new one was not
  have old : ∀ {other otherAddress}, heap.Has other otherAddress →
      final.blocks otherAddress = heap.blocks otherAddress := by
    intro other otherAddress has
    refine attached.old otherAddress ?_
    rintro rfl
    exact Set.disjoint_left.mp fresh blockSound.address_mem (sound.pages has (sound.blocks has).address_mem)
  refine ⟨by rwa [kmemEq], ?_, ?_, ?_, ?_, ?_, ?_⟩
  · intro other otherKnown
    rw [ObjectHeap.known, attached.list] at otherKnown
    rw [attached.size]
    exact sound.sizes other otherKnown
  · intro other otherAddress here
    rw [parentEq]
    rcases attached.has_iff.mp here with ⟨rfl, rfl⟩ | has
    · rwa [attached.new]
    · rw [old has]
      have blockOld := sound.blocks has
      refine { blockOld with parent := fun slot member => ?_ }
      rw [sameParents slot (sound.pages has (blockOld.slot_mem_pages member))]
      exact blockOld.parent slot member
  · intro other otherAddress here
    rw [attached.size]
    rcases attached.has_iff.mp here with ⟨rfl, rfl⟩ | has
    · rw [attached.new, sameSize]
    · rw [old has]
      exact sound.size has
  · intro other otherAddress here
    rw [kmemEq, grown]
    rcases attached.has_iff.mp here with ⟨rfl, rfl⟩ | has
    · rw [attached.new]
      exact Set.subset_union_right
    · rw [old has]
      exact (sound.pages has).trans Set.subset_union_left
  · intro one oneAddress two twoAddress here there different
    rcases attached.has_iff.mp here with ⟨rfl, rfl⟩ | has <;>
      rcases attached.has_iff.mp there with ⟨rfl, rfl⟩ | otherHas
    · exact absurd rfl different
    · rw [attached.new, old otherHas]
      exact fresh.mono_right (sound.pages otherHas)
    · rw [attached.new, old has]
      exact fresh.symm.mono_left (sound.pages has)
    · rw [old has, old otherHas]
      exact sound.apart has otherHas different
  · intro other member
    rw [attached.list] at member
    obtain ⟨otherAddress, slot, has, allocated, same⟩ := sound.records other member
    exact ⟨otherAddress, slot, attached.has_iff.mpr (.inr has), by rwa [old has], same⟩

theorem HeapSound.add_manager (sound : HeapSound heap) {record : ObjectManager}
    (has : heap.Has rootManager address) (allocated : slot ∈ (heap.blocks address).allocatedSlots)
    (isNew : slot + objectHeaderSize ∉ heap.managerList) (noBlocks : record.blocks = [])
    (rounded : record.objectSize % objectAlignment = 0) (small : record.objectSize ≤ 2 ^ 32) :
    HeapSound { heap.setManager (slot + objectHeaderSize) record with
      managerList := (slot + objectHeaderSize) :: heap.managerList } := by
  generalize finalEq : ({ heap.setManager (slot + objectHeaderSize) record with
    managerList := (slot + objectHeaderSize) :: heap.managerList } : ObjectHeap σ) = final
  have blocksEq : final.blocks = heap.blocks := by rw [← finalEq]; rfl
  have listEq : final.managerList = (slot + objectHeaderSize) :: heap.managerList := by rw [← finalEq]
  have notRoot : rootManager ≠ slot + objectHeaderSize := (Nat.succ_ne_zero _).symm
  have new : final.managers (slot + objectHeaderSize) = record := by
    rw [← finalEq]
    simp [ObjectHeap.setManager]
  have old : ∀ other ∈ heap.known, final.managers other = heap.managers other := by
    intro other known
    have different : other ≠ slot + objectHeaderSize := by
      rcases List.mem_cons.mp known with rfl | member
      · exact notRoot
      · rintro rfl
        exact isNew member
    rw [← finalEq]
    simp [ObjectHeap.setManager, different]
  have knownSplit : ∀ other ∈ final.known, other = slot + objectHeaderSize ∨ other ∈ heap.known := by
    intro other known
    rw [ObjectHeap.known, listEq] at known
    rcases List.mem_cons.mp known with rfl | member
    · exact .inr List.mem_cons_self
    · exact (List.mem_cons.mp member).imp_right (List.mem_cons_of_mem _)
  have hasOld : ∀ {other otherAddress}, final.Has other otherAddress → heap.Has other otherAddress := by
    rintro other otherAddress ⟨known, member⟩
    rcases knownSplit other known with rfl | knownOld
    · rw [new, noBlocks] at member
      cases member
    · rw [old other knownOld] at member
      exact ⟨knownOld, member⟩
  have hasNew : ∀ {otherAddress}, heap.Has rootManager otherAddress → final.Has rootManager otherAddress := by
    rintro otherAddress ⟨known, member⟩
    refine ⟨List.mem_cons_self, ?_⟩
    rwa [old rootManager known]
  have kmemEq : final.kmem = heap.kmem := by rw [← finalEq]; rfl
  have parentEq : final.parentBlock = heap.parentBlock := by rw [← finalEq]; rfl
  refine ⟨kmemEq ▸ sound.sound, ?_, ?_, ?_, ?_, ?_, ?_⟩
  · intro other known
    rcases knownSplit other known with rfl | knownOld
    · rw [new]
      exact ⟨rounded, small⟩
    · rw [old other knownOld]
      exact sound.sizes other knownOld
  · intro other otherAddress here
    rw [blocksEq, parentEq]
    exact sound.blocks (hasOld here)
  · intro other otherAddress here
    rw [blocksEq, old other (hasOld here).1]
    exact sound.size (hasOld here)
  · intro other otherAddress here
    rw [blocksEq, kmemEq]
    exact sound.pages (hasOld here)
  · intro one oneAddress two twoAddress here there
    rw [blocksEq]
    exact sound.apart (hasOld here) (hasOld there)
  · intro other member
    rw [listEq] at member
    rw [blocksEq]
    rcases List.mem_cons.mp member with rfl | memberOld
    · exact ⟨address, slot, hasNew has, allocated, rfl⟩
    · obtain ⟨otherAddress, otherSlot, otherHas, rest⟩ := sound.records other memberOld
      exact ⟨otherAddress, otherSlot, hasNew otherHas, rest⟩

end

variable {value : Nat}

theorem binaryRoundUp_eq (bounded : value + 8 ≤ 2 ^ 64) :
    binaryRoundUp value objectAlignment = (value + 7) / 8 * 8 := by
  unfold binaryRoundUp objectAlignment
  have low : ulongSub (ulong (value + 8)) 1 = (value + 7) % 2 ^ 64 := by
    unfold ulongSub ulong
    omega
  rw [low, show ulongSub 8 1 = 2 ^ 3 - 1 by decide, and_ulongNot_mask (by omega) (by decide)]
  omega

/-- Within eight of 2 ^ 64 the sum wraps, and nothing is left of the value. -/
theorem binaryRoundUp_of_large (word : value < 2 ^ 64) (large : 2 ^ 64 < value + 8) :
    binaryRoundUp value objectAlignment = 0 := by
  unfold binaryRoundUp objectAlignment
  have low : ulongSub (ulong (value + 8)) 1 = value + 7 - 2 ^ 64 := by
    unfold ulongSub ulong
    omega
  rw [low, show ulongSub 8 1 = 2 ^ 3 - 1 by decide, and_ulongNot_mask (by omega) (by decide)]
  omega

theorem binaryRoundUp_of_rounded (bounded : value + 8 ≤ 2 ^ 64)
    (rounded : value % objectAlignment = 0) : binaryRoundUp value objectAlignment = value := by
  rw [binaryRoundUp_eq bounded]
  unfold objectAlignment at rounded
  omega

theorem blockCapacity_le {order : Nat} (small : order < maxMemOrder) :
    blockCapacity order ≤ 2 ^ (order + pageShift) - objectBlockSize := by
  have power : 2 ^ (order + pageShift) ≤ 2 ^ 22 :=
    Nat.pow_le_pow_right (by decide) (by unfold maxMemOrder at small; unfold pageShift; omega)
  have large : 2 ^ pageShift ≤ 2 ^ (order + pageShift) := Nat.pow_le_pow_right (by decide) (by omega)
  unfold pageShift at power large
  unfold blockCapacity binaryRoundDown
  refine Nat.le_trans Nat.and_le_left ?_
  rw [Nat.shiftLeft_eq, Nat.one_mul]
  unfold pageShift objectBlockSize
  rw [ulongSub_of_le (by omega) (by omega)]

theorem carveSlots_eq {unitSize pageEnd fuel pos : Nat} (positive : 0 < unitSize)
    (start : pos ≤ pageEnd) (room : pageEnd + unitSize < 2 ^ 64) (enough : (pageEnd - pos) / unitSize ≤ fuel) :
    carveSlots unitSize pageEnd fuel pos =
      (List.range ((pageEnd - pos) / unitSize)).map fun index => pos + index * unitSize := by
  induction fuel generalizing pos with
  | zero => rw [Nat.le_zero.mp enough, carveSlots, List.range_zero, List.map_nil]
  | succ fuel ih =>
    rw [carveSlots, ulong_of_lt (by omega)]
    by_cases inside : pos + unitSize ≤ pageEnd
    · have count : (pageEnd - pos) / unitSize = (pageEnd - (pos + unitSize)) / unitSize + 1 := by
        rw [show pageEnd - pos = pageEnd - (pos + unitSize) + unitSize by omega, Nat.add_div_right _ positive]
      rw [if_pos inside, ih inside (by omega), count, List.range_succ_eq_map, List.map_cons,
        List.map_map, Nat.zero_mul, Nat.add_zero]
      refine congrArg _ (List.map_congr_left fun index _ => ?_)
      rw [Function.comp_apply, Nat.succ_mul]
      omega
    · rw [if_neg inside, Nat.div_eq_of_lt (by omega), List.range_zero, List.map_nil]

def carvedBlock (manager address pageOrder objectSize count : Nat) : ObjectBlock where
  freeSlots := (List.range count).map fun index =>
    address + objectBlockSize + index * (objectHeaderSize + objectSize)
  allocatedSlots := []
  used := 0
  total := count
  objectSize := objectSize
  pageCount := 1 <<< pageOrder
  parentManager := manager

section
variable {manager address pageOrder objectSize count : Nat}

theorem carvedBlock_slots : (carvedBlock manager address pageOrder objectSize count).slots =
      (List.range count).map fun index =>
        address + objectBlockSize + index * (objectHeaderSize + objectSize) :=
  List.append_nil _

theorem carvedBlock_bytes : (carvedBlock manager address pageOrder objectSize count).pageCount * pageSize =
      2 ^ (pageOrder + pageShift) := by
  rw [carvedBlock, Nat.shiftLeft_eq, Nat.one_mul, Nat.pow_add]
  rfl

theorem carvedBlock_sound {parentBlock : Nat → Nat}
    (fits : objectBlockSize + count * (objectHeaderSize + objectSize) ≤ 2 ^ (pageOrder + pageShift))
    (rounded : objectSize % objectAlignment = 0) (aligned : address % pageSize = 0)
    (bounded : address + 2 ^ (pageOrder + pageShift) ≤ 2 ^ 64)
    (parent : ∀ header ∈ (carvedBlock manager address pageOrder objectSize count).freeSlots,
      parentBlock header = address) : BlockSound parentBlock manager address
      (carvedBlock manager address pageOrder objectSize count) where
  nodup := by
    rw [carvedBlock_slots]
    refine List.Nodup.map (fun one two same => ?_) List.nodup_range
    have same : one * (objectHeaderSize + objectSize) = two * (objectHeaderSize + objectSize) :=
      Nat.add_left_cancel same
    exact Nat.eq_of_mul_eq_mul_right (by unfold objectHeaderSize; omega) same
  total := by
    rw [carvedBlock_slots, List.length_map, List.length_range]
    rfl
  used := rfl
  parent slot member := parent slot (by rwa [ObjectBlock.slots, carvedBlock, List.append_nil] at member)
  place slot member := by
    rw [carvedBlock_slots] at member
    obtain ⟨index, inside, rfl⟩ := List.mem_map.mp member
    exact ⟨index, List.mem_range.mp inside, rfl⟩
  fits := by
    rw [carvedBlock_bytes]
    exact fits
  rounded := rounded
  aligned := aligned
  bounded := by rwa [carvedBlock_bytes]
  ofManager := rfl

end

section
variable {manager pageOrder objectSize : Nat} {heap after : ObjectHeap σ}

def Refused (heap after : ObjectHeap σ) : Prop :=
  ∃ kmem, after = { heap with kmem } ∧ LawfulRuns.Sound kmem ∧ reserved kmem = reserved heap.kmem

/-- A block was carved that holds a slot, and is not yet attached. -/
def Carved (manager objectSize block : Nat) (heap after : ObjectHeap σ) : Prop :=
  ∃ pageOrder count kmem parentBlock,
    after = { heap with kmem, parentBlock }.setBlock block
      (carvedBlock manager block pageOrder objectSize count) ∧
    0 < count ∧ LawfulRuns.Sound kmem ∧
    BlockSound parentBlock manager block (carvedBlock manager block pageOrder objectSize count) ∧
    Disjoint ((carvedBlock manager block pageOrder objectSize count).pages block)
      (reserved heap.kmem) ∧
    reserved kmem = reserved heap.kmem ∪
      (carvedBlock manager block pageOrder objectSize count).pages block ∧
    ∀ header ∈ reserved heap.kmem, parentBlock header = heap.parentBlock header

theorem kmemObjectCreateBlock_spec (sound : LawfulRuns.Sound heap.kmem)
    (rounded : objectSize % objectAlignment = 0) (bounded : objectSize ≤ 2 ^ 32)
    (small : pageOrder < maxMemOrder) (holds : objectSize + objectHeaderSize ≤ blockCapacity pageOrder) :
    ∃ block after, kmemObjectCreateBlock manager pageOrder objectSize heap = .ok (block, after) ∧
      ((block = 0 ∧ Refused heap after) ∨ (block ≠ 0 ∧ Carved manager objectSize block heap after)) := by
  obtain ⟨block, kmem, alloc, soundAfter, ⟨rfl, same⟩ | ⟨notNull, aligned, top, fresh, grown⟩⟩ :=
    LawfulRuns.alloc sound small
  · refine ⟨0, { heap with kmem }, ?_, .inl ⟨rfl, kmem, rfl, soundAfter, same⟩⟩
    rw [kmemObjectCreateBlock, if_neg (Nat.not_le.mpr small), alloc]
    rfl
  · have capacity := holds.trans (blockCapacity_le small)
    have unit : 0 < objectHeaderSize + objectSize := by unfold objectHeaderSize; omega
    have large : 2 ^ pageShift ≤ 2 ^ (pageOrder + pageShift) := Nat.pow_le_pow_right (by decide) (by omega)
    have pageAligned : block % 4096 = 0 := aligned
    have space : 2 ^ (pageOrder + pageShift) - objectBlockSize + objectBlockSize =
        2 ^ (pageOrder + pageShift) := Nat.sub_add_cancel (Nat.le_trans (by decide) large)
    generalize bytesEq : 2 ^ (pageOrder + pageShift) = bytes at *
    generalize countEq : (bytes - objectBlockSize) / (objectHeaderSize + objectSize) = count
    have below : block + bytes + (objectHeaderSize + objectSize) < 2 ^ 64 := by
      have big : 4096 ≤ bytes := large
      unfold objectBlockSize at capacity
      omega
    have first : binaryRoundUp (block + objectBlockSize) objectAlignment = block + objectBlockSize := by
      refine binaryRoundUp_of_rounded (by unfold objectBlockSize at *; omega) ?_
      unfold objectAlignment objectBlockSize
      omega
    have pageEnd : ulong (block + 1 <<< (pageOrder + pageShift)) = block + bytes := by
      rw [Nat.shiftLeft_eq, Nat.one_mul, bytesEq, ulong_of_lt (by omega)]
    have carved : carveSlots (objectHeaderSize + objectSize) (block + bytes)
        (1 <<< (pageOrder + pageShift)) (block + objectBlockSize) =
          (carvedBlock manager block pageOrder objectSize count).freeSlots := by
      have rest : block + bytes - (block + objectBlockSize) = bytes - objectBlockSize := by omega
      rw [carveSlots_eq unit (by omega) below, rest, countEq]
      · rfl
      · rw [rest, Nat.shiftLeft_eq, Nat.one_mul, bytesEq]
        exact (Nat.div_le_self ..).trans (Nat.sub_le ..)
    have pagesEq : (carvedBlock manager block pageOrder objectSize count).pages block =
        Set.Ico block (block + bytes) := by
      rw [ObjectBlock.pages, carvedBlock_bytes, bytesEq]
    have fits : objectBlockSize + count * (objectHeaderSize + objectSize) ≤ bytes := by
      have whole := Nat.div_mul_le_self (bytes - objectBlockSize) (objectHeaderSize + objectSize)
      rw [countEq] at whole
      omega
    have blockSound := @carvedBlock_sound manager block pageOrder objectSize count
      (fun header => if header ∈ (carvedBlock manager block pageOrder objectSize count).freeSlots
        then block else heap.parentBlock header) (bytesEq ▸ fits) rounded aligned
      (by rw [bytesEq]; omega) (fun header member => if_pos member)
    refine ⟨block, _, ?_, .inr ⟨notNull, pageOrder, count, kmem, _, rfl, ?_, soundAfter, blockSound,
      pagesEq ▸ fresh, pagesEq ▸ grown, ?_⟩⟩
    · rw [kmemObjectCreateBlock, if_neg (Nat.not_le.mpr small), alloc, Result.ok_bind]
      dsimp only
      rw [if_neg notNull, binaryRoundUp_of_rounded (by omega) rounded, first, pageEnd, carved,
        show (carvedBlock manager block pageOrder objectSize count).freeSlots.length = count by
          simp [carvedBlock]]
      rfl
    · rw [← countEq]
      exact Nat.div_pos (by omega) unit
    · intro header inReserved
      refine if_neg fun member => ?_
      refine Set.disjoint_left.mp fresh ?_ inReserved
      rw [← pagesEq]
      exact blockSound.slot_mem_pages (List.mem_append_left _ member)

theorem Refused.trans {middle : ObjectHeap σ} (first : Refused heap middle) (second : Refused middle after) :
    Refused heap after := by
  obtain ⟨_, rfl, _, same⟩ := first
  obtain ⟨kmem, rfl, sound, again⟩ := second
  exact ⟨kmem, rfl, sound, again.trans same⟩

theorem Refused.carved {middle : ObjectHeap σ} {block : Nat} (refused : Refused heap middle)
    (carved : Carved manager objectSize block middle after) : Carved manager objectSize block heap after := by
  obtain ⟨_, rfl, _, same⟩ := refused
  obtain ⟨pageOrder, count, kmem, parentBlock, rfl, some, sound, blockSound, fresh, grown, parents⟩ := carved
  exact ⟨pageOrder, count, kmem, parentBlock, rfl, some, sound, blockSound, same ▸ fresh, same ▸ grown,
    same ▸ parents⟩

theorem createSomeBlock_spec (sound : LawfulRuns.Sound heap.kmem)
    (rounded : objectSize % objectAlignment = 0) (bounded : objectSize ≤ 2 ^ 32) (small : pageOrder < maxMemOrder) :
    ∃ block after,
      createSomeBlock manager (objectSize + objectHeaderSize) objectSize pageOrder heap = .ok (block, after) ∧
      ((block = 0 ∧ Refused heap after) ∨ (block ≠ 0 ∧ Carved manager objectSize block heap after)) := by
  have untouched : Refused heap heap := ⟨heap.kmem, rfl, sound, rfl⟩
  induction pageOrder generalizing heap with
  | zero =>
    rw [createSomeBlock]
    split
    next holds => exact kmemObjectCreateBlock_spec sound rounded bounded small holds
    next => exact ⟨0, heap, rfl, .inl ⟨rfl, untouched⟩⟩
  | succ pageOrder ih =>
    rw [createSomeBlock]
    split
    next holds =>
      obtain ⟨block, middle, create, ⟨rfl, refused⟩ | ⟨notNull, carved⟩⟩ :=
        kmemObjectCreateBlock_spec sound rounded bounded small holds
      · obtain ⟨_, refusedEq, refusedSound, _⟩ := id refused
        have middleSound : LawfulRuns.Sound middle.kmem := by rwa [refusedEq]
        obtain ⟨block, after, run, outcome⟩ :=
          ih middleSound (Nat.lt_of_succ_lt small) ⟨middle.kmem, rfl, middleSound, rfl⟩
        refine ⟨block, after, ?_, ?_⟩
        · rw [create, Result.ok_bind]
          exact run
        · exact outcome.imp (fun null => ⟨null.1, refused.trans null.2⟩)
            (fun made => ⟨made.1, refused.carved made.2⟩)
      · refine ⟨block, middle, ?_, .inr ⟨notNull, carved⟩⟩
        rw [create, Result.ok_bind]
        dsimp only
        rw [if_neg notNull]
        rfl
    next => exact ⟨0, heap, rfl, .inl ⟨rfl, untouched⟩⟩

theorem firstBlockOrder_lt {allocatedSum remaining order : Nat} (small : order < maxMemOrder) :
    firstBlockOrder allocatedSum remaining order < maxMemOrder := by
  induction remaining generalizing order with
  | zero => exact small
  | succ remaining ih =>
    rw [firstBlockOrder]
    split
    next more => exact ih more.1
    next => exact small

end

section
variable {hart manager address vaddr : Nat} {heap after : ObjectHeap σ}

/-- An object that was handed out and not freed, and is not the record of a manager. -/
def Live (manager vaddr : Nat) (heap : ObjectHeap σ) : Prop :=
  ∃ address slot, heap.Has manager address ∧ slot ∈ (heap.blocks address).allocatedSlots ∧
    vaddr = slot + objectHeaderSize ∧ vaddr ∉ heap.managerList

theorem kmemObjectAllocFromBlock_spec (sound : HeapSound heap) (has : heap.Has manager address)
    (some : (heap.blocks address).freeSlots ≠ []) :
    ∃ vaddr after, kmemObjectAllocFromBlock address heap = .ok (vaddr, after) ∧ HeapSound after ∧
      after.managers = heap.managers ∧ after.managerList = heap.managerList ∧
      Live manager vaddr after := by
  obtain ⟨slot, freeSlots, first⟩ := List.exists_cons_of_ne_nil some
  refine ⟨slot + objectHeaderSize, _, ?_, sound.set_block has ((sound.blocks has).take first) rfl rfl
    (fun other allocated _ => List.mem_cons_of_mem _ allocated), rfl, rfl, address, slot, has, ?_, rfl, ?_⟩
  · rw [kmemObjectAllocFromBlock, first]
  · simp [ObjectHeap.setBlock]
  · exact sound.free_not_record has (by rw [first]; exact List.mem_cons_self)

theorem Carved.attach {block : Nat} (sound : HeapSound heap) (known : manager ∈ heap.known)
    (carved : Carved manager (heap.managers manager).objectSize block heap after) :
    HeapSound (after.setManager manager
      { heap.managers manager with blocks := block :: (heap.managers manager).blocks }) ∧
      after.managerList = heap.managerList ∧ (after.blocks block).freeSlots ≠ [] := by
  obtain ⟨pageOrder, count, kmem, parentBlock, rfl, some, soundAfter, blockSound, fresh, grown, parents⟩ := carved
  refine ⟨sound.add_block known blockSound rfl soundAfter fresh grown parents, rfl, ?_⟩
  have nonempty : count ≠ 0 := Nat.ne_of_gt some
  simp [ObjectHeap.setBlock, carvedBlock, nonempty]

theorem alloc_from_new_block {pageOrder : Nat} (sound : HeapSound heap) (known : manager ∈ heap.known)
    (small : pageOrder < maxMemOrder) : ∃ vaddr after, (do
        let (block, heap') ← createSomeBlock manager
          ((heap.managers manager).objectSize + objectHeaderSize) (heap.managers manager).objectSize pageOrder heap
        if block = 0 then return (0, heap')
        kmemObjectAllocFromBlock block (heap'.setManager manager
          { heap.managers manager with blocks := block :: (heap.managers manager).blocks }) :
        Result (Nat × ObjectHeap σ)) = .ok (vaddr, after) ∧
      HeapSound after ∧ after.managerList = heap.managerList ∧
      (vaddr = 0 ∨ Live manager vaddr after) := by
  obtain ⟨rounded, bounded⟩ := sound.sizes manager known
  obtain ⟨block, middle, create, outcome⟩ :=
    @createSomeBlock_spec _ _ _ manager pageOrder _ heap sound.sound rounded bounded small
  rw [create, Result.ok_bind]
  dsimp only
  rcases outcome with ⟨rfl, kmem, rfl, soundAfter, same⟩ | ⟨notNull, carved⟩
  · exact ⟨0, _, rfl, sound.set_kmem soundAfter (fun _ _ has => same ▸ sound.pages has), rfl, .inl rfl⟩
  · obtain ⟨attached, list, some⟩ := carved.attach sound known
    have has : (middle.setManager manager { heap.managers manager with
        blocks := block :: (heap.managers manager).blocks }).Has manager block := by
      refine ⟨?_, by simp [ObjectHeap.setManager]⟩
      rw [ObjectHeap.known] at known ⊢
      rwa [show (middle.setManager manager _).managerList = heap.managerList from list]
    obtain ⟨vaddr, after, run, afterSound, _, afterList, hands⟩ := kmemObjectAllocFromBlock_spec attached has some
    rw [if_neg notNull]
    exact ⟨vaddr, after, run, afterSound, afterList.trans list, .inr hands⟩

theorem alloc_unlocks {search : Result (Nat × ObjectHeap σ)} {lock : Spinlock}
    (free : spinlockAcquire hart (heap.managers manager).lock = .ok lock)
    (found : ∃ vaddr middle, search = .ok (vaddr, middle) ∧ HeapSound middle ∧
      middle.managerList = heap.managerList ∧ (vaddr = 0 ∨ Live manager vaddr middle)) : ∃ vaddr after, (do
        let (result, heap) ← search
        let lock ← spinlockRelease hart lock
        return (result, heap.setManager manager { heap.managers manager with lock }) :
        Result (Nat × ObjectHeap σ)) = .ok (vaddr, after) ∧
      HeapSound after ∧ after.managerList = heap.managerList ∧
      (vaddr = 0 ∨ Live manager vaddr after) := by
  obtain ⟨vaddr, middle, rfl, middleSound, list, outcome⟩ := found
  refine ⟨vaddr, middle.setManager manager { middle.managers manager with lock := ⟨0, 0⟩ }, ?_,
    middleSound.set_manager rfl rfl, list, outcome.imp_right ?_⟩
  · rw [Result.ok_bind]
    dsimp only
    rw [spinlockRelease_acquired free, Result.ok_bind]
    rfl
  · rintro ⟨address, slot, ⟨here, inBlocks⟩, rest⟩
    exact ⟨address, slot, ⟨here, by simpa [ObjectHeap.setManager] using inBlocks⟩, rest⟩

theorem kmemObjectAlloc_spec (sound : HeapSound heap) (known : manager ∈ heap.known)
    {lock : Spinlock} (free : spinlockAcquire hart (heap.managers manager).lock = .ok lock) :
    ∃ vaddr after, kmemObjectAlloc hart manager heap = .ok (vaddr, after) ∧ HeapSound after ∧
      after.managerList = heap.managerList ∧ (vaddr = 0 ∨ Live manager vaddr after) := by
  rw [kmemObjectAlloc]
  dsimp only
  rw [free, Result.ok_bind, sound.unit known]
  refine alloc_unlocks free ?_
  split
  next block search =>
    have has : heap.Has manager block := ⟨known, List.mem_of_find?_eq_some search⟩
    obtain ⟨vaddr, middle, run, middleSound, _, list, hands⟩ :=
      kmemObjectAllocFromBlock_spec sound has (by simpa using List.find?_some search)
    exact ⟨vaddr, middle, run, middleSound, list, .inr hands⟩
  next => exact alloc_from_new_block sound known (firstBlockOrder_lt (by decide))

end

end Kalorona.Memory
