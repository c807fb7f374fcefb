import Kalorona.Memory.BuddyRuns
import Kalorona.Memory.Vmem
import Kalorona.Kernel.Spinlock

namespace Kalorona.Memory

open Kalorona.Data Kalorona.Utilities

/-! # The object allocator

The slots of a manager are carved from blocks of whole pages; each block keeps a list of free and a
list of allocated slots, and each slot starts with a header that leads back to its block.
-/

def objectAlignment : Nat := 0x8
/-- `sizeof(struct kmem_object_header_struct)`. -/
def objectHeaderSize : Nat := 24
/-- `sizeof(struct kmem_object_block_struct)`. -/
def objectBlockSize : Nat := 96
/-- `sizeof(struct kmem_object_manager_struct)`. -/
def objectManagerSize : Nat := 56

def binaryRoundUp (value alignment : Nat) : Nat :=
  ulongSub (ulong (value + alignment)) 1 &&& ulongNot (ulongSub alignment 1)

def binaryRoundDown (value alignment : Nat) : Nat :=
  value &&& ulongNot (ulongSub alignment 1)

/-- `struct kmem_object_block_struct`.  A slot is named by the address of its
header; lists are kept with the successor of the head first. -/
structure ObjectBlock where
  freeSlots : List Nat
  allocatedSlots : List Nat
  used : Nat
  total : Nat
  objectSize : Nat
  pageCount : Nat
  parentManager : Nat

/-- `struct kmem_object_manager_struct`; `blocks` is the chain through `nxt`. -/
structure ObjectManager where
  blockName : String
  objectSize : Nat
  lock : Spinlock
  blocks : List Nat

/-- The page manager, and what the object allocator keeps in its pages: managers and
blocks by address, and the field `parent_block` of every header. -/
structure ObjectHeap (σ : Type) where
  kmem : σ
  managers : Nat → ObjectManager
  managerList : List Nat
  blocks : Nat → ObjectBlock
  parentBlock : Nat → Nat

/-- Stands for the address of `kmem.object_manager`, which is in no slot. -/
def rootManager : Nat := 0

instance : PageAllocator Kmem where
  allocPages := kmemAllocPages
  freePage := kmemFreePage

variable {σ : Type}

namespace ObjectHeap

def setManager (heap : ObjectHeap σ) (address : Nat) (manager : ObjectManager) : ObjectHeap σ :=
  { heap with managers := Function.update heap.managers address manager }

def setBlock (heap : ObjectHeap σ) (address : Nat) (block : ObjectBlock) : ObjectHeap σ :=
  { heap with blocks := Function.update heap.blocks address block }

end ObjectHeap

def carveSlots (unitSize pageEnd : Nat) : Nat → Nat → List Nat
  | 0, _ => []
  | fuel + 1, pos =>
    if ulong (pos + unitSize) ≤ pageEnd then
      pos :: carveSlots unitSize pageEnd fuel (ulong (pos + unitSize))
    else []

variable [PageAllocator σ]

/-- Returns a block that is not attached, or 0 for the null pointer. -/
def kmemObjectCreateBlock (parentManager pageOrder objectSize : Nat) (heap : ObjectHeap σ) :
    Result (Nat × ObjectHeap σ) := do
  if pageOrder ≥ maxMemOrder then
    throw (.panic "kmem_object_create_block - invalid page_order")
  let (block, kmem) ← allocPages pageOrder heap.kmem
  let heap := { heap with kmem }
  if block = 0 then return (0, heap)
  let objectSize := binaryRoundUp objectSize objectAlignment
  let unitSize := objectHeaderSize + objectSize
  let pageEnd := ulong (block + 1 <<< (pageOrder + pageShift))
  let slots := carveSlots unitSize pageEnd (1 <<< (pageOrder + pageShift))
    (binaryRoundUp (block + objectBlockSize) objectAlignment)
  let heap := heap.setBlock block
    { freeSlots := slots, allocatedSlots := [], used := 0, total := slots.length, objectSize,
      pageCount := 1 <<< pageOrder, parentManager }
  return (block, { heap with
    parentBlock := fun header => if header ∈ slots then block else heap.parentBlock header })

def kmemObjectAllocFromBlock (address : Nat) (heap : ObjectHeap σ) : Result (Nat × ObjectHeap σ) :=
  let block := heap.blocks address
  match block.freeSlots with
  | [] => .error (.panic "kmem_object_alloc_from_block - no slots available")
  | node :: freeSlots =>
    .ok (node + objectHeaderSize, heap.setBlock address { block with
        freeSlots
        allocatedSlots := node :: block.allocatedSlots
        used := block.used + 1 })

def blockCapacity (order : Nat) : Nat :=
  binaryRoundDown (ulongSub (1 <<< (order + pageShift)) objectBlockSize) objectAlignment

/-- The order to try first: the smallest whose capacity exceeds `allocatedSum`. -/
def firstBlockOrder (allocatedSum : Nat) : Nat → Nat → Nat
  | 0, order => order
  | remaining + 1, order =>
    if order + 1 < maxMemOrder ∧ blockCapacity order ≤ allocatedSum then
      firstBlockOrder allocatedSum remaining (order + 1)
    else order

def createSomeBlock (manager unitSize objectSize : Nat) : Nat → ObjectHeap σ →
    Result (Nat × ObjectHeap σ)
  | 0, heap =>
    if blockCapacity 0 ≥ unitSize then kmemObjectCreateBlock manager 0 objectSize heap
    else .ok (0, heap)
  | order + 1, heap => do
      if blockCapacity (order + 1) ≥ unitSize then
        let (block, heap) ← kmemObjectCreateBlock manager (order + 1) objectSize heap
        if block = 0 then createSomeBlock manager unitSize objectSize order heap
        else return (block, heap)
      else return (0, heap)

def kmemObjectAlloc (hart address : Nat) (heap : ObjectHeap σ) : Result (Nat × ObjectHeap σ) := do
  let manager := heap.managers address
  let unitSize := ulong (manager.objectSize + objectHeaderSize)
  let lock ← spinlockAcquire hart manager.lock
  let (result, heap) ← (do
    match manager.blocks.find? (fun block => !(heap.blocks block).freeSlots.isEmpty) with
    | some block => kmemObjectAllocFromBlock block heap
    | none =>
      let allocatedSum := manager.blocks.foldl
        (fun sum block => ulong (sum + (heap.blocks block).used * unitSize)) 0
      let allocatedSum :=
        if allocatedSum < ulong (unitSize * 4) then ulong (unitSize * 4) else allocatedSum
      -- new block maybe
      let order := firstBlockOrder allocatedSum maxMemOrder 0
      let (block, heap) ← createSomeBlock address unitSize manager.objectSize order heap
      if block = 0 then return (0, heap)
      -- connect the block to the manager
      let heap := heap.setManager address { manager with blocks := block :: manager.blocks }
      kmemObjectAllocFromBlock block heap : Result (Nat × ObjectHeap σ))
  let lock ← spinlockRelease hart lock
  return (result, heap.setManager address { heap.managers address with lock })

/-- A header that is in no list of its block has no links to follow. -/
def kmemObjectFree (hart vaddr : Nat) (heap : ObjectHeap σ) : Result (ObjectHeap σ) := do
  let header := ulongSub vaddr objectHeaderSize
  let address := heap.parentBlock header
  let block := heap.blocks address
  let manager := heap.managers block.parentManager
  let lock ← spinlockAcquire hart manager.lock
  if header ∉ block.freeSlots ∧ header ∉ block.allocatedSlots then throw .stray
  let heap := heap.setBlock address
    { block with
      freeSlots := header :: block.freeSlots.erase header
      allocatedSlots := block.allocatedSlots.erase header
      used := ulongSub block.used 1 }
  let lock ← spinlockRelease hart lock
  return heap.setManager block.parentManager { manager with lock }

/-- The lock of the new manager is not initialised: it is what the memory held. -/
def kmemObjectCreateManager (hart objectSize : Nat) (name : String) (memory : Memory)
    (heap : ObjectHeap σ) : Result (Nat × ObjectHeap σ) := do
  let (newMgr, heap) ← kmemObjectAlloc hart rootManager heap
  if newMgr = 0 then throw .stray
  let heap := heap.setManager newMgr
    { blockName := name
      objectSize := binaryRoundUp objectSize objectAlignment
      lock := ⟨memory.loadBytes (newMgr + 16) 4, memory.loadBytes (newMgr + 32) 8⟩
      blocks := [] }
  return (newMgr, { heap with managerList := newMgr :: heap.managerList })

def kmemObjectInit (heap : ObjectHeap σ) : ObjectHeap σ :=
  heap.setManager rootManager { heap.managers rootManager with
    blockName := "kmem_obj_mgr"
    objectSize := binaryRoundUp objectManagerSize objectAlignment }

section
variable {address result : Nat} {heap after : ObjectHeap σ}
  (run : kmemObjectAllocFromBlock address heap = .ok (result, after))
include run

omit [PageAllocator σ] in
theorem kmemObjectAllocFromBlock_kmem : after.kmem = heap.kmem := by
  unfold kmemObjectAllocFromBlock at run
  dsimp only at run
  split at run <;> cases run
  rfl

omit [PageAllocator σ] in
theorem kmemObjectAllocFromBlock_managers :
    after.managers = heap.managers ∧ after.managerList = heap.managerList := by
  unfold kmemObjectAllocFromBlock at run
  dsimp only at run
  split at run <;> cases run
  exact ⟨rfl, rfl⟩

end

def KeptByAlloc (keeps : σ → Prop) : Prop :=
  ∀ ⦃order vaddr : Nat⦄ ⦃kmem next : σ⦄, keeps kmem → allocPages order kmem = .ok (vaddr, next) → keeps next

variable {hart objectSize : Nat}

section
variable {keeps : σ → Prop} {heap after : ObjectHeap σ} {result : Nat}

section
variable (kept : KeptByAlloc keeps) (before : keeps heap.kmem)
include kept before

theorem KeptByAlloc.kmemObjectCreateBlock {parentManager pageOrder : Nat}
    (run : Memory.kmemObjectCreateBlock parentManager pageOrder objectSize heap = .ok (result, after)) :
    keeps after.kmem := by
  unfold Memory.kmemObjectCreateBlock at run
  split at run
  · cases run
  · obtain ⟨⟨block, kmem⟩, alloc, rest⟩ := Result.bind_ok run
    have next := kept before alloc
    dsimp only at rest
    split at rest <;> cases rest <;> exact next

theorem KeptByAlloc.createSomeBlock {manager unitSize order : Nat}
    (run : Memory.createSomeBlock manager unitSize objectSize order heap = .ok (result, after)) :
    keeps after.kmem := by
  induction order generalizing heap with
  | zero =>
    unfold Memory.createSomeBlock at run
    split at run
    · exact kept.kmemObjectCreateBlock before run
    · cases run
      exact before
  | succ order ih =>
    unfold Memory.createSomeBlock at run
    split at run
    · obtain ⟨⟨block, middle⟩, create, rest⟩ := Result.bind_ok run
      have next := kept.kmemObjectCreateBlock before create
      dsimp only at rest
      split at rest
      · exact ih next rest
      · cases rest
        exact next
    · cases run
      exact before

theorem KeptByAlloc.kmemObjectAlloc {address : Nat}
    (run : Memory.kmemObjectAlloc hart address heap = .ok (result, after)) : keeps after.kmem := by
  obtain ⟨lock, _, rest⟩ := Result.bind_ok run
  obtain ⟨⟨found, middle⟩, search, rest⟩ := Result.bind_ok rest
  obtain ⟨_, _, final⟩ := Result.bind_ok rest
  cases final
  show keeps middle.kmem
  split at search
  · rw [kmemObjectAllocFromBlock_kmem search]
    exact before
  · obtain ⟨⟨block, created⟩, create, rest⟩ := Result.bind_ok search
    have next := kept.createSomeBlock before create
    dsimp only at rest
    split at rest
    · cases rest
      exact next
    · rw [kmemObjectAllocFromBlock_kmem rest]
      exact next

theorem KeptByAlloc.kmemObjectCreateManager {name : String} {memory : Memory}
    (run : Memory.kmemObjectCreateManager hart objectSize name memory heap = .ok (result, after)) :
    keeps after.kmem := by
  obtain ⟨⟨newMgr, middle⟩, alloc, rest⟩ := Result.bind_ok run
  have next := kept.kmemObjectAlloc before alloc
  dsimp only at rest
  split at rest <;> cases rest
  exact next

end

omit [PageAllocator σ] in
theorem kmemObjectFree_same {vaddr : Nat} (run : kmemObjectFree hart vaddr heap = .ok after) :
    after.kmem = heap.kmem ∧ after.managerList = heap.managerList := by
  obtain ⟨_, _, run⟩ := Result.bind_ok run
  dsimp only at run
  split at run
  · cases run
  · obtain ⟨_, _, run⟩ := Result.bind_ok run
    cases run
    exact ⟨rfl, rfl⟩

end

/-- Pages were taken, and none given back. -/
structure Shrinks (before after : Kmem) : Prop where
  sound : BuddySound after
  frame : SameFrame before after
  clear : clearPages after ⊆ clearPages before

theorem Shrinks.refl {kmem : Kmem} (sound : BuddySound kmem) : Shrinks kmem kmem := ⟨sound, .refl kmem, subset_rfl⟩

theorem Shrinks.trans {first second third : Kmem} (left : Shrinks first second)
    (right : Shrinks second third) : Shrinks first third :=
  ⟨right.sound, left.frame.trans right.frame, right.clear.trans left.clear⟩

theorem kmemAllocPages_shrinks {kmem after : Kmem} {order vaddr : Nat} (sound : BuddySound kmem)
    (run : kmemAllocPages order kmem = .ok (vaddr, after)) : Shrinks kmem after := by
  rcases Nat.eq_zero_or_pos vaddr with null | returned
  · subst vaddr
    rw [sound.refused run]
    exact .refl sound
  · obtain ⟨start, _, handed, kept⟩ := sound.handedOut run (Nat.ne_of_gt returned)
    refine ⟨kept, handed.frame, ?_⟩
    rw [handed.clearPages_eq]
    exact Set.sdiff_subset

theorem Shrinks.keptByAlloc (start : Kmem) : KeptByAlloc (Shrinks start) :=
  fun _ _ _ _ shrinks run => shrinks.trans (kmemAllocPages_shrinks shrinks.sound run)

section
variable {heap after : ObjectHeap Kmem} {result : Nat}

theorem kmemObjectCreateBlock_shrinks {parentManager pageOrder : Nat} (sound : BuddySound heap.kmem)
    (run : kmemObjectCreateBlock parentManager pageOrder objectSize heap = .ok (result, after)) :
    Shrinks heap.kmem after.kmem :=
  (Shrinks.keptByAlloc heap.kmem).kmemObjectCreateBlock (.refl sound) run

theorem kmemObjectAlloc_shrinks {address : Nat} (sound : BuddySound heap.kmem)
    (run : kmemObjectAlloc hart address heap = .ok (result, after)) : Shrinks heap.kmem after.kmem :=
  (Shrinks.keptByAlloc heap.kmem).kmemObjectAlloc (.refl sound) run

theorem kmemObjectCreateManager_shrinks {name : String} {memory : Memory} (sound : BuddySound heap.kmem)
    (run : kmemObjectCreateManager hart objectSize name memory heap = .ok (result, after)) :
    Shrinks heap.kmem after.kmem :=
  (Shrinks.keptByAlloc heap.kmem).kmemObjectCreateManager (.refl sound) run

end

end Kalorona.Memory
