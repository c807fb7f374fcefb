import Kalorona.Memory.ObjectRuns
import Kalorona.Utilities.ListNodes
import Mathlib.Data.List.Find

namespace Kalorona.Memory

open Kalorona.Data Kalorona.Utilities

/-! # The object allocator in memory

The object allocator once more, with the lists of its blocks as links in the block structures and
in the headers of the slots.
-/

/-- A `struct kmem_object_header_struct`: one of the two heads in a block, or the header of a slot. -/
inductive SlotNode where
  | free (block : Nat)
  | allocated (block : Nat)
  | header (address : Nat)
deriving DecidableEq, Repr

namespace SlotNode

theorem header_injective : Function.Injective header := fun _ _ same => by cases same; rfl

def place : SlotNode → Nat
  | free block => block
  | allocated block => block + objectHeaderSize
  | header address => address

end SlotNode

section
variable {α : Type} [DecidableEq α]

def kmemObjectHeaderInsert : Option α → Option α → Links α → Result (Links α) :=
  insertNode "kmem_object_header_insert - NULL argument"

def kmemObjectHeaderDetach : Option α → Links α → Result (Links α) :=
  detachNode "kmem_object_header_detach - NULL argument"

end

def headerPointer (address : Nat) : Option SlotNode :=
  if address = 0 then none else some (.header address)

/-- The object allocator with the links in its memory.  In `heap` the lists of the blocks are left
empty. -/
structure LinkedHeap (σ : Type) where
  heap : ObjectHeap σ
  links : Links SlotNode

variable {σ : Type}

namespace LinkedHeap

def setManager (state : LinkedHeap σ) (address : Nat) (manager : ObjectManager) : LinkedHeap σ :=
  { state with heap := state.heap.setManager address manager }

def initBlock (block : Nat) (slots : List Nat) (links : Links SlotNode) : Links SlotNode :=
  let links := (links.setNxt (.allocated block) none).setNxt (.free block) none
  let links := (links.setPrv (.allocated block) none).setPrv (.free block) none
  Links.appendNodes (.free block) (slots.map .header) links

def kmemObjectAllocFromBlock (address : Nat) (state : LinkedHeap σ) : Result (Nat × LinkedHeap σ) :=
  match state.links.nxt (.free address) with
  | none => .error (.panic "kmem_object_alloc_from_block - no slots available")
  | some (.header node) => do
      let links ← kmemObjectHeaderDetach (some (.header node)) state.links
      let links ← kmemObjectHeaderInsert (some (.allocated address)) (some (.header node)) links
      let block := state.heap.blocks address
      return (node + objectHeaderSize, ⟨state.heap.setBlock address { block with used := block.used + 1 }, links⟩)
  -- no head is behind another
  | some _ => .error .stray

variable [PageAllocator σ]

def kmemObjectCreateBlock (parentManager pageOrder objectSize : Nat) (state : LinkedHeap σ) :
    Result (Nat × LinkedHeap σ) := do
  if pageOrder ≥ maxMemOrder then
    throw (.panic "kmem_object_create_block - invalid page_order")
  let (block, kmem) ← allocPages pageOrder state.heap.kmem
  let heap := { state.heap with kmem }
  if block = 0 then return (0, { state with heap })
  let objectSize := binaryRoundUp objectSize objectAlignment
  let unitSize := objectHeaderSize + objectSize
  let pageEnd := ulong (block + 1 <<< (pageOrder + pageShift))
  let slots := carveSlots unitSize pageEnd (1 <<< (pageOrder + pageShift))
    (binaryRoundUp (block + objectBlockSize) objectAlignment)
  let heap := heap.setBlock block
    { freeSlots := [], allocatedSlots := [], used := 0, total := slots.length, objectSize,
      pageCount := 1 <<< pageOrder, parentManager }
  let heap := { heap with
    parentBlock := fun header => if header ∈ slots then block else heap.parentBlock header }
  return (block, ⟨heap, initBlock block slots state.links⟩)

def createSomeBlock (manager unitSize objectSize : Nat) : Nat → LinkedHeap σ →
    Result (Nat × LinkedHeap σ)
  | 0, state =>
    if blockCapacity 0 ≥ unitSize then kmemObjectCreateBlock manager 0 objectSize state
    else .ok (0, state)
  | order + 1, state => do
      if blockCapacity (order + 1) ≥ unitSize then
        let (block, state) ← kmemObjectCreateBlock manager (order + 1) objectSize state
        if block = 0 then createSomeBlock manager unitSize objectSize order state
        else return (block, state)
      else return (0, state)

def kmemObjectAlloc (hart address : Nat) (state : LinkedHeap σ) : Result (Nat × LinkedHeap σ) := do
  let manager := state.heap.managers address
  let unitSize := ulong (manager.objectSize + objectHeaderSize)
  let lock ← spinlockAcquire hart manager.lock
  let (result, state) ← (do
    match manager.blocks.find? (fun block => (state.links.nxt (.free block)).isSome) with
    | some block => kmemObjectAllocFromBlock block state
    | none =>
      let allocatedSum := manager.blocks.foldl
        (fun sum block => ulong (sum + (state.heap.blocks block).used * unitSize)) 0
      let allocatedSum :=
        if allocatedSum < ulong (unitSize * 4) then ulong (unitSize * 4) else allocatedSum
      -- new block maybe
      let order := firstBlockOrder allocatedSum maxMemOrder 0
      let (block, state) ← createSomeBlock address unitSize manager.objectSize order state
      if block = 0 then return (0, state)
      -- connect the block to the manager
      let state := state.setManager address { manager with blocks := block :: manager.blocks }
      kmemObjectAllocFromBlock block state : Result (Nat × LinkedHeap σ))
  let lock ← spinlockRelease hart lock
  return (result, state.setManager address { state.heap.managers address with lock })

def kmemObjectFree (hart vaddr : Nat) (state : LinkedHeap σ) : Result (LinkedHeap σ) := do
  let header := ulongSub vaddr objectHeaderSize
  let address := state.heap.parentBlock header
  let block := state.heap.blocks address
  let manager := state.heap.managers block.parentManager
  let lock ← spinlockAcquire hart manager.lock
  let links ← kmemObjectHeaderDetach (headerPointer header) state.links
  let links ← kmemObjectHeaderInsert (some (.free address)) (headerPointer header) links
  let heap := state.heap.setBlock address { block with used := ulongSub block.used 1 }
  let lock ← spinlockRelease hart lock
  return ⟨heap.setManager block.parentManager { manager with lock }, links⟩

def kmemObjectCreateManager (hart objectSize : Nat) (name : String) (memory : Memory)
    (state : LinkedHeap σ) : Result (Nat × LinkedHeap σ) := do
  let (newMgr, state) ← kmemObjectAlloc hart rootManager state
  if newMgr = 0 then throw .stray
  let state := state.setManager newMgr
    { blockName := name
      objectSize := binaryRoundUp objectSize objectAlignment
      lock := ⟨memory.loadBytes (newMgr + 16) 4, memory.loadBytes (newMgr + 32) 8⟩
      blocks := [] }
  return (newMgr, { state with
    heap := { state.heap with managerList := newMgr :: state.heap.managerList } })

end LinkedHeap

def ObjectBlock.bare (block : ObjectBlock) : ObjectBlock :=
  { block with freeSlots := [], allocatedSlots := [] }

namespace ObjectHeap

def bare (heap : ObjectHeap σ) : ObjectHeap σ :=
  { heap with blocks := fun address => (heap.blocks address).bare }

theorem bare_setBlock (heap : ObjectHeap σ) (address : Nat) (block : ObjectBlock) :
    (heap.setBlock address block).bare = heap.bare.setBlock address block.bare := by
  have blocks : (heap.setBlock address block).bare.blocks = (heap.bare.setBlock address block.bare).blocks := by
    funext other
    by_cases same : other = address
    · subst same
      simp [bare, setBlock]
    · simp [bare, setBlock, same]
  exact congrArg (fun blocks => { heap with blocks }) blocks

def attached (heap : ObjectHeap σ) : Set Nat := { block | ∃ manager, heap.Has manager block }

end ObjectHeap

def slotHeads (blocks : Set Nat) : Set SlotNode :=
  { node | ∃ block ∈ blocks, node = .free block ∨ node = .allocated block }

def slotMembers (heap : ObjectHeap σ) : SlotNode → List SlotNode
  | .free block => (heap.blocks block).freeSlots.map .header
  | .allocated block => (heap.blocks block).allocatedSlots.map .header
  | .header _ => []

/-- The slot lists in memory are those of the heap on lists, and all other fields agree. -/
structure TracksHeap (blocks : Set Nat) (state : LinkedHeap σ) (heap : ObjectHeap σ) : Prop where
  fields : state.heap = heap.bare
  lists : state.links.HoldsLists (slotHeads blocks) (slotMembers heap)

section
variable {blocks fewer : Set Nat} {state : LinkedHeap σ} {heap after : ObjectHeap σ} {address vaddr slot : Nat}

theorem free_mem_slotHeads (member : address ∈ blocks) : SlotNode.free address ∈ slotHeads blocks :=
  ⟨address, member, .inl rfl⟩

theorem allocated_mem_slotHeads (member : address ∈ blocks) : SlotNode.allocated address ∈ slotHeads blocks :=
  ⟨address, member, .inr rfl⟩

theorem slotHeads_mono (subset : fewer ⊆ blocks) : slotHeads fewer ⊆ slotHeads blocks := by
  rintro node ⟨block, member, isHead⟩
  exact ⟨block, subset member, isHead⟩

theorem header_mem_map {slots : List Nat} : SlotNode.header slot ∈ slots.map .header ↔ slot ∈ slots :=
  List.mem_map_of_injective SlotNode.header_injective

section
variable (tracks : TracksHeap blocks state heap)
include tracks

theorem TracksHeap.mono (subset : fewer ⊆ blocks) : TracksHeap fewer state heap :=
  ⟨tracks.fields, tracks.lists.mono (slotHeads_mono subset)⟩

theorem TracksHeap.setManager (manager : ObjectManager) :
    TracksHeap blocks (state.setManager address manager) (heap.setManager address manager) :=
  ⟨congrArg (fun heap : ObjectHeap σ => heap.setManager address manager) tracks.fields, tracks.lists⟩

theorem TracksHeap.free_nxt (member : address ∈ blocks) :
    state.links.nxt (.free address) = (heap.blocks address).freeSlots.head?.map .header := by
  rw [(tracks.lists.represents _ (free_mem_slotHeads member)).nxt_eq, slotMembers, List.head?_map]

theorem TracksHeap.take (member : address ∈ blocks)
    (run : kmemObjectAllocFromBlock address heap = .ok (vaddr, after)) :
    ∃ final, state.kmemObjectAllocFromBlock address = .ok (vaddr, final) ∧
      TracksHeap blocks final after := by
  unfold kmemObjectAllocFromBlock at run
  dsimp only at run
  split at run
  · cases run
  next node freeSlots first =>
    cases run
    have next : state.links.nxt (.free address) = some (.header node) := by
      rw [tracks.free_nxt member, first]
      rfl
    have used : (state.heap.blocks address).used = (heap.blocks address).used := by
      rw [tracks.fields]
      rfl
    refine ⟨⟨state.heap.setBlock address { state.heap.blocks address with
      used := (heap.blocks address).used + 1 },
      (state.links.detach (.header node)).insert (.allocated address) (.header node)⟩, ?_, ?_, ?_⟩
    · rw [LinkedHeap.kmemObjectAllocFromBlock, next]
      dsimp only
      rw [used]
      rfl
    · rw [ObjectHeap.bare_setBlock, tracks.fields]
      rfl
    · refine tracks.lists.move (free_mem_slotHeads member) (allocated_mem_slotHeads member) (by simp)
        (by rw [slotMembers, first]; exact List.mem_cons_self) ?_ ?_ ?_
      · simp [slotMembers, ObjectHeap.setBlock, first]
      · simp [slotMembers, ObjectHeap.setBlock]
      · rintro _ ⟨other, _, rfl | rfl⟩ notSource notTarget
        · have different : other ≠ address := fun same => notSource (by rw [same])
          simp [slotMembers, ObjectHeap.setBlock, different]
        · have different : other ≠ address := fun same => notTarget (by rw [same])
          simp [slotMembers, ObjectHeap.setBlock, different]

end

end

section
variable {links : Links SlotNode} {block : Nat} {slots : List Nat} {node : SlotNode}

theorem initBlock_other (notFree : node ≠ .free block) (notAllocated : node ≠ .allocated block)
    (notSlot : node ∉ slots.map .header) : (LinkedHeap.initBlock block slots links).nxt node = links.nxt node ∧
      (LinkedHeap.initBlock block slots links).prv node = links.prv node := by
  have outside : node ∉ SlotNode.free block :: slots.map .header := by
    rintro (_ | ⟨_, member⟩)
    · exact notFree rfl
    · exact notSlot member
  rw [LinkedHeap.initBlock, Links.appendNodes_nxt_other outside, Links.appendNodes_prv_other notSlot]
  simp [notFree, notAllocated]

theorem initBlock_free (nodup : slots.Nodup) :
    (LinkedHeap.initBlock block slots links).Represents (.free block) (slots.map .header) := by
  refine Links.appendNodes_represents (by simp) (List.nodup_cons.mpr ⟨by simp, ?_⟩)
  exact nodup.map SlotNode.header_injective

theorem initBlock_allocated : (LinkedHeap.initBlock block slots links).Represents (.allocated block) [] := by
  show (LinkedHeap.initBlock block slots links).nxt (.allocated block) = none
  rw [LinkedHeap.initBlock, Links.appendNodes_nxt_other (by simp)]
  simp

end

def withBlock (blocks : Set Nat) (block : Nat) : Set Nat := if block = 0 then blocks else insert block blocks

theorem slotHeads_insert (blocks : Set Nat) (block : Nat) :
    slotHeads (insert block blocks) = insert (.free block) (insert (.allocated block) (slotHeads blocks)) := by
  ext node
  constructor
  · rintro ⟨other, rfl | member, isHead⟩
    · exact isHead.imp id .inl
    · exact .inr (.inr ⟨other, member, isHead⟩)
  · rintro (rfl | rfl | ⟨other, member, isHead⟩)
    · exact ⟨block, .inl rfl, .inl rfl⟩
    · exact ⟨block, .inl rfl, .inr rfl⟩
    · exact ⟨other, .inr member, isHead⟩

variable [PageAllocator σ] [LawfulRuns σ]

def Inside (blocks : Set Nat) (heap : ObjectHeap σ) : Prop :=
  ∀ block ∈ blocks, block ∈ LawfulRuns.reserved heap.kmem ∧
    ∀ slot ∈ (heap.blocks block).slots, slot ∈ LawfulRuns.reserved heap.kmem

section
variable {blocks : Set Nat} {state final : LinkedHeap σ} {heap after : ObjectHeap σ}
  {manager pageOrder objectSize block : Nat}

theorem Carved.fresh (carved : Carved manager objectSize block heap after) :
    (after.blocks block).freeSlots.Nodup ∧ (after.blocks block).allocatedSlots = [] ∧
      (∀ other, other ≠ block → after.blocks other = heap.blocks other) ∧
      block ∉ LawfulRuns.reserved heap.kmem ∧
      ∀ slot ∈ (after.blocks block).freeSlots, slot ∉ LawfulRuns.reserved heap.kmem := by
  obtain ⟨pageOrder, count, kmem, parentBlock, rfl, _, _, blockSound, fresh, _⟩ := carved
  simp only [ObjectHeap.setBlock, Function.update_self]
  refine ⟨(List.nodup_append.mp blockSound.nodup).1, rfl, fun other different => ?_, ?_, ?_⟩
  · simp [different]
  · exact Set.disjoint_left.mp fresh blockSound.address_mem
  · intro slot member
    exact Set.disjoint_left.mp fresh (blockSound.slot_mem_pages (List.mem_append_left _ member))

theorem Inside.unlinked {node : SlotNode} (inside : Inside blocks heap) (notHead : node ∉ slotHeads blocks)
    (fresh : ∀ slot, node = .header slot → slot ∉ LawfulRuns.reserved heap.kmem) :
    Links.Unlinked (slotHeads blocks) (slotMembers heap) node := by
  have slots (other : Nat) (listed : other ∈ blocks) (slot : Nat)
      (member : slot ∈ (heap.blocks other).slots) : node ≠ .header slot :=
    fun same => fresh slot same ((inside other listed).2 slot member)
  intro head listed member
  rcases List.mem_cons.mp member with rfl | member
  · exact notHead listed
  · obtain ⟨other, otherListed, rfl | rfl⟩ := listed
    · obtain ⟨slot, inList, rfl⟩ := List.mem_map.mp member
      exact slots other otherListed slot (List.mem_append_left _ inList) rfl
    · obtain ⟨slot, inList, rfl⟩ := List.mem_map.mp member
      exact slots other otherListed slot (List.mem_append_right _ inList) rfl

theorem TracksHeap.carve {slots : List Nat} (tracks : TracksHeap blocks state heap) (inside : Inside blocks heap)
    (carved : Carved manager objectSize block heap after) (slotsEq : (after.blocks block).freeSlots = slots) :
    (LinkedHeap.initBlock block slots state.links).HoldsLists (slotHeads (insert block blocks))
      (slotMembers after) := by
  obtain ⟨nodup, noneAllocated, old, freshBlock, freshSlots⟩ := carved.fresh
  rw [slotsEq] at nodup freshSlots
  have notOld : block ∉ blocks := fun listed => freshBlock (inside block listed).1
  have freeNew : SlotNode.free block ∉ slotHeads blocks := by
    rintro ⟨other, listed, same | same⟩ <;> cases same
    exact notOld listed
  have allocatedNew : SlotNode.allocated block ∉ slotHeads blocks := by
    rintro ⟨other, listed, same | same⟩ <;> cases same
    exact notOld listed
  have freeUnlinked := inside.unlinked freeNew (fun slot same => by cases same)
  have allocatedUnlinked := inside.unlinked allocatedNew (fun slot same => by cases same)
  have slotUnlinked (slot : Nat) (member : slot ∈ slots) :
      Links.Unlinked (slotHeads blocks) (slotMembers heap) (.header slot) := by
    refine inside.unlinked ?_ (fun other same => ?_)
    · rintro ⟨other, _, same | same⟩ <;> cases same
    · cases same
      exact freshSlots slot member
  have same : ∀ head ∈ slotHeads blocks,
      state.links.SameOn (LinkedHeap.initBlock block slots state.links) (head :: slotMembers heap head) := by
    intro head listed node member
    refine initBlock_other ?_ ?_ ?_
    · rintro rfl
      exact freeUnlinked head listed member
    · rintro rfl
      exact allocatedUnlinked head listed member
    · intro isSlot
      obtain ⟨slot, inSlots, rfl⟩ := List.mem_map.mp isSlot
      exact slotUnlinked slot inSlots head listed member
  have one := tracks.lists.add initBlock_allocated (by simpa using allocatedUnlinked) same
  have two := one.add (initBlock_free nodup) ?_ (fun _ _ _ _ => ⟨rfl, rfl⟩)
  · rw [slotHeads_insert]
    refine two.congr ?_
    rintro _ (rfl | rfl | ⟨other, listed, rfl | rfl⟩)
    · simp [slotMembers, slotsEq]
    · simp [slotMembers, noneAllocated]
    · have different : other ≠ block := fun same => notOld (same ▸ listed)
      simp [slotMembers, old other different, different]
    · have different : other ≠ block := fun same => notOld (same ▸ listed)
      simp [slotMembers, old other different, different]
  · intro node member
    rcases List.mem_cons.mp member with rfl | isSlot
    · exact freeUnlinked.add allocatedNew (by simp)
    · obtain ⟨slot, inSlots, rfl⟩ := List.mem_map.mp isSlot
      exact (slotUnlinked slot inSlots).add allocatedNew (by simp)

omit [PageAllocator σ] [LawfulRuns σ] in
theorem TracksHeap.kmem_eq (tracks : TracksHeap blocks state heap) : state.heap.kmem = heap.kmem := by
  rw [tracks.fields]
  rfl

theorem TracksHeap.kmemObjectCreateBlock {size : Nat} (tracks : TracksHeap blocks state heap)
    (inside : Inside blocks heap)
    (run : Memory.kmemObjectCreateBlock manager pageOrder objectSize heap = .ok (block, after))
    (outcome : (block = 0 ∧ Refused heap after) ∨ (block ≠ 0 ∧ Carved manager size block heap after)) :
    ∃ final, state.kmemObjectCreateBlock manager pageOrder objectSize = .ok (block, final) ∧
      TracksHeap (withBlock blocks block) final after := by
  unfold Memory.kmemObjectCreateBlock at run
  unfold LinkedHeap.kmemObjectCreateBlock
  by_cases large : pageOrder ≥ maxMemOrder
  · rw [if_pos large] at run
    cases run
  · rw [if_neg large] at run ⊢
    obtain ⟨⟨given, kmem⟩, alloc, rest⟩ := Result.bind_ok run
    rw [tracks.kmem_eq, alloc, Result.ok_bind]
    dsimp only at rest ⊢
    by_cases null : given = 0
    · rw [if_pos null] at rest ⊢
      cases rest
      refine ⟨⟨{ state.heap with kmem }, state.links⟩, rfl, ?_, ?_⟩
      · exact congrArg (fun heap : ObjectHeap σ => { heap with kmem }) tracks.fields
      · rw [withBlock, if_pos rfl]
        exact tracks.lists
    · rw [if_neg null] at rest ⊢
      cases rest
      refine ⟨_, rfl, ?_, ?_⟩
      · rw [tracks.fields]
        dsimp only [ObjectHeap.bare, ObjectHeap.setBlock]
        congr 1
        funext other
        by_cases same : other = block
        · rw [same, Function.update_self, Function.update_self]
          rfl
        · rw [Function.update_of_ne same, Function.update_of_ne same]
      · rw [withBlock, if_neg null]
        have carved := (outcome.resolve_left fun refused => null refused.1).2
        exact tracks.carve inside carved (by simp [ObjectHeap.setBlock])

theorem Inside.refused (inside : Inside blocks heap) (refused : Refused heap after) : Inside blocks after := by
  obtain ⟨kmem, rfl, _, same⟩ := refused
  intro block listed
  dsimp only
  rw [same]
  exact inside block listed

theorem TracksHeap.createSomeBlock (tracks : TracksHeap blocks state heap) (inside : Inside blocks heap)
    (sound : LawfulRuns.Sound heap.kmem) (rounded : objectSize % objectAlignment = 0)
    (bounded : objectSize ≤ 2 ^ 32) (small : pageOrder < maxMemOrder)
    (run : Memory.createSomeBlock manager (objectSize + objectHeaderSize) objectSize pageOrder heap =
      .ok (block, after)) :
    ∃ final, state.createSomeBlock manager (objectSize + objectHeaderSize) objectSize pageOrder =
        .ok (block, final) ∧ TracksHeap (withBlock blocks block) final after := by
  induction pageOrder generalizing heap state with
  | zero =>
    rw [Memory.createSomeBlock] at run
    rw [LinkedHeap.createSomeBlock]
    split at run
    next holds =>
      rw [if_pos holds]
      obtain ⟨_, _, again, outcome⟩ :=
        @kmemObjectCreateBlock_spec _ _ _ manager 0 objectSize heap sound rounded bounded small holds
      cases again.symm.trans run
      exact tracks.kmemObjectCreateBlock inside run outcome
    next few =>
      rw [if_neg few]
      cases run
      exact ⟨state, rfl, by rwa [withBlock, if_pos rfl]⟩
  | succ pageOrder ih =>
    rw [Memory.createSomeBlock] at run
    rw [LinkedHeap.createSomeBlock]
    split at run
    next holds =>
      rw [if_pos holds]
      obtain ⟨tried, middle, create, outcome⟩ := @kmemObjectCreateBlock_spec _ _ _ manager (pageOrder + 1)
        objectSize heap sound rounded bounded small holds
      obtain ⟨next, nextRun, nextTracks⟩ := tracks.kmemObjectCreateBlock inside create outcome
      rw [create, Result.ok_bind] at run
      rw [nextRun, Result.ok_bind]
      dsimp only at run ⊢
      rcases outcome with ⟨rfl, refused⟩ | ⟨notNull, carved⟩
      · rw [if_pos rfl] at run ⊢
        rw [withBlock, if_pos rfl] at nextTracks
        have middleSound : LawfulRuns.Sound middle.kmem := by
          obtain ⟨_, rfl, soundAfter, _⟩ := refused
          exact soundAfter
        exact ih nextTracks (inside.refused refused) middleSound (Nat.lt_of_succ_lt small) run
      · rw [if_neg notNull] at run ⊢
        cases run
        exact ⟨next, rfl, nextTracks⟩
    next few =>
      rw [if_neg few]
      cases run
      exact ⟨state, rfl, by rwa [withBlock, if_pos rfl]⟩

end

section
variable {blocks : Set Nat} {state final : LinkedHeap σ} {heap after : ObjectHeap σ}
  {hart manager address vaddr : Nat}

omit [PageAllocator σ] [LawfulRuns σ] in
theorem attached_subset (known : after.managerList = heap.managerList)
    (members : ∀ manager ∈ heap.known, ∀ block ∈ (after.managers manager).blocks, block ∈ blocks) :
    after.attached ⊆ blocks := by
  rintro block ⟨manager, isKnown, member⟩
  rw [ObjectHeap.known, known] at isKnown
  exact members manager isKnown block member

omit [PageAllocator σ] [LawfulRuns σ] in
theorem setLock_blocks (heap : ObjectHeap σ) (manager other : Nat) (lock : Spinlock) :
    ((heap.setManager manager { heap.managers manager with lock }).managers other).blocks =
      (heap.managers other).blocks := by
  by_cases same : other = manager
  · subst same
    simp [ObjectHeap.setManager]
  · simp [ObjectHeap.setManager, same]

theorem HeapSound.inside (sound : HeapSound heap) : Inside heap.attached heap := by
  rintro block ⟨manager, has⟩
  have blockSound := sound.blocks has
  exact ⟨sound.pages has blockSound.address_mem,
    fun slot member => sound.pages has (blockSound.slot_mem_pages member)⟩

section
variable (tracks : TracksHeap heap.attached state heap)
include tracks

theorem TracksHeap.search {unitSize order : Nat} (sound : HeapSound heap) (known : manager ∈ heap.known)
    (unit : unitSize = (heap.managers manager).objectSize + objectHeaderSize) (small : order < maxMemOrder)
    (run : (do
      let (block, heap') ← Memory.createSomeBlock manager unitSize (heap.managers manager).objectSize order heap
      if block = 0 then return (0, heap')
      Memory.kmemObjectAllocFromBlock block (heap'.setManager manager
        { heap.managers manager with blocks := block :: (heap.managers manager).blocks }) :
      Result (Nat × ObjectHeap σ)) = .ok (vaddr, after)) :
    ∃ final, (do
        let (block, state') ← state.createSomeBlock manager unitSize (heap.managers manager).objectSize order
        if block = 0 then return (0, state')
        (state'.setManager manager { heap.managers manager with
          blocks := block :: (heap.managers manager).blocks }).kmemObjectAllocFromBlock block :
        Result (Nat × LinkedHeap σ)) = .ok (vaddr, final) ∧
      TracksHeap after.attached final after := by
  obtain ⟨rounded, bounded⟩ := sound.sizes manager known
  subst unit
  obtain ⟨⟨block, middle⟩, create, run⟩ := Result.bind_ok run
  obtain ⟨_, _, again, outcome⟩ :=
    @createSomeBlock_spec _ _ _ manager order _ heap sound.sound rounded bounded small
  cases again.symm.trans create
  obtain ⟨next, nextRun, nextTracks⟩ := tracks.createSomeBlock sound.inside sound.sound rounded bounded small create
  rw [nextRun, Result.ok_bind]
  dsimp only at run ⊢
  rcases outcome with ⟨rfl, kmem, rfl, _⟩ | ⟨notNull, carved⟩
  · cases run
    rw [withBlock, if_pos rfl] at nextTracks
    exact ⟨next, rfl, nextTracks⟩
  · rw [if_neg notNull] at run ⊢
    rw [withBlock, if_neg notNull] at nextTracks
    obtain ⟨final, finalRun, finalTracks⟩ := (nextTracks.setManager { heap.managers manager with
        blocks := block :: (heap.managers manager).blocks }).take (Set.mem_insert ..) run
    refine ⟨final, finalRun, finalTracks.mono ?_⟩
    obtain ⟨managers, list⟩ := kmemObjectAllocFromBlock_managers run
    obtain ⟨_, _, _, _, rfl, _⟩ := carved
    refine attached_subset list fun other isKnown old member => ?_
    rw [managers] at member
    by_cases same : other = manager
    · subst same
      simp only [ObjectHeap.setManager, Function.update_self] at member
      rcases List.mem_cons.mp member with rfl | member
      · exact Set.mem_insert ..
      · exact .inr ⟨other, known, member⟩
    · simp only [ObjectHeap.setManager, Function.update_of_ne same] at member
      exact .inr ⟨other, isKnown, member⟩

omit [PageAllocator σ] [LawfulRuns σ] in
theorem TracksHeap.find_eq (known : manager ∈ heap.known) :
    (heap.managers manager).blocks.find? (fun block => (state.links.nxt (.free block)).isSome) =
      (heap.managers manager).blocks.find? (fun block => !(heap.blocks block).freeSlots.isEmpty) := by
  refine List.find?_congr fun block member => ?_
  rw [tracks.free_nxt ⟨manager, known, member⟩]
  cases (heap.blocks block).freeSlots <;> rfl

section
variable (sound : HeapSound heap)
include sound

theorem TracksHeap.allocates
    (known : manager ∈ heap.known) (run : Memory.kmemObjectAlloc hart manager heap = .ok (vaddr, after)) :
    ∃ final, state.kmemObjectAlloc hart manager = .ok (vaddr, final) ∧
      TracksHeap after.attached final after := by
  have unit := sound.unit known
  obtain ⟨lock, acquired, run⟩ := Result.bind_ok run
  obtain ⟨⟨found, middle⟩, search, run⟩ := Result.bind_ok run
  obtain ⟨opened, release, run⟩ := Result.bind_ok run
  cases run
  have finish {next : LinkedHeap σ} (nextTracks : TracksHeap middle.attached next middle) :
      TracksHeap (middle.setManager manager { middle.managers manager with lock := opened }).attached
        (next.setManager manager { next.heap.managers manager with lock := opened })
        (middle.setManager manager { middle.managers manager with lock := opened }) := by
    have managers : next.heap.managers = middle.managers := by
      rw [nextTracks.fields]
      rfl
    rw [managers]
    refine (nextTracks.setManager _).mono (attached_subset rfl fun other isKnown block member => ?_)
    rw [setLock_blocks] at member
    exact ⟨other, isKnown, member⟩
  have managers : state.heap.managers = heap.managers := by
    rw [tracks.fields]
    rfl
  have used : (fun block => (state.heap.blocks block).used) = fun block => (heap.blocks block).used := by
    rw [tracks.fields]
    rfl
  rw [LinkedHeap.kmemObjectAlloc]
  dsimp only at search ⊢
  simp only [managers, congrFun used]
  rw [acquired, Result.ok_bind, tracks.find_eq known]
  cases first : (heap.managers manager).blocks.find? (fun block => !(heap.blocks block).freeSlots.isEmpty) with
  | some block =>
    rw [first] at search
    dsimp only at search ⊢
    obtain ⟨next, nextRun, nextTracks⟩ := tracks.take ⟨manager, known, List.mem_of_find?_eq_some first⟩ search
    rw [nextRun, Result.ok_bind]
    dsimp only
    rw [release, Result.ok_bind]
    refine ⟨_, rfl, finish (nextTracks.mono ?_)⟩
    obtain ⟨managers, list⟩ := kmemObjectAllocFromBlock_managers search
    refine attached_subset list fun other isKnown old member => ?_
    rw [managers] at member
    exact ⟨other, isKnown, member⟩
  | none =>
    rw [first] at search
    dsimp only at search ⊢
    obtain ⟨next, nextRun, nextTracks⟩ := tracks.search sound known unit (firstBlockOrder_lt (by decide)) search
    rw [nextRun, Result.ok_bind]
    dsimp only
    rw [release, Result.ok_bind]
    exact ⟨_, rfl, finish nextTracks⟩

theorem TracksHeap.kmemObjectAlloc
    (known : manager ∈ heap.known) (run : state.kmemObjectAlloc hart manager = .ok (vaddr, final)) :
    ∃ after, Memory.kmemObjectAlloc hart manager heap = .ok (vaddr, after) ∧
      TracksHeap after.attached final after := by
  obtain ⟨lock, acquired, _⟩ := Result.bind_ok run
  have managers : state.heap.managers = heap.managers := by
    rw [tracks.fields]
    rfl
  rw [managers] at acquired
  obtain ⟨_, after, returned, _⟩ := kmemObjectAlloc_spec sound known acquired
  obtain ⟨_, again, tracksAfter⟩ := tracks.allocates sound known returned
  cases again.symm.trans run
  exact ⟨after, returned, tracksAfter⟩

theorem TracksHeap.freedSlot {slot : Nat} (has : heap.Has manager address)
    (allocated : slot ∈ (heap.blocks address).allocatedSlots) : TracksHeap heap.attached
      ⟨state.heap.setBlock address { state.heap.blocks address with
          used := ulongSub (state.heap.blocks address).used 1 },
        (state.links.detach (.header slot)).insert (.free address) (.header slot)⟩
      (Memory.freedSlot address slot heap) := by
  have member : address ∈ heap.attached := ⟨manager, has⟩
  have notFree : slot ∉ (heap.blocks address).freeSlots := fun free =>
    (List.nodup_append.mp (sound.blocks has).nodup).2.2 slot free slot allocated rfl
  refine ⟨?_, ?_⟩
  · dsimp only
    rw [Memory.freedSlot, ObjectHeap.bare_setBlock, tracks.fields]
    rfl
  · refine tracks.lists.move (allocated_mem_slotHeads member) (free_mem_slotHeads member) (by simp)
      (header_mem_map.mpr allocated) ?_ ?_ ?_
    · simp only [slotMembers, Memory.freedSlot, ObjectHeap.setBlock, Function.update_self]
      exact List.map_erase SlotNode.header_injective ..
    · simp [slotMembers, Memory.freedSlot, ObjectHeap.setBlock, List.erase_of_not_mem notFree]
    · rintro _ ⟨other, _, rfl | rfl⟩ notSource notTarget
      · have different : other ≠ address := fun same => notTarget (by rw [same])
        simp [slotMembers, Memory.freedSlot, ObjectHeap.setBlock, different]
      · have different : other ≠ address := fun same => notSource (by rw [same])
        simp [slotMembers, Memory.freedSlot, ObjectHeap.setBlock, different]

theorem TracksHeap.kmemObjectFree
    (live : Live manager vaddr heap) (run : state.kmemObjectFree hart vaddr = .ok final) :
    ∃ after, Memory.kmemObjectFree hart vaddr heap = .ok after ∧ TracksHeap after.attached final after := by
  obtain ⟨address, slot, has, allocated, rfl, _, steps⟩ := @kmemObjectFree_steps _ _ _ heap hart _ _ sound live
  have blockSound := sound.blocks has
  have member : slot ∈ (heap.blocks address).slots := List.mem_append_right _ allocated
  have pointer : headerPointer slot = some (.header slot) := by
    have inside := (blockSound.slot_inside member).1
    exact if_neg (by unfold objectBlockSize at inside; omega)
  have parentBlock : state.heap.parentBlock = heap.parentBlock := by
    rw [tracks.fields]
    rfl
  have managers : state.heap.managers = heap.managers := by
    rw [tracks.fields]
    rfl
  have parentManager : (state.heap.blocks address).parentManager = manager := by
    rw [tracks.fields]
    exact blockSound.ofManager
  rw [LinkedHeap.kmemObjectFree, blockSound.header_eq member, pointer, parentBlock,
    blockSound.parent slot member] at run
  dsimp only at run
  subst parentManager
  rw [managers] at run
  obtain ⟨lock, acquired, run⟩ := Result.bind_ok run
  obtain ⟨_, detached, run⟩ := Result.bind_ok run
  cases detached
  obtain ⟨_, inserted, run⟩ := Result.bind_ok run
  cases inserted
  obtain ⟨opened, release, run⟩ := Result.bind_ok run
  cases run
  refine ⟨_, ?_, ((tracks.freedSlot sound has allocated).setManager _).mono ?_⟩
  · rw [steps, acquired, Result.ok_bind, release, Result.ok_bind]
    rfl
  · refine attached_subset rfl fun other isKnown block listed => ?_
    have listedBefore := (setLock_blocks (Memory.freedSlot address slot heap) _ other opened).subst listed
    exact ⟨other, isKnown, listedBefore⟩

theorem TracksHeap.kmemObjectCreateManager {objectSize : Nat} {name : String} {memory : Memory}
    (run : state.kmemObjectCreateManager hart objectSize name memory = .ok (manager, final)) :
    ∃ after, Memory.kmemObjectCreateManager hart objectSize name memory heap = .ok (manager, after) ∧
      TracksHeap after.attached final after := by
  obtain ⟨⟨newMgr, next⟩, alloc, run⟩ := Result.bind_ok run
  obtain ⟨middle, allocated, middleTracks⟩ := tracks.kmemObjectAlloc sound List.mem_cons_self alloc
  dsimp only at run
  by_cases null : newMgr = 0
  · rw [if_pos null] at run
    cases run
  · rw [if_neg null] at run
    cases run
    refine ⟨{ middle.setManager manager {
        blockName := name, objectSize := binaryRoundUp objectSize objectAlignment,
        lock := ⟨memory.loadBytes (manager + 16) 4, memory.loadBytes (manager + 32) 8⟩,
        blocks := [] } with managerList := manager :: middle.managerList },
      ?_, ?_, middleTracks.lists.mono (slotHeads_mono ?_)⟩
    · rw [Memory.kmemObjectCreateManager, allocated, Result.ok_bind]
      dsimp only
      rw [if_neg null]
      rfl
    · simp only [LinkedHeap.setManager, middleTracks.fields]
      rfl
    · rintro block ⟨other, isKnown, member⟩
      by_cases same : other = manager
      · subst same
        simp [ObjectHeap.setManager] at member
      · simp only [ObjectHeap.setManager, Function.update_of_ne same] at member
        have knownBefore : other ∈ middle.known := by
          simp only [ObjectHeap.known, List.mem_cons] at isKnown ⊢
          exact isKnown.imp id fun listed => listed.resolve_left same
        exact ⟨other, knownBefore, member⟩

end

end

end

end Kalorona.Memory
