import Kalorona.Memory.ObjectComplete

namespace Kalorona.Memory

open Kalorona.Data Kalorona.Utilities

/-! # The size classes of `kmem_alloc`

`kmem_init` puts each smaller class in front of the others, so the search of `kmem_alloc` meets the
tightest class first.
-/

variable {memory : Memory}

section
variable {σ : Type} [PageAllocator σ] {heap after : ObjectHeap σ} {hart manager block vaddr : Nat}

/-- Only the record of one manager changes; it keeps its size, and its lock is open. -/
structure OwnRecord (manager : Nat) (heap after : ObjectHeap σ) : Prop where
  list : after.managerList = heap.managerList
  others : ∀ other, other ≠ manager → after.managers other = heap.managers other
  size : (after.managers manager).objectSize = (heap.managers manager).objectSize
  lock : (after.managers manager).lock = ⟨0, 0⟩

omit [PageAllocator σ] in
theorem OwnRecord.sizes (own : OwnRecord manager heap after) (other : Nat) :
    (after.managers other).objectSize = (heap.managers other).objectSize := by
  by_cases same : other = manager
  · rw [same, own.size]
  · rw [own.others other same]

variable {objectSize : Nat}

theorem kmemObjectCreateBlock_managers {order : Nat}
    (run : kmemObjectCreateBlock manager order objectSize heap = .ok (block, after)) :
    after.managers = heap.managers ∧ after.managerList = heap.managerList := by
  unfold kmemObjectCreateBlock at run
  split at run
  · cases run
  · obtain ⟨⟨found, kmem⟩, _, run⟩ := Result.bind_ok run
    dsimp only at run
    split at run <;> cases run <;> exact ⟨rfl, rfl⟩

theorem createSomeBlock_managers {unitSize order : Nat}
    (run : createSomeBlock manager unitSize objectSize order heap = .ok (block, after)) :
    after.managers = heap.managers ∧ after.managerList = heap.managerList := by
  induction order generalizing heap with
  | zero =>
    unfold createSomeBlock at run
    split at run
    · exact kmemObjectCreateBlock_managers run
    · cases run
      exact ⟨rfl, rfl⟩
  | succ order ih =>
    unfold createSomeBlock at run
    split at run
    · obtain ⟨⟨found, middle⟩, create, run⟩ := Result.bind_ok run
      obtain ⟨managers, list⟩ := kmemObjectCreateBlock_managers create
      dsimp only at run
      split at run
      · rw [← managers, ← list]
        exact ih run
      · cases run
        exact ⟨managers, list⟩
    · cases run
      exact ⟨rfl, rfl⟩

theorem kmemObjectAlloc_record (run : kmemObjectAlloc hart manager heap = .ok (vaddr, after)) :
    OwnRecord manager heap after := by
  obtain ⟨lock, acquired, run⟩ := Result.bind_ok run
  obtain ⟨⟨found, middle⟩, search, run⟩ := Result.bind_ok run
  rw [spinlockRelease_acquired acquired] at run
  cases run
  -- until the lock is opened only the chain of blocks can have changed
  have kept : middle.managerList = heap.managerList ∧
      (∀ other, other ≠ manager → middle.managers other = heap.managers other) ∧
      (middle.managers manager).objectSize = (heap.managers manager).objectSize := by
    dsimp only at search
    split at search
    · obtain ⟨managers, list⟩ := kmemObjectAllocFromBlock_managers search
      exact ⟨list, fun other _ => by rw [managers], by rw [managers]⟩
    · obtain ⟨⟨block, created⟩, create, search⟩ := Result.bind_ok search
      obtain ⟨managers, list⟩ := createSomeBlock_managers create
      dsimp only at search
      split at search
      · cases search
        exact ⟨list, fun other _ => by rw [managers], by rw [managers]⟩
      · obtain ⟨attached, attachedList⟩ := kmemObjectAllocFromBlock_managers search
        refine ⟨attachedList.trans list, fun other different => ?_, ?_⟩
        · rw [attached]
          simp [ObjectHeap.setManager, different, managers]
        · rw [attached]
          simp [ObjectHeap.setManager]
  obtain ⟨list, others, size⟩ := kept
  refine ⟨list, fun other different => ?_, ?_, ?_⟩
  · simpa [ObjectHeap.setManager, different] using others other different
  · simpa [ObjectHeap.setManager] using size
  · simp [ObjectHeap.setManager]

variable [LawfulRuns σ]

theorem kmemObjectFree_gives (sound : HeapSound heap) (live : Live manager vaddr heap)
    (run : kmemObjectFree hart vaddr heap = .ok after) :
    OwnRecord manager heap after ∧ ∃ address slot, heap.Has manager address ∧
      slot ∈ (heap.blocks address).allocatedSlots ∧ vaddr = slot + objectHeaderSize ∧
      after.Has manager address ∧ slot ∈ (after.blocks address).freeSlots := by
  obtain ⟨address, slot, has, allocated, isSlot, _, steps⟩ := @kmemObjectFree_steps _ _ _ heap hart _ _ sound live
  rw [steps] at run
  obtain ⟨lock, acquired, run⟩ := Result.bind_ok run
  rw [spinlockRelease_acquired acquired] at run
  cases run
  refine ⟨⟨rfl, fun other different => ?_, ?_, ?_⟩, address, slot, has, allocated, isSlot, ⟨has.1, ?_⟩, ?_⟩
  · simp [ObjectHeap.setManager, freedSlot, ObjectHeap.setBlock, different]
  · simp [ObjectHeap.setManager]
  · simp [ObjectHeap.setManager]
  · simpa [ObjectHeap.setManager] using has.2
  · simp [ObjectHeap.setManager, freedSlot, ObjectHeap.setBlock]

theorem kmemObjectCreateManager_record {name : String} (sound : HeapSound heap)
    (run : kmemObjectCreateManager hart objectSize name memory heap = .ok (manager, after)) :
    manager ∉ heap.known ∧ after.managerList = manager :: heap.managerList ∧
      after.managers manager = ⟨name, binaryRoundUp objectSize objectAlignment,
        ⟨memory.loadBytes (manager + 16) 4, memory.loadBytes (manager + 32) 8⟩, []⟩ ∧
      ∀ other, other ≠ manager → (after.managers other).objectSize = (heap.managers other).objectSize := by
  obtain ⟨⟨newMgr, middle⟩, alloc, run⟩ := Result.bind_ok run
  have own := kmemObjectAlloc_record alloc
  obtain ⟨_, list, null | ⟨address, slot, _, _, isSlot, isNew⟩⟩ := sound.alloc List.mem_cons_self alloc
  · dsimp only at run
    rw [if_pos null] at run
    cases run
  · have notNull : newMgr ≠ 0 := by
      rw [isSlot]
      exact Nat.succ_ne_zero _
    dsimp only at run
    rw [if_neg notNull] at run
    cases run
    refine ⟨?_, congrArg (List.cons _) list, by simp [ObjectHeap.setManager], fun other different => ?_⟩
    · rw [ObjectHeap.known, List.mem_cons, ← list]
      exact fun either => either.elim notNull isNew
    · simpa [ObjectHeap.setManager, different] using own.sizes other

/-- A manager that objects of a size can be taken from: anybody can take its lock, it has no blocks
yet, and it stands once in the list of all managers. -/
structure Usable (objectSize manager : Nat) (heap : ObjectHeap σ) : Prop where
  unlocked : (heap.managers manager).lock.locked = 0
  acquires : ∀ hart, ∃ lock, spinlockAcquire hart (heap.managers manager).lock = .ok lock
  noBlocks : (heap.managers manager).blocks = []
  aligned : (heap.managers manager).objectSize % objectAlignment = 0
  rounded : objectSize ≤ (heap.managers manager).objectSize ∧
    (heap.managers manager).objectSize < objectSize + objectAlignment
  linked : heap.managerList.count manager = 1

/-- A new manager is usable exactly if the memory of its record held zero in the place of the lock,
and its object size can be rounded up within a word. -/
theorem new_manager_usable_iff {objectSize : Nat} {name : String} {memory : Memory} (sound : HeapSound heap)
    (word : objectSize < 2 ^ 64)
    (run : kmemObjectCreateManager hart objectSize name memory heap = .ok (manager, after)) :
    Usable objectSize manager after ↔
      memory.loadBytes (manager + 16) 4 = 0 ∧ objectSize + objectAlignment ≤ 2 ^ 64 := by
  obtain ⟨isNew, list, record, _⟩ := kmemObjectCreateManager_record sound run
  constructor
  · intro usable
    have unlocked := usable.unlocked
    have rounded := usable.rounded.1
    rw [record] at unlocked rounded
    refine ⟨unlocked, ?_⟩
    by_contra large
    unfold objectAlignment at large
    simp only [binaryRoundUp_of_large word (Nat.lt_of_not_le large)] at rounded
    omega
  · rintro ⟨unlocked, small⟩
    have size : binaryRoundUp objectSize objectAlignment = (objectSize + 7) / 8 * 8 := binaryRoundUp_eq small
    refine ⟨?_, fun hart => ⟨⟨1, hart⟩, ?_⟩, ?_, ?_, ?_, ?_⟩
    · rw [record]
      exact unlocked
    · rw [record]
      simp [spinlockAcquire, isHoldingSpinlock, unlocked]
    · rw [record]
    · rw [record, size]
      exact Nat.mul_mod_left _ _
    · simp only [record, size]
      unfold objectAlignment
      omega
    · rw [list, List.count_cons_self, List.count_eq_zero.mpr fun listed => isNew (List.mem_cons_of_mem _ listed)]

end

/-- The first manager on the board with sixteen pages of RAM, in memory that holds zeroes. -/
theorem new_manager_usable_zeroed : ∃ (heap after : ObjectHeap Kmem) (manager : Nat), HeapSound heap ∧
      kmemObjectCreateManager 1 listNodeSize "list_node" (fun _ => 0) heap = .ok (manager, after) ∧
      Usable listNodeSize manager after := by
  obtain ⟨kmem, _, _, boot, lawful⟩ := sixteen_pages_lawful
  have sound : HeapSound (kmemObjectInit (emptyHeap kmem)) := kmemObjectInit_sound lawful rfl rfl
  obtain ⟨_, again, ⟨manager, after⟩, create, _⟩ :
      ∃ boot, kmemPageManagerInit (smallNode 16 0) (fun _ => 0) = .ok boot ∧
        ∃ made, kmemObjectCreateManager 1 listNodeSize "list_node" (fun _ => 0)
          (kmemObjectInit (emptyHeap boot.1)) = .ok made ∧ True := by decide +kernel
  cases boot.symm.trans again
  have zero : Memory.loadBytes (fun _ => 0) (manager + 16) 4 = 0 := rfl
  exact ⟨_, after, manager, sound, create, (new_manager_usable_iff sound (by decide) create).mpr ⟨zero, by decide⟩⟩

/-- Where the memory held something else, the first call hangs. -/
theorem new_manager_hangs : ∃ (heap after : ObjectHeap Kmem) (manager : Nat), HeapSound heap ∧
      kmemObjectCreateManager 1 listNodeSize "list_node" (fun _ => 1) heap = .ok (manager, after) ∧
      kmemObjectAlloc 1 manager after = .error .hang ∧ ¬ Usable listNodeSize manager after := by
  obtain ⟨kmem, _, _, boot, lawful⟩ := sixteen_pages_lawful
  have sound : HeapSound (kmemObjectInit (emptyHeap kmem)) := kmemObjectInit_sound lawful rfl rfl
  obtain ⟨_, again, ⟨manager, after⟩, create, locked, hangs⟩ :
      ∃ boot, kmemPageManagerInit (smallNode 16 0) (fun _ => 0) = .ok boot ∧
        ∃ made, kmemObjectCreateManager 1 listNodeSize "list_node" (fun _ => 1)
          (kmemObjectInit (emptyHeap boot.1)) = .ok made ∧ (made.2.managers made.1).lock.locked = 0x01010101 ∧
            kmemObjectAlloc 1 made.1 made.2 = .error .hang := by decide +kernel
  cases boot.symm.trans again
  exact ⟨_, after, manager, sound, create, hangs,
    fun usable => absurd (locked.symm.trans usable.unlocked) (by decide)⟩

section
variable {σ : Type} [PageAllocator σ] [LawfulRuns σ] {heap after : ObjectHeap σ} {manager : Nat}

theorem HeapStep.keeps_size (sound : HeapSound heap) (step : HeapStep heap after) (known : manager ∈ heap.known) :
    manager ∈ after.known ∧ (after.managers manager).objectSize = (heap.managers manager).objectSize := by
  cases step with
  | alloc _ run =>
    have own := kmemObjectAlloc_record run
    exact ⟨by rwa [ObjectHeap.known, own.list], own.sizes manager⟩
  | free live run =>
    have own := (kmemObjectFree_gives sound live run).1
    exact ⟨by rwa [ObjectHeap.known, own.list], own.sizes manager⟩
  | createManager _ run =>
    obtain ⟨isNew, list, _, others⟩ := kmemObjectCreateManager_record sound run
    refine ⟨?_, others manager fun same => isNew (same ▸ known)⟩
    rw [ObjectHeap.known, list]
    rcases List.mem_cons.mp known with root | listed
    · exact root ▸ List.mem_cons_self
    · exact List.mem_cons_of_mem _ (List.mem_cons_of_mem _ listed)
  | others _ _ => exact ⟨known, rfl⟩

end

/-- The managers in the list have the given sizes, and the memory below stands for a sound allocator. -/
structure Classes (pages : Set Nat) (sizes managers : List Nat) (heap : ObjectHeap LinkedKmem) : Prop where
  sound : HeapSound heap
  kept : FaithfulPages pages heap.kmem
  known : ∀ manager ∈ managers, manager ∈ heap.known
  sizes : managers.map (fun manager => (heap.managers manager).objectSize) = sizes

section
variable {pages : Set Nat} {sizes managers : List Nat} {heap after : ObjectHeap LinkedKmem} {hart : Nat}

theorem Classes.step (classes : Classes pages sizes managers heap) (step : HeapStep heap after)
    (kept : FaithfulPages pages after.kmem) : Classes pages sizes managers after := by
  refine ⟨step.sound classes.sound, kept, fun manager member => ?_, ?_⟩
  · exact (step.keeps_size classes.sound (classes.known manager member)).1
  · rw [← classes.sizes]
    apply List.map_congr_left
    intro manager member
    exact (step.keeps_size classes.sound (classes.known manager member)).2

theorem Classes.ready (classes : Classes pages sizes managers heap) : HeapReady heap :=
  ⟨classes.sound, classes.kept.refuses⟩

theorem createUniManagers_classes {table : List (Nat × String)}
    {state final : KmemState LinkedKmem} (classes : Classes pages sizes state.uniManagers state.heap)
    (listKnown : state.listNodeObjectManager ∈ state.heap.known)
    (rounded : ∀ size ∈ table.map Prod.fst, binaryRoundUp size objectAlignment = size ∧ size ≤ 2 ^ 32)
    (run : createUniManagers hart memory table state = .ok final) :
    Classes pages ((table.map Prod.fst).reverse ++ sizes) final.uniManagers final.heap := by
  induction table generalizing state sizes with
  | nil =>
    cases run
    exact classes
  | cons first rest ih =>
    obtain ⟨size, name⟩ := first
    obtain ⟨⟨node, nodeHeap⟩, alloc, run⟩ := Result.bind_ok run
    obtain ⟨⟨manager, managerHeap⟩, create, run⟩ := Result.bind_ok run
    dsimp only at alloc create run
    split at run
    · cases run
    obtain ⟨⟨exact, small⟩, restRounded⟩ := List.forall_mem_cons.mp rounded
    have allocStep : HeapStep state.heap nodeHeap := .alloc listKnown alloc
    have createStep : HeapStep nodeHeap managerHeap := .createManager small create
    have taken := FaithfulPages.keptByAlloc.kmemObjectAlloc classes.kept alloc
    have nodeClasses := classes.step allocStep taken
    have listStays := (allocStep.keeps_size classes.sound listKnown).1
    obtain ⟨_, _, record, _⟩ := kmemObjectCreateManager_record nodeClasses.sound create
    have newKnown := (nodeClasses.sound.createManager small create).2
    have oldClasses := nodeClasses.step createStep (FaithfulPages.keptByAlloc.kmemObjectCreateManager taken create)
    have extended : Classes pages (size :: sizes) (manager :: state.uniManagers) managerHeap := by
      refine ⟨oldClasses.sound, oldClasses.kept, List.forall_mem_cons.mpr ⟨newKnown, oldClasses.known⟩, ?_⟩
      rw [List.map_cons, record, oldClasses.sizes, exact]
    have listLater := (createStep.keeps_size nodeClasses.sound listStays).1
    have rest := ih (by exact extended) listLater restRounded run
    rw [List.map_cons, List.reverse_cons, List.append_assoc, List.singleton_append]
    exact rest

theorem createManagers_classes {kmem : LinkedKmem} {state : KmemState LinkedKmem}
    (kept : FaithfulPages pages kmem) (init : createManagers hart memory kmem = .ok state) :
    Classes pages [32, 64, 128, 256, 512, 1024, 2048, 4096, 8192, 16384, 32768, 65536, 131072]
      state.uniManagers state.heap := by
  obtain ⟨⟨listManager, created⟩, create, run⟩ := Result.bind_ok init
  have empty : Classes pages [] [] (kmemObjectInit (emptyHeap kmem)) :=
    ⟨kmemObjectInit_sound kept.sound rfl rfl, kept, by simp, rfl⟩
  obtain ⟨_, listKnown⟩ := empty.sound.createManager (by decide) create
  have noClass : Classes pages [] [] created := empty.step (.createManager (by decide) create)
    (FaithfulPages.keptByAlloc.kmemObjectCreateManager kept create)
  exact createUniManagers_classes (by exact noClass) listKnown (by decide) run

end

section
variable {hart size manager vaddr : Nat} {managers : List Nat} {heap middle after : ObjectHeap LinkedKmem}

def LockFree (hart manager : Nat) (heap : ObjectHeap LinkedKmem) : Prop :=
  ∃ lock, spinlockAcquire hart (heap.managers manager).lock = .ok lock

/-- The class has no object: its `kmem_object_alloc` returns null. -/
def Fails (hart manager : Nat) (heap : ObjectHeap LinkedKmem) : Prop :=
  ∃ after, kmemObjectAlloc hart manager heap = .ok (0, after)

def Succeeds (hart manager : Nat) (heap : ObjectHeap LinkedKmem) : Prop :=
  ∃ vaddr after, kmemObjectAlloc hart manager heap = .ok (vaddr, after) ∧ vaddr ≠ 0

theorem lockFree_of_open (isOpen : (heap.managers manager).lock = ⟨0, 0⟩) : LockFree hart manager heap := by
  refine ⟨⟨1, hart⟩, ?_⟩
  rw [isOpen]
  simp [spinlockAcquire, isHoldingSpinlock]

theorem fails_iff (ready : HeapReady heap) (known : manager ∈ heap.known) :
    Fails hart manager heap ↔ LockFree hart manager heap ∧ OutOfMemory manager heap := by
  constructor
  · rintro ⟨after, run⟩
    obtain ⟨lock, free, _⟩ := Result.bind_ok run
    obtain ⟨_, out, _⟩ | ⟨notNull, _⟩ := kmemObjectAlloc_cases ready known run
    · exact ⟨⟨lock, free⟩, out⟩
    · exact absurd rfl notNull
  · rintro ⟨⟨lock, free⟩, out⟩
    obtain ⟨vaddr, after, run, _⟩ := kmemObjectAlloc_spec ready.toHeapSound known free
    obtain ⟨rfl, _⟩ | ⟨_, notOut, _⟩ := kmemObjectAlloc_cases ready known run
    · exact ⟨after, run⟩
    · exact absurd out notOut

theorem succeeds_iff (ready : HeapReady heap) (known : manager ∈ heap.known) :
    Succeeds hart manager heap ↔ LockFree hart manager heap ∧ ¬ OutOfMemory manager heap := by
  constructor
  · rintro ⟨vaddr, after, run, notNull⟩
    obtain ⟨lock, free, _⟩ := Result.bind_ok run
    obtain ⟨null, _⟩ | ⟨_, notOut, _⟩ := kmemObjectAlloc_cases ready known run
    · exact absurd null notNull
    · exact ⟨⟨lock, free⟩, notOut⟩
  · rintro ⟨⟨lock, free⟩, notOut⟩
    obtain ⟨vaddr, after, run, _⟩ := kmemObjectAlloc_spec ready.toHeapSound known free
    obtain ⟨_, out, _⟩ | ⟨notNull, _⟩ := kmemObjectAlloc_cases ready known run
    · exact absurd out notOut
    · exact ⟨vaddr, after, run, notNull⟩

/-- The same heap, with locks released. -/
structure Opened (heap after : ObjectHeap LinkedKmem) : Prop where
  kmem : after.kmem = heap.kmem
  blocks : after.blocks = heap.blocks
  list : after.managerList = heap.managerList
  size : ∀ manager, (after.managers manager).objectSize = (heap.managers manager).objectSize
  chain : ∀ manager, (after.managers manager).blocks = (heap.managers manager).blocks
  lock : ∀ manager, (after.managers manager).lock = (heap.managers manager).lock ∨
    (after.managers manager).lock = ⟨0, 0⟩

theorem Opened.trans (first : Opened heap middle) (second : Opened middle after) : Opened heap after where
  kmem := second.kmem.trans first.kmem
  blocks := second.blocks.trans first.blocks
  list := second.list.trans first.list
  size manager := (second.size manager).trans (first.size manager)
  chain manager := (second.chain manager).trans (first.chain manager)
  lock manager := by
    rcases second.lock manager with same | isOpen
    · rw [same]
      exact first.lock manager
    · exact .inr isOpen

theorem Opened.outOfMemory (opened : Opened heap after) : OutOfMemory manager after ↔ OutOfMemory manager heap := by
  unfold OutOfMemory
  rw [opened.kmem, opened.blocks, opened.size, opened.chain]

theorem Opened.lockFree (opened : Opened heap after) (free : LockFree hart manager heap) :
    LockFree hart manager after := by
  rcases opened.lock manager with same | isOpen
  · unfold LockFree
    rwa [same]
  · exact lockFree_of_open isOpen

theorem unlocked_opened (manager : Nat) (heap : ObjectHeap LinkedKmem) : Opened heap (unlocked manager heap) := by
  refine ⟨rfl, rfl, rfl, fun other => ?_, fun other => ?_, fun other => ?_⟩
  all_goals
    by_cases same : other = manager
    · subst same
      simp [unlocked, ObjectHeap.setManager]
    · simp [unlocked, ObjectHeap.setManager, same]

theorem unlocked_ready (ready : HeapReady heap) : HeapReady (unlocked manager heap) :=
  ⟨ready.set_manager rfl rfl, ready.refuses⟩

theorem lockFree_unlocked {other : Nat} (free : LockFree hart manager heap) :
    LockFree hart other (unlocked manager heap) ↔ LockFree hart other heap := by
  by_cases same : other = manager
  · subst same
    exact iff_of_true ((unlocked_opened other heap).lockFree free) free
  · simp [LockFree, unlocked, ObjectHeap.setManager, same]

section
variable {other : Nat} (ready : HeapReady heap) (free : LockFree hart manager heap) (known : other ∈ heap.known)
include ready free known

theorem fails_unlocked : Fails hart other (unlocked manager heap) ↔ Fails hart other heap := by
  rw [fails_iff ready known, fails_iff (unlocked_ready ready) known, lockFree_unlocked free,
    (unlocked_opened manager heap).outOfMemory]

theorem succeeds_unlocked : Succeeds hart other (unlocked manager heap) ↔ Succeeds hart other heap := by
  rw [succeeds_iff ready known, succeeds_iff (unlocked_ready ready) known, lockFree_unlocked free,
    (unlocked_opened manager heap).outOfMemory]

end

theorem allocFromFirst_skip (small : ¬ size ≤ (heap.managers manager).objectSize) :
    allocFromFirst hart size (manager :: managers) heap = allocFromFirst hart size managers heap := by
  rw [allocFromFirst, if_neg small]

theorem allocFromFirst_next (ready : HeapReady heap) (known : manager ∈ heap.known)
    (fits : size ≤ (heap.managers manager).objectSize) (fails : Fails hart manager heap) :
    allocFromFirst hart size (manager :: managers) heap =
      allocFromFirst hart size managers (unlocked manager heap) := by
  obtain ⟨after, run⟩ := fails
  obtain ⟨_, _, rfl⟩ | ⟨notNull, _⟩ := kmemObjectAlloc_cases ready known run
  · rw [allocFromFirst, if_pos fits, run, Result.ok_bind]
    exact if_pos rfl
  · exact absurd rfl notNull

theorem allocFromFirst_take (fits : size ≤ (heap.managers manager).objectSize)
    (run : kmemObjectAlloc hart manager heap = .ok (vaddr, after)) (notNull : vaddr ≠ 0) :
    allocFromFirst hart size (manager :: managers) heap = .ok (vaddr, after) := by
  rw [allocFromFirst, if_pos fits, run, Result.ok_bind]
  exact if_neg notNull

theorem allocFromFirst_stops {stop : Stop} (fits : size ≤ (heap.managers manager).objectSize)
    (run : kmemObjectAlloc hart manager heap = .error stop) :
    allocFromFirst hart size (manager :: managers) heap = .error stop := by
  rw [allocFromFirst, if_pos fits, run]
  rfl

theorem allocFromFirst_null_iff (ready : HeapReady heap) (known : ∀ manager ∈ managers, manager ∈ heap.known) :
    (∃ after, allocFromFirst hart size managers heap = .ok (0, after)) ↔
      ∀ manager ∈ managers, size ≤ (heap.managers manager).objectSize → Fails hart manager heap := by
  induction managers generalizing heap with
  | nil => exact iff_of_true ⟨heap, rfl⟩ (by simp)
  | cons manager rest ih =>
    obtain ⟨here, restKnown⟩ := List.forall_mem_cons.mp known
    rw [List.forall_mem_cons]
    by_cases fits : size ≤ (heap.managers manager).objectSize
    · cases run : kmemObjectAlloc hart manager heap with
      | error stop =>
        rw [allocFromFirst_stops fits run]
        refine iff_of_false (by rintro ⟨_, returns⟩; cases returns) fun all => ?_
        obtain ⟨_, returns⟩ := all.1 fits
        cases run.symm.trans returns
      | ok result =>
        obtain ⟨vaddr, after⟩ := result
        by_cases null : vaddr = 0
        · subst null
          have fails : Fails hart manager heap := ⟨after, run⟩
          have free := ((fails_iff ready here).mp fails).1
          rw [allocFromFirst_next ready here fits fails, ih (unlocked_ready ready) restKnown]
          rw [and_iff_right fun _ => fails]
          apply forall₂_congr
          intro other member
          rw [(unlocked_opened manager heap).size, fails_unlocked ready free (restKnown other member)]
        · rw [allocFromFirst_take fits run null]
          refine iff_of_false (by rintro ⟨_, returns⟩; cases returns; exact null rfl) fun all => ?_
          obtain ⟨_, returns⟩ := all.1 fits
          cases run.symm.trans returns
          exact null rfl
    · rw [allocFromFirst_skip fits, ih ready restKnown, and_iff_right fun atMost => absurd atMost fits]

theorem allocFromFirst_found (ready : HeapReady heap) (known : ∀ manager ∈ managers, manager ∈ heap.known)
    (run : allocFromFirst hart size managers heap = .ok (vaddr, after)) (notNull : vaddr ≠ 0) :
    ∃ smaller manager larger middle, managers = smaller ++ manager :: larger ∧
      size ≤ (heap.managers manager).objectSize ∧ Succeeds hart manager heap ∧
      (∀ other ∈ smaller, size ≤ (heap.managers other).objectSize →
        Fails hart other heap ∧ (middle.managers other).lock = ⟨0, 0⟩) ∧
      HeapReady middle ∧ Opened heap middle ∧
      kmemObjectAlloc hart manager middle = .ok (vaddr, after) := by
  induction managers generalizing heap with
  | nil =>
    cases run
    exact absurd rfl notNull
  | cons first rest ih =>
    obtain ⟨here, restKnown⟩ := List.forall_mem_cons.mp known
    by_cases fits : size ≤ (heap.managers first).objectSize
    · cases alloc : kmemObjectAlloc hart first heap with
      | error stop =>
        rw [allocFromFirst_stops fits alloc] at run
        cases run
      | ok result =>
        obtain ⟨found, next⟩ := result
        by_cases null : found = 0
        · subst null
          have fails : Fails hart first heap := ⟨next, alloc⟩
          have free := ((fails_iff ready here).mp fails).1
          rw [allocFromFirst_next ready here fits fails] at run
          obtain ⟨smaller, manager, larger, middle, rfl, managerFits, succeeds, before, middleReady,
            opened, object⟩ := ih (unlocked_ready ready) restKnown run
          have firstOpened := unlocked_opened first heap
          rw [firstOpened.size] at managerFits
          refine ⟨first :: smaller, manager, larger, middle, rfl, managerFits,
            (succeeds_unlocked ready free (restKnown manager (by simp))).mp succeeds, ?_, middleReady,
            firstOpened.trans opened, object⟩
          refine List.forall_mem_cons.mpr ⟨fun _ => ⟨fails, ?_⟩, fun other member otherFits => ?_⟩
          · have isOpen : ((unlocked first heap).managers first).lock = ⟨0, 0⟩ := by
              simp [unlocked, ObjectHeap.setManager]
            rcases opened.lock first with same | already
            · rw [same, isOpen]
            · exact already
          · rw [← firstOpened.size] at otherFits
            obtain ⟨otherFails, isOpen⟩ := before other member otherFits
            have otherKnown := restKnown other (List.mem_append_left _ member)
            exact ⟨(fails_unlocked ready free otherKnown).mp otherFails, isOpen⟩
        · rw [allocFromFirst_take fits alloc null] at run
          cases run
          refine ⟨[], first, rest, heap, rfl, fits, ⟨vaddr, after, alloc, null⟩, by simp, ready, ?_, alloc⟩
          exact ⟨rfl, rfl, rfl, fun _ => rfl, fun _ => rfl, fun _ => .inl rfl⟩
    · rw [allocFromFirst_skip fits] at run
      obtain ⟨smaller, manager, larger, middle, rfl, managerFits, succeeds, before, facts⟩ := ih ready restKnown run
      refine ⟨first :: smaller, manager, larger, middle, rfl, managerFits, succeeds, ?_, facts⟩
      exact List.forall_mem_cons.mpr ⟨fun atMost => absurd atMost fits, before⟩

theorem allocFromFirst_some {smaller larger : List Nat} (ready : HeapReady heap)
    (known : ∀ other ∈ smaller ++ manager :: larger, other ∈ heap.known)
    (free : ∀ other ∈ smaller, size ≤ (heap.managers other).objectSize → LockFree hart other heap)
    (fits : size ≤ (heap.managers manager).objectSize) (succeeds : Succeeds hart manager heap) :
    ∃ vaddr after, allocFromFirst hart size (smaller ++ manager :: larger) heap = .ok (vaddr, after) ∧
      vaddr ≠ 0 := by
  induction smaller generalizing heap with
  | nil =>
    obtain ⟨vaddr, after, run, notNull⟩ := succeeds
    exact ⟨vaddr, after, allocFromFirst_take fits run notNull, notNull⟩
  | cons first rest ih =>
    rw [List.cons_append] at known ⊢
    obtain ⟨here, restKnown⟩ := List.forall_mem_cons.mp known
    obtain ⟨firstFree, restFree⟩ := List.forall_mem_cons.mp free
    by_cases firstFits : size ≤ (heap.managers first).objectSize
    · by_cases out : OutOfMemory first heap
      · have fails := (fails_iff ready here).mpr ⟨firstFree firstFits, out⟩
        have opened := unlocked_opened first heap
        rw [allocFromFirst_next ready here firstFits fails]
        apply ih (unlocked_ready ready) restKnown
        · intro other member otherFits
          rw [opened.size] at otherFits
          exact opened.lockFree (restFree other member otherFits)
        · rwa [opened.size]
        · have managerKnown := restKnown manager (List.mem_append_right _ List.mem_cons_self)
          exact (succeeds_unlocked ready (firstFree firstFits) managerKnown).mpr succeeds
      · obtain ⟨vaddr, after, run, notNull⟩ := (succeeds_iff ready here).mpr ⟨firstFree firstFits, out⟩
        exact ⟨vaddr, after, allocFromFirst_take firstFits run notNull, notNull⟩
    · rw [allocFromFirst_skip firstFits]
      exact ih ready restKnown restFree fits succeeds

theorem OwnRecord.lockFree {other : Nat} (own : OwnRecord manager heap after)
    (free : LockFree hart other heap) : LockFree hart other after := by
  by_cases same : other = manager
  · subst same
    exact lockFree_of_open own.lock
  · unfold LockFree
    rwa [own.others other same]

theorem allocFromFirst_after_free {smaller larger : List Nat} (ready : HeapReady heap)
    (live : Live manager vaddr heap) (give : kmemObjectFree hart vaddr heap = .ok after)
    (known : ∀ other ∈ smaller ++ manager :: larger, other ∈ heap.known)
    (free : ∀ other ∈ smaller, size ≤ (heap.managers other).objectSize → LockFree hart other heap)
    (fits : size ≤ (heap.managers manager).objectSize) :
    ∃ again final, allocFromFirst hart size (smaller ++ manager :: larger) after = .ok (again, final) ∧
      again ≠ 0 := by
  obtain ⟨own, address, slot, _, _, _, has, freeSlot⟩ := kmemObjectFree_gives ready.toHeapSound live give
  have afterReady : HeapReady after := ⟨ready.free live give, (kmemObjectFree_same give).1 ▸ ready.refuses⟩
  have afterKnown : ∀ other ∈ smaller ++ manager :: larger, other ∈ after.known := by
    rw [ObjectHeap.known, own.list]
    exact known
  apply allocFromFirst_some afterReady afterKnown
  · intro other earlier otherFits
    rw [own.sizes] at otherFits
    exact own.lockFree (free other earlier otherFits)
  · rwa [own.sizes]
  · refine (succeeds_iff afterReady has.1).mpr ⟨lockFree_of_open own.lock, fun out => ?_⟩
    rw [out.1 address has.2] at freeSlot
    cases freeSlot

theorem allocFromFirst_returns (ready : HeapReady heap) (known : ∀ manager ∈ managers, manager ∈ heap.known)
    (free : ∀ manager ∈ managers, LockFree hart manager heap) :
    ∃ vaddr after, allocFromFirst hart size managers heap = .ok (vaddr, after) := by
  by_cases all : ∀ manager ∈ managers, size ≤ (heap.managers manager).objectSize → Fails hart manager heap
  · obtain ⟨after, run⟩ := (allocFromFirst_null_iff ready known).mpr all
    exact ⟨0, after, run⟩
  · simp only [not_forall] at all
    obtain ⟨manager, member, fits, notFails⟩ := all
    have here := known manager member
    have succeeds := (succeeds_iff ready here).mpr ⟨free manager member,
      fun out => notFails ((fails_iff ready here).mpr ⟨free manager member, out⟩)⟩
    obtain ⟨smaller, larger, rfl⟩ := List.append_of_mem member
    obtain ⟨vaddr, after, run, _⟩ := allocFromFirst_some ready known
      (fun other earlier _ => free other (List.mem_append_left _ earlier)) fits succeeds
    exact ⟨vaddr, after, run⟩

end

/-- The object is one of a class that fits, the classes before it that fit have none; and once it
is freed, its slot is free in the same class and the next call has an object. -/
def ServedByClass (hart size vaddr : Nat) (state after : KmemState LinkedKmem) : Prop :=
  ∃ smaller manager larger address slot,
    state.uniManagers = smaller ++ manager :: larger ∧
    (∀ other ∈ smaller, size ≤ (state.heap.managers other).objectSize → Fails hart other state.heap) ∧
    size ≤ (state.heap.managers manager).objectSize ∧ Succeeds hart manager state.heap ∧
    vaddr = slot + objectHeaderSize ∧ after.heap.Has manager address ∧
    slot ∈ (after.heap.blocks address).allocatedSlots ∧
    size ≤ (after.heap.blocks address).objectSize ∧ ObjectsHold after.heap ∧
    ∃ freed, kmemFree hart vaddr after.heap = .ok freed ∧ freed.Has manager address ∧
      slot ∈ (freed.blocks address).freeSlots ∧
      ∃ again final, kmemAlloc hart size { after with heap := freed } = .ok (again, final) ∧ again ≠ 0

/-- What `kmem_alloc` promises. -/
structure TightestFit (hart size : Nat) (state : KmemState LinkedKmem) : Prop where
  null_iff : (∃ after, kmemAlloc hart size state = .ok (0, after)) ↔
    131072 < size ∨ ∀ manager ∈ state.uniManagers,
      size ≤ (state.heap.managers manager).objectSize → Fails hart manager state.heap
  served : ∀ vaddr after, kmemAlloc hart size state = .ok (vaddr, after) → vaddr ≠ 0 →
    ServedByClass hart size vaddr state after
  returns : (∀ manager ∈ state.uniManagers, LockFree hart manager state.heap) →
    ∃ vaddr after, kmemAlloc hart size state = .ok (vaddr, after)

section
variable {pages : Set Nat} {hart size vaddr : Nat} {sizes : List Nat} {state after : KmemState LinkedKmem}

theorem Classes.served (classes : Classes pages sizes state.uniManagers state.heap)
    (run : kmemAlloc hart size state = .ok (vaddr, after)) (notNull : vaddr ≠ 0) :
    ServedByClass hart size vaddr state after := by
  obtain ⟨⟨found, heap⟩, search, run⟩ := Result.bind_ok run
  cases run
  obtain ⟨smaller, manager, larger, middle, split, fits, succeeds, before, middleReady, opened, alloc⟩ :=
    allocFromFirst_found classes.ready classes.known search notNull
  have known : ∀ other ∈ smaller ++ manager :: larger, other ∈ middle.known := by
    rw [ObjectHeap.known, opened.list, ← split]
    exact classes.known
  have own := kmemObjectAlloc_record alloc
  have sizesKept : ∀ other, (heap.managers other).objectSize = (state.heap.managers other).objectSize :=
    fun other => (own.sizes other).trans (opened.size other)
  obtain ⟨heapSound, list, null | live⟩ := middleReady.alloc (known manager (by simp)) alloc
  · exact absurd null notNull
  have kept := FaithfulPages.keptByAlloc.kmemObjectAlloc (opened.kmem ▸ classes.kept) alloc
  obtain ⟨lock, acquired⟩ : LockFree hart manager heap := lockFree_of_open own.lock
  obtain ⟨freed, give⟩ := kmemObjectFree_returns heapSound live acquired
  obtain ⟨_, address, slot, has, allocated, isSlot, freedHas, freeSlot⟩ := kmemObjectFree_gives heapSound live give
  obtain ⟨again, final, retry, againNotNull⟩ := @allocFromFirst_after_free hart size manager vaddr heap freed
    smaller larger ⟨heapSound, kept.refuses⟩ live give (by rwa [ObjectHeap.known, list])
    (fun other earlier otherFits => own.lockFree
      (lockFree_of_open (before other earlier (by rwa [sizesKept] at otherFits)).2)) (by rwa [sizesKept])
  refine ⟨smaller, manager, larger, address, slot, split,
    fun other earlier otherFits => (before other earlier otherFits).1, fits, succeeds, isSlot, has, allocated,
    ?_, heapSound.holds, freed, give, freedHas, freeSlot, again, { state with heap := final }, ?_,
    againNotNull⟩
  · rwa [heapSound.size has, sizesKept]
  · rw [kmemAlloc]
    dsimp only
    rw [split, retry]
    rfl

theorem Classes.tightestFit
    (classes : Classes pages [32, 64, 128, 256, 512, 1024, 2048, 4096, 8192, 16384, 32768, 65536, 131072]
      state.uniManagers state.heap) : TightestFit hart size state := by
  have atMost : ∀ manager ∈ state.uniManagers, (state.heap.managers manager).objectSize ≤ 131072 := by
    intro manager member
    have listed := List.mem_map_of_mem (f := fun manager => (state.heap.managers manager).objectSize) member
    rw [classes.sizes] at listed
    revert listed
    generalize (state.heap.managers manager).objectSize = objectSize
    simp only [List.mem_cons, List.not_mem_nil, or_false]
    omega
  refine ⟨?_, fun vaddr after run notNull => classes.served run notNull, fun free => ?_⟩
  · have null : (∃ after, kmemAlloc hart size state = .ok (0, after)) ↔
        ∃ heap, allocFromFirst hart size state.uniManagers state.heap = .ok (0, heap) := by
      constructor
      · rintro ⟨after, run⟩
        obtain ⟨⟨found, heap⟩, search, run⟩ := Result.bind_ok run
        cases run
        exact ⟨heap, search⟩
      · rintro ⟨heap, search⟩
        refine ⟨{ state with heap }, ?_⟩
        rw [kmemAlloc, search]
        rfl
    rw [null, allocFromFirst_null_iff classes.ready classes.known]
    refine ⟨.inr, fun either manager member fits => ?_⟩
    rcases either with large | all
    · exact absurd (Nat.le_trans fits (atMost manager member)) (Nat.not_le_of_lt large)
    · exact all manager member fits
  · obtain ⟨vaddr, heap, search⟩ := @allocFromFirst_returns hart size _ _ classes.ready classes.known free
    refine ⟨vaddr, { state with heap }, ?_⟩
    rw [kmemAlloc, search]
    rfl

end

def LinkedKmem.kmemInit (hart : Nat) (node : BootmemNode) (memory stale : Memory) (links : Links AreaNode) :
    Result (KmemState LinkedKmem) := do
  -- init buddy
  let kmem ← LinkedKmem.kmemPageManagerInit node memory links
  -- `stale` is what the pages hold by then
  createManagers hart stale kmem

/-- After `kmem_init` on a board whose maps fit, in every later state of the heap. -/
theorem kmem_alloc_tightest_fit {freeable : Set Nat} {bootHart hart size : Nat} {node taken : BootmemNode}
    {memory cleared stale : Memory} {links : Links AreaNode} {maps : Kmem} {state : KmemState LinkedKmem}
    {heap : ObjectHeap LinkedKmem} (mapped : NodeMapped node)
    (heads : ∀ ord < maxMemOrder, links.nxt (.head ord) = none)
    (placed : allocFreeAreaMaps maxMemOrder 0 (kmemOfBootmem node) node memory = .ok (maps, taken, cleared))
    (fit : MapsFit freeable maps) (init : LinkedKmem.kmemInit bootHart node memory stale links = .ok state)
    (later : Relation.ReflTransGen (PagedStep (LinkedStep freeable)) state.heap heap) :
    (state.uniManagers.map fun manager => (heap.managers manager).objectSize).Pairwise (· < ·) ∧
      (state.uniManagers.map fun manager => (heap.managers manager).objectSize) =
        (uniManagers.map Prod.fst).reverse ∧
      TightestFit hart size { state with heap } := by
  obtain ⟨kmem, boot, create⟩ := Result.bind_ok init
  have run : PageRun freeable node memory links kmem := ⟨maps, taken, cleared, kmem, placed, fit, boot, .refl⟩
  obtain ⟨pages, allowed, kept⟩ := run.faithfulPages mapped.toNodeFits heads mapped.below
  have classes := run_preserves (Classes pages
    [32, 64, 128, 256, 512, 1024, 2048, 4096, 8192, 16384, 32768, 65536, 131072] state.uniManagers)
    (fun _ _ classes paged => by
      obtain ⟨step, kept⟩ := paged.heapStep (FaithfulPages.lawful allowed) classes.kept
      exact classes.step step kept) (createManagers_classes kept create) later
  refine ⟨?_, classes.sizes, @Classes.tightestFit _ hart size { state with heap } classes⟩
  rw [classes.sizes]
  decide

/-- A hundred bytes on a board with sixteen pages come from the class of 128 bytes or a larger one. -/
theorem kmem_alloc_tightest_fit_hundred_bytes : ∃ (state after : KmemState LinkedKmem) (vaddr : Nat),
      LinkedKmem.kmemInit 1 sixteenPages (fun _ => 0) (fun _ => 0) nullLinks = .ok state ∧
      kmemAlloc 1 100 state = .ok (vaddr, after) ∧ vaddr ≠ 0 ∧ ServedByClass 1 100 vaddr state after := by
  obtain ⟨state, init, ⟨vaddr, after⟩, alloc, notNull⟩ :
      ∃ state, LinkedKmem.kmemInit 1 sixteenPages (fun _ => 0) (fun _ => 0) nullLinks = .ok state ∧
        ∃ object, kmemAlloc 1 100 state = .ok object ∧ object.1 ≠ 0 := by decide +kernel
  obtain ⟨maps, node, memory, placed, fit⟩ := sixteenPages_mapsFit
  have fit := (@kmem_alloc_tightest_fit _ 1 1 100 _ _ _ _ _ _ _ state state.heap sixteenPages_mapped
    (fun _ _ => rfl) placed fit init .refl).2.2
  exact ⟨state, after, vaddr, init, alloc, notNull, fit.served vaddr after alloc notNull⟩

/-- 33 pages of RAM.  Page 32 is listed as a block of four pages, of which 32 goes to the class of 32
bytes and a page behind the end to that of 64, where `kmem_alloc` panics; the class of 2048 bytes has
an object. -/
theorem kmemAlloc_panics_past_end : ∃ (state later : KmemState LinkedKmem) (vaddr : Nat),
      LinkedKmem.kmemInit 1 (raggedPages 4 1) (fun _ => 0) (fun _ => 0) nullLinks = .ok state ∧
      kmemAlloc 1 32 state = .ok (vaddr, later) ∧
      kmemAlloc 1 64 later = .error (.panic "kmem_alloc_pages - allocated") ∧
      ∃ manager ∈ later.uniManagers, 64 ≤ (later.heap.managers manager).objectSize ∧
        Succeeds 1 manager later.heap := by
  obtain ⟨state, init, ⟨vaddr, later⟩, alloc, panics, manager, member, large, _, serves⟩ :
      ∃ state, LinkedKmem.kmemInit 1 (raggedPages 4 1) (fun _ => 0) (fun _ => 0) nullLinks = .ok state ∧
        ∃ object, kmemAlloc 1 32 state = .ok object ∧
          kmemAlloc 1 64 object.2 = .error (.panic "kmem_alloc_pages - allocated") ∧
          ∃ manager ∈ object.2.uniManagers, 64 ≤ (object.2.heap.managers manager).objectSize ∧
            ∃ other, kmemObjectAlloc 1 manager object.2.heap = .ok other ∧ other.1 ≠ 0 := by
    decide +kernel
  exact ⟨state, later, vaddr, init, alloc, panics, manager, member, large, _, _, serves⟩

end Kalorona.Memory
