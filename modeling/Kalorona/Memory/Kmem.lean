import Kalorona.Memory.Object

namespace Kalorona.Memory

open Kalorona.Data Kalorona.Utilities

/-! # Start-up and general-purpose allocation

`kmem_init` frees the pages that the boot allocator has left, and then builds one object manager for
each size class.
-/

/-- `sizeof(struct list_node)`. -/
def listNodeSize : Nat := 24

/-- `uni_manager_sizes` and `uni_manager_names`. -/
def uniManagers : List (Nat × String) :=
  [(131072, "umgr-128k"), (65536, "umgr-64k"), (32768, "umgr-32k"), (16384, "umgr-16k"),
    (8192, "umgr-8k"), (4096, "umgr-4k"), (2048, "umgr-2k"), (1024, "umgr-1k"), (512, "umgr-512"),
    (256, "umgr-256"), (128, "umgr-128"), (64, "umgr-64"), (32, "umgr-32")]

/-- What `kmem_init` leaves behind; `uniManagers` is the list of that name, its
entries the managers. -/
structure KmemState (σ : Type) where
  heap : ObjectHeap σ
  listNodeObjectManager : Nat
  uniManagers : List Nat

section
variable {σ : Type} [PageAllocator σ]

/-- The loop of `kmem_init` over the size classes. -/
def createUniManagers (hart : Nat) (memory : Memory) : List (Nat × String) → KmemState σ →
    Result (KmemState σ)
  | [], state => .ok state
  | (size, name) :: classes, state => do
      let (node, heap) ← kmemObjectAlloc hart state.listNodeObjectManager state.heap
      let (manager, heap) ← kmemObjectCreateManager hart size name memory heap
      if node = 0 then throw .stray
      createUniManagers hart memory classes
        { state with heap, uniManagers := manager :: state.uniManagers }

/-- The storage of `kmem` before the object allocator runs, apart from the pages. -/
def emptyHeap (kmem : σ) : ObjectHeap σ :=
  { kmem
    managers := fun _ => ⟨"", 0, ⟨0, 0⟩, []⟩
    managerList := []
    blocks := fun _ => ⟨[], [], 0, 0, 0, 0, 0⟩
    parentBlock := fun _ => 0 }

/-- What `kmem_init` does after `kmem_page_manager_init`. -/
def createManagers (hart : Nat) (memory : Memory) (kmem : σ) : Result (KmemState σ) := do
  -- init object management
  let heap := kmemObjectInit (emptyHeap kmem)
  let (listNodeObjectManager, heap) ←
    kmemObjectCreateManager hart listNodeSize "list_node" memory heap
  createUniManagers hart memory uniManagers { heap, listNodeObjectManager, uniManagers := [] }

/-- The loop of `kmem_alloc`; 0 stands for the null pointer. -/
def allocFromFirst (hart size : Nat) : List Nat → ObjectHeap σ → Result (Nat × ObjectHeap σ)
  | [], heap => .ok (0, heap)
  | manager :: managers, heap =>
    if (heap.managers manager).objectSize ≥ size then do
      let (vaddr, heap) ← kmemObjectAlloc hart manager heap
      if vaddr = 0 then allocFromFirst hart size managers heap else return (vaddr, heap)
    else allocFromFirst hart size managers heap

def kmemAlloc (hart size : Nat) (state : KmemState σ) : Result (Nat × KmemState σ) := do
  let (vaddr, heap) ← allocFromFirst hart size state.uniManagers state.heap
  return (vaddr, { state with heap })

def kmemFree (hart vaddr : Nat) (heap : ObjectHeap σ) : Result (ObjectHeap σ) :=
  kmemObjectFree hart vaddr heap

end

def kmemInit (hart : Nat) (node : BootmemNode) (memory : Memory) : Result (KmemState Kmem) := do
  -- init buddy
  let (kmem, _, memory) ← kmemPageManagerInit node memory
  createManagers hart memory kmem

theorem createUniManagers_shrinks {hart : Nat} {memory : Memory} {classes : List (Nat × String)}
    {state after : KmemState Kmem} (sound : BuddySound state.heap.kmem)
    (run : createUniManagers hart memory classes state = .ok after) : Shrinks state.heap.kmem after.heap.kmem := by
  induction classes generalizing state with
  | nil =>
    cases run
    exact .refl sound
  | cons first rest ih =>
    obtain ⟨size, name⟩ := first
    obtain ⟨⟨node, nodeHeap⟩, alloc, run⟩ := Result.bind_ok run
    obtain ⟨⟨manager, managerHeap⟩, create, run⟩ := Result.bind_ok run
    have nodeShrinks := kmemObjectAlloc_shrinks sound alloc
    have managerShrinks := kmemObjectCreateManager_shrinks nodeShrinks.sound create
    dsimp only at run
    split at run
    · cases run
    · have restShrinks := ih (by exact managerShrinks.sound) run
      exact (nodeShrinks.trans managerShrinks).trans restShrinks

theorem kmemInit_shrinks {hart : Nat} {node : BootmemNode} {memory : Memory} {state : KmemState Kmem}
    (addressable : node.beginPpn + node.numPpn ≤ 2 ^ 26) (run : kmemInit hart node memory = .ok state) :
    ∃ kmem node' memory', kmemPageManagerInit node memory = .ok (kmem, node', memory') ∧
      Shrinks kmem state.heap.kmem := by
  obtain ⟨⟨kmem, node', memory'⟩, init, managers⟩ := Result.bind_ok run
  obtain ⟨⟨manager, heap⟩, create, classes⟩ := Result.bind_ok managers
  have sound : BuddySound kmem := by
    obtain ⟨_, _, _, init', tiled, paired, _⟩ := @kmemPageManagerInit_spec node memory addressable
    obtain ⟨rfl, _⟩ := Prod.mk.inj (Except.ok.inj (init'.symm.trans init))
    exact ⟨tiled, paired⟩
  have created := kmemObjectCreateManager_shrinks (by exact sound) create
  exact ⟨kmem, node', memory', init, created.trans (createUniManagers_shrinks created.sound classes)⟩

end Kalorona.Memory
