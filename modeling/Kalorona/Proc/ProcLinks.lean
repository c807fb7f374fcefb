import Kalorona.Memory.ObjectLists
import Kalorona.Proc.Teardown

namespace Kalorona.Proc

open Kalorona.Data Kalorona.Utilities Kalorona.Memory

/-! # The lists of the kernel in memory

The lists of free pages, of slots, of size classes and of processes stay lists in every run.
-/

section
variable {α : Type} [DecidableEq α]

def procInsert : Option α → Option α → Links α → Result (Links α) :=
  insertNode "proc_insert - null parameters"

def procDetach : Option α → Links α → Result (Links α) :=
  detachNode "proc_detach - null parameters"

end

/-- The list of the processes.  `proc_create` allocates a record and links it at its end,
`proc_reap` and `syscall_wait` detach a record that they have found along the list, and
`proc_reap_detached` frees it. -/
def ProcRun {σ : Type} [PageAllocator σ] [LawfulRuns σ] : (σ → σ → Prop) → σ → ObjectTable σ → Prop :=
  ListRun ⟨procInsert, procDetach⟩ procStructSize "proc_struct"

section
variable {σ : Type} [PageAllocator σ]

def firstHeap (kmem : σ) : LinkedHeap σ := ⟨(kmemObjectInit (emptyHeap kmem)).bare, nullLinks⟩

abbrev HandsOut (objectSize : Nat) (name : String) (kmem : σ) : Prop :=
  ∃ created, (firstHeap kmem).kmemObjectCreateManager 1 objectSize name (fun _ => 0) = .ok created ∧
    ∃ object, created.2.kmemObjectAlloc 1 created.1 = .ok object ∧ object.1 ≠ 0

variable [LawfulRuns σ] {functions : ListFunctions} {objectSize : Nat} {name : String}
  {pages : σ → σ → Prop} {kmem : σ}

theorem exists_listRun (hands : HandsOut objectSize name kmem)
    (inserts : ∀ p, functions.insert (some .head) (some (.object p)) nullLinks =
      .ok (nullLinks.insert .head (.object p))) :
    ∃ table, ListRun functions objectSize name pages kmem table ∧ table.links.nxt .head ≠ none := by
  obtain ⟨⟨manager, created⟩, create, ⟨p, heap⟩, alloc, notNull⟩ := hands
  have first : RecordStep functions pages manager ⟨created, nullLinks, [], []⟩ ⟨heap, nullLinks, [p], []⟩ := by
    have step := @RecordStep.alloc _ _ _ functions pages manager ⟨created, nullLinks, [], []⟩ heap 1 p alloc
    rwa [if_neg notNull] at step
  have second : RecordStep functions pages manager ⟨heap, nullLinks, [p], []⟩
      ⟨heap, nullLinks.insert .head (.object p), [], []⟩ := by
    have step := @RecordStep.link _ _ _ functions pages manager ⟨heap, nullLinks, [p], []⟩ _ p
      List.mem_cons_self (inserts p)
    rwa [List.erase_cons_head] at step
  refine ⟨⟨heap, nullLinks.insert .head (.object p), [], []⟩, ⟨firstHeap kmem, created, 1, manager,
    fun _ => 0, nullLinks, ⟨emptyHeap kmem, nullLinks, rfl, rfl, rfl, .refl⟩, create, rfl,
    .tail (.single first) second⟩, ?_⟩
  rw [Links.insert_nxt, if_pos rfl]
  simp

end

def strayLinks (page target : Nat) : Links AreaNode where
  prv node := if node = .page page then some (.page target) else none
  nxt node := if node = .page page then some (.page target) else none

/-- 17 pages of RAM at 0x80000000, of which those from 4 to 15 are reserved. -/
def seventeenPages : BootmemNode where
  beginPpn := 0x80000
  numPpn := 17
  memMapAddr := 0
  memMap index := if index = 0 then 0xf0 else if index = 1 then 0xff else 0
  memMapSize := 3
  lastPage := 0
  lastPageOffset := 0

end Kalorona.Proc
