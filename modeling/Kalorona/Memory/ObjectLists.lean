import Kalorona.Memory.ObjectLinkRuns

namespace Kalorona.Memory

open Kalorona.Data Kalorona.Utilities

/-! # Lists of objects in memory

Records of processes and nodes of size classes are linked behind a head until they are detached.
-/

inductive RecordNode where
  | head
  | object (p : Nat)
deriving DecidableEq, Repr

theorem RecordNode.object_injective : Function.Injective RecordNode.object := fun _ _ same => by cases same; rfl

/-- The list of objects of one manager between two critical sections.  `creating` are those that
are allocated and not yet linked, `reaping` those that are detached and not yet freed. -/
structure ObjectTable (σ : Type) where
  heap : LinkedHeap σ
  links : Links RecordNode
  creating : List Nat
  reaping : List Nat

variable {σ : Type}

def ObjectTable.Listed (manager : Nat) (table : ObjectTable σ) (node : RecordNode) : Prop :=
  node = .head ∨ ∃ p, node = .object p ∧ table.heap.Live manager p ∧ p ∉ table.creating ∧ p ∉ table.reaping

variable [PageAllocator σ] [LawfulRuns σ]

/-- The functions of a list: how a node is put behind a head, and how one is taken out. -/
structure ListFunctions where
  insert : Option RecordNode → Option RecordNode → Links RecordNode → Result (Links RecordNode)
  detach : Option RecordNode → Links RecordNode → Result (Links RecordNode)

/-- Objects are taken, linked into a list, detached and freed. -/
inductive RecordStep (functions : ListFunctions) (pages : σ → σ → Prop) (manager : Nat) :
    ObjectTable σ → ObjectTable σ → Prop
  | alloc {before : ObjectTable σ} {heap : LinkedHeap σ} {hart p : Nat}
      (run : before.heap.kmemObjectAlloc hart manager = .ok (p, heap)) :
      RecordStep functions pages manager before
        { before with heap, creating := if p = 0 then before.creating else p :: before.creating }
  | link {before : ObjectTable σ} {links : Links RecordNode} {p : Nat} (member : p ∈ before.creating)
      (run : functions.insert (some .head) (some (.object p)) before.links = .ok links) :
      RecordStep functions pages manager before { before with links, creating := before.creating.erase p }
  /-- An object is found along the list before it is detached. -/
  | detach {before : ObjectTable σ} {links : Links RecordNode} {p : Nat}
      (found : before.links.Visits .head (.object p))
      (run : functions.detach (some (.object p)) before.links = .ok links) :
      RecordStep functions pages manager before { before with links, reaping := p :: before.reaping }
  | free {before : ObjectTable σ} {heap : LinkedHeap σ} {hart p : Nat} (member : p ∈ before.reaping)
      (run : before.heap.kmemObjectFree hart p = .ok heap) :
      RecordStep functions pages manager before { before with heap, reaping := before.reaping.erase p }
  /-- Others use the allocators, and free no object of this manager. -/
  | others {before : ObjectTable σ} {heap : LinkedHeap σ} {call : HeapCall}
      (step : LinkedHeapStep pages call before.heap heap) (notRecord : ∀ p, call ≠ .free manager p) :
      RecordStep functions pages manager before { before with heap }
  | write {before : ObjectTable σ} {links : Links RecordNode}
      (same : ∀ node, before.Listed manager node →
        links.nxt node = before.links.nxt node ∧ links.prv node = before.links.prv node) :
      RecordStep functions pages manager before { before with links }

/-- What a run reaches after a manager is created and the links of the head are `NULL`. -/
def ListRun (functions : ListFunctions) (objectSize : Nat) (name : String) (pages : σ → σ → Prop)
    (kmem : σ) (table : ObjectTable σ) : Prop :=
  ∃ (before heap : LinkedHeap σ) (hart manager : Nat) (memory : Memory) (links : Links RecordNode),
    ObjectRun pages kmem before ∧
    before.kmemObjectCreateManager hart objectSize name memory = .ok (manager, heap) ∧
    links.nxt .head = none ∧
    Relation.ReflTransGen (RecordStep functions pages manager) ⟨heap, links, [], []⟩ table

/-- The list of the managers of the size classes: `kmem_init` fills it from the manager of list
nodes, and nothing is ever detached. -/
def UniRun : (σ → σ → Prop) → σ → ObjectTable σ → Prop :=
  ListRun ⟨Algorithm.listInsert, Algorithm.listDetach⟩ listNodeSize "list_node"

/-- The list holds live objects, and none is in two of the three stages. -/
structure TableFaithful (keeps : σ → Prop) (manager : Nat) (table : ObjectTable σ) (heap : ObjectHeap σ)
    (records : List Nat) : Prop where
  objects : HeapFaithful keeps table.heap heap
  known : manager ∈ heap.known
  list : table.links.Represents .head (records.map .object)
  nodup : (records ++ table.creating ++ table.reaping).Nodup
  live : ∀ p ∈ records ++ table.creating ++ table.reaping, Live manager p heap

section
variable {functions : ListFunctions} {pages : σ → σ → Prop} {keeps : σ → Prop} {manager p : Nat}
  {table next : ObjectTable σ} {heap after : ObjectHeap σ} {records : List Nat}

theorem object_mem_map : RecordNode.object p ∈ records.map .object ↔ p ∈ records :=
  List.mem_map_of_injective RecordNode.object_injective

section
variable (faithful : TableFaithful keeps manager table heap records)
include faithful

theorem TableFaithful.move {others : List Nat} {links : Links RecordNode} {creating reaping : List Nat}
    (list : links.Represents .head (others.map .object))
    (perm : (others ++ creating ++ reaping).Perm (records ++ table.creating ++ table.reaping)) :
    TableFaithful keeps manager ⟨table.heap, links, creating, reaping⟩ heap others :=
  ⟨faithful.objects, faithful.known, list, perm.nodup_iff.mpr faithful.nodup,
    fun p member => faithful.live p (perm.mem_iff.mp member)⟩

theorem TableFaithful.link {links : Links RecordNode}
    (refines : RefinesCons functions.insert) (member : p ∈ table.creating)
    (run : functions.insert (some .head) (some (.object p)) table.links = .ok links) :
    TableFaithful keeps manager ⟨table.heap, links, table.creating.erase p, table.reaping⟩ heap (p :: records) := by
  have notListed : p ∉ records := fun listed =>
    (List.nodup_append.mp (List.nodup_append.mp faithful.nodup).1).2.2 p listed p member rfl
  have unlinked : Links.Unlinked {RecordNode.head} (fun _ => records.map .object) (.object p) := by
    rintro _ rfl (_ | ⟨_, listed⟩)
    exact notListed (object_mem_map.mp listed)
  obtain ⟨_, again, changed⟩ := refines _ _ _ faithful.list.holds _ rfl _ unlinked
  cases again.symm.trans run
  refine faithful.move changed.represents (List.Perm.append_right _ ?_)
  exact List.perm_middle.symm.trans ((List.perm_cons_erase member).symm.append_left _)

theorem TableFaithful.detach {links : Links RecordNode}
    (refines : RefinesErase functions.detach) (member : p ∈ records)
    (run : functions.detach (some (.object p)) table.links = .ok links) :
    TableFaithful keeps manager ⟨table.heap, links, table.creating, p :: table.reaping⟩ heap (records.erase p) := by
  obtain ⟨_, again, changed, _⟩ := refines _ _ _ faithful.list.holds _ rfl _ (object_mem_map.mpr member)
  cases again.symm.trans run
  refine faithful.move ?_ ?_
  · rw [List.map_erase RecordNode.object_injective]
    exact changed.represents
  · refine List.perm_middle.trans ?_
    rw [← List.cons_append, ← List.cons_append]
    exact ((List.perm_cons_erase member).symm.append_right _).append_right _

theorem TableFaithful.alloc {given : LinkedHeap σ}
    (objects : HeapFaithful keeps given after) (known : heap.known ⊆ after.known)
    (moves : (HeapCall.alloc manager p).MovesLive heap after) : TableFaithful keeps manager
      ⟨given, table.links, if p = 0 then table.creating else p :: table.creating, table.reaping⟩ after records := by
  obtain ⟨hands, kept⟩ := moves
  have old (other : Nat) (member : other ∈ records ++ table.creating ++ table.reaping) :
      other ≠ p ∧ Live manager other after := kept manager other (faithful.live other member)
  by_cases null : p = 0
  · rw [if_pos null]
    exact ⟨objects, known faithful.known, faithful.list, faithful.nodup, fun other member => (old other member).2⟩
  · rw [if_neg null]
    have perm : (records ++ p :: table.creating ++ table.reaping).Perm
        (p :: (records ++ table.creating ++ table.reaping)) := List.perm_middle.append_right _
    refine ⟨objects, known faithful.known, faithful.list, perm.nodup_iff.mpr ?_, fun other member => ?_⟩
    · exact List.nodup_cons.mpr ⟨fun member => (old p member).1 rfl, faithful.nodup⟩
    · rcases List.mem_cons.mp (perm.mem_iff.mp member) with rfl | member
      · exact hands null
      · exact (old other member).2

theorem TableFaithful.free {given : LinkedHeap σ}
    (member : p ∈ table.reaping) (objects : HeapFaithful keeps given after) (known : heap.known ⊆ after.known)
    (moves : (HeapCall.free manager p).MovesLive heap after) :
    TableFaithful keeps manager ⟨given, table.links, table.creating, table.reaping.erase p⟩ after records := by
  -- the object was in no other stage
  have perm : (p :: (records ++ table.creating ++ table.reaping.erase p)).Perm
      (records ++ table.creating ++ table.reaping) :=
    List.perm_middle.symm.trans ((List.perm_cons_erase member).symm.append_left _)
  obtain ⟨absent, nodup⟩ := List.nodup_cons.mp (perm.nodup_iff.mpr faithful.nodup)
  refine ⟨objects, known faithful.known, faithful.list, nodup, fun other rest => ?_⟩
  have different : other ≠ p := fun same => absent (same ▸ rest)
  exact moves.2 manager other different (faithful.live other (perm.mem_iff.mp (List.mem_cons_of_mem _ rest)))

theorem TableFaithful.others {call : HeapCall}
    (moves : call.MovesLive heap after) (notRecord : ∀ p, call ≠ .free manager p)
    (live : Live manager p heap) : Live manager p after := by
  cases call with
  | alloc other vaddr => exact (moves.2 manager p live).2
  | free other vaddr =>
    obtain ⟨freed, kept⟩ := moves
    refine kept manager p ?_ live
    rintro rfl
    have same := live.manager_unique faithful.objects.sound freed
    exact notRecord p (by rw [same])
  | createManager => exact moves manager p live
  | pages => exact moves manager p live
  | write => exact moves manager p live

theorem TableFaithful.step (inserts : RefinesCons functions.insert) (detaches : RefinesErase functions.detach)
    (lawful : LawfulSteps pages keeps) (step : RecordStep functions pages manager table next) :
    ∃ after records, TableFaithful keeps manager next after records := by
  have objects := faithful.objects
  cases step with
  | alloc run =>
    have known : manager ∈ table.heap.heap.known := objects.tracks.known_eq ▸ faithful.known
    obtain ⟨after, afterObjects, managers, moves⟩ := objects.step lawful (.alloc known run)
    exact ⟨after, records, faithful.alloc afterObjects managers moves⟩
  | link member run => exact ⟨heap, _, faithful.link inserts member run⟩
  | detach found run =>
    have listed := (List.mem_cons.mp (faithful.list.visits_iff.mp found)).resolve_left (by simp)
    exact ⟨heap, _, faithful.detach detaches (object_mem_map.mp listed) run⟩
  | free member run =>
    have live := objects.tracks.live_iff.mpr (faithful.live _ (List.mem_append_right _ member))
    obtain ⟨after, afterObjects, managers, moves⟩ := objects.step lawful (.free live run)
    exact ⟨after, records, faithful.free member afterObjects managers moves⟩
  | others step notRecord =>
    obtain ⟨after, afterObjects, managers, moves⟩ := objects.step lawful step
    refine ⟨after, records, afterObjects, managers faithful.known, faithful.list, faithful.nodup, ?_⟩
    exact fun p member => faithful.others moves notRecord (faithful.live p member)
  | write same =>
    refine ⟨heap, records, objects, faithful.known, faithful.list.sameOn fun node member => same node ?_,
      faithful.nodup, faithful.live⟩
    rcases List.mem_cons.mp member with rfl | listed
    · exact .inl rfl
    · obtain ⟨p, inRecords, rfl⟩ := List.mem_map.mp listed
      obtain ⟨front, _, apart⟩ := List.nodup_append.mp faithful.nodup
      have live := faithful.live p (List.mem_append_left _ (List.mem_append_left _ inRecords))
      refine .inr ⟨p, rfl, objects.tracks.live_iff.mpr live, fun created => ?_, fun reaped => ?_⟩
      · exact (List.nodup_append.mp front).2.2 p inRecords p created rfl
      · exact apart p (List.mem_append_left _ inRecords) p reaped rfl

end

theorem ListRun.faithful {objectSize : Nat} {name : String} {kmem : σ}
    (run : ListRun functions objectSize name pages kmem table) (small : objectSize ≤ 2 ^ 32)
    (inserts : RefinesCons functions.insert) (detaches : RefinesErase functions.detach)
    (lawful : LawfulSteps pages keeps) (kept : keeps kmem) :
    ∃ manager heap records, TableFaithful keeps manager table heap records := by
  obtain ⟨before, given, hart, manager, memory, links, run, create, empty, steps⟩ := run
  obtain ⟨heap, objects⟩ := run.faithful lawful kept
  obtain ⟨after, returned, tracks⟩ := objects.tracks.kmemObjectCreateManager objects.sound create
  obtain ⟨sound, known⟩ := objects.sound.createManager small returned
  have start : TableFaithful keeps manager ⟨given, links, [], []⟩ after [] :=
    ⟨⟨sound, tracks, lawful.alloc.kmemObjectCreateManager objects.keeps returned⟩, known, empty,
      List.nodup_nil, fun _ member => by cases member⟩
  have reached := run_preserves (fun table => ∃ heap records, TableFaithful keeps manager table heap records) ?_
    ⟨after, [], start⟩ steps
  · exact ⟨manager, reached⟩
  · rintro table next ⟨heap, records, faithful⟩ step
    exact faithful.step inserts detaches lawful step

end

def ListsEnd (table : ObjectTable LinkedKmem) : Prop :=
  table.links.Terminates .head ∧ AllocatorListsEnd table.heap

theorem ListRun.listsEnd {functions : ListFunctions} {objectSize : Nat} {name : String}
    {steps : LinkedKmem → LinkedKmem → Prop} {pages : Set Nat} {state : LinkedKmem}
    {table : ObjectTable LinkedKmem} (run : ListRun functions objectSize name steps state table)
    (small : objectSize ≤ 2 ^ 32) (inserts : RefinesCons functions.insert)
    (detaches : RefinesErase functions.detach) (lawful : LawfulSteps steps (FaithfulPages pages))
    (kept : FaithfulPages pages state) : ListsEnd table := by
  obtain ⟨_, _, _, faithful⟩ := run.faithful small inserts detaches lawful kept
  exact ⟨faithful.list.terminates, faithful.objects.listsEnd⟩

end Kalorona.Memory
