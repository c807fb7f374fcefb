import Kalorona.Memory.BuddyLinkRuns
import Kalorona.Memory.ObjectLinks
import Kalorona.Memory.ObjectLive

namespace Kalorona.Memory

open Kalorona.Data Kalorona.Utilities

/-! # Runs of the object allocator in memory

Over pages that are handed out once, the two lists of every block stay lists in every run.
-/

open LawfulRuns (reserved)

variable {σ : Type} [PageAllocator σ] [LawfulRuns σ]

def LinkedHeap.Live (manager vaddr : Nat) (state : LinkedHeap σ) : Prop :=
  ∃ address slot, state.heap.Has manager address ∧
    state.links.Visits (.allocated address) (.header slot) ∧ vaddr = slot + objectHeaderSize ∧
    vaddr ∉ state.heap.managerList

inductive HeapCall where
  | alloc (manager vaddr : Nat)
  | free (manager vaddr : Nat)
  | createManager
  | pages
  | write

/-- One call of the object allocator, a step of the page manager below that takes no page of a
block, or a write to memory that holds no node of a list. -/
inductive LinkedHeapStep (pages : σ → σ → Prop) : HeapCall → LinkedHeap σ → LinkedHeap σ → Prop
  | alloc {before after : LinkedHeap σ} {hart manager vaddr : Nat} (known : manager ∈ before.heap.known)
      (run : before.kmemObjectAlloc hart manager = .ok (vaddr, after)) :
      LinkedHeapStep pages (.alloc manager vaddr) before after
  | free {before after : LinkedHeap σ} {hart manager vaddr : Nat} (live : before.Live manager vaddr)
      (run : before.kmemObjectFree hart vaddr = .ok after) :
      LinkedHeapStep pages (.free manager vaddr) before after
  | createManager {before after : LinkedHeap σ} {hart objectSize manager : Nat} {name : String}
      {memory : Memory} (small : objectSize ≤ 2 ^ 32)
      (run : before.kmemObjectCreateManager hart objectSize name memory = .ok (manager, after)) :
      LinkedHeapStep pages .createManager before after
  | pages {before : LinkedHeap σ} {kmem : σ} (step : pages before.heap.kmem kmem)
      (kept : ∀ manager address, before.heap.Has manager address →
        (before.heap.blocks address).pages address ⊆ reserved kmem) :
      LinkedHeapStep pages .pages before { before with heap := { before.heap with kmem } }
  | write {before : LinkedHeap σ} {links : Links SlotNode}
      (same : ∀ head ∈ slotHeads before.heap.attached, ∀ node, before.links.Visits head node →
        links.nxt node = before.links.nxt node ∧ links.prv node = before.links.prv node) :
      LinkedHeapStep pages .write before { before with links }

/-- Every use of the page allocator keeps what the heap needs of it. -/
structure LawfulSteps (pages : σ → σ → Prop) (keeps : σ → Prop) : Prop where
  sound : ∀ {kmem}, keeps kmem → LawfulRuns.Sound kmem
  alloc : KeptByAlloc keeps
  step : ∀ {kmem next}, keeps kmem → pages kmem next → keeps next

/-- The heap in memory follows a sound heap on lists. -/
structure HeapFaithful (keeps : σ → Prop) (state : LinkedHeap σ) (heap : ObjectHeap σ) : Prop where
  sound : HeapSound heap
  tracks : TracksHeap heap.attached state heap
  keeps : keeps heap.kmem

def HeapCall.MovesLive (call : HeapCall) (heap after : ObjectHeap σ) : Prop :=
  match call with
  | .alloc manager vaddr =>
    (vaddr ≠ 0 → Live manager vaddr after) ∧
      ∀ other object, Live other object heap → object ≠ vaddr ∧ Live other object after
  | .free manager vaddr =>
    Live manager vaddr heap ∧
      ∀ other object, object ≠ vaddr → Live other object heap → Live other object after
  | _ => ∀ other object, Live other object heap → Live other object after

section
variable {pages : σ → σ → Prop} {keeps : σ → Prop} {state final : LinkedHeap σ} {heap : ObjectHeap σ}
  {call : HeapCall} {manager vaddr : Nat}

omit [PageAllocator σ] [LawfulRuns σ] in
theorem TracksHeap.live_iff (tracks : TracksHeap heap.attached state heap) :
    state.Live manager vaddr ↔ Live manager vaddr heap := by
  unfold LinkedHeap.Live Live
  rw [tracks.fields]
  refine exists_congr fun address => exists_congr fun slot => and_congr_right fun has => and_congr_left fun _ => ?_
  have represents := tracks.lists.represents _ (allocated_mem_slotHeads ⟨manager, has⟩)
  rw [represents.visits_iff, List.mem_cons, or_iff_right (by simp)]
  exact header_mem_map

omit [PageAllocator σ] [LawfulRuns σ] in
theorem TracksHeap.known_eq (tracks : TracksHeap heap.attached state heap) : state.heap.known = heap.known := by
  rw [tracks.fields]
  rfl

omit [PageAllocator σ] [LawfulRuns σ] in
theorem known_subset {after : ObjectHeap σ} (subset : heap.managerList ⊆ after.managerList) :
    heap.known ⊆ after.known :=
  List.cons_subset_cons _ subset

theorem HeapFaithful.step (faithful : HeapFaithful keeps state heap) (lawful : LawfulSteps pages keeps)
    (step : LinkedHeapStep pages call state final) :
    ∃ after, HeapFaithful keeps final after ∧ heap.known ⊆ after.known ∧ call.MovesLive heap after := by
  obtain ⟨sound, tracks, kept⟩ := faithful
  cases step with
  | alloc known run =>
    rw [tracks.known_eq] at known
    obtain ⟨after, returned, tracksAfter⟩ := tracks.kmemObjectAlloc sound known run
    obtain ⟨soundAfter, list, hands⟩ := sound.alloc known returned
    refine ⟨after, ⟨soundAfter, tracksAfter, lawful.alloc.kmemObjectAlloc kept returned⟩,
      known_subset (list ▸ List.Subset.refl _), fun notNull => hands.resolve_left notNull,
      fun other object live => ?_⟩
    exact ⟨(sound.alloc_unused known returned live).symm, (kmemObjectAlloc_grows sound known returned).live live⟩
  | free live run =>
    rw [tracks.live_iff] at live
    obtain ⟨after, returned, tracksAfter⟩ := tracks.kmemObjectFree sound live run
    obtain ⟨kmem, list⟩ := kmemObjectFree_same returned
    refine ⟨after, ⟨sound.free live returned, tracksAfter, kmem ▸ kept⟩,
      known_subset (list ▸ List.Subset.refl _), live, fun other object different otherLive => ?_⟩
    exact otherLive.free sound live different returned
  | createManager small run =>
    obtain ⟨after, returned, tracksAfter⟩ := tracks.kmemObjectCreateManager sound run
    refine ⟨after, ⟨(sound.createManager small returned).1, tracksAfter,
      lawful.alloc.kmemObjectCreateManager kept returned⟩,
      known_subset (kmemObjectCreateManager_managerList sound returned), fun other object live => ?_⟩
    exact live.createManager sound returned
  | pages step room =>
    rename_i kmem
    have next : keeps kmem := lawful.step kept (tracks.kmem_eq ▸ step)
    rw [tracks.fields] at room
    refine ⟨{ heap with kmem }, ⟨sound.set_kmem (lawful.sound next) room, ⟨?_, tracks.lists⟩, next⟩,
      List.Subset.refl _, fun _ _ live => live⟩
    exact congrArg (fun heap : ObjectHeap σ => { heap with kmem }) tracks.fields
  | write same =>
    refine ⟨heap, ⟨sound, ⟨tracks.fields, tracks.lists.sameOn fun head listed node member => ?_⟩, kept⟩,
      List.Subset.refl _, fun _ _ live => live⟩
    have attached : state.heap.attached = heap.attached := by
      rw [tracks.fields]
      rfl
    exact same head (attached ▸ listed) node ((tracks.lists.represents head listed).visits_iff.mpr member)

theorem kmemObjectInit_faithful {start : ObjectHeap σ} {links : Links SlotNode} (lawful : LawfulSteps pages keeps)
    (kept : keeps start.kmem) (noBlocks : (start.managers rootManager).blocks = [])
    (noManagers : start.managerList = []) :
    HeapFaithful keeps ⟨(kmemObjectInit start).bare, links⟩ (kmemObjectInit start) := by
  have nothing : (kmemObjectInit start).attached = ∅ := by
    refine Set.eq_empty_of_forall_notMem ?_
    rintro block ⟨manager, known, member⟩
    rw [ObjectHeap.known, show (kmemObjectInit start).managerList = [] from noManagers, List.mem_singleton] at known
    subst known
    simp [kmemObjectInit, ObjectHeap.setManager, noBlocks] at member
  refine ⟨kmemObjectInit_sound (lawful.sound kept) noBlocks noManagers, ⟨rfl, ?_, ?_⟩, kept⟩
  · rintro head ⟨block, listed, _⟩
    rw [nothing] at listed
    cases listed
  · rintro head ⟨block, listed, _⟩
    rw [nothing] at listed
    cases listed

end

/-- What a run of calls and other steps reaches after `kmem_object_init`, where the zeroed manager
has no block. -/
def ObjectRun (pages : σ → σ → Prop) (kmem : σ) (state : LinkedHeap σ) : Prop :=
  ∃ (start : ObjectHeap σ) (links : Links SlotNode), start.kmem = kmem ∧
    (start.managers rootManager).blocks = [] ∧ start.managerList = [] ∧
    Relation.ReflTransGen (fun before after => ∃ call, LinkedHeapStep pages call before after)
      ⟨(kmemObjectInit start).bare, links⟩ state

def SlotListsEnd (state : LinkedHeap σ) : Prop :=
  ∀ manager block, state.heap.Has manager block →
    state.links.Terminates (.free block) ∧ state.links.Terminates (.allocated block)

section
variable {pages : σ → σ → Prop} {keeps : σ → Prop} {kmem : σ} {state : LinkedHeap σ}

theorem ObjectRun.faithful (lawful : LawfulSteps pages keeps) (kept : keeps kmem)
    (run : ObjectRun pages kmem state) : ∃ heap, HeapFaithful keeps state heap := by
  obtain ⟨start, links, rfl, noBlocks, noManagers, steps⟩ := run
  refine run_preserves (fun state => ∃ heap, HeapFaithful keeps state heap) ?_
    ⟨_, kmemObjectInit_faithful lawful kept noBlocks noManagers⟩ steps
  rintro before after ⟨heap, faithful⟩ ⟨call, step⟩
  obtain ⟨next, nextFaithful, _, _⟩ := faithful.step lawful step
  exact ⟨next, nextFaithful⟩

theorem HeapFaithful.slotListsEnd {heap : ObjectHeap σ} (faithful : HeapFaithful keeps state heap) :
    SlotListsEnd state := by
  intro manager block has
  rw [faithful.tracks.fields] at has
  have attached : block ∈ heap.attached := ⟨manager, has⟩
  exact ⟨faithful.tracks.lists.terminates (free_mem_slotHeads attached),
    faithful.tracks.lists.terminates (allocated_mem_slotHeads attached)⟩

end

/-- The memory stands for a sound buddy allocator, and RAM ends before the last blocks of the direct map. -/
def FaithfulPages (pages : Set Nat) (state : LinkedKmem) : Prop :=
  ∃ kmem, Faithful pages state kmem ∧ kmem.beginPpn + kmem.numPpn + 2 ^ maxMemOrder ≤ 2 ^ 26

variable {pages : Set Nat}

theorem FaithfulPages.sound {state : LinkedKmem} (kept : FaithfulPages pages state) : LawfulRuns.Sound state := by
  obtain ⟨kmem, faithful, below⟩ := kept
  exact ⟨pages, kmem, faithful, faithful.sound, below⟩

theorem FaithfulPages.keptByAlloc : KeptByAlloc (FaithfulPages pages) := by
  rintro order vaddr state next ⟨kmem, faithful, below⟩ run
  obtain ⟨after, _, kept, frame⟩ := faithful.alloc run
  exact ⟨after, kept, by rwa [frame.beginPpn, frame.numPpn]⟩

theorem FaithfulPages.lawful {freeable : Set Nat} (allowed : freeable ⊆ pages) :
    LawfulSteps (LinkedStep freeable) (FaithfulPages pages) where
  sound := FaithfulPages.sound
  alloc := FaithfulPages.keptByAlloc
  step := by
    rintro state next ⟨kmem, faithful, below⟩ step
    obtain ⟨after, kept, frame⟩ := faithful.step allowed step
    exact ⟨after, kept, by rwa [frame.beginPpn, frame.numPpn]⟩

theorem PageRun.faithfulPages {freeable : Set Nat} {node : BootmemNode} {memory : Memory}
    {links : Links AreaNode} {state : LinkedKmem} (fits : NodeFits node)
    (heads : ∀ ord < maxMemOrder, links.nxt (.head ord) = none) (run : PageRun freeable node memory links state)
    (below : node.beginPpn + node.numPpn + 2 ^ maxMemOrder ≤ 2 ^ 26) :
    ∃ pages, freeable ⊆ pages ∧ FaithfulPages pages state := by
  obtain ⟨pages, kmem, allowed, faithful, begins, counts⟩ := run.faithful fits heads
  exact ⟨pages, allowed, kmem, faithful, by rwa [begins, counts]⟩

def AllocatorListsEnd (heap : LinkedHeap LinkedKmem) : Prop := SlotListsEnd heap ∧ FreeListsEnd heap.heap.kmem

theorem HeapFaithful.listsEnd {state : LinkedHeap LinkedKmem} {heap : ObjectHeap LinkedKmem}
    (faithful : HeapFaithful (FaithfulPages pages) state heap) : AllocatorListsEnd state := by
  refine ⟨faithful.slotListsEnd, ?_⟩
  obtain ⟨_, below, _⟩ := faithful.keeps
  rw [← faithful.tracks.kmem_eq] at below
  exact below.freeListsEnd

end Kalorona.Memory
