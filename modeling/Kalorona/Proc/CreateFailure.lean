import Kalorona.Memory.ObjectComplete
import Kalorona.Proc.Record

namespace Kalorona.Proc

open Kalorona.Data Kalorona.Utilities Kalorona.Memory

/-! # When `proc_create` runs out of memory

Only the record is tested in time: `memset` clears the root table before it is compared with null,
and the trapframe is written without a test.
-/

namespace ProcManager

variable {hart : Nat} {image : KernelImage} {pid : UInt32} {manager created : ProcManager}

def SlotRefused (hart : Nat) (manager : ProcManager) : Prop :=
  ∃ heap, kmemObjectAlloc hart manager.procObjectManager manager.kernel.heap = .ok (0, heap)

def AllGranted (hart : Nat) (image : KernelImage) (manager : ProcManager) : Prop :=
  ∃ p heap, kmemObjectAlloc hart manager.procObjectManager manager.kernel.heap = .ok (p, heap) ∧
    p ≠ 0 ∧ CreateGranted image.userHandlerPa ⟨manager.kernel.memory, heap.kmem⟩

def Joined (image : KernelImage) (manager created : ProcManager) : Prop :=
  ∃ p root frame, created.procList = p :: manager.procList ∧
    (created.records p).pid = manager.pidCounter + 1 ∧
    (created.records p).pgtbl = frameVa root ∧ (created.records p).trapframe = frameVa frame ∧
    ∀ vpn < 2 ^ 27, pageMap (frameVa root) created.kernel.vm vpn =
      createdMap image.userHandlerPa frame vpn

/-- All pages and objects are given back. -/
structure Released (manager after : ProcManager) : Prop where
  procList : after.procList = manager.procList
  records : after.records = manager.records
  pages : usedFrames after.kernel.heap.kmem = usedFrames manager.kernel.heap.kmem
  objects : ∀ address, (after.kernel.heap.blocks address).allocatedSlots =
    (manager.kernel.heap.blocks address).allocatedSlots

/-- `proc_create` makes a whole process or leaves nothing behind. -/
structure AllOrNothing (hart : Nat) (image : KernelImage) (manager : ProcManager) : Prop where
  all : AllGranted hart image manager →
    ∃ created, manager.procCreate hart image = .ok (manager.pidCounter + 1, created) ∧
      Joined image manager created
  nothing : ¬ AllGranted hart image manager →
    ∃ after, manager.procCreate hart image = .ok (noPid, after) ∧ Released manager after

section
variable (sound : BuddySound manager.kernel.heap.kmem)
include sound

theorem AllGranted.joined (granted : AllGranted hart image manager) :
    ∃ created, manager.procCreate hart image = .ok (manager.pidCounter + 1, created) ∧
      Joined image manager created := by
  obtain ⟨p, heap, alloc, notNull, granted⟩ := granted
  have buddy : BuddySound heap.kmem := (kmemObjectAlloc_shrinks sound alloc).sound
  obtain ⟨_, _, _, _, _, _, _, vm, creation⟩ := id granted
  have create := creation.returns (manager.records p).programBreak
  obtain ⟨root, _, frame, same, made⟩ := create_created buddy image.bounded granted create
  refine ⟨_, procCreate_returns alloc notNull create, p, root, frame, rfl, ?_, ?_, ?_, made.map⟩
  · rw [enroll_record]
    rfl
  · rw [enroll_record]
    exact congrArg ProcSpace.pgtbl same
  · rw [enroll_record]
    exact congrArg ProcSpace.trapframe same

theorem SlotRefused.released (refused : SlotRefused hart manager) :
    ∃ after, manager.procCreate hart image = .ok (noPid, after) ∧ Released manager after := by
  obtain ⟨heap, alloc⟩ := refused
  obtain rfl := kmemObjectAlloc_refused sound.refuses alloc
  refine ⟨{ manager with kernel := { manager.kernel with
    heap := unlocked manager.procObjectManager manager.kernel.heap } }, ?_, rfl, rfl, rfl, fun _ => rfl⟩
  rw [ProcManager.procCreate, alloc, Result.ok_bind]
  rfl

theorem procCreate_returned (run : manager.procCreate hart image = .ok (pid, created)) :
    SlotRefused hart manager ∨ AllGranted hart image manager := by
  obtain ⟨⟨p, heap⟩, alloc, run⟩ := Result.bind_ok run
  dsimp only at run
  split at run
  next null =>
    subst null
    exact .inl ⟨heap, alloc⟩
  next notNull =>
    obtain ⟨⟨space, vm⟩, create, _⟩ := Result.bind_ok run
    have buddy : BuddySound heap.kmem := (kmemObjectAlloc_shrinks sound alloc).sound
    exact .inr ⟨p, heap, alloc, notNull,
      @create_granted_of_returned ⟨manager.kernel.memory, heap.kmem⟩ _ _ _ _ buddy image.bounded create⟩

theorem procCreate_allOrNothing_iff :
    AllOrNothing hart image manager ↔ SlotRefused hart manager ∨ AllGranted hart image manager := by
  constructor
  · intro holds
    by_cases granted : AllGranted hart image manager
    · exact .inr granted
    · obtain ⟨after, run, _⟩ := holds.nothing granted
      exact procCreate_returned sound run
  · rintro (refused | granted)
    · refine ⟨fun granted => ?_, fun _ => refused.released sound⟩
      obtain ⟨heap, alloc⟩ := refused
      obtain ⟨p, other, again, notNull, _⟩ := granted
      cases alloc.symm.trans again
      exact absurd rfl notNull
    · exact ⟨fun _ => granted.joined sound, fun none => absurd granted none⟩

end

/-- The first process of a board with thirty-two pages. -/
theorem procCreate_allOrNothing_iff_first_process :
    ∃ manager : ProcManager, BuddySound manager.kernel.heap.kmem ∧ AllOrNothing 1 boardImage manager := by
  obtain ⟨manager, created, p, buddy, _, run, slot⟩ := first_enrolled (deadRecord 0)
  obtain ⟨heap, space, vm, alloc, notNull, create, _⟩ := procCreate_enrolls run slot
  have allocated : BuddySound heap.kmem := (kmemObjectAlloc_shrinks buddy alloc).sound
  have granted := @create_granted_of_returned ⟨manager.kernel.memory, heap.kmem⟩ _ _ _ _ allocated
    boardImage.bounded create
  exact ⟨manager, buddy, (procCreate_allOrNothing_iff buddy).mpr (.inr ⟨p, heap, alloc, notNull, granted⟩)⟩

/-- A board with three pages: one for the maps of the areas, one for the records of the managers,
and one for the records of processes.  There is a record, and no page for the root table. -/
theorem procCreate_writes_null :
    ∃ manager : ProcManager, BuddySound manager.kernel.heap.kmem ∧ ¬ SlotRefused 1 manager ∧
      manager.procCreate 1 boardImage = .error .stray ∧ ¬ AllOrNothing 1 boardImage manager := by
  obtain ⟨kmem, _, _, boot, buddy, _⟩ := @smallNode_sound 3 0 (by decide)
  obtain ⟨_, again, ⟨objects, heap⟩, create, ⟨⟨p, recorded⟩, alloc, notNull⟩, stray⟩ :
      ∃ boot, kmemPageManagerInit (smallNode 3 0) (fun _ => 0) = .ok boot ∧
        ∃ made, kmemObjectCreateManager 1 procStructSize "proc_struct" (fun _ => 0)
          (kmemObjectInit (emptyHeap boot.1)) = .ok made ∧
            (∃ object, kmemObjectAlloc 1 made.1 made.2 = .ok object ∧ object.1 ≠ 0) ∧
            ProcManager.procCreate 1 boardImage
              ⟨⟨made.2, fun _ => 0⟩, fun _ => deadRecord 0, [], 0, 0, made.1⟩ = .error .stray := by
    decide +kernel
  cases boot.symm.trans again
  have sound : BuddySound heap.kmem := (kmemObjectCreateManager_shrinks (by exact buddy) create).sound
  have slot : ¬ SlotRefused 1 ⟨⟨heap, fun _ => 0⟩, fun _ => deadRecord 0, [], 0, 0, objects⟩ := by
    rintro ⟨other, refused⟩
    cases alloc.symm.trans refused
    exact absurd rfl notNull
  refine ⟨_, sound, slot, stray, fun holds => ?_⟩
  by_cases granted : AllGranted 1 boardImage ⟨⟨heap, fun _ => 0⟩, fun _ => deadRecord 0, [], 0, 0, objects⟩
  · obtain ⟨_, run, _⟩ := holds.all granted
    cases stray.symm.trans run
  · obtain ⟨_, run, _⟩ := holds.nothing granted
    cases stray.symm.trans run

end ProcManager

end Kalorona.Proc
