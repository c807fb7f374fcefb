import Kalorona.Proc.Scheduler
import Kalorona.Proc.Teardown

namespace Kalorona.Proc

open Kalorona.Data Kalorona.Utilities Kalorona.Memory

/-! # Process records

A record lies in a slot of the object allocator, and `records` says what every slot holds, in use or
not.  The trapframe of a process is a page of memory.  Critical sections run one at a time.
-/

/-- `struct context_struct`; `saved` are `s0` to `s11`. -/
structure ContextStruct where
  ra : Nat
  sp : Nat
  saved : Fin 12 → Nat

/-- `struct proc_struct`. -/
structure ProcStruct extends ProcSpace where
  pid : UInt32
  state : ProcState
  killed : Bool
  exitState : Int
  sleepingChan : Nat
  parent : Nat
  context : ContextStruct

/-- `proc_manager` and what lies under it.  `procList` is the chain behind `proc_list`. -/
structure ProcManager where
  kernel : ProcKernel
  records : Nat → ProcStruct
  procList : List Nat
  pidCounter : UInt32
  rootProc : Nat
  procObjectManager : Nat

/-- Addresses that the linker gives. -/
structure KernelImage where
  userHandlerPa : Nat
  utrapReturn : Nat
  bounded : userHandlerPa < 2 ^ 64

def noPid : UInt32 := 0xffffffff

def trapframeA0 : Nat := 112

def trapframeWords : Nat := 36

namespace ProcManager

def setRecord (manager : ProcManager) (p : Nat) (record : ProcStruct) : ProcManager :=
  { manager with records := Function.update manager.records p record }

def withVm (manager : ProcManager) (vm : Vmem Kmem) : ProcManager :=
  { manager with kernel := manager.kernel.withVm vm }

def register (manager : ProcManager) (p index : Nat) : Nat :=
  manager.kernel.memory.load64 ((manager.records p).trapframe + 8 * index)

/-- What `proc_create` leaves in the slot: it sets neither `program_break` nor `sleeping_chan`. -/
def newRecord (utrapReturn rootProc : Nat) (newPid : UInt32) (stale : ProcStruct)
    (space : ProcSpace) : ProcStruct :=
  { space with
    pid := newPid
    state := .allocated
    killed := false
    exitState := 0
    sleepingChan := stale.sleepingChan
    parent := rootProc
    context :=
      { ra := utrapReturn, sp := ulong (space.kstackVaddr + pageSize), saved := fun _ => 0 } }

/-- The rest of `proc_create` once the record `p` and its space were made. -/
def enroll (image : KernelImage) (p : Nat) (heap : ObjectHeap Kmem) (space : ProcSpace)
    (vm : Vmem Kmem) (manager : ProcManager) : ProcManager :=
  let newPid := manager.pidCounter + 1
  { manager with
    kernel := ProcKernel.withVm { manager.kernel with heap } vm
    records := Function.update manager.records p
      (newRecord image.utrapReturn manager.rootProc newPid (manager.records p) space)
    procList := p :: manager.procList
    pidCounter := newPid }

def procCreate (hart : Nat) (image : KernelImage) (manager : ProcManager) : Result (UInt32 × ProcManager) := do
  let (p, heap) ← kmemObjectAlloc hart manager.procObjectManager manager.kernel.heap
  if p = 0 then return (noPid, { manager with kernel := { manager.kernel with heap } })
  let (space, vm) ← procCreateSpace image.userHandlerPa (manager.records p).programBreak
    ⟨manager.kernel.memory, heap.kmem⟩
  return (manager.pidCounter + 1, manager.enroll image p heap space vm)

section
variable {hart p : Nat} {image : KernelImage} {pid : UInt32} {manager created : ProcManager}
  {heap : ObjectHeap Kmem} {space : ProcSpace} {vm : Vmem Kmem}

theorem enroll_record : (manager.enroll image p heap space vm).records p =
    newRecord image.utrapReturn manager.rootProc (manager.pidCounter + 1) (manager.records p) space :=
  Function.update_self ..

theorem procCreate_returns
    (alloc : kmemObjectAlloc hart manager.procObjectManager manager.kernel.heap = .ok (p, heap)) (notNull : p ≠ 0)
    (create : procCreateSpace image.userHandlerPa (manager.records p).programBreak
      ⟨manager.kernel.memory, heap.kmem⟩ = .ok (space, vm)) : manager.procCreate hart image =
      .ok (manager.pidCounter + 1, manager.enroll image p heap space vm) := by
  rw [ProcManager.procCreate, alloc, Result.ok_bind]
  dsimp only
  rw [if_neg notNull, create]
  rfl

theorem procCreate_enrolls (run : manager.procCreate hart image = .ok (pid, created))
    (slot : created.procList = p :: manager.procList) : ∃ heap space vm,
      kmemObjectAlloc hart manager.procObjectManager manager.kernel.heap = .ok (p, heap) ∧
      p ≠ 0 ∧ procCreateSpace image.userHandlerPa (manager.records p).programBreak
        ⟨manager.kernel.memory, heap.kmem⟩ = .ok (space, vm) ∧
      pid = manager.pidCounter + 1 ∧ created = manager.enroll image p heap space vm := by
  obtain ⟨⟨place, heap⟩, alloc, run⟩ := Result.bind_ok run
  dsimp only at run
  split at run
  · cases run
    exact absurd (congrArg List.length slot) (by simp)
  next notNull =>
    obtain ⟨⟨space, vm⟩, create, run⟩ := Result.bind_ok run
    cases run
    cases (List.cons.inj slot).1
    exact ⟨heap, space, vm, alloc, notNull, create, rfl, rfl⟩

/-- To the kernel and the space of the process it does what `Proc.procCreate` does, which has no records. -/
theorem procCreate_kernel
    (alloc : kmemObjectAlloc hart manager.procObjectManager manager.kernel.heap = .ok (p, heap))
    (run : manager.procCreate hart image = .ok (pid, created)) :
    Proc.procCreate hart manager.procObjectManager image.userHandlerPa (manager.records p).programBreak
        manager.kernel =
      .ok (if p = 0 then none else some (p, (created.records p).toProcSpace), created.kernel) := by
  rw [ProcManager.procCreate, alloc, Result.ok_bind] at run
  rw [Proc.procCreate, alloc, Result.ok_bind]
  dsimp only at run ⊢
  split at run
  next null =>
    cases run
    rw [if_pos null, if_pos null]
    rfl
  next notNull =>
    obtain ⟨⟨space, vm⟩, create, run⟩ := Result.bind_ok run
    cases run
    rw [if_neg notNull, if_neg notNull, create, enroll_record]
    rfl

end

/-- The record that `proc_lock_and_find` finds. -/
def procLockAndFind (pid : UInt32) (manager : ProcManager) : Option Nat :=
  manager.procList.find? fun p => (manager.records p).pid == pid

def procFork (hart : Nat) (image : KernelImage) (p : Nat) (manager : ProcManager) :
    Result (UInt32 × ProcManager) := do
  let (dupPid, manager) ← manager.procCreate hart image
  if dupPid = noPid then return (noPid, manager)
  match manager.procLockAndFind dupPid with
  | none => throw .stray
  | some dup =>
    let parent := manager.records p
    let record := { manager.records dup with
      parent := p, stackVaddr := parent.stackVaddr, heapVaddr := parent.heapVaddr }
    let memory := manager.kernel.memory
    let kernelSp := memory.load64 (record.trapframe + trapframeKernelSp)
    let memory := memcpy memory record.trapframe parent.trapframe trapframeSize
    let memory := memory.store64 (record.trapframe + trapframeA0) 0
    let memory := memory.store64 (record.trapframe + trapframeKernelSp) kernelSp
    -- the addressing space
    let vm ← vmUvmcpy parent.pgtbl record.pgtbl false ⟨memory, manager.kernel.heap.kmem⟩
    return (record.pid, (manager.setRecord dup { record with state := .runnable }).withVm vm)

def sbrk (p : Nat) (manager : ProcManager) : Result (Nat × ProcManager) := do
  let record := manager.records p
  let a0 := manager.kernel.memory.load64 (record.trapframe + trapframeA0)
  let (ret, space, vm) ← syscallSbrk a0 record.toProcSpace manager.kernel.vm
  return (ret, (manager.setRecord p { record with toProcSpace := space }).withVm vm)

/-- `proc_sleep` of the process `p` up to `scheduler_switch`. -/
def procSleep (p chan : Nat) (manager : ProcManager) : ProcManager :=
  manager.setRecord p { manager.records p with sleepingChan := chan, state := .sleeping }

def procAwake (p : Nat) (manager : ProcManager) : ProcManager :=
  manager.setRecord p { manager.records p with sleepingChan := 0 }

def procWakeup (chan : Nat) (manager : ProcManager) : ProcManager :=
  { manager with
    records := wakeSleepers ProcStruct.state ProcStruct.sleepingChan (fun record => { record with state := .runnable })
      manager.procList chan manager.records }

def procKill (p : Nat) (manager : ProcManager) : ProcManager :=
  let record := manager.records p
  manager.setRecord p
    { record with killed := true, state := if record.state = .sleeping then .runnable else record.state }

/-- One round of `scheduler`, at the record `p`. -/
def schedule (p : Nat) (manager : ProcManager) : ProcManager :=
  let record := manager.records p
  if record.state = .runnable then manager.setRecord p { record with state := .running } else manager

def saveContext (p : Nat) (context : ContextStruct) (manager : ProcManager) : ProcManager :=
  manager.setRecord p { manager.records p with context }

def schedulerYield (p : Nat) (manager : ProcManager) : ProcManager :=
  manager.setRecord p { manager.records p with state := .runnable }

def procReap (hart p : Nat) (manager : ProcManager) : Result ProcManager := do
  let kernel ← procReapDetached hart p (manager.records p).toProcSpace manager.kernel
  return { manager with kernel, procList := manager.procList.erase p }

def saveRegisters (p : Nat) (registers : Fin trapframeWords → Nat) (manager : ProcManager) : ProcManager :=
  { manager with kernel := { manager.kernel with
      memory := (List.finRange trapframeWords).foldl (fun memory (index : Fin trapframeWords) =>
        memory.store64 ((manager.records p).trapframe + 8 * index) (registers index))
        manager.kernel.memory } }

def boardImage : KernelImage := ⟨0x80200000, 0x80200100, by decide⟩

def deadRecord (programBreak : Nat) : ProcStruct where
  kstackVaddr := 0
  stackVaddr := 0
  heapVaddr := 0
  programBreak := programBreak
  pgtbl := 0
  trapframe := 0
  pid := 7
  state := .zombie
  killed := true
  exitState := -1
  sleepingChan := 0
  parent := 0
  context := ⟨0, 0, fun _ => 0⟩

theorem first_enrolled (record : ProcStruct) : ∃ (one created : ProcManager) (p : Nat),
    BuddySound one.kernel.heap.kmem ∧ one.records p = record ∧
      one.procCreate 1 boardImage = .ok (1, created) ∧ created.procList = p :: one.procList := by
  obtain ⟨heap, recorded, manager, p, board⟩ := first_record
  obtain ⟨sound, alloc, notNull, recordedSound, _, _, _, _, grants⟩ := board
  obtain ⟨_, space, vm, create, _, _⟩ := @create_granted _ _ _ boardImage.userHandlerPa 0
    ⟨fun _ => 0, recorded.kmem⟩ recordedSound.sound.1 boardImage.bounded grants record.programBreak
  let one : ProcManager := ⟨⟨heap, fun _ => 0⟩, fun _ => record, [], 0, 0, manager⟩
  exact ⟨one, one.enroll boardImage p recorded space vm, p, sound.sound.1, rfl,
    procCreate_returns alloc notNull create, rfl⟩

end ProcManager

end Kalorona.Proc
