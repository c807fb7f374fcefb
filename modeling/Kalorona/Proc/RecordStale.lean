import Kalorona.Memory.TwoRuns
import Kalorona.Proc.Record

namespace Kalorona.Proc

open Kalorona.Data Kalorona.Utilities Kalorona.Memory

/-! # What a new process inherits

A slot and pages are recycled without being cleared.
-/

open LawfulPages (Sound inUse)

variable {memory : Memory} {space : ProcSpace}

section
variable {σ : Type} [PageAllocator σ] [LawfulPages σ] {root : Nat} {stale : Set Nat} {vm vm' : Vmem σ}

def TwinCall (root : Nat) (stale : Set Nat) (one two : Nat × ProcSpace × Vmem σ) : Prop :=
  two.1 = one.1 ∧ two.2.1 = one.2.1 ∧ Twin root stale one.2.2 two.2.2

theorem syscallSbrk_twin (twin : Twin root stale vm vm') (backed : Backed root vm)
    (pgtbl : space.pgtbl = frameVa root) (a0 : Nat) : Result.Matches (TwinCall root stale) (syscallSbrk a0 space vm)
      (syscallSbrk a0 space vm') := by
  unfold syscallSbrk
  split
  · exact .ok ⟨rfl, rfl, twin⟩
  dsimp only
  split
  · apply (Result.Matches.refl _).bind
    rintro order _ _ _ rfl
    rw [twin.pages]
    apply (Result.Matches.refl _).bind
    rintro ⟨addr, pages⟩ _ alloc _ rfl
    have granted : Twin root stale { vm with pages } { vm' with pages } := .of_tables rfl rfl twin.bytes
    dsimp only
    split
    · exact .ok ⟨rfl, rfl, granted⟩
    · rw [pgtbl]
      apply (granted.vmMappages (backed.allocated alloc) (by decide) (pmaVa2Pa_lt _)).bind
      rintro ⟨_, mapped⟩ ⟨_, mapped'⟩ _ _ ⟨_, final⟩
      exact .ok ⟨rfl, rfl, final⟩
  · split
    · rw [pgtbl]
      apply (twin.vmUnmappages backed.tree).bind
      rintro _ _ _ _ ⟨_, final⟩
      exact .ok ⟨rfl, rfl, final⟩
    · exact .ok ⟨rfl, rfl, twin⟩

omit [LawfulPages σ] in
theorem procReapSpace_twin (twin : Twin root stale vm vm')
    (tree : sv39.Tree (cells vm.memory) root) (pgtbl : space.pgtbl = frameVa root) :
    Result.Matches (Twin root stale) (procReapSpace space vm) (procReapSpace space vm') := by
  unfold procReapSpace
  rw [pgtbl]
  apply (twin.vmUnmappages tree).bind
  rintro one one' _ _ ⟨oneTree, oneTwin⟩
  apply (oneTwin.vmUnmappages oneTree).bind
  rintro two two' _ _ ⟨twoTree, twoTwin⟩
  rw [twoTwin.pages]
  apply (Result.Matches.refl _).bind
  rintro pages _ _ _ rfl
  have freed : Twin root stale { two with pages } { two' with pages } := .of_tables rfl rfl twoTwin.bytes
  apply (freed.vmUnmappages twoTree).bind
  rintro three three' _ _ ⟨threeTree, threeTwin⟩
  exact (threeTwin.vmUnmappages threeTree).imp fun _ _ holds => holds.2

def trapframeBytes (trapframe : Nat) : Set Nat := Set.Ico trapframe (trapframe + trapframeSize)

omit [PageAllocator σ] [LawfulPages σ] in
theorem trapframeInit_same {memory' : Memory} (same : SameOutside stale memory memory')
    (trapframe stackVaddr kstackVaddr : Nat) : SameOutside (stale \ trapframeBytes trapframe)
      (trapframeInit memory trapframe stackVaddr kstackVaddr)
      (trapframeInit memory' trapframe stackVaddr kstackVaddr) :=
  (((same.memset trapframe trapframeSize 0).store64 _ _).store64 _ _).store64 _ _

theorem vmUserMakePagetable_twin {userHandlerPa : Nat} (sound : Sound vm.pages)
    (bounded : userHandlerPa < 2 ^ 64) (pages : vm'.pages = vm.pages)
    (same : SameOutside stale vm.memory vm'.memory) :
    Result.Matches (fun one two => two.1 = one.1 ∧ ∃ root, one.1 = frameVa root ∧
        Backed root one.2 ∧ Twin root stale one.2 two.2)
      (vmUserMakePagetable userHandlerPa vm) (vmUserMakePagetable userHandlerPa vm') := by
  unfold vmUserMakePagetable
  rw [pages]
  apply (Result.Matches.refl _).bind
  rintro ⟨address, next⟩ _ alloc _ rfl
  dsimp only
  split
  · exact .error _
  next notNull =>
    obtain ⟨root, rfl, granted⟩ := granted_frame sound alloc notNull
    obtain ⟨backed, nodes, _⟩ := create_root granted
    have cleared := same.memset (frameVa root) pageSize 0
    generalize memset vm.memory (frameVa root) 0 pageSize = memory at backed nodes cleared ⊢
    generalize memset vm'.memory (frameVa root) 0 pageSize = memory' at cleared ⊢
    have blank : Twin root stale ⟨memory, next⟩ ⟨memory', next⟩ := by
      refine ⟨rfl, cleared.mono ?_⟩
      rintro byte ⟨isStale, notRoot⟩
      refine ⟨isStale, ?_⟩
      rintro ⟨table, member, inside⟩
      rw [nodes, Set.mem_singleton_iff] at member
      rw [member] at inside
      exact notRoot inside
    apply (blank.vmMappages backed (by decide) bounded).bind
    rintro ⟨code, mapped⟩ ⟨_, mapped'⟩ run _ ⟨_, final⟩
    rw [show vaUserUserHandlerBegin = handlerVpn * pageSize by decide, vmMappages_eq (by decide) (by decide)] at run
    have within := (backed.mapFrom (by decide) bounded (by decide) run).1
    exact .ok ⟨rfl, root, rfl, within.backed, final⟩

theorem trapframe_beside {frame stackVaddr kstackVaddr : Nat} {kstackPages framePages : σ}
    (backed : Backed root ⟨vm.memory, kstackPages⟩) (granted : Granted frame kstackPages framePages) :
    Backed root ⟨trapframeInit vm.memory (frameVa frame) stackVaddr kstackVaddr, framePages⟩ ∧
      tables root ⟨trapframeInit vm.memory (frameVa frame) stackVaddr kstackVaddr, framePages⟩ =
        tables root vm := by
  have elsewhere : Elsewhere root (tables root vm) ⟨vm.memory, kstackPages⟩
      ⟨trapframeInit vm.memory (frameVa frame) stackVaddr kstackVaddr, framePages⟩ := by
    refine ⟨granted.sound, granted.sameManaged, ?_, ?_⟩
    · rw [granted.used]
      exact fun table member => .inr (backed.used member)
    · intro table member offset inside
      refine trapframeInit_outside ?_ inside
      rintro rfl
      exact granted.unused (backed.used member)
  exact ⟨elsewhere.backed backed subset_rfl, elsewhere.tables_eq⟩

theorem procCreateSpace_twin {userHandlerPa : Nat} (programBreak programBreak' : Nat)
    (sound : Sound vm.pages) (bounded : userHandlerPa < 2 ^ 64) (pages : vm'.pages = vm.pages)
    (same : SameOutside stale vm.memory vm'.memory) :
    Result.Matches (fun one two => two.1 = { one.1 with programBreak := programBreak' } ∧
        ∃ root, one.1.pgtbl = frameVa root ∧ Backed root one.2 ∧
          Twin root (stale \ trapframeBytes one.1.trapframe) one.2 two.2)
      (procCreateSpace userHandlerPa programBreak vm) (procCreateSpace userHandlerPa programBreak' vm') := by
  unfold procCreateSpace
  apply (vmUserMakePagetable_twin sound bounded pages same).bind
  rintro ⟨_, handler⟩ ⟨_, handler'⟩ _ _ ⟨sameRoot, root, rfl, backed, twin⟩
  dsimp only at sameRoot backed twin ⊢
  subst sameRoot
  rw [twin.pages]
  apply (Result.Matches.refl _).bind
  rintro ⟨kstack, kstackPages⟩ _ kstackRun _ rfl
  have kstackBacked := backed.allocated kstackRun
  apply (Result.Matches.refl _).bind
  rintro ⟨address, framePages⟩ _ frameRun _ rfl
  dsimp only
  split
  · exact .error _
  next notNull =>
    obtain ⟨frame, rfl, granted⟩ := granted_frame kstackBacked.sound frameRun notNull
    obtain ⟨frameBacked, nodes⟩ := @trapframe_beside _ _ _ _ _ _ vaUserUserHandlerBegin kstack _ _
      kstackBacked granted
    have written : Twin root (stale \ trapframeBytes (frameVa frame))
        ⟨trapframeInit handler.memory (frameVa frame) vaUserUserHandlerBegin kstack, framePages⟩
        ⟨trapframeInit handler'.memory (frameVa frame) vaUserUserHandlerBegin kstack, framePages⟩ := by
      refine .of_tables rfl nodes ((trapframeInit_same twin.bytes _ _ _).mono ?_)
      rintro byte ⟨⟨isStale, notTable⟩, notWritten⟩
      exact ⟨⟨isStale, notWritten⟩, notTable⟩
    apply (written.vmMappages frameBacked (by decide) (pmaVa2Pa_lt _)).bind
    rintro ⟨code, mapped⟩ ⟨_, mapped'⟩ run _ ⟨_, final⟩
    rw [vmMappages_trapframe] at run
    have within := (frameBacked.mapFrom (by decide) (pmaVa2Pa_lt _) (by decide) run).1
    exact .ok ⟨rfl, root, rfl, within.backed, final⟩

end

/-- What the kernel does to the process later: its traps, its calls of `sbrk` and `proc_sleep`,
`proc_wakeup`, the scheduler, and its end.  Others may do anything but change the record. -/
inductive RecordEvent where
  | trap (registers : Fin trapframeWords → Nat)
  | sbrk
  | sleep (chan : Nat)
  | awake
  | wakeup (chan : Nat)
  | kill
  | schedule
  | save (context : ContextStruct)
  | yield
  | reap
  | others (heap : ObjectHeap Kmem) (written : Nat → Option UInt8) (records : Nat → ProcStruct)
      (procList : List Nat)

namespace ProcManager

def recordEvent (hart p : Nat) (event : RecordEvent) (manager : ProcManager) : Result (Nat × ProcManager) :=
  match event with
  | .trap registers => .ok (0, manager.saveRegisters p registers)
  | .sbrk => manager.sbrk p
  | .sleep chan => .ok (0, manager.procSleep p chan)
  | .awake => .ok (0, manager.procAwake p)
  | .wakeup chan => .ok (0, manager.procWakeup chan)
  | .kill => .ok (0, manager.procKill p)
  | .schedule => .ok (0, manager.schedule p)
  | .save context => .ok (0, manager.saveContext p context)
  | .yield => .ok (0, manager.schedulerYield p)
  | .reap => do
      let manager ← manager.procReap hart p
      return (0, manager)
  | .others heap written records procList => .ok (0, { manager with
      kernel := ⟨heap, fun address => (written address).getD (manager.kernel.memory address)⟩
      records := Function.update records p (manager.records p)
      procList })

def recordEvents (hart p : Nat) : List RecordEvent → ProcManager → Result (List Nat × ProcManager)
  | [], manager => .ok ([], manager)
  | event :: rest, manager => do
      let (value, manager) ← manager.recordEvent hart p event
      let (values, manager) ← manager.recordEvents hart p rest
      return (value :: values, manager)

end ProcManager

structure ProcView where
  programBreak : Nat
  sleepingChan : Nat
  state : ProcState
  killed : Bool
  heapVaddr : Nat
  stackVaddr : Nat
  context : ContextStruct
  registers : Fin trapframeWords → Nat

namespace ProcManager

def view (manager : ProcManager) (p : Nat) : ProcView :=
  let record := manager.records p
  { programBreak := record.programBreak, sleepingChan := record.sleepingChan, state := record.state,
    killed := record.killed, heapVaddr := record.heapVaddr, stackVaddr := record.stackVaddr, context := record.context,
    registers := fun index => manager.register p index }

def observe (hart p : Nat) (events : List RecordEvent) (manager : ProcManager) : Result (List Nat × ProcView) :=
  (manager.recordEvents hart p events).map fun final => (final.1, final.2.view p)

/-- The page table of the process is a tree of pages in use, apart from these bytes. -/
def TableIntact (p : Nat) (stale : Set Nat) (manager : ProcManager) : Prop :=
  ∃ root, (manager.records p).pgtbl = frameVa root ∧ Backed root manager.kernel.vm ∧
    Disjoint (tableBytes root manager.kernel.vm) stale

def IntactAlong (hart p : Nat) (stale : Set Nat) : List RecordEvent → ProcManager → Prop
  | [], _ => True
  | event :: rest, manager =>
    (event = .sbrk ∨ event = .reap → manager.TableIntact p stale) ∧
      ∀ value after, manager.recordEvent hart p event = .ok (value, after) →
        IntactAlong hart p stale rest after

def withMemory (manager : ProcManager) (memory : Memory) : ProcManager :=
  { manager with kernel := { manager.kernel with memory } }

def Same (stale : Set Nat) (one two : ProcManager) : Prop :=
  ∃ memory, two = one.withMemory memory ∧ SameOutside stale one.kernel.memory memory

section
variable {hart p : Nat} {stale : Set Nat} {one two : ProcManager}

def SameEvent (p trapframe : Nat) (stale : Set Nat) (one two : Nat × ProcManager) : Prop :=
  two.1 = one.1 ∧ Same stale one.2 two.2 ∧ (one.2.records p).trapframe = trapframe

theorem Same.saveRegisters (same : Same stale one two) (registers : Fin trapframeWords → Nat) :
    Same stale (one.saveRegisters p registers) (two.saveRegisters p registers) := by
  obtain ⟨memory, rfl, bytes⟩ := same
  refine ⟨_, rfl, ?_⟩
  unfold ProcManager.saveRegisters
  dsimp only
  generalize List.finRange trapframeWords = indices
  show SameOutside stale (indices.foldl _ one.kernel.memory) (indices.foldl _ memory)
  generalize one.kernel.memory = base at bytes ⊢
  induction indices generalizing base memory with
  | nil => exact bytes
  | cons index rest ih => exact ih _ _ (bytes.store64 _ _)

theorem TableIntact.twin (intact : one.TableIntact p stale)
    (bytes : SameOutside stale one.kernel.memory memory) :
    ∃ root, (one.records p).pgtbl = frameVa root ∧ Backed root one.kernel.vm ∧
      Twin root stale one.kernel.vm (one.withMemory memory).kernel.vm := by
  obtain ⟨root, pgtbl, backed, apart⟩ := intact
  refine ⟨root, pgtbl, backed, rfl, bytes.mono fun address isStale => ⟨isStale, ?_⟩⟩
  exact fun isTable => Set.disjoint_left.mp apart isTable isStale

theorem Same.of_twin {root : Nat} {vm vm' : Vmem Kmem} (twin : Twin root stale vm vm')
    (manager : ProcManager) (memory : Memory) :
    Same stale (manager.withVm vm) ((manager.withMemory memory).withVm vm') := by
  refine ⟨vm'.memory, ?_, twin.bytes.mono Set.sdiff_subset⟩
  show ProcManager.mk ⟨{ manager.kernel.heap with kmem := vm'.pages }, vm'.memory⟩ _ _ _ _ _ = _
  rw [twin.pages]
  rfl

theorem Same.sbrk (same : Same stale one two) (intact : one.TableIntact p stale)
    (apart : ∀ byte ∈ trapframeBytes (one.records p).trapframe, byte ∉ stale) :
    Result.Matches (SameEvent p (one.records p).trapframe stale) (one.sbrk p) (two.sbrk p) := by
  obtain ⟨memory, rfl, bytes⟩ := same
  obtain ⟨root, pgtbl, backed, twin⟩ := intact.twin bytes
  have argument : memory.load64 ((one.records p).trapframe + trapframeA0) =
      one.kernel.memory.load64 ((one.records p).trapframe + trapframeA0) :=
    bytes.load64 fun offset inside => apart _ ⟨by omega, by simp only [trapframeA0, trapframeSize]; omega⟩
  unfold ProcManager.sbrk
  dsimp only [withMemory]
  rw [argument]
  apply (syscallSbrk_twin twin backed pgtbl _).bind
  rintro ⟨ret, space, vm⟩ ⟨_, _, vm'⟩ run _ ⟨sameRet, sameSpace, final⟩
  dsimp only at sameRet sameSpace final ⊢
  subst sameRet sameSpace
  refine .ok ⟨rfl, .of_twin final _ memory, ?_⟩
  show (Function.update one.records p _ p).trapframe = _
  rw [Function.update_self]
  exact syscallSbrk_trapframe run

theorem procReapDetached_twin {root : Nat} {kernel kernel' : ProcKernel}
    (twin : Twin root stale kernel.vm kernel'.vm) (sameHeap : kernel'.heap = kernel.heap)
    (tree : sv39.Tree (cells kernel.memory) root) (pgtbl : space.pgtbl = frameVa root) :
    Result.Matches (fun one two => two.heap = one.heap ∧ SameOutside stale one.memory two.memory)
      (procReapDetached hart p space kernel) (procReapDetached hart p space kernel') := by
  apply (procReapSpace_twin twin tree pgtbl).bind
  rintro vm vm' _ _ final
  have freed : (kernel'.withVm vm').heap = (kernel.withVm vm).heap := by
    unfold ProcKernel.withVm
    rw [sameHeap, final.pages]
  rw [freed]
  apply (Result.Matches.refl _).bind
  rintro heap _ _ _ rfl
  exact .ok ⟨rfl, final.bytes.mono Set.sdiff_subset⟩

section
variable (same : Same stale one two)
include same

theorem Same.reap (intact : one.TableIntact p stale) :
    Result.Matches (fun one' two' => Same stale one' two' ∧ one'.records = one.records)
      (one.procReap hart p) (two.procReap hart p) := by
  obtain ⟨memory, rfl, bytes⟩ := same
  obtain ⟨root, pgtbl, backed, twin⟩ := intact.twin bytes
  apply (procReapDetached_twin twin rfl backed.tree pgtbl).bind
  rintro ⟨heap, _⟩ ⟨_, memory'⟩ _ _ ⟨sameHeap, sameMemory⟩
  dsimp only at sameHeap sameMemory ⊢
  subst sameHeap
  exact .ok ⟨⟨memory', rfl, sameMemory⟩, rfl⟩

theorem Same.setRecord (record : ProcStruct) : Same stale (one.setRecord p record) (two.setRecord p record) := by
  obtain ⟨memory, rfl, bytes⟩ := same
  exact ⟨memory, rfl, bytes⟩

section
variable (apart : ∀ byte ∈ trapframeBytes (one.records p).trapframe, byte ∉ stale)
include apart

theorem Same.recordEvent {event : RecordEvent} (intact : event = .sbrk ∨ event = .reap → one.TableIntact p stale) :
    Result.Matches (SameEvent p (one.records p).trapframe stale) (one.recordEvent hart p event)
      (two.recordEvent hart p event) := by
  have sameRecord {record : ProcStruct} (kept : record.trapframe = (one.records p).trapframe) :
      SameEvent p (one.records p).trapframe stale (0, one.setRecord p record) (0, two.setRecord p record) := by
    refine ⟨rfl, same.setRecord record, ?_⟩
    show (Function.update one.records p record p).trapframe = _
    rw [Function.update_self, kept]
  have unmoved : two.records = one.records := by
    obtain ⟨memory, rfl, _⟩ := same
    rfl
  unfold ProcManager.recordEvent
  cases event with
  | trap registers => exact .ok ⟨rfl, same.saveRegisters registers, rfl⟩
  | sbrk => exact same.sbrk (intact (.inl rfl)) apart
  | sleep chan =>
    unfold procSleep
    rw [unmoved]
    exact .ok (sameRecord rfl)
  | awake =>
    unfold procAwake
    rw [unmoved]
    exact .ok (sameRecord rfl)
  | wakeup chan =>
    obtain ⟨memory, rfl, bytes⟩ := same
    refine .ok ⟨rfl, ⟨memory, rfl, bytes⟩, ?_⟩
    unfold procWakeup wakeSleepers
    dsimp only
    split
    · rfl
    · rfl
  | kill =>
    unfold procKill
    rw [unmoved]
    exact .ok (sameRecord rfl)
  | schedule =>
    unfold ProcManager.schedule
    rw [unmoved]
    dsimp only
    split
    · exact .ok (sameRecord rfl)
    · exact .ok ⟨rfl, same, rfl⟩
  | save context =>
    unfold saveContext
    rw [unmoved]
    exact .ok (sameRecord rfl)
  | yield =>
    unfold schedulerYield
    rw [unmoved]
    exact .ok (sameRecord rfl)
  | reap =>
    apply (same.reap (intact (.inr rfl))).bind
    rintro after after' _ _ ⟨final, kept⟩
    exact .ok ⟨rfl, final, by rw [kept]⟩
  | others heap written records procList =>
    obtain ⟨memory, rfl, bytes⟩ := same
    refine .ok ⟨rfl, ⟨fun address => (written address).getD (memory address), rfl, ?_⟩, ?_⟩
    · intro address outside
      show (written address).getD _ = (written address).getD _
      rw [bytes address outside]
    · show (Function.update records p (one.records p) p).trapframe = _
      rw [Function.update_self]

theorem Same.recordEvents {events : List RecordEvent} (intact : one.IntactAlong hart p stale events) :
    Result.Matches (fun final final' => final'.1 = final.1 ∧ Same stale final.2 final'.2 ∧
        (final.2.records p).trapframe = (one.records p).trapframe)
      (one.recordEvents hart p events) (two.recordEvents hart p events) := by
  induction events generalizing one two with
  | nil => exact .ok ⟨rfl, same, rfl⟩
  | cons event rest ih =>
    apply (same.recordEvent apart intact.1).bind
    rintro ⟨value, between⟩ ⟨_, between'⟩ run _ ⟨rfl, sameBetween, kept⟩
    dsimp only at sameBetween kept ⊢
    rw [← kept] at apart ⊢
    apply (ih sameBetween apart (intact.2 _ _ run)).bind
    rintro ⟨values, final⟩ ⟨_, final'⟩ _ _ ⟨rfl, sameFinal, keptFinal⟩
    exact .ok ⟨rfl, sameFinal, keptFinal⟩

theorem Same.view : two.view p = one.view p := by
  obtain ⟨memory, rfl, bytes⟩ := same
  have registers : ∀ index : Fin trapframeWords,
      (one.withMemory memory).register p index = one.register p index := by
    intro index
    show memory.load64 ((one.records p).trapframe + 8 * index) = one.kernel.memory.load64 _
    refine bytes.load64 fun offset inside => apart _ ⟨by omega, ?_⟩
    have bound : index.val < 36 := index.isLt
    simp only [trapframeSize]
    omega
  unfold ProcManager.view
  simp only [registers]
  rfl

theorem Same.observe {events : List RecordEvent}
    (intact : one.IntactAlong hart p stale events) : two.observe hart p events = one.observe hart p events := by
  have both := same.recordEvents apart intact
  unfold ProcManager.observe
  generalize one.recordEvents hart p events = first at both ⊢
  generalize two.recordEvents hart p events = second at both ⊢
  cases both with
  | ok holds =>
    obtain ⟨sameValues, sameFinal, kept⟩ := holds
    rw [← kept] at apart
    show Except.ok (_, _) = Except.ok (_, _)
    rw [sameValues, sameFinal.view apart]
  | error stop => rfl

end

end

def recycledPages (record : ProcStruct) : Set Nat :=
  Set.Ico record.kstackVaddr (record.kstackVaddr + pageSize) ∪
    Set.Ico record.trapframe (record.trapframe + pageSize)

/-- The two states differ in the record in the slot `p` and in stale bytes of the memory. -/
def DifferStale (p : Nat) (stale : Set Nat) (one two : ProcManager) : Prop :=
  ∃ memory, two = (one.withMemory memory).setRecord p (two.records p) ∧
    SameOutside stale one.kernel.memory memory

def withStale (stale record : ProcStruct) : ProcStruct :=
  { record with programBreak := stale.programBreak, sleepingChan := stale.sleepingChan }

variable {image : KernelImage} {pid : UInt32} {created : ProcManager}

theorem enroll_stale {heap : ObjectHeap Kmem} {vm vm' : Vmem Kmem}
    (record : ProcStruct) (pages : vm'.pages = vm.pages) :
    ((one.withMemory memory).setRecord p record).enroll image p heap
        { space with programBreak := record.programBreak } vm' =
      ((one.enroll image p heap space vm).withMemory vm'.memory).setRecord p
        (withStale record ((one.enroll image p heap space vm).records p)) := by
  rw [enroll_record]
  unfold enroll setRecord withMemory ProcKernel.withVm
  dsimp only
  rw [Function.update_self, Function.update_idem, Function.update_idem, pages]
  rfl

section
variable (buddy : BuddySound one.kernel.heap.kmem) (run : one.procCreate hart image = .ok (pid, created))
  (slot : created.procList = p :: one.procList)
include buddy run slot

theorem procCreate_twin (differ : DifferStale p stale one two) :
    created.records p = withStale (one.records p) (created.records p) ∧
    ∃ memory, two.procCreate hart image = .ok (pid, (created.withMemory memory).setRecord p
        (withStale (two.records p) (created.records p))) ∧
      SameOutside (stale \ trapframeBytes (created.records p).trapframe) created.kernel.memory memory := by
  obtain ⟨memory, apart, bytes⟩ := differ
  generalize two.records p = record at apart ⊢
  subst apart
  obtain ⟨heap, space, vm, alloc, notNull, create, rfl, rfl⟩ := procCreate_enrolls run slot
  have both := @procCreateSpace_twin _ _ _ _ ⟨one.kernel.memory, heap.kmem⟩ ⟨memory, heap.kmem⟩ _
    (one.records p).programBreak record.programBreak
    (kmemObjectAlloc_shrinks buddy alloc).sound image.bounded rfl bytes
  rw [create] at both
  generalize second : procCreateSpace image.userHandlerPa record.programBreak
    (⟨memory, heap.kmem⟩ : Vmem Kmem) = other at both
  cases both with | ok holds =>
  rename_i final
  obtain ⟨space', vm'⟩ := final
  obtain ⟨sameSpace, root, _, _, twin⟩ := holds
  dsimp only at sameSpace twin
  subst sameSpace
  have sameBreak := procCreateSpace_break create
  refine ⟨?_, vm'.memory, ?_, ?_⟩
  · rw [enroll_record]
    unfold withStale
    rw [← sameBreak]
    rfl
  · have stale' : ((one.withMemory memory).setRecord p record).records p = record := Function.update_self ..
    rw [← stale'] at second
    rw [@procCreate_returns hart p image ((one.withMemory memory).setRecord p record) heap _ vm' alloc
      notNull second, stale', enroll_stale record twin.pages]
    rfl
  · rw [enroll_record]
    exact twin.bytes.mono Set.sdiff_subset

theorem created_intact : created.TableIntact p (recycledPages (created.records p)) := by
  obtain ⟨heap, space, vm, alloc, _, create, rfl, rfl⟩ := procCreate_enrolls run slot
  have sound : BuddySound heap.kmem := (kmemObjectAlloc_shrinks buddy alloc).sound
  obtain ⟨root, kstack, frame, rfl, made⟩ :=
    @create_created _ _ _ _ _ ⟨one.kernel.memory, heap.kmem⟩ _ _ sound image.bounded
      (create_granted_of_returned sound image.bounded create) create
  rw [TableIntact, enroll_record]
  refine ⟨root, rfl, made.laid.backed, ?_⟩
  rw [Set.disjoint_left]
  rintro byte ⟨table, isTable, inside⟩ (inKstack | inFrame)
  · exact made.laid.kstackApart (frameBytes_unique inKstack inside ▸ isTable)
  · exact made.frame_taken.2 (frameBytes_unique inFrame inside ▸ isTable)

/-- The new record holds what the slot held in `program_break` and `sleeping_chan`. -/
theorem creation_ignores_stale_iff (differ : DifferStale p (recycledPages (created.records p)) one two) :
    ∃ created', two.procCreate hart image = .ok (pid, created') ∧
      created'.procList = p :: two.procList ∧
      ((∀ events, created.IntactAlong hart p (recycledPages (created.records p) \
            trapframeBytes (created.records p).trapframe) events →
          created'.observe hart p events = created.observe hart p events) ↔
        (two.records p).programBreak = (one.records p).programBreak ∧
          (two.records p).sleepingChan = (one.records p).sleepingChan) := by
  obtain ⟨inherited, memory, run', bytes⟩ := procCreate_twin buddy run slot differ
  refine ⟨_, run', ?_, ?_, ?_⟩
  · obtain ⟨_, apart, _⟩ := differ
    rw [apart]
    exact slot
  · intro ignores
    have same := ignores [] trivial
    have views := (Prod.mk.inj (Except.ok.inj same)).2
    unfold ProcManager.view setRecord at views
    dsimp only at views
    rw [Function.update_self, inherited] at views
    exact ⟨congrArg ProcView.programBreak views, congrArg ProcView.sleepingChan views⟩
  · rintro ⟨sameBreak, sameChan⟩ events intact
    have sameStale : withStale (two.records p) (created.records p) = created.records p := by
      unfold withStale
      rw [sameBreak, sameChan]
      exact inherited.symm
    refine Same.observe ⟨memory, ?_, bytes⟩ (fun byte inside outside => outside.2 inside) intact
    rw [sameStale]
    unfold setRecord withMemory
    dsimp only
    rw [Function.update_eq_self]

end

end

/-- The kernel stack was used before, and the record was not; what `sbrk` returns is the same. -/
theorem creation_ignores_stale_iff_used_kstack : ∃ (one two created created' : ProcManager) (p : Nat),
      one.procCreate 1 boardImage = .ok (1, created) ∧
      two.procCreate 1 boardImage = .ok (1, created') ∧
      two.kernel.memory (created.records p).kstackVaddr ≠ one.kernel.memory (created.records p).kstackVaddr ∧
      (two.records p).exitState ≠ (one.records p).exitState ∧
      created.IntactAlong 1 p (recycledPages (created.records p) \
        trapframeBytes (created.records p).trapframe) [.sbrk] ∧
      created'.observe 1 p [.sbrk] = created.observe 1 p [.sbrk] := by
  obtain ⟨one, created, p, buddy, held, run, slot⟩ := first_enrolled (deadRecord 0)
  let kstack := (created.records p).kstackVaddr
  let memory := Function.update one.kernel.memory kstack (one.kernel.memory kstack + 1)
  let two := (one.withMemory memory).setRecord p { one.records p with exitState := 0 }
  have changed : two.records p = { one.records p with exitState := 0 } := Function.update_self ..
  have differ : DifferStale p (recycledPages (created.records p)) one two := by
    refine ⟨memory, by rw [changed], fun address outside => Function.update_of_ne ?_ _ _⟩
    rintro rfl
    exact outside (.inl ⟨Nat.le_refl _, Nat.lt_add_of_pos_right (by decide)⟩)
  obtain ⟨created', run', _, ignores⟩ := creation_ignores_stale_iff buddy run slot differ
  have intact : created.IntactAlong 1 p (recycledPages (created.records p) \
      trapframeBytes (created.records p).trapframe) [.sbrk] := by
    obtain ⟨root, pgtbl, backed, apart⟩ := created_intact buddy run slot
    exact ⟨fun _ => ⟨root, pgtbl, backed, apart.mono_right Set.sdiff_subset⟩, fun _ _ _ => trivial⟩
  refine ⟨one, two, created, created', p, run, run', ?_, ?_, intact, ?_⟩
  · show Function.update one.kernel.memory kstack _ kstack ≠ one.kernel.memory kstack
    rw [Function.update_self]
    generalize one.kernel.memory kstack = byte
    intro same
    have sum := congrArg UInt8.toNat same
    have bound := byte.toNat_lt
    rw [UInt8.toNat_add, show (1 : UInt8).toNat = 1 from rfl] at sum
    omega
  · rw [changed, held]
    decide
  · exact ignores.mpr ⟨by rw [changed], by rw [changed]⟩ _ intact

/-- The dead process moved its program break, and the new one is there. -/
theorem creation_inherits_break :
    ∃ (one two created created' : ProcManager) (p : Nat), BuddySound one.kernel.heap.kmem ∧
      one.procCreate 1 boardImage = .ok (1, created) ∧ created.procList = p :: one.procList ∧
      two.procCreate 1 boardImage = .ok (1, created') ∧
      DifferStale p (recycledPages (created.records p)) one two ∧
      created'.observe 1 p [] ≠ created.observe 1 p [] := by
  obtain ⟨one, created, p, buddy, held, run, slot⟩ := first_enrolled (deadRecord 0)
  let two := (one.withMemory one.kernel.memory).setRecord p (deadRecord 4096)
  have changed : two.records p = deadRecord 4096 := Function.update_self ..
  have differ : DifferStale p (recycledPages (created.records p)) one two :=
    ⟨one.kernel.memory, by rw [changed], fun _ _ => rfl⟩
  obtain ⟨inherited, memory, run', _⟩ := procCreate_twin buddy run slot differ
  refine ⟨one, two, created, _, p, buddy, run, slot, run', differ, fun same => ?_⟩
  have views := (Prod.mk.inj (Except.ok.inj same)).2
  have breaks := congrArg ProcView.programBreak views
  unfold ProcManager.view setRecord at breaks
  dsimp only at breaks
  rw [Function.update_self, inherited, changed, held] at breaks
  exact absurd (show 4096 = 0 from breaks) (by decide)

end ProcManager

end Kalorona.Proc
