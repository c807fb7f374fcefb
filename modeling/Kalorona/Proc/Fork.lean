import Kalorona.Proc.Record
import Kalorona.Proc.SbrkRuns

namespace Kalorona.Proc

open Kalorona.Data Kalorona.Utilities Kalorona.Memory

/-! # Fork

The child starts as a new process.  It is given the bounds of the parent, a copy of the trapframe
and copies of the user pages; `program_break` is not among what is copied.
-/

open LawfulPages (Sound managed inUse)

variable {σ : Type} [PageAllocator σ] [LawfulPages σ]

theorem Created.kernelSp {userHandlerPa root kstack frame : Nat} {vm after : Vmem σ}
    (created : Created userHandlerPa root kstack frame vm after) :
    after.memory.load64 (frameVa frame + trapframeKernelSp) = ulong (frameVa kstack + pageSize) := by
  obtain ⟨memory, initial⟩ := created.initial
  have same : after.memory.load64 (frameVa frame + trapframeKernelSp) =
      (trapframeInit memory (frameVa frame) vaUserUserHandlerBegin (frameVa kstack)).load64
        (frameVa frame + trapframeKernelSp) := by
    refine Memory.load64_congr fun offset small => ?_
    rw [Nat.add_assoc]
    exact initial _ (by unfold trapframeKernelSp; omega)
  rw [same, trapframeInit, Memory.load64_store64_same (ulong_lt _)]

/-- A parent with a heap and the new space of its child share no table. -/
structure Forking (root kstack childRoot childKstack : Nat) (heap : HeapState) (parent : ProcSpace)
    (mine : Set Nat) (vm : Vmem σ) : Prop where
  has : HasHeap root kstack heap parent vm
  child : LaidPages childRoot childKstack ∅ mine vm
  clean : ∀ table ∈ tables childRoot vm, ∀ pn,
    cells vm.memory table pn = 0 ∨ cells vm.memory table pn &&& pteFlagV ≠ 0
  apart : ∀ table ∈ tables root vm, table ∉ tables childRoot vm
  handler : ∀ vpn, handlerVpn ≤ vpn → vpn < trapframeVpn → ∀ entry,
    pageMap (frameVa root) vm vpn = some entry → frameOf entry ∈ inUse vm.pages
  childHandler : ∀ vpn, handlerVpn ≤ vpn → vpn < trapframeVpn → ∀ entry,
    pageMap (frameVa childRoot) vm vpn = some entry → frameOf entry ∈ inUse vm.pages \ tables childRoot vm
  readable : ∀ vpn ∈ heap.pages, ∀ entry, pageMap (frameVa root) vm vpn = some entry →
    entry.2 &&& (pteFlagR ||| pteFlagX) ≠ 0

variable {vpn other : Nat}

section
variable {root kstack childRoot childKstack : Nat} {heap : HeapState} {parent : ProcSpace} {mine : Set Nat}
  {vm after : Vmem σ} (forking : Forking root kstack childRoot childKstack heap parent mine vm)
include forking

theorem Forking.spaces : Spaces root childRoot vm := by
  have parentLaid := forking.has.laid
  refine ⟨forking.child.backed, forking.clean, ?_, parentLaid.backed.tree, ?_, ?_⟩
  · intro digits entry long found
    obtain ⟨vpn, small, rfl⟩ := exists_key long
    rw [← pageMap_eq_value] at found
    rcases forking.child.only vpn small entry found with none | ⟨lower, upper⟩
    · exact absurd none (Set.notMem_empty vpn)
    · rcases Nat.lt_or_eq_of_le upper with below | rfl
      · exact forking.childHandler vpn lower below entry found
      · obtain ⟨⟨isMine, _⟩, notTable⟩ := forking.child.frames trapframeVpn (.inl rfl) entry found
        exact ⟨forking.child.mineUsed isMine, fun isTable => notTable (.inr isTable)⟩
  · exact fun table member => ⟨parentLaid.backed.used member, forking.apart table member⟩
  · intro digits entry long found
    obtain ⟨vpn, small, rfl⟩ := exists_key long
    rw [← pageMap_eq_value] at found
    rcases parentLaid.only vpn small entry found with user | ⟨lower, upper⟩
    · exact parentLaid.mineUsed (parentLaid.frames vpn (.inr user) entry found).1.1
    · rcases Nat.lt_or_eq_of_le upper with below | rfl
      · exact forking.handler vpn lower below entry found
      · exact parentLaid.mineUsed (parentLaid.frames trapframeVpn (.inl rfl) entry found).1.1

theorem Forking.hole (user : vpn ∈ heap.pages) : pageMap (frameVa childRoot) vm vpn = none := by
  have low := forking.has.laid.low vpn user
  refine Option.eq_none_iff_forall_ne_some.mpr fun entry found => ?_
  rcases forking.child.only vpn (forking.has.laid.bounded (.inr user)) entry found with none | kernel
  · exact none
  · omega

section
variable (copied : Copied root childRoot { path | path ≠ [] } vm after)
include copied

theorem Forking.same (small : vpn < 2 ^ 27) (outside : vpn ∉ heap.pages) :
    pageMap (frameVa childRoot) after vpn = pageMap (frameVa childRoot) vm vpn := by
  cases mapped : pageMap (frameVa childRoot) vm vpn with
  | some entry =>
    rw [pageMap_eq_value] at mapped ⊢
    exact copied.kept _ entry rfl mapped
  | none =>
    have unmapped : pageMap (frameVa root) vm vpn = none := by
      refine Option.eq_none_iff_forall_ne_some.mpr fun entry found => ?_
      rcases forking.has.laid.only vpn small entry found with user | ⟨lower, upper⟩
      · exact outside user
      · obtain ⟨_, kernel, _⟩ := forking.child.kernel vpn lower upper
        cases mapped.symm.trans kernel
    rw [pageMap_eq_value] at mapped unmapped ⊢
    refine copied.holes _ rfl mapped ?_
    rw [copyable, unmapped, Option.filter_none]

theorem Forking.page
    (user : vpn ∈ heap.pages) : ∃ frame flags, pageMap (frameVa childRoot) after vpn = some (frame, flags) ∧
      frame < 2 ^ 26 ∧ flags &&& (pteFlagV ||| pteFlagU) = pteFlagV ||| pteFlagU ∧
      frame ∉ inUse vm.pages ∧ frame ∈ inUse after.pages ∧ frame ∉ tables childRoot after := by
  have hole := forking.hole user
  obtain ⟨entry, found, _, flags⟩ := forking.has.laid.mapped vpn user
  have readable := forking.readable vpn user entry found
  rw [pageMap_eq_value] at hole found
  obtain ⟨frame, unused, mapped, bounded, _⟩ := copied.copies (key (vpn * pageSize)) (List.cons_ne_nil _ _)
    entry rfl hole (copyable_some.mpr ⟨found, readable⟩)
  obtain ⟨used, notTable⟩ := copied.spaces.dstFrames _ _ rfl mapped
  rw [frameOf, Nat.mod_eq_of_lt bounded] at used notTable
  exact ⟨frame, entry.2, (pageMap_eq_value ..).trans mapped, bounded, flags, unused, used, notTable⟩

theorem Forking.added : Added childRoot ∅ heap.pages vm after where
  low := forking.has.laid.low
  free _ _ := Set.notMem_empty _
  same _ small outside := forking.same copied small outside
  mapped vpn user := by
    obtain ⟨frame, flags, mapped, bounded, isUser, unused, used, notTable⟩ := forking.page copied user
    refine ⟨_, mapped, bounded, isUser, ?_⟩
    rw [frameOf, Nat.mod_eq_of_lt bounded]
    exact ⟨(copied.drawn.taken used).resolve_left unused, unused, used, notTable⟩
  distinct vpn user other otherUser entry otherEntry found otherFound equal := by
    have hole := forking.hole user
    have otherHole := forking.hole otherUser
    by_contra different
    rw [pageMap_eq_value] at hole otherHole found otherFound
    exact key_page_ne (forking.has.laid.bounded (.inr otherUser)) (forking.has.laid.bounded (.inr user))
      different (copied.distinct _ _ entry otherEntry rfl rfl hole otherHole found otherFound equal)

end

theorem Forking.copied {fit : Nat → Prop}
    (blank : ∀ frame, fit frame → frame ∉ inUse vm.pages → Blank vm.memory frame)
    (serves : Serves fit 0 (requests vm.memory (occupied vm.memory childRoot) 2 [] root) vm.pages) :
    ∃ after, vmUvmcpy (frameVa root) (frameVa childRoot) false vm = .ok after ∧
      Copied root childRoot { path | path ≠ [] } vm after ∧ HasHeap root kstack heap parent after ∧
      LaidPages childRoot childKstack heap.pages (taken mine vm.pages after.pages) after := by
  obtain ⟨after, _, run, _, copied, _⟩ := forking.spaces.copies (.inl ⟨rfl, blank⟩) serves
  have drawn := copied.drawn
  have elsewhere : Elsewhere root (ownFrames root kstack vm) vm after :=
    ⟨copied.spaces.backed.sound, drawn.sameManaged, forking.has.laid.mineUsed.trans drawn.used,
      fun table member => copied.outside table (forking.has.laid.backed.used member) (forking.apart table member)⟩
  have widened : Widened childRoot vm after := ⟨copied.spaces.backed, drawn.sameManaged, drawn.used, copied.grown⟩
  have laid := forking.child.add (forking.added copied) widened
  rw [Set.empty_union] at laid
  exact ⟨after, run, copied, forking.has.elsewhere elsewhere, laid⟩

end

/-- The trapframe `dup` as `proc_fork` makes it from the trapframe `parent`. -/
def dupTrapframe (memory : Memory) (dup parent : Nat) : Memory :=
  ((memcpy memory dup parent trapframeSize).store64 (dup + trapframeA0) 0).store64 (dup + trapframeKernelSp)
    (memory.load64 (dup + trapframeKernelSp))

section
variable {memory : Memory} {frame parent : Nat}

theorem memcpy_trapframe (address : Nat) : memcpy memory (frameVa frame) (frameVa parent) trapframeSize address =
      if frameVa frame ≤ address ∧ address < frameVa frame + trapframeSize then
        memory (frameVa parent + (address - frameVa frame)) else memory address := by
  refine memcpy_apply ?_ address
  unfold frameVa pageSize trapframeSize
  omega

theorem dupTrapframe_outside (notFrame : other ≠ frame) :
    SameBytes (dupTrapframe memory (frameVa frame) (frameVa parent)) memory other other := by
  intro offset inside
  rw [dupTrapframe, Memory.store64_outside, Memory.store64_outside, memcpy_trapframe, if_neg]
  all_goals
    unfold frameVa pageSize
  · unfold trapframeSize
    omega
  · unfold trapframeA0
    omega
  · unfold trapframeKernelSp
    omega

theorem dupTrapframe_word {index : Nat} (inside : index < trapframeWords)
    (notA0 : 8 * index ≠ trapframeA0) (notKernelSp : 8 * index ≠ trapframeKernelSp) :
    (dupTrapframe memory (frameVa frame) (frameVa parent)).load64 (frameVa frame + 8 * index) =
      memory.load64 (frameVa parent + 8 * index) := by
  unfold trapframeWords at inside
  unfold trapframeA0 at notA0
  unfold trapframeKernelSp at notKernelSp
  rw [dupTrapframe, Memory.load64_store64_other (by unfold trapframeKernelSp; omega),
    Memory.load64_store64_other (by unfold trapframeA0; omega)]
  refine Memory.load64_congr fun offset small => ?_
  rw [memcpy_trapframe, if_pos (by unfold trapframeSize; omega)]
  congr 1
  omega

theorem dupTrapframe_a0 :
    (dupTrapframe memory (frameVa frame) (frameVa parent)).load64 (frameVa frame + trapframeA0) = 0 := by
  rw [dupTrapframe, Memory.load64_store64_other (by unfold trapframeKernelSp trapframeA0; omega),
    Memory.load64_store64_same (by decide)]

theorem dupTrapframe_kernelSp :
    (dupTrapframe memory (frameVa frame) (frameVa parent)).load64 (frameVa frame + trapframeKernelSp) =
      memory.load64 (frameVa frame + trapframeKernelSp) := by
  rw [dupTrapframe, Memory.load64_store64_same (Memory.load64_lt _)]

end

namespace ProcManager

/-- The process `p` is running, its table and its record are in order, and the pages of the user
handler are in use. -/
structure Forkable (image : KernelImage) (p root kstack : Nat) (heap : HeapState) (manager : ProcManager) :
    Prop where
  sound : HeapSound manager.kernel.heap
  live : Live manager.procObjectManager p manager.kernel.heap
  running : (manager.records p).state = .running
  has : HasHeap root kstack heap (manager.records p).toProcSpace manager.kernel.vm
  trapframe : ∃ entry, pageMap (frameVa root) manager.kernel.vm trapframeVpn = some entry ∧
    (manager.records p).trapframe = frameVa (frameOf entry)
  handler : ∀ vpn, handlerVpn ≤ vpn → vpn < trapframeVpn → ∀ entry,
    pageMap (frameVa root) manager.kernel.vm vpn = some entry → frameOf entry ∈ inUse manager.kernel.vm.pages
  handlerImage : ∀ page < 8, (image.userHandlerPa / 4096 + page) % 2 ^ 26 ∈ inUse manager.kernel.vm.pages
  readable : ∀ vpn ∈ heap.pages, ∀ entry, pageMap (frameVa root) manager.kernel.vm vpn = some entry →
    entry.2 &&& (pteFlagR ||| pteFlagX) ≠ 0

section
variable {image : KernelImage} {hart p q root kstack childRoot childKstack frame trap : Nat} {heap : HeapState}
  {manager : ProcManager} {objects : ObjectHeap Kmem} {vm : Vmem Kmem}
  (ready : Forkable image p root kstack heap manager)
  (alloc : kmemObjectAlloc hart manager.procObjectManager manager.kernel.heap = .ok (q, objects))
include ready alloc

theorem Forkable.record_pages : Sound objects.kmem ∧ managed objects.kmem = managed manager.kernel.vm.pages ∧
    inUse manager.kernel.vm.pages ⊆ inUse objects.kmem := by
  have buddy : BuddySound manager.kernel.heap.kmem := ready.sound.sound.1
  have shrinks := kmemObjectAlloc_shrinks buddy alloc
  exact ⟨shrinks.sound, shrinks.frame.nodeFrames_eq,
    (kmemObjectAlloc_frames buddy (kernelSound_of_heap ready.sound).blocksUsed alloc).1⟩

section
variable (created : Created image.userHandlerPa childRoot childKstack frame ⟨manager.kernel.memory, objects.kmem⟩ vm)
  {dup : Memory} (isDup : dup = dupTrapframe vm.memory (frameVa frame) (frameVa trap))
include created isDup

theorem Forkable.kept (used : other ∈ inUse manager.kernel.vm.pages) :
    SameBytes dup manager.kernel.memory other other := by
  obtain ⟨_, _, grown⟩ := ready.record_pages alloc
  have notTaken : ∀ page ∈ inUse manager.kernel.vm.pages, page ∉ taken ∅ objects.kmem vm.pages :=
    fun page old new => new.2.resolve_left (Set.notMem_empty _) (grown old)
  have frameTaken := created.frame_taken.1
  have different : ∀ page ∈ inUse manager.kernel.vm.pages, page ≠ frame :=
    fun page old => (ne_of_mem_of_not_mem frameTaken (notTaken page old)).symm
  intro offset inside
  rw [isDup, dupTrapframe_outside (different other used) offset inside]
  exact created.untouched other (notTaken other used) offset inside

omit ready alloc in
theorem child_elsewhere : Elsewhere childRoot (taken ∅ objects.kmem vm.pages) vm ⟨dup, vm.pages⟩ := by
  refine ⟨created.laid.backed.sound, rfl, created.laid.mineUsed, fun table isTable => ?_⟩
  rw [isDup]
  exact dupTrapframe_outside (ne_of_mem_of_not_mem isTable created.frame_taken.2)

omit ready alloc in
theorem trapframe_kept {final : Vmem Kmem}
    (copied : Copied root childRoot { path | path ≠ [] } (⟨dup, vm.pages⟩ : Vmem Kmem) final)
    {place : Nat} (inside : place + 8 ≤ 4096) :
    final.memory.load64 (frameVa frame + place) = dup.load64 (frameVa frame + place) := by
  have notTable : frame ∉ tables childRoot (⟨dup, vm.pages⟩ : Vmem Kmem) := by
    rw [(child_elsewhere created isDup).tables_eq]
    exact created.frame_taken.2
  refine Memory.load64_congr fun offset small => ?_
  rw [Nat.add_assoc]
  exact copied.outside frame created.frame_taken.1.1 notTable _ (by omega)

omit ready alloc in
theorem child_blank (blank : Blank manager.kernel.memory other) (unused : other ∉ inUse vm.pages) :
    Blank dup other := by
  intro offset late inside
  have notTaken : other ∉ taken ∅ objects.kmem vm.pages := fun new => unused new.1
  have notFrame : other ≠ frame := (ne_of_mem_of_not_mem created.frame_taken.1 notTaken).symm
  rw [isDup, dupTrapframe_outside notFrame offset inside, created.untouched other notTaken offset inside]
  exact blank offset late inside

theorem Forkable.forking : Forking root kstack childRoot childKstack heap (manager.records p).toProcSpace
    (taken ∅ objects.kmem vm.pages) (⟨dup, vm.pages⟩ : Vmem Kmem) := by
  obtain ⟨_, sameManaged, grown⟩ := ready.record_pages alloc
  have childElsewhere := child_elsewhere created isDup
  have unused : ∀ table ∈ tables childRoot vm, table ∉ inUse manager.kernel.vm.pages :=
    fun table isTable old => (created.laid.tablesMine isTable).2.resolve_left (Set.notMem_empty _) (grown old)
  have elsewhere : Elsewhere root (ownFrames root kstack manager.kernel.vm) manager.kernel.vm ⟨dup, vm.pages⟩ :=
    ⟨created.laid.backed.sound, created.sameManaged.trans sameManaged,
      ready.has.laid.mineUsed.trans (grown.trans created.used),
      fun table isTable => ready.kept alloc created isDup (ready.has.laid.backed.used isTable)⟩
  refine ⟨ready.has.elsewhere elsewhere, created.laid.elsewhere childElsewhere, ?_, ?_, ?_, ?_, ?_⟩
  · exact (created.along.congr childElsewhere.bytes).clean
  · rw [elsewhere.tables_eq, childElsewhere.tables_eq]
    exact fun table isTable isNew => unused table isNew (ready.has.laid.backed.used isTable)
  · intro vpn lower upper entry found
    rw [elsewhere.pageMap_eq] at found
    exact created.used (grown (ready.handler vpn lower upper entry found))
  · intro vpn lower upper entry found
    have high : trapframeVpn < 2 ^ 27 := by decide
    have frameAt : trapframeVpn = handlerVpn + 8 := by decide
    rw [childElsewhere.pageMap_eq, created.map vpn (by omega), createdMap, if_neg (by omega),
      if_pos (by omega)] at found
    have used := ready.handlerImage (vpn - handlerVpn) (by omega)
    rw [childElsewhere.tables_eq, ← Option.some.inj found, frameOf, Nat.mod_mod_of_dvd _ (by decide)]
    exact ⟨created.used (grown used), fun isTable => unused _ isTable used⟩
  · intro vpn user entry found
    rw [elsewhere.pageMap_eq] at found
    exact ready.readable vpn user entry found

omit ready alloc in
theorem child_occupied (path : Route) (pn : Fin 512) (short : path.length ≤ 2) :
    occupied dup childRoot (pn :: path) = onWay (pageKeys handlerVpn 9) (pn :: path) := by
  have elsewhere := child_elsewhere created isDup
  have along := created.along.congr elsewhere.bytes
  refine along.occupied_eq (fun digits member => ?_) short pn
  obtain ⟨vpn, inside, rfl⟩ := List.mem_map.mp member
  obtain ⟨lower, upper⟩ := List.mem_range'_1.mp inside
  have high : handlerVpn + 9 ≤ 2 ^ 27 := by decide
  have frameAt : trapframeVpn = handlerVpn + 8 := by decide
  rw [← pageMap_eq_value, elsewhere.pageMap_eq, created.map vpn (by omega), createdMap]
  split
  · exact Option.some_ne_none _
  · rw [if_pos (by omega)]
    exact Option.some_ne_none _

/-- The child has the entries on the way to the handler and the trapframe. -/
theorem Forkable.requests_eq : requests dup (occupied dup childRoot) 2 [] root =
      requests manager.kernel.memory (onWay (pageKeys handlerVpn 9)) 2 [] root := by
  refine @requests_congr manager.kernel.memory _ _ _ root 2 root [] rfl rfl (fun short reached =>
    cells_congr (ready.kept alloc created isDup ?_)) (child_occupied created isDup)
  exact ready.has.laid.backed.used ⟨_, short, reached⟩

end

end

def SameSbrk (root kstack otherRoot otherKstack : Nat) (space other : ProcSpace) (vm : Vmem Kmem) : Prop :=
  ∀ calls, (SbrkRun root kstack space vm calls → SbrkReturns otherRoot otherKstack calls other vm) ∧
    (SbrkRun otherRoot otherKstack other vm calls → SbrkReturns root kstack calls space vm)

/-- The process `q` has the user-visible state of its parent `p`; the call returned `pid`. -/
structure Duplicate (p q root kstack : Nat) (pid : UInt32) (before after : ProcManager) : Prop where
  heapVaddr : (after.records q).heapVaddr = (before.records p).heapVaddr
  stackVaddr : (after.records q).stackVaddr = (before.records p).stackVaddr
  programBreak : (after.records q).programBreak = (before.records p).programBreak
  registers : ∀ index < trapframeWords, 8 * index ≠ trapframeA0 → 8 * index ≠ trapframeKernelSp →
    after.register q index = before.register p index
  a0 : after.kernel.memory.load64 ((after.records q).trapframe + trapframeA0) = 0
  kernelSp : after.kernel.memory.load64 ((after.records q).trapframe + trapframeKernelSp) =
    ulong ((after.records q).kstackVaddr + pageSize)
  parent : (after.records q).parent = p
  state : (after.records q).state = .runnable
  returned : pid = (after.records q).pid
  ownSpace : ∃ childRoot childKstack, (after.records q).pgtbl = frameVa childRoot ∧
    (after.records q).kstackVaddr = frameVa childKstack ∧
    childKstack ∈ inUse after.kernel.vm.pages \ inUse before.kernel.vm.pages ∧
    SameSbrk root kstack childRoot childKstack (after.records p).toProcSpace (after.records q).toProcSpace
      after.kernel.vm

def forkedRecord (image : KernelImage) (p rootProc : Nat) (pid : UInt32) (space : ProcSpace)
    (stale parent : ProcStruct) : ProcStruct :=
  { newRecord image.utrapReturn rootProc pid stale space with
    parent := p, stackVaddr := parent.stackVaddr, heapVaddr := parent.heapVaddr, state := .runnable }

section
variable {image : KernelImage} {hart p q root kstack trap : Nat} {heap : HeapState} {manager : ProcManager}
  {objects : ObjectHeap Kmem} {space : ProcSpace} {vm final : Vmem Kmem}

theorem procFork_steps
    (alloc : kmemObjectAlloc hart manager.procObjectManager manager.kernel.heap = .ok (q, objects))
    (notNull : q ≠ 0) (different : p ≠ q) (fits : manager.pidCounter + 1 ≠ noPid)
    (create : procCreateSpace image.userHandlerPa (manager.records q).programBreak
      ⟨manager.kernel.memory, objects.kmem⟩ = .ok (space, vm))
    (pgtbl : (manager.records p).pgtbl = frameVa root) (trapframe : (manager.records p).trapframe = frameVa trap)
    (copy : vmUvmcpy (frameVa root) space.pgtbl false
      ⟨dupTrapframe vm.memory space.trapframe (frameVa trap), vm.pages⟩ = .ok final) :
    ∃ after, manager.procFork hart image p = .ok (manager.pidCounter + 1, after) ∧
      after.procList = q :: manager.procList ∧ after.kernel.vm = final ∧
      after.records p = manager.records p ∧ after.records q = forkedRecord image p manager.rootProc
        (manager.pidCounter + 1) space (manager.records q) (manager.records p) := by
  obtain ⟨enrolled, enrolledEq⟩ : ∃ enrolled, enrolled = manager.enroll image q objects space vm := ⟨_, rfl⟩
  have child := @enroll_record q image manager objects space vm
  rw [← enrolledEq] at child
  have parent : enrolled.records p = manager.records p := by
    rw [enrolledEq]
    exact Function.update_of_ne different _ _
  have list : enrolled.procList = q :: manager.procList := by rw [enrolledEq]; rfl
  have memory : enrolled.kernel.memory = vm.memory := by rw [enrolledEq]; rfl
  have pages : enrolled.kernel.heap.kmem = vm.pages := by rw [enrolledEq]; rfl
  have found : enrolled.procLockAndFind (manager.pidCounter + 1) = some q := by
    rw [procLockAndFind, list, List.find?_cons_of_pos]
    rw [child]
    exact beq_self_eq_true _
  refine ⟨(enrolled.setRecord q (forkedRecord image p manager.rootProc (manager.pidCounter + 1) space
    (manager.records q) (manager.records p))).withVm final, ?_, list, rfl, ?_, ?_⟩
  · rw [procFork, procCreate_returns alloc notNull create, ← enrolledEq, Result.ok_bind]
    dsimp only
    rw [if_neg fits, found]
    dsimp only
    rw [child, parent, memory, pages, pgtbl, trapframe]
    rw [dupTrapframe] at copy
    exact congrArg (fun copied => copied >>= _) copy
  · exact (Function.update_of_ne different _ _).trans parent
  · exact Function.update_self ..

/-- The pages that `proc_fork` asks for are granted: five of a new process, then those of the copy. -/
def Served (root : Nat) (memory : Memory) (pages : Kmem) : Prop :=
  Serves (Blank memory) 5 (requests memory (onWay (pageKeys handlerVpn 9)) 2 [] root) pages

theorem Forkable.forks (ready : Forkable image p root kstack heap manager)
    (alloc : kmemObjectAlloc hart manager.procObjectManager manager.kernel.heap = .ok (q, objects))
    (notNull : q ≠ 0) (fits : manager.pidCounter + 1 ≠ noPid)
    (create : procCreateSpace image.userHandlerPa (manager.records q).programBreak
      ⟨manager.kernel.memory, objects.kmem⟩ = .ok (space, vm))
    (served : Served root manager.kernel.memory objects.kmem) :
    ∃ after, manager.procFork hart image p = .ok (manager.pidCounter + 1, after) ∧
      after.procList = q :: manager.procList ∧
      (after.records q).programBreak = (manager.records q).programBreak ∧
      ((manager.records q).programBreak = (manager.records p).programBreak →
        Duplicate p q root kstack (manager.pidCounter + 1) manager after) := by
  obtain ⟨sound, _, grown⟩ := ready.record_pages alloc
  obtain ⟨address, _, has, _⟩ := id ready.live
  have different : p ≠ q := (ready.sound.alloc_unused has.1 alloc ready.live).symm
  have granted := create_granted_of_returned sound image.bounded create
  obtain ⟨childRoot, childKstack, frame, rfl, created⟩ := @create_created Kmem _ _ _ _
    ⟨manager.kernel.memory, objects.kmem⟩ _ _ sound image.bounded granted create
  obtain ⟨_, _, _, _, _, _, _, _, creation⟩ := granted
  cases (creation.returns _).symm.trans create
  obtain ⟨entry, trapMapped, trapAt⟩ := ready.trapframe
  have trapUsed : frameOf entry ∈ inUse manager.kernel.vm.pages :=
    ready.has.laid.mineUsed (ready.has.laid.frames trapframeVpn (.inl rfl) entry trapMapped).1.1
  have left := creation.draws sound image.bounded served
  rw [← @Forkable.requests_eq image hart p q root kstack childRoot childKstack frame (frameOf entry) heap
    manager objects vm ready alloc created _ rfl] at left
  obtain ⟨final, copy, copied, parentHas, childLaid⟩ := (ready.forking alloc created rfl).copied
    (fun _ blank unused => child_blank created rfl blank unused) left
  obtain ⟨after, run, list, sameVm, sameParent, child⟩ :=
    procFork_steps alloc notNull different fits create ready.has.pgtbl trapAt copy
  refine ⟨after, run, list, by rw [child]; rfl, fun sameBreak => ?_⟩
  have kept : ∀ place, place + 8 ≤ 4096 → final.memory.load64 (frameVa frame + place) =
      (dupTrapframe vm.memory (frameVa frame) (frameVa (frameOf entry))).load64 (frameVa frame + place) :=
    fun place inside => trapframe_kept created rfl copied inside
  have memory : after.kernel.memory = final.memory := congrArg Vmem.memory sameVm
  have childHas : HasHeap childRoot childKstack heap (after.records q).toProcSpace final := by
    rw [child]
    exact ⟨childLaid.own, rfl, ready.has.heapVaddr, sameBreak.trans ready.has.programBreak, ready.has.low,
      ready.has.high⟩
  have ownKstack := created.laid.kstackMine.1
  refine ⟨by rw [child]; rfl, by rw [child]; rfl, by rw [child]; exact sameBreak, ?_, ?_, ?_, by rw [child]; rfl,
    by rw [child]; rfl, by rw [child]; rfl, childRoot, childKstack, by rw [child]; rfl, by rw [child]; rfl, ?_, ?_⟩
  · intro index inside notA0 notKernelSp
    have bound : 8 * index + 8 ≤ 4096 := by
      unfold trapframeWords at inside
      omega
    rw [register, register, memory, child, trapAt]
    refine (kept (8 * index) bound).trans ?_
    rw [dupTrapframe_word inside notA0 notKernelSp]
    refine Memory.load64_congr fun offset small => ?_
    rw [Nat.add_assoc]
    refine created.untouched _ ?_ _ (by omega)
    exact fun new => new.2.resolve_left (Set.notMem_empty _) (grown trapUsed)
  · rw [memory, child]
    exact (kept trapframeA0 (by decide)).trans dupTrapframe_a0
  · rw [memory, child]
    exact (kept trapframeKernelSp (by decide)).trans (dupTrapframe_kernelSp.trans created.kernelSp)
  · rw [sameVm]
    exact ⟨childLaid.mineUsed childLaid.kstackMine.1,
      fun old => ownKstack.2.resolve_left (Set.notMem_empty _) (grown old)⟩
  · intro calls
    rw [sameVm, sameParent]
    exact ⟨parentHas.same_returns childHas, childHas.same_returns parentHas⟩

theorem procFork_returned {pid : UInt32} {after : ProcManager}
    (run : manager.procFork hart image p = .ok (pid, after)) (success : pid ≠ noPid) :
    ∃ q objects, kmemObjectAlloc hart manager.procObjectManager manager.kernel.heap = .ok (q, objects) ∧
      q ≠ 0 ∧ manager.pidCounter + 1 ≠ noPid ∧
      ∃ space vm, procCreateSpace image.userHandlerPa (manager.records q).programBreak
        ⟨manager.kernel.memory, objects.kmem⟩ = .ok (space, vm) := by
  obtain ⟨⟨dupPid, created⟩, create, run⟩ := Result.bind_ok run
  obtain ⟨⟨q, objects⟩, alloc, create⟩ := Result.bind_ok create
  dsimp only at run create
  split at run
  · cases run
    exact absurd rfl success
  next notFailed =>
    split at create
    · cases create
      exact absurd rfl notFailed
    next notNull =>
      obtain ⟨⟨space, vm⟩, made, create⟩ := Result.bind_ok create
      cases create
      exact ⟨q, objects, alloc, notNull, notFailed, space, vm, made⟩

/-- Where every page that the call asks for is granted, and those that become tables are blank as they
are handed out, the child is a duplicate of its parent exactly if the record that it gets holds the
break of the parent. -/
theorem procFork_duplicates_iff {pid : UInt32} {after : ProcManager}
    (ready : Forkable image p root kstack heap manager)
    (served : ∀ q objects, kmemObjectAlloc hart manager.procObjectManager manager.kernel.heap = .ok (q, objects) →
        Served root manager.kernel.memory objects.kmem)
    (run : manager.procFork hart image p = .ok (pid, after)) (success : pid ≠ noPid) :
    (∃ q, after.procList = q :: manager.procList ∧ Duplicate p q root kstack pid manager after) ↔
      ∀ q objects, kmemObjectAlloc hart manager.procObjectManager manager.kernel.heap = .ok (q, objects) →
        (manager.records q).programBreak = (manager.records p).programBreak := by
  obtain ⟨q, objects, alloc, notNull, fits, _, _, create⟩ := procFork_returned run success
  obtain ⟨_, returned, list, stale, duplicate⟩ := ready.forks alloc notNull fits create (served q objects alloc)
  cases returned.symm.trans run
  constructor
  · rintro ⟨child, childList, isDuplicate⟩ other others otherAlloc
    cases otherAlloc.symm.trans alloc
    cases (List.cons.inj (childList.symm.trans list)).1
    exact stale.symm.trans isDuplicate.programBreak
  · intro sameBreak
    exact ⟨q, list, duplicate (sameBreak q objects alloc)⟩

end

/-! ## A parent with one page

On a board with 128 pages: a new process after its first `sbrk`, up to the end of its first page.
-/

structure Paged (userHandlerPa root kstack frame page : Nat) (start vm : Vmem Kmem) : Prop where
  laid : LaidPages root kstack { vpn | heapVpn ≤ vpn ∧ vpn < heapVpn + 2 ^ 0 } (ownFrames root kstack vm) vm
  map : ∀ vpn < 2 ^ 27, pageMap (frameVa root) vm vpn =
    if heapVpn ≤ vpn ∧ vpn < heapVpn + 2 ^ 0 then
      some (page + (vpn - heapVpn), pteFlagV ||| (pteFlagR ||| pteFlagW ||| pteFlagU))
    else createdMap userHandlerPa frame vpn
  along : Along (pageKeys handlerVpn 9 ++ pageKeys heapVpn 1) root vm
  bounded : frame < 2 ^ 26
  sameManaged : managed vm.pages = managed start.pages
  used : inUse start.pages ⊆ inUse vm.pages
  untouched : ∀ other ∉ inUse vm.pages, SameBytes vm.memory start.memory other other

section
variable {userHandlerPa root kstack frame spare : Nat} {start vm : Vmem Kmem}

theorem paged_of_created (created : Created userHandlerPa root kstack frame start vm)
    (grants : Grants (3 + spare) vm.pages) :
    ∃ page final, Paged userHandlerPa root kstack frame page start final ∧ Grants spare final.pages := by
  obtain ⟨page, pages, alloc, rest⟩ := (grants.mono (show 2 * 1 + spare + 1 ≤ 3 + spare by omega)).next
  obtain ⟨first, same, sound, sameManaged, frames, used⟩ :=
    alloc_frames created.laid.backed.sound alloc (frameVa_ne_zero page)
  obtain rfl := frameVa_injective same
  have backed := created.laid.backed.allocated alloc
  have bounded := (frames page (Nat.le_refl _) (by omega)).1
  have empty : ∀ vpn, heapVpn ≤ vpn → vpn < heapVpn + 1 →
      pageMap (frameVa root) ({ vm with pages } : Vmem Kmem) vpn = none := by
    intro vpn lower upper
    obtain rfl : vpn = heapVpn := by omega
    rw [pageMap_pages, created.map heapVpn (by decide), createdMap, if_neg (by decide), if_neg (by decide)]
  obtain ⟨final, mapRun, left⟩ := @Backed.mapFrom_returns _ _ _ _ _ (pteFlagR ||| pteFlagW ||| pteFlagU) 1
    heapVpn (page * 4096) spare backed (by decide) (by omega) (by decide) empty rest
  have run : vmMappages (frameVa root) (heapVpn * pageSize) (pmaVa2Pa (frameVa page)) (2 ^ 0 * pageSize)
      (pteFlagR ||| pteFlagW ||| pteFlagU) { vm with pages } = .ok (0, final) := by
    rw [vmMappages_eq (by decide) (by decide), pmaVa2Pa_frameVa bounded]
    exact mapRun
  have below : heapVpn + 2 ^ 0 ≤ handlerVpn := by decide
  obtain ⟨within, map⟩ := created.laid.map_frames sound frames used (by decide) below run
  have laid := created.laid.extend sound sameManaged frames used (by decide) below run (by decide)
    (fun _ _ _ => Set.notMem_empty _)
  rw [Set.empty_union] at laid
  have pagesUsed : inUse vm.pages ⊆ inUse final.pages := by
    rw [within.claimed]
    exact fun other old => .inl (by
      rw [used]
      exact .inl old)
  refine ⟨page, final, ⟨laid.own, fun vpn small => ?_, ?_, created.bounded, ?_, created.used.trans pagesUsed, ?_⟩,
    left⟩
  · rw [map vpn small, created.map vpn small]
  · have along : Along (pageKeys handlerVpn 9 ++ pageKeys heapVpn 1) root ({ vm with pages } : Vmem Kmem) :=
      created.along.mono (List.subset_append_left _ _)
    exact along.mapFrom backed (by decide) (by omega) (by decide)
      (fun other lower upper => List.mem_append_right _ (mem_pageKeys lower upper)) mapRun
  · exact (within.sameManaged.trans sameManaged).trans created.sameManaged
  · intro other unused offset inside
    have notTable : other ∉ tables root final := fun isTable => unused (within.backed.used isTable)
    refine (within.outside notTable inside).trans (created.untouched other ?_ offset inside)
    exact fun new => unused (pagesUsed new.1)

theorem Paged.requests_few {page : Nat} (paged : Paged userHandlerPa root kstack frame page start vm) :
    (requests vm.memory (onWay (pageKeys handlerVpn 9)) 2 [] root).length ≤ 4 := by
  refine @requests_length_le _ _ _ (key (heapVpn * pageSize)) fun path table pn short reached valid unmet => ?_
  rcases paged.along path table pn short reached with zero | ⟨_, _, member, toward⟩
  · rw [zero] at valid
    exact absurd (Nat.zero_and _) valid
  rcases List.mem_append.mp member with handler | heap
  · rw [onWay_iff.mpr ⟨_, handler, toward⟩] at unmet
    cases unmet
  · rwa [List.mem_singleton.mp heap] at toward

theorem nodeFrames_end {kmem : Kmem} {first count : Nat} (some : 0 < count)
    (frames : nodeFrames kmem = { frame | first ≤ frame ∧ frame < first + count }) :
    kmem.beginPpn + kmem.numPpn ≤ first + count := by
  have start : first ∈ nodeFrames kmem := by
    rw [frames]
    exact ⟨Nat.le_refl _, by omega⟩
  obtain ⟨lower, upper⟩ : kmem.beginPpn ≤ first ∧ first < kmem.beginPpn + kmem.numPpn := start
  have last : kmem.beginPpn + kmem.numPpn - 1 ∈ nodeFrames kmem := by
    constructor
    · omega
    · omega
  rw [frames] at last
  obtain ⟨_, below⟩ := last
  omega

end

def parentRecord (space : ProcSpace) : ProcStruct :=
  { space with
    pid := 1
    state := .running
    killed := false
    exitState := 0
    sleepingChan := 0
    parent := 0
    context := ⟨0, 0, fun _ => 0⟩ }

def forkingManager (objects : ObjectHeap Kmem) (vm : Vmem Kmem) (objectManager p : Nat) (space : ProcSpace)
    (stale : Nat) : ProcManager where
  kernel := ⟨{ objects with kmem := vm.pages }, vm.memory⟩
  records := Function.update (fun _ => deadRecord stale) p (parentRecord space)
  procList := [p]
  pidCounter := 1
  rootProc := p
  procObjectManager := objectManager

section
variable {objects heap : ObjectHeap Kmem} {objectManager p root kstack frame page count left : Nat}
  {memory : Memory} {vm : Vmem Kmem} (board : RecordBoard count left heap objects objectManager p)
  (paged : Paged boardImage.userHandlerPa root kstack frame page ⟨memory, objects.kmem⟩ vm)
include board paged

theorem Paged.outside_used (small : count ≤ 128) (above : 0x80080 ≤ other) : other ∈ inUse vm.pages := by
  intro member
  rw [show nodeFrames vm.pages = nodeFrames objects.kmem from paged.sameManaged, board.frames] at member
  have := member.2
  omega

theorem Paged.heapSound (positive : 0 < count) (small : count ≤ 128) :
    HeapSound { objects with kmem := vm.pages } := by
  have frames := board.frames
  rw [← show nodeFrames vm.pages = nodeFrames objects.kmem from paged.sameManaged] at frames
  have ends := nodeFrames_end positive frames
  have power : 2 ^ maxMemOrder = 2048 := by decide
  refine board.recordedSound.set_kmem ⟨paged.laid.backed.sound, by omega⟩ fun manager address has => ?_
  intro place inside
  obtain ⟨other, used, member⟩ := board.recordedSound.pages has inside
  exact ⟨other, paged.used used, member⟩

theorem Paged.handler_used (small : count ≤ 128) (lower : handlerVpn ≤ vpn)
    (upper : vpn < trapframeVpn) {entry : Nat × Nat} (found : pageMap (frameVa root) vm vpn = some entry) :
    frameOf entry ∈ inUse vm.pages := by
  have high : trapframeVpn < 2 ^ 27 := by decide
  have frameAt : trapframeVpn = handlerVpn + 8 := by decide
  have low : heapVpn + 1 ≤ handlerVpn := by decide
  rw [paged.map vpn (by omega), if_neg (by omega), createdMap, if_neg (by omega), if_pos (by omega)] at found
  rw [← Option.some.inj found, frameOf]
  refine paged.outside_used board small ?_
  rw [Nat.mod_mod_of_dvd _ (by decide), show boardImage.userHandlerPa / 4096 = 0x80200 by decide]
  omega

def parentSpace (root kstack frame : Nat) : ProcSpace where
  kstackVaddr := frameVa kstack
  stackVaddr := vaUserUserHandlerBegin
  heapVaddr := 0x201000
  programBreak := 0x201000
  pgtbl := frameVa root
  trapframe := frameVa frame

theorem Paged.forkable (positive : 0 < count) (small : count ≤ 128) (stale : Nat) :
    Forkable boardImage p root kstack ⟨{ vpn | heapVpn ≤ vpn ∧ vpn < heapVpn + 2 ^ 0 }, heapVpn + 1, 0x201000⟩
      (forkingManager objects vm objectManager p (parentSpace root kstack frame) stale) := by
  have record : (forkingManager objects vm objectManager p (parentSpace root kstack frame) stale).records p =
      parentRecord (parentSpace root kstack frame) := by
    rw [forkingManager]
    dsimp only
    rw [Function.update_self]
  have trapframe : pageMap (frameVa root) vm trapframeVpn = some (frame, pteFlagV ||| (pteFlagR ||| pteFlagW)) :=
    (paged.map trapframeVpn (by decide)).trans (if_neg (by decide))
  refine ⟨paged.heapSound board positive small, board.live, by rw [record]; rfl, ?_, ?_,
    fun vpn lower upper entry found => paged.handler_used board small lower upper found, ?_, ?_⟩
  · rw [record]
    exact ⟨paged.laid, rfl, show 0x201000 = (heapVpn + 1) * pageSize by decide, rfl, Nat.le_succ _, by decide⟩
  · rw [record]
    refine ⟨_, trapframe, ?_⟩
    rw [frameOf, Nat.mod_eq_of_lt paged.bounded]
    rfl
  · intro offset inside
    refine paged.outside_used board small ?_
    rw [show boardImage.userHandlerPa / 4096 = 0x80200 by decide]
    omega
  · intro vpn user entry found
    have inside : heapVpn ≤ vpn ∧ vpn < heapVpn + 2 ^ 0 := user
    have top : heapVpn + 1 ≤ 2 ^ 27 := by decide
    have mapped := (paged.map vpn (by omega)).trans (if_pos inside)
    rw [← Option.some.inj (mapped.symm.trans found)]
    show (pteFlagV ||| (pteFlagR ||| pteFlagW ||| pteFlagU)) &&& (pteFlagR ||| pteFlagX) ≠ 0
    decide

end

/-- A parent on a board with 128 pages, and what its `fork` finds: a slot in which `stale` lies. -/
theorem forking_board (stale : Nat) : ∃ manager p q root kstack heap objects space vm,
    Forkable boardImage p root kstack heap manager ∧
    kmemObjectAlloc 1 manager.procObjectManager manager.kernel.heap = .ok (q, objects) ∧ q ≠ 0 ∧
    manager.pidCounter + 1 ≠ noPid ∧
    procCreateSpace boardImage.userHandlerPa (manager.records q).programBreak
      ⟨manager.kernel.memory, objects.kmem⟩ = .ok (space, vm) ∧
    Served root manager.kernel.memory objects.kmem ∧
    (manager.records q).programBreak = stale ∧ (manager.records p).programBreak = 0x201000 := by
  obtain ⟨heap, objects, objectManager, p, board⟩ := @record_board 128 75 (by decide) (by decide +kernel)
  have sound : Sound objects.kmem := board.recordedSound.sound.1
  obtain ⟨granted, space, vm, create, _, left⟩ := @create_granted Kmem _ _ boardImage.userHandlerPa 54
    ⟨fun _ => 0, objects.kmem⟩ sound boardImage.bounded board.grants 0
  obtain ⟨root, kstack, frame, _, created⟩ := @create_created Kmem _ _ _ _ ⟨fun _ => 0, objects.kmem⟩ _ _ sound
    boardImage.bounded granted create
  obtain ⟨page, final, paged, enough⟩ := @paged_of_created _ _ _ _ 51 _ _ created left
  have ready := paged.forkable board (by decide) (Nat.le_refl 128) stale
  obtain ⟨address, _, has, _⟩ := id ready.live
  obtain ⟨q, after, alloc, _, _, _⟩ := @kmemObjectAlloc_spec _ _ _ 1 _ _ ready.sound has.1 ⟨1, 1⟩ (by
    show spinlockAcquire 1 (objects.managers objectManager).lock = _
    rw [board.unlocked]
    rfl)
  obtain ⟨notNull, samePages⟩ := @kmemObjectAlloc_slot _ _ { objects with kmem := final.pages } _ _ _ _ board.slot
    alloc
  have different := ready.sound.alloc_unused has.1 alloc ready.live
  obtain ⟨_, childSpace, childVm, childCreate, _⟩ := @create_granted Kmem _ _ boardImage.userHandlerPa 30
    ⟨final.memory, final.pages⟩ paged.laid.backed.sound boardImage.bounded enough stale
  refine ⟨_, p, q, root, kstack, _, after, childSpace, childVm, ready, alloc, notNull,
    show (1 : UInt32) + 1 ≠ noPid by decide, ?_, ?_, ?_, ?_⟩
  · rw [samePages, forkingManager]
    dsimp only
    rw [Function.update_of_ne different]
    exact childCreate
  · rw [samePages]
    refine enough.serves ?_ paged.laid.backed.sound fun other unused offset _ inside =>
      paged.untouched other unused offset inside
    exact (Nat.add_le_add_right paged.requests_few 5).trans (by decide)
  · rw [forkingManager]
    dsimp only
    rw [Function.update_of_ne different]
    rfl
  · rw [forkingManager]
    dsimp only
    rw [Function.update_self]
    rfl

theorem procFork_duplicates_iff_same_break : ∃ (manager after : ProcManager) (p root kstack : Nat),
    manager.procFork 1 boardImage p = .ok (manager.pidCounter + 1, after) ∧
      ∃ q, after.procList = q :: manager.procList ∧
        Duplicate p q root kstack (manager.pidCounter + 1) manager after := by
  obtain ⟨manager, p, q, root, kstack, heap, objects, _, _, ready, alloc, notNull, fits, create, served, stale,
    break_eq⟩ := forking_board 0x201000
  obtain ⟨after, run, _⟩ := ready.forks alloc notNull fits create served
  refine ⟨manager, after, p, root, kstack, run, (procFork_duplicates_iff ready ?_ run fits).mpr ?_⟩
  · intro other others again
    cases again.symm.trans alloc
    exact served
  · intro other others again
    cases again.symm.trans alloc
    exact stale.trans break_eq.symm

/-- The child of a process whose break is at the end of its first page starts with the break 0 of
a blank record. -/
theorem procFork_forgets_break : ∃ (manager after : ProcManager) (p q root kstack : Nat) (heap : HeapState),
    Forkable boardImage p root kstack heap manager ∧
      manager.procFork 1 boardImage p = .ok (manager.pidCounter + 1, after) ∧
      manager.pidCounter + 1 ≠ noPid ∧ after.procList = q :: manager.procList ∧
      (manager.records p).programBreak = 0x201000 ∧ (after.records q).programBreak = 0 ∧
      ¬ Duplicate p q root kstack (manager.pidCounter + 1) manager after := by
  obtain ⟨manager, p, q, root, kstack, heap, objects, _, _, ready, alloc, notNull, fits, create, served, stale,
    break_eq⟩ := forking_board 0
  obtain ⟨after, run, list, kept, _⟩ := ready.forks alloc notNull fits create served
  have childBreak := kept.trans stale
  refine ⟨manager, after, p, q, root, kstack, heap, ready, run, fits, list, break_eq, childBreak, ?_⟩
  intro duplicate
  have equal := duplicate.programBreak
  rw [childBreak, break_eq] at equal
  exact absurd equal (by decide)

end ProcManager

end Kalorona.Proc
