import Kalorona.Memory.ObjectRuns
import Kalorona.Memory.TableEntries
import Kalorona.Proc.LayoutRuns

namespace Kalorona.Proc

open Kalorona.Data Kalorona.Utilities Kalorona.Memory

/-! # What is left of a process

A process is created with a record from the object allocator, extended, and
reaped.  Its tables are not given back.
-/

theorem walkFrom_found {σ : Type} [PageAllocator σ] {root table bottom va lv : Nat} {alloc : Bool}
    {vm : Vmem σ} (level : lv ≤ 2) (reached : sv39.follow (cells vm.memory) root (tablePath lv va) = some table)
    (found : sv39.follow (cells vm.memory) root (tablePath 0 va) = some bottom) :
    walkFrom va alloc lv (frameVa table) vm = .ok (entryAddr (frameVa bottom) (digit 0 va), vm) := by
  induction lv generalizing table with
  | zero =>
    cases reached.symm.trans found
    rfl
  | succ lv ih =>
    have next := follow_tablePath (by omega) reached
    simp only [walkFrom]
    split
    next valid =>
      rw [pmaPa2Va_ptePa]
      exact ih (by omega) (next.trans (if_pos valid))
    next invalid =>
      rw [follow_bottom_none (by omega) (next.trans (if_neg invalid))] at found
      cases found

variable {vpn userHandlerPa hart manager : Nat}

theorem walk_null_unmapped {σ : Type} [PageAllocator σ] {root : Nat} {vm after : Vmem σ}
    (walk : vmWalk (frameVa root) (vpn * pageSize) true vm = .ok (0, after)) :
    pageMap (frameVa root) vm vpn = none := by
  cases mapped : pageMap (frameVa root) vm vpn with
  | none => rfl
  | some entry =>
    obtain ⟨bottom, found, _⟩ := pageMap_some mapped
    have reached : vmWalk (frameVa root) (vpn * pageSize) true vm = .ok (_, vm) :=
      walkFrom_found (Nat.le_refl 2) rfl found
    have null := (Prod.mk.inj (Except.ok.inj (walk.symm.trans reached))).1
    exact absurd null.symm (entryAddr_ne_zero _ _)

def Exhausted (kmem : Kmem) : Prop := kmemAllocPages 0 kmem = .ok (0, kmem)

section
variable {root : Nat} {vm after : Vmem Kmem}

theorem walkFrom_exhausted {table va lv : Nat} (sound : BuddySound vm.pages)
    (run : walkFrom va true lv (frameVa table) vm = .ok (0, after)) : Exhausted after.pages := by
  induction lv generalizing table vm with
  | zero => exact absurd (Prod.mk.inj (Except.ok.inj run)).1 (entryAddr_ne_zero _ _)
  | succ lv ih =>
    simp only [walkFrom] at run
    split at run
    · rw [pmaPa2Va_ptePa] at run
      exact ih sound run
    · simp only [Bool.not_true, Bool.false_eq_true, if_false] at run
      obtain ⟨⟨fresh, pages⟩, alloc, run⟩ := Result.bind_ok run
      have alloc : kmemAllocPages 0 vm.pages = .ok (fresh, pages) := alloc
      dsimp only at run
      split at run
      next null =>
        cases run
        subst null
        obtain rfl := sound.refused alloc
        exact alloc
      next notNull =>
        obtain ⟨afterSound, _, null | ⟨frame, rfl, _⟩⟩ := sound.allocPages alloc
        · exact absurd null.1 notNull
        · exact ih afterSound run

theorem mapFrom_found {flags count pa bottom : Nat} {code : Int} {path : Route}
    (backed : Backed root vm) (flagsSmall : flags < 1024) (paBound : pa < 2 ^ 64)
    (range : vpn + count ≤ 2 ^ 27) (short : path.length ≤ 2)
    (found : sv39.follow (cells vm.memory) root path = some bottom)
    (inside : ∀ other, vpn ≤ other → other < vpn + count → tablePath 0 (other * pageSize) = path)
    (run : mapFrom (frameVa root) flags count (vpn * pageSize) pa vm = .ok (code, after)) :
    code = 0 ∧ after.pages = vm.pages := by
  induction count generalizing vpn pa vm with
  | zero =>
    cases run
    exact ⟨rfl, rfl⟩
  | succ count ih =>
    have here := found
    rw [← inside vpn (Nat.le_refl _) (by omega)] at here
    have walk : vmWalk (frameVa root) (vpn * pageSize) true vm = .ok (_, vm) :=
      walkFrom_found (Nat.le_refl 2) rfl here
    obtain ⟨_, _, again, _, _, ⟨null, _⟩ | ⟨_, _, within, _, rest⟩⟩ :=
      backed.mapFrom_round flagsSmall paBound (by omega) run
    · cases walk.symm.trans again
      exact absurd null (entryAddr_ne_zero _ _)
    cases walk.symm.trans again
    have later := ih within.backed (ulong_lt _) (by omega) (within.follows short found)
      (fun other lower upper => inside other (by omega) (by omega)) rest
    exact later

theorem Building.maps {kstack frame : Nat} {code : Int} {handler : Vmem Kmem}
    {rootPages kstackPages framePages : Kmem}
    (building : Building userHandlerPa root kstack frame vm handler rootPages kstackPages framePages)
    (run : vmMappages (frameVa root) vaUserTrapframeBegin (pmaVa2Pa (frameVa frame)) trapframeSize
      (pteFlagR ||| pteFlagW)
      ⟨trapframeInit handler.memory (frameVa frame) vaUserUserHandlerBegin (frameVa kstack), framePages⟩ =
        .ok (code, after)) : code = 0 ∧ after.pages = framePages := by
  have mapped : pageMap (frameVa root) handler handlerVpn = some _ :=
    ((create_handler building.rootGiven building.bounded building.handlerRun).2.2 handlerVpn (by decide)).trans
      (if_pos (by decide))
  rw [← building.elsewhere.pageMap_eq] at mapped
  obtain ⟨bottom, found, _⟩ := pageMap_some mapped
  rw [show tablePath 0 (handlerVpn * pageSize) = tablePath 0 (trapframeVpn * pageSize) by decide] at found
  have frameBounded := building.frameGiven.bounded
  rw [vmMappages_trapframe, pmaVa2Pa_frameVa frameBounded, show (trapframeSize + 4095) / 4096 = 1 by decide] at run
  exact mapFrom_found (building.elsewhere.backed building.backed building.backed.used) (by decide)
    (by omega) (by decide) (tablePath_length 0 _).le found
    (fun other lower upper => by rw [show other = trapframeVpn by omega]) run

theorem create_granted_of_returned {userHandlerPa programBreak : Nat} {space : ProcSpace}
    (sound : BuddySound vm.pages) (bounded : userHandlerPa < 2 ^ 64)
    (run : procCreateSpace userHandlerPa programBreak vm = .ok (space, after)) :
    CreateGranted userHandlerPa vm := by
  obtain ⟨⟨pgtbl, mapped⟩, made, run⟩ := Result.bind_ok run
  obtain ⟨⟨_, rootPages⟩, rootRun, made⟩ := Result.bind_ok made
  dsimp only at made
  split at made
  · cases made
  next rootNotNull =>
  obtain ⟨⟨code, handler⟩, handlerRun, made⟩ := Result.bind_ok made
  cases made
  obtain ⟨⟨kstack, kstackPages⟩, kstackRun, run⟩ := Result.bind_ok run
  obtain ⟨⟨frame, framePages⟩, frameRun, run⟩ := Result.bind_ok run
  dsimp only at run
  split at run
  · cases run
  next frameNotNull =>
  obtain ⟨⟨mapCode, _⟩, mapRun, run⟩ := Result.bind_ok run
  cases run
  obtain ⟨root, rfl, rootGranted⟩ := granted_frame sound rootRun rootNotNull
  -- once the allocator is out of pages the trapframe is null
  have notExhausted : ¬ Exhausted handler.pages := by
    intro exhausted
    cases exhausted.symm.trans kstackRun
    cases exhausted.symm.trans frameRun
    exact frameNotNull rfl
  have backed := (create_root rootGranted).1
  obtain rfl : code = 0 := by
    by_contra failed
    refine notExhausted ?_
    rw [vmMapUserHandler_eq] at handlerRun
    obtain ⟨_, _, _, _, beforeBacked, walk⟩ :=
      backed.mapFrom_failed (by decide) bounded (by decide) handlerRun failed
    exact walkFrom_exhausted beforeBacked.sound walk
  have handlerSound := (create_handler rootGranted bounded handlerRun).1.backed.sound
  have kstackNotNull : kstack ≠ 0 := by
    rintro rfl
    have same : kstackPages = handler.pages := handlerSound.refused kstackRun
    rw [same] at kstackRun
    exact notExhausted kstackRun
  obtain ⟨kstack, rfl, kstackGranted⟩ := granted_frame handlerSound kstackRun kstackNotNull
  obtain ⟨frame, rfl, frameGranted⟩ := granted_frame kstackGranted.sound frameRun frameNotNull
  obtain ⟨rfl, _⟩ := Building.maps ⟨bounded, rootGranted, handlerRun, kstackGranted, frameGranted⟩ mapRun
  exact ⟨_, _, _, _, _, _, _, _, rootRun, rootNotNull, handlerRun, kstackRun, kstackNotNull, frameRun,
    frameNotNull, mapRun⟩

section
variable {fit : Nat → Prop} {keys : List Route} {n : Nat}

theorem mapFrom_draws {flags count pa : Nat} (backed : Backed root vm)
    (blank : ∀ pn, cells vm.memory root pn = 0) (flagsSmall : flags < 1024) (paBound : pa < 2 ^ 64)
    (range : vpn + (count + 1) ≤ 2 ^ 27) (inside : ∀ other, vpn ≤ other → other < vpn + (count + 1) →
      tablePath 0 (other * pageSize) = tablePath 0 (vpn * pageSize)) (serves : Serves fit (n + 2) keys vm.pages)
    (run : mapFrom (frameVa root) flags (count + 1) (vpn * pageSize) pa vm = .ok (0, after)) :
    Serves fit n keys after.pages := by
  obtain ⟨_, _, walk, _, _, ⟨_, failed, _⟩ | ⟨_, _, writeWithin, _, run⟩⟩ :=
    backed.mapFrom_round flagsSmall paBound (by omega) run
  · exact absurd failed (by decide)
  -- the pages behind the first find its two tables
  obtain ⟨rest, bottom, found⟩ := backed.walkFrom_draws (Nat.le_refl 2) rfl blank serves walk
  obtain ⟨_, samePages⟩ := mapFrom_found writeWithin.backed flagsSmall (ulong_lt _) (by omega)
    (tablePath_length 0 _).le (writeWithin.follows (tablePath_length 0 _).le found)
    (fun other lower upper => inside other (by omega) (by omega)) run
  rw [samePages]
  exact rest

/-- A new process takes five pages: its root, two tables, its kernel stack and its trapframe. -/
theorem Creation.draws {pgtbl kstack trapframe : Nat} {handler : Vmem Kmem}
    {rootPages kstackPages framePages : Kmem}
    (creation : Creation userHandlerPa vm pgtbl kstack trapframe rootPages kstackPages framePages handler after)
    (sound : BuddySound vm.pages) (bounded : userHandlerPa < 2 ^ 64)
    (serves : Serves fit 5 keys vm.pages) : Serves fit 0 keys after.pages := by
  obtain ⟨_, rest⟩ := serves.draw creation.rootRun
  obtain ⟨root, kstack, frame, rfl, rfl, rfl, building⟩ := creation.building sound bounded
  have handlerRun := creation.handlerRun
  rw [vmMapUserHandler_eq, show (vaUserUserHandlerSize + 4095) / 4096 = 7 + 1 by decide] at handlerRun
  have zero := cells_memset_same vm.memory root
  have backed := (create_root building.rootGiven).1
  generalize memset vm.memory (frameVa root) 0 pageSize = memory at zero backed handlerRun
  have together : ∀ other, handlerVpn ≤ other → other < handlerVpn + (7 + 1) →
      tablePath 0 (other * pageSize) = tablePath 0 (handlerVpn * pageSize) := by
    intro other lower upper
    obtain ⟨offset, rfl⟩ := Nat.exists_eq_add_of_le lower
    have eight : ∀ offset : Fin 8, tablePath 0 ((handlerVpn + offset) * pageSize) =
      tablePath 0 (handlerVpn * pageSize) := by decide
    exact eight ⟨offset, by omega⟩
  have rest := mapFrom_draws (n := 2) backed zero (by decide) bounded (by decide) together rest handlerRun
  obtain ⟨_, rest⟩ := rest.draw creation.kstackRun
  obtain ⟨_, rest⟩ := rest.draw creation.frameRun
  rw [(building.maps creation.mapRun).2]
  exact rest

end

end

def blockFrames (heap : ObjectHeap Kmem) : Set Nat :=
  { frame | ∃ manager address, heap.Has manager address ∧ frameVa frame ∈ (heap.blocks address).pages address }

def allocatedFrames (kmem : Kmem) : Set Nat := nodeFrames kmem ∩ usedFrames kmem

structure BlockMade (heap : ObjectHeap Kmem) (block : Nat) (after : ObjectHeap Kmem) : Prop where
  managers : after.managers = heap.managers
  managerList : after.managerList = heap.managerList
  used : usedFrames heap.kmem ⊆ usedFrames after.kmem
  frames : block ≠ 0 → ∀ frame, frameVa frame ∈ (after.blocks block).pages block →
    frame ∈ usedFrames after.kmem
  kept : ∀ address, address ≠ block ∨ block = 0 → after.blocks address = heap.blocks address

section
variable {heap after : ObjectHeap Kmem} {result : Nat}

theorem BlockMade.none (heap : ObjectHeap Kmem) : BlockMade heap 0 heap :=
  ⟨rfl, rfl, subset_rfl, fun notNull => absurd rfl notNull, fun _ _ => rfl⟩

theorem kmemObjectCreateBlock_made {pageOrder objectSize : Nat} (sound : BuddySound heap.kmem)
    (run : kmemObjectCreateBlock manager pageOrder objectSize heap = .ok (result, after)) :
    BlockMade heap result after := by
  unfold kmemObjectCreateBlock at run
  split at run
  · cases run
  obtain ⟨⟨block, kmem⟩, alloc, run⟩ := Result.bind_ok run
  obtain ⟨_, _, outcome⟩ := sound.allocPages alloc
  dsimp only at run
  split at run
  next null =>
    cases run
    rcases outcome with ⟨_, same⟩ | ⟨frame, address, _⟩
    · exact ⟨rfl, rfl, same.ge, fun notNull => absurd rfl notNull, fun _ _ => rfl⟩
    · exact absurd (address.symm.trans null) (frameVa_ne_zero frame)
  next notNull =>
    cases run
    rcases outcome with ⟨null, _⟩ | ⟨first, rfl, _, used⟩
    · exact absurd null notNull
    refine ⟨rfl, rfl, ?_, fun _ frame inside => ?_, fun address other => ?_⟩
    · show usedFrames heap.kmem ⊆ usedFrames kmem
      rw [used]
      exact Set.subset_union_left
    · show frame ∈ usedFrames kmem
      rw [used]
      refine .inr ?_
      simp only [ObjectHeap.setBlock, Function.update_self, ObjectBlock.pages, Set.mem_Ico, frameVa,
        Nat.shiftLeft_eq, Nat.one_mul, pageSize] at inside
      exact ⟨by omega, by omega⟩
    · exact Function.update_of_ne (other.resolve_right notNull) _ _

theorem createSomeBlock_made {unitSize objectSize order : Nat} (sound : BuddySound heap.kmem)
    (run : createSomeBlock manager unitSize objectSize order heap = .ok (result, after)) :
    BlockMade heap result after := by
  induction order generalizing heap with
  | zero =>
    unfold createSomeBlock at run
    split at run
    · exact kmemObjectCreateBlock_made sound run
    · cases run
      exact .none _
  | succ order ih =>
    unfold createSomeBlock at run
    split at run
    · obtain ⟨⟨block, middle⟩, create, run⟩ := Result.bind_ok run
      have first := kmemObjectCreateBlock_made sound create
      dsimp only at run
      split at run
      next null =>
        have second := ih (kmemObjectCreateBlock_shrinks sound create).sound run
        exact ⟨second.managers.trans first.managers, second.managerList.trans first.managerList,
          first.used.trans second.used, second.frames,
          fun address other => (second.kept address other).trans (first.kept address (.inr null))⟩
      next =>
        cases run
        exact first
    · cases run
      exact .none _

/-- The blocks lie on the same pages. -/
structure SameBlocks (heap after : ObjectHeap Kmem) : Prop where
  kmem : after.kmem = heap.kmem
  managerList : after.managerList = heap.managerList
  blocks : ∀ manager, (after.managers manager).blocks = (heap.managers manager).blocks
  pageCount : ∀ address, (after.blocks address).pageCount = (heap.blocks address).pageCount

theorem SameBlocks.blockFrames_eq (same : SameBlocks heap after) : blockFrames after = blockFrames heap := by
  ext frame
  simp only [blockFrames, ObjectHeap.Has, ObjectHeap.known, ObjectBlock.pages, same.managerList,
    same.blocks, same.pageCount]

variable {address : Nat}

theorem setBlock_sameBlocks {block : ObjectBlock}
    (same : block.pageCount = (heap.blocks address).pageCount) : SameBlocks heap (heap.setBlock address block) := by
  refine ⟨rfl, rfl, fun _ => rfl, fun other => ?_⟩
  by_cases here : other = address
  · subst here
    simp [ObjectHeap.setBlock, same]
  · simp [ObjectHeap.setBlock, here]

theorem setManager_sameBlocks {manager : ObjectManager}
    (same : manager.blocks = (heap.managers address).blocks) :
    SameBlocks heap (heap.setManager address manager) := by
  refine ⟨rfl, rfl, fun other => ?_, fun _ => rfl⟩
  by_cases here : other = address
  · subst here
    simp [ObjectHeap.setManager, same]
  · simp [ObjectHeap.setManager, here]

theorem SameBlocks.trans {final : ObjectHeap Kmem} (first : SameBlocks heap after)
    (second : SameBlocks after final) : SameBlocks heap final :=
  ⟨second.kmem.trans first.kmem, second.managerList.trans first.managerList,
    fun manager => (second.blocks manager).trans (first.blocks manager),
    fun address => (second.pageCount address).trans (first.pageCount address)⟩

theorem kmemObjectAllocFromBlock_sameBlocks
    (run : kmemObjectAllocFromBlock address heap = .ok (result, after)) : SameBlocks heap after := by
  unfold kmemObjectAllocFromBlock at run
  dsimp only at run
  split at run <;> cases run
  exact setBlock_sameBlocks rfl

theorem kmemObjectFree_sameBlocks {vaddr : Nat} (run : kmemObjectFree hart vaddr heap = .ok after) :
    SameBlocks heap after := by
  unfold kmemObjectFree at run
  dsimp only at run
  obtain ⟨lock, _, run⟩ := Result.bind_ok run
  split at run
  · cases run
  obtain ⟨_, _, run⟩ := Result.bind_ok run
  cases run
  refine SameBlocks.trans (setBlock_sameBlocks ?_) (setManager_sameBlocks ?_)
  · rfl
  · rfl

theorem kmemObjectAlloc_frames (sound : BuddySound heap.kmem)
    (blocksUsed : blockFrames heap ⊆ usedFrames heap.kmem)
    (run : kmemObjectAlloc hart manager heap = .ok (result, after)) :
    usedFrames heap.kmem ⊆ usedFrames after.kmem ∧ blockFrames after ⊆ usedFrames after.kmem := by
  obtain ⟨lock, _, run⟩ := Result.bind_ok run
  obtain ⟨⟨found, middle⟩, search, run⟩ := Result.bind_ok run
  obtain ⟨unlocked, _, run⟩ := Result.bind_ok run
  cases run
  have last : SameBlocks middle (middle.setManager manager { middle.managers manager with
    lock := unlocked }) := setManager_sameBlocks rfl
  rw [last.blockFrames_eq]
  show usedFrames heap.kmem ⊆ usedFrames middle.kmem ∧ blockFrames middle ⊆ usedFrames middle.kmem
  split at search
  · have same := kmemObjectAllocFromBlock_sameBlocks search
    rw [same.blockFrames_eq, same.kmem]
    exact ⟨subset_rfl, blocksUsed⟩
  obtain ⟨⟨block, created⟩, create, rest⟩ := Result.bind_ok search
  have made := createSomeBlock_made sound create
  dsimp only at rest
  split at rest
  next null =>
    cases rest
    refine ⟨made.used, ?_⟩
    rintro frame ⟨other, address, ⟨known, inBlocks⟩, inside⟩
    rw [made.managers] at inBlocks
    rw [made.kept address (.inr null)] at inside
    rw [ObjectHeap.known, made.managerList] at known
    exact made.used (blocksUsed ⟨other, address, ⟨known, inBlocks⟩, inside⟩)
  next notNull =>
    have same := kmemObjectAllocFromBlock_sameBlocks rest
    rw [same.blockFrames_eq, same.kmem]
    refine ⟨made.used, ?_⟩
    rintro frame ⟨other, address, ⟨known, inBlocks⟩, inside⟩
    by_cases new : address = block
    · subst new
      exact made.frames notNull frame inside
    · refine made.used (blocksUsed ⟨other, address, ⟨?_, ?_⟩, ?_⟩)
      · have listEq : created.managerList = heap.managerList := made.managerList
        rwa [ObjectHeap.known, show (created.setManager manager _).managerList = heap.managerList
          from listEq] at known
      · by_cases here : other = manager
        · subst here
          simpa [ObjectHeap.setManager, new] using inBlocks
        · simpa [ObjectHeap.setManager, here, made.managers] using inBlocks
      · rw [← made.kept address (.inl new)]
        exact inside

end

structure ProcKernel where
  heap : ObjectHeap Kmem
  memory : Memory

def ProcKernel.vm (kernel : ProcKernel) : Vmem Kmem := ⟨kernel.memory, kernel.heap.kmem⟩

def ProcKernel.withVm (kernel : ProcKernel) (vm : Vmem Kmem) : ProcKernel :=
  ⟨{ kernel.heap with kmem := vm.pages }, vm.memory⟩

/-- `proc_create`: the address of the record and what it holds; `none` where there is no record.
`manager` is `proc_manager.proc_object_manager`. -/
def procCreate (hart manager userHandlerPa programBreak : Nat) (kernel : ProcKernel) :
    Result (Option (Nat × ProcSpace) × ProcKernel) := do
  let (p, heap) ← kmemObjectAlloc hart manager kernel.heap
  if p = 0 then return (none, { kernel with heap })
  let (space, vm) ← procCreateSpace userHandlerPa programBreak ⟨kernel.memory, heap.kmem⟩
  return (some (p, space), ProcKernel.withVm { kernel with heap } vm)

def procReapDetached (hart p : Nat) (space : ProcSpace) (kernel : ProcKernel) : Result ProcKernel := do
  let vm ← procReapSpace space kernel.vm
  -- free the proc
  let heap ← kmemFree hart p (kernel.withVm vm).heap
  return { kernel.withVm vm with heap }

/-- A call of `proc_extend_heap` or `proc_extend_stack` that succeeds. -/
inductive ExtendStep : ProcSpace × ProcKernel → ProcSpace × ProcKernel → Prop
  | heap {space moved : ProcSpace} {kernel : ProcKernel} {vm : Vmem Kmem} {pageOrder memFlag ptr : Nat}
      (small : memFlag < 2 ^ 10) (served : HeapServed pageOrder (memFlag ||| pteFlagU) space kernel.vm)
      (run : procExtendHeap pageOrder memFlag space kernel.vm = .ok (ptr, moved, vm)) :
      ExtendStep (space, kernel) (moved, kernel.withVm vm)
  | stack {space moved : ProcSpace} {kernel : ProcKernel} {vm : Vmem Kmem} {pageOrder ptr : Nat}
      (served : StackServed pageOrder space kernel.vm)
      (run : procExtendStack pageOrder space kernel.vm = .ok (ptr, moved, vm)) :
      ExtendStep (space, kernel) (moved, kernel.withVm vm)

def PagesRestored (before after : ProcKernel) : Prop :=
  allocatedFrames after.heap.kmem \ blockFrames after.heap =
    allocatedFrames before.heap.kmem \ blockFrames before.heap

/-- The blocks of objects lie on pages in use. -/
structure KernelSound (kernel : ProcKernel) : Prop where
  buddy : BuddySound kernel.heap.kmem
  blocksUsed : blockFrames kernel.heap ⊆ usedFrames kernel.heap.kmem

section
variable {root kstack : Nat}

def Extended (root kstack : Nat) (heap : ObjectHeap Kmem) (state : ProcSpace × ProcKernel) : Prop :=
  (∃ heapPages stackPages mine, Laid root kstack heapPages stackPages mine state.1 state.2.vm) ∧
    ∃ kmem, state.2.heap = { heap with kmem }

theorem ExtendStep.extended {heap : ObjectHeap Kmem} {before after : ProcSpace × ProcKernel}
    (step : ExtendStep before after) (extended : Extended root kstack heap before) :
    Extended root kstack heap after := by
  obtain ⟨⟨heapPages, stackPages, mine, laid⟩, kmem, sameHeap⟩ := extended
  cases step with
  | heap small served run =>
    exact ⟨⟨_, _, _, laid.extendHeap small served run⟩, _, by rw [ProcKernel.withVm, sameHeap]⟩
  | stack served run =>
    exact ⟨⟨_, _, _, laid.extendStack served run⟩, _, by rw [ProcKernel.withVm, sameHeap]⟩

theorem procCreate_laid {programBreak p : Nat} {space : ProcSpace}
    {before created : ProcKernel} (sound : KernelSound before) (bounded : userHandlerPa < 2 ^ 64)
    (run : procCreate hart manager userHandlerPa programBreak before = .ok (some (p, space), created)) :
    ∃ root kstack heap, Extended root kstack heap (space, created) ∧
      root ∉ usedFrames before.heap.kmem ∧ root ∉ blockFrames heap := by
  obtain ⟨⟨_, heap⟩, alloc, run⟩ := Result.bind_ok run
  dsimp only at run
  split at run
  · cases run
  obtain ⟨⟨_, vm⟩, create, run⟩ := Result.bind_ok run
  cases run
  have buddy : BuddySound heap.kmem := (kmemObjectAlloc_shrinks sound.buddy alloc).sound
  obtain ⟨used, blocks⟩ := kmemObjectAlloc_frames sound.buddy sound.blocksUsed alloc
  have granted := @create_granted_of_returned ⟨before.memory, heap.kmem⟩ _ _ _ _ buddy bounded create
  obtain ⟨root, kstack, laid⟩ := create_laid buddy bounded granted create
  have fresh : root ∉ usedFrames heap.kmem :=
    (laid.pages.tablesMine Radix.root_mem_nodes).2.resolve_left (Set.notMem_empty root)
  exact ⟨root, kstack, heap, ⟨⟨0, 0, _, laid⟩, vm.pages, rfl⟩, fun old => fresh (used old),
    fun inBlock => fresh (blocks inBlock)⟩

end

theorem teardown_leaks {programBreak p : Nat}
    {space moved : ProcSpace} {before created extended after : ProcKernel} (sound : KernelSound before)
    (bounded : userHandlerPa < 2 ^ 64)
    (create : procCreate hart manager userHandlerPa programBreak before = .ok (some (p, space), created))
    (run : Relation.ReflTransGen ExtendStep (space, created) (moved, extended))
    (reaped : procReapDetached hart p moved extended = .ok after) : ¬ PagesRestored before after := by
  intro restored
  obtain ⟨root, kstack, heap, start, notUsed, notBlock⟩ := procCreate_laid sound bounded create
  obtain ⟨⟨_, _, _, laid⟩, kmem, sameHeap⟩ := run_preserves (Extended root kstack heap)
    (fun _ _ kept step => step.extended kept) start run
  obtain ⟨vm, reapRun, backed, sameManaged⟩ := laid.reap
  obtain ⟨_, again, freed⟩ := Result.bind_ok reaped
  cases reapRun.symm.trans again
  obtain ⟨final, free, done⟩ := Result.bind_ok freed
  cases done
  have same := kmemObjectFree_sameBlocks free
  -- the root table is still allocated, in no block, and was not allocated before
  have rootLeft : root ∈ allocatedFrames final.kmem \ blockFrames final := by
    rw [same.blockFrames_eq, same.kmem]
    refine ⟨⟨?_, backed.used Radix.root_mem_nodes⟩, ?_⟩
    · have managed := laid.pages.rootManaged
      rw [← sameManaged] at managed
      exact managed
    · rintro ⟨other, address, has, inside⟩
      rw [ProcKernel.withVm, sameHeap] at has inside
      exact notBlock ⟨other, address, has, inside⟩
  have rootBefore : root ∈ allocatedFrames before.heap.kmem \ blockFrames before.heap := restored ▸ rootLeft
  exact notUsed rootBefore.1.2

/-- `sizeof(struct proc_struct)` -/
def procStructSize : Nat := 208

theorem kernelSound_of_heap {kernel : ProcKernel} (sound : HeapSound kernel.heap) : KernelSound kernel where
  buddy := sound.sound.1
  blocksUsed := by
    rintro frame ⟨manager, address, has, inside⟩
    obtain ⟨other, used, inOther⟩ := sound.pages has inside
    have here : frameVa frame ∈ frameBytes frame := ⟨Nat.le_refl _, Nat.lt_add_of_pos_right (by decide)⟩
    rwa [frameBytes_unique here inOther]

abbrev BootsRecord (count left : Nat) : Prop :=
  ∃ boot, kmemPageManagerInit (smallNode count 0) (fun _ => 0) = .ok boot ∧
    ∃ created, kmemObjectCreateManager 1 procStructSize "proc_struct" (fun _ => 0)
      (kmemObjectInit (emptyHeap boot.1)) = .ok created ∧
      ∃ object, kmemObjectAlloc 1 created.1 created.2 = .ok object ∧ object.1 ≠ 0 ∧
        (object.2.managers created.1).lock = ⟨0, 0⟩ ∧
        (∃ block ∈ (object.2.managers created.1).blocks, (object.2.blocks block).freeSlots ≠ []) ∧
        object.2.kmem.numPpn = count ∧
        left ≤ ((List.range count).filter fun pn => !testBit object.2.kmem.memMap pn).length

structure RecordBoard (count left : Nat) (heap recorded : ObjectHeap Kmem) (manager p : Nat) : Prop where
  sound : HeapSound heap
  alloc : kmemObjectAlloc 1 manager heap = .ok (p, recorded)
  notNull : p ≠ 0
  recordedSound : HeapSound recorded
  live : Live manager p recorded
  unlocked : (recorded.managers manager).lock = ⟨0, 0⟩
  slot : ∃ block ∈ (recorded.managers manager).blocks, (recorded.blocks block).freeSlots ≠ []
  frames : nodeFrames recorded.kmem = { frame | 0x80000 ≤ frame ∧ frame < 0x80000 + count }
  grants : Grants left recorded.kmem

theorem record_board {count left : Nat} (bounded : count ≤ 2 ^ 16) (boots : BootsRecord count left) :
    ∃ heap recorded manager p, RecordBoard count left heap recorded manager p := by
  obtain ⟨kmem, node, memory, boot, buddy, begins, counts⟩ := @smallNode_sound count 0 bounded
  have start : HeapSound (kmemObjectInit (emptyHeap kmem)) := by
    refine kmemObjectInit_sound ⟨buddy, ?_⟩ rfl rfl
    rw [show (emptyHeap kmem).kmem = kmem from rfl, begins, counts]
    have power : 2 ^ maxMemOrder = 2048 := by decide
    omega
  obtain ⟨_, again, ⟨manager, heap⟩, create, ⟨p, recorded⟩, alloc, notNull, unlocked, slot, counted, enough⟩ := boots
  cases boot.symm.trans again
  obtain ⟨sound, known⟩ := start.createManager (by decide) create
  obtain ⟨recordedSound, _, outcome⟩ := sound.alloc known alloc
  have heapFrame := (kmemObjectCreateManager_shrinks start.sound.1 create).frame
  have frame := (kmemObjectAlloc_shrinks sound.sound.1 alloc).frame
  refine ⟨heap, recorded, manager, p, sound, alloc, notNull, recordedSound, outcome.resolve_left notNull, unlocked,
    slot, ?_, recordedSound.sound.1.grants (List.nodup_range.filter _) (fun pn inList => ?_) enough⟩
  · rw [frame.nodeFrames_eq, heapFrame.nodeFrames_eq]
    show nodeFrames kmem = _
    rw [nodeFrames, begins, counts]
  · obtain ⟨inside, clear⟩ := List.mem_filter.mp inList
    exact ⟨by rw [counted]; exact List.mem_range.mp inside, by simpa using clear⟩

theorem first_record : ∃ heap recorded manager p, RecordBoard 32 21 heap recorded manager p :=
  @record_board 32 21 (by decide) (by decide +kernel)

theorem kmemObjectFree_pages {heap after : ObjectHeap Kmem} {vaddr : Nat}
    (run : kmemObjectFree hart vaddr heap = .ok after) (kmem : Kmem) :
    kmemObjectFree hart vaddr { heap with kmem } = .ok { after with kmem } := by
  obtain ⟨lock, acquired, run⟩ := Result.bind_ok run
  rw [kmemObjectFree]
  dsimp only at run ⊢
  rw [acquired, Result.ok_bind]
  split at run
  · cases run
  next listed =>
    obtain ⟨unlocked, released, run⟩ := Result.bind_ok run
    cases run
    rw [if_neg listed, released]
    rfl

theorem first_process : ∃ (before created after : ProcKernel) (manager p : Nat) (space : ProcSpace),
    KernelSound before ∧
    procCreate 1 manager 0x80200000 0 before = .ok (some (p, space), created) ∧
    procReapDetached 1 p space created = .ok after := by
  obtain ⟨heap, recorded, manager, p, board⟩ := first_record
  obtain ⟨sound, alloc, notNull, recordedSound, live, unlocked, _, _, grants⟩ := board
  obtain ⟨granted, space, vm, create, _, _⟩ := @create_granted _ _ _ 0x80200000 0
    ⟨fun _ => 0, recorded.kmem⟩ recordedSound.sound.1 (by decide) grants 0
  obtain ⟨root, kstack, laid⟩ := @create_laid _ _ _ _ _ ⟨fun _ => 0, recorded.kmem⟩ _ _
    recordedSound.sound.1 (by decide) granted create
  obtain ⟨reaped, reap, _⟩ := laid.reap
  obtain ⟨freed, free⟩ := @kmemObjectFree_returns _ _ _ _ 1 _ _ recordedSound live ⟨1, 1⟩ (by
    rw [unlocked]
    rfl)
  refine ⟨⟨heap, fun _ => 0⟩, ProcKernel.withVm ⟨recorded, fun _ => 0⟩ vm,
    ⟨{ freed with kmem := reaped.pages }, reaped.memory⟩, manager, p, space, kernelSound_of_heap sound,
    ?_, ?_⟩
  · rw [procCreate, alloc, Result.ok_bind]
    dsimp only
    rw [if_neg notNull, create]
    rfl
  · have reap : procReapSpace space (ProcKernel.withVm ⟨recorded, fun _ => 0⟩ vm).vm = .ok reaped := reap
    rw [procReapDetached, reap, Result.ok_bind]
    have free := kmemObjectFree_pages free reaped.pages
    rw [kmemFree, show ((ProcKernel.withVm ⟨recorded, fun _ => 0⟩ vm).withVm reaped).heap =
      { recorded with kmem := reaped.pages } from rfl, free]
    rfl

theorem teardown_never_restores {hart manager userHandlerPa programBreak p : Nat}
    {space moved : ProcSpace} {before created extended : ProcKernel} (sound : KernelSound before)
    (bounded : userHandlerPa < 2 ^ 64)
    (create : procCreate hart manager userHandlerPa programBreak before = .ok (some (p, space), created))
    (run : Relation.ReflTransGen ExtendStep (space, created) (moved, extended)) :
    ¬ ∃ after, procReapDetached hart p moved extended = .ok after ∧ PagesRestored before after := by
  rintro ⟨after, reaped, restored⟩
  exact teardown_leaks sound bounded create run reaped restored

theorem teardown_never_restores_first_process :
    ∃ (before created : ProcKernel) (manager p : Nat) (space : ProcSpace), KernelSound before ∧
      procCreate 1 manager 0x80200000 0 before = .ok (some (p, space), created) ∧
      ¬ ∃ after, procReapDetached 1 p space created = .ok after ∧ PagesRestored before after := by
  obtain ⟨before, created, _, manager, p, space, sound, create, _⟩ := first_process
  exact ⟨before, created, manager, p, space, sound, create, teardown_never_restores sound (by decide) create .refl⟩

theorem first_process_leaks :
    ∃ (before created after : ProcKernel) (manager p : Nat) (space : ProcSpace), KernelSound before ∧
      procCreate 1 manager 0x80200000 0 before = .ok (some (p, space), created) ∧
      procReapDetached 1 p space created = .ok after ∧ ¬ PagesRestored before after := by
  obtain ⟨before, created, after, manager, p, space, sound, create, reaped⟩ := first_process
  exact ⟨before, created, after, manager, p, space, sound, create, reaped,
    teardown_leaks sound (by decide) create .refl reaped⟩

end Kalorona.Proc
