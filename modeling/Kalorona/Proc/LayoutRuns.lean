import Kalorona.Memory.BuddyPages
import Kalorona.Memory.TableEntries
import Kalorona.Proc.Layout

namespace Kalorona.Proc

open Kalorona.Data Kalorona.Utilities Kalorona.Memory

/-! # The layout along the calls of a process

From `proc_create` on, over any sequence of calls that move the bounds of the
heap and the stack, with other users of the allocator in between.
-/

open LawfulPages (Sound managed inUse)

variable {σ : Type} [PageAllocator σ]

/-- The steps of a `proc_create` that returns a process. -/
structure Creation (userHandlerPa : Nat) (vm : Vmem σ) (root kstack trapframe : Nat)
    (rootPages kstackPages framePages : σ) (handler after : Vmem σ) : Prop where
  rootRun : allocPages 0 vm.pages = .ok (root, rootPages)
  rootNotNull : root ≠ 0
  handlerRun : vmMapUserHandler userHandlerPa root ⟨memset vm.memory root 0 pageSize, rootPages⟩ =
    .ok (0, handler)
  kstackRun : allocPages 0 handler.pages = .ok (kstack, kstackPages)
  kstackNotNull : kstack ≠ 0
  frameRun : allocPages 0 kstackPages = .ok (trapframe, framePages)
  frameNotNull : trapframe ≠ 0
  mapRun : vmMappages root vaUserTrapframeBegin (pmaVa2Pa trapframe) trapframeSize
    (pteFlagR ||| pteFlagW)
    ⟨trapframeInit handler.memory trapframe vaUserUserHandlerBegin kstack, framePages⟩ = .ok (0, after)

def CreateGranted (userHandlerPa : Nat) (vm : Vmem σ) : Prop :=
  ∃ root kstack trapframe rootPages kstackPages framePages handler after,
    Creation userHandlerPa vm root kstack trapframe rootPages kstackPages framePages handler after

theorem Creation.returns {userHandlerPa root kstack trapframe : Nat} {vm handler after : Vmem σ}
    {rootPages kstackPages framePages : σ}
    (creation : Creation userHandlerPa vm root kstack trapframe rootPages kstackPages framePages
      handler after) (programBreak : Nat) : procCreateSpace userHandlerPa programBreak vm =
      .ok (⟨kstack, vaUserUserHandlerBegin, vaUserBegin, programBreak, root, trapframe⟩, after) := by
  have made : vmUserMakePagetable userHandlerPa vm = .ok (root, handler) := by
    rw [vmUserMakePagetable, creation.rootRun, Result.ok_bind]
    dsimp only
    rw [if_neg creation.rootNotNull, creation.handlerRun]
    rfl
  rw [procCreateSpace, made, Result.ok_bind]
  dsimp only
  rw [creation.kstackRun, Result.ok_bind]
  dsimp only
  rw [creation.frameRun, Result.ok_bind]
  dsimp only
  rw [if_neg creation.frameNotNull, creation.mapRun]
  rfl

theorem trapframeInit_outside {memory : Memory} {frame other offset stackVaddr kstackVaddr : Nat}
    (different : other ≠ frame) (inside : offset < 4096) :
    trapframeInit memory (frameVa frame) stackVaddr kstackVaddr (frameVa other + offset) =
      memory (frameVa other + offset) := by
  unfold trapframeInit
  rw [Memory.store64_outside, Memory.store64_outside, Memory.store64_outside, memset_outside]
  all_goals
    simp only [frameVa, pageSize, trapframeSize, trapframeUserPc, trapframeSp, trapframeKernelSp]
    omega

variable [LawfulPages σ]

variable {mine : Set Nat} {pageOrder kstack root : Nat} {space : ProcSpace}

section
variable {root kstack frame userHandlerPa : Nat} {vm handler after : Vmem σ} {rootPages kstackPages framePages : σ}

theorem create_root (granted : Granted root vm.pages rootPages) :
    Backed root ⟨memset vm.memory (frameVa root) 0 pageSize, rootPages⟩ ∧
      tables root ⟨memset vm.memory (frameVa root) 0 pageSize, rootPages⟩ = {root} ∧
      ∀ vpn, pageMap (frameVa root) ⟨memset vm.memory (frameVa root) 0 pageSize, rootPages⟩ vpn = none := by
  have rootUsed := granted.isUsed
  have zero := cells_memset_same vm.memory root
  generalize memset vm.memory (frameVa root) 0 pageSize = memory at zero ⊢
  obtain ⟨backed, nodes, blank⟩ := @blank_root _ _ root ⟨memory, rootPages⟩ _ zero granted.sound rootUsed
  exact ⟨backed, nodes, fun vpn => (pageMap_eq_value ..).trans (blank _)⟩

theorem create_handler (granted : Granted root vm.pages rootPages) (bounded : userHandlerPa < 2 ^ 64)
    (run : vmMapUserHandler userHandlerPa (frameVa root)
      ⟨memset vm.memory (frameVa root) 0 pageSize, rootPages⟩ = .ok (0, handler)) :
    Within root ⟨memset vm.memory (frameVa root) 0 pageSize, rootPages⟩ handler ∧
      (∀ table ∈ tables root handler, table ∉ inUse vm.pages) ∧
      ∀ vpn < 2 ^ 27, pageMap (frameVa root) handler vpn = if handlerVpn ≤ vpn ∧ vpn < handlerVpn + 8 then
          some ((userHandlerPa / 4096 + (vpn - handlerVpn)) % 2 ^ 52, pteFlagV ||| (pteFlagR ||| pteFlagX))
        else none := by
  obtain ⟨backed, nodes, blank⟩ := create_root granted
  rw [vmMapUserHandler_eq] at run
  obtain ⟨within, map⟩ := backed.mapFrom (by decide) bounded (by decide) run
  refine ⟨within, fun table member used => ?_, fun vpn small => ?_⟩
  · rcases within.fresh table member with old | unused
    · rw [nodes, Set.mem_singleton_iff] at old
      exact granted.unused (old ▸ used)
    · refine unused ?_
      rw [granted.used]
      exact .inr used
  · rw [map rfl vpn small, blank]
    rfl

/-- What the page table of a new process maps. -/
def createdMap (userHandlerPa frame vpn : Nat) : Option (Nat × Nat) :=
  if vpn = trapframeVpn then some (frame, pteFlagV ||| (pteFlagR ||| pteFlagW))
  else if handlerVpn ≤ vpn ∧ vpn < handlerVpn + 8 then
    some ((userHandlerPa / 4096 + (vpn - handlerVpn)) % 2 ^ 52, pteFlagV ||| (pteFlagR ||| pteFlagX))
  else none

/-- What `proc_create` has done before it maps the trapframe, by the frames that it was given. -/
structure Building (userHandlerPa root kstack frame : Nat) (vm handler : Vmem σ)
    (rootPages kstackPages framePages : σ) : Prop where
  bounded : userHandlerPa < 2 ^ 64
  rootGiven : Granted root vm.pages rootPages
  handlerRun : vmMapUserHandler userHandlerPa (frameVa root)
    ⟨memset vm.memory (frameVa root) 0 pageSize, rootPages⟩ = .ok (0, handler)
  kstackGiven : Granted kstack handler.pages kstackPages
  frameGiven : Granted frame kstackPages framePages

/-- A new process: its table maps the handler and the trapframe, and apart from the frames that
it was given the memory is as before. -/
structure Created (userHandlerPa root kstack frame : Nat) (vm after : Vmem σ) : Prop where
  laid : LaidPages root kstack ∅ (taken ∅ vm.pages after.pages) after
  map : ∀ vpn < 2 ^ 27, pageMap (frameVa root) after vpn = createdMap userHandlerPa frame vpn
  along : Along (pageKeys handlerVpn 9) root after
  rootBounded : root < 2 ^ 26
  bounded : frame < 2 ^ 26
  sameManaged : managed after.pages = managed vm.pages
  used : inUse vm.pages ⊆ inUse after.pages
  untouched : ∀ other, other ∉ taken ∅ vm.pages after.pages → SameBytes after.memory vm.memory other other
  initial : ∃ memory, SameBytes after.memory
    (trapframeInit memory (frameVa frame) vaUserUserHandlerBegin (frameVa kstack)) frame frame

section
variable (building : Building userHandlerPa root kstack frame vm handler rootPages kstackPages framePages)
include building

theorem Building.backed : Backed root handler :=
  (create_handler building.rootGiven building.bounded building.handlerRun).1.backed

theorem Building.elsewhere : Elsewhere root (inUse handler.pages) handler
      ⟨trapframeInit handler.memory (frameVa frame) vaUserUserHandlerBegin (frameVa kstack), framePages⟩ where
  sound := building.frameGiven.sound
  sameManaged := building.frameGiven.sameManaged.trans building.kstackGiven.sameManaged
  kept := building.kstackGiven.grows.trans building.frameGiven.grows
  bytes := by
    intro table member offset inside
    refine trapframeInit_outside ?_ inside
    rintro rfl
    exact building.frameGiven.unused (building.kstackGiven.grows (building.backed.used member))

variable (run : vmMappages (frameVa root) vaUserTrapframeBegin (pmaVa2Pa (frameVa frame)) trapframeSize
  (pteFlagR ||| pteFlagW) ⟨trapframeInit handler.memory (frameVa frame) vaUserUserHandlerBegin (frameVa kstack),
    framePages⟩ = .ok (0, after))
include run

theorem Building.trapframe :
    Within root ⟨trapframeInit handler.memory (frameVa frame) vaUserUserHandlerBegin (frameVa kstack),
        framePages⟩ after ∧
      (∀ table ∈ tables root after, table ∈ tables root handler ∨ table ∉ inUse framePages) ∧
      ∀ vpn < 2 ^ 27, pageMap (frameVa root) after vpn = createdMap userHandlerPa frame vpn := by
  have elsewhere := building.elsewhere
  have bounded := building.frameGiven.bounded
  rw [vmMappages_trapframe, pmaVa2Pa_frameVa bounded] at run
  obtain ⟨within, map⟩ :=
    (elsewhere.backed building.backed building.backed.used).mapFrom (by decide) (by omega) (by decide) run
  refine ⟨within, fun table member => ?_, fun vpn small => ?_⟩
  · rw [← elsewhere.tables_eq]
    exact within.fresh table member
  · rw [map rfl vpn small, elsewhere.pageMap_eq, createdMap]
    by_cases same : vpn = trapframeVpn
    · subst same
      rw [if_pos (by decide), if_pos rfl, Nat.sub_self, Nat.add_zero, Nat.mul_div_cancel _ (by decide),
        Nat.mod_eq_of_lt (by omega)]
    · rw [if_neg (by rw [show (trapframeSize + 4095) / 4096 = 1 by decide]; omega), if_neg same]
      exact (create_handler building.rootGiven building.bounded building.handlerRun).2.2 vpn small

theorem Building.laid : LaidPages root kstack ∅ (taken ∅ vm.pages after.pages) after := by
  obtain ⟨handlerWithin, handlerFresh, _⟩ := create_handler building.rootGiven building.bounded building.handlerRun
  obtain ⟨within, fresh, map⟩ := building.trapframe run
  have ⟨_, rootGranted, _, kstackGranted, frameGranted⟩ := building
  have frameAt : trapframeVpn = handlerVpn + 8 := by decide
  have sameManaged : managed after.pages = managed vm.pages :=
    within.sameManaged.trans (frameGranted.sameManaged.trans (kstackGranted.sameManaged.trans
      (handlerWithin.sameManaged.trans rootGranted.sameManaged)))
  have handlerUsed : inUse vm.pages ⊆ inUse handler.pages := rootGranted.grows.trans handlerWithin.grows
  have kstackUsed := kstackGranted.grows
  have frameUsed := frameGranted.grows
  have afterUsed : inUse framePages ⊆ inUse after.pages := within.grows
  have kstackIn : kstack ∈ inUse framePages := frameUsed kstackGranted.isUsed
  have frameIn := frameGranted.isUsed
  -- a frame of `framePages` that the handler's tables do not use is no table
  have notTable : ∀ page ∈ inUse framePages, page ∉ inUse handler.pages → page ∉ tables root after := by
    intro page used unused member
    rcases fresh page member with old | new
    · exact unused (handlerWithin.backed.used old)
    · exact new used
  have frameUnused : frame ∉ inUse handler.pages := fun used => frameGranted.unused (kstackUsed used)
  have frameAtEntry : frameOf (frame, pteFlagV ||| (pteFlagR ||| pteFlagW)) = frame :=
    Nat.mod_eq_of_lt frameGranted.bounded
  refine ⟨within.backed, by rw [sameManaged]; exact rootGranted.isManaged, fun _ member => member.1, ?_,
    ?_, ?_, nofun, nofun, ?_, ?_, ?_, ?_⟩
  · intro table member
    refine ⟨within.backed.used member, .inr fun used => ?_⟩
    rcases fresh table member with old | new
    · exact handlerFresh table old used
    · exact new (frameUsed (kstackUsed (handlerUsed used)))
  · rw [sameManaged, ← rootGranted.sameManaged, ← handlerWithin.sameManaged]
    exact ⟨⟨afterUsed kstackIn, .inr fun used => kstackGranted.unused (handlerUsed used)⟩, kstackGranted.isManaged⟩
  · exact notTable kstack kstackIn kstackGranted.unused
  · intro vpn lower upper
    have top : trapframeVpn < 2 ^ 27 := by decide
    rw [map vpn (by omega), createdMap]
    split
    · exact ⟨_, rfl, show pteFlagV ||| (pteFlagR ||| pteFlagW) ≠ pteFlagV by decide⟩
    · rw [if_pos (by omega)]
      exact ⟨_, rfl, show pteFlagV ||| (pteFlagR ||| pteFlagX) ≠ pteFlagV by decide⟩
  · intro vpn small entry found
    rw [map vpn small, createdMap] at found
    split at found
    next same => exact .inr (by omega)
    next =>
      split at found
      next inside => exact .inr (by omega)
      next => cases found
  · rintro vpn (rfl | member) entry found
    · rw [map _ (by decide), createdMap, if_pos rfl] at found
      cases found
      rw [frameAtEntry, sameManaged, ← rootGranted.sameManaged, ← handlerWithin.sameManaged,
        ← kstackGranted.sameManaged]
      refine ⟨⟨⟨afterUsed frameIn, .inr fun used => frameUnused (handlerUsed used)⟩, frameGranted.isManaged⟩, ?_⟩
      rintro (isKstack | isTable)
      · exact frameGranted.unused (isKstack ▸ kstackGranted.isUsed)
      · exact notTable frame frameIn frameUnused isTable
    · cases member
  · rintro vpn (rfl | member) other (rfl | otherMember) entry otherEntry _ _ _
    · rfl
    · cases otherMember
    · cases member
    · cases member

theorem Building.along : Along (pageKeys handlerVpn 9) root after := by
  have frameBounded := building.frameGiven.bounded
  have frameAt : trapframeVpn = handlerVpn + 8 := by decide
  have blank : Along (pageKeys handlerVpn 9) root
      (⟨memset vm.memory (frameVa root) 0 pageSize, rootPages⟩ : Vmem σ) := by
    have zero := cells_memset_same vm.memory root
    generalize memset vm.memory (frameVa root) 0 pageSize = memory at zero ⊢
    exact (@along_blank _ root ⟨memory, rootPages⟩ zero).mono (List.nil_subset _)
  have handlerAlong : Along (pageKeys handlerVpn 9) root handler := by
    have handlerRun := building.handlerRun
    rw [vmMapUserHandler_eq] at handlerRun
    refine blank.mapFrom (create_root building.rootGiven).1 (by decide) building.bounded (by decide) ?_ handlerRun
    intro other lower upper
    rw [show (vaUserUserHandlerSize + 4095) / 4096 = 8 by decide] at upper
    exact mem_pageKeys lower (by omega)
  have initAlong := handlerAlong.congr building.elsewhere.bytes
  rw [vmMappages_trapframe, pmaVa2Pa_frameVa frameBounded] at run
  refine initAlong.mapFrom (building.elsewhere.backed building.backed building.backed.used) (by decide) (by omega)
    (by decide) ?_ run
  intro other lower upper
  rw [show (trapframeSize + 4095) / 4096 = 1 by decide] at upper
  exact mem_pageKeys (by omega) (by omega)

end

theorem LaidPages.frame_own {user : Set Nat} {flags : Nat} (laid : LaidPages root kstack user mine vm)
    (found : pageMap (frameVa root) vm trapframeVpn = some (frame, flags)) (bounded : frame < 2 ^ 26) :
    frame ∈ mine ∧ frame ∉ tables root vm := by
  have owned := laid.frames trapframeVpn (.inl rfl) _ found
  rw [show frameOf (frame, flags) = frame from Nat.mod_eq_of_lt bounded] at owned
  exact ⟨owned.1.1, fun isTable => owned.2 (.inr isTable)⟩

theorem Created.frame_taken (created : Created userHandlerPa root kstack frame vm after) :
    frame ∈ taken ∅ vm.pages after.pages ∧ frame ∉ tables root after :=
  created.laid.frame_own ((created.map trapframeVpn (by decide)).trans (if_pos rfl)) created.bounded

theorem Building.created (building : Building userHandlerPa root kstack frame vm handler rootPages kstackPages framePages)
    (run : vmMappages (frameVa root) vaUserTrapframeBegin (pmaVa2Pa (frameVa frame)) trapframeSize
      (pteFlagR ||| pteFlagW) ⟨trapframeInit handler.memory (frameVa frame) vaUserUserHandlerBegin (frameVa kstack),
        framePages⟩ = .ok (0, after)) : Created userHandlerPa root kstack frame vm after := by
  have handlerWithin := (create_handler building.rootGiven building.bounded building.handlerRun).1
  obtain ⟨within, _, map⟩ := building.trapframe run
  have elsewhere := building.elsewhere
  have laid := building.laid run
  obtain ⟨frameTaken, frameApart⟩ :=
    laid.frame_own ((map trapframeVpn (by decide)).trans (if_pos rfl)) building.frameGiven.bounded
  have handlerTables : tables root handler ⊆ tables root after := by
    rw [← elsewhere.tables_eq]
    exact within.tables_subset
  refine ⟨laid, map, building.along run, building.rootGiven.bounded, building.frameGiven.bounded,
    ?_, ?_, ?_, handler.memory, ?_⟩
  · rw [within.sameManaged, elsewhere.sameManaged, handlerWithin.sameManaged, building.rootGiven.sameManaged]
  · have handlerUsed : inUse vm.pages ⊆ inUse handler.pages := building.rootGiven.grows.trans handlerWithin.grows
    have afterUsed : inUse framePages ⊆ inUse after.pages := within.grows
    exact handlerUsed.trans (elsewhere.kept.trans afterUsed)
  · intro other notTaken offset inside
    have notTable : other ∉ tables root after := fun member => notTaken (laid.tablesMine member)
    have notRoot : other ≠ root := by
      rintro rfl
      exact notTable Radix.root_mem_nodes
    have notFrame : other ≠ frame := (ne_of_mem_of_not_mem frameTaken notTaken).symm
    have handlerSame := handlerWithin.outside (fun member => notTable (handlerTables member)) inside
    rw [within.outside notTable inside]
    dsimp only at handlerSame ⊢
    rw [trapframeInit_outside notFrame inside, handlerSame, memset_outside_frame 0 notRoot inside]
  · -- mapping the trapframe does not write to it
    exact fun offset inside => within.outside frameApart inside

theorem Creation.building {pgtbl kstackVaddr trapframe : Nat} (creation : Creation userHandlerPa vm pgtbl kstackVaddr
      trapframe rootPages kstackPages framePages handler after) (sound : Sound vm.pages)
    (bounded : userHandlerPa < 2 ^ 64) : ∃ root kstack frame, pgtbl = frameVa root ∧ kstackVaddr = frameVa kstack ∧
      trapframe = frameVa frame ∧
      Building userHandlerPa root kstack frame vm handler rootPages kstackPages framePages := by
  obtain ⟨root, rfl, rootGranted⟩ := granted_frame sound creation.rootRun creation.rootNotNull
  have backed := (create_handler rootGranted bounded creation.handlerRun).1.backed
  obtain ⟨kstack, rfl, kstackGranted⟩ := granted_frame backed.sound creation.kstackRun creation.kstackNotNull
  obtain ⟨frame, rfl, frameGranted⟩ := granted_frame kstackGranted.sound creation.frameRun creation.frameNotNull
  exact ⟨root, kstack, frame, rfl, rfl, rfl, bounded, rootGranted, creation.handlerRun, kstackGranted, frameGranted⟩

end

theorem laidUser_empty : laidUser 0 0 = ∅ := by
  ext vpn
  simp only [laidUser, Set.mem_ofPred_eq, Set.mem_empty_iff_false, iff_false]
  omega

section
variable {userHandlerPa programBreak : Nat} {vm after : Vmem σ} {space : ProcSpace}
  (sound : Sound vm.pages) (bounded : userHandlerPa < 2 ^ 64) (granted : CreateGranted userHandlerPa vm)
  (run : procCreateSpace userHandlerPa programBreak vm = .ok (space, after))
include sound bounded granted run

theorem create_created : ∃ root kstack frame, space = ⟨frameVa kstack, vaUserUserHandlerBegin, vaUserBegin,
    programBreak, frameVa root, frameVa frame⟩ ∧ Created userHandlerPa root kstack frame vm after := by
  obtain ⟨_, _, _, _, _, _, _, _, creation⟩ := granted
  cases (creation.returns programBreak).symm.trans run
  obtain ⟨root, kstack, frame, rfl, rfl, rfl, building⟩ := creation.building sound bounded
  exact ⟨root, kstack, frame, rfl, building.created creation.mapRun⟩

theorem create_laid : ∃ root kstack, Laid root kstack 0 0 (taken ∅ vm.pages after.pages) space after := by
  obtain ⟨root, kstack, frame, rfl, created⟩ := create_created sound bounded granted run
  refine ⟨root, kstack, ?_, rfl, rfl, show vaUserBegin = (heapVpn + 0) * pageSize by decide,
    show vaUserUserHandlerBegin = (handlerVpn - 0) * pageSize by decide, by decide⟩
  rw [laidUser_empty]
  exact created.laid

end

omit [LawfulPages σ] in
def Served (pgtbl vaddr pageOrder flags : Nat) (vm : Vmem σ) : Prop :=
  ∃ addr pages after, allocPages pageOrder vm.pages = .ok (addr, pages) ∧ addr ≠ 0 ∧
    vmMappages pgtbl vaddr (pmaVa2Pa addr) (2 ^ pageOrder * pageSize) flags { vm with pages } =
      .ok (0, after)

theorem extendSize_eq (small : pageOrder ≤ 26) :
    ulong (1 <<< (pageOrder + pageShift)) = 2 ^ pageOrder * pageSize := by
  have bounded : 2 ^ pageOrder ≤ 2 ^ 26 := Nat.pow_le_pow_right (by decide) small
  rw [Nat.shiftLeft_eq, Nat.one_mul, Nat.pow_add, ulong_of_lt]
  · rfl
  · unfold pageShift
    omega

theorem expandSize_eq (small : pageOrder ≤ 26) : expandSize pageOrder = 2 ^ pageOrder * pageSize := by
  have bounded : 2 ^ pageOrder ≤ 2 ^ 26 := Nat.pow_le_pow_right (by decide) small
  rw [expandSize, Nat.shiftLeft_eq, Nat.mul_comm, ulong_of_lt]
  unfold pageSize
  omega

theorem granted_order {addr : Nat} {pages next : σ} (sound : Sound pages)
    (run : allocPages pageOrder pages = .ok (addr, next)) (notNull : addr ≠ 0) : pageOrder ≤ 26 := by
  obtain ⟨first, _, _, _, frames, _⟩ := alloc_frames sound run notNull
  have positive : 0 < 2 ^ pageOrder := Nat.two_pow_pos pageOrder
  have last := (frames (first + (2 ^ pageOrder - 1)) (by omega) (by omega)).1
  have bounded : 2 ^ pageOrder ≤ 2 ^ 26 := by omega
  exact (Nat.pow_le_pow_iff_right (by decide)).mp bounded

section
variable {root kstack heapPages stackPages pageOrder addr flags : Nat} {mine : Set Nat}
  {space : ProcSpace} {vm after : Vmem σ} {next : σ} (laid : Laid root kstack heapPages stackPages mine space vm)
  (alloc : allocPages pageOrder vm.pages = .ok (addr, next)) (notNull : addr ≠ 0)
  (small : flags < 1024) (isUser : flags &&& pteFlagU = pteFlagU)
  (room : space.heapVaddr + 2 ^ pageOrder * pageSize ≤ space.stackVaddr)
include laid alloc notNull small isUser room

omit alloc notNull small isUser in
theorem Laid.fits : heapVpn + heapPages + 2 ^ pageOrder + stackPages ≤ handlerVpn := by
  have old := laid.room
  rw [laid.heapVaddr, laid.stackVaddr] at room
  unfold pageSize at room
  omega

theorem Laid.grow_heap
    (run : vmMappages space.pgtbl space.heapVaddr (pmaVa2Pa addr) (2 ^ pageOrder * pageSize) flags
      { vm with pages := next } = .ok (0, after)) (programBreak : Nat) :
    Laid root kstack (heapPages + 2 ^ pageOrder) stackPages (taken mine vm.pages after.pages)
      { space with heapVaddr := ulong (space.heapVaddr + 2 ^ pageOrder * pageSize), programBreak }
      after := by
  have top : handlerVpn < 2 ^ 26 := by decide
  have positive : 0 < 2 ^ pageOrder := Nat.two_pow_pos pageOrder
  have fits := laid.fits room
  have grown : laidUser (heapPages + 2 ^ pageOrder) stackPages = laidUser heapPages stackPages ∪
      { other | heapVpn + heapPages ≤ other ∧ other < heapVpn + heapPages + 2 ^ pageOrder } := by
    ext vpn
    simp only [laidUser, Set.mem_ofPred_eq, Set.mem_union]
    omega
  rw [laid.pgtbl, laid.heapVaddr] at run
  refine ⟨?_, laid.pgtbl, laid.kstackVaddr, ?_, laid.stackVaddr, by omega⟩
  · rw [grown]
    refine laid.pages.grow alloc notNull small (by omega) run isUser ?_
    intro other lower upper
    simp only [laidUser, Set.mem_ofPred_eq]
    omega
  · dsimp only
    rw [laid.heapVaddr, ulong_of_lt (by unfold pageSize; omega)]
    unfold pageSize
    omega

theorem Laid.grow_stack (run : vmMappages space.pgtbl (ulongSub space.stackVaddr (2 ^ pageOrder * pageSize))
      (pmaVa2Pa addr) (2 ^ pageOrder * pageSize) flags { vm with pages := next } = .ok (0, after)) :
    Laid root kstack heapPages (stackPages + 2 ^ pageOrder) (taken mine vm.pages after.pages)
      { space with stackVaddr := ulongSub space.stackVaddr (2 ^ pageOrder * pageSize) } after := by
  have top : handlerVpn < 2 ^ 26 := by decide
  have positive : 0 < 2 ^ pageOrder := Nat.two_pow_pos pageOrder
  have fits := laid.fits room
  have lowered : ulongSub ((handlerVpn - stackPages) * pageSize) (2 ^ pageOrder * pageSize) =
      (handlerVpn - (stackPages + 2 ^ pageOrder)) * pageSize := by
    unfold pageSize
    rw [ulongSub_of_le (by omega) (by omega)]
    omega
  have grown : laidUser heapPages (stackPages + 2 ^ pageOrder) = laidUser heapPages stackPages ∪
      { other | handlerVpn - (stackPages + 2 ^ pageOrder) ≤ other ∧
        other < handlerVpn - (stackPages + 2 ^ pageOrder) + 2 ^ pageOrder } := by
    ext vpn
    simp only [laidUser, Set.mem_ofPred_eq, Set.mem_union]
    omega
  rw [laid.pgtbl, laid.stackVaddr, lowered] at run
  refine ⟨?_, laid.pgtbl, laid.kstackVaddr, laid.heapVaddr, ?_, by omega⟩
  · rw [grown]
    refine laid.pages.grow alloc notNull small (by omega) run isUser ?_
    intro other lower upper
    simp only [laidUser, Set.mem_ofPred_eq]
    omega
  · dsimp only
    rw [laid.stackVaddr, lowered]

end

inductive SpaceCall
  | extendStack (pageOrder : Nat)
  | extendHeap (pageOrder memFlag : Nat)
  | sbrk (a0 : Nat)
  | pageFault (tval : Nat)

def spaceCall (call : SpaceCall) (space : ProcSpace) (vm : Vmem σ) : Result (ProcSpace × Vmem σ) :=
  match call with
  | .extendStack pageOrder => do
      let (_, moved) ← procExtendStack pageOrder space vm
      return moved
  | .extendHeap pageOrder memFlag => do
      let (_, moved) ← procExtendHeap pageOrder memFlag space vm
      return moved
  | .sbrk a0 => do
      let (_, moved) ← syscallSbrk a0 space vm
      return moved
  | .pageFault tval => do
      let moved ← stackPageFault tval space vm
      return moved.getD (space, vm)

def HeapServed (pageOrder flags : Nat) (space : ProcSpace) (vm : Vmem σ) : Prop :=
  space.heapVaddr + 2 ^ pageOrder * pageSize ≤ space.stackVaddr ∧
    Served space.pgtbl space.heapVaddr pageOrder flags vm

def StackServed (pageOrder : Nat) (space : ProcSpace) (vm : Vmem σ) : Prop :=
  space.heapVaddr + 2 ^ pageOrder * pageSize ≤ space.stackVaddr ∧
    Served space.pgtbl (ulongSub space.stackVaddr (2 ^ pageOrder * pageSize)) pageOrder
      (pteFlagR ||| pteFlagW ||| pteFlagU) vm

def sbrkBelow (a0 : Nat) (space : ProcSpace) : Prop :=
  a0 ≥ 2 ^ 63 ∧ ulongSub space.heapVaddr vaUserBegin < ulongSub 0 a0

/-- Calls that neither run out of pages nor take the shrinking branch of `sbrk`; `sbrk` may be
refused the pages that it asks for first. -/
def CarefulCall (call : SpaceCall) (space : ProcSpace) (vm : Vmem σ) : Prop :=
  match call with
  | .extendStack pageOrder => StackServed pageOrder space vm
  | .extendHeap pageOrder memFlag => memFlag < 2 ^ 10 ∧ HeapServed pageOrder (memFlag ||| pteFlagU) space vm
  | .sbrk a0 =>
    let target := ulong (space.programBreak + a0)
    sbrkBelow a0 space ∨ (ulongSub space.heapVaddr pageSize < target ∧
      (target > space.heapVaddr → ∀ pageOrder, expandOrder target space.heapVaddr 64 0 = .ok pageOrder →
        (∃ pages, allocPages pageOrder vm.pages = .ok (0, pages)) ∨
          HeapServed pageOrder (pteFlagR ||| pteFlagW ||| pteFlagU) space vm))
  | .pageFault tval =>
    tval ≥ ulongSub space.stackVaddr vaUserStackAutoExpandThreshold ∧ tval < vaUserTrapframeBegin →
      StackServed 0 space vm

theorem taken_self {before after : σ} (used : mine ⊆ inUse before)
    (same : inUse after = inUse before) : taken mine before after = mine := by
  ext frame
  simp only [taken, same, Set.mem_ofPred_eq]
  constructor
  · rintro ⟨isUsed, isMine | unused⟩
    · exact isMine
    · exact absurd isUsed unused
  · exact fun isMine => ⟨used isMine, .inl isMine⟩

theorem or_and_user (flags : Nat) : (flags ||| pteFlagU) &&& pteFlagU = pteFlagU := by
  apply Nat.eq_of_testBit_eq
  intro index
  rw [Nat.testBit_and, Nat.testBit_or]
  cases pteFlagU.testBit index <;> simp

section
variable {root kstack heapPages stackPages pageOrder : Nat} {mine : Set Nat}
  {space moved : ProcSpace} {vm after : Vmem σ} (laid : Laid root kstack heapPages stackPages mine space vm)
include laid

theorem Laid.extendStack (served : StackServed pageOrder space vm) {ptr : Nat}
    (run : procExtendStack pageOrder space vm = .ok (ptr, moved, after)) :
    Laid root kstack heapPages (stackPages + 2 ^ pageOrder) (taken mine vm.pages after.pages) moved after := by
  obtain ⟨room, addr, pages, final, alloc, notNull, map⟩ := served
  have order := granted_order laid.pages.backed.sound alloc notNull
  rw [procExtendStack, alloc, Result.ok_bind] at run
  dsimp only at run
  rw [extendSize_eq order, map, Result.ok_bind] at run
  cases run
  exact laid.grow_stack alloc notNull (by decide) (by decide) room map

theorem Laid.extendHeap {memFlag ptr : Nat} (small : memFlag < 2 ^ 10)
    (served : HeapServed pageOrder (memFlag ||| pteFlagU) space vm)
    (run : procExtendHeap pageOrder memFlag space vm = .ok (ptr, moved, after)) :
    Laid root kstack (heapPages + 2 ^ pageOrder) stackPages (taken mine vm.pages after.pages) moved after := by
  obtain ⟨room, addr, pages, final, alloc, notNull, map⟩ := served
  have order := granted_order laid.pages.backed.sound alloc notNull
  rw [procExtendHeap, alloc, Result.ok_bind] at run
  dsimp only at run
  rw [extendSize_eq order, map, Result.ok_bind] at run
  cases run
  exact laid.grow_heap alloc notNull (Nat.or_lt_two_pow small (by decide)) (or_and_user memFlag) room map _

theorem Laid.unmoved {pages : σ} (sound : Sound pages) (sameManaged : managed pages = managed vm.pages)
    (sameUse : inUse pages = inUse vm.pages) :
    Laid root kstack heapPages stackPages (taken mine vm.pages pages) space { vm with pages } := by
  rw [taken_self laid.pages.mineUsed sameUse]
  have elsewhere : Elsewhere root mine vm { vm with pages } := by
    refine ⟨sound, sameManaged, ?_, fun _ _ _ _ => rfl⟩
    rw [sameUse]
    exact laid.pages.mineUsed
  exact ⟨laid.pages.elsewhere elsewhere, laid.pgtbl, laid.kstackVaddr, laid.heapVaddr, laid.stackVaddr, laid.room⟩

theorem Laid.sbrk {a0 ret : Nat} (careful : CarefulCall (.sbrk a0) space vm)
    (run : syscallSbrk a0 space vm = .ok (ret, moved, after)) :
    ∃ heapPages, Laid root kstack heapPages stackPages (taken mine vm.pages after.pages) moved after := by
  have still := laid.unmoved laid.pages.backed.sound rfl rfl
  rw [syscallSbrk] at run
  split at run
  · cases run
    exact ⟨heapPages, still⟩
  next notBelow =>
    obtain below | ⟨noShrink, expands⟩ := careful
    · exact absurd below notBelow
    dsimp only at run
    split at run
    next isAbove =>
      obtain ⟨pageOrder, found, run⟩ := Result.bind_ok run
      rcases expands isAbove pageOrder found with ⟨pages, refused⟩ | ⟨room, addr, pages, final, alloc, notNull, map⟩
      · rw [refused, Result.ok_bind] at run
        dsimp only at run
        rw [if_pos rfl] at run
        cases run
        obtain ⟨sound, sameManaged, ⟨_, sameUse⟩ | ⟨frame, address, _⟩⟩ :=
          LawfulPages.alloc laid.pages.backed.sound refused
        · exact ⟨heapPages, laid.unmoved sound sameManaged sameUse⟩
        · exact absurd address.symm (frameVa_ne_zero frame)
      · have order := granted_order laid.pages.backed.sound alloc notNull
        rw [alloc, Result.ok_bind] at run
        dsimp only at run
        rw [if_neg notNull, expandSize_eq order, map, Result.ok_bind] at run
        cases run
        exact ⟨_, laid.grow_heap alloc notNull (by decide) (by decide) room map _⟩
    · rw [if_neg (Nat.not_le.mpr noShrink)] at run
      cases run
      exact ⟨heapPages, still⟩

theorem Laid.call {call : SpaceCall} (careful : CarefulCall call space vm)
    (run : spaceCall call space vm = .ok (moved, after)) : ∃ heapPages stackPages,
      Laid root kstack heapPages stackPages (taken mine vm.pages after.pages) moved after := by
  cases call with
  | extendStack pageOrder =>
    obtain ⟨⟨ptr, _, _⟩, extended, same⟩ := Result.bind_ok run
    cases same
    exact ⟨_, _, laid.extendStack careful extended⟩
  | extendHeap pageOrder memFlag =>
    obtain ⟨⟨ptr, _, _⟩, extended, same⟩ := Result.bind_ok run
    cases same
    exact ⟨_, _, laid.extendHeap careful.1 careful.2 extended⟩
  | sbrk a0 =>
    obtain ⟨⟨ret, _, _⟩, returned, same⟩ := Result.bind_ok run
    cases same
    exact ⟨_, _, (laid.sbrk careful returned).choose_spec⟩
  | pageFault tval =>
    obtain ⟨outcome, returned, same⟩ := Result.bind_ok run
    rw [stackPageFault] at returned
    split at returned
    next inside =>
      obtain ⟨⟨ptr, extended⟩, extend, returned⟩ := Result.bind_ok returned
      cases returned
      cases same
      exact ⟨_, _, laid.extendStack (careful inside) extend⟩
    next =>
      cases returned
      cases same
      exact ⟨_, _, laid.unmoved laid.pages.backed.sound rfl rfl⟩

end

structure Held (σ : Type) where
  space : ProcSpace
  vm : Vmem σ
  mine : Set Nat

/-- Calls of the process that are allowed, and whatever others do meanwhile. -/
inductive SpaceStep (allowed : SpaceCall → ProcSpace → Vmem σ → Prop) : Held σ → Held σ → Prop
  | call {before : Held σ} {call : SpaceCall} {space : ProcSpace} {vm : Vmem σ}
      (ready : allowed call before.space before.vm)
      (run : spaceCall call before.space before.vm = .ok (space, vm)) :
      SpaceStep allowed before ⟨space, vm, taken before.mine before.vm.pages vm.pages⟩
  | others {before : Held σ} {vm : Vmem σ} (elsewhere : ∀ root, before.space.pgtbl = frameVa root →
      Elsewhere root before.mine before.vm vm) : SpaceStep allowed before { before with vm }

def UserPage (space : ProcSpace) (vpn : Nat) : Prop :=
  (vaUserBegin ≤ vpn * pageSize ∧ vpn * pageSize < space.heapVaddr) ∨
    (space.stackVaddr ≤ vpn * pageSize ∧ vpn * pageSize < vaUserUserHandlerBegin)

/-- The heap and the stack are mapped for the user to frames that the process alone was given,
nothing but the handler and the trapframe is mapped beside them, and the process can be reaped. -/
structure LayoutHolds (held : Held σ) : Prop where
  mapped : ∀ vpn, UserPage held.space vpn → ∃ entry,
    pageMap held.space.pgtbl held.vm vpn = some entry ∧
      entry.2 &&& (pteFlagV ||| pteFlagU) = pteFlagV ||| pteFlagU ∧
      entry.1 ∈ held.mine ∩ inUse held.vm.pages
  distinct : ∀ vpn other, UserPage held.space vpn → UserPage held.space other → ∀ entry otherEntry,
    pageMap held.space.pgtbl held.vm vpn = some entry →
    pageMap held.space.pgtbl held.vm other = some otherEntry → entry.1 = otherEntry.1 → vpn = other
  only : ∀ vpn < 2 ^ 27, pageMap held.space.pgtbl held.vm vpn ≠ none → UserPage held.space vpn ∨
    (vaUserUserHandlerBegin ≤ vpn * pageSize ∧ vpn * pageSize ≤ vaUserTrapframeBegin)
  reaps : ∃ after, procReapSpace held.space held.vm = .ok after

section
variable {root kstack heapPages stackPages : Nat} {mine : Set Nat} {space : ProcSpace} {vm : Vmem σ}

theorem Laid.userPage_iff (laid : Laid root kstack heapPages stackPages mine space vm) (vpn : Nat) :
    UserPage space vpn ↔ vpn ∈ laidUser heapPages stackPages := by
  have heapAt : vaUserBegin = heapVpn * pageSize := by decide
  have handlerAt : vaUserUserHandlerBegin = handlerVpn * pageSize := by decide
  rw [UserPage, laid.heapVaddr, laid.stackVaddr, heapAt, handlerAt]
  simp only [laidUser, Set.mem_ofPred_eq, pageSize]
  omega

theorem Laid.holds (laid : Laid root kstack heapPages stackPages mine space vm) :
    LayoutHolds ⟨space, vm, mine⟩ := by
  have entryOf : ∀ vpn ∈ laidUser heapPages stackPages, ∀ entry,
      pageMap (frameVa root) vm vpn = some entry → frameOf entry = entry.1 := by
    intro vpn member entry found
    obtain ⟨_, same, bounded, _⟩ := laid.pages.mapped vpn member
    cases found.symm.trans same
    exact Nat.mod_eq_of_lt bounded
  refine ⟨?_, ?_, ?_, ?_⟩
  · intro vpn user
    rw [laid.userPage_iff] at user
    obtain ⟨entry, found, _, isUser⟩ := laid.pages.mapped vpn user
    have isMine := (laid.pages.frames vpn (.inr user) entry found).1.1
    rw [entryOf vpn user entry found] at isMine
    dsimp only
    rw [laid.pgtbl]
    exact ⟨entry, found, isUser, isMine, laid.pages.mineUsed isMine⟩
  · intro vpn other user otherUser entry otherEntry found otherFound same
    rw [laid.userPage_iff] at user otherUser
    dsimp only at found otherFound
    rw [laid.pgtbl] at found otherFound
    rw [← entryOf vpn user entry found, ← entryOf other otherUser otherEntry otherFound] at same
    exact laid.pages.distinct vpn (.inr user) other (.inr otherUser) entry otherEntry found otherFound same
  · intro vpn small mapped
    dsimp only at mapped
    rw [laid.pgtbl] at mapped
    obtain ⟨entry, found⟩ := Option.ne_none_iff_exists'.mp mapped
    rw [laid.userPage_iff, show vaUserUserHandlerBegin = handlerVpn * pageSize by decide,
      show vaUserTrapframeBegin = trapframeVpn * pageSize by decide]
    refine (laid.pages.only vpn small entry found).imp_right fun inside => ?_
    exact ⟨Nat.mul_le_mul_right _ inside.1, Nat.mul_le_mul_right _ inside.2⟩
  · obtain ⟨after, run, _⟩ := laid.reap
    exact ⟨after, run⟩

end

theorem SpaceStep.laid {before after : Held σ} (step : SpaceStep CarefulCall before after)
    (laid : ∃ root kstack heapPages stackPages,
      Laid root kstack heapPages stackPages before.mine before.space before.vm) :
    ∃ root kstack heapPages stackPages,
      Laid root kstack heapPages stackPages after.mine after.space after.vm := by
  obtain ⟨root, kstack, heapPages, stackPages, laid⟩ := laid
  cases step with
  | call ready run => exact ⟨root, kstack, laid.call ready run⟩
  | others elsewhere =>
    exact ⟨root, kstack, heapPages, stackPages, laid.pages.elsewhere (elsewhere root laid.pgtbl),
      laid.pgtbl, laid.kstackVaddr, laid.heapVaddr, laid.stackVaddr, laid.room⟩

theorem create_granted {userHandlerPa spare : Nat} {vm : Vmem σ} (sound : Sound vm.pages)
    (bounded : userHandlerPa < 2 ^ 64) (grants : Grants (21 + spare) vm.pages) (programBreak : Nat) :
    CreateGranted userHandlerPa vm ∧ ∃ space after,
      procCreateSpace userHandlerPa programBreak vm = .ok (space, after) ∧
        space.programBreak = programBreak ∧ Grants spare after.pages := by
  obtain ⟨root, rootPages, rootRun, rest⟩ := (grants.mono (show 20 + spare + 1 ≤ 21 + spare by omega)).next
  have rootGranted := granted_page sound rootRun
  obtain ⟨handler, handlerRun, rest⟩ : ∃ handler, vmMapUserHandler userHandlerPa (frameVa root)
      ⟨memset vm.memory (frameVa root) 0 pageSize, rootPages⟩ = .ok (0, handler) ∧
        Grants (4 + spare) handler.pages := by
    obtain ⟨backed, _, blank⟩ := create_root rootGranted
    rw [vmMapUserHandler_eq]
    refine backed.mapFrom_returns (by decide) bounded (by decide) (fun other _ _ => blank other) (rest.mono ?_)
    rw [show (vaUserUserHandlerSize + 4095) / 4096 = 8 by decide]
    omega
  have handlerMap := create_handler rootGranted bounded handlerRun
  obtain ⟨kstack, kstackPages, kstackRun, rest⟩ := (rest.mono (show 3 + spare + 1 ≤ 4 + spare by omega)).next
  have kstackGranted := granted_page handlerMap.1.backed.sound kstackRun
  obtain ⟨frame, framePages, frameRun, rest⟩ := (rest.mono (show 2 + spare + 1 ≤ 3 + spare by omega)).next
  have frameGranted := granted_page kstackGranted.sound frameRun
  have elsewhere := Building.elsewhere ⟨bounded, rootGranted, handlerRun, kstackGranted, frameGranted⟩
  obtain ⟨after, mapRun, left⟩ : ∃ after, vmMappages (frameVa root) vaUserTrapframeBegin
      (pmaVa2Pa (frameVa frame)) trapframeSize (pteFlagR ||| pteFlagW)
      ⟨trapframeInit handler.memory (frameVa frame) vaUserUserHandlerBegin (frameVa kstack),
        framePages⟩ = .ok (0, after) ∧ Grants spare after.pages := by
    have frameBounded := frameGranted.bounded
    rw [vmMappages_trapframe, pmaVa2Pa_frameVa frameBounded]
    refine (elsewhere.backed handlerMap.1.backed handlerMap.1.backed.used).mapFrom_returns (by decide)
      (by omega) (by decide) ?_ rest
    intro other lower upper
    rw [show (trapframeSize + 4095) / 4096 = 1 by decide] at upper
    have frameAt : trapframeVpn = handlerVpn + 8 := by decide
    have top : trapframeVpn + 1 ≤ 2 ^ 27 := by decide
    rw [elsewhere.pageMap_eq, handlerMap.2.2 other (by omega), if_neg (by omega)]
  have creation : Creation userHandlerPa vm (frameVa root) (frameVa kstack) (frameVa frame) rootPages
      kstackPages framePages handler after :=
    ⟨rootRun, frameVa_ne_zero _, handlerRun, kstackRun, frameVa_ne_zero _, frameRun, frameVa_ne_zero _, mapRun⟩
  exact ⟨⟨_, _, _, _, _, _, _, _, creation⟩, _, _, creation.returns programBreak, rfl, left⟩

variable {vm : Vmem σ}

theorem Laid.heapServed {heapPages stackPages flags : Nat} (laid : Laid root kstack heapPages stackPages mine space vm)
    (room : heapVpn + heapPages + 1 + stackPages ≤ handlerVpn) (small : flags < 1024)
    (grants : Grants 3 vm.pages) : HeapServed 0 flags space vm := by
  obtain ⟨frame, next, alloc, rest⟩ := grants.next
  have granted := granted_page laid.pages.backed.sound alloc
  have backed := laid.pages.backed.allocated alloc
  have top : handlerVpn ≤ 2 ^ 26 := by decide
  have bounded := granted.bounded
  refine ⟨?_, frameVa frame, next, ?_⟩
  · rw [laid.heapVaddr, laid.stackVaddr, Nat.pow_zero, Nat.one_mul]
    unfold pageSize
    omega
  · have map := @Backed.mapFrom_returns _ _ _ _ _ flags 1 (heapVpn + heapPages) (frame * 4096) 0
      backed small (by omega) (by omega) ?_ rest
    · obtain ⟨after, map, _⟩ := map
      refine ⟨after, alloc, frameVa_ne_zero _, ?_⟩
      rw [laid.pgtbl, laid.heapVaddr, vmMappages_eq (by decide) (by unfold pageSize; omega),
        pmaVa2Pa_frameVa bounded]
      exact map
    · intro other lower upper
      obtain rfl : other = heapVpn + heapPages := by omega
      rw [pageMap_pages]
      by_contra mapped
      obtain ⟨entry, found⟩ := Option.ne_none_iff_exists'.mp mapped
      rcases laid.pages.only _ (by omega) entry found with user | kernel
      · simp only [laidUser, Set.mem_ofPred_eq] at user
        omega
      · omega

theorem small_process : ∃ (start vm : Vmem Kmem) (space : ProcSpace) (root kstack : Nat), Sound start.pages ∧
    CreateGranted 0x80200000 start ∧ procCreateSpace 0x80200000 0 start = .ok (space, vm) ∧
    Laid root kstack 0 0 (taken ∅ start.pages vm.pages) space vm ∧ space.programBreak = 0 ∧ Grants 3 vm.pages := by
  obtain ⟨kmem, _, _, _, sound, _, _, clear⟩ := thirty_two_pages_sound
  have grants := sound.grants List.nodup_range' clear (show 21 + 3 ≤ 31 by decide)
  obtain ⟨granted, space, vm, created, break_eq, left⟩ :=
    @create_granted _ _ _ 0x80200000 3 ⟨fun _ => 0, kmem⟩ sound (by decide) grants 0
  obtain ⟨root, kstack, laid⟩ := create_laid sound (by decide) granted created
  exact ⟨_, vm, space, root, kstack, sound, granted, created, laid, break_eq, left⟩

theorem Laid.first_sbrk
    (laid : Laid root kstack 0 0 mine space vm) (unset : space.programBreak = 0) (grants : Grants 3 vm.pages) :
    CarefulCall (.sbrk 0x201000) space vm ∧ ∃ after, spaceCall (.sbrk 0x201000) space vm =
      .ok ({ space with heapVaddr := 0x201000, programBreak := 0x201000 }, after) := by
  have heapAt : space.heapVaddr = 0x200000 := laid.heapVaddr
  have served := laid.heapServed (show heapVpn + 0 + 1 + 0 ≤ handlerVpn by decide)
    (show pteFlagR ||| pteFlagW ||| pteFlagU < 1024 by decide) grants
  have order : expandOrder 0x201000 0x200000 64 0 = .ok 0 := rfl
  constructor
  · simp only [CarefulCall, unset, heapAt]
    refine .inr ⟨by decide, fun _ pageOrder found => .inr ?_⟩
    cases order.symm.trans found
    exact served
  · obtain ⟨_, addr, pages, after, alloc, notNull, map⟩ := served
    refine ⟨after, ?_⟩
    rw [heapAt] at map
    rw [spaceCall, syscallSbrk, unset, heapAt, if_neg (by decide)]
    dsimp only
    rw [if_pos (by decide), show ulong (0 + 0x201000) = 0x201000 from rfl, order, Result.ok_bind, alloc,
      Result.ok_bind]
    dsimp only
    rw [if_neg notNull]
    rw [show expandSize 0 = 2 ^ 0 * pageSize from rfl, map]
    rfl

theorem Laid.shrinking_sbrk
    (laid : Laid root kstack 1 0 mine space vm) (full : space.programBreak = 0x201000) :
    ∃ after, spaceCall (.sbrk (2 ^ 64 - 0x1000)) space vm = .ok ({ space with programBreak := 0x200000 }, after) ∧
      pageMap space.pgtbl after heapVpn = none := by
  have heapAt : space.heapVaddr = 0x201000 := laid.heapVaddr
  obtain ⟨after, run, _, _, map⟩ := @Owning.unmap _ _ _ _ _ _ heapVpn 1 laid.pages.owning (by decide)
    (fun vpn lower upper => .inr (.inl ⟨lower, upper⟩))
  refine ⟨after, ?_, ?_⟩
  · rw [spaceCall, syscallSbrk, full, heapAt, if_neg (by decide)]
    dsimp only
    rw [if_neg (by decide), if_pos (by decide),
      show pageRoundUp (ulong (0x201000 + (2 ^ 64 - 0x1000))) = heapVpn * pageSize by decide,
      show ulongSub (pageRoundDown 0x201000) (heapVpn * pageSize) >>> pageShift = 1 by decide, laid.pgtbl,
      run]
    rfl
  · rw [laid.pgtbl, map heapVpn (by decide)]
    exact if_pos ⟨Nat.le_refl _, Nat.lt_succ_self _⟩

theorem careful_calls_keep_layout {userHandlerPa programBreak : Nat} {start vm : Vmem σ}
    {space : ProcSpace} {held : Held σ} (sound : Sound start.pages)
    (bounded : userHandlerPa < 2 ^ 64) (granted : CreateGranted userHandlerPa start)
    (created : procCreateSpace userHandlerPa programBreak start = .ok (space, vm))
    (run : Relation.ReflTransGen (SpaceStep CarefulCall) ⟨space, vm, taken ∅ start.pages vm.pages⟩ held) :
    LayoutHolds held := by
  obtain ⟨root, kstack, laid⟩ := create_laid sound bounded granted created
  obtain ⟨_, _, _, _, final⟩ := run_preserves _ (fun _ _ laid step => SpaceStep.laid step laid)
    ⟨root, kstack, 0, 0, laid⟩ run
  exact final.holds

theorem careful_calls_keep_layout_first_page :
    ∃ (start vm : Vmem Kmem) (space : ProcSpace) (held : Held Kmem), Sound start.pages ∧
      CreateGranted 0x80200000 start ∧ procCreateSpace 0x80200000 0 start = .ok (space, vm) ∧
      Relation.ReflTransGen (SpaceStep CarefulCall) ⟨space, vm, taken ∅ start.pages vm.pages⟩ held ∧
      held.space.heapVaddr = 0x201000 ∧ LayoutHolds held := by
  obtain ⟨start, vm, space, root, kstack, sound, granted, created, laid, unset, grants⟩ := small_process
  obtain ⟨careful, after, run⟩ := laid.first_sbrk unset grants
  have steps : Relation.ReflTransGen (SpaceStep CarefulCall) ⟨space, vm, taken ∅ start.pages vm.pages⟩ _ :=
    .single (.call careful run)
  exact ⟨start, vm, space, _, sound, granted, created, steps, rfl,
    careful_calls_keep_layout sound (by decide) granted created steps⟩

theorem shrinking_sbrk_breaks_layout :
    ∃ (start vm : Vmem Kmem) (space : ProcSpace) (held : Held Kmem), Sound start.pages ∧
      CreateGranted 0x80200000 start ∧ procCreateSpace 0x80200000 0 start = .ok (space, vm) ∧
      Relation.ReflTransGen (SpaceStep fun _ _ _ => True) ⟨space, vm, taken ∅ start.pages vm.pages⟩ held ∧
      UserPage held.space heapVpn ∧ pageMap held.space.pgtbl held.vm heapVpn = none ∧
      ¬ LayoutHolds held := by
  obtain ⟨start, vm, space, root, kstack, sound, granted, created, laid, unset, grants⟩ := small_process
  obtain ⟨careful, grown, run⟩ := laid.first_sbrk unset grants
  obtain ⟨⟨ret, moved⟩, called, same⟩ := Result.bind_ok run
  cases same
  obtain ⟨heapPages, expanded⟩ := laid.sbrk careful called
  obtain rfl : heapPages = 1 := by
    have heapAt : 0x201000 = (heapVpn + heapPages) * pageSize := expanded.heapVaddr
    have base : heapVpn = 0x200 := by decide
    unfold pageSize at heapAt
    omega
  obtain ⟨after, shrunk, unmapped⟩ := expanded.shrinking_sbrk rfl
  have inHeap : UserPage { space with heapVaddr := 0x201000, programBreak := 0x200000 } heapVpn :=
    .inl (show vaUserBegin ≤ heapVpn * pageSize ∧ heapVpn * pageSize < 0x201000 by decide)
  have first := @SpaceStep.call Kmem _ _ (fun _ _ _ => True)
    ⟨space, vm, taken ∅ start.pages vm.pages⟩ (.sbrk 0x201000) _ _ trivial run
  have second := @SpaceStep.call Kmem _ _ (fun _ _ _ => True)
    ⟨_, grown, taken (taken ∅ start.pages vm.pages) vm.pages grown.pages⟩ (.sbrk (2 ^ 64 - 0x1000)) _ _
    trivial shrunk
  refine ⟨start, vm, space, _, sound, granted, created,
    Relation.ReflTransGen.tail (.single first) second, inHeap, unmapped, ?_⟩
  intro holds
  obtain ⟨entry, found, _⟩ := holds.mapped heapVpn inHeap
  cases unmapped.symm.trans found

end Kalorona.Proc
