import Kalorona.Proc.Teardown

namespace Kalorona.Proc

open Kalorona.Data Kalorona.Utilities Kalorona.Memory

/-! # Page faults of the program

`utrap_handler` answers a load or store fault near the stack by the page below `stack_vaddr`,
whichever page the fault was about.
-/

open LawfulPages (Sound)

variable {σ : Type} [PageAllocator σ]

/-- Loads and stores of the program at this address do not fault. -/
def UserMapped (pgtbl addr : Nat) (vm : Vmem σ) : Prop :=
  ∃ entry, pageMap pgtbl vm (addr / pageSize) = some entry ∧ entry.2 &&& userPageFlags = userPageFlags

def StackTables (space : ProcSpace) (vm : Vmem σ) : Prop :=
  ∃ addr pages entry walked, allocPages 0 vm.pages = .ok (addr, pages) ∧
    vmWalk space.pgtbl (space.stackVaddr - pageSize) true { vm with pages } = .ok (entry, walked) ∧
    entry ≠ 0

variable [LawfulPages σ] {root tval : Nat} {space moved : ProcSpace} {vm after : Vmem σ}

theorem procExtendStack_page {vpn ret : Nat} (backed : Backed root vm)
    (table : space.pgtbl = frameVa root) (small : vpn < 2 ^ 27) (stackAt : space.stackVaddr = (vpn + 1) * pageSize)
    (run : procExtendStack 0 space vm = .ok (ret, moved, after)) :
    (StackTables space vm ∧ ∃ ppn, ∀ other < 2 ^ 27, pageMap (frameVa root) after other =
      if other = vpn then some (ppn, userPageFlags) else pageMap (frameVa root) vm other) ∨
    (¬ StackTables space vm ∧ pageMap (frameVa root) vm vpn = none ∧
      ∀ other < 2 ^ 27, pageMap (frameVa root) after other = pageMap (frameVa root) vm other) := by
  obtain ⟨⟨addr, pages⟩, alloc, run⟩ := Result.bind_ok run
  obtain ⟨⟨code, mapped⟩, map, run⟩ := Result.bind_ok run
  cases run
  have lowered : space.stackVaddr - pageSize = vpn * pageSize := by
    rw [stackAt, Nat.add_mul, Nat.one_mul, Nat.add_sub_cancel]
  have size : ulong (1 <<< (0 + pageShift)) = pageSize := by decide
  have start : ulongSub space.stackVaddr (ulong (1 <<< (0 + pageShift))) = vpn * pageSize := by
    rw [size, ulongSub_of_le (by rw [stackAt]; unfold pageSize; omega)
      (by rw [stackAt]; unfold pageSize; omega), lowered]
  rw [start, size, table, vmMappages_eq (by decide) (by unfold pageSize; omega),
    show (pageSize + 4095) / 4096 = 0 + 1 from rfl, mapFrom] at map
  obtain ⟨⟨entry, walked⟩, walk, map⟩ := Result.bind_ok map
  have backed := backed.allocated alloc
  obtain ⟨within, found, sameMap⟩ := backed.vmWalk_page walk
  dsimp only at map
  rcases found with rfl | place
  · rw [if_pos rfl] at map
    cases map
    refine .inr ⟨?_, ?_, fun other _ => ?_⟩
    · rintro ⟨_, _, _, _, again, walkAgain, notNull⟩
      cases alloc.symm.trans again
      rw [table, lowered, walk] at walkAgain
      cases walkAgain
      exact notNull rfl
    · rw [← pageMap_pages pages]
      exact walk_null_unmapped walk
    · rw [sameMap, pageMap_pages]
  · rw [if_neg place.ne_zero] at map
    split at map
    · cases map
    obtain ⟨_, written⟩ := within.backed.map_page place (show pteFlagR ||| pteFlagW ||| pteFlagU < 1024 by decide)
      (show pmaVa2Pa ret < 2 ^ 64 by rw [pmaVa2Pa_eq]; omega) small
    cases map
    refine .inl ⟨⟨ret, pages, entry, walked, alloc, ?_, place.ne_zero⟩,
      pmaVa2Pa ret / 4096, fun other otherSmall => ?_⟩
    · rw [table, lowered]
      exact walk
    · rw [written other otherSmall, sameMap, pageMap_pages]
      rfl

/-- The handled fault makes progress where the page that it adds is the page of the fault. -/
theorem stackPageFault_progress_iff (backed : Backed root vm) (table : space.pgtbl = frameVa root)
    (bounded : space.stackVaddr < 2 ^ 64) (aligned : space.stackVaddr % pageSize = 0)
    (handled : stackPageFault tval space vm = .ok (some (moved, after))) :
    UserMapped space.pgtbl tval after ↔ tval < space.stackVaddr ∧ StackTables space vm ∨
      space.stackVaddr ≤ tval ∧ UserMapped space.pgtbl tval vm := by
  unfold stackPageFault at handled
  split at handled
  next accepted =>
    obtain ⟨⟨ret, space', vm'⟩, extend, handled⟩ := Result.bind_ok handled
    cases handled
    have threshold : vaUserStackAutoExpandThreshold = 64 := rfl
    have trapframeAt : vaUserTrapframeBegin = 0x3FFFFF8000 := rfl
    rw [threshold, trapframeAt] at accepted
    unfold ulongSub at accepted
    unfold pageSize at aligned
    -- the stack is at least one page above zero, or no address would be near it
    obtain ⟨vpn, stackAt⟩ : ∃ vpn, space.stackVaddr = (vpn + 1) * 4096 := ⟨space.stackVaddr / 4096 - 1, by omega⟩
    have small : vpn < 2 ^ 27 := by omega
    have pageSmall : tval / pageSize < 2 ^ 27 := by unfold pageSize; omega
    unfold UserMapped
    rw [table]
    obtain ⟨tables, ppn, map⟩ | ⟨noTables, unmapped, map⟩ := procExtendStack_page backed table small stackAt extend
    · rw [map _ pageSmall]
      by_cases below : tval < space.stackVaddr
      · rw [if_pos (by unfold pageSize; omega)]
        exact ⟨fun _ => .inl ⟨below, tables⟩, fun _ => ⟨_, rfl, Nat.and_self _⟩⟩
      · rw [if_neg (by unfold pageSize; omega)]
        exact ⟨fun mapped => .inr ⟨Nat.le_of_not_lt below, mapped⟩,
          fun cases => (cases.resolve_left fun both => below both.1).2⟩
    · rw [map _ pageSmall]
      constructor
      · intro mapped
        refine .inr ⟨Nat.le_of_not_lt fun below => ?_, mapped⟩
        obtain ⟨entry, found, _⟩ := mapped
        rw [show tval / pageSize = vpn by unfold pageSize; omega, unmapped] at found
        cases found
      · exact fun cases => (cases.resolve_left fun both => noTables both.2).2
  next => cases handled

theorem Laid.stack_fault {kstack : Nat} {mine : Set Nat} (laid : Laid root kstack 0 0 mine space vm)
    (grants : Grants 3 vm.pages) (lower : vaUserUserHandlerBegin - 64 ≤ tval)
    (upper : tval < vaUserTrapframeBegin) :
    StackTables space vm ∧ ∃ moved after, stackPageFault tval space vm = .ok (some (moved, after)) := by
  have stackAt : space.stackVaddr = vaUserUserHandlerBegin := laid.stackVaddr
  have below : ulongSub vaUserUserHandlerBegin (ulong (1 <<< (0 + pageShift))) =
      (handlerVpn - 1) * pageSize := by decide
  obtain ⟨frame, next, alloc, rest⟩ := grants.next
  have bounded := (granted_page laid.pages.backed.sound alloc).bounded
  have backed := laid.pages.backed.allocated alloc
  have unmapped : pageMap (frameVa root) { vm with pages := next } (handlerVpn - 1) = none := by
    rw [pageMap_pages]
    by_contra mapped
    obtain ⟨entry, found⟩ := Option.ne_none_iff_exists'.mp mapped
    rcases laid.pages.only _ (by decide) entry found with user | kernel
    · rw [laidUser_empty] at user
      exact user
    · exact absurd kernel.1 (by decide)
  constructor
  · have enough : Grants (2 + 0) ({ vm with pages := next } : Vmem σ).pages := rest
    obtain ⟨entry, walked, walk, notNull, _⟩ := walkFrom_returns enough root
    refine ⟨_, _, entry, walked, alloc, ?_, notNull⟩
    rw [laid.pgtbl]
    exact walk
  · obtain ⟨after, map, _⟩ := @Backed.mapFrom_returns _ _ _ _ _ (pteFlagR ||| pteFlagW ||| pteFlagU) 1
      (handlerVpn - 1) (frame * 4096) 0 backed (by decide) (by omega) (by decide)
      (fun other low high => by rw [show other = handlerVpn - 1 by omega]; exact unmapped) rest
    refine ⟨{ space with stackVaddr := (handlerVpn - 1) * pageSize }, after, ?_⟩
    rw [stackPageFault, if_pos ⟨by rw [stackAt]; exact lower, upper⟩, procExtendStack, alloc, Result.ok_bind]
    dsimp only
    rw [stackAt, below, laid.pgtbl, vmMappages_eq (by decide) (by decide), pmaVa2Pa_frameVa bounded]
    rw [show (ulong (1 <<< (0 + pageShift)) + 4095) / 4096 = 1 by decide, map]
    rfl

theorem stackPageFault_progress_iff_first_page :
    ∃ (start vm after : Vmem Kmem) (space moved : ProcSpace), Sound start.pages ∧
      procCreateSpace 0x80200000 0 start = .ok (space, vm) ∧
      stackPageFault (vaUserUserHandlerBegin - 8) space vm = .ok (some (moved, after)) ∧
      UserMapped space.pgtbl (vaUserUserHandlerBegin - 8) after := by
  obtain ⟨start, vm, space, root, kstack, sound, granted, created, laid, _, grants⟩ := small_process
  have stackAt : space.stackVaddr = vaUserUserHandlerBegin := laid.stackVaddr
  obtain ⟨tables, moved, after, handled⟩ := laid.stack_fault grants
    (show vaUserUserHandlerBegin - 64 ≤ vaUserUserHandlerBegin - 8 by decide) (by decide)
  exact ⟨start, vm, after, space, moved, sound, created, handled,
    (stackPageFault_progress_iff laid.pages.backed laid.pgtbl (by rw [stackAt]; decide)
      (by rw [stackAt]; decide) handled).mpr (.inl ⟨by rw [stackAt]; decide, tables⟩)⟩

/-- A load in the handler pages of the kernel faults for ever: each fault adds a page to the stack. -/
theorem handler_fault_repeats : ∃ (start vm after : Vmem Kmem) (space moved : ProcSpace), Sound start.pages ∧
      procCreateSpace 0x80200000 0 start = .ok (space, vm) ∧
      stackPageFault vaUserUserHandlerBegin space vm = .ok (some (moved, after)) ∧
      ¬ UserMapped space.pgtbl vaUserUserHandlerBegin after := by
  obtain ⟨start, vm, space, root, kstack, sound, granted, created, laid, _, grants⟩ := small_process
  have stackAt : space.stackVaddr = vaUserUserHandlerBegin := laid.stackVaddr
  obtain ⟨_, moved, after, handled⟩ := laid.stack_fault grants
    (show vaUserUserHandlerBegin - 64 ≤ vaUserUserHandlerBegin by decide) (by decide)
  refine ⟨start, vm, after, space, moved, sound, created, handled, ?_⟩
  have before : pageMap space.pgtbl vm handlerVpn =
      some (0x80200000 / 4096, pteFlagV ||| (pteFlagR ||| pteFlagX)) := by
    obtain ⟨_, _, _, rfl, made⟩ := create_created sound (by decide) granted created
    exact made.map handlerVpn (by decide)
  have unchanged : pageMap space.pgtbl after handlerVpn = pageMap space.pgtbl vm handlerVpn := by
    rw [stackPageFault, if_pos ⟨by rw [stackAt]; decide, by decide⟩] at handled
    obtain ⟨⟨ret, grown⟩, extend, handled⟩ := Result.bind_ok handled
    cases handled
    rw [laid.pgtbl]
    obtain ⟨_, _, changed⟩ | ⟨_, _, same⟩ := @procExtendStack_page _ _ _ _ _ _ _ _ (handlerVpn - 1) _
      laid.pages.backed laid.pgtbl (by decide) (stackAt.trans (by decide)) extend
    · rw [changed handlerVpn (by decide), if_neg (by decide)]
    · exact same handlerVpn (by decide)
  rintro ⟨entry, found, flags⟩
  rw [show vaUserUserHandlerBegin / pageSize = handlerVpn by decide, unchanged, before] at found
  cases found
  exact absurd flags (by decide)

end Kalorona.Proc
