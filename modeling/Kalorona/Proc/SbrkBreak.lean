import Kalorona.Proc.SbrkRuns
import Kalorona.Proc.Teardown

namespace Kalorona.Proc

open Kalorona.Data Kalorona.Utilities Kalorona.Memory

/-! # Where `sbrk` leaves the break

Only a call that has to grow the heap moves the break and keeps the pages below it; further down it
gives pages back without lowering `heap_vaddr`.
-/

open LawfulPages (Sound managed inUse)

def wantedBreak (delta : BitVec 64) (space : ProcSpace) : Int := space.programBreak + delta.toInt

theorem wantedBreak_zero (space : ProcSpace) : wantedBreak 0 space = space.programBreak := by
  simp [wantedBreak]

theorem delta_signed (delta : BitVec 64) : (delta.toNat < 2 ^ 63 ∧ delta.toInt = delta.toNat) ∨
      (2 ^ 63 ≤ delta.toNat ∧ delta.toNat < 2 ^ 64 ∧ delta.toInt = delta.toNat - 2 ^ 64) := by
  have bounded := delta.isLt
  rw [BitVec.toInt_eq_toNat_cond]
  split <;> omega

section
variable {delta : BitVec 64} {space : ProcSpace}

theorem sbrkBelow_iff (lower : vaUserBegin ≤ space.heapVaddr) (upper : space.heapVaddr < 2 ^ 64) :
    sbrkBelow delta.toNat space ↔ space.heapVaddr + delta.toInt < vaUserBegin := by
  unfold sbrkBelow ulongSub
  have signed := delta_signed delta
  omega

theorem sbrk_target (notBelow : ¬ space.heapVaddr + delta.toInt < vaUserBegin)
    (upper : space.programBreak ≤ space.heapVaddr) (bounded : space.heapVaddr < 2 ^ 38) :
    (0 ≤ wantedBreak delta space → (ulong (space.programBreak + delta.toNat) : Int) = wantedBreak delta space) ∧
    (wantedBreak delta space < 0 → 2 ^ 64 - 2 ^ 38 < ulong (space.programBreak + delta.toNat)) := by
  unfold wantedBreak ulong
  unfold vaUserBegin at notBelow
  rcases delta_signed delta with ⟨small, isInt⟩ | ⟨large, bound, isInt⟩
  · rw [isInt]
    omega
  · rw [isInt] at notBelow ⊢
    omega

end

section
variable {target heapVaddr fuel pageOrder order : Nat}

theorem expandSize_le (pageOrder : Nat) : expandSize pageOrder ≤ 2 ^ 63 := by
  unfold expandSize ulong
  rw [Nat.shiftLeft_eq, show pageSize = 2 ^ 12 by decide, ← Nat.pow_add]
  by_cases small : 12 + pageOrder ≤ 63
  · exact (Nat.mod_le _ _).trans (Nat.pow_le_pow_right (by decide) small)
  · have whole : 2 ^ 64 ∣ 2 ^ (12 + pageOrder) := Nat.pow_dvd_pow 2 (by omega)
    rw [Nat.mod_eq_zero_of_dvd whole]
    exact Nat.zero_le _

theorem expandOrder_ok (found : expandOrder target heapVaddr fuel pageOrder = .ok order) :
    target ≤ ulong (heapVaddr + expandSize order) := by
  induction fuel generalizing pageOrder with
  | zero => cases found
  | succ fuel ih =>
    rw [expandOrder] at found
    split at found
    · exact ih found
    next enough =>
      cases found
      exact Nat.le_of_not_lt enough

theorem expandOrder_wrapped (bounded : heapVaddr < 2 ^ 38) (large : 2 ^ 64 - 2 ^ 38 < target) :
    expandOrder target heapVaddr fuel pageOrder ≠ .ok order := by
  intro found
  have reached := expandOrder_ok found
  have size := expandSize_le order
  rw [ulong_of_lt (by omega)] at reached
  omega

end

section
variable {σ : Type} [PageAllocator σ] [LawfulPages σ] {root kstack : Nat} {vm after : Vmem σ}

theorem mapFrom_missing {flags count vpn pa : Nat} {code : Int} (backed : Backed root vm)
    (flagsSmall : flags < 1024) (paBound : pa < 2 ^ 64) (range : vpn + count ≤ 2 ^ 27)
    (run : mapFrom (frameVa root) flags count (vpn * pageSize) pa vm = .ok (code, after)) (failed : code ≠ 0) :
    ∃ other, vpn ≤ other ∧ other < vpn + count ∧ pageMap (frameVa root) after other = none := by
  obtain ⟨other, before, lower, upper, beforeBacked, walk⟩ :=
    backed.mapFrom_failed flagsSmall paBound range run failed
  obtain ⟨_, _, same⟩ := beforeBacked.vmWalk_page walk
  exact ⟨other, lower, upper, (same other).trans (walk_null_unmapped walk)⟩

omit [LawfulPages σ] in
theorem syscallSbrk_grow {a0 ret : Nat} {space moved : ProcSpace} (notBelow : ¬ sbrkBelow a0 space)
    (above : ulong (space.programBreak + a0) > space.heapVaddr) :
    syscallSbrk a0 space vm = .ok (ret, moved, after) ↔ ∃ pageOrder addr pages,
      expandOrder (ulong (space.programBreak + a0)) space.heapVaddr 64 0 = .ok pageOrder ∧
      allocPages pageOrder vm.pages = .ok (addr, pages) ∧
      ((addr = 0 ∧ ret = space.programBreak ∧ moved = space ∧ after = { vm with pages }) ∨
        (addr ≠ 0 ∧ (∃ code, vmMappages space.pgtbl space.heapVaddr (pmaVa2Pa addr)
          (expandSize pageOrder) (pteFlagR ||| pteFlagW ||| pteFlagU) { vm with pages } = .ok (code, after)) ∧
          ret = ulong (space.programBreak + a0) ∧ moved = { space with
            heapVaddr := ulong (space.heapVaddr + expandSize pageOrder), programBreak := ret })) := by
  unfold sbrkBelow at notBelow
  rw [syscallSbrk, if_neg notBelow]
  dsimp only
  rw [if_pos above]
  constructor
  · intro run
    obtain ⟨pageOrder, found, run⟩ := Result.bind_ok run
    obtain ⟨⟨addr, pages⟩, alloc, run⟩ := Result.bind_ok run
    refine ⟨pageOrder, addr, pages, found, alloc, ?_⟩
    dsimp only at run
    split at run
    next null =>
      cases run
      exact .inl ⟨null, rfl, rfl, rfl⟩
    next notNull =>
      obtain ⟨⟨code, _⟩, map, run⟩ := Result.bind_ok run
      cases run
      exact .inr ⟨notNull, ⟨code, map⟩, rfl, rfl⟩
  · rintro ⟨pageOrder, addr, pages, found, alloc, ⟨rfl, rfl, rfl, rfl⟩ | ⟨notNull, ⟨code, map⟩, rfl, rfl⟩⟩
    · rw [found, Result.ok_bind, alloc]
      rfl
    · rw [found, Result.ok_bind, alloc, Result.ok_bind]
      dsimp only
      rw [if_neg notNull, map]
      rfl

omit [LawfulPages σ] in
theorem syscallSbrk_shrink {a0 ret : Nat} {space moved : ProcSpace} (notBelow : ¬ sbrkBelow a0 space)
    (notAbove : ¬ ulong (space.programBreak + a0) > space.heapVaddr)
    (deep : ulong (space.programBreak + a0) ≤ ulongSub space.heapVaddr pageSize)
    (run : syscallSbrk a0 space vm = .ok (ret, moved, after)) : vmUnmappages space.pgtbl (pageRoundUp ret)
      (ulongSub (pageRoundDown space.heapVaddr) (pageRoundUp ret) >>> pageShift) true vm = .ok after ∧
      ret = ulong (space.programBreak + a0) ∧ moved = { space with programBreak := ret } := by
  unfold sbrkBelow at notBelow
  rw [syscallSbrk, if_neg notBelow] at run
  dsimp only at run
  rw [if_neg notAbove, if_pos deep] at run
  obtain ⟨_, unmap, run⟩ := Result.bind_ok run
  cases run
  exact ⟨unmap, rfl, rfl⟩

omit [LawfulPages σ] in
theorem syscallSbrk_stay {a0 : Nat} {space : ProcSpace} (notBelow : ¬ sbrkBelow a0 space)
    (notAbove : ¬ ulong (space.programBreak + a0) > space.heapVaddr)
    (notDeep : ¬ ulong (space.programBreak + a0) ≤ ulongSub space.heapVaddr pageSize) :
    syscallSbrk a0 space vm = .ok (space.programBreak, space, vm) := by
  unfold sbrkBelow at notBelow
  rw [syscallSbrk, if_neg notBelow]
  dsimp only
  rw [if_neg notAbove, if_neg notDeep]
  rfl

/-- The break has moved by `delta`, over mapped pages. -/
structure BreakMoved (delta : BitVec 64) (space : ProcSpace) (ret : Nat) (moved : ProcSpace)
    (after : Vmem σ) : Prop where
  returned : (ret : Int) = wantedBreak delta space
  programBreak : moved.programBreak = ret
  lower : vaUserBegin ≤ ret
  upper : ret ≤ moved.heapVaddr
  mapped : ∀ vpn, heapVpn ≤ vpn → vpn * pageSize < moved.heapVaddr →
    ∃ entry, pageMap moved.pgtbl after vpn = some entry

/-- The move was refused, and the break is where it was. -/
structure BreakKept (delta : BitVec 64) (space : ProcSpace) (vm : Vmem σ) (ret : Nat)
    (moved : ProcSpace) (after : Vmem σ) : Prop where
  reason : ((space.heapVaddr : Int) < wantedBreak delta space ∧ SbrkRefused delta.toNat space vm) ∨
    wantedBreak delta space < vaUserBegin
  returned : ret = space.programBreak
  programBreak : moved.programBreak = space.programBreak
  heapVaddr : moved.heapVaddr = space.heapVaddr
  pages : ∀ vpn, pageMap moved.pgtbl after vpn = pageMap space.pgtbl vm vpn

def MovesBreak (delta : BitVec 64) (space : ProcSpace) (vm : Vmem σ) : Prop :=
  ∃ ret moved after, syscallSbrk delta.toNat space vm = .ok (ret, moved, after) ∧
    (BreakMoved delta space ret moved after ∨ BreakKept delta space vm ret moved after)

def Grows (delta : BitVec 64) (space : ProcSpace) (vm : Vmem σ) : Prop :=
  ∃ pageOrder addr pages,
    expandOrder (ulong (space.programBreak + delta.toNat)) space.heapVaddr 64 0 = .ok pageOrder ∧
    allocPages pageOrder vm.pages = .ok (addr, pages) ∧
    (addr = 0 ∨ ∃ after, vmMappages space.pgtbl space.heapVaddr (pmaVa2Pa addr) (expandSize pageOrder)
      (pteFlagR ||| pteFlagW ||| pteFlagU) { vm with pages } = .ok (0, after))

def SbrkServes (delta : BitVec 64) (space : ProcSpace) (vm : Vmem σ) : Prop :=
  space.heapVaddr + delta.toInt < vaUserBegin ∨
    ((space.heapVaddr : Int) < wantedBreak delta space ∧ Grows delta space vm) ∨
    (delta = 0 ∧ space.heapVaddr < space.programBreak + pageSize)

section
variable {delta : BitVec 64} {heap : HeapState} {space : ProcSpace} (has : HasHeap root kstack heap space vm)
  (mapped : ∀ vpn, heapVpn ≤ vpn → vpn < heap.top → vpn ∈ heap.pages)
  (lower : vaUserBegin ≤ space.programBreak) (upper : space.programBreak ≤ space.heapVaddr)
include has mapped lower upper

omit mapped lower upper in
theorem HasHeap.heap_bounds : vaUserBegin ≤ space.heapVaddr ∧ space.heapVaddr < 2 ^ 38 := by
  have low := has.low
  have high := has.high
  have first : heapVpn = 512 := by decide
  have last : handlerVpn < 2 ^ 26 := by decide
  rw [has.heapVaddr]
  unfold vaUserBegin pageSize
  omega

omit mapped lower in
theorem HasHeap.sbrk_below (below : space.heapVaddr + delta.toInt < vaUserBegin) : MovesBreak delta space vm := by
  obtain ⟨low, high⟩ := has.heap_bounds
  have isBelow := (sbrkBelow_iff low (by omega)).mpr below
  refine ⟨space.programBreak, space, vm, ?_, .inr ⟨.inr ?_, rfl, rfl, rfl, fun _ => rfl⟩⟩
  · unfold sbrkBelow at isBelow
    rw [syscallSbrk, if_pos isBelow]
    rfl
  · unfold wantedBreak
    omega

omit mapped lower in
/-- A sum that has wrapped around is above the heap, and the search for an order has no end. -/
theorem HasHeap.sbrk_wrapped (notBelow : ¬ space.heapVaddr + delta.toInt < vaUserBegin)
    (negative : wantedBreak delta space < 0) : ¬ MovesBreak delta space vm := by
  obtain ⟨low, high⟩ := has.heap_bounds
  have large := (sbrk_target notBelow upper high).2 negative
  rintro ⟨ret, moved, after, run, _⟩
  rw [← sbrkBelow_iff low (by omega)] at notBelow
  obtain ⟨pageOrder, _, _, found, _⟩ := (syscallSbrk_grow notBelow (by omega)).mp run
  exact expandOrder_wrapped high large found

omit lower upper in
theorem HasHeap.grown_mapped {pageOrder addr : Nat} {pages : σ} {code : Int}
    (alloc : allocPages pageOrder vm.pages = .ok (addr, pages)) (notNull : addr ≠ 0)
    (map : vmMappages space.pgtbl space.heapVaddr (pmaVa2Pa addr) (expandSize pageOrder)
      (pteFlagR ||| pteFlagW ||| pteFlagU) { vm with pages } = .ok (code, after)) :
    ulong (space.heapVaddr + expandSize pageOrder) = (heap.top + 2 ^ pageOrder) * pageSize ∧
      (code = 0 ↔ ∀ vpn, heapVpn ≤ vpn → vpn < heap.top + 2 ^ pageOrder →
        ∃ entry, pageMap (frameVa root) after vpn = some entry) := by
  have order := granted_order has.laid.backed.sound alloc notNull
  have small : 2 ^ pageOrder ≤ 2 ^ 26 := Nat.pow_le_pow_right (by decide) order
  have low := has.low
  have high := has.high
  have last : handlerVpn < 2 ^ 26 := by decide
  have backed := has.laid.backed.allocated alloc
  rw [has.pgtbl, has.heapVaddr, expandSize_eq order, vmMappages_pages (Nat.two_pow_pos _) (by omega)] at map
  refine ⟨has.expanded order, fun zero vpn atLeast below => ?_, fun all => ?_⟩
  · have grown := (backed.mapFrom (by decide) (pmaVa2Pa_lt _) (by omega) map).2 zero vpn (by omega)
    by_cases old : vpn < heap.top
    · rw [if_neg (by omega)] at grown
      obtain ⟨entry, found, _⟩ := has.laid.mapped vpn (mapped vpn atLeast old)
      exact ⟨entry, grown.trans ((pageMap_pages pages vpn).trans found)⟩
    · rw [if_pos (by omega)] at grown
      exact ⟨_, grown⟩
  · by_contra failed
    obtain ⟨vpn, atLeast, below, missing⟩ :=
      mapFrom_missing backed (by decide) (pmaVa2Pa_lt _) (by omega) map failed
    obtain ⟨entry, found⟩ := all vpn (by omega) below
    cases missing.symm.trans found

omit lower in
theorem HasHeap.sbrk_grow (above : (space.heapVaddr : Int) < wantedBreak delta space) :
    MovesBreak delta space vm ↔ Grows delta space vm := by
  obtain ⟨low, high⟩ := has.heap_bounds
  have notBelow : ¬ space.heapVaddr + delta.toInt < vaUserBegin := by
    unfold wantedBreak at above
    omega
  have target := (sbrk_target notBelow upper high).1 (by omega)
  rw [← sbrkBelow_iff low (by omega)] at notBelow
  have grows : ulong (space.programBreak + delta.toNat) > space.heapVaddr := by omega
  have page : 0 < pageSize := by decide
  constructor
  · rintro ⟨ret, moved, after, run, outcome⟩
    obtain ⟨pageOrder, addr, pages, found, alloc, kept⟩ := (syscallSbrk_grow notBelow grows).mp run
    refine ⟨pageOrder, addr, pages, found, alloc, ?_⟩
    rcases kept with ⟨null, _⟩ | ⟨notNull, ⟨code, map⟩, rfl, rfl⟩
    · exact .inl null
    · obtain ⟨newEnd, complete⟩ := has.grown_mapped mapped alloc notNull map
      rcases outcome with isMoved | isKept
      · have zero := complete.mpr fun vpn atLeast below => by
          rw [← has.pgtbl]
          refine isMoved.mapped vpn atLeast ?_
          show vpn * pageSize < ulong (space.heapVaddr + expandSize pageOrder)
          rw [newEnd]
          exact Nat.mul_lt_mul_of_pos_right below page
        exact .inr ⟨after, zero ▸ map⟩
      · have same := isKept.returned
        omega
  · rintro ⟨pageOrder, addr, pages, found, alloc, outcome⟩
    by_cases null : addr = 0
    · subst null
      refine ⟨_, _, _, (syscallSbrk_grow notBelow grows).mpr
        ⟨pageOrder, 0, pages, found, alloc, .inl ⟨rfl, rfl, rfl, rfl⟩⟩, .inr ?_⟩
      refine ⟨.inl ⟨above, pageOrder, pages, found, alloc⟩, rfl, rfl, rfl, fun vpn => ?_⟩
      rw [has.pgtbl, pageMap_pages]
    · obtain ⟨after, map⟩ := outcome.resolve_left null
      obtain ⟨newEnd, complete⟩ := has.grown_mapped mapped alloc null map
      refine ⟨_, _, after, (syscallSbrk_grow notBelow grows).mpr
        ⟨pageOrder, addr, pages, found, alloc, .inr ⟨null, ⟨0, map⟩, rfl, rfl⟩⟩, .inl ?_⟩
      refine ⟨target, rfl, by omega, expandOrder_ok found, fun vpn atLeast below => ?_⟩
      dsimp only at below ⊢
      rw [newEnd] at below
      rw [has.pgtbl]
      exact complete.mp rfl vpn atLeast (Nat.lt_of_mul_lt_mul_right below)

section
variable (notBelow : ¬ space.heapVaddr + delta.toInt < vaUserBegin)
include notBelow

theorem HasHeap.sbrk_shrink (positive : 0 ≤ wantedBreak delta space)
    (deep : wantedBreak delta space + pageSize ≤ space.heapVaddr) : ¬ MovesBreak delta space vm := by
  obtain ⟨low, high⟩ := has.heap_bounds
  have target := (sbrk_target notBelow upper high).1 positive
  rw [← sbrkBelow_iff low (by omega)] at notBelow
  rintro ⟨ret, moved, after, run, outcome⟩
  obtain ⟨unmap, isTarget, rfl⟩ := syscallSbrk_shrink notBelow
    (by unfold pageSize at deep; omega) (by unfold ulongSub pageSize at *; omega) run
  rw [← isTarget] at target
  have sameTarget : heap.target delta.toNat = ret := by
    rw [HeapState.target, ← has.programBreak, isTarget]
  have inside : heap.target delta.toNat ≤ ulongSub (heap.top * pageSize) pageSize := by
    rw [sameTarget, ← has.heapVaddr]
    unfold ulongSub pageSize at *
    omega
  -- the break is at an address of the heap
  have atLeast : vaUserBegin ≤ ret := by
    rcases outcome with isMoved | isKept
    · exact isMoved.lower
    · exact isKept.returned ▸ lower
  obtain ⟨_, newEnd, count⟩ := has.gone_bounds inside
  have firstGone : heap.firstGone delta.toNat = (ret + 4095) / 4096 := by
    rw [HeapState.firstGone, sameTarget]
  have first : heapVpn = 512 := by decide
  have vaddr := has.heapVaddr
  have goneInside : heapVpn ≤ heap.firstGone delta.toNat ∧ heap.firstGone delta.toNat < heap.top := by
    unfold pageSize vaUserBegin at *
    omega
  obtain ⟨again, run', shrunk⟩ := has.shrink inside fun vpn atFirst below =>
    mapped vpn (goneInside.1.trans atFirst) below
  rw [has.pgtbl, has.heapVaddr, ← sameTarget, newEnd, count] at unmap
  cases run'.symm.trans unmap
  have gone := shrunk.unmapped (goneInside.2.trans_le has.high) (fun stays => stays.2 ⟨Nat.le_refl _, goneInside.2⟩)
  rcases outcome with isMoved | isKept
  · obtain ⟨entry, found⟩ := isMoved.mapped (heap.firstGone delta.toNat) goneInside.1 (by
      show _ < space.heapVaddr
      rw [has.heapVaddr]
      exact Nat.mul_lt_mul_of_pos_right goneInside.2 (by decide))
    rw [show space.pgtbl = frameVa root from has.pgtbl, gone] at found
    cases found
  · obtain ⟨entry, found, _⟩ := has.laid.mapped _ (mapped _ goneInside.1 goneInside.2)
    have same := isKept.pages (heap.firstGone delta.toNat)
    rw [show space.pgtbl = frameVa root from has.pgtbl, gone, found] at same
    cases same

section
variable (notAbove : wantedBreak delta space ≤ space.heapVaddr)
  (near : (space.heapVaddr : Int) < wantedBreak delta space + pageSize)
include notAbove near

omit mapped lower in
theorem HasHeap.sbrk_unmoved : syscallSbrk delta.toNat space vm = .ok (space.programBreak, space, vm) := by
  obtain ⟨low, high⟩ := has.heap_bounds
  have target := (sbrk_target notBelow upper high).1 (by unfold pageSize vaUserBegin at *; omega)
  rw [← sbrkBelow_iff low (by omega)] at notBelow
  exact syscallSbrk_stay notBelow (by omega) (by unfold ulongSub pageSize vaUserBegin at *; omega)

theorem HasHeap.sbrk_stay : MovesBreak delta space vm ↔ delta = 0 := by
  have stays := has.sbrk_unmoved upper notBelow notAbove near
  constructor
  · rintro ⟨ret, moved, after, run, outcome⟩
    cases stays.symm.trans run
    rcases outcome with isMoved | isKept
    · have same := isMoved.returned
      unfold wantedBreak at same
      have none : delta.toInt = (0 : BitVec 64).toInt := by
        rw [show (0 : BitVec 64).toInt = 0 from rfl]
        omega
      exact BitVec.eq_of_toInt_eq none
    · have vaddr := has.heapVaddr
      have reason := isKept.reason
      unfold wantedBreak vaUserBegin pageSize at *
      omega
  · rintro rfl
    refine ⟨_, _, _, stays, .inl ⟨?_, rfl, lower, upper, fun vpn atLeast below => ?_⟩⟩
    · rw [wantedBreak_zero]
    · rw [has.heapVaddr] at below
      obtain ⟨entry, found, _⟩ := has.laid.mapped vpn (mapped vpn atLeast (Nat.lt_of_mul_lt_mul_right below))
      exact ⟨entry, has.pgtbl ▸ found⟩

end

end

theorem sbrk_moves_break_iff : MovesBreak delta space vm ↔ SbrkServes delta space vm := by
  unfold SbrkServes
  by_cases below : space.heapVaddr + delta.toInt < vaUserBegin
  · exact iff_of_true (has.sbrk_below upper below) (.inl below)
  rw [or_iff_right below]
  by_cases above : (space.heapVaddr : Int) < wantedBreak delta space
  · rw [has.sbrk_grow mapped upper above]
    refine ⟨fun grows => .inl ⟨above, grows⟩, fun either => ?_⟩
    rcases either with ⟨_, grows⟩ | ⟨rfl, _⟩
    · exact grows
    · rw [wantedBreak_zero] at above
      omega
  rw [or_iff_right fun both => above both.1]
  by_cases near : (space.heapVaddr : Int) < wantedBreak delta space + pageSize
  · rw [has.sbrk_stay mapped lower upper below (by omega) near]
    refine ⟨fun zero => ⟨zero, ?_⟩, fun both => both.1⟩
    subst zero
    rw [wantedBreak_zero] at near
    omega
  refine iff_of_false ?_ ?_
  · by_cases negative : wantedBreak delta space < 0
    · exact has.sbrk_wrapped upper below negative
    · exact has.sbrk_shrink mapped lower upper below (by omega) (by omega)
  · rintro ⟨rfl, close⟩
    rw [wantedBreak_zero] at near
    omega

end

end

theorem first_sixteen_bytes : ∃ (vm grown : Vmem Kmem) (space moved : ProcSpace) (root kstack : Nat)
    (pages : Set Nat), HasHeap root kstack ⟨pages, 512, 0x200000⟩ space vm ∧
      Grows 16 space vm ∧ syscallSbrk 16 space vm = .ok (0x200010, moved, grown) ∧
      HasHeap root kstack ⟨pages ∪ { vpn | 512 ≤ vpn ∧ vpn < 513 }, 513, 0x200010⟩ moved grown := by
  obtain ⟨start, vm, space, root, kstack, _, _, _, laid, _, grants⟩ := small_process
  let fresh : ProcSpace := { space with programBreak := 0x200000 }
  have laid : Laid root kstack 0 0 (taken ∅ start.pages vm.pages) fresh vm :=
    ⟨laid.pages, laid.pgtbl, laid.kstackVaddr, laid.heapVaddr, laid.stackVaddr, laid.room⟩
  have has : HasHeap root kstack ⟨laidUser 0 0, 512, 0x200000⟩ fresh vm := laid.hasHeap
  have found : expandOrder (ulong (0x200000 + 16)) 0x200000 64 0 = .ok 0 := rfl
  have heapAt : fresh.heapVaddr = 0x200000 := laid.heapVaddr.trans (by decide)
  obtain ⟨addr, pages, alloc, left⟩ := grants.next
  have notNull : frameVa addr ≠ 0 := frameVa_ne_zero addr
  have fed : SbrkFed 16 fresh vm := by
    intro _ _ pageOrder search
    rw [heapAt] at search
    cases found.symm.trans search
    exact ⟨_, pages, alloc, notNull, left⟩
  have free : ∀ vpn, 512 ≤ vpn → vpn < 513 → vpn ∉ laidUser 0 0 := by
    rw [laidUser_empty]
    exact fun _ _ _ => Set.notMem_empty _
  have room : 512 + 2 ^ 0 ≤ handlerVpn := by decide
  obtain ⟨after, map, _⟩ := @HasHeap.grow _ _ _ _ _ 16 _ _ _ has _ _ _ room free alloc notNull left
  have notBelow : ¬ (HeapState.mk (laidUser 0 0) 512 0x200000).Below 16 := fun below =>
    absurd below.1 (by decide)
  have above : ulong (0x200000 + 16) > 512 * pageSize := by decide
  obtain ⟨moved, grown, run, grownHeap⟩ := has.returns fed (.grow notBelow above found room free)
  refine ⟨vm, grown, fresh, moved, root, kstack, _, has, ?_, run, grownHeap⟩
  exact ⟨0, _, pages, by rw [heapAt]; exact found, alloc, .inr ⟨after, map⟩⟩

theorem sbrk_moves_break_iff_sixteen_bytes :
    ∃ (vm : Vmem Kmem) (space : ProcSpace), space.programBreak = 0x200000 ∧ space.heapVaddr = 0x200000 ∧
      MovesBreak 16 space vm := by
  obtain ⟨vm, _, space, _, root, kstack, pages, has, grows, _⟩ := first_sixteen_bytes
  have breakAt : space.programBreak = 0x200000 := has.programBreak
  have heapAt : space.heapVaddr = 0x200000 := has.heapVaddr.trans (show 512 * pageSize = _ by decide)
  refine ⟨vm, space, breakAt, heapAt, (sbrk_moves_break_iff has ?_ ?_ ?_).mpr (.inr (.inl ⟨?_, grows⟩))⟩
  · intro vpn atLeast below
    exact absurd below (Nat.not_lt_of_le atLeast)
  · rw [breakAt]
    decide
  · rw [breakAt, heapAt]
  · rw [wantedBreak, breakAt, heapAt]
    decide

/-- The next eight bytes are in the page that the heap has, and the break does not move. -/
theorem sbrk_ignores_eight_bytes : ∃ (vm : Vmem Kmem) (space : ProcSpace) (root kstack : Nat) (heap : HeapState),
      HasHeap root kstack heap space vm ∧ (∀ vpn, heapVpn ≤ vpn → vpn < heap.top → vpn ∈ heap.pages) ∧
      space.programBreak = 0x200010 ∧ space.heapVaddr = 0x201000 ∧
      syscallSbrk 8 space vm = .ok (0x200010, space, vm) ∧ ¬ MovesBreak 8 space vm := by
  obtain ⟨_, vm, _, space, root, kstack, pages, _, _, _, has⟩ := first_sixteen_bytes
  have breakAt : space.programBreak = 0x200010 := has.programBreak
  have heapAt : space.heapVaddr = 0x201000 := has.heapVaddr.trans (show 513 * pageSize = _ by decide)
  have mapped : ∀ vpn, heapVpn ≤ vpn → vpn < 513 → vpn ∈ pages ∪ { vpn | 512 ≤ vpn ∧ vpn < 513 } :=
    fun vpn atLeast below => .inr ⟨atLeast, below⟩
  have notBelow : ¬ space.heapVaddr + (8 : BitVec 64).toInt < vaUserBegin := by
    rw [heapAt]
    decide
  have notAbove : wantedBreak 8 space ≤ space.heapVaddr := by
    rw [wantedBreak, breakAt, heapAt]
    decide
  have near : (space.heapVaddr : Int) < wantedBreak 8 space + pageSize := by
    rw [wantedBreak, breakAt, heapAt]
    decide
  have lower : vaUserBegin ≤ space.programBreak := by
    rw [breakAt]
    decide
  have upper : space.programBreak ≤ space.heapVaddr := by
    rw [breakAt, heapAt]
    decide
  have stays := has.sbrk_unmoved upper notBelow notAbove near
  rw [breakAt] at stays
  refine ⟨vm, space, root, kstack, _, has, mapped, breakAt, heapAt, stays, fun moves => ?_⟩
  have none := (has.sbrk_stay mapped lower upper notBelow notAbove near).mp moves
  exact absurd none (by decide)

end Kalorona.Proc
