import Kalorona.Proc.LayoutRuns

namespace Kalorona.Proc

open Kalorona.Data Kalorona.Utilities Kalorona.Memory

/-! # What a sequence of `sbrk` calls returns

A heap as `syscall_sbrk` sees it is the set of user pages that are mapped, the end of the heap
and the program break.
-/

open LawfulPages (Sound managed inUse)

section
variable {σ : Type} [PageAllocator σ] [LawfulPages σ] {root kstack : Nat} {user mine : Set Nat} {vm after : Vmem σ}

theorem mapFrom_unmapped {flags count vpn pa : Nat} {code : Int} (backed : Backed root vm)
    (flagsSmall : flags < 1024) (paBound : pa < 2 ^ 64) (grants : Grants (2 * count) vm.pages)
    (run : mapFrom (frameVa root) flags count (vpn * pageSize) pa vm = .ok (code, after))
    {other : Nat} (lower : vpn ≤ other) (upper : other < vpn + count) (small : other < 2 ^ 27) :
    pageMap (frameVa root) vm other = none := by
  induction count generalizing vpn pa vm with
  | zero => omega
  | succ count ih =>
    have enough : Grants (2 + 2 * count) vm.pages := grants.mono (by omega)
    obtain ⟨entry, walked, walk, notNull, rest⟩ := walkFrom_returns enough root
    have walk : vmWalk (frameVa root) (vpn * pageSize) true vm = .ok (entry, walked) := walk
    obtain ⟨_, _, again, _, _, round⟩ := backed.mapFrom_round flagsSmall paBound (by omega) run
    cases walk.symm.trans again
    obtain ⟨_, unmapped, writeWithin, written, run⟩ := round.resolve_left fun refused => notNull refused.1
    by_cases first : other = vpn
    · rw [first]
      exact unmapped
    · have empty := ih writeWithin.backed (ulong_lt (pa + pageSize)) rest run (by omega) (by omega)
      rwa [written other small, if_neg first] at empty

omit [LawfulPages σ] in
theorem unmapFrom_succ (pgtbl count va : Nat) (doFree : Bool) (vm : Vmem σ) :
    unmapFrom pgtbl doFree (count + 1) va vm =
      unmapFrom pgtbl doFree 1 va vm >>= unmapFrom pgtbl doFree count (ulong (va + pageSize)) := by
  simp only [unmapFrom]
  cases vmWalk pgtbl va false vm with
  | error stop => rfl
  | ok walked =>
    simp only [Result.ok_bind]
    split
    · rfl
    · cases doFree with
      | false => rfl
      | true =>
        simp only [if_true]
        cases freePage _ walked.2.pages with
        | error stop => rfl
        | ok pages => rfl

omit [LawfulPages σ] in
theorem unmapFrom_unmapped {count vpn : Nat} {doFree : Bool} (unmapped : pageMap (frameVa root) vm vpn = none) :
    unmapFrom (frameVa root) doFree (count + 1) (vpn * pageSize) vm ≠ .ok after := by
  intro run
  rw [pageMap, vmWalk_find] at unmapped
  rw [unmapFrom, vmWalk_find, Result.ok_bind] at run
  dsimp only at unmapped run
  rw [if_pos] at run
  · cases run
  · by_contra mapped
    rw [not_or, not_or] at mapped
    rw [if_pos ⟨mapped.1, mapped.2.1⟩] at unmapped
    cases unmapped

theorem Owning.unmap_inside {pages : Set Nat} {lo count : Nat} (owning : Owning root pages vm)
    (range : lo + count ≤ 2 ^ 27)
    (only : ∀ vpn, lo ≤ vpn → vpn < lo + count → ∀ entry, pageMap (frameVa root) vm vpn = some entry → vpn ∈ pages)
    (run : unmapFrom (frameVa root) true count (lo * pageSize) vm = .ok after) {vpn : Nat}
    (lower : lo ≤ vpn) (upper : vpn < lo + count) : vpn ∈ pages := by
  induction count generalizing lo vm pages with
  | zero => omega
  | succ count ih =>
    have first : lo ∈ pages := by
      by_contra outside
      refine unmapFrom_unmapped (Option.eq_none_iff_forall_ne_some.mpr fun entry found => ?_) run
      exact outside (only lo (Nat.le_refl _) (by omega) entry found)
    by_cases same : vpn = lo
    · exact same ▸ first
    obtain ⟨middle, step, _, rest, map⟩ := @Owning.unmap _ _ _ _ _ _ lo 1 owning (by omega)
      (fun other atLeast below => by rwa [show other = lo by omega])
    rw [vmUnmappages_eq (by omega)] at step
    rw [unmapFrom_succ, step, Result.ok_bind, next_page (by omega)] at run
    refine (ih rest (by omega) ?_ run (by omega) (by omega)).1
    intro other otherLower otherUpper entry found
    rw [map other (by omega), if_neg (by omega)] at found
    exact ⟨only other (by omega) (by omega) entry found, by
      simp only [Set.mem_ofPred_eq]
      omega⟩

theorem LaidPages.remove {lo count : Nat} (laid : LaidPages root kstack user mine vm)
    (inside : ∀ vpn, lo ≤ vpn → vpn < lo + count → vpn ∈ user) (range : lo + count ≤ 2 ^ 27) :
    ∃ after, vmUnmappages (frameVa root) (lo * pageSize) count true vm = .ok after ∧
      LaidPages root kstack (user \ { vpn | lo ≤ vpn ∧ vpn < lo + count })
        (mine \ mappedFrames root vm lo (lo + count)) after := by
  obtain ⟨after, run, cleared, _, map⟩ := laid.owning.unmap range
    (fun vpn lower upper => .inr (inside vpn lower upper))
  have nodes := cleared.tables_eq
  have outside : ∀ vpn, vpn ∉ user → ¬ (lo ≤ vpn ∧ vpn < lo + count) :=
    fun vpn notUser bounds => notUser (inside vpn bounds.1 bounds.2)
  have kept : ∀ vpn < 2 ^ 27, ¬ (lo ≤ vpn ∧ vpn < lo + count) →
      pageMap (frameVa root) after vpn = pageMap (frameVa root) vm vpn :=
    fun vpn small beyond => by rw [map vpn small, if_neg beyond]
  have high : ∀ vpn, handlerVpn ≤ vpn → vpn ∉ user :=
    fun vpn lower member => Nat.not_lt.mpr lower (laid.low vpn member)
  have rest : ∀ vpn ∈ insert trapframeVpn (user \ { vpn | lo ≤ vpn ∧ vpn < lo + count }),
      vpn ∈ insert trapframeVpn user ∧ pageMap (frameVa root) after vpn = pageMap (frameVa root) vm vpn := by
    rintro vpn (rfl | ⟨member, beyond⟩)
    · exact ⟨.inl rfl, kept _ (by decide) (outside _ (high _ (by decide)))⟩
    · exact ⟨.inr member, kept vpn (laid.bounded (.inr member)) beyond⟩
  -- the frames that were freed are those of the range
  have spared : ∀ frame, frame ∈ insert kstack (tables root vm) → frame ∉ mappedFrames root vm lo (lo + count) := by
    rintro frame member ⟨vpn, entry, lower, upper, found, rfl⟩
    exact (laid.frames vpn (.inr (inside vpn lower upper)) entry found).2 member
  refine ⟨after, run, cleared.backed, ?_, ?_, ?_, ?_, ?_, fun vpn member => laid.low vpn member.1, ?_, ?_, ?_, ?_, ?_⟩
  · rw [cleared.sameManaged]
    exact laid.rootManaged
  · rw [cleared.released]
    exact Set.sdiff_subset_sdiff_left laid.mineUsed
  · rw [nodes]
    exact fun table member => ⟨laid.tablesMine member, spared table (.inr member)⟩
  · rw [cleared.sameManaged]
    exact ⟨⟨laid.kstackMine.1, spared kstack (.inl rfl)⟩, laid.kstackMine.2⟩
  · rw [nodes]
    exact laid.kstackApart
  · intro vpn member
    rw [(rest vpn (.inr member)).2]
    exact laid.mapped vpn member.1
  · intro vpn lower upper
    have top : trapframeVpn < 2 ^ 27 := by decide
    rw [kept vpn (by omega) (outside vpn (high vpn lower))]
    exact laid.kernel vpn lower upper
  · intro vpn small entry found
    rw [map vpn small] at found
    split at found
    · cases found
    next beyond => exact (laid.only vpn small entry found).imp_left fun member => ⟨member, beyond⟩
  · intro vpn member entry found
    obtain ⟨old, same⟩ := rest vpn member
    rw [same] at found
    obtain ⟨⟨isMine, isManaged⟩, apart⟩ := laid.frames vpn old entry found
    rw [nodes, cleared.sameManaged]
    refine ⟨⟨⟨isMine, ?_⟩, isManaged⟩, apart⟩
    rintro ⟨other, otherEntry, lower, upper, otherFound, equal⟩
    obtain rfl := laid.distinct vpn old other (.inr (inside other lower upper)) entry otherEntry found
      otherFound equal
    rcases member with rfl | member
    · exact outside _ (high _ (by decide)) ⟨lower, upper⟩
    · exact member.2 ⟨lower, upper⟩
  · intro vpn member other otherMember entry otherEntry found otherFound
    obtain ⟨old, same⟩ := rest vpn member
    obtain ⟨otherOld, otherSame⟩ := rest other otherMember
    rw [same] at found
    rw [otherSame] at otherFound
    exact laid.distinct vpn old other otherOld entry otherEntry found otherFound

def ownFrames (root kstack : Nat) (vm : Vmem σ) : Set Nat :=
  insert kstack (tables root vm) ∪ { frame | ∃ vpn entry, (vpn < handlerVpn ∨ vpn = trapframeVpn) ∧
    pageMap (frameVa root) vm vpn = some entry ∧ frame = frameOf entry }

theorem LaidPages.own (laid : LaidPages root kstack user mine vm) :
    LaidPages root kstack user (ownFrames root kstack vm) vm := by
  have high : handlerVpn < 2 ^ 27 := by decide
  refine { laid with mineUsed := ?_, tablesMine := ?_, kstackMine := ?_, frames := ?_ }
  · rintro frame ((rfl | isTable) | ⟨vpn, entry, place, found, rfl⟩)
    · exact laid.mineUsed laid.kstackMine.1
    · exact laid.backed.used isTable
    · have owned : vpn ∈ insert trapframeVpn user := by
        rcases place with below | rfl
        · refine .inr ((laid.only vpn (by omega) entry found).resolve_right ?_)
          omega
        · exact .inl rfl
      exact laid.mineUsed (laid.frames vpn owned entry found).1.1
  · exact fun table member => .inl (.inr member)
  · exact ⟨.inl (.inl rfl), laid.kstackMine.2⟩
  · intro vpn member entry found
    obtain ⟨⟨_, isManaged⟩, apart⟩ := laid.frames vpn member entry found
    refine ⟨⟨.inr ⟨vpn, entry, ?_, found, rfl⟩, isManaged⟩, apart⟩
    rcases member with rfl | isUser
    · exact .inr rfl
    · exact .inl (laid.low vpn isUser)

end

/-- The user pages that are mapped, the page at the end of the heap, and the program break. -/
structure HeapState where
  pages : Set Nat
  top : Nat
  programBreak : Nat

namespace HeapState

def target (heap : HeapState) (a0 : Nat) : Nat := ulong (heap.programBreak + a0)

def Below (heap : HeapState) (a0 : Nat) : Prop :=
  a0 ≥ 2 ^ 63 ∧ ulongSub (heap.top * pageSize) vaUserBegin < ulongSub 0 a0

def grown (heap : HeapState) (a0 pageOrder : Nat) : HeapState where
  pages := heap.pages ∪ { vpn | heap.top ≤ vpn ∧ vpn < heap.top + 2 ^ pageOrder }
  top := heap.top + 2 ^ pageOrder
  programBreak := heap.target a0

def firstGone (heap : HeapState) (a0 : Nat) : Nat := (heap.target a0 + 4095) / 4096

def shrunk (heap : HeapState) (a0 : Nat) : HeapState where
  pages := heap.pages \ { vpn | heap.firstGone a0 ≤ vpn ∧ vpn < heap.top }
  top := heap.top
  programBreak := heap.target a0

/-- What one `sbrk` returns and does to the heap. -/
inductive Move (a0 : Nat) (heap : HeapState) : Nat → HeapState → Prop
  | below (isBelow : heap.Below a0) : Move a0 heap heap.programBreak heap
  | grow {pageOrder : Nat} (notBelow : ¬ heap.Below a0) (above : heap.target a0 > heap.top * pageSize)
      (found : expandOrder (heap.target a0) (heap.top * pageSize) 64 0 = .ok pageOrder)
      (room : heap.top + 2 ^ pageOrder ≤ handlerVpn)
      (free : ∀ vpn, heap.top ≤ vpn → vpn < heap.top + 2 ^ pageOrder → vpn ∉ heap.pages) :
      Move a0 heap (heap.target a0) (heap.grown a0 pageOrder)
  | shrink (notBelow : ¬ heap.Below a0) (notAbove : ¬ heap.target a0 > heap.top * pageSize)
      (lower : heap.target a0 ≤ ulongSub (heap.top * pageSize) pageSize)
      (mapped : ∀ vpn, heap.firstGone a0 ≤ vpn → vpn < heap.top → vpn ∈ heap.pages) :
      Move a0 heap (heap.target a0) (heap.shrunk a0)
  | stay (notBelow : ¬ heap.Below a0) (notAbove : ¬ heap.target a0 > heap.top * pageSize)
      (notLower : ¬ heap.target a0 ≤ ulongSub (heap.top * pageSize) pageSize) :
      Move a0 heap heap.programBreak heap

inductive Calls : HeapState → List (Nat × Nat) → Prop
  | nil (heap : HeapState) : Calls heap []
  | call {heap next : HeapState} {a0 ret : Nat} {calls : List (Nat × Nat)}
      (move : Move a0 heap ret next) (rest : Calls next calls) : Calls heap ((a0, ret) :: calls)

end HeapState

section
variable {σ : Type} [PageAllocator σ] [LawfulPages σ] {root kstack a0 ret : Nat} {heap next : HeapState}
  {space moved : ProcSpace} {vm after : Vmem σ}

/-- The process has the pages and the break of `heap`. -/
structure HasHeap (root kstack : Nat) (heap : HeapState) (space : ProcSpace) (vm : Vmem σ) : Prop where
  laid : LaidPages root kstack heap.pages (ownFrames root kstack vm) vm
  pgtbl : space.pgtbl = frameVa root
  heapVaddr : space.heapVaddr = heap.top * pageSize
  programBreak : space.programBreak = heap.programBreak
  low : heapVpn ≤ heap.top
  high : heap.top ≤ handlerVpn

def SbrkFed (a0 : Nat) (space : ProcSpace) (vm : Vmem σ) : Prop :=
  ¬ sbrkBelow a0 space → ulong (space.programBreak + a0) > space.heapVaddr → ∀ pageOrder,
    expandOrder (ulong (space.programBreak + a0)) space.heapVaddr 64 0 = .ok pageOrder →
    ∃ addr pages, allocPages pageOrder vm.pages = .ok (addr, pages) ∧ addr ≠ 0 ∧
      Grants (2 * 2 ^ pageOrder) pages

theorem HasHeap.elsewhere (has : HasHeap root kstack heap space vm)
    (others : Elsewhere root (ownFrames root kstack vm) vm after) : HasHeap root kstack heap space after :=
  ⟨(has.laid.elsewhere others).own, has.pgtbl, has.heapVaddr, has.programBreak, has.low, has.high⟩

theorem Laid.hasHeap {heapPages stackPages : Nat} {mine : Set Nat}
    (laid : Laid root kstack heapPages stackPages mine space vm) :
    HasHeap root kstack ⟨laidUser heapPages stackPages, heapVpn + heapPages, space.programBreak⟩ space vm where
  laid := laid.pages.own
  pgtbl := laid.pgtbl
  heapVaddr := laid.heapVaddr
  programBreak := rfl
  low := Nat.le_add_right _ _
  high := (Nat.le_add_right _ _).trans laid.room

section
variable (has : HasHeap root kstack heap space vm)
include has

theorem HasHeap.unmapped {vpn : Nat} (low : vpn < handlerVpn)
    (outside : vpn ∉ heap.pages) : pageMap (frameVa root) vm vpn = none := by
  have top : handlerVpn < 2 ^ 27 := by decide
  refine Option.eq_none_iff_forall_ne_some.mpr fun entry found => ?_
  rcases has.laid.only vpn (by omega) entry found with user | kernel
  · exact outside user
  · omega

theorem HasHeap.expanded {pageOrder : Nat} (order : pageOrder ≤ 26) :
    ulong (space.heapVaddr + expandSize pageOrder) = (heap.top + 2 ^ pageOrder) * pageSize := by
  have high := has.high
  have top : handlerVpn < 2 ^ 26 := by decide
  have small : 2 ^ pageOrder ≤ 2 ^ 26 := Nat.pow_le_pow_right (by decide) order
  rw [has.heapVaddr, expandSize_eq order, ← Nat.add_mul, ulong_of_lt]
  unfold pageSize
  omega

theorem HasHeap.grow {pageOrder addr : Nat} {pages : σ} (room : heap.top + 2 ^ pageOrder ≤ handlerVpn)
    (free : ∀ vpn, heap.top ≤ vpn → vpn < heap.top + 2 ^ pageOrder → vpn ∉ heap.pages)
    (alloc : allocPages pageOrder vm.pages = .ok (addr, pages)) (notNull : addr ≠ 0)
    (grants : Grants (2 * 2 ^ pageOrder) pages) :
    ∃ after, vmMappages space.pgtbl space.heapVaddr (pmaVa2Pa addr) (expandSize pageOrder)
        (pteFlagR ||| pteFlagW ||| pteFlagU) { vm with pages } = .ok (0, after) ∧
      HasHeap root kstack (heap.grown a0 pageOrder)
        { space with heapVaddr := ulong (space.heapVaddr + expandSize pageOrder),
                     programBreak := heap.target a0 } after := by
  have order := granted_order has.laid.backed.sound alloc notNull
  have top : handlerVpn < 2 ^ 26 := by decide
  have backed := has.laid.backed.allocated alloc
  have empty : ∀ vpn, heap.top ≤ vpn → vpn < heap.top + 2 ^ pageOrder →
      pageMap (frameVa root) { vm with pages } vpn = none := by
    intro vpn lower upper
    rw [pageMap_pages]
    exact has.unmapped (by omega) (free vpn lower upper)
  obtain ⟨after, map, _⟩ := @Backed.mapFrom_returns _ _ _ _ _ (pteFlagR ||| pteFlagW ||| pteFlagU)
    (2 ^ pageOrder) heap.top (pmaVa2Pa addr) 0 backed (by decide) (pmaVa2Pa_lt _) (by omega) empty grants
  rw [← vmMappages_pages (Nat.two_pow_pos _) (by omega)] at map
  refine ⟨after, ?_, ?_, has.pgtbl, ?_, rfl, has.low.trans (Nat.le_add_right _ _), room⟩
  · rw [has.pgtbl, has.heapVaddr, expandSize_eq order]
    exact map
  · exact (has.laid.grow alloc notNull (by decide) room map (by decide) free).own
  · exact has.expanded order

theorem HasHeap.gone_bounds (lower : heap.target a0 ≤ ulongSub (heap.top * pageSize) pageSize) :
    heap.firstGone a0 ≤ heap.top ∧ pageRoundUp (heap.target a0) = heap.firstGone a0 * pageSize ∧
      ulongSub (pageRoundDown (heap.top * pageSize)) (heap.firstGone a0 * pageSize) >>> pageShift =
        heap.top - heap.firstGone a0 := by
  have low := has.low
  have high := has.high
  have some : 0 < heapVpn := by decide
  have top : handlerVpn < 2 ^ 26 := by decide
  unfold pageSize at lower ⊢
  rw [ulongSub_of_le (by omega) (by omega)] at lower
  have below : heap.firstGone a0 ≤ heap.top := by
    unfold HeapState.firstGone
    omega
  refine ⟨below, pageRoundUp_eq (by omega), ?_⟩
  rw [pageRoundDown_eq (by omega), Nat.mul_div_cancel _ (by decide), ulongSub_of_le (by omega) (by omega),
    shiftRight_pageShift]
  omega

theorem HasHeap.shrink (lower : heap.target a0 ≤ ulongSub (heap.top * pageSize) pageSize)
    (mapped : ∀ vpn, heap.firstGone a0 ≤ vpn → vpn < heap.top → vpn ∈ heap.pages) :
    ∃ after, vmUnmappages (frameVa root) (heap.firstGone a0 * pageSize)
        (heap.top - heap.firstGone a0) true vm = .ok after ∧
      HasHeap root kstack (heap.shrunk a0) { space with programBreak := heap.target a0 } after := by
  obtain ⟨below, _, _⟩ := has.gone_bounds lower
  have last : heap.firstGone a0 + (heap.top - heap.firstGone a0) = heap.top := Nat.add_sub_of_le below
  have high := has.high
  have top : handlerVpn < 2 ^ 27 := by decide
  obtain ⟨after, run, laid⟩ := @LaidPages.remove _ _ _ _ _ _ _ _ (heap.firstGone a0)
    (heap.top - heap.firstGone a0) has.laid (by rwa [last]) (by omega)
  rw [last] at laid
  exact ⟨after, run, laid.own, has.pgtbl, has.heapVaddr, rfl, has.low, has.high⟩

theorem HasHeap.returns (fed : SbrkFed a0 space vm) (move : HeapState.Move a0 heap ret next) :
    ∃ moved after, syscallSbrk a0 space vm = .ok (ret, moved, after) ∧ HasHeap root kstack next moved after := by
  unfold SbrkFed sbrkBelow at fed
  rw [has.heapVaddr, has.programBreak] at fed
  unfold syscallSbrk
  rw [has.heapVaddr, has.programBreak]
  cases move with
  | below isBelow =>
    unfold HeapState.Below at isBelow
    rw [if_pos isBelow]
    exact ⟨space, vm, rfl, has⟩
  | grow notBelow above found room free =>
    obtain ⟨addr, pages, alloc, notNull, grants⟩ := fed notBelow above _ found
    obtain ⟨after, map, grown⟩ := @HasHeap.grow _ _ _ _ _ a0 _ _ _ has _ _ _ room free alloc notNull grants
    rw [has.heapVaddr] at map grown
    unfold HeapState.Below HeapState.target at *
    rw [if_neg notBelow]
    dsimp only
    rw [if_pos above, found, Result.ok_bind, alloc, Result.ok_bind]
    dsimp only
    rw [if_neg notNull, map]
    exact ⟨_, after, rfl, grown⟩
  | shrink notBelow notAbove lower mapped =>
    obtain ⟨_, newEnd, count⟩ := has.gone_bounds lower
    obtain ⟨after, run, shrunk⟩ := has.shrink lower mapped
    rw [has.heapVaddr, has.pgtbl] at shrunk
    unfold HeapState.Below HeapState.target at *
    rw [if_neg notBelow]
    dsimp only
    rw [if_neg notAbove, if_pos lower, newEnd, count, has.pgtbl, run]
    exact ⟨_, after, rfl, shrunk⟩
  | stay notBelow notAbove notLower =>
    unfold HeapState.Below HeapState.target at *
    rw [if_neg notBelow]
    dsimp only
    rw [if_neg notAbove, if_neg notLower]
    exact ⟨space, vm, rfl, has⟩

theorem HasHeap.grow_room {pageOrder addr : Nat} {code : Int} {pages : σ}
    (alloc : allocPages pageOrder vm.pages = .ok (addr, pages)) (notNull : addr ≠ 0)
    (grants : Grants (2 * 2 ^ pageOrder) pages)
    (run : vmMappages space.pgtbl space.heapVaddr (pmaVa2Pa addr) (expandSize pageOrder)
      (pteFlagR ||| pteFlagW ||| pteFlagU) { vm with pages } = .ok (code, after)) :
    heap.top + 2 ^ pageOrder ≤ handlerVpn ∧
      ∀ vpn, heap.top ≤ vpn → vpn < heap.top + 2 ^ pageOrder → vpn ∉ heap.pages := by
  have order := granted_order has.laid.backed.sound alloc notNull
  have small : 2 ^ pageOrder ≤ 2 ^ 26 := Nat.pow_le_pow_right (by decide) order
  have high := has.high
  have top : handlerVpn < 2 ^ 26 := by decide
  have backed := has.laid.backed.allocated alloc
  rw [has.pgtbl, has.heapVaddr, expandSize_eq order, vmMappages_pages (Nat.two_pow_pos _) (by omega)] at run
  have empty : ∀ vpn, heap.top ≤ vpn → vpn < heap.top + 2 ^ pageOrder → pageMap (frameVa root) vm vpn = none := by
    intro vpn lower upper
    rw [← pageMap_pages pages]
    exact mapFrom_unmapped backed (by decide) (pmaVa2Pa_lt _) grants run lower upper (by omega)
  constructor
  · -- the pages of the user handler are in the way
    by_contra beyond
    obtain ⟨entry, found, _⟩ := has.laid.kernel handlerVpn (Nat.le_refl _) (by decide)
    rw [empty handlerVpn high (by omega)] at found
    cases found
  · intro vpn lower upper member
    obtain ⟨entry, found, _⟩ := has.laid.mapped vpn member
    rw [empty vpn lower upper] at found
    cases found

theorem HasHeap.shrink_mapped (lower : heap.target a0 ≤ ulongSub (heap.top * pageSize) pageSize)
    (run : vmUnmappages (frameVa root) (heap.firstGone a0 * pageSize) (heap.top - heap.firstGone a0) true vm =
      .ok after) {vpn : Nat} (first : heap.firstGone a0 ≤ vpn) (last : vpn < heap.top) : vpn ∈ heap.pages := by
  obtain ⟨below, _, _⟩ := has.gone_bounds lower
  have high := has.high
  have top : handlerVpn < 2 ^ 27 := by decide
  have low : ∀ other ∈ insert trapframeVpn heap.pages, other < heap.top → other ∈ heap.pages := by
    intro other member inside
    refine member.resolve_left fun same => ?_
    have above : handlerVpn ≤ trapframeVpn := by decide
    omega
  rw [vmUnmappages_eq (by omega)] at run
  refine low vpn (has.laid.owning.unmap_inside (by omega) ?_ run first (by omega)) last
  intro other _ upper entry found
  refine .inr ((has.laid.only other (by omega) entry found).resolve_right ?_)
  omega

theorem HasHeap.moves (fed : SbrkFed a0 space vm) (run : syscallSbrk a0 space vm = .ok (ret, moved, after)) :
    ∃ found next, HeapState.Move a0 heap found next := by
  have target : ulong (space.programBreak + a0) = heap.target a0 := by rw [has.programBreak, HeapState.target]
  unfold SbrkFed sbrkBelow at fed
  unfold syscallSbrk at run
  rw [target] at fed run
  split at run
  next below => exact ⟨_, _, .below (by rwa [has.heapVaddr] at below)⟩
  next notBelow =>
    have notBelowHeap : ¬ heap.Below a0 := by rwa [has.heapVaddr] at notBelow
    dsimp only at run
    split at run
    next above =>
      obtain ⟨pageOrder, order, run⟩ := Result.bind_ok run
      obtain ⟨addr, pages, alloc, notNull, grants⟩ := fed notBelow above pageOrder order
      rw [alloc, Result.ok_bind] at run
      dsimp only at run
      rw [if_neg notNull] at run
      obtain ⟨⟨code, mapped⟩, map, _⟩ := Result.bind_ok run
      obtain ⟨room, free⟩ := has.grow_room alloc notNull grants map
      rw [has.heapVaddr] at above order
      exact ⟨_, _, .grow notBelowHeap above order room free⟩
    next notAbove =>
      rw [has.heapVaddr] at notAbove run
      split at run
      next lower =>
        obtain ⟨unmapped, unmap, _⟩ := Result.bind_ok run
        obtain ⟨_, newEnd, count⟩ := has.gone_bounds lower
        rw [newEnd, count, has.pgtbl] at unmap
        exact ⟨_, _, .shrink notBelowHeap notAbove lower fun _ first last =>
          has.shrink_mapped lower unmap first last⟩
      next notLower => exact ⟨_, _, .stay notBelowHeap notAbove notLower⟩

theorem HasHeap.move (fed : SbrkFed a0 space vm) (run : syscallSbrk a0 space vm = .ok (ret, moved, after)) :
    ∃ next, HeapState.Move a0 heap ret next ∧ HasHeap root kstack next moved after := by
  obtain ⟨found, next, move⟩ := has.moves fed run
  obtain ⟨_, _, again, kept⟩ := has.returns fed move
  cases again.symm.trans run
  exact ⟨next, move, kept⟩

end

/-- Calls of one process that find memory, each with the value that it returned.  Before each
call others may run. -/
inductive SbrkRun (root kstack : Nat) : ProcSpace → Vmem σ → List (Nat × Nat) → Prop
  | nil (space : ProcSpace) (vm : Vmem σ) : SbrkRun root kstack space vm []
  | call {space moved : ProcSpace} {vm next after : Vmem σ} {a0 ret : Nat} {calls : List (Nat × Nat)}
      (others : Elsewhere root (ownFrames root kstack vm) vm next) (fed : SbrkFed a0 space next)
      (run : syscallSbrk a0 space next = .ok (ret, moved, after))
      (rest : SbrkRun root kstack moved after calls) : SbrkRun root kstack space vm ((a0, ret) :: calls)

def SbrkReturns (root kstack : Nat) : List (Nat × Nat) → ProcSpace → Vmem σ → Prop
  | [], _, _ => True
  | (a0, ret) :: calls, space, vm =>
    ∀ next, Elsewhere root (ownFrames root kstack vm) vm next → SbrkFed a0 space next →
      ∃ moved after, syscallSbrk a0 space next = .ok (ret, moved, after) ∧
        SbrkReturns root kstack calls moved after

section
variable {calls : List (Nat × Nat)} (has : HasHeap root kstack heap space vm)
include has

theorem HasHeap.run_calls (run : SbrkRun root kstack space vm calls) : heap.Calls calls := by
  induction run generalizing heap with
  | nil => exact .nil heap
  | call others fed run _ ih =>
    obtain ⟨next, move, kept⟩ := (has.elsewhere others).move fed run
    exact .call move (ih kept)

theorem HasHeap.calls_return (made : heap.Calls calls) : SbrkReturns root kstack calls space vm := by
  induction made generalizing space vm with
  | nil => exact trivial
  | call move _ ih =>
    intro next others fed
    obtain ⟨moved, after, run, kept⟩ := (has.elsewhere others).returns fed move
    exact ⟨moved, after, run, ih kept⟩

theorem HasHeap.same_returns {otherRoot otherKstack : Nat} {other : ProcSpace} {otherVm : Vmem σ}
    (otherHas : HasHeap otherRoot otherKstack heap other otherVm)
    (run : SbrkRun root kstack space vm calls) : SbrkReturns otherRoot otherKstack calls other otherVm :=
  otherHas.calls_return (has.run_calls run)

end

end

end Kalorona.Proc
