import Kalorona.Memory.BuddyInvariant
import Kalorona.Data.Runs

namespace Kalorona.Memory

open Kalorona.Data Kalorona.Utilities

/-! # Runs of the page allocator

`kmem_page_manager_init` establishes the buddy invariant for the pages that the
map leaves clear, and every call keeps it.
-/

def clearPages (kmem : Kmem) : Set Nat :=
  { page | page < kmem.numPpn ∧ testBit kmem.memMap page = false }

def NothingListed (kmem : Kmem) : Prop :=
  ∀ ord, (kmem.freeAreas ord).freePageList = [] ∧ (kmem.freeAreas ord).freeAreaMap = fun _ => 0

section
variable {kmem : Kmem} (nothing : NothingListed kmem)
include nothing

theorem NothingListed.freeBlocks : freeBlocks kmem = ∅ := by
  ext block
  simp [Memory.freeBlocks, nothing block.order]

theorem NothingListed.tiled (addressable : kmem.beginPpn + kmem.numPpn ≤ 2 ^ 26) : Tiled kmem ∅ := by
  refine ⟨addressable, ?_, ?_, ?_, ?_, ?_⟩
  · simp [nothing _]
  · simp [nothing _]
  · simp [nothing.freeBlocks]
  · simp [nothing.freeBlocks]
  · rw [nothing.freeBlocks]
    exact ⟨by simp, by simp⟩

theorem NothingListed.paired : Paired kmem := by
  intro ord _ pair
  have clear : testBit (fun _ => 0) pair = false := by
    rw [testBit_eq]
    exact Nat.zero_testBit _
  rw [(nothing ord).2, nothing.freeBlocks, clear]
  simp [PairParity]

theorem NothingListed.merged (limit : Nat) : Merged limit (Memory.freeBlocks kmem) := by
  rw [nothing.freeBlocks]
  exact fun block listed => absurd listed (Set.notMem_empty block)

end

def clearBelow (kmem : Kmem) (pn : Nat) : Set Nat :=
  { page | page < pn ∧ testBit kmem.memMap page = false }

variable {kmem : Kmem} {pn : Nat}

theorem clearBelow_reserved (reserved : testBit kmem.memMap pn = true) :
    clearBelow kmem (pn + 1) = clearBelow kmem pn := by
  ext page
  simp only [clearBelow, Set.mem_ofPred_eq]
  constructor
  · rintro ⟨below, clear⟩
    refine ⟨?_, clear⟩
    by_contra last
    rw [show page = pn by omega, reserved] at clear
    cases clear
  · rintro ⟨below, clear⟩
    exact ⟨by omega, clear⟩

theorem NothingListed.tiled_clearBelow (nothing : NothingListed kmem)
    (addressable : kmem.beginPpn + kmem.numPpn ≤ 2 ^ 26) : Tiled kmem (clearBelow kmem 0) := by
  have none : clearBelow kmem 0 = ∅ := by simp [clearBelow]
  rw [none]
  exact nothing.tiled addressable

theorem freeUnreserved_round (tiled : Tiled kmem (clearBelow kmem pn))
    (paired : Paired kmem) (inside : pn < kmem.numPpn) (available : testBit kmem.memMap pn = false) :
    ∃ freed, kmemFreePage (pageVaddr kmem pn) { kmem with memMap := (testAndSetBit kmem.memMap pn).2 } = .ok freed ∧
      Tiled freed (clearBelow freed (pn + 1)) ∧ Paired freed ∧ SameFrame kmem freed ∧
      (∀ page, testBit freed.memMap page = testBit kmem.memMap page) ∧ KeepsMerged kmem freed := by
  let marked : Kmem := { kmem with memMap := (testAndSetBit kmem.memMap pn).2 }
  obtain ⟨freed, run, freedTiled, freedPaired, frame, bits, merged⟩ :=
    @kmemFreePage_spec marked _ pn (tiled.congr rfl rfl (fun _ => rfl))
      (paired.congr rfl rfl (fun _ => rfl) (fun _ => rfl)) inside
      (fun below => Nat.lt_irrefl _ below.1) (by rw [testBit_testAndSetBit, if_pos rfl])
  have freedBits : ∀ page, testBit freed.memMap page = testBit kmem.memMap page := by
    intro page
    rw [bits, testBit_testAndSetBit]
    split
    next same => rw [same, available]
    next => rfl
  have freedPages : insert pn (clearBelow kmem pn) = clearBelow freed (pn + 1) := by
    ext page
    simp only [clearBelow, Set.mem_insert_iff, Set.mem_ofPred_eq, freedBits]
    constructor
    · rintro (rfl | ⟨below, clear⟩)
      · exact ⟨by omega, available⟩
      · exact ⟨by omega, clear⟩
    · rintro ⟨below, clear⟩
      by_cases last : page = pn
      · exact .inl last
      · exact .inr ⟨by omega, clear⟩
  have sameBlocks : freeBlocks marked = freeBlocks kmem := freeBlocks_congr rfl rfl (fun _ => rfl)
  rw [freedPages] at freedTiled
  rw [KeepsMerged, sameBlocks] at merged
  exact ⟨freed, run, freedTiled, freedPaired, ⟨frame.beginPpn, frame.numPpn, frame.memMapAddr,
    frame.memMapSize, frame.areaAddr, frame.areaSize⟩, freedBits, merged⟩

theorem freeUnreserved_spec {kmem : Kmem} {count pn : Nat} (rest : pn + count = kmem.numPpn)
    (tiled : Tiled kmem (clearBelow kmem pn)) (paired : Paired kmem) :
    ∃ after, freeUnreserved count pn kmem = .ok after ∧ Tiled after (clearPages after) ∧
      Paired after ∧ SameFrame kmem after ∧
      (∀ page, testBit after.memMap page = testBit kmem.memMap page) ∧ KeepsMerged kmem after := by
  induction count generalizing pn kmem with
  | zero =>
    refine ⟨kmem, rfl, ?_, paired, .refl kmem, fun _ => rfl, id⟩
    rwa [show pn = kmem.numPpn by omega] at tiled
  | succ count ih =>
    rw [freeUnreserved]
    split
    next reserved =>
      refine ih (by omega) ?_ paired
      rwa [clearBelow_reserved reserved]
    next available =>
      rw [Bool.not_eq_true] at available
      obtain ⟨freed, run, freedTiled, freedPaired, frame, bits, merged⟩ :=
        freeUnreserved_round tiled paired (by omega) available
      obtain ⟨after, restRun, afterTiled, afterPaired, restFrame, restBits, restMerged⟩ :=
        ih (by rw [frame.numPpn]; omega) freedTiled freedPaired
      refine ⟨after, ?_, afterTiled, afterPaired, frame.trans restFrame,
        fun page => (restBits page).trans (bits page), fun old => restMerged (merged old)⟩
      rw [run]
      exact restRun

section
variable {node : BootmemNode} {memory : Memory}

theorem freeAreaMapSize_fits {numPpn : Nat} (pages : numPpn ≤ 2 ^ 52) (ord : Nat) :
    freeAreaMapSize numPpn ord + 4095 < 2 ^ 64 := by
  have half : numPpn >>> (ord + 1) ≤ numPpn := by
    rw [Nat.shiftRight_eq_div_pow]
    exact Nat.div_le_self ..
  unfold freeAreaMapSize
  rw [Nat.shiftRight_eq_div_pow _ 3, ulong_of_lt (by omega)]
  omega

theorem allocFreeAreaMaps_runs {remaining ord : Nat} {kmem : Kmem}
    (pages : node.numPpn ≤ 2 ^ 52) (counts : kmem.numPpn = node.numPpn) (nothing : NothingListed kmem) :
    ∃ after node' memory', allocFreeAreaMaps remaining ord kmem node memory =
        .ok (after, node', memory') ∧ NothingListed after ∧ after.beginPpn = kmem.beginPpn ∧
      after.numPpn = kmem.numPpn := by
  induction remaining generalizing ord kmem node memory with
  | zero => exact ⟨kmem, node, memory, rfl, nothing, rfl, rfl⟩
  | succ remaining ih =>
    obtain ⟨address, node', memory', alloc, same, _⟩ :=
      @bootmemAlloc_keeps node (freeAreaMapSize kmem.numPpn ord) 0 0 memory pages
        (freeAreaMapSize_fits (by omega) ord) (by decide)
    rw [Nat.pow_zero] at alloc
    simp only [allocFreeAreaMaps, alloc, Result.ok_bind]
    refine ih (by rw [same.numPpn]; exact pages) (counts.trans same.numPpn.symm) ?_
    intro other
    show ((kmem.setArea ord _).freeAreas other).freePageList = [] ∧
      ((kmem.setArea ord _).freeAreas other).freeAreaMap = _
    rw [Kmem.setArea_freeAreas]
    split
    · exact ⟨(nothing ord).1, rfl⟩
    · exact nothing other

theorem kmemPageManagerInit_maps (pages : node.numPpn ≤ 2 ^ 52) :
    ∃ mapped node' memory', allocFreeAreaMaps maxMemOrder 0 (kmemOfBootmem node) node memory =
        .ok (mapped, node', memory') ∧ NothingListed mapped ∧ mapped.beginPpn = node.beginPpn ∧
      mapped.numPpn = node.numPpn :=
  @allocFreeAreaMaps_runs node memory maxMemOrder 0 (kmemOfBootmem node) pages rfl fun _ => ⟨rfl, rfl⟩

theorem kmemPageManagerInit_spec (addressable : node.beginPpn + node.numPpn ≤ 2 ^ 26) :
    ∃ kmem node' memory', kmemPageManagerInit node memory = .ok (kmem, node', memory') ∧
      Tiled kmem (clearPages kmem) ∧ Paired kmem ∧ kmem.beginPpn = node.beginPpn ∧
      kmem.numPpn = node.numPpn ∧ Merged maxMemOrder (freeBlocks kmem) := by
  obtain ⟨mapped, node', memory', maps, nothing, begins, counts⟩ := @kmemPageManagerInit_maps node memory (by omega)
  obtain ⟨kmem, run, tiled, paired, frame, _, merged⟩ :=
    @freeUnreserved_spec mapped mapped.numPpn 0 (Nat.zero_add _)
      (nothing.tiled_clearBelow (by omega)) nothing.paired
  refine ⟨kmem, { node' with memMap := kmem.memMap }, memory', ?_, tiled, paired,
    frame.beginPpn.trans begins, frame.numPpn.trans counts, merged (nothing.merged _)⟩
  simp only [kmemPageManagerInit, maps, Result.ok_bind, run]
  rfl

end

/-- The allocator with the pages that are out, once for each time they were handed
out and not yet freed. -/
structure Ledger where
  kmem : Kmem
  held : List Nat

/-- One call: of `kmem_alloc_pages` with an order below the maximum, of
`kmem_free_page` for a page that is out, or of `kmem_free_pages` for pages that are
all out. -/
inductive LedgerStep : Ledger → Ledger → Prop
  | refuse {ledger : Ledger} {order : Nat} {kmem : Kmem} (ordered : order < maxMemOrder)
      (run : kmemAllocPages order ledger.kmem = .ok (0, kmem)) :
      LedgerStep ledger { ledger with kmem }
  | alloc {ledger : Ledger} {order vaddr : Nat} {kmem : Kmem} (ordered : order < maxMemOrder)
      (run : kmemAllocPages order ledger.kmem = .ok (vaddr, kmem)) (returned : vaddr ≠ 0) :
      LedgerStep ledger
        ⟨kmem, List.range' (vaddrPn ledger.kmem vaddr) (2 ^ order) ++ ledger.held⟩
  | free {ledger : Ledger} {pn : Nat} {kmem : Kmem} (out : pn ∈ ledger.held)
      (run : kmemFreePage (pageVaddr ledger.kmem pn) ledger.kmem = .ok kmem) :
      LedgerStep ledger ⟨kmem, ledger.held.erase pn⟩
  | freePages {ledger : Ledger} {pn count : Nat} {kmem : Kmem}
      (out : ∀ page, pn ≤ page → page < pn + count → page ∈ ledger.held)
      (run : kmemFreePages (pageVaddr ledger.kmem pn) count ledger.kmem = .ok kmem) :
      LedgerStep ledger
        ⟨kmem, ledger.held.filter fun page => !decide (pn ≤ page ∧ page < pn + count)⟩

theorem HandedOut.start_lt {before after : Kmem} {free : Set Nat} {block : Block}
    (handed : HandedOut before free block after) : block.start < before.numPpn := by
  have below := handed.below
  have positive := Nat.two_pow_pos block.order
  omega

/-- The listed blocks tile the clear pages, and each pair has the bit that its two blocks ask for. -/
structure BuddySound (kmem : Kmem) : Prop where
  tiled : Tiled kmem (clearPages kmem)
  paired : Paired kmem

section
variable {kmem after : Kmem} {block : Block}

theorem HandedOut.clearPages_eq (handed : HandedOut kmem (clearPages kmem) block after) :
    clearPages after = clearPages kmem \ block.span := by
  ext page
  simp only [clearPages, Set.mem_ofPred_eq, Set.mem_sdiff, Block.mem_span, handed.frame.numPpn,
    handed.marked, Bool.or_eq_false_iff, decide_eq_false_iff_not]
  constructor
  · rintro ⟨inside, outside, clear⟩
    exact ⟨⟨inside, clear⟩, outside⟩
  · rintro ⟨⟨inside, clear⟩, outside⟩
    exact ⟨inside, outside, clear⟩

variable {order : Nat}

theorem BuddySound.kmemAllocPages (sound : BuddySound kmem) (ordered : order < maxMemOrder) :
    Memory.kmemAllocPages order kmem = .ok (0, kmem) ∨
      ∃ start after, Memory.kmemAllocPages order kmem = .ok (pageVaddr kmem start, after) ∧
        HandedOut kmem (clearPages kmem) ⟨order, start⟩ after ∧ BuddySound after := by
  rcases kmemAllocPages_spec sound.tiled sound.paired ordered (fun page clear => clear.2) with
    ⟨refused, _⟩ | ⟨start, after, run, handed⟩
  · exact .inl refused
  · exact .inr ⟨start, after, run, handed, by rw [handed.clearPages_eq]; exact handed.tiled, handed.paired⟩

theorem BuddySound.handedOut {vaddr : Nat} (sound : BuddySound kmem)
    (run : Memory.kmemAllocPages order kmem = .ok (vaddr, after)) (returned : vaddr ≠ 0) :
    ∃ start, vaddr = pageVaddr kmem start ∧
      HandedOut kmem (clearPages kmem) ⟨order, start⟩ after ∧ BuddySound after := by
  rcases sound.kmemAllocPages (kmemAllocPages_ordered run) with refused | ⟨start, _, given, handed⟩
  · exact absurd (Prod.mk.inj (Except.ok.inj (refused.symm.trans run))).1.symm returned
  · obtain ⟨rfl, rfl⟩ := Prod.mk.inj (Except.ok.inj (given.symm.trans run))
    exact ⟨start, rfl, handed⟩

theorem BuddySound.refused (sound : BuddySound kmem)
    (run : Memory.kmemAllocPages order kmem = .ok (0, after)) : after = kmem := by
  rcases sound.kmemAllocPages (kmemAllocPages_ordered run) with refused | ⟨start, _, given, _⟩
  · exact (Prod.mk.inj (Except.ok.inj (refused.symm.trans run))).2.symm
  · exact absurd (Prod.mk.inj (Except.ok.inj (given.symm.trans run))).1 (pageVaddr_ne_zero _ start)

theorem BuddySound.kmemFreePage (sound : BuddySound kmem) (inside : pn < kmem.numPpn)
    (allocated : testBit kmem.memMap pn = true) :
    ∃ after, Memory.kmemFreePage (pageVaddr kmem pn) kmem = .ok after ∧ BuddySound after ∧
      SameFrame kmem after ∧
      (∀ page, testBit after.memMap page = if page = pn then false else testBit kmem.memMap page) ∧
      KeepsMerged kmem after := by
  have notFree : pn ∉ clearPages kmem := by
    rintro ⟨_, clear⟩
    rw [allocated] at clear
    cases clear
  obtain ⟨after, run, tiled, paired, frame, bits, merged⟩ :=
    kmemFreePage_spec sound.tiled sound.paired inside notFree allocated
  refine ⟨after, run, ⟨?_, paired⟩, frame, bits, merged⟩
  have pages : clearPages after = insert pn (clearPages kmem) := by
    ext page
    simp only [clearPages, Set.mem_ofPred_eq, Set.mem_insert_iff, frame.numPpn, bits]
    by_cases same : page = pn
    · simp [same, inside]
    · simp [same]
  rwa [pages]

/-- What freeing the pages from `pn` on leaves. -/
structure PagesFreed (pn count : Nat) (kmem after : Kmem) : Prop where
  sound : BuddySound after
  frame : SameFrame kmem after
  bits : ∀ page, testBit after.memMap page =
    (!decide (pn ≤ page ∧ page < pn + count) && testBit kmem.memMap page)
  merged : KeepsMerged kmem after

section
variable {pn count : Nat} (sound : BuddySound kmem)
  (allocated : ∀ page, pn ≤ page → page < pn + count → page < kmem.numPpn ∧ testBit kmem.memMap page = true)
include sound allocated

theorem BuddySound.freePagesFrom : ∃ after,
    Memory.freePagesFrom count (pageVaddr kmem pn) kmem = .ok after ∧ PagesFreed pn count kmem after := by
  induction count generalizing pn kmem with
  | zero =>
    refine ⟨kmem, rfl, sound, .refl kmem, fun page => ?_, id⟩
    rw [decide_eq_false (by omega)]
    simp
  | succ count ih =>
    obtain ⟨inside, marked⟩ := allocated pn (Nat.le_refl _) (by omega)
    obtain ⟨middle, first, middleSound, frame, bits, merged⟩ := sound.kmemFreePage inside marked
    obtain ⟨after, rest, afterSound, restFrame, restBits, restMerged⟩ := @ih middle (pn + 1) middleSound (by
        intro page lower upper
        rw [frame.numPpn, bits, if_neg (by omega)]
        exact allocated page (by omega) (by omega))
    refine ⟨after, ?_, afterSound, frame.trans restFrame, fun page => ?_, fun old => restMerged (merged old)⟩
    · rw [Memory.freePagesFrom, first, Result.ok_bind, ← rest]
      -- The address after the last page is not looked at.
      rcases Nat.eq_zero_or_pos count with none | some
      · rw [none, Memory.freePagesFrom, Memory.freePagesFrom]
      · have next := (allocated (pn + 1) (by omega) (by omega)).1
        rw [pageVaddr_congr frame.beginPpn, pageVaddr_succ sound.tiled.addressable next]
    · rw [restBits, bits]
      by_cases here : page = pn
      · rw [if_pos here, decide_eq_true (show pn ≤ page ∧ page < pn + (count + 1) by omega)]
        simp
      · have same : pn + 1 ≤ page ∧ page < pn + 1 + count ↔ pn ≤ page ∧ page < pn + (count + 1) := by
          omega
        simp only [if_neg here, same]

theorem BuddySound.kmemFreePages : ∃ after,
    Memory.kmemFreePages (pageVaddr kmem pn) count kmem = .ok after ∧ PagesFreed pn count kmem after := by
  rw [Memory.kmemFreePages, if_neg (not_not.mpr (pageVaddr_aligned kmem pn))]
  exact sound.freePagesFrom allocated

end

end

/-- The pages that callers hold are marked, and each is held once. -/
structure LedgerSound (ledger : Ledger) : Prop where
  buddy : BuddySound ledger.kmem
  nodup : ledger.held.Nodup
  allocated : ∀ pn ∈ ledger.held, pn < ledger.kmem.numPpn ∧ testBit ledger.kmem.memMap pn = true

/-- The pages that are free or held. -/
def Ledger.managed (ledger : Ledger) : Set Nat :=
  clearPages ledger.kmem ∪ { pn | pn ∈ ledger.held }

structure LedgerKept (before after : Ledger) : Prop where
  sound : LedgerSound after
  frame : SameFrame before.kmem after.kmem
  managed : after.managed ⊆ before.managed

theorem LedgerSound.handOut {ledger : Ledger} {block : Block} (sound : LedgerSound ledger)
    (handed : HandedOut ledger.kmem (clearPages ledger.kmem) block kmem) (kept : BuddySound kmem) :
    LedgerKept ledger ⟨kmem, List.range' block.start (2 ^ block.order) ++ ledger.held⟩ := by
  have below := handed.below
  refine ⟨⟨kept, ?_, ?_⟩, handed.frame, ?_⟩
  · rw [List.nodup_append]
    refine ⟨List.nodup_range', sound.nodup, ?_⟩
    rintro pn new _ old rfl
    have clear := (handed.inFree (List.mem_range'_1.mp new)).2
    rw [(sound.allocated pn old).2] at clear
    cases clear
  · intro pn out
    simp only [handed.frame.numPpn, handed.marked]
    rcases List.mem_append.mp out with new | old
    · have inside := List.mem_range'_1.mp new
      exact ⟨by omega, by rw [decide_eq_true inside, Bool.true_or]⟩
    · exact ⟨(sound.allocated pn old).1, by rw [(sound.allocated pn old).2, Bool.or_true]⟩
  · rintro page (clear | out)
    · rw [handed.clearPages_eq] at clear
      exact .inl clear.1
    · rcases List.mem_append.mp out with new | old
      · exact .inl (handed.inFree (List.mem_range'_1.mp new))
      · exact .inr old

theorem LedgerSound.takeBack {ledger : Ledger} {held : List Nat}
    (sound : LedgerSound ledger) (kept : BuddySound kmem) (frame : SameFrame ledger.kmem kmem)
    (sublist : held.Sublist ledger.held)
    (bits : ∀ page, testBit kmem.memMap page = testBit ledger.kmem.memMap page ∨ (page ∈ ledger.held ∧ page ∉ held)) :
    LedgerKept ledger ⟨kmem, held⟩ := by
  refine ⟨⟨kept, sound.nodup.sublist sublist, ?_⟩, frame, ?_⟩
  · intro pn out
    obtain ⟨inside, marked⟩ := sound.allocated pn (sublist.subset out)
    refine ⟨frame.numPpn ▸ inside, ?_⟩
    rcases bits pn with same | ⟨_, gone⟩
    · exact same.trans marked
    · exact absurd out gone
  · rintro page (⟨inside, clear⟩ | out)
    · rcases bits page with same | ⟨wasOut, _⟩
      · exact .inl ⟨frame.numPpn ▸ inside, same ▸ clear⟩
      · exact .inr wasOut
    · exact .inr (sublist.subset out)

theorem LedgerSound.step {before after : Ledger} (sound : LedgerSound before)
    (step : LedgerStep before after) : LedgerKept before after := by
  have buddy := sound.buddy
  have allocated := sound.allocated
  cases step with
  | refuse ordered run =>
    rw [buddy.refused run]
    exact ⟨sound, .refl _, subset_rfl⟩
  | alloc ordered run returned =>
    obtain ⟨start, rfl, handed, kept⟩ := buddy.handedOut run returned
    rw [vaddrPn_pageVaddr buddy.tiled.addressable handed.start_lt]
    exact sound.handOut handed kept
  | free out run =>
    rename_i pn kmem
    obtain ⟨_, freed, kept, frame, bits, _⟩ := buddy.kmemFreePage (allocated pn out).1 (allocated pn out).2
    obtain rfl := Except.ok.inj (freed.symm.trans run)
    refine sound.takeBack kept frame List.erase_sublist (fun page => ?_)
    rw [bits]
    split
    next same => exact .inr ⟨same ▸ out, fun still => (sound.nodup.mem_erase_iff.mp still).1 same⟩
    next => exact .inl rfl
  | freePages out run =>
    rename_i pn count kmem
    obtain ⟨_, freed, kept, frame, bits, _⟩ := @BuddySound.kmemFreePages before.kmem pn count buddy
      (fun page lower upper => allocated page (out page lower upper))
    obtain rfl := Except.ok.inj (freed.symm.trans run)
    refine sound.takeBack kept frame List.filter_sublist (fun page => ?_)
    rw [bits]
    by_cases inRange : pn ≤ page ∧ page < pn + count
    · exact .inr ⟨out page inRange.1 inRange.2, by simp [inRange]⟩
    · rw [decide_eq_false inRange]
      exact .inl (by simp)

/-- In every run after the start-up of the page manager the listed blocks are aligned
blocks of the node that tile the clear pages, the bits are the parities of the
pairs, no page is out twice, and no call panics. -/
theorem buddy_runs_sound (node : BootmemNode) (memory : Memory)
    (addressable : node.beginPpn + node.numPpn ≤ 2 ^ 26) :
    ∃ kmem node' memory', kmemPageManagerInit node memory = .ok (kmem, node', memory') ∧
      ∀ ledger, Relation.ReflTransGen LedgerStep ⟨kmem, []⟩ ledger →
        Tiled ledger.kmem (clearPages ledger.kmem) ∧ Paired ledger.kmem ∧ ledger.held.Nodup ∧
        (∀ order < maxMemOrder, ∃ vaddr after, kmemAllocPages order ledger.kmem = .ok (vaddr, after)) ∧
        ∀ pn ∈ ledger.held, ∃ after,
          kmemFreePage (pageVaddr ledger.kmem pn) ledger.kmem = .ok after := by
  obtain ⟨kmem, node', memory', init, tiled, paired, _⟩ := @kmemPageManagerInit_spec node memory addressable
  refine ⟨kmem, node', memory', init, ?_⟩
  intro ledger run
  have sound : LedgerSound ledger := run_preserves LedgerSound (fun _ _ sound step => (sound.step step).sound)
      ⟨⟨tiled, paired⟩, List.nodup_nil, by simp⟩ run
  refine ⟨sound.buddy.tiled, sound.buddy.paired, sound.nodup, ?_, ?_⟩
  · intro order ordered
    rcases sound.buddy.kmemAllocPages ordered with refused | ⟨start, after, given, _⟩
    · exact ⟨_, _, refused⟩
    · exact ⟨_, _, given⟩
  · intro pn out
    obtain ⟨inside, allocated⟩ := sound.allocated pn out
    obtain ⟨after, freed, _⟩ := sound.buddy.kmemFreePage inside allocated
    exact ⟨after, freed⟩

/-- Four pages of RAM at 0x80000000, the first one reserved. -/
theorem buddy_runs_sound_four_pages :
    let node : BootmemNode := smallNode 4 1
    node.beginPpn + node.numPpn ≤ 2 ^ 26 ∧
      ∃ kmem node' memory', kmemPageManagerInit node (fun _ => 0) = .ok (kmem, node', memory') ∧
        ∀ ledger, Relation.ReflTransGen LedgerStep ⟨kmem, []⟩ ledger →
          Tiled ledger.kmem (clearPages ledger.kmem) ∧ Paired ledger.kmem ∧ ledger.held.Nodup ∧
          (∀ order < maxMemOrder, ∃ vaddr after, kmemAllocPages order ledger.kmem = .ok (vaddr, after)) ∧
          ∀ pn ∈ ledger.held, ∃ after,
            kmemFreePage (pageVaddr ledger.kmem pn) ledger.kmem = .ok after :=
  ⟨by decide, buddy_runs_sound _ _ (by decide)⟩

theorem bootmemAlloc_sparse {node : BootmemNode} {size : Nat} (goal : Nat) (memory : Memory)
    (sparse : ∀ page, testBit node.memMap page = true ∨ testBit node.memMap (page + 1) = true)
    (pages : node.numPpn ≤ 2 ^ 52) (large : 4096 < size) (bounded : size + 4095 < 2 ^ 64) :
    bootmemAlloc size 1 goal node memory = .ok (0, node, memory) := by
  rw [bootmemAlloc_eq goal node memory (by omega) (by decide), areaSize_eq bounded]
  cases found : findSpotFrom node ((size + 4095) / 4096) (scanStarts node 1 goal) with
  | none => rfl
  | some spot =>
    obtain ⟨_, clear⟩ := findSpotFrom_clear (by omega) found
    have first := (clear spot (Nat.le_refl _) (by omega)).2
    have second := (clear (spot + 1) (by omega) (by omega)).2
    simpa [first, second] using sparse spot

section
variable {kmem : Kmem}

theorem allocFreeAreaMaps_sparse {node node' : BootmemNode} {memory memory' : Memory} {after : Kmem}
    {remaining ord : Nat} (sparse : ∀ page, testBit node.memMap page = true ∨ testBit node.memMap (page + 1) = true)
    (pages : kmem.numPpn ≤ 2 ^ 52) (counts : kmem.numPpn = node.numPpn)
    (large : ∀ ord < maxMemOrder, 4096 < freeAreaMapSize kmem.numPpn ord)
    (orders : ord + remaining = maxMemOrder) (same : kmem.memMap = node.memMap)
    (run : allocFreeAreaMaps remaining ord kmem node memory = .ok (after, node', memory')) :
    after.memMap = node.memMap := by
  induction remaining generalizing ord kmem with
  | zero =>
    cases run
    exact same
  | succ remaining ih =>
    have none := bootmemAlloc_sparse 0 memory sparse (counts ▸ pages) (large ord (by omega))
      (freeAreaMapSize_fits pages ord)
    simp only [allocFreeAreaMaps, none, Result.ok_bind] at run
    refine ih ?_ ?_ ?_ (by omega) ?_ run
    · exact pages
    · exact counts
    · exact large
    · rfl

theorem freeUnreserved_skip {count rest pn : Nat}
    (marked : ∀ page, pn ≤ page → page < pn + count → testBit kmem.memMap page = true) :
    freeUnreserved (count + rest) pn kmem = freeUnreserved rest (pn + count) kmem := by
  induction count generalizing pn with
  | zero => rw [Nat.zero_add, Nat.add_zero]
  | succ count ih =>
    rw [Nat.add_right_comm, freeUnreserved, if_pos (marked pn (Nat.le_refl _) (by omega)),
      ih fun page lower upper => marked page (by omega) (by omega), Nat.add_right_comm, Nat.add_assoc]

/-! ### Two pages with one address

A node from 0x80000000 on with 2^26 + 4097 pages.  `PMA_PA2VA` gives the pages 4096 and 2^26 + 4096
one address, and each map of a free area takes more than a page.
-/

def longNode (map : Bitmap) : BootmemNode :=
  ⟨0x80000, 2 ^ 26 + 4097, pmaPa2Va 0x80000000, map, 2 ^ 23 + 513, 0, 0⟩

theorem longNode_maps {map : Bitmap} (memory : Memory)
    (sparse : ∀ page, testBit map page = true ∨ testBit map (page + 1) = true) :
    ∃ mapped node memory', allocFreeAreaMaps maxMemOrder 0 (kmemOfBootmem (longNode map)) (longNode map) memory =
        .ok (mapped, node, memory') ∧ NothingListed mapped ∧ mapped.beginPpn = 0x80000 ∧
      mapped.numPpn = 2 ^ 26 + 4097 ∧ mapped.memMap = map := by
  have pages : 2 ^ 26 + 4097 ≤ 2 ^ 52 := by decide
  have large : ∀ ord < maxMemOrder, 4096 < freeAreaMapSize (2 ^ 26 + 4097) ord := by decide
  obtain ⟨mapped, node, memory', run, nothing, begins, counts⟩ :=
    @kmemPageManagerInit_maps (longNode map) memory pages
  refine ⟨mapped, node, memory', run, nothing, begins, counts, ?_⟩
  exact @allocFreeAreaMaps_sparse (kmemOfBootmem (longNode map)) _ _ _ _ _ _ _ sparse pages rfl large rfl rfl run

theorem NothingListed.free_first (nothing : NothingListed kmem) (begins : kmem.beginPpn = 0x80000)
    (marked : testBit kmem.memMap 4096 = true) :
    ∃ after, kmemFreePage (pageVaddr kmem 4096) kmem = .ok after ∧ after.beginPpn = 0x80000 ∧
      ∀ page, testBit after.memMap page = if page = 4096 then false else testBit kmem.memMap page := by
  have place : vaddrPn kmem (pageVaddr kmem 4096) = 4096 := by
    rw [vaddrPn, pageVaddr, begins]
    decide
  have unpaired : testBit (kmem.freeAreas 0).freeAreaMap ((Block.around 0 4096).start / 2 ^ (0 + 1)) = false := by
    rw [(nothing 0).2]
    decide
  have inserts : ∀ after, listInsert 0 (pageVaddr kmem 4096) after = .ok (after.push 0 (pageVaddr kmem 4096)) :=
    fun _ => if_neg (pageVaddr_ne_zero kmem 4096)
  unfold kmemFreePage
  simp only [pageVaddr_aligned, place, testAndClearBit_fst, marked]
  refine ⟨_, (freeFrom_round 10 { kmem with memMap := (testAndClearBit kmem.memMap 4096).2 } (by decide)
    (by decide)).trans ((if_neg fun both => ?_).trans (inserts _)), begins, testBit_testAndClearBit _ _⟩
  exact absurd (unpaired.symm.trans both.1) Bool.false_ne_true

theorem kmemFreePage_alias (begins : kmem.beginPpn = 0x80000) (cleared : testBit kmem.memMap 4096 = false) :
    kmemFreePage (pageVaddr kmem (2 ^ 26 + 4096)) kmem = .error (.panic "kmem_free_page - freed twice") := by
  have place : vaddrPn kmem (pageVaddr kmem (2 ^ 26 + 4096)) = 4096 := by
    rw [vaddrPn, pageVaddr, begins]
    decide
  unfold kmemFreePage
  simp only [pageVaddr_aligned, place, testAndClearBit_fst, cleared]
  rfl

theorem testBit_ones (page : Nat) : testBit (fun _ => 0xff) page = true := by
  rw [testBit_eq]
  exact (Nat.testBit_two_pow_sub_one 8 (page % 8)).trans (decide_eq_true (Nat.mod_lt _ (by decide)))

theorem freeUnreserved_alias {gap : Nat} (nothing : NothingListed kmem) (begins : kmem.beginPpn = 0x80000)
    (window : 4097 + gap = 2 ^ 26 + 4096)
    (bits : ∀ page, testBit kmem.memMap page = !decide (page = 4096 ∨ page = 2 ^ 26 + 4096)) :
    freeUnreserved (4096 + (gap + 1 + 1)) 0 kmem = .error (.panic "kmem_free_page - freed twice") := by
  obtain ⟨freed, run, freedBegins, freedBits⟩ := @NothingListed.free_first
    { kmem with memMap := (testAndSetBit kmem.memMap 4096).2 } nothing begins (by
      rw [testBit_testAndSetBit, if_pos rfl])
  have between : ∀ page, 4097 ≤ page → page < 4097 + gap → testBit freed.memMap page = true := by
    intro page lower upper
    rw [freedBits, if_neg (by omega), testBit_testAndSetBit, if_neg (by omega), bits, decide_eq_false (by omega)]
    rfl
  have second : testBit freed.memMap (2 ^ 26 + 4096) = false := by
    rw [freedBits, if_neg (by decide), testBit_testAndSetBit, if_neg (by decide), bits]
    rfl
  have again := @kmemFreePage_alias { freed with memMap := (testAndSetBit freed.memMap (2 ^ 26 + 4096)).2 }
    freedBegins (by rw [testBit_testAndSetBit, if_neg (by decide), freedBits, if_pos rfl])
  rw [freeUnreserved_skip (fun page _ upper => by rw [bits, decide_eq_false (by omega)]; rfl), Nat.zero_add,
    freeUnreserved, if_neg (by rw [bits]; decide)]
  refine (congrArg (· >>= _) run).trans ?_
  rw [Result.ok_bind, freeUnreserved_skip between, window, freeUnreserved, if_neg (by rw [second]; decide)]
  exact congrArg (· >>= _) again

/-- Two pages with one address are free.  The second is freed twice. -/
theorem kmemPageManagerInit_panics_beyond_pma :
    kmemPageManagerInit (longNode (testAndClearBit (testAndClearBit (fun _ => 0xff) 4096).2 (2 ^ 26 + 4096)).2)
      (fun _ => 0) = .error (.panic "kmem_free_page - freed twice") := by
  have bits : ∀ page, testBit (testAndClearBit (testAndClearBit (fun _ => 0xff) 4096).2 (2 ^ 26 + 4096)).2 page =
      !decide (page = 4096 ∨ page = 2 ^ 26 + 4096) := by
    intro page
    simp only [testBit_testAndClearBit, testBit_ones]
    grind
  obtain ⟨mapped, node, memory, maps, nothing, begins, counts, memMap⟩ := @longNode_maps _ (fun _ => 0) fun page => by
    rw [bits, bits]
    simp only [Bool.not_eq_true', decide_eq_false_iff_not]
    omega
  rw [← memMap] at bits
  simp only [kmemPageManagerInit, maps, Result.ok_bind]
  rw [counts, show 2 ^ 26 + 4097 = 4096 + (2 ^ 26 - 1 + 1 + 1) by decide,
    freeUnreserved_alias nothing begins (by decide) bits]
  rfl

end

end Kalorona.Memory
