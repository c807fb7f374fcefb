import Kalorona.Memory.Kmem

namespace Kalorona.Memory

open Kalorona.Data Kalorona.Device Kalorona.Utilities

/-! # The hand-over of memory

From the device tree's ranges to the page allocator, which never hands out a page whose bit was set
when it started.
-/

theorem RegionMarked.mono {before after : BootmemNode} {address size : Nat}
    (region : RegionMarked before address size) (step : BootmemStep before after) :
    RegionMarked after address size := by
  obtain ⟨first, isFirst, inside, marked⟩ := region
  refine ⟨first, ?_, ?_, fun page lower upper => step.keeps page (marked page lower upper)⟩
  · rw [step.same.beginPpn]
    exact isFirst
  · rw [step.same.numPpn]
    exact inside

def MapsMarked (kmem : Kmem) (node : BootmemNode) (ord : Nat) : Prop :=
  ∀ other < ord, (kmem.freeAreas other).freeAreaMapAddr ≠ 0 →
    RegionMarked node (kmem.freeAreas other).freeAreaMapAddr (kmem.freeAreas other).freeAreaMapSize

variable {kmem : Kmem} {node : BootmemNode}

theorem allocFreeAreaMaps_marked {remaining ord : Nat} {after : Kmem}
    {node' : BootmemNode} {memory memory' : Memory} (fits : NodeFits node)
    (counts : kmem.numPpn = node.numPpn) (shared : kmem.memMap = node.memMap) (marked : MapsMarked kmem node ord)
    (run : allocFreeAreaMaps remaining ord kmem node memory = .ok (after, node', memory')) :
    BootmemStep node node' ∧ after.memMap = node'.memMap ∧ MapsMarked after node' (ord + remaining) ∧
      after.memMapAddr = kmem.memMapAddr ∧ after.memMapSize = kmem.memMapSize := by
  induction remaining generalizing ord kmem node memory with
  | zero =>
    obtain ⟨rfl, rfl, rfl⟩ : kmem = after ∧ node = node' ∧ memory = memory' := by
      simpa [allocFreeAreaMaps] using run
    exact ⟨⟨fits, .refl node, fun _ set => set⟩, shared, marked, rfl, rfl⟩
  | succ remaining ih =>
    have addressable := fits.addressable
    obtain ⟨address, middle, middleMemory, alloc, step, region⟩ :=
      @bootmemAlloc_spec node (freeAreaMapSize kmem.numPpn ord) 0 0 memory fits
        (freeAreaMapSize_fits (by omega) ord) (by decide)
    rw [Nat.pow_zero] at alloc
    simp only [allocFreeAreaMaps, alloc, Result.ok_bind] at run
    have middleMarked : MapsMarked { kmem.setArea ord { kmem.freeAreas ord with
        freeAreaMapAddr := address, freeAreaMap := fun _ => 0,
        freeAreaMapSize := freeAreaMapSize kmem.numPpn ord } with memMap := middle.memMap }
        middle (ord + 1) := by
      intro other below
      dsimp only
      rw [Kmem.setArea_freeAreas]
      split
      next => exact region
      next different => exact fun nonzero => (marked other (by omega) nonzero).mono step
    obtain ⟨restStep, restShared, restMarked, restAddr, restSize⟩ :=
      ih step.fits (by exact counts.trans step.same.numPpn.symm) (by rfl) middleMarked run
    refine ⟨⟨restStep.fits, step.same.trans restStep.same,
      fun page set => restStep.keeps page (step.keeps page set)⟩, restShared, ?_, restAddr, restSize⟩
    rwa [Nat.add_right_comm, Nat.add_assoc] at restMarked

/-- What the page manager starts from: bits that were set stay set, and so are those
of the maps. -/
structure ManagerReady (node : BootmemNode) (kmem : Kmem) : Prop where
  sound : BuddySound kmem
  beginPpn : kmem.beginPpn = node.beginPpn
  numPpn : kmem.numPpn = node.numPpn
  memMapAddr : kmem.memMapAddr = node.memMapAddr
  memMapSize : kmem.memMapSize = node.memMapSize
  keeps : ∀ page, testBit node.memMap page = true → testBit kmem.memMap page = true
  maps : MapsMarked kmem { node with memMap := kmem.memMap } maxMemOrder

theorem kmemPageManagerInit_ready {node' : BootmemNode} {memory memory' : Memory}
    (fits : NodeFits node) (run : kmemPageManagerInit node memory = .ok (kmem, node', memory')) :
    ManagerReady node kmem := by
  have addressable := fits.addressable
  obtain ⟨⟨mapped, mappedNode, mappedMemory⟩, maps, rest⟩ := Result.bind_ok run
  obtain ⟨freed, free, final⟩ := Result.bind_ok rest
  obtain ⟨rfl, _⟩ : freed = kmem ∧ _ := Prod.mk.inj (Except.ok.inj final)
  obtain ⟨_, _, _, maps', nothing, begins, counts⟩ := @kmemPageManagerInit_maps node memory (by omega)
  obtain ⟨rfl, _⟩ : mapped = _ ∧ _ := Prod.mk.inj (Except.ok.inj (maps.symm.trans maps'))
  obtain ⟨step, shared, marked, mapAddr, mapSize⟩ :=
    allocFreeAreaMaps_marked fits (by rfl) (by rfl) (fun _ below => absurd below (Nat.not_lt_zero _)) maps
  rw [Nat.zero_add] at marked
  have begins : mapped.beginPpn = node.beginPpn := begins
  have counts : mapped.numPpn = node.numPpn := counts
  obtain ⟨_, free', tiled, paired, frame, bits, _⟩ := @freeUnreserved_spec mapped mapped.numPpn 0 (Nat.zero_add _)
      (nothing.tiled_clearBelow (by omega)) nothing.paired
  obtain rfl := Except.ok.inj (free.symm.trans free')
  refine ⟨⟨tiled, paired⟩, frame.beginPpn.trans begins, frame.numPpn.trans counts,
    frame.memMapAddr.trans mapAddr, frame.memMapSize.trans mapSize, ?_, ?_⟩
  · intro page set
    rw [bits, shared]
    exact step.keeps page set
  · intro ord below nonzero
    rw [frame.areaAddr] at nonzero ⊢
    rw [frame.areaSize]
    obtain ⟨first, isFirst, inside, regionBits⟩ := marked ord below nonzero
    refine ⟨first, ?_, ?_, ?_⟩
    · rw [isFirst, step.same.beginPpn]
    · rw [← step.same.numPpn]
      exact inside
    · intro page lower upper
      show testBit freed.memMap page = true
      rw [bits, shared]
      exact regionBits page lower upper

theorem ledger_managed {start ledger : Ledger} (sound : LedgerSound start)
    (frame : SameFrame kmem start.kmem) (managed : start.managed ⊆ clearPages kmem)
    (run : Relation.ReflTransGen LedgerStep start ledger) :
    LedgerSound ledger ∧ SameFrame kmem ledger.kmem ∧ ledger.managed ⊆ clearPages kmem := by
  refine run_preserves (fun ledger => LedgerSound ledger ∧
    SameFrame kmem ledger.kmem ∧ ledger.managed ⊆ clearPages kmem) ?_ ⟨sound, frame, managed⟩ run
  rintro before after ⟨sound, frame, managed⟩ step
  have kept := sound.step step
  exact ⟨kept.sound, frame.trans kept.frame, kept.managed.trans managed⟩

theorem ManagerReady.clear_page {segments : List RamSegment}
    {page pa : Nat} (boot : BootmemReady segments node) (ready : ManagerReady node kmem)
    (clear : page ∈ clearPages kmem) (lower : (node.beginPpn + page) * 4096 ≤ pa)
    (upper : pa < (node.beginPpn + page + 1) * 4096) :
    (∃ segment ∈ segments, segment.paBegin ≤ pa ∧ pa < segment.paBegin + segment.paLen) ∧
      ¬ (pmaVa2Pa kmem.memMapAddr ≤ pa ∧ pa < pageRoundUp (pmaVa2Pa kmem.memMapAddr + kmem.memMapSize)) ∧
      ∀ ord < maxMemOrder, (kmem.freeAreas ord).freeAreaMapAddr ≠ 0 →
        ¬ (pmaVa2Pa (kmem.freeAreas ord).freeAreaMapAddr ≤ pa ∧ pa < pmaVa2Pa (kmem.freeAreas ord).freeAreaMapAddr +
            (kmem.freeAreas ord).freeAreaMapSize) := by
  obtain ⟨inside, unset⟩ := clear
  have addressable := boot.addressable
  have nodeUnset : testBit node.memMap page = false := by
    by_contra set
    rw [Bool.not_eq_false] at set
    rw [ready.keeps page set] at unset
    cases unset
  refine ⟨?_, ?_, ?_⟩
  · obtain ⟨segment, member, least, most⟩ := boot.available page (ready.numPpn ▸ inside) nodeUnset
    exact ⟨segment, member, by omega, by omega⟩
  · rw [ready.memMapAddr, ready.memMapSize, boot.memMapAddr, pmaVa2Pa_pmaPa2Va, Nat.mod_eq_of_lt (by omega)]
    rintro ⟨_, below⟩
    have inMap : page * 4096 < node.memMapSize := by
      have size := boot.memMapSize
      rw [pageRoundUp_eq (by omega)] at below
      omega
    rw [boot.memMapMarked page inMap] at nodeUnset
    cases nodeUnset
  · intro ord ordered nonzero
    obtain ⟨first, isFirst, within, marked⟩ := ready.maps ord ordered nonzero
    dsimp only at isFirst within marked
    rw [isFirst, pmaVa2Pa_pmaPa2Va, Nat.mod_eq_of_lt (by omega)]
    rintro ⟨least, most⟩
    rw [marked page (by omega) (by omega)] at unset
    cases unset

theorem page_bounds {pa page : Nat} (isPage : pa / 4096 = page) : page * 4096 ≤ pa ∧ pa < (page + 1) * 4096 := by
  omega

/-- The physical address `pa` belongs to nothing that was set aside at boot: a reserved
region, the kernel image, the map of the pages, or a map of the page manager. -/
structure NotSetAside (ram : RamSegment) (kernelImgPaEnd : Nat) (reserved : List (Nat × Nat))
    (kmem : Kmem) (pa : Nat) : Prop where
  reserved : ∀ region ∈ reserved, ¬ (pageRoundDown region.1 ≤ pa ∧ pa < pageRoundUp region.2)
  kernel : ¬ (ram.paBegin ≤ pa ∧ pa < kernelImgPaEnd)
  memMap : ¬ (pmaVa2Pa kmem.memMapAddr ≤ pa ∧ pa < pageRoundUp (pmaVa2Pa kmem.memMapAddr + kmem.memMapSize))
  freeAreaMaps : ∀ ord < maxMemOrder, (kmem.freeAreas ord).freeAreaMapAddr ≠ 0 →
    ¬ (pmaVa2Pa (kmem.freeAreas ord).freeAreaMapAddr ≤ pa ∧
      pa < pmaVa2Pa (kmem.freeAreas ord).freeAreaMapAddr + (kmem.freeAreas ord).freeAreaMapSize)

/-- After boot, `kmem_alloc_pages` never returns a byte that was set aside.  The run may
free pages that `kmem_init` was handed itself. -/
theorem kmemAllocPages_not_set_aside {ram : RamSegment} {kernelImgPaEnd : Nat}
    {reserved : List (Nat × Nat)} {segments : List RamSegment} {stale : Bitmap} {hart : Nat}
    {node node' : BootmemNode} {memory memory' : Memory} {kmem after : Kmem} {state : KmemState Kmem}
    {taken : List Nat} {ledger : Ledger} {order vaddr pa : Nat} (ranges : BootRanges ram kernelImgPaEnd reserved)
    (computed : deviceCalcAvailableRam ram kernelImgPaEnd reserved = .ok segments)
    (bootmem : bootmemInit segments stale = .ok node)
    (managed : kmemPageManagerInit node memory = .ok (kmem, node', memory'))
    (started : kmemInit hart node memory = .ok state) (takenOnce : taken.Nodup)
    (takenByInit : ∀ pn ∈ taken, pn ∈ clearPages kmem ∧ testBit state.heap.kmem.memMap pn = true)
    (run : Relation.ReflTransGen LedgerStep ⟨state.heap.kmem, taken⟩ ledger)
    (alloc : kmemAllocPages order ledger.kmem = .ok (vaddr, after)) (returned : vaddr ≠ 0)
    (lower : pmaVa2Pa vaddr ≤ pa) (upper : pa < pmaVa2Pa vaddr + 2 ^ order * 4096) :
    NotSetAside ram kernelImgPaEnd reserved ledger.kmem pa := by
  have available := deviceCalcAvailableRam_available ranges computed
  have boot : BootmemReady segments node := bootmemInit_ready
    (fun segment member => ⟨(available segment member).beginAligned,
      (available segment member).endAligned, (available segment member).reachable⟩) bootmem
  have addressable := boot.addressable
  have ready : ManagerReady node kmem := kmemPageManagerInit_ready
    ⟨by omega, by rw [boot.offset]; decide, fun nonzero => absurd boot.offset nonzero⟩ managed
  obtain ⟨_, _, _, managed', shrinks⟩ := kmemInit_shrinks (by omega) started
  obtain ⟨rfl, _⟩ := Prod.mk.inj (Except.ok.inj (managed'.symm.trans managed))
  have startSound : LedgerSound ⟨state.heap.kmem, taken⟩ := ⟨shrinks.sound, takenOnce, fun pn member =>
      ⟨shrinks.frame.numPpn ▸ (takenByInit pn member).1.1, (takenByInit pn member).2⟩⟩
  obtain ⟨sound, frame, within⟩ := ledger_managed startSound shrinks.frame
    (Set.union_subset shrinks.clear (fun pn member => (takenByInit pn member).1)) run
  -- The page of `pa` is in the block that was handed out, so it was free at the start.
  obtain ⟨start, rfl, handed, _⟩ := sound.buddy.handedOut alloc returned
  have begins : ledger.kmem.beginPpn = node.beginPpn := frame.beginPpn.trans ready.beginPpn
  rw [pmaVa2Pa_pageVaddr sound.buddy.tiled.addressable handed.start_lt, begins] at lower upper
  dsimp only at lower upper
  obtain ⟨page, isPage⟩ : ∃ page, pa / 4096 = node.beginPpn + page := Nat.exists_eq_add_of_le (by omega)
  obtain ⟨pageLower, pageUpper⟩ := page_bounds isPage
  have inBlock : page ∈ (Block.mk order start).span := ⟨by dsimp only; omega, by dsimp only; omega⟩
  obtain ⟨⟨segment, member, least, most⟩, memMap, maps⟩ :=
    ready.clear_page boot (within (.inl (handed.inFree inBlock))) pageLower pageUpper
  have free := (available segment member).free pa least most
  refine ⟨fun region isReserved => free region (List.mem_append_left _ isReserved), ?_, ?_, ?_⟩
  · have outside := free (ram.paBegin, kernelImgPaEnd) (by simp)
    have kernelBeforeEnd := ranges.kernelBeforeEnd
    have ramReachable := ranges.ramReachable
    unfold vaKernelPmaSize at ramReachable
    rintro ⟨above, below⟩
    exact outside ⟨(pageRoundDown_le (show ram.paBegin < 2 ^ 64 by omega)).trans above,
      Nat.lt_of_lt_of_le below (le_pageRoundUp (show kernelImgPaEnd + 4095 < 2 ^ 64 by omega))⟩
  · rwa [frame.memMapAddr, frame.memMapSize]
  · intro ord ordered
    rw [frame.areaAddr, frame.areaSize]
    exact maps ord ordered

/-- A board with 16 pages of RAM, the kernel in the first and half a page reserved. -/
theorem kmemAllocPages_not_set_aside_small_board : ∃ segments node state vaddr after,
      deviceCalcAvailableRam ⟨0x80000000, 0x10000⟩ 0x80001000 [(0x80002000, 0x80002800)] = .ok segments ∧
      bootmemInit segments (fun _ => 0) = .ok node ∧
      kmemInit 1 node (fun _ => 0) = .ok state ∧
      kmemAllocPages 0 state.heap.kmem = .ok (vaddr, after) ∧ vaddr ≠ 0 ∧
      NotSetAside ⟨0x80000000, 0x10000⟩ 0x80001000 [(0x80002000, 0x80002800)] state.heap.kmem (pmaVa2Pa vaddr) := by
  obtain ⟨segments, computed, node, bootmem, state, started, ⟨vaddr, after⟩, alloc, returned⟩ :
      ∃ segments, deviceCalcAvailableRam ⟨0x80000000, 0x10000⟩ 0x80001000 [(0x80002000, 0x80002800)] = .ok segments ∧
        ∃ node, bootmemInit segments (fun _ => 0) = .ok node ∧ ∃ state, kmemInit 1 node (fun _ => 0) = .ok state ∧
          ∃ handed, kmemAllocPages 0 state.heap.kmem = .ok handed ∧ handed.1 ≠ 0 := by decide +kernel
  obtain ⟨⟨kmem, node', memory'⟩, managed, _⟩ := Result.bind_ok started
  have ranges : BootRanges ⟨0x80000000, 0x10000⟩ 0x80001000 [(0x80002000, 0x80002800)] :=
    ⟨by decide, by decide, by decide, by decide, by decide⟩
  exact ⟨segments, node, state, vaddr, after, computed, bootmem, started, alloc, returned,
    kmemAllocPages_not_set_aside ranges computed bootmem managed started List.nodup_nil
      (by simp) .refl alloc returned (Nat.le_refl _) (Nat.lt_add_of_pos_right (by decide))⟩

end Kalorona.Memory
