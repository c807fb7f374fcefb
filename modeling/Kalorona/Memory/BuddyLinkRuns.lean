import Kalorona.Memory.BootmemRuns
import Kalorona.Memory.BuddyLinks
import Kalorona.Memory.ObjectRuns

namespace Kalorona.Memory

open Kalorona.Data Kalorona.Utilities

/-! # Runs of the buddy allocator in memory

Where `bootmem_alloc` found room for the maps and no block can become free whose bit is behind the
end of its map, the free lists stay lists in every run.
-/

def MapsReach (numPpn : Nat) (pages : Set Nat) : Prop :=
  ∀ ord < maxMemOrder, numPpn.testBit ord = true → 8 ∣ numPpn >>> (ord + 1) →
    ¬ (lastBlock numPpn ord).span ⊆ pages

/-- The memory stands for an allocator on lists whose blocks are merged, and only the given pages,
whose blocks have their bits inside the maps, are free. -/
structure Faithful (pages : Set Nat) (state : LinkedKmem) (kmem : Kmem) : Prop where
  tracks : Tracks state kmem
  canonical : Canonical kmem
  sizes : ∀ ord < maxMemOrder,
    (kmem.freeAreas ord).freeAreaMapSize = freeAreaMapSize kmem.numPpn ord
  reach : MapsReach kmem.numPpn pages
  within : clearPages kmem ⊆ pages

section
variable {pages fewer : Set Nat} {state final : LinkedKmem} {kmem after : Kmem} {order pn count vaddr : Nat}

theorem Faithful.sound (faithful : Faithful pages state kmem) : BuddySound kmem := faithful.canonical.toBuddySound

theorem inBounds_of_reach {toggles : List (Nat × Nat)} (tracks : Tracks state kmem)
    (addressable : kmem.numPpn ≤ 2 ^ 26)
    (sizes : ∀ ord < maxMemOrder, (kmem.freeAreas ord).freeAreaMapSize = freeAreaMapSize kmem.numPpn ord)
    (reach : MapsReach kmem.numPpn pages) (subset : fewer ⊆ pages)
    (blocks : ∀ toggle ∈ toggles, TogglesBlock kmem.numPpn fewer toggle) : InBounds state.kmem toggles := by
  intro toggle member
  have block := blocks toggle member
  have ordered : toggle.1 < maxMemOrder := by
    obtain ⟨_, order, ordered, _⟩ := block
    rwa [order] at ordered
  have size : (state.kmem.freeAreas toggle.1).freeAreaMapSize = freeAreaMapSize kmem.numPpn toggle.1 := by
    rw [tracks.fields]
    exact sizes _ ordered
  rw [size]
  exact block.inBounds addressable fun bit multiple whole =>
    reach _ ordered bit multiple (whole.trans subset)

theorem Faithful.inBounds {toggles : List (Nat × Nat)} (faithful : Faithful pages state kmem)
    (subset : fewer ⊆ pages) (blocks : ∀ toggle ∈ toggles, TogglesBlock kmem.numPpn fewer toggle) :
    InBounds state.kmem toggles := by
  have addressable := faithful.sound.tiled.addressable
  exact inBounds_of_reach faithful.tracks (by omega) faithful.sizes faithful.reach subset blocks

theorem Faithful.next (faithful : Faithful pages state kmem) (tracks : Tracks final after)
    (canonical : Canonical after) (frame : SameFrame kmem after) (within : clearPages after ⊆ pages) :
    Faithful pages final after := by
  refine ⟨tracks, canonical, fun ord ordered => ?_, ?_, within⟩
  · rw [frame.areaSize, frame.numPpn]
    exact faithful.sizes ord ordered
  · rw [frame.numPpn]
    exact faithful.reach

theorem LinkedKmem.kmemAllocPages_ordered (run : state.kmemAllocPages order = .ok (vaddr, final)) :
    order < maxMemOrder := by
  by_contra large
  rw [LinkedKmem.kmemAllocPages, if_pos (Nat.le_of_not_lt large)] at run
  cases run

theorem Faithful.alloc_returns (faithful : Faithful pages state kmem)
    (granted : kmemAllocPages order kmem = .ok (vaddr, after)) :
    ∃ final, state.kmemAllocPages order = .ok (vaddr, final) ∧ Faithful pages final after ∧
      SameFrame kmem after := by
  have sound := faithful.sound
  have bounded := faithful.inBounds faithful.within (kmemAllocPagesToggles_spec order sound.tiled sound.paired)
  obtain ⟨final, run, tracks⟩ := faithful.tracks.kmemAllocPages sound.tiled sound.paired bounded granted
  obtain ⟨canonical, frame, clear⟩ := faithful.canonical.step (.alloc granted : PageStep ∅ kmem after)
  rw [Set.union_empty] at clear
  exact ⟨final, run, faithful.next tracks canonical frame (clear.trans faithful.within), frame⟩

theorem Faithful.alloc (faithful : Faithful pages state kmem)
    (run : state.kmemAllocPages order = .ok (vaddr, final)) :
    ∃ after, kmemAllocPages order kmem = .ok (vaddr, after) ∧ Faithful pages final after ∧
      SameFrame kmem after := by
  have returns : ∃ vaddr after, kmemAllocPages order kmem = .ok (vaddr, after) := by
    rcases faithful.sound.kmemAllocPages (LinkedKmem.kmemAllocPages_ordered run) with
      refused | ⟨start, after, granted, _⟩
    · exact ⟨_, _, refused⟩
    · exact ⟨_, _, granted⟩
  obtain ⟨given, after, granted⟩ := returns
  obtain ⟨_, again, kept⟩ := faithful.alloc_returns granted
  cases again.symm.trans run
  exact ⟨after, granted, kept⟩

/-- A refused request finds no block, and nothing is written. -/
theorem Faithful.refused (faithful : Faithful pages state kmem)
    (run : state.kmemAllocPages order = .ok (0, final)) : final = state := by
  have small := LinkedKmem.kmemAllocPages_ordered run
  rw [LinkedKmem.kmemAllocPages, if_neg (Nat.not_le_of_lt small),
    faithful.tracks.findOrder (show order + (maxMemOrder - order) ≤ maxMemOrder by omega),
    Result.ok_bind] at run
  rcases search : Memory.findOrder kmem (maxMemOrder - order) order with _ | ⟨found, node⟩
  · rw [search] at run
    cases run
    rfl
  · rw [search] at run
    dsimp only at run
    split at run
    · cases run
    obtain ⟨_, _, run⟩ := Result.bind_ok run
    obtain ⟨_, _, run⟩ := Result.bind_ok run
    obtain ⟨_, _, run⟩ := Result.bind_ok run
    obtain ⟨start, _, address, _⟩ := findOrder_split faithful.sound.tiled faithful.sound.paired search
    have null : node = 0 := (Prod.mk.inj (Except.ok.inj run)).1
    exact absurd (address.symm.trans null) (pageVaddr_ne_zero kmem start)

theorem LinkedKmem.kmemFreePage_marked (run : state.kmemFreePage vaddr = .ok final) :
    testBit state.kmem.memMap (vaddrPn state.kmem vaddr) = true := by
  unfold LinkedKmem.kmemFreePage at run
  dsimp only at run
  split at run
  · cases run
  · rw [testAndClearBit_fst] at run
    split at run
    · cases run
    next marked => simpa using marked

section
variable (faithful : Faithful pages state kmem)
include faithful

theorem Faithful.free_returns (allowed : pn ∈ pages)
    (inside : pn < kmem.numPpn) (marked : testBit kmem.memMap pn = true) :
    ∃ final after, state.kmemFreePage (pageVaddr kmem pn) = .ok final ∧
      kmemFreePage (pageVaddr kmem pn) kmem = .ok after ∧ Faithful pages final after ∧
      SameFrame kmem after := by
  have sound := faithful.sound
  obtain ⟨after, freed, canonical, frame, bits⟩ := faithful.canonical.kmemFreePage inside marked
  have bounded := faithful.inBounds (Set.insert_subset allowed faithful.within)
    (kmemFreePageToggles_spec sound.tiled sound.paired inside
      (fun _ clear => by rw [clear.2] at marked; cases marked))
  obtain ⟨final, run, tracks⟩ := faithful.tracks.kmemFreePage bounded freed canonical.tiled.listedOnce
  refine ⟨final, after, run, freed, faithful.next tracks canonical frame ?_, frame⟩
  rintro page ⟨below, clear⟩
  by_cases same : page = pn
  · exact same ▸ allowed
  · rw [bits, decide_eq_false (by simpa using same)] at clear
    exact faithful.within ⟨frame.numPpn ▸ below, clear⟩

theorem Faithful.free (allowed : pn ∈ pages)
    (inside : pn < kmem.numPpn) (run : state.kmemFreePage (pageVaddr kmem pn) = .ok final) :
    ∃ after, kmemFreePage (pageVaddr kmem pn) kmem = .ok after ∧ Faithful pages final after ∧
      SameFrame kmem after := by
  have marked := LinkedKmem.kmemFreePage_marked run
  rw [faithful.tracks.vaddrPn_eq, faithful.tracks.memMap_eq,
    vaddrPn_pageVaddr faithful.sound.tiled.addressable inside] at marked
  obtain ⟨_, after, again, kept⟩ := faithful.free_returns allowed inside marked
  cases again.symm.trans run
  exact ⟨after, kept⟩

theorem Faithful.freePagesFrom (allowed : ∀ page, pn ≤ page → page < pn + count → page ∈ pages ∧ page < kmem.numPpn)
    (run : state.freePagesFrom count (pageVaddr kmem pn) = .ok final) :
    ∃ after, Faithful pages final after ∧ SameFrame kmem after := by
  induction count generalizing pn state kmem with
  | zero =>
    cases run
    exact ⟨kmem, faithful, .refl kmem⟩
  | succ count ih =>
    obtain ⟨first, inside⟩ := allowed pn (Nat.le_refl _) (by omega)
    obtain ⟨middle, free, rest⟩ := Result.bind_ok run
    obtain ⟨next, _, nextFaithful, frame⟩ := faithful.free first inside free
    rcases Nat.eq_zero_or_pos count with none | some
    · subst none
      cases rest
      exact ⟨next, nextFaithful, frame⟩
    · have further := (allowed (pn + 1) (by omega) (by omega)).2
      rw [pageVaddr_succ faithful.sound.tiled.addressable further, ← pageVaddr_congr frame.beginPpn] at rest
      obtain ⟨after, kept, restFrame⟩ := ih nextFaithful (fun page lower upper => by
        rw [frame.numPpn]
        exact allowed page (by omega) (by omega)) rest
      exact ⟨after, kept, frame.trans restFrame⟩

/-- Pages that are not free are the nodes of no list: their bytes are not looked at. -/
theorem Faithful.write {links : Links AreaNode} (inside : pn < kmem.numPpn) (marked : testBit kmem.memMap pn = true)
    (same : ∀ node, node ≠ .page (pageVaddr kmem pn) →
      links.nxt node = state.links.nxt node ∧ links.prv node = state.links.prv node) :
    Faithful pages { state with links } kmem := by
  refine ⟨⟨faithful.tracks.fields, faithful.tracks.apart, faithful.tracks.maps, ?_, faithful.tracks.high⟩,
    faithful.canonical,
    faithful.sizes, faithful.reach, faithful.within⟩
  refine faithful.tracks.lists.sameOn ?_
  rintro _ ⟨ord, ordered, rfl⟩ node member
  refine same node ?_
  rintro rfl
  rcases List.mem_cons.mp member with isHead | listed
  · cases isHead
  · have block : Block.mk ord pn ∈ freeBlocks kmem := ⟨ordered, inside, page_mem_areaMembers.mp listed⟩
    have clear := (faithful.sound.tiled.tiling.subset block (Block.span_start _)).2
    rw [marked] at clear
    cases clear

end

end

/-- The map of a free area is a request that was handed out, and all its bytes are zero. -/
structure MapPlaced (node : BootmemNode) (memory : Memory) (area : FreeArea) (first : Nat) : Prop where
  address : area.freeAreaMapAddr = pmaPa2Va (node.beginPpn * 4096 + first)
  kept : Kept node first area.freeAreaMapSize
  zero : ∀ offset < area.freeAreaMapSize, memory (area.freeAreaMapAddr + offset) = 0

/-- The maps below `ord` lie on pages of the node, apart from each other. -/
structure MapsPlaced (kmem : Kmem) (node : BootmemNode) (memory : Memory) (ord : Nat) : Prop where
  placed : ∀ other < ord, (kmem.freeAreas other).freeAreaMapSize ≠ 0 →
    ∃ first, MapPlaced node memory (kmem.freeAreas other) first
  apart : ∀ left < ord, ∀ right < ord, left ≠ right →
    ∀ offset < (kmem.freeAreas left).freeAreaMapSize,
    ∀ otherOffset < (kmem.freeAreas right).freeAreaMapSize,
    (kmem.freeAreas left).freeAreaMapAddr + offset ≠
      (kmem.freeAreas right).freeAreaMapAddr + otherOffset

section
variable {kmem after : Kmem} {node taken : BootmemNode} {memory : Memory} {area : FreeArea}
  {ord size unit spot first marked : Nat}

theorem MapPlaced.keeps {start : Nat} (placed : MapPlaced node memory area first)
    (request : Taken node size unit spot start marked taken) (positive : 0 < size) (address : Nat) :
    MapPlaced taken (memset memory address 0 size) area first := by
  refine ⟨?_, request.keeps positive placed.kept, fun offset inside => ?_⟩
  · rw [request.same.beginPpn]
    exact placed.address
  · rw [memset_apply]
    split
    · rfl
    · exact placed.zero offset inside

theorem MapPlaced.apart {start : Nat} (placed : MapPlaced node memory area first) (fits : NodeFits node)
    (request : Taken node size unit spot start marked taken) {offset otherOffset : Nat}
    (inside : offset < area.freeAreaMapSize) (otherInside : otherOffset < size) :
    area.freeAreaMapAddr + offset ≠ pmaPa2Va (node.beginPpn * 4096 + start) + otherOffset := by
  have positive : 0 < size := by omega
  have addressable := fits.addressable
  have areaInside := placed.kept.inside
  have requestInside := request.inside positive fits
  rw [placed.address, pmaPa2Va_byte addressable (show first < node.numPpn * 4096 by omega),
    pmaPa2Va_byte addressable (show start < node.numPpn * 4096 by omega)]
  rcases request.apart positive placed.kept with before | behind
  · omega
  · omega

theorem MapsPlaced.extend {before : Memory} (maps : MapsPlaced kmem node before ord)
    (old : ∀ other < ord, (kmem.freeAreas other).freeAreaMapSize ≠ 0 →
      ∃ first, MapPlaced taken memory (kmem.freeAreas other) first)
    (own : area.freeAreaMapSize ≠ 0 → ∃ first, MapPlaced taken memory area first)
    (apart : ∀ other < ord, ∀ offset < (kmem.freeAreas other).freeAreaMapSize, ∀ otherOffset < area.freeAreaMapSize,
      (kmem.freeAreas other).freeAreaMapAddr + offset ≠ area.freeAreaMapAddr + otherOffset) (memMap : Bitmap) :
    MapsPlaced { kmem.setArea ord area with memMap } taken memory (ord + 1) := by
  have kept (other : Nat) (different : other ≠ ord) :
      (kmem.setArea ord area).freeAreas other = kmem.freeAreas other := by
    rw [Kmem.setArea_freeAreas, if_neg different]
  have new : (kmem.setArea ord area).freeAreas ord = area := by rw [Kmem.setArea_freeAreas, if_pos rfl]
  constructor
  · intro other below
    dsimp only
    by_cases here : other = ord
    · rw [here, new]
      exact own
    · rw [kept other here]
      exact old other (by omega)
  · intro left leftBelow right rightBelow different
    dsimp only
    by_cases leftHere : left = ord
    · rw [leftHere, new, kept right (by omega)]
      intro offset inside otherOffset otherInside
      exact (apart right (by omega) otherOffset otherInside offset inside).symm
    · by_cases rightHere : right = ord
      · rw [rightHere, new, kept left leftHere]
        exact apart left (by omega)
      · rw [kept left leftHere, kept right rightHere]
        exact maps.apart left (by omega) right (by omega) different

theorem MapsPlaced.add (maps : MapsPlaced kmem node memory ord) (fits : NodeFits node)
    (request : Taken node area.freeAreaMapSize unit spot first marked taken) (positive : 0 < area.freeAreaMapSize)
    (address : area.freeAreaMapAddr = pmaPa2Va (node.beginPpn * 4096 + first)) (memMap : Bitmap) :
    MapsPlaced { kmem.setArea ord area with memMap } taken
      (memset memory area.freeAreaMapAddr 0 area.freeAreaMapSize) (ord + 1) := by
  refine maps.extend ?_ ?_ ?_ memMap
  · intro other below nonzero
    obtain ⟨start, placed⟩ := maps.placed other below nonzero
    exact ⟨start, placed.keeps request positive _⟩
  · refine fun _ => ⟨first, ?_, request.kept positive fits, fun offset inside => ?_⟩
    · rw [request.same.beginPpn]
      exact address
    · rw [memset_apply, if_pos ⟨Nat.le_add_right _ _, Nat.add_lt_add_left inside _⟩]
  · intro other below offset inside otherOffset otherInside
    obtain ⟨start, placed⟩ := maps.placed other below (by omega)
    rw [address]
    exact placed.apart fits request inside otherInside

theorem allocFreeAreaMaps_before {remaining other : Nat} {final : BootmemNode} {finalMemory : Memory}
    (run : allocFreeAreaMaps remaining ord kmem node memory = .ok (after, final, finalMemory))
    (below : other < ord) : after.freeAreas other = kmem.freeAreas other := by
  induction remaining generalizing ord kmem node memory with
  | zero =>
    cases run
    rfl
  | succ remaining ih =>
    obtain ⟨⟨address, middle, middleMemory⟩, _, rest⟩ := Result.bind_ok run
    rw [ih rest (by omega)]
    exact (Kmem.setArea_freeAreas ..).trans (if_neg (by omega))

theorem MapsPlaced.allocFreeAreaMaps {remaining : Nat} {final : BootmemNode} {finalMemory : Memory}
    (maps : MapsPlaced kmem node memory ord) (fits : NodeFits node) (counts : kmem.numPpn = node.numPpn)
    (run : Memory.allocFreeAreaMaps remaining ord kmem node memory = .ok (after, final, finalMemory))
    (room : ∀ other < ord + remaining, (after.freeAreas other).freeAreaMapSize ≠ 0 →
      (after.freeAreas other).freeAreaMapAddr ≠ 0) : MapsPlaced after final finalMemory (ord + remaining) := by
  induction remaining generalizing ord kmem node memory with
  | zero =>
    cases run
    exact maps
  | succ remaining ih =>
    have addressable := fits.addressable
    obtain ⟨⟨address, middle, middleMemory⟩, alloc, rest⟩ := Result.bind_ok run
    dsimp only at rest
    have own := (allocFreeAreaMaps_before rest (Nat.lt_succ_self ord)).trans
      ((Kmem.setArea_freeAreas ..).trans (if_pos rfl))
    have later := room ord (by omega)
    rw [own] at later
    rw [show ord + (remaining + 1) = ord + 1 + remaining by omega] at room ⊢
    rcases Nat.eq_zero_or_pos (freeAreaMapSize kmem.numPpn ord) with empty | positive
    · rw [empty] at alloc
      cases alloc
      refine ih (maps.extend maps.placed (fun nonzero => absurd empty nonzero) ?_ _) fits counts rest room
      intro _ _ _ _ otherOffset impossible
      dsimp only at impossible
      omega
    · rcases bootmemAlloc_taken 0 memory fits positive (freeAreaMapSize_fits (by omega) ord)
        (show 0 < 64 by decide) with null | ⟨spot, first, marked, taken, given, request⟩
      · cases null.symm.trans alloc
        exact absurd rfl (later (Nat.ne_of_gt positive))
      · cases given.symm.trans alloc
        exact ih (maps.add fits request positive rfl _) (request.step positive fits).fits
          (counts.trans request.same.numPpn.symm) rest room

end

section
variable {state final booted : LinkedKmem} {kmem after mapped : Kmem} {node : BootmemNode}
  {maps memory : Memory} {links : Links AreaNode} {freeable : Set Nat}

theorem NothingListed.bare_eq (nothing : NothingListed kmem) : kmem.bare = kmem := by
  have areas : kmem.bare.freeAreas = kmem.freeAreas := by
    funext ord
    obtain ⟨list, map⟩ := nothing ord
    show FreeArea.mk [] _ (fun _ => 0) _ = kmem.freeAreas ord
    rw [← list, ← map]
  exact congrArg (fun freeAreas => { kmem with freeAreas }) areas

theorem NothingListed.tracks (nothing : NothingListed kmem) (placed : MapsPlaced kmem node maps maxMemOrder)
    (heads : ∀ ord < maxMemOrder, links.nxt (.head ord) = none) : Tracks ⟨kmem, maps, links⟩ kmem := by
  refine ⟨nothing.bare_eq.symm, placed.apart, fun ord ordered offset inside => ?_, ⟨?_, ?_⟩,
    fun ord _ vaddr listed => absurd ((nothing ord).1 ▸ listed) List.not_mem_nil⟩
  · obtain ⟨_, map⟩ := placed.placed ord ordered (by dsimp only at inside; omega)
    rw [(nothing ord).2]
    exact map.zero offset inside
  · rintro _ ⟨ord, ordered, rfl⟩
    simp only [areaMembers, (nothing ord).1]
    exact heads ord ordered
  · rintro _ ⟨ord, _, rfl⟩ _ ⟨other, _, rfl⟩ different
    simp only [areaMembers, (nothing ord).1, (nothing other).1]
    simpa [eq_comm] using different

theorem Tracks.freeUnreserved {count pn : Nat} (tracks : Tracks state kmem)
    (rest : pn + count = kmem.numPpn) (tiled : Tiled kmem (clearBelow kmem pn)) (paired : Paired kmem)
    (bounded : InBounds state.kmem (freeUnreservedToggles count pn kmem))
    (run : Memory.freeUnreserved count pn kmem = .ok after) :
    ∃ final, state.freeUnreserved count pn = .ok final ∧ Tracks final after := by
  induction count generalizing pn kmem state with
  | zero =>
    cases run
    exact ⟨state, rfl, tracks⟩
  | succ count ih =>
    rw [Memory.freeUnreserved] at run
    rw [freeUnreservedToggles] at bounded
    rw [LinkedKmem.freeUnreserved, tracks.memMap_eq, tracks.pageVaddr_eq]
    by_cases reserved : testBit kmem.memMap pn = true
    · rw [if_pos reserved] at run bounded ⊢
      exact ih tracks (by omega) (by rwa [clearBelow_reserved reserved]) paired bounded run
    · rw [if_neg reserved] at run bounded ⊢
      rw [Bool.not_eq_true] at reserved
      obtain ⟨freed, freeRun, freedTiled, freedPaired, frame, _⟩ :=
        freeUnreserved_round tiled paired (by omega) reserved
      rw [freeRun, Result.ok_bind] at run
      dsimp only at bounded
      rw [freeRun, Result.thenList_ok] at bounded
      obtain ⟨middle, middleRun, middleTracks⟩ := (tracks.setMemMap (testAndSetBit kmem.memMap pn).2).kmemFreePage
        (fun toggle early => bounded toggle (List.mem_append_left _ early)) freeRun freedTiled.listedOnce
      rw [middleRun, Result.ok_bind]
      refine ih middleTracks (by rw [frame.numPpn]; omega) freedTiled freedPaired ?_ run
      intro toggle later
      have old := bounded toggle (List.mem_append_right _ later)
      rw [tracks.fields] at old
      rw [middleTracks.fields]
      exact (frame.areaSize _).symm ▸ old

/-- Every map was allocated and has the bits of all pages that are ever free. -/
structure MapsFit (freeable : Set Nat) (mapped : Kmem) : Prop where
  room : ∀ ord < maxMemOrder, (mapped.freeAreas ord).freeAreaMapSize ≠ 0 →
    (mapped.freeAreas ord).freeAreaMapAddr ≠ 0
  reach : MapsReach mapped.numPpn (clearPages mapped ∪ freeable)

theorem kmemPageManagerInit_faithful {node' : BootmemNode} {memory' : Memory} (fits : NodeFits node)
    (maps : allocFreeAreaMaps maxMemOrder 0 (kmemOfBootmem node) node memory = .ok (mapped, node', memory'))
    (fit : MapsFit freeable mapped) (heads : ∀ ord < maxMemOrder, links.nxt (.head ord) = none) :
    ∃ state kmem, LinkedKmem.kmemPageManagerInit node memory links = .ok state ∧
      Faithful (clearPages mapped ∪ freeable) state kmem ∧ kmem.beginPpn = node.beginPpn ∧
      kmem.numPpn = node.numPpn := by
  have addressable := fits.addressable
  obtain ⟨_, _, _, again, nothing, begins, counts⟩ := @kmemPageManagerInit_maps node memory (by omega)
  cases again.symm.trans maps
  have none : MapsPlaced (kmemOfBootmem node) node memory 0 :=
    ⟨fun _ below => absurd below (Nat.not_lt_zero _), fun _ below => absurd below (Nat.not_lt_zero _)⟩
  have room := fit.room
  rw [← Nat.zero_add maxMemOrder] at room
  have placed := none.allocFreeAreaMaps fits rfl maps room
  rw [Nat.zero_add] at placed
  have sizes : ∀ ord < maxMemOrder, (mapped.freeAreas ord).freeAreaMapSize = freeAreaMapSize mapped.numPpn ord := by
    intro ord ordered
    rw [(allocFreeAreaMaps_sizes maps).2, if_pos (by omega), counts]
    rfl
  have tracks := @NothingListed.tracks _ _ _ links nothing placed heads
  have tiled := nothing.tiled_clearBelow (show mapped.beginPpn + mapped.numPpn ≤ 2 ^ 26 by omega)
  obtain ⟨kmem, free, kmemTiled, paired, frame, bits, merged⟩ :=
    freeUnreserved_spec (Nat.zero_add mapped.numPpn) tiled nothing.paired
  obtain ⟨state, run, stateTracks⟩ := tracks.freeUnreserved (Nat.zero_add _) tiled nothing.paired
    (inBounds_of_reach tracks (by omega) sizes fit.reach Set.subset_union_left
      (freeUnreservedToggles_spec (Nat.zero_add _) tiled nothing.paired)) free
  refine ⟨state, kmem, ?_, ⟨stateTracks, ⟨⟨kmemTiled, paired⟩, merged (nothing.merged _)⟩, ?_, ?_, ?_⟩,
    frame.beginPpn.trans begins, frame.numPpn.trans counts⟩
  · rw [LinkedKmem.kmemPageManagerInit, maps]
    exact run
  · intro ord ordered
    rw [frame.areaSize, frame.numPpn]
    exact sizes ord ordered
  · rw [frame.numPpn]
    exact fit.reach
  · rw [clearPages_congr frame.numPpn (fun page _ => bits page)]
    exact Set.subset_union_left

end

/-- One call of the page allocator, or a write of its holder to a page that is not free. -/
inductive LinkedStep (freeable : Set Nat) : LinkedKmem → LinkedKmem → Prop
  | alloc {before after : LinkedKmem} {order vaddr : Nat}
      (run : before.kmemAllocPages order = .ok (vaddr, after)) : LinkedStep freeable before after
  | free {before after : LinkedKmem} {pn : Nat} (allowed : pn ∈ freeable)
      (inside : pn < before.kmem.numPpn)
      (run : before.kmemFreePage (pageVaddr before.kmem pn) = .ok after) :
      LinkedStep freeable before after
  | freePages {before after : LinkedKmem} {pn count : Nat}
      (allowed : ∀ page, pn ≤ page → page < pn + count → page ∈ freeable ∧ page < before.kmem.numPpn)
      (run : before.kmemFreePages (pageVaddr before.kmem pn) count = .ok after) :
      LinkedStep freeable before after
  | write {before : LinkedKmem} {pn : Nat} {links : Links AreaNode} (inside : pn < before.kmem.numPpn)
      (marked : testBit before.kmem.memMap pn = true)
      (same : ∀ node, node ≠ .page (pageVaddr before.kmem pn) →
        links.nxt node = before.links.nxt node ∧ links.prv node = before.links.prv node) :
      LinkedStep freeable before { before with links }

/-- A state that start-up and any later calls lead to. -/
def PageRun (freeable : Set Nat) (node : BootmemNode) (memory : Memory) (links : Links AreaNode)
    (state : LinkedKmem) : Prop :=
  ∃ mapped node' memory' booted,
    allocFreeAreaMaps maxMemOrder 0 (kmemOfBootmem node) node memory = .ok (mapped, node', memory') ∧
    MapsFit freeable mapped ∧ LinkedKmem.kmemPageManagerInit node memory links = .ok booted ∧
    Relation.ReflTransGen (LinkedStep freeable) booted state

def FreeListsEnd (state : LinkedKmem) : Prop := ∀ ord < maxMemOrder, state.links.Terminates (.head ord)

section
variable {pages freeable : Set Nat} {state final : LinkedKmem} {kmem : Kmem} {node : BootmemNode}
  {memory : Memory} {links : Links AreaNode}

theorem Faithful.step (faithful : Faithful pages state kmem) (allowed : freeable ⊆ pages)
    (step : LinkedStep freeable state final) : ∃ after, Faithful pages final after ∧ SameFrame kmem after := by
  have begins (pn : Nat) := faithful.tracks.pageVaddr_eq pn
  have counts : state.kmem.numPpn = kmem.numPpn := by
    rw [faithful.tracks.fields]
    rfl
  cases step with
  | alloc run =>
    obtain ⟨after, _, kept, frame⟩ := faithful.alloc run
    exact ⟨after, kept, frame⟩
  | free isAllowed inside run =>
    rw [begins] at run
    obtain ⟨after, _, kept, frame⟩ := faithful.free (allowed isAllowed) (counts ▸ inside) run
    exact ⟨after, kept, frame⟩
  | freePages areAllowed run =>
    rename_i pn count
    rw [begins, LinkedKmem.kmemFreePages, if_neg (not_not.mpr (pageVaddr_aligned kmem pn))] at run
    refine faithful.freePagesFrom (fun page lower upper => ?_) run
    obtain ⟨isAllowed, inside⟩ := areAllowed page lower upper
    exact ⟨allowed isAllowed, counts ▸ inside⟩
  | write inside marked same =>
    rw [faithful.tracks.memMap_eq] at marked
    rw [begins] at same
    exact ⟨kmem, faithful.write (counts ▸ inside) marked same, .refl kmem⟩

theorem PageRun.faithful (fits : NodeFits node) (heads : ∀ ord < maxMemOrder, links.nxt (.head ord) = none)
    (run : PageRun freeable node memory links state) :
    ∃ pages kmem, freeable ⊆ pages ∧ Faithful pages state kmem ∧ kmem.beginPpn = node.beginPpn ∧
      kmem.numPpn = node.numPpn := by
  obtain ⟨mapped, node', memory', booted, maps, fit, init, steps⟩ := run
  obtain ⟨_, kmem, again, faithful, begins, counts⟩ := kmemPageManagerInit_faithful fits maps fit heads
  cases again.symm.trans init
  have kept := run_preserves (fun state => ∃ kmem, Faithful (clearPages mapped ∪ freeable) state kmem ∧
    kmem.beginPpn = node.beginPpn ∧ kmem.numPpn = node.numPpn) ?_ ⟨kmem, faithful, begins, counts⟩ steps
  · obtain ⟨after, kept⟩ := kept
    exact ⟨_, after, Set.subset_union_right, kept⟩
  · rintro before next ⟨kmem, faithful, begins, counts⟩ step
    obtain ⟨after, kept, frame⟩ := faithful.step Set.subset_union_right step
    exact ⟨after, kept, frame.beginPpn.trans begins, frame.numPpn.trans counts⟩

theorem Faithful.freeListsEnd (faithful : Faithful pages state kmem) : FreeListsEnd state :=
  fun _ ordered => faithful.tracks.lists.terminates (head_mem_areaHeads ordered)

theorem PageRun.freeListsEnd (fits : NodeFits node) (heads : ∀ ord < maxMemOrder, links.nxt (.head ord) = none)
    (run : PageRun freeable node memory links state) : FreeListsEnd state := by
  obtain ⟨_, _, _, faithful, _⟩ := run.faithful fits heads
  exact faithful.freeListsEnd

end

instance : PageAllocator LinkedKmem where
  allocPages := LinkedKmem.kmemAllocPages
  freePage := LinkedKmem.kmemFreePage

theorem Tracks.reserved_eq {state : LinkedKmem} {kmem : Kmem} (tracks : Tracks state kmem) :
    LawfulRuns.reserved state.kmem = LawfulRuns.reserved kmem := by
  rw [tracks.fields]
  rfl

/-- The memory stands for a sound allocator, and RAM ends before the last blocks of the direct map. -/
instance : LawfulRuns LinkedKmem where
  Sound state := ∃ pages kmem, Faithful pages state kmem ∧ LawfulRuns.Sound kmem
  reserved state := LawfulRuns.reserved state.kmem
  alloc {order state} sound small := by
    obtain ⟨pages, kmem, faithful, lawful⟩ := sound
    obtain ⟨vaddr, after, granted, afterLawful, outcome⟩ := LawfulRuns.alloc lawful small
    obtain ⟨final, run, kept, _⟩ := faithful.alloc_returns granted
    refine ⟨vaddr, final, run, ⟨pages, after, kept, afterLawful⟩, ?_⟩
    rw [faithful.tracks.reserved_eq, kept.tracks.reserved_eq]
    exact outcome

/-- A node as boot memory leaves it, with its RAM inside the direct map that the kernel sets up. -/
structure NodeMapped (node : BootmemNode) : Prop extends NodeFits node where
  mapped : (node.beginPpn + node.numPpn) * pageSize ≤ vaKernelPmaSize

def nullLinks {α : Type} : Links α := ⟨fun _ => none, fun _ => none⟩

/-- 16 pages of RAM at 0x80000000, of which those from 4 on are reserved. -/
def sixteenPages : BootmemNode where
  beginPpn := 0x80000
  numPpn := 16
  memMapAddr := 0
  memMap index := if index = 0 then 0xf0 else 0xff
  memMapSize := 2
  lastPage := 0
  lastPageOffset := 0

theorem sixteenPages_mapped : NodeMapped sixteenPages :=
  ⟨⟨by decide, by decide, fun used => absurd rfl used⟩, by decide⟩

theorem sixteenPages_mapsFit :
    ∃ mapped node memory, allocFreeAreaMaps maxMemOrder 0 (kmemOfBootmem sixteenPages) sixteenPages (fun _ => 0) =
        .ok (mapped, node, memory) ∧ MapsFit { pn | pn ≠ 0 } mapped := by
  obtain ⟨⟨mapped, node, memory⟩, run, counts, marked, room⟩ :
      ∃ maps, allocFreeAreaMaps maxMemOrder 0 (kmemOfBootmem sixteenPages) sixteenPages (fun _ => 0) = .ok maps ∧
        maps.1.numPpn = 16 ∧ testBit maps.1.memMap 0 = true ∧ ∀ ord < maxMemOrder,
          (maps.1.freeAreas ord).freeAreaMapSize ≠ 0 → (maps.1.freeAreas ord).freeAreaMapAddr ≠ 0 := by
    decide +kernel
  refine ⟨mapped, node, memory, run, room, fun ord ordered bit _ whole => ?_⟩
  rw [counts] at bit whole
  have order : ∀ ord < maxMemOrder, Nat.testBit 16 ord = true → ord = 4 := by decide
  obtain rfl := order ord ordered bit
  -- the only whole block starts with the page of the maps
  have first : 0 ∈ (lastBlock 16 4).span := Block.span_start (lastBlock 16 4)
  rcases whole first with clear | freed
  · rw [clear.2] at marked
    cases marked
  · exact freed rfl

theorem sixteenPages_run {state : LinkedKmem}
    (init : LinkedKmem.kmemPageManagerInit sixteenPages (fun _ => 0) nullLinks = .ok state) :
    PageRun { pn | pn ≠ 0 } sixteenPages (fun _ => 0) nullLinks state := by
  obtain ⟨mapped, node, memory, maps, fit⟩ := sixteenPages_mapsFit
  exact ⟨mapped, node, memory, state, maps, fit, init, .refl⟩

/-- `8 * octets + 1` pages of RAM at 0x80000000 after `bootmem_init`, where the first page holds
`mem_map`, whose bits behind the last page are set, and `bootmem_reserve`: `first` are the bits of the
first eight pages, and of the others only the last one is not reserved. -/
def raggedPages (octets : Nat) (first : UInt8) : BootmemNode where
  beginPpn := 0x80000
  numPpn := 8 * octets + 1
  memMapAddr := 0xffffffc080000000
  memMap index := if index = 0 then first else if index = octets then 0xfe else 0xff
  memMapSize := octets + 1
  lastPage := 0
  lastPageOffset := 0

end Kalorona.Memory
