import Kalorona.Memory.BuddyLinkRuns

namespace Kalorona.Memory

open Kalorona.Data Kalorona.Utilities

/-! # Every aligned free run is found

An aligned run of clear pages lies in one listed block, so a list from its order on is not empty.
-/

/-- Page `start` begins an aligned run of `2 ^ order` clear pages of the node. -/
structure ClearRun (kmem : Kmem) (order start : Nat) : Prop where
  aligned : 2 ^ order ∣ start
  clear : ∀ page, start ≤ page → page < start + 2 ^ order →
    page < kmem.numPpn ∧ testBit kmem.memMap page = false

/-- What `kmem_alloc_pages` does for an order: it takes the run from the first block in the
lists of the smallest order that is large enough and has one. -/
structure Served (kmem : Kmem) (order vaddr : Nat) (after : Kmem) : Prop where
  null_iff : vaddr = 0 ↔ ¬ ∃ start, ClearRun kmem order start
  refused : vaddr = 0 → after = kmem
  granted : vaddr ≠ 0 → ∃ start, vaddr = pageVaddr kmem start ∧ ClearRun kmem order start ∧
    (∀ page, testBit after.memMap page =
      (decide (start ≤ page ∧ page < start + 2 ^ order) || testBit kmem.memMap page)) ∧
    ∃ found rest, order ≤ found ∧ found < maxMemOrder ∧
      (kmem.freeAreas found).freePageList = vaddr :: rest ∧ ClearRun kmem found start ∧
      ∀ smaller, order ≤ smaller → smaller < found →
        (kmem.freeAreas smaller).freePageList = []

theorem findOrder_first {kmem : Kmem} {remaining current found node : Nat}
    (search : findOrder kmem remaining current = some (found, node)) :
    (∃ rest, (kmem.freeAreas found).freePageList = node :: rest) ∧
      ∀ smaller, current ≤ smaller → smaller < found →
        (kmem.freeAreas smaller).freePageList = [] := by
  induction remaining generalizing current with
  | zero => cases search
  | succ remaining ih =>
    rw [findOrder] at search
    split at search
    next first rest list =>
      cases search
      exact ⟨⟨rest, list⟩, fun smaller lower upper => by omega⟩
    next list =>
      obtain ⟨listed, empty⟩ := ih search
      refine ⟨listed, fun smaller lower upper => ?_⟩
      by_cases here : smaller = current
      · rw [here, list]
      · exact empty smaller (by omega) upper

section
variable {kmem after : Kmem} {order vaddr : Nat}

theorem ClearRun.span (run : ClearRun kmem order vaddr) : (Block.mk order vaddr).span ⊆ clearPages kmem :=
  fun page inside => run.clear page inside.1 inside.2

theorem Canonical.clearRun {found start : Nat} (canonical : Canonical kmem)
    (listed : Block.mk found start ∈ freeBlocks kmem) : ClearRun kmem found start :=
  ⟨canonical.tiled.aligned _ listed, fun _ lower upper => canonical.tiled.tiling.subset listed ⟨lower, upper⟩⟩

theorem kmemAllocPages_found (run : kmemAllocPages order kmem = .ok (vaddr, after)) (returned : vaddr ≠ 0) :
    ∃ found, findOrder kmem (maxMemOrder - order) order = some (found, vaddr) := by
  rw [kmemAllocPages, if_neg (Nat.not_le_of_lt (kmemAllocPages_ordered run))] at run
  rcases search : findOrder kmem (maxMemOrder - order) order with _ | ⟨found, node⟩
  · rw [search] at run
    cases run
    exact absurd rfl returned
  · rw [search] at run
    dsimp only at run
    split at run
    · cases run
    · obtain ⟨split, _, run⟩ := Result.bind_ok run
      obtain ⟨detached, _, run⟩ := Result.bind_ok run
      obtain ⟨memMap, _, run⟩ := Result.bind_ok run
      cases run
      exact ⟨found, rfl⟩

theorem Canonical.served (canonical : Canonical kmem) (ordered : order < maxMemOrder) :
    ∃ vaddr after, kmemAllocPages order kmem = .ok (vaddr, after) ∧
      Served kmem order vaddr after := by
  rcases kmemAllocPages_spec canonical.tiled canonical.paired ordered (fun _ clear => clear.2) with
    ⟨refused, small⟩ | ⟨start, after, run, handed⟩
  · refine ⟨0, kmem, refused, ⟨fun _ => ?_, fun _ => rfl⟩, fun _ => rfl, fun returned =>
      absurd rfl returned⟩
    rintro ⟨start, free⟩
    -- The listed block around the run is at least as large.
    obtain ⟨larger, listed, covers⟩ := canonical.tiled.tiling.covered canonical.tiled.aligned
      canonical.merged ordered free.aligned free.span
    exact Nat.not_lt_of_le (Block.order_le_of_span_subset covers) (small larger listed)
  · have returned := pageVaddr_ne_zero kmem start
    have free : ClearRun kmem order start := ⟨handed.aligned, fun page lower upper => handed.inFree ⟨lower, upper⟩⟩
    refine ⟨_, after, run, ⟨fun null => absurd null returned, fun none => absurd ⟨start, free⟩ none⟩,
      fun null => absurd null returned, fun _ => ⟨start, rfl, free, handed.marked, ?_⟩⟩
    obtain ⟨found, search⟩ := kmemAllocPages_found run returned
    obtain ⟨lower, upper, listed⟩ := findOrder_some search
    obtain ⟨⟨rest, list⟩, empty⟩ := findOrder_first search
    exact ⟨found, rest, lower, by omega, list,
      canonical.clearRun ⟨by dsimp only; omega, handed.start_lt, listed⟩, empty⟩

theorem Tracks.clearRun_iff {state : LinkedKmem} {start : Nat} (tracks : Tracks state kmem) :
    ClearRun state.kmem order start ↔ ClearRun kmem order start := by
  rw [tracks.fields]
  exact ⟨fun run => ⟨run.aligned, run.clear⟩, fun run => ⟨run.aligned, run.clear⟩⟩

end

/-- In every run on a board whose maps fit, `kmem_alloc_pages` returns null only when no aligned run
of clear pages is left.  Otherwise it marks exactly such a run, the beginning of the first block in
the list of the smallest order from the requested one on that has one. -/
theorem allocation_complete {freeable : Set Nat} {node : BootmemNode} {memory : Memory}
    {links : Links AreaNode} {state : LinkedKmem} {order : Nat} (mapped : NodeMapped node)
    (heads : ∀ ord < maxMemOrder, links.nxt (.head ord) = none)
    (run : PageRun freeable node memory links state) (ordered : order < maxMemOrder) :
    ∃ vaddr after, state.kmemAllocPages order = .ok (vaddr, after) ∧
      (vaddr = 0 ↔ ¬ ∃ start, ClearRun state.kmem order start) ∧ (vaddr = 0 → after = state) ∧
      (vaddr ≠ 0 → ∃ start, vaddr = pageVaddr state.kmem start ∧ ClearRun state.kmem order start ∧
        (∀ page, testBit after.kmem.memMap page =
          (decide (start ≤ page ∧ page < start + 2 ^ order) || testBit state.kmem.memMap page)) ∧
        ∃ found, order ≤ found ∧ found < maxMemOrder ∧
          state.links.nxt (.head found) = some (.page vaddr) ∧ ClearRun state.kmem found start ∧
          ∀ smaller, order ≤ smaller → smaller < found → state.links.nxt (.head smaller) = none) := by
  obtain ⟨pages, kmem, _, faithful, _⟩ := run.faithful mapped.toNodeFits heads
  obtain ⟨vaddr, kmem', alloc, served⟩ := faithful.canonical.served ordered
  obtain ⟨after, linkedAlloc, kept, _⟩ := faithful.alloc_returns alloc
  have tracks := faithful.tracks
  refine ⟨vaddr, after, linkedAlloc, ?_, ?_, fun returned => ?_⟩
  · rw [served.null_iff]
    simp only [tracks.clearRun_iff]
  · rintro rfl
    exact faithful.refused linkedAlloc
  · obtain ⟨start, address, free, marked, found, rest, lower, upper, list, block, smaller⟩ :=
      served.granted returned
    refine ⟨start, address.trans (tracks.pageVaddr_eq start).symm, tracks.clearRun_iff.mpr free,
      fun page => ?_, found, lower, upper, ?_, tracks.clearRun_iff.mpr block, fun ord least less => ?_⟩
    · rw [kept.tracks.memMap_eq, tracks.memMap_eq]
      exact marked page
    · rw [tracks.head_nxt upper, list]
      rfl
    · rw [tracks.head_nxt (by omega), smaller ord least less]
      rfl

/-- Sixteen pages of RAM of which three are free: two make up a block, and the third is alone. -/
theorem allocation_complete_sixteen_pages : ∃ (state after : LinkedKmem) (vaddr : Nat),
      PageRun { pn | pn ≠ 0 } sixteenPages (fun _ => 0) nullLinks state ∧
      state.kmemAllocPages 1 = .ok (vaddr, after) ∧ vaddr ≠ 0 ∧
      ∃ start, vaddr = pageVaddr state.kmem start ∧ ClearRun state.kmem 1 start := by
  obtain ⟨state, init, ⟨vaddr, after⟩, alloc, returned⟩ :
      ∃ state, LinkedKmem.kmemPageManagerInit sixteenPages (fun _ => 0) nullLinks = .ok state ∧
        ∃ handed, state.kmemAllocPages 1 = .ok handed ∧ handed.1 ≠ 0 := by decide +kernel
  have run := sixteenPages_run init
  obtain ⟨_, _, again, _, _, granted⟩ :=
    @allocation_complete _ _ _ _ _ 1 sixteenPages_mapped (fun _ _ => rfl) run (by decide)
  cases again.symm.trans alloc
  obtain ⟨start, address, free, _⟩ := granted returned
  exact ⟨state, after, vaddr, run, alloc, returned, start, address, free⟩

/-- 17 pages of RAM, of which 2, 3 and 16 are free.  The bit of page 16 is the first bit of the map of
order 1, which pages 2 and 3 have set, so page 16 is listed together with a page behind the end.  A
call for two pages gets these, although 2 and 3 are free. -/
theorem kmemAllocPages_panics_past_end :
    ∃ state, LinkedKmem.kmemPageManagerInit (raggedPages 2 0xf1) (fun _ => 0) nullLinks = .ok state ∧
      ClearRun state.kmem 1 2 ∧
      state.kmemAllocPages 1 = .error (.panic "kmem_alloc_pages - allocated") := by
  obtain ⟨state, init, counts, second, third, panics⟩ :
      ∃ state, LinkedKmem.kmemPageManagerInit (raggedPages 2 0xf1) (fun _ => 0) nullLinks = .ok state ∧
        state.kmem.numPpn = 17 ∧ testBit state.kmem.memMap 2 = false ∧ testBit state.kmem.memMap 3 = false ∧
        state.kmemAllocPages 1 = .error (.panic "kmem_alloc_pages - allocated") := by decide +kernel
  refine ⟨state, init, ⟨⟨1, rfl⟩, fun page lower upper => ?_⟩, panics⟩
  obtain rfl | rfl : page = 2 ∨ page = 3 := by omega
  · exact ⟨by omega, second⟩
  · exact ⟨by omega, third⟩

end Kalorona.Memory
