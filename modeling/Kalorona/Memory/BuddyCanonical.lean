import Kalorona.Memory.BuddyRuns

namespace Kalorona.Memory

open Kalorona.Data Kalorona.Utilities

/-! # The lists are determined by the map

The listed blocks are the maximal free ones, whatever the history.
-/

/-- A call of `kmem_alloc_pages` that returns, or one of `kmem_free_page` for a page
of the node among those that the callers may free. -/
inductive PageStep (freeable : Set Nat) : Kmem → Kmem → Prop
  | alloc {kmem after : Kmem} {order vaddr : Nat}
      (run : kmemAllocPages order kmem = .ok (vaddr, after)) : PageStep freeable kmem after
  | free {kmem after : Kmem} {pn : Nat} (allowed : pn ∈ freeable) (inside : pn < kmem.numPpn)
      (run : kmemFreePage (pageVaddr kmem pn) kmem = .ok after) : PageStep freeable kmem after

/-- Ways to free pages: one, or several in a row through `kmem_free_pages`. -/
inductive FreeCall
  | page (pn : Nat)
  | pages (pn count : Nat)

def FreeCall.run : FreeCall → Kmem → Result Kmem
  | .page pn, kmem => kmemFreePage (pageVaddr kmem pn) kmem
  | .pages pn count, kmem => kmemFreePages (pageVaddr kmem pn) count kmem

def FreeCall.freed : FreeCall → List Nat
  | .page pn => [pn]
  | .pages pn count => List.range' pn count

def freeCalls : List FreeCall → Kmem → Result Kmem
  | [], kmem => .ok kmem
  | call :: calls, kmem => do
      let kmem ← call.run kmem
      freeCalls calls kmem

def SameAreas (left right : Kmem) : Prop :=
  ∀ ord < maxMemOrder,
    (∀ node, node ∈ (left.freeAreas ord).freePageList ↔ node ∈ (right.freeAreas ord).freePageList) ∧
      (left.freeAreas ord).freeAreaMap = (right.freeAreas ord).freeAreaMap

/-- Sound, and no two free buddies stand side by side. -/
structure Canonical (kmem : Kmem) : Prop extends BuddySound kmem where
  merged : Merged maxMemOrder (freeBlocks kmem)

section
variable {kmem after : Kmem}

theorem Canonical.freeBlocks_eq (canonical : Canonical kmem) :
    freeBlocks kmem = maximalBlocks maxMemOrder (clearPages kmem) :=
  canonical.tiled.tiling.eq_maximalBlocks canonical.tiled.aligned (fun _ listed => listed.1) canonical.merged

theorem Canonical.listed_iff (canonical : Canonical kmem) {ord : Nat} (ordered : ord < maxMemOrder)
    (node : Nat) : node ∈ (kmem.freeAreas ord).freePageList ↔
      ∃ start, Block.mk ord start ∈ maximalBlocks maxMemOrder (clearPages kmem) ∧
        node = pageVaddr kmem start := by
  rw [← canonical.freeBlocks_eq]
  constructor
  · intro listed
    obtain ⟨start, inside, rfl⟩ := canonical.tiled.pages ord ordered node listed
    exact ⟨start, ⟨ordered, inside, listed⟩, rfl⟩
  · rintro ⟨start, ⟨_, _, listed⟩, rfl⟩
    exact listed

theorem Canonical.sameAreas {other : Kmem} (canonical : Canonical kmem)
    (otherCanonical : Canonical other) (begins : other.beginPpn = kmem.beginPpn)
    (pages : clearPages other = clearPages kmem) : SameAreas kmem other := by
  have blocks : freeBlocks kmem = freeBlocks other := by
    rw [canonical.freeBlocks_eq, otherCanonical.freeBlocks_eq, pages]
  refine fun ord ordered => ⟨fun node => ?_, ?_⟩
  · rw [canonical.listed_iff ordered, otherCanonical.listed_iff ordered, pages]
    simp only [pageVaddr_congr begins]
  · refine Bitmap.ext (fun pair => ?_)
    rw [Bool.eq_iff_iff, canonical.paired ord ordered, otherCanonical.paired ord ordered, blocks]

def Clears (freed : List Nat) (kmem after : Kmem) : Prop :=
  SameFrame kmem after ∧ ∀ page, testBit after.memMap page =
    (!decide (page ∈ freed) && testBit kmem.memMap page)

theorem Canonical.kmemFreePage {pn : Nat} (canonical : Canonical kmem) (inside : pn < kmem.numPpn)
    (allocated : testBit kmem.memMap pn = true) :
    ∃ after, Memory.kmemFreePage (pageVaddr kmem pn) kmem = .ok after ∧ Canonical after ∧
      Clears [pn] kmem after := by
  obtain ⟨after, run, sound, frame, bits, merged⟩ := canonical.toBuddySound.kmemFreePage inside allocated
  refine ⟨after, run, ⟨sound, merged canonical.merged⟩, frame, fun page => ?_⟩
  rw [bits]
  by_cases same : page = pn <;> simp [same]

theorem Canonical.kmemFreePages {pn count : Nat} (canonical : Canonical kmem)
    (allocated : ∀ page ∈ List.range' pn count, page < kmem.numPpn ∧ testBit kmem.memMap page = true) :
    ∃ after, Memory.kmemFreePages (pageVaddr kmem pn) count kmem = .ok after ∧ Canonical after ∧
      Clears (List.range' pn count) kmem after := by
  obtain ⟨after, run, sound, frame, bits, merged⟩ := canonical.toBuddySound.kmemFreePages
      (fun page lower upper => allocated page (List.mem_range'_1.mpr ⟨lower, upper⟩))
  refine ⟨after, run, ⟨sound, merged canonical.merged⟩, frame, fun page => ?_⟩
  simp only [bits, List.mem_range'_1]

theorem Canonical.freeCalls {calls : List FreeCall} (canonical : Canonical kmem)
    (once : (calls.flatMap FreeCall.freed).Nodup)
    (allocated : ∀ page ∈ calls.flatMap FreeCall.freed, page < kmem.numPpn ∧ testBit kmem.memMap page = true) :
    ∃ after, Memory.freeCalls calls kmem = .ok after ∧ Canonical after ∧
      Clears (calls.flatMap FreeCall.freed) kmem after := by
  induction calls generalizing kmem with
  | nil => exact ⟨kmem, rfl, canonical, .refl kmem, by simp⟩
  | cons call calls ih =>
    rw [List.flatMap_cons, List.nodup_append] at once
    obtain ⟨_, restOnce, apart⟩ := once
    rw [List.flatMap_cons] at allocated
    have first : ∃ middle, call.run kmem = .ok middle ∧ Canonical middle ∧ Clears call.freed kmem middle := by
      have own := fun page member => allocated page (List.mem_append_left _ member)
      cases call with
      | page pn =>
        obtain ⟨inside, bit⟩ := own pn (List.mem_singleton_self pn)
        exact canonical.kmemFreePage inside bit
      | pages pn count => exact canonical.kmemFreePages own
    obtain ⟨middle, run, middleCanonical, frame, bits⟩ := first
    obtain ⟨after, rest, afterCanonical, restFrame, restBits⟩ := ih middleCanonical restOnce (by
      intro page member
      obtain ⟨inside, bit⟩ := allocated page (List.mem_append_right _ member)
      rw [frame.numPpn, bits, bit]
      exact ⟨inside, by simpa using fun own => apart page own page member rfl⟩)
    refine ⟨after, by rw [Memory.freeCalls, run]; exact rest, afterCanonical, frame.trans restFrame, fun page => ?_⟩
    rw [restBits, bits]
    simp only [List.flatMap_cons, List.mem_append, Bool.decide_or, Bool.not_or]
    rw [← Bool.and_assoc, Bool.and_comm (!decide (page ∈ call.freed))]

theorem clearPages_congr {other : Kmem} (counts : other.numPpn = kmem.numPpn)
    (bits : ∀ pn < kmem.numPpn, testBit other.memMap pn = testBit kmem.memMap pn) :
    clearPages other = clearPages kmem := by
  ext page
  simp only [clearPages, Set.mem_ofPred_eq, counts]
  exact and_congr_right (fun inside => by rw [bits page inside])

theorem kmemFreePage_allocated {pn : Nat} (tiled : Tiled kmem (clearPages kmem))
    (inside : pn < kmem.numPpn) (run : Memory.kmemFreePage (pageVaddr kmem pn) kmem = .ok after) :
    testBit kmem.memMap pn = true := by
  by_contra clear
  rw [Bool.not_eq_true] at clear
  unfold Memory.kmemFreePage at run
  simp only [pageVaddr_aligned, vaddrPn_pageVaddr tiled.addressable inside, testAndClearBit_fst, clear] at run
  cases run

theorem Canonical.step {freeable : Set Nat} (canonical : Canonical kmem) (step : PageStep freeable kmem after) :
    Canonical after ∧ SameFrame kmem after ∧ clearPages after ⊆ clearPages kmem ∪ freeable := by
  cases step with
  | alloc run =>
    rename_i order vaddr
    by_cases refused : vaddr = 0
    · subst refused
      rw [canonical.toBuddySound.refused run]
      exact ⟨canonical, .refl kmem, Set.subset_union_left⟩
    · obtain ⟨start, rfl, handed, sound⟩ := canonical.toBuddySound.handedOut run refused
      refine ⟨⟨sound, handed.merged canonical.merged⟩, handed.frame, ?_⟩
      rw [handed.clearPages_eq]
      exact Set.sdiff_subset.trans Set.subset_union_left
  | free allowed inside run =>
    rename_i pn
    have allocated := kmemFreePage_allocated canonical.tiled inside run
    obtain ⟨_, freed, kept, frame, bits⟩ := canonical.kmemFreePage inside allocated
    obtain rfl := Except.ok.inj (freed.symm.trans run)
    refine ⟨kept, frame, ?_⟩
    rintro page ⟨pageInside, clear⟩
    by_cases same : page = pn
    · exact .inr (same ▸ allowed)
    · simp only [bits, List.mem_singleton, same, decide_false, Bool.not_false, Bool.true_and] at clear
      exact .inl ⟨frame.numPpn ▸ pageInside, clear⟩

theorem Canonical.run {freeable : Set Nat} (canonical : Canonical kmem)
    (run : Relation.ReflTransGen (PageStep freeable) kmem after) :
    Canonical after ∧ SameFrame kmem after ∧ clearPages after ⊆ clearPages kmem ∪ freeable := by
  refine run_preserves (fun state => Canonical state ∧ SameFrame kmem state ∧
    clearPages state ⊆ clearPages kmem ∪ freeable) ?_
    ⟨canonical, .refl kmem, Set.subset_union_left⟩ run
  rintro before next ⟨kept, frame, pages⟩ step
  obtain ⟨nextKept, nextFrame, nextPages⟩ := kept.step step
  exact ⟨nextKept, frame.trans nextFrame, nextPages.trans (Set.union_subset pages Set.subset_union_right)⟩

theorem Canonical.alloc_free {order vaddr : Nat} (canonical : Canonical kmem)
    (run : kmemAllocPages order kmem = .ok (vaddr, after)) (returned : vaddr ≠ 0) :
    ∃ restored, Memory.kmemFreePages vaddr (2 ^ order) after = .ok restored ∧
      restored.memMap = kmem.memMap ∧ SameAreas kmem restored := by
  obtain ⟨start, rfl, handed, sound⟩ := canonical.toBuddySound.handedOut run returned
  have handedCanonical : Canonical after := ⟨sound, handed.merged canonical.merged⟩
  have below : start + 2 ^ order ≤ kmem.numPpn := handed.below
  obtain ⟨restored, freed, restoredCanonical, frame, bits⟩ :=
    @Canonical.kmemFreePages after start (2 ^ order) handedCanonical (by
      intro page member
      have range := List.mem_range'_1.mp member
      rw [handed.frame.numPpn, handed.marked, decide_eq_true range, Bool.true_or]
      exact ⟨by omega, rfl⟩)
  have sameBits (page : Nat) : testBit restored.memMap page = testBit kmem.memMap page := by
    rw [bits, handed.marked]
    simp only [List.mem_range'_1]
    by_cases inside : start ≤ page ∧ page < start + 2 ^ order
    · have clear := (handed.inFree (show page ∈ (Block.mk order start).span from inside)).2
      simp [inside, clear]
    · simp [inside]
  rw [pageVaddr_congr handed.frame.beginPpn] at freed
  have frame' := handed.frame.trans frame
  exact ⟨restored, freed, Bitmap.ext sameBits, canonical.sameAreas restoredCanonical frame'.beginPpn
    (clearPages_congr frame'.numPpn (fun page _ => sameBits page))⟩

end

/-- In every run after the start-up of the page manager no two buddies below the
largest order are both listed, the lists and the maps are those that belong to the
clear pages, frees give the same areas in any order, and freeing what was just
handed out restores everything. -/
theorem buddy_state_canonical (node : BootmemNode) (memory : Memory)
    (addressable : node.beginPpn + node.numPpn ≤ 2 ^ 26) :
    ∃ kmem node' memory', kmemPageManagerInit node memory = .ok (kmem, node', memory') ∧
      ∀ state, Relation.ReflTransGen (PageStep Set.univ) kmem state →
        (∀ block ∈ freeBlocks state, block.order < maxMemOrder - 1 → block.buddy ∉ freeBlocks state) ∧
        (∀ ord < maxMemOrder, ∀ vaddr, vaddr ∈ (state.freeAreas ord).freePageList ↔
          ∃ start, Block.mk ord start ∈ maximalBlocks maxMemOrder (clearPages state) ∧
            vaddr = pageVaddr state start) ∧
        (∀ ord < maxMemOrder, ∀ pair, testBit (state.freeAreas ord).freeAreaMap pair = true ↔
          PairParity (maximalBlocks maxMemOrder (clearPages state)) ord pair) ∧
        (∀ left right : List FreeCall, (left.flatMap FreeCall.freed).Nodup → (right.flatMap FreeCall.freed).Nodup →
          (∀ pn, pn ∈ left.flatMap FreeCall.freed ↔ pn ∈ right.flatMap FreeCall.freed) →
          (∀ pn ∈ left.flatMap FreeCall.freed, pn < state.numPpn ∧ testBit state.memMap pn = true) →
          ∃ leftAfter rightAfter, freeCalls left state = .ok leftAfter ∧
            freeCalls right state = .ok rightAfter ∧ leftAfter.memMap = rightAfter.memMap ∧
            SameAreas leftAfter rightAfter) ∧
        ∀ order vaddr after, kmemAllocPages order state = .ok (vaddr, after) → vaddr ≠ 0 →
          ∃ restored, kmemFreePages vaddr (2 ^ order) after = .ok restored ∧
            restored.memMap = state.memMap ∧ SameAreas state restored := by
  obtain ⟨kmem, node', memory', init, tiled, paired, _, _, merged⟩ :=
    @kmemPageManagerInit_spec node memory addressable
  have start : Canonical kmem := ⟨⟨tiled, paired⟩, merged⟩
  refine ⟨kmem, node', memory', init, fun state run => ?_⟩
  obtain ⟨canonical, _⟩ := start.run run
  refine ⟨fun block listed smaller => canonical.merged block listed (by omega),
    fun ord ordered vaddr => canonical.listed_iff ordered vaddr, ?_, ?_,
    fun order vaddr after run returned => canonical.alloc_free run returned⟩
  · intro ord ordered pair
    rw [canonical.paired ord ordered, canonical.freeBlocks_eq]
  · intro left right leftOnce rightOnce same allocated
    obtain ⟨leftAfter, leftRun, leftCanonical, leftFrame, leftBits⟩ := canonical.freeCalls leftOnce allocated
    obtain ⟨rightAfter, rightRun, rightCanonical, rightFrame, rightBits⟩ :=
      canonical.freeCalls rightOnce (fun pn member => allocated pn ((same pn).mpr member))
    have bits (pn : Nat) : testBit leftAfter.memMap pn = testBit rightAfter.memMap pn := by
      simp only [leftBits, rightBits, same]
    refine ⟨leftAfter, rightAfter, leftRun, rightRun, Bitmap.ext bits,
      leftCanonical.sameAreas rightCanonical (rightFrame.beginPpn.trans leftFrame.beginPpn.symm) ?_⟩
    exact clearPages_congr (rightFrame.numPpn.trans leftFrame.numPpn.symm) (fun pn _ => (bits pn).symm)

/-- Four pages of RAM of which two are free: one of these is handed out and taken
back, and the other two are freed one by one or together. -/
theorem buddy_state_canonical_four_pages : ∃ kmem node memory vaddr after restored oneByOne together,
      kmemPageManagerInit (smallNode 4 1) (fun _ => 0) = .ok (kmem, node, memory) ∧
      kmemAllocPages 0 kmem = .ok (vaddr, after) ∧ vaddr ≠ 0 ∧
      kmemFreePages vaddr (2 ^ 0) after = .ok restored ∧ restored.memMap = kmem.memMap ∧
      SameAreas kmem restored ∧
      freeCalls [.page 1, .page 0] kmem = .ok oneByOne ∧
      freeCalls [.pages 0 2] kmem = .ok together ∧ oneByOne.memMap = together.memMap ∧
      SameAreas oneByOne together := by
  obtain ⟨_, again, counts, first, second, ⟨vaddr, after⟩, alloc, returned⟩ :
      ∃ boot, kmemPageManagerInit (smallNode 4 1) (fun _ => 0) = .ok boot ∧
        boot.1.numPpn = 4 ∧ testBit boot.1.memMap 0 = true ∧ testBit boot.1.memMap 1 = true ∧
          ∃ handed, kmemAllocPages 0 boot.1 = .ok handed ∧ handed.1 ≠ 0 := by
    decide +kernel
  obtain ⟨kmem, node, memory, init, canonical⟩ :=
    buddy_state_canonical (smallNode 4 1) (fun _ => 0) (by decide)
  cases init.symm.trans again
  dsimp only at counts first second
  obtain ⟨_, _, _, frees, allocs⟩ := canonical kmem .refl
  obtain ⟨restored, freed, sameMap, sameAreas⟩ := allocs 0 vaddr after alloc returned
  obtain ⟨oneByOne, together, oneRun, togetherRun, sameFreed, sameFreedAreas⟩ :=
    frees [.page 1, .page 0] [.pages 0 2] (by decide) (by decide) (by simp [FreeCall.freed, or_comm, List.range'])
      (by simp [FreeCall.freed, counts, first, second])
  exact ⟨kmem, node, memory, vaddr, after, restored, oneByOne, together, init, alloc, returned, freed,
    sameMap, sameAreas, oneRun, togetherRun, sameFreed, sameFreedAreas⟩

/-- Two allocated pages with one address: freeing them both panics. -/
theorem freeCalls_panics_beyond_pma : ∃ kmem node memory,
      kmemPageManagerInit (longNode fun _ => 0xff) (fun _ => 0) = .ok (kmem, node, memory) ∧
      2 ^ 26 + 4096 < kmem.numPpn ∧ testBit kmem.memMap 4096 = true ∧
      testBit kmem.memMap (2 ^ 26 + 4096) = true ∧
      freeCalls [.page 4096, .page (2 ^ 26 + 4096)] kmem = .error (.panic "kmem_free_page - freed twice") := by
  obtain ⟨mapped, node, memory, maps, nothing, begins, counts, memMap⟩ :=
    @longNode_maps _ (fun _ => 0) fun page => .inl (testBit_ones page)
  have marked : ∀ page, testBit mapped.memMap page = true := by
    rw [memMap]
    exact testBit_ones
  have free : freeUnreserved mapped.numPpn 0 mapped = .ok mapped :=
    @freeUnreserved_skip mapped mapped.numPpn 0 0 fun page _ _ => marked page
  obtain ⟨after, run, afterBegins, bits⟩ := nothing.free_first begins (marked 4096)
  refine ⟨mapped, { node with memMap := mapped.memMap }, memory, ?_, by omega, marked _, marked _, ?_⟩
  · rw [kmemPageManagerInit, maps, Result.ok_bind]
    dsimp only
    rw [free]
    rfl
  · have again := kmemFreePage_alias afterBegins (by rw [bits, if_pos rfl])
    rw [freeCalls, FreeCall.run, run, Result.ok_bind, freeCalls, FreeCall.run, again]
    rfl

end Kalorona.Memory
