import Kalorona.Memory.BuddyCanonical

namespace Kalorona.Memory

open Kalorona.Data Kalorona.Utilities

/-! # The bits that the page allocator toggles

A map has `num_ppn >> (ord + 1)` bits, rounded up to whole bytes.  The pair in which
the node ends may have one whole block; its bit is one past those the size is
computed from.
-/

def Result.thenList {α β : Type} (result : Result α) (rest : α → List β) : List β :=
  match result with
  | .ok value => rest value
  | .error _ => []

@[simp]
theorem Result.thenList_ok {α β : Type} (value : α) (rest : α → List β) :
    Result.thenList (.ok value) rest = rest value := rfl

/-- The order and the index of every `toggle_bit` in the loop of `kmem_free_page`. -/
def freeFromToggles (pn : Nat) : Nat → Nat → Kmem → List (Nat × Nat)
  | 0, _, _ => []
  | remaining + 1, dep, kmem =>
    let currentPn := pn &&& ulongNot (ulongSub (1 <<< dep) 1)
    let buddyPn := currentPn ^^^ 1 <<< dep
    let mapPos := currentPn >>> (dep + 1)
    let toggled := (toggleBit (kmem.freeAreas dep).freeAreaMap mapPos).1
    let kmem := kmem.toggle dep mapPos
    (dep, mapPos) ::
      if !toggled ∧ dep ≠ maxMemOrder - 1 then
        Result.thenList (listDetach (pageVaddr kmem buddyPn) kmem)
          (freeFromToggles pn remaining (dep + 1))
      else []

def kmemFreePageToggles (addr : Nat) (kmem : Kmem) : List (Nat × Nat) :=
  let pn := vaddrPn kmem addr
  let cleared := testAndClearBit kmem.memMap pn
  if addr &&& (pageSize - 1) ≠ 0 then []
  else if !cleared.1 then []
  else freeFromToggles pn maxMemOrder 0 { kmem with memMap := cleared.2 }

def splitBlockToggles (order blockVaddr : Nat) : Nat → Kmem → List (Nat × Nat)
  | 0, _ => []
  | count + 1, kmem =>
    let ord := order + count + 1
    let blockPn := vaddrPn kmem blockVaddr
    let rightPart := ulong (blockVaddr + ulong ((1 <<< (ord - 1)) <<< pageShift))
    Result.thenList (listDetach blockVaddr kmem) fun kmem =>
      (ord, blockPn >>> (ord + 1)) ::
        Result.thenList (listInsert (ord - 1) blockVaddr (kmem.toggle ord (blockPn >>> (ord + 1))))
          fun kmem => Result.thenList (listInsert (ord - 1) rightPart kmem)
            (splitBlockToggles order blockVaddr count)

def kmemAllocPagesToggles (order : Nat) (kmem : Kmem) : List (Nat × Nat) :=
  if order ≥ maxMemOrder then []
  else match findOrder kmem (maxMemOrder - order) order with
    | none => []
    | some (currentOrder, pageVaddr) =>
      if currentOrder < order then []
      else splitBlockToggles order pageVaddr (currentOrder - order) kmem ++
        Result.thenList (splitBlock order pageVaddr (currentOrder - order) kmem) fun kmem =>
          Result.thenList (listDetach pageVaddr kmem) fun _ =>
            [(order, vaddrPn kmem pageVaddr >>> (order + 1))]

def freeUnreservedToggles : Nat → Nat → Kmem → List (Nat × Nat)
  | 0, _, _ => []
  | count + 1, pn, kmem =>
    if testBit kmem.memMap pn then freeUnreservedToggles count (pn + 1) kmem
    else
      let marked := { kmem with memMap := (testAndSetBit kmem.memMap pn).2 }
      kmemFreePageToggles (pageVaddr kmem pn) marked ++
        Result.thenList (kmemFreePage (pageVaddr kmem pn) marked)
          (freeUnreservedToggles count (pn + 1))

def kmemPageManagerInitToggles (node : BootmemNode) (memory : Memory) : List (Nat × Nat) :=
  Result.thenList (allocFreeAreaMaps maxMemOrder 0 (kmemOfBootmem node) node memory) fun mapped =>
    freeUnreservedToggles mapped.1.numPpn 0 mapped.1

def areaMaps (kmem : Kmem) (ord : Nat) : Bitmap := (kmem.freeAreas ord).freeAreaMap

def toggleMap (maps : Nat → Bitmap) (toggle : Nat × Nat) : Nat → Bitmap :=
  Function.update maps toggle.1 (toggleBit (maps toggle.1) toggle.2).2

theorem areaMaps_toggle (kmem : Kmem) (ord index : Nat) :
    areaMaps (kmem.toggle ord index) = toggleMap (areaMaps kmem) (ord, index) := by
  funext other
  rw [areaMaps, Kmem.toggle_map, toggleMap, Function.update_apply]
  rfl

variable {after kmem : Kmem} {ord dep pn remaining count order index numPpn : Nat}

theorem listInsert_areaMaps {node : Nat}
    (run : listInsert ord node kmem = .ok after) : areaMaps after = areaMaps kmem := by
  unfold listInsert at run
  split at run
  · cases run
  · cases run
    funext other
    exact Kmem.push_map ..

theorem listDetach_areaMaps {node : Nat}
    (run : listDetach node kmem = .ok after) : areaMaps after = areaMaps kmem := by
  unfold listDetach at run
  split at run
  · cases run
  · split at run
    · cases run
      rfl
    · cases run

theorem freeFrom_areaMaps (run : freeFrom pn remaining dep kmem = .ok after) : areaMaps after =
      (freeFromToggles pn remaining dep kmem).foldl toggleMap (areaMaps kmem) := by
  induction remaining generalizing dep kmem with
  | zero =>
    cases run
    rfl
  | succ remaining ih =>
    simp only [freeFrom] at run
    simp only [freeFromToggles, List.foldl_cons, ← areaMaps_toggle]
    split at run
    next merge =>
      obtain ⟨detached, detach, rest⟩ := Result.bind_ok run
      rw [if_pos merge, detach, Result.thenList_ok, ih rest, listDetach_areaMaps detach]
    next stays =>
      rw [if_neg stays, List.foldl_nil, listInsert_areaMaps run]

theorem kmemFreePage_areaMaps {addr : Nat} (run : kmemFreePage addr kmem = .ok after) :
    areaMaps after = (kmemFreePageToggles addr kmem).foldl toggleMap (areaMaps kmem) := by
  unfold kmemFreePage at run
  unfold kmemFreePageToggles
  by_cases aligned : addr &&& (pageSize - 1) ≠ 0
  · rw [if_pos aligned] at run
    cases run
  · rw [if_neg aligned] at run ⊢
    dsimp only at run ⊢
    split at run
    · cases run
    · next allocated =>
      rw [if_neg allocated]
      exact freeFrom_areaMaps run

theorem splitBlock_areaMaps {blockVaddr : Nat}
    (run : splitBlock order blockVaddr count kmem = .ok after) : areaMaps after =
      (splitBlockToggles order blockVaddr count kmem).foldl toggleMap (areaMaps kmem) := by
  induction count generalizing kmem with
  | zero =>
    cases run
    rfl
  | succ count ih =>
    simp only [splitBlock] at run
    obtain ⟨detached, detach, run⟩ := Result.bind_ok run
    obtain ⟨left, leftRun, run⟩ := Result.bind_ok run
    obtain ⟨right, rightRun, rest⟩ := Result.bind_ok run
    simp only [splitBlockToggles, detach, leftRun, rightRun, Result.thenList_ok, List.foldl_cons]
    rw [ih rest, listInsert_areaMaps rightRun, listInsert_areaMaps leftRun, areaMaps_toggle,
      listDetach_areaMaps detach]

theorem kmemAllocPages_areaMaps {vaddr : Nat} (run : kmemAllocPages order kmem = .ok (vaddr, after)) :
    areaMaps after = (kmemAllocPagesToggles order kmem).foldl toggleMap (areaMaps kmem) := by
  have ordered := kmemAllocPages_ordered run
  unfold kmemAllocPages at run
  unfold kmemAllocPagesToggles
  rw [if_neg (Nat.not_le_of_lt ordered)] at run ⊢
  dsimp only at run
  rcases search : findOrder kmem (maxMemOrder - order) order with _ | ⟨found, node⟩
  · rw [search] at run
    cases run
    rfl
  · rw [search] at run
    dsimp only at run ⊢
    by_cases wrong : found < order
    · rw [if_pos wrong] at run
      cases run
    · rw [if_neg wrong] at run ⊢
      obtain ⟨split, splitRun, run⟩ := Result.bind_ok run
      obtain ⟨detached, detach, run⟩ := Result.bind_ok run
      obtain ⟨memMap, marking, run⟩ := Result.bind_ok run
      cases run
      rw [splitRun, Result.thenList_ok, detach, Result.thenList_ok, List.foldl_append,
        ← splitBlock_areaMaps splitRun, ← listDetach_areaMaps detach]
      exact areaMaps_toggle ..

theorem freeUnreserved_areaMaps (run : freeUnreserved count pn kmem = .ok after) :
    areaMaps after = (freeUnreservedToggles count pn kmem).foldl toggleMap (areaMaps kmem) := by
  induction count generalizing pn kmem with
  | zero =>
    cases run
    rfl
  | succ count ih =>
    simp only [freeUnreserved] at run
    simp only [freeUnreservedToggles]
    split at run
    next reserved =>
      rw [if_pos reserved]
      exact ih run
    next available =>
      obtain ⟨freed, free, rest⟩ := Result.bind_ok run
      have freedMaps := kmemFreePage_areaMaps free
      rw [if_neg available, free, Result.thenList_ok, List.foldl_append, ih rest, freedMaps]
      rfl

theorem testBit_foldl_toggleMap {toggles : List (Nat × Nat)}
    (untouched : (ord, index) ∉ toggles) (maps : Nat → Bitmap) :
    testBit (toggles.foldl toggleMap maps ord) index = testBit (maps ord) index := by
  induction toggles generalizing maps with
  | nil => rfl
  | cons first rest ih =>
    rw [List.mem_cons, not_or] at untouched
    rw [List.foldl_cons, ih untouched.2, toggleMap, Function.update_apply]
    split
    next same =>
      rw [same, testBit_toggleBit, if_neg]
      rintro rfl
      exact untouched.1 (by rw [same])
    next => rfl

/-- The bit is that of a whole block of `pages`. -/
def TogglesBlock (numPpn : Nat) (pages : Set Nat) (toggle : Nat × Nat) : Prop :=
  ∃ block : Block, block.order = toggle.1 ∧ block.order < maxMemOrder ∧ block.Aligned ∧
    block.start / 2 ^ (block.order + 1) = toggle.2 ∧
    block.start + 2 ^ block.order ≤ numPpn ∧ block.span ⊆ pages

theorem TogglesBlock.mono {pages more : Set Nat} {toggle : Nat × Nat}
    (toggles : TogglesBlock numPpn pages toggle) (subset : pages ⊆ more) : TogglesBlock numPpn more toggle := by
  obtain ⟨block, order, ordered, aligned, index, below, inside⟩ := toggles
  exact ⟨block, order, ordered, aligned, index, below, inside.trans subset⟩

section
variable {kmem : Kmem} {free : Set Nat}

theorem Climbing.togglesRound (climbing : Climbing kmem free pn dep)
    (remaining : Nat) (ordered : dep < maxMemOrder) : freeFromToggles pn (remaining + 1) dep kmem =
      (dep, (Block.around dep pn).start / 2 ^ (dep + 1)) :: if testBit (kmem.freeAreas dep).freeAreaMap
            ((Block.around dep pn).start / 2 ^ (dep + 1)) = true ∧ dep ≠ maxMemOrder - 1 then
          Result.thenList (listDetach (pageVaddr kmem (Block.around dep pn).buddy.start)
            (kmem.toggle dep ((Block.around dep pn).start / 2 ^ (dep + 1))))
            (freeFromToggles pn remaining (dep + 1)) else [] := by
  have addressable := climbing.tiled.addressable
  have inside := climbing.inside
  have current := @and_mask_around pn dep (by omega) (Nat.lt_trans ordered (by decide))
  simp only [freeFromToggles, Nat.one_shiftLeft, current, Nat.shiftRight_eq_div_pow, toggleBit_fst, Bool.not_not]
  rfl

theorem Climbing.toggles (climbing : Climbing kmem free pn dep)
    (orders : dep + (remaining + 1) = maxMemOrder) : ∀ toggle ∈ freeFromToggles pn (remaining + 1) dep kmem,
      TogglesBlock kmem.numPpn (free ∪ (Block.around dep pn).span) toggle := by
  have own {kmem : Kmem} {free : Set Nat} {dep : Nat} (climbing : Climbing kmem free pn dep)
      (ordered : dep < maxMemOrder) :
      TogglesBlock kmem.numPpn (free ∪ (Block.around dep pn).span)
        (dep, (Block.around dep pn).start / 2 ^ (dep + 1)) :=
    ⟨Block.around dep pn, rfl, ordered, Block.around_aligned dep pn, rfl, climbing.below, Set.subset_union_right⟩
  induction remaining generalizing dep kmem free with
  | zero =>
    have top : ¬ dep ≠ maxMemOrder - 1 := by omega
    rw [climbing.togglesRound 0 (by omega), if_neg (fun both => top both.2)]
    intro toggle member
    rw [List.mem_singleton.mp member]
    exact own climbing (by omega)
  | succ remaining ih =>
    have ordered : dep < maxMemOrder := by omega
    rw [climbing.togglesRound _ ordered]
    intro toggle member
    rcases List.mem_cons.mp member with rfl | member
    · exact own climbing ordered
    · split at member
      next merge =>
        obtain ⟨merged, run, climbed, same, _, whole⟩ := climbing.merge ((climbing.buddy_listed ordered).mp merge.1)
        rw [run, Result.thenList_ok] at member
        rw [← whole, ← same.numPpn]
        exact ih climbed (by omega) toggle member
      next => cases member

theorem kmemFreePageToggles_spec {pn : Nat} (tiled : Tiled kmem free) (paired : Paired kmem)
    (inside : pn < kmem.numPpn) (notFree : testBit kmem.memMap pn = true → pn ∉ free) :
    ∀ toggle ∈ kmemFreePageToggles (pageVaddr kmem pn) kmem,
      TogglesBlock kmem.numPpn (insert pn free) toggle := by
  have single := Block.around_zero_span pn
  intro toggle member
  unfold kmemFreePageToggles at member
  dsimp only at member
  rw [vaddrPn_pageVaddr tiled.addressable inside, testAndClearBit_fst,
    if_neg (not_not.mpr (pageVaddr_aligned kmem pn))] at member
  split at member
  · cases member
  · next allocated =>
    have climbing : Climbing { kmem with memMap := (testAndClearBit kmem.memMap pn).2 } free pn 0 :=
      ⟨tiled.congr rfl rfl (fun _ => rfl), paired.congr rfl rfl (fun _ => rfl) (fun _ => rfl),
        inside, by rw [Block.around_zero]; exact inside,
        by rw [single]; exact Set.disjoint_singleton_left.mpr (notFree (by simpa using allocated))⟩
    have toggles := climbing.toggles (show 0 + (10 + 1) = maxMemOrder from rfl) toggle member
    rwa [single, Set.union_comm, Set.singleton_union] at toggles

theorem Tiled.togglesBlock {block : Block} (tiled : Tiled kmem free) (listed : block ∈ freeBlocks kmem) :
    TogglesBlock kmem.numPpn free (block.order, block.start / 2 ^ (block.order + 1)) :=
  ⟨block, rfl, listed.1, tiled.aligned _ listed, rfl, tiled.below _ listed, tiled.tiling.subset listed⟩

theorem splitBlockToggles_spec {start : Nat} (tiled : Tiled kmem free)
    (paired : Paired kmem) (member : Block.mk (order + count) start ∈ freeBlocks kmem) :
    ∀ toggle ∈ splitBlockToggles order (pageVaddr kmem start) count kmem,
      TogglesBlock kmem.numPpn free toggle := by
  induction count generalizing kmem with
  | zero =>
    intro toggle none
    cases none
  | succ count ih =>
    obtain ⟨detached, left, halved, detach, leftRun, rightRun, halvedTiled, halvedPaired, same,
      blocks⟩ := @Tiled.halve kmem free (order + count) start tiled paired member
    have ownBlock := tiled.togglesBlock member
    simp only [splitBlockToggles, vaddrPn_pageVaddr tiled.addressable member.2.1,
      Nat.shiftRight_eq_div_pow, detach, Result.thenList_ok, Nat.add_sub_cancel, leftRun, rightRun]
    intro toggle listed
    rcases List.mem_cons.mp listed with rfl | listed
    · exact ownBlock
    · rw [← same.numPpn]
      rw [← pageVaddr_congr same.beginPpn] at listed
      exact ih halvedTiled halvedPaired (by rw [blocks]; exact .inr (.inl rfl)) toggle listed

theorem kmemAllocPagesToggles_spec (order : Nat) (tiled : Tiled kmem free) (paired : Paired kmem) :
    ∀ toggle ∈ kmemAllocPagesToggles order kmem, TogglesBlock kmem.numPpn free toggle := by
  intro toggle member
  unfold kmemAllocPagesToggles at member
  split at member
  · cases member
  · rcases search : findOrder kmem (maxMemOrder - order) order with _ | ⟨found, node⟩
    · rw [search] at member
      cases member
    · rw [search] at member
      obtain ⟨start, split, rfl, lower, listed, run, splitTiled, splitPaired, same, smallest, _⟩ :=
        findOrder_split tiled paired search
      dsimp only at member
      have pagePn : vaddrPn split (pageVaddr kmem start) = start := by
        rw [← pageVaddr_congr same.beginPpn]
        exact vaddrPn_pageVaddr splitTiled.addressable smallest.2.1
      rw [if_neg (Nat.not_lt_of_le lower), run, Result.thenList_ok, List.mem_append] at member
      rcases member with early | last
      · exact splitBlockToggles_spec tiled paired listed toggle early
      · obtain ⟨detached, detach, _⟩ := splitTiled.listDetach_toggle splitPaired smallest
        rw [pageVaddr_congr same.beginPpn] at detach
        rw [detach, Result.thenList_ok, List.mem_singleton, pagePn, Nat.shiftRight_eq_div_pow] at last
        rw [last, ← same.numPpn]
        exact splitTiled.togglesBlock smallest

theorem freeUnreservedToggles_spec (rest : pn + count = kmem.numPpn)
    (tiled : Tiled kmem (clearBelow kmem pn)) (paired : Paired kmem) :
    ∀ toggle ∈ freeUnreservedToggles count pn kmem,
      TogglesBlock kmem.numPpn (clearPages kmem) toggle := by
  induction count generalizing pn kmem with
  | zero =>
    intro toggle none
    cases none
  | succ count ih =>
    intro toggle member
    rw [freeUnreservedToggles] at member
    split at member
    next reserved =>
      exact ih (by omega) (by rwa [clearBelow_reserved reserved]) paired toggle member
    next available =>
      rw [Bool.not_eq_true] at available
      have inside : pn < kmem.numPpn := by omega
      obtain ⟨freed, run, freedTiled, freedPaired, frame, bits, _⟩ :=
        freeUnreserved_round tiled paired inside available
      rcases List.mem_append.mp member with own | later
      · refine (@kmemFreePageToggles_spec { kmem with memMap := (testAndSetBit kmem.memMap pn).2 }
          (clearBelow kmem pn) pn (tiled.congr rfl rfl (fun _ => rfl))
          (paired.congr rfl rfl (fun _ => rfl) (fun _ => rfl)) inside
          (fun _ below => Nat.lt_irrefl _ below.1) toggle own).mono ?_
        rintro page (rfl | ⟨below, clear⟩)
        · exact ⟨inside, available⟩
        · exact ⟨Nat.lt_trans below inside, clear⟩
      · rw [run, Result.thenList_ok] at later
        rw [← frame.numPpn, ← clearPages_congr frame.numPpn (fun page _ => bits page)]
        exact ih (by rw [frame.numPpn]; omega) freedTiled freedPaired toggle later

end

/-- No toggle is behind the end of its map. -/
def InBounds (kmem : Kmem) (toggles : List (Nat × Nat)) : Prop :=
  ∀ toggle ∈ toggles, toggle.2 < 8 * (kmem.freeAreas toggle.1).freeAreaMapSize

def lastBlock (numPpn ord : Nat) : Block :=
  ⟨ord, numPpn >>> (ord + 1) * 2 ^ (ord + 1)⟩

theorem lastBlock_pair (numPpn ord : Nat) : (lastBlock numPpn ord).start / 2 ^ (ord + 1) = numPpn >>> (ord + 1) :=
  Nat.mul_div_cancel _ (Nat.two_pow_pos _)

theorem lastBlock_parent_aligned (numPpn ord : Nat) : (Block.mk (ord + 1) (lastBlock numPpn ord).start).Aligned :=
  Dvd.intro_left _ rfl

theorem lastBlock_aligned (numPpn ord : Nat) : (lastBlock numPpn ord).Aligned :=
  (Block.buddy_left_half (lastBlock_parent_aligned numPpn ord)).1

theorem lt_lastBlock_end (numPpn ord : Nat) : numPpn < (lastBlock numPpn ord).start + 2 ^ (ord + 1) := by
  have remainder := Nat.mod_lt numPpn (Nat.two_pow_pos (ord + 1))
  have whole := Nat.div_add_mod' numPpn (2 ^ (ord + 1))
  simp only [lastBlock, Nat.shiftRight_eq_div_pow]
  omega

theorem freeAreaMapSize_eq (addressable : numPpn ≤ 2 ^ 26) (ord : Nat) :
    freeAreaMapSize numPpn ord = (numPpn >>> (ord + 1) + 7) / 8 := by
  have half : numPpn >>> (ord + 1) ≤ numPpn := by
    rw [Nat.shiftRight_eq_div_pow]
    exact Nat.div_le_self ..
  unfold freeAreaMapSize
  generalize numPpn >>> (ord + 1) = pairs at half ⊢
  rw [ulong_of_lt (by omega), Nat.shiftRight_eq_div_pow _ 3]
  omega

theorem TogglesBlock.inBounds {pages : Set Nat} {toggle : Nat × Nat}
    (toggles : TogglesBlock numPpn pages toggle) (addressable : numPpn ≤ 2 ^ 26)
    (spared : numPpn.testBit toggle.1 = true → 8 ∣ numPpn >>> (toggle.1 + 1) →
      ¬ (lastBlock numPpn toggle.1).span ⊆ pages) : toggle.2 < 8 * freeAreaMapSize numPpn toggle.1 := by
  obtain ⟨ord, bit⟩ := toggle
  obtain ⟨⟨ord, start⟩, rfl, -, aligned, index, below, inside⟩ := toggles
  obtain ⟨cell, startEq⟩ := aligned.index
  dsimp only at spared index below startEq ⊢
  rw [freeAreaMapSize_eq addressable]
  have pairs : numPpn >>> (ord + 1) = numPpn / 2 ^ ord / 2 := by
    rw [Nat.shiftRight_eq_div_pow, Nat.pow_succ, Nat.div_div_eq_div_mul]
  have cells : cell + 1 ≤ numPpn / 2 ^ ord := by
    rw [Nat.le_div_iff_mul_le (Nat.two_pow_pos ord), Nat.add_mul, Nat.one_mul, ← startEq]
    exact below
  have pair : bit = cell / 2 := by
    rw [← index, startEq, Nat.pow_succ', Nat.mul_div_mul_right _ _ (Nat.two_pow_pos _)]
  by_contra beyond
  have last : cell = 2 * (numPpn >>> (ord + 1)) := by omega
  have odd : numPpn / 2 ^ ord % 2 = 1 := by omega
  refine spared ?_ (by omega) ?_
  · rw [Nat.testBit_eq_decide_div_mod_eq, decide_eq_true_eq]
    exact odd
  · have same : lastBlock numPpn ord = ⟨ord, start⟩ := by
      rw [lastBlock, startEq, last, Nat.pow_succ']
      congr 1
      ring
    rwa [same]

theorem allocFreeAreaMaps_sizes {node node' : BootmemNode} {memory memory' : Memory}
    (run : allocFreeAreaMaps remaining ord kmem node memory = .ok (after, node', memory')) :
    after.numPpn = kmem.numPpn ∧ ∀ other, (after.freeAreas other).freeAreaMapSize =
      if ord ≤ other ∧ other < ord + remaining then freeAreaMapSize kmem.numPpn other
      else (kmem.freeAreas other).freeAreaMapSize := by
  induction remaining generalizing ord kmem node memory with
  | zero =>
    cases run
    exact ⟨rfl, fun other => (if_neg (by omega)).symm⟩
  | succ remaining ih =>
    simp only [allocFreeAreaMaps] at run
    obtain ⟨⟨address, middle, memory₁⟩, _, rest⟩ := Result.bind_ok run
    obtain ⟨counts, sizes⟩ := ih rest
    refine ⟨counts, fun other => ?_⟩
    rw [sizes]
    show (if _ then freeAreaMapSize kmem.numPpn other else ((kmem.setArea ord _).freeAreas other).freeAreaMapSize) = _
    rw [Kmem.setArea_freeAreas]
    by_cases first : other = ord
    · rw [if_neg (by omega), if_pos first, if_pos (by omega), first]
    · rw [if_neg first]
      by_cases later : ord + 1 ≤ other ∧ other < ord + 1 + remaining
      · rw [if_pos later, if_pos (by omega)]
      · rw [if_neg later, if_neg (by omega)]

section
variable {kmem state : Kmem} {freeable : Set Nat} {ord : Nat}

theorem Canonical.lastBlock_parity (canonical : Canonical kmem) (ordered : ord < maxMemOrder)
    (free : (lastBlock kmem.numPpn ord).span ⊆ clearPages kmem) :
    testBit (kmem.freeAreas ord).freeAreaMap (kmem.numPpn >>> (ord + 1)) = true := by
  have parentAligned := lastBlock_parent_aligned kmem.numPpn ord
  have notWhole : ¬ (Block.mk (ord + 1) (lastBlock kmem.numPpn ord).start).span ⊆ clearPages kmem := by
    intro subset
    have ends := lt_lastBlock_end kmem.numPpn ord
    have positive := Nat.two_pow_pos (ord + 1)
    have last := (@subset ((lastBlock kmem.numPpn ord).start + 2 ^ (ord + 1) - 1)
      ⟨by dsimp only; omega, by dsimp only; omega⟩).1
    omega
  obtain ⟨aligned, buddy⟩ := Block.buddy_left_half parentAligned
  have listed : lastBlock kmem.numPpn ord ∈ freeBlocks kmem := by
    rw [canonical.freeBlocks_eq]
    refine ⟨ordered, aligned, free, fun larger _ largerAligned inside covers => ?_⟩
    rcases Nat.lt_or_ge ord larger.order with above | same
    · have start := covers (lastBlock kmem.numPpn ord).span_start
      exact absurd ((parentAligned.span_subset largerAligned above (Block.span_start _) start).trans inside) notWhole
    · exact (aligned.eq_of_span_subset largerAligned same covers).symm
  have buddyAbsent : (lastBlock kmem.numPpn ord).buddy ∉ freeBlocks kmem := by
    intro buddyListed
    refine notWhole ?_
    have buddyFree := canonical.tiled.tiling.subset buddyListed
    rw [show (lastBlock kmem.numPpn ord).buddy = _ from buddy] at buddyFree
    rw [Block.halves_span]
    exact Set.union_subset free buddyFree
  rw [canonical.paired ord ordered, ← lastBlock_pair kmem.numPpn ord]
  exact (lastBlock_aligned kmem.numPpn ord).pairParity.mpr (.inl ⟨listed, buddyAbsent⟩)

theorem Canonical.free_each {pages : List Nat} (canonical : Canonical kmem) (once : pages.Nodup)
    (marked : ∀ pn ∈ pages, pn ∈ freeable ∧ pn < kmem.numPpn ∧ testBit kmem.memMap pn = true) :
    ∃ after, Relation.ReflTransGen (PageStep freeable) kmem after ∧ after.numPpn = kmem.numPpn ∧
      ∀ page, testBit after.memMap page = (!decide (page ∈ pages) && testBit kmem.memMap page) := by
  induction pages generalizing kmem with
  | nil => exact ⟨kmem, .refl, rfl, by simp⟩
  | cons pn pages ih =>
    obtain ⟨fresh, restOnce⟩ := List.nodup_cons.mp once
    obtain ⟨allowed, inside, allocated⟩ := marked pn List.mem_cons_self
    obtain ⟨middle, run, middleCanonical, frame, bits⟩ := canonical.kmemFreePage inside allocated
    obtain ⟨after, rest, counts, restBits⟩ := ih middleCanonical restOnce (by
      intro page member
      obtain ⟨pageAllowed, pageInside, pageMarked⟩ := marked page (List.mem_cons_of_mem _ member)
      refine ⟨pageAllowed, by rw [frame.numPpn]; exact pageInside, ?_⟩
      rw [bits, pageMarked]
      simpa using fun same : page = pn => fresh (same ▸ member))
    refine ⟨after, .head (.free allowed inside run) rest, counts.trans frame.numPpn, fun page => ?_⟩
    rw [restBits, bits]
    by_cases same : page = pn <;> simp [same]

def CallsInBounds (freeable : Set Nat) (kmem : Kmem) : Prop :=
  (∀ order, InBounds kmem (kmemAllocPagesToggles order kmem)) ∧
    ∀ pn ∈ freeable, pn < kmem.numPpn →
      InBounds kmem (kmemFreePageToggles (pageVaddr kmem pn) kmem)

theorem PageStep.outside_stays (step : PageStep freeable kmem state)
    (bounded : CallsInBounds freeable kmem) (outside : 8 * (kmem.freeAreas ord).freeAreaMapSize ≤ index) :
    testBit (areaMaps state ord) index = testBit (areaMaps kmem ord) index := by
  have absent {toggles : List (Nat × Nat)} (inBounds : InBounds kmem toggles) : (ord, index) ∉ toggles :=
    fun member => Nat.not_lt_of_le outside (inBounds _ member)
  cases step with
  | alloc run =>
    rw [kmemAllocPages_areaMaps run]
    exact testBit_foldl_toggleMap (absent (bounded.1 _)) _
  | free allowed inside run =>
    rw [kmemFreePage_areaMaps run]
    exact testBit_foldl_toggleMap (absent (bounded.2 _ allowed inside)) _

theorem outside_stays (canonical : Canonical kmem)
    (bounded : ∀ state, Relation.ReflTransGen (PageStep freeable) kmem state → CallsInBounds freeable state)
    (outside : 8 * (kmem.freeAreas ord).freeAreaMapSize ≤ index)
    (run : Relation.ReflTransGen (PageStep freeable) kmem state) :
    testBit (areaMaps state ord) index = testBit (areaMaps kmem ord) index := by
  induction run with
  | refl => rfl
  | tail before step ih =>
    obtain ⟨_, frame, _⟩ := canonical.run before
    rw [step.outside_stays (bounded _ before) (by rw [frame.areaSize]; exact outside), ih]

end

/-- What start-up leaves, and the bits it has toggled on the way. -/
structure StartedUp (node : BootmemNode) (memory : Memory) (kmem : Kmem) : Prop where
  canonical : Canonical kmem
  numPpn : kmem.numPpn = node.numPpn
  sizes : ∀ ord < maxMemOrder,
    (kmem.freeAreas ord).freeAreaMapSize = freeAreaMapSize node.numPpn ord
  toggles : ∀ toggle ∈ kmemPageManagerInitToggles node memory,
    TogglesBlock node.numPpn (clearPages kmem) toggle
  untouched : ∀ ord index, (ord, index) ∉ kmemPageManagerInitToggles node memory →
    testBit (areaMaps kmem ord) index = false

theorem kmemPageManagerInit_startedUp {node : BootmemNode} {memory : Memory}
    (addressable : node.beginPpn + node.numPpn ≤ 2 ^ 26) :
    ∃ kmem node' memory', kmemPageManagerInit node memory = .ok (kmem, node', memory') ∧
      StartedUp node memory kmem := by
  obtain ⟨mapped, node', memory', maps, nothing, begins, counts⟩ := @kmemPageManagerInit_maps node memory (by omega)
  have tiled := nothing.tiled_clearBelow (show mapped.beginPpn + mapped.numPpn ≤ 2 ^ 26 by omega)
  obtain ⟨kmem, run, kmemTiled, paired, frame, bits, merged⟩ :=
    freeUnreserved_spec (Nat.zero_add mapped.numPpn) tiled nothing.paired
  have togglesEq : kmemPageManagerInitToggles node memory = freeUnreservedToggles mapped.numPpn 0 mapped := by
    rw [kmemPageManagerInitToggles, maps, Result.thenList_ok]
  refine ⟨kmem, { node' with memMap := kmem.memMap }, memory', ?_,
    ⟨⟨kmemTiled, paired⟩, merged (nothing.merged _)⟩, frame.numPpn.trans counts, ?_, ?_, ?_⟩
  · simp only [kmemPageManagerInit, maps, Result.ok_bind, run]
    rfl
  · intro ord ordered
    rw [frame.areaSize, (allocFreeAreaMaps_sizes maps).2, if_pos (by omega)]
    rfl
  · rw [togglesEq, ← counts, clearPages_congr frame.numPpn (fun page _ => bits page)]
    exact freeUnreservedToggles_spec (Nat.zero_add _) tiled nothing.paired
  · intro ord index absent
    rw [togglesEq] at absent
    rw [freeUnreserved_areaMaps run, testBit_foldl_toggleMap absent, areaMaps, (nothing ord).2, testBit_eq]
    exact Nat.zero_testBit _

section
variable {node : BootmemNode} {memory : Memory} {kmem : Kmem} {freeable : Set Nat} {ord : Nat}

theorem StartedUp.leaves_bounds (started : StartedUp node memory kmem)
    (addressable : node.numPpn ≤ 2 ^ 26) (ordered : ord < maxMemOrder)
    (bit : node.numPpn.testBit ord = true) (multiple : 8 ∣ node.numPpn >>> (ord + 1))
    (free : ∀ pn ∈ (lastBlock node.numPpn ord).span, testBit kmem.memMap pn = true → pn ∈ freeable)
    (initBounded : InBounds kmem (kmemPageManagerInitToggles node memory))
    (bounded : ∀ state, Relation.ReflTransGen (PageStep freeable) kmem state →
      CallsInBounds freeable state) : False := by
  have outside : 8 * (kmem.freeAreas ord).freeAreaMapSize ≤ node.numPpn >>> (ord + 1) := by
    rw [started.sizes ord ordered, freeAreaMapSize_eq addressable]
    omega
  have below : (lastBlock node.numPpn ord).start + 2 ^ ord ≤ node.numPpn := by
    rw [Nat.testBit_eq_decide_div_mod_eq, decide_eq_true_eq] at bit
    have whole := Nat.div_add_mod' node.numPpn (2 ^ ord)
    have pairs : node.numPpn / 2 ^ ord = node.numPpn >>> (ord + 1) * 2 + 1 := by
      rw [Nat.shiftRight_eq_div_pow, Nat.pow_succ, ← Nat.div_div_eq_div_mul]
      omega
    rw [pairs, Nat.add_mul, Nat.mul_assoc, Nat.one_mul] at whole
    rw [lastBlock, Nat.pow_succ']
    dsimp only
    omega
  have canonical := started.canonical
  let pages := (List.range' (lastBlock node.numPpn ord).start (2 ^ ord)).filter (testBit kmem.memMap)
  obtain ⟨after, run, counts, bits⟩ := @Canonical.free_each kmem freeable pages canonical
    (List.filter_sublist.nodup List.nodup_range') (by
      intro pn member
      obtain ⟨inside, marked⟩ := List.mem_filter.mp member
      have range := List.mem_range'_1.mp inside
      exact ⟨free pn range marked, by rw [started.numPpn]; omega, marked⟩)
  obtain ⟨afterCanonical, _, _⟩ := canonical.run run
  have numPpn : after.numPpn = node.numPpn := counts.trans started.numPpn
  have set := @Canonical.lastBlock_parity after ord afterCanonical ordered (by
    rw [numPpn]
    intro pn inside
    refine ⟨by rw [numPpn]; exact Nat.lt_of_lt_of_le inside.2 below, ?_⟩
    rw [bits]
    rcases marked : testBit kmem.memMap pn with _ | _
    · simp
    · have member : pn ∈ pages := List.mem_filter.mpr ⟨List.mem_range'_1.mpr inside, marked⟩
      simp [member])
  have clear := started.untouched ord (node.numPpn >>> (ord + 1))
    (fun member => Nat.not_lt_of_le outside (initBounded _ member))
  rw [numPpn] at set
  have stays := outside_stays canonical bounded outside run
  rw [clear] at stays
  exact Bool.noConfusion (stays.symm.trans set)

theorem StartedUp.inBounds (started : StartedUp node memory kmem) (addressable : node.numPpn ≤ 2 ^ 26)
    (spared : ∀ ord < maxMemOrder, node.numPpn.testBit ord = true → 8 ∣ node.numPpn >>> (ord + 1) →
      ∃ pn ∈ (lastBlock node.numPpn ord).span, pn ∉ freeable ∧ testBit kmem.memMap pn = true) :
    InBounds kmem (kmemPageManagerInitToggles node memory) ∧
      ∀ state, Relation.ReflTransGen (PageStep freeable) kmem state →
        CallsInBounds freeable state := by
  have inside {toggle : Nat × Nat} (toggles : TogglesBlock node.numPpn (clearPages kmem ∪ freeable) toggle) :
      toggle.2 < 8 * (kmem.freeAreas toggle.1).freeAreaMapSize := by
    have ordered : toggle.1 < maxMemOrder := by
      obtain ⟨block, order, ordered, _⟩ := toggles
      rwa [order] at ordered
    rw [started.sizes _ ordered]
    refine toggles.inBounds addressable (fun bit multiple subset => ?_)
    obtain ⟨pn, member, kept, marked⟩ := spared _ ordered bit multiple
    rcases subset member with clear | allowed
    · rw [clear.2] at marked
      cases marked
    · exact kept allowed
  refine ⟨fun toggle member => inside ((started.toggles toggle member).mono
    Set.subset_union_left), fun state run => ?_⟩
  obtain ⟨canonical, frame, pages⟩ := started.canonical.run run
  have counts : state.numPpn = node.numPpn := frame.numPpn.trans started.numPpn
  refine ⟨fun order toggle member => ?_, fun pn allowed pnInside toggle member => ?_⟩
  · rw [frame.areaSize]
    have toggles := kmemAllocPagesToggles_spec order canonical.tiled canonical.paired toggle member
    exact inside (counts ▸ toggles.mono pages)
  · rw [frame.areaSize]
    have toggles := kmemFreePageToggles_spec canonical.tiled canonical.paired pnInside
      (fun marked clear => by rw [clear.2] at marked; cases marked) toggle member
    exact inside (counts ▸ toggles.mono (Set.insert_subset (.inr allowed) pages))

end

/-- The toggles of the start-up and of every run after it are in bounds exactly if no
order has its bit set in `num_ppn` with a multiple of eight pairs below, or if the
last block of that order has a page that is marked and never freed. -/
theorem toggles_in_bounds_iff (node : BootmemNode) (memory : Memory)
    (addressable : node.beginPpn + node.numPpn ≤ 2 ^ 26) (freeable : Set Nat) :
    ∃ kmem node' memory', kmemPageManagerInit node memory = .ok (kmem, node', memory') ∧
      ((InBounds kmem (kmemPageManagerInitToggles node memory) ∧
        ∀ state, Relation.ReflTransGen (PageStep freeable) kmem state →
          (∀ order, InBounds state (kmemAllocPagesToggles order state)) ∧
          ∀ pn ∈ freeable, pn < state.numPpn →
            InBounds state (kmemFreePageToggles (pageVaddr state pn) state)) ↔
        ∀ ord < maxMemOrder, node.numPpn.testBit ord = true → 8 ∣ node.numPpn >>> (ord + 1) →
          ∃ pn ∈ (lastBlock node.numPpn ord).span,
            pn ∉ freeable ∧ testBit kmem.memMap pn = true) := by
  obtain ⟨kmem, node', memory', init, started⟩ := @kmemPageManagerInit_startedUp node memory addressable
  refine ⟨kmem, node', memory', init, ?_, ?_⟩
  · rintro ⟨initBounded, bounded⟩ ord ordered bit multiple
    by_contra none
    refine started.leaves_bounds (by omega) ordered bit multiple (fun pn member marked => ?_) initBounded bounded
    by_contra kept
    exact none ⟨pn, member, kept, marked⟩
  · intro spared
    exact started.inBounds (by omega) spared

/-- Eight megabytes of RAM: the node ends with a whole pair of every order. -/
theorem toggles_in_bounds_iff_eight_megabytes : ∃ kmem node memory,
      kmemPageManagerInit (smallNode 2048 0) (fun _ => 0) = .ok (kmem, node, memory) ∧
      InBounds kmem (kmemPageManagerInitToggles (smallNode 2048 0) (fun _ => 0)) ∧
      ∀ state, Relation.ReflTransGen (PageStep Set.univ) kmem state →
        (∀ order, InBounds state (kmemAllocPagesToggles order state)) ∧
        ∀ pn ∈ Set.univ, pn < state.numPpn →
          InBounds state (kmemFreePageToggles (pageVaddr state pn) state) := by
  obtain ⟨kmem, node, memory, init, bounds⟩ := toggles_in_bounds_iff (smallNode 2048 0) (fun _ => 0)
    (by decide) Set.univ
  have even : ∀ ord < maxMemOrder, (smallNode 2048 0).numPpn.testBit ord = false := by decide
  refine ⟨kmem, node, memory, init, bounds.mpr (fun ord ordered bit => ?_)⟩
  rw [even ord ordered] at bit
  cases bit

/-- Seventeen pages of RAM: freeing the last one toggles bit 8 of the map of order 0,
which is one byte long, so that the map of order 1 is changed. -/
theorem init_toggles_past_first_map : ∃ kmem node memory,
      kmemPageManagerInit (smallNode 17 0) (fun _ => 0) = .ok (kmem, node, memory) ∧
      (0, 8) ∈ kmemPageManagerInitToggles (smallNode 17 0) (fun _ => 0) ∧
      8 * (kmem.freeAreas 0).freeAreaMapSize = 8 ∧
      (kmem.freeAreas 1).freeAreaMapAddr = (kmem.freeAreas 0).freeAreaMapAddr + 1 := by
  obtain ⟨boot, found⟩ : ∃ boot, kmemPageManagerInit (smallNode 17 0) (fun _ => 0) = .ok boot ∧
      (0, 8) ∈ kmemPageManagerInitToggles (smallNode 17 0) (fun _ => 0) ∧
      8 * (boot.1.freeAreas 0).freeAreaMapSize = 8 ∧
      (boot.1.freeAreas 1).freeAreaMapAddr = (boot.1.freeAreas 0).freeAreaMapAddr + 1 := by decide +kernel
  exact ⟨_, _, _, found⟩

end Kalorona.Memory
