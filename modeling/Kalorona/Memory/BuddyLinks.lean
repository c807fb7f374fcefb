import Kalorona.Memory.AreaBounds
import Kalorona.Utilities.ListNodes

namespace Kalorona.Memory

open Kalorona.Data Kalorona.Utilities

/-! # The buddy allocator in memory

The page allocator once more, with its free lists as links in the free pages and its maps as the
bytes that `bootmem_alloc` returned.  It does what the allocator on lists does as long as every
map has a byte for the bits that are toggled in it.
-/

/-- A `struct list_node` of the page allocator: the head of a free area, or the first bytes of the
page at an address. -/
inductive AreaNode where
  | head (ord : Nat)
  | page (vaddr : Nat)
deriving DecidableEq, Repr

theorem AreaNode.page_injective : Function.Injective AreaNode.page := fun _ _ same => by cases same; rfl

def pagePointer (vaddr : Nat) : Option AreaNode := if vaddr = 0 then none else some (.page vaddr)

theorem pagePointer_of_ne {vaddr : Nat} (notNull : vaddr ≠ 0) : pagePointer vaddr = some (.page vaddr) :=
  if_neg notNull

/-- Whether a link is an address that Sv39 does not have: a store through it faults. -/
def linkFaults : Option AreaNode → Bool
  | some (.page vaddr) => decide (2 ^ 38 ≤ vaddr ∧ vaddr < vaKernelBegin)
  | _ => false

def toggleAt (bytes : Memory) (address index : Nat) : Bool × Memory :=
  let (toggled, map) := toggleBit (fun offset => bytes (address + offset)) index
  (toggled, fun place => if address ≤ place then map (place - address) else bytes place)

/-- The page manager with the bytes behind its pointers.  In `kmem` the lists and the maps are left
empty. -/
structure LinkedKmem where
  kmem : Kmem
  maps : Memory
  links : Links AreaNode

namespace LinkedKmem

def toggle (state : LinkedKmem) (ord index : Nat) : Bool × LinkedKmem :=
  let (toggled, maps) := toggleAt state.maps (state.kmem.freeAreas ord).freeAreaMapAddr index
  (toggled, { state with maps })

def setMemMap (state : LinkedKmem) (memMap : Bitmap) : LinkedKmem :=
  { state with kmem := { state.kmem with memMap } }

def listInsert (ord vaddr : Nat) (state : LinkedKmem) : Result LinkedKmem := do
  if linkFaults (state.links.nxt (.head ord)) then throw .stray
  let links ← Algorithm.listInsert (some (.head ord)) (pagePointer vaddr) state.links
  return { state with links }

def listDetach (vaddr : Nat) (state : LinkedKmem) : Result LinkedKmem := do
  -- both neighbours are written to
  if linkFaults (pagePointer vaddr >>= state.links.prv) || linkFaults (pagePointer vaddr >>= state.links.nxt) then
    throw .stray
  let links ← Algorithm.listDetach (pagePointer vaddr) state.links
  return { state with links }

def freeFrom (pn : Nat) : Nat → Nat → LinkedKmem → Result LinkedKmem
  | 0, _, state => .ok state
  | remaining + 1, dep, state => do
      let currentPn := pn &&& ulongNot (ulongSub (1 <<< dep) 1)
      let buddyPn := currentPn ^^^ 1 <<< dep
      let mapPos := currentPn >>> (dep + 1)
      let toggled := (state.toggle dep mapPos).1
      let state := (state.toggle dep mapPos).2
      if !toggled ∧ dep ≠ maxMemOrder - 1 then
        let state ← state.listDetach (pageVaddr state.kmem buddyPn)
        freeFrom pn remaining (dep + 1) state
      else
        state.listInsert dep (pageVaddr state.kmem currentPn)

def kmemFreePage (addr : Nat) (state : LinkedKmem) : Result LinkedKmem := do
  if addr &&& (pageSize - 1) ≠ 0 then
    throw (.panic "kmem_free_page - bad address alignment")
  let pn := vaddrPn state.kmem addr
  let cleared := testAndClearBit state.kmem.memMap pn
  if !cleared.1 then throw (.panic "kmem_free_page - freed twice")
  freeFrom pn maxMemOrder 0 (state.setMemMap cleared.2)

def freePagesFrom : Nat → Nat → LinkedKmem → Result LinkedKmem
  | 0, _, state => .ok state
  | count + 1, vaddr, state => do
      let state ← kmemFreePage vaddr state
      freePagesFrom count (ulong (vaddr + pageSize)) state

def kmemFreePages (addr pageCount : Nat) (state : LinkedKmem) : Result LinkedKmem := do
  if addr &&& (pageSize - 1) ≠ 0 then
    throw (.panic "kmem_free_pages - bad address alignment")
  freePagesFrom pageCount addr state

/-- The first order from `order` on whose head leads to a page; no head is behind another. -/
def findOrder (state : LinkedKmem) : Nat → Nat → Result (Option (Nat × Nat))
  | 0, _ => .ok none
  | remaining + 1, currentOrder =>
    match state.links.nxt (.head currentOrder) with
    | some (.page vaddr) => .ok (some (currentOrder, vaddr))
    | some (.head _) => .error .stray
    | none => findOrder state remaining (currentOrder + 1)

def splitBlock (order blockVaddr : Nat) : Nat → LinkedKmem → Result LinkedKmem
  | 0, state => .ok state
  | count + 1, state => do
      let ord := order + count + 1
      let blockPn := vaddrPn state.kmem blockVaddr
      let rightPart := ulong (blockVaddr + ulong ((1 <<< (ord - 1)) <<< pageShift))
      -- remove the large block
      let state ← state.listDetach blockVaddr
      let state := (state.toggle ord (blockPn >>> (ord + 1))).2
      -- left part splitted
      let state ← state.listInsert (ord - 1) blockVaddr
      -- right part splitted
      let state ← state.listInsert (ord - 1) rightPart
      splitBlock order blockVaddr count state

def kmemAllocPages (order : Nat) (state : LinkedKmem) : Result (Nat × LinkedKmem) := do
  if order ≥ maxMemOrder then throw (.panic "kmem_alloc_pages - too large")
  match ← findOrder state (maxMemOrder - order) order with
  | none => return (0, state)
  | some (currentOrder, pageVaddr) =>
    if currentOrder < order then throw (.panic "kmem_alloc_pages - wrong direction")
    let state ← splitBlock order pageVaddr (currentOrder - order) state
    -- register
    let pagePn := vaddrPn state.kmem pageVaddr
    let state ← state.listDetach pageVaddr
    let state := (state.toggle order (pagePn >>> (order + 1))).2
    let memMap ← setBits "kmem_alloc_pages - allocated" (1 <<< order) pagePn state.kmem.memMap
    return (pageVaddr, state.setMemMap memMap)

def freeUnreserved : Nat → Nat → LinkedKmem → Result LinkedKmem
  | 0, _, state => .ok state
  | count + 1, pn, state =>
    if testBit state.kmem.memMap pn then freeUnreserved count (pn + 1) state
    else do
      let state ← kmemFreePage (pageVaddr state.kmem pn)
        (state.setMemMap (testAndSetBit state.kmem.memMap pn).2)
      freeUnreserved count (pn + 1) state

/-- The links are what memory holds before; those of the heads are zeroed storage. -/
def kmemPageManagerInit (node : BootmemNode) (memory : Memory) (links : Links AreaNode) : Result LinkedKmem := do
  let (kmem, _, memory) ← allocFreeAreaMaps maxMemOrder 0 (kmemOfBootmem node) node memory
  freeUnreserved kmem.numPpn 0 ⟨kmem, memory, links⟩

end LinkedKmem

theorem toggleAt_bytes (bytes : Memory) (address index place : Nat) : (toggleAt bytes address index).2 place =
      if place = address + index >>> 3 then UInt8.ofNat ((bytes place).toNat ^^^ 1 <<< (index &&& 0x7))
      else bytes place := by
  dsimp only [toggleAt, toggleBit, writeByte]
  split
  next reached =>
    by_cases here : place = address + index >>> 3
    · rw [if_pos (by omega), if_pos here, here]
    · rw [if_neg (by omega), if_neg here, Nat.add_sub_cancel' reached]
  next before => rw [if_neg (by omega)]

theorem toggleAt_returns {bytes : Memory} {address index : Nat} {map : Bitmap}
    (same : bytes (address + index >>> 3) = map (index >>> 3)) :
    (toggleAt bytes address index).1 = (toggleBit map index).1 := by
  have again : (toggleAt bytes address index).1 =
      (toggleBit (fun offset => bytes (address + offset)) index).1 := rfl
  rw [again, toggleBit_fst, toggleBit_fst, testBit, testBit, same]

def MapsApart (kmem : Kmem) : Prop :=
  ∀ ord < maxMemOrder, ∀ other < maxMemOrder, ord ≠ other →
    ∀ offset < (kmem.freeAreas ord).freeAreaMapSize,
    ∀ otherOffset < (kmem.freeAreas other).freeAreaMapSize,
    (kmem.freeAreas ord).freeAreaMapAddr + offset ≠
      (kmem.freeAreas other).freeAreaMapAddr + otherOffset

namespace Kmem

def bare (kmem : Kmem) : Kmem :=
  { kmem with freeAreas := fun ord =>
      { kmem.freeAreas ord with freePageList := [], freeAreaMap := fun _ => 0 } }

section
variable (kmem : Kmem) (ord index node : Nat)

theorem bare_setArea {area : FreeArea} (sameAddr : area.freeAreaMapAddr = (kmem.freeAreas ord).freeAreaMapAddr)
    (sameSize : area.freeAreaMapSize = (kmem.freeAreas ord).freeAreaMapSize) :
    (kmem.setArea ord area).bare = kmem.bare := by
  have areas : (kmem.setArea ord area).bare.freeAreas = kmem.bare.freeAreas := by
    funext other
    simp only [bare, setArea_freeAreas]
    split
    next same => rw [sameAddr, sameSize, same]
    next => rfl
  exact congrArg (fun freeAreas => { kmem with freeAreas }) areas

@[simp] theorem bare_toggle : (kmem.toggle ord index).bare = kmem.bare := kmem.bare_setArea ord rfl rfl

@[simp] theorem bare_push : (kmem.push ord node).bare = kmem.bare := kmem.bare_setArea ord rfl rfl

@[simp] theorem bare_drop : (kmem.drop node).bare = kmem.bare := rfl

end

end Kmem

def areaHeads : Set AreaNode := { node | ∃ ord < maxMemOrder, node = .head ord }

def areaMembers (kmem : Kmem) : AreaNode → List AreaNode
  | .head ord => (kmem.freeAreas ord).freePageList.map .page
  | .page _ => []

/-- Maps and links in memory hold the bits and lists of the allocator on lists. -/
structure Tracks (state : LinkedKmem) (kmem : Kmem) : Prop where
  fields : state.kmem = kmem.bare
  apart : MapsApart state.kmem
  maps : ∀ ord < maxMemOrder, ∀ offset < (state.kmem.freeAreas ord).freeAreaMapSize,
    state.maps ((state.kmem.freeAreas ord).freeAreaMapAddr + offset) =
      (kmem.freeAreas ord).freeAreaMap offset
  lists : state.links.HoldsLists areaHeads (areaMembers kmem)
  high : ∀ ord < maxMemOrder, ∀ vaddr ∈ (kmem.freeAreas ord).freePageList, vaKernelBegin ≤ vaddr

def NotListed (kmem : Kmem) (vaddr : Nat) : Prop :=
  ∀ ord < maxMemOrder, vaddr ∉ (kmem.freeAreas ord).freePageList

section
variable {state : LinkedKmem} {kmem : Kmem} {ord index vaddr : Nat}

theorem head_mem_areaHeads (ordered : ord < maxMemOrder) : AreaNode.head ord ∈ areaHeads := ⟨ord, ordered, rfl⟩

theorem page_mem_areaMembers :
    AreaNode.page vaddr ∈ areaMembers kmem (.head ord) ↔ vaddr ∈ (kmem.freeAreas ord).freePageList :=
  List.mem_map_of_injective AreaNode.page_injective

theorem NotListed.unlinked (notListed : NotListed kmem vaddr) :
    Links.Unlinked areaHeads (areaMembers kmem) (.page vaddr) := by
  rintro _ ⟨ord, ordered, rfl⟩ member
  rcases List.mem_cons.mp member with isHead | listed
  · cases isHead
  · exact notListed ord ordered (page_mem_areaMembers.mp listed)

section
variable (tracks : Tracks state kmem)
include tracks

theorem Tracks.setMemMap (memMap : Bitmap) : Tracks (state.setMemMap memMap) { kmem with memMap } :=
  ⟨congrArg (fun kmem : Kmem => { kmem with memMap }) tracks.fields, tracks.apart, tracks.maps,
    tracks.lists, tracks.high⟩

theorem Tracks.link_ok {node : AreaNode} (ordered : ord < maxMemOrder)
    (member : node ∈ .head ord :: areaMembers kmem (.head ord)) : linkFaults (some node) = false := by
  rcases List.mem_cons.mp member with rfl | listed
  · rfl
  · obtain ⟨vaddr, inList, rfl⟩ := List.mem_map.mp listed
    have high := tracks.high ord ordered vaddr inList
    exact decide_eq_false (by omega)

theorem Tracks.nxt_ok {node : AreaNode} (ordered : ord < maxMemOrder)
    (member : node ∈ .head ord :: areaMembers kmem (.head ord)) : linkFaults (state.links.nxt node) = false := by
  cases found : state.links.nxt node with
  | none => rfl
  | some next =>
    have listed := (tracks.lists.represents _ ⟨ord, ordered, rfl⟩).nxt_mem member found
    exact tracks.link_ok ordered (List.mem_cons_of_mem _ listed)

theorem Tracks.toggle (ordered : ord < maxMemOrder)
    (bounded : index < 8 * (state.kmem.freeAreas ord).freeAreaMapSize) :
    (state.toggle ord index).1 = (toggleBit (kmem.freeAreas ord).freeAreaMap index).1 ∧
      Tracks (state.toggle ord index).2 (kmem.toggle ord index) := by
  have inside : index >>> 3 < (state.kmem.freeAreas ord).freeAreaMapSize := by
    rw [Nat.shiftRight_eq_div_pow]
    omega
  have byte := tracks.maps ord ordered _ inside
  refine ⟨toggleAt_returns byte, ?_, tracks.apart, ?_, ?_, ?_⟩
  · rw [Kmem.bare_toggle]
    exact tracks.fields
  · intro other otherOrdered offset otherInside
    have kept := tracks.maps other otherOrdered offset otherInside
    show (toggleAt state.maps _ index).2 ((state.kmem.freeAreas other).freeAreaMapAddr + offset) = _
    rw [toggleAt_bytes, Kmem.toggle_map]
    by_cases same : other = ord
    · subst same
      rw [if_pos rfl, kept]
      show _ = (writeByte _ _ _) offset
      by_cases here : offset = index >>> 3
      · rw [if_pos (by rw [here]), writeByte, if_pos here, here]
      · rw [if_neg (by omega), writeByte, if_neg here]
    · rw [if_neg same, if_neg, kept]
      exact tracks.apart other otherOrdered ord ordered same offset otherInside _ inside
  · refine tracks.lists.congr ?_
    rintro _ ⟨other, _, rfl⟩
    simp only [areaMembers, Kmem.toggle_list]
  · simpa only [Kmem.toggle_list] using tracks.high

theorem Tracks.insert (ordered : ord < maxMemOrder) (notNull : vaddr ≠ 0)
    (high : vaKernelBegin ≤ vaddr) (notListed : NotListed kmem vaddr) :
    ∃ after, state.listInsert ord vaddr = .ok after ∧ Tracks after (kmem.push ord vaddr) ∧
      after.kmem = state.kmem := by
  refine ⟨{ state with links := state.links.insert (.head ord) (.page vaddr) }, ?_, ⟨?_, tracks.apart,
    ?_, ?_, ?_⟩, rfl⟩
  · rw [LinkedKmem.listInsert, tracks.nxt_ok ordered List.mem_cons_self, pagePointer_of_ne notNull]
    rfl
  · rw [Kmem.bare_push]
    exact tracks.fields
  · intro other otherOrdered offset inside
    rw [Kmem.push_map]
    exact tracks.maps other otherOrdered offset inside
  · refine (tracks.lists.insert (head_mem_areaHeads ordered) notListed.unlinked).congr ?_
    rintro _ ⟨other, _, rfl⟩
    simp only [areaMembers, Kmem.push_list, Function.update_apply, AreaNode.head.injEq]
    split
    · exact List.map_cons
    · rfl
  · intro other otherOrdered node listed
    rw [Kmem.push_list] at listed
    split at listed
    · exact (List.mem_cons.mp listed).elim (fun same => same ▸ high) (tracks.high ord ordered node)
    · exact tracks.high other otherOrdered node listed

theorem Tracks.detach (notNull : vaddr ≠ 0) (listed : kmem.isListed vaddr = true) :
    ∃ after, state.listDetach vaddr = .ok after ∧ Tracks after (kmem.drop vaddr) ∧
      after.kmem = state.kmem := by
  simp only [Kmem.isListed, List.any_eq_true, List.mem_range, List.contains_iff_mem] at listed
  obtain ⟨ord, ordered, member⟩ := listed
  have isHead := head_mem_areaHeads ordered
  have inList : AreaNode.page vaddr ∈ areaMembers kmem (.head ord) := page_mem_areaMembers.mpr member
  refine ⟨{ state with links := state.links.detach (.page vaddr) }, ?_, ⟨?_, tracks.apart,
    tracks.maps, ?_, fun other otherOrdered node kept =>
      tracks.high other otherOrdered node (List.mem_of_mem_erase kept)⟩, rfl⟩
  · obtain ⟨back, before, found⟩ := (tracks.lists.represents _ isHead).prv_mem inList
    have backOk := tracks.link_ok ordered before
    have nextOk := tracks.nxt_ok ordered (List.mem_cons_of_mem _ inList)
    simp only [LinkedKmem.listDetach, pagePointer_of_ne notNull, Option.bind_eq_bind, Option.bind_some,
      found, backOk, nextOk]
    rfl
  · rw [Kmem.bare_drop]
    exact tracks.fields
  · refine (tracks.lists.detach isHead inList).congr ?_
    rintro _ ⟨other, otherOrdered, rfl⟩
    simp only [areaMembers, Kmem.drop_list, List.map_erase AreaNode.page_injective]
    by_cases same : other = ord
    · rw [same, Function.update_self]
    · -- The node is in no second list.
      have different : AreaNode.head other ≠ .head ord := fun heads => same (AreaNode.head.inj heads)
      rw [Function.update_of_ne different]
      refine List.erase_of_not_mem fun again => ?_
      exact tracks.lists.apart _ isHead _ (head_mem_areaHeads otherOrdered) different.symm
        (List.mem_cons_of_mem _ inList) (List.mem_cons_of_mem _ again)

end

end

/-- No page stands in two places of the lists. -/
structure ListedOnce (kmem : Kmem) : Prop where
  nodup : ∀ ord < maxMemOrder, (kmem.freeAreas ord).freePageList.Nodup
  apart : ∀ ord < maxMemOrder, ∀ other < maxMemOrder, ord ≠ other →
    (kmem.freeAreas ord).freePageList.Disjoint (kmem.freeAreas other).freePageList
  high : ∀ ord < maxMemOrder, ∀ vaddr ∈ (kmem.freeAreas ord).freePageList, vaKernelBegin ≤ vaddr

section
variable {state : LinkedKmem} {kmem after : Kmem} {free : Set Nat} {ord vaddr : Nat}

theorem Tiled.listedOnce (tiled : Tiled kmem free) : ListedOnce kmem := by
  refine ⟨tiled.nodup, ?_, fun ord ordered node listed => ?_⟩
  · intro ord ordered other otherOrdered different node listed otherListed
    obtain ⟨start, inside, rfl⟩ := tiled.pages ord ordered node listed
    have left : Block.mk ord start ∈ freeBlocks kmem := ⟨ordered, inside, listed⟩
    have right : Block.mk other start ∈ freeBlocks kmem := ⟨otherOrdered, inside, otherListed⟩
    have same := tiled.tiling.eq_of_mem left right (Block.span_start _) (Block.span_start _)
    exact different (congrArg Block.order same)
  · obtain ⟨start, _, rfl⟩ := tiled.pages ord ordered node listed
    exact Nat.right_le_or

theorem ListedOnce.notListed (once : ListedOnce (kmem.push ord vaddr)) (ordered : ord < maxMemOrder) :
    NotListed kmem vaddr := by
  intro other otherOrdered listed
  have own : vaddr ∈ ((kmem.push ord vaddr).freeAreas ord).freePageList := by
    rw [Kmem.push_list, if_pos rfl]
    exact List.mem_cons_self
  by_cases same : other = ord
  · subst same
    have nodup := once.nodup other otherOrdered
    rw [Kmem.push_list, if_pos rfl] at nodup
    exact (List.nodup_cons.mp nodup).1 listed
  · refine once.apart ord ordered other otherOrdered (Ne.symm same) own ?_
    rwa [Kmem.push_list, if_neg same]

theorem listInsert_ok (run : listInsert ord vaddr kmem = .ok after) : vaddr ≠ 0 ∧ after = kmem.push ord vaddr := by
  unfold listInsert at run
  split at run
  · cases run
  next notNull =>
    cases run
    exact ⟨notNull, rfl⟩

theorem listDetach_ok (run : listDetach vaddr kmem = .ok after) :
    vaddr ≠ 0 ∧ kmem.isListed vaddr = true ∧ after = kmem.drop vaddr := by
  unfold listDetach at run
  split at run
  · cases run
  next notNull =>
    split at run
    next listed =>
      cases run
      exact ⟨notNull, listed, rfl⟩
    next => cases run

section
variable (tracks : Tracks state kmem)
include tracks

theorem Tracks.listInsert (ordered : ord < maxMemOrder)
    (run : Memory.listInsert ord vaddr kmem = .ok after) (once : ListedOnce after) :
    ∃ final, state.listInsert ord vaddr = .ok final ∧ Tracks final after ∧ final.kmem = state.kmem := by
  obtain ⟨notNull, rfl⟩ := listInsert_ok run
  have own : vaddr ∈ ((kmem.push ord vaddr).freeAreas ord).freePageList := by
    rw [Kmem.push_list, if_pos rfl]
    exact List.mem_cons_self
  exact tracks.insert ordered notNull (once.high ord ordered vaddr own) (once.notListed ordered)

theorem Tracks.listDetach (run : Memory.listDetach vaddr kmem = .ok after) :
    ∃ final, state.listDetach vaddr = .ok final ∧ Tracks final after ∧ final.kmem = state.kmem := by
  obtain ⟨notNull, listed, rfl⟩ := listDetach_ok run
  exact tracks.detach notNull listed

theorem Tracks.pageVaddr_eq (pn : Nat) : pageVaddr state.kmem pn = pageVaddr kmem pn :=
  pageVaddr_congr (by rw [tracks.fields]; rfl) pn

theorem Tracks.vaddrPn_eq (vaddr : Nat) : vaddrPn state.kmem vaddr = vaddrPn kmem vaddr := by
  unfold vaddrPn
  rw [tracks.fields]
  rfl

theorem Tracks.memMap_eq : state.kmem.memMap = kmem.memMap := by
  rw [tracks.fields]
  rfl

theorem Tracks.freeFrom {pn remaining dep : Nat}
    (orders : dep + remaining ≤ maxMemOrder) (bounded : InBounds state.kmem (freeFromToggles pn remaining dep kmem))
    (run : Memory.freeFrom pn remaining dep kmem = .ok after) (once : ListedOnce after) :
    ∃ final, state.freeFrom pn remaining dep = .ok final ∧ Tracks final after := by
  induction remaining generalizing dep state kmem with
  | zero =>
    cases run
    exact ⟨state, rfl, tracks⟩
  | succ remaining ih =>
    have ordered : dep < maxMemOrder := by omega
    simp only [freeFromToggles] at bounded
    obtain ⟨returns, toggled⟩ := tracks.toggle ordered (bounded _ List.mem_cons_self)
    simp only [Memory.freeFrom] at run
    simp only [LinkedKmem.freeFrom, returns, toggled.pageVaddr_eq]
    split at run
    next merge =>
      rw [if_pos merge] at bounded ⊢
      obtain ⟨detached, detach, rest⟩ := Result.bind_ok run
      obtain ⟨next, detachRun, detachTracks, same⟩ := toggled.listDetach detach
      rw [detachRun, Result.ok_bind]
      refine ih detachTracks (by omega) ?_ rest
      rw [detach, Result.thenList_ok] at bounded
      rw [same]
      exact fun toggle member => bounded toggle (List.mem_cons_of_mem _ member)
    next stays =>
      rw [if_neg stays]
      obtain ⟨final, insertRun, insertTracks, _⟩ := toggled.listInsert ordered run once
      exact ⟨final, insertRun, insertTracks⟩

theorem Tracks.kmemFreePage (bounded : InBounds state.kmem (kmemFreePageToggles vaddr kmem))
    (run : Memory.kmemFreePage vaddr kmem = .ok after) (once : ListedOnce after) :
    ∃ final, state.kmemFreePage vaddr = .ok final ∧ Tracks final after := by
  unfold Memory.kmemFreePage at run
  unfold kmemFreePageToggles at bounded
  unfold LinkedKmem.kmemFreePage
  dsimp only at bounded run ⊢
  rw [tracks.vaddrPn_eq, tracks.memMap_eq]
  split at run
  · cases run
  next aligned =>
    rw [if_neg aligned] at bounded ⊢
    split at run
    · cases run
    next allocated =>
      rw [if_neg allocated] at bounded ⊢
      exact (tracks.setMemMap _).freeFrom (Nat.le_refl _) bounded run once

end

theorem ListedOnce.of_push (once : ListedOnce (kmem.push ord vaddr)) : ListedOnce kmem := by
  have sublist (other : Nat) : ((kmem.freeAreas other).freePageList).Sublist
      ((kmem.push ord vaddr).freeAreas other).freePageList := by
    rw [Kmem.push_list]
    split
    next same =>
      rw [same]
      exact List.sublist_cons_self ..
    next => exact List.Sublist.refl _
  refine ⟨fun other ordered => (once.nodup other ordered).sublist (sublist other), ?_,
    fun other ordered node listed => once.high other ordered node ((sublist other).subset listed)⟩
  intro left leftOrdered right rightOrdered different node inLeft inRight
  exact once.apart left leftOrdered right rightOrdered different ((sublist left).subset inLeft)
    ((sublist right).subset inRight)

section
variable (tracks : Tracks state kmem)
include tracks

theorem Tracks.head_nxt (ordered : ord < maxMemOrder) :
    state.links.nxt (.head ord) = ((kmem.freeAreas ord).freePageList.map AreaNode.page).head? :=
  (tracks.lists.represents _ (head_mem_areaHeads ordered)).nxt_eq

theorem Tracks.findOrder {remaining current : Nat} (orders : current + remaining ≤ maxMemOrder) :
    state.findOrder remaining current = .ok (Memory.findOrder kmem remaining current) := by
  induction remaining generalizing current with
  | zero => rfl
  | succ remaining ih =>
    rw [LinkedKmem.findOrder, Memory.findOrder, tracks.head_nxt (by omega)]
    cases (kmem.freeAreas current).freePageList with
    | nil => exact ih (by omega)
    | cons node nodes => rfl

theorem Tracks.splitBlock {order count start : Nat} (tiled : Tiled kmem free)
    (paired : Paired kmem) (member : Block.mk (order + count) start ∈ freeBlocks kmem)
    (bounded : InBounds state.kmem (splitBlockToggles order (pageVaddr kmem start) count kmem))
    (run : Memory.splitBlock order (pageVaddr kmem start) count kmem = .ok after) :
    ∃ final, state.splitBlock order (pageVaddr kmem start) count = .ok final ∧ Tracks final after ∧
      final.kmem = state.kmem := by
  induction count generalizing state kmem with
  | zero =>
    cases run
    exact ⟨state, rfl, tracks, rfl⟩
  | succ count ih =>
    have ordered : order + count + 1 < maxMemOrder := member.1
    obtain ⟨detached, left, halved, detach, leftRun, rightRun, halvedTiled, halvedPaired, same,
      blocks⟩ := @Tiled.halve kmem free (order + count) start tiled paired member
    have pagePn := vaddrPn_pageVaddr tiled.addressable member.2.1
    simp only [splitBlockToggles, pagePn, Nat.shiftRight_eq_div_pow, detach, Result.thenList_ok,
      Nat.add_sub_cancel, leftRun, rightRun] at bounded
    simp only [Memory.splitBlock, pagePn, Nat.shiftRight_eq_div_pow, detach, Result.ok_bind,
      Nat.add_sub_cancel, leftRun, rightRun] at run
    have halvedOnce := halvedTiled.listedOnce
    have leftOnce : ListedOnce left := by
      obtain ⟨_, rfl⟩ := listInsert_ok rightRun
      exact halvedOnce.of_push
    -- the large block leaves its list, and its halves come
    obtain ⟨one, oneRun, oneTracks, oneSame⟩ := tracks.listDetach detach
    have inBounds := bounded _ List.mem_cons_self
    rw [← oneSame] at inBounds
    obtain ⟨_, toggled⟩ := oneTracks.toggle ordered inBounds
    obtain ⟨two, twoRun, twoTracks, twoSame⟩ := toggled.listInsert (Nat.lt_of_succ_lt ordered) leftRun leftOnce
    obtain ⟨three, threeRun, threeTracks, threeSame⟩ :=
      twoTracks.listInsert (Nat.lt_of_succ_lt ordered) rightRun halvedOnce
    have unchanged : three.kmem = state.kmem := threeSame.trans (twoSame.trans oneSame)
    rw [← pageVaddr_congr same.beginPpn] at run bounded
    obtain ⟨final, finalRun, finalTracks, finalSame⟩ := ih threeTracks halvedTiled halvedPaired
      (by rw [blocks]; exact .inr (.inl rfl))
      (by rw [unchanged]; exact fun toggle later => bounded toggle (List.mem_cons_of_mem _ later)) run
    refine ⟨final, ?_, finalTracks, finalSame.trans unchanged⟩
    simp only [LinkedKmem.splitBlock, tracks.vaddrPn_eq, pagePn, Nat.shiftRight_eq_div_pow, oneRun,
      Result.ok_bind, Nat.add_sub_cancel, twoRun, threeRun]
    rw [← pageVaddr_congr same.beginPpn]
    exact finalRun

theorem Tracks.kmemAllocPages {order : Nat} (tiled : Tiled kmem free)
    (paired : Paired kmem) (bounded : InBounds state.kmem (kmemAllocPagesToggles order kmem))
    (run : Memory.kmemAllocPages order kmem = .ok (vaddr, after)) :
    ∃ final, state.kmemAllocPages order = .ok (vaddr, final) ∧ Tracks final after := by
  unfold Memory.kmemAllocPages at run
  unfold kmemAllocPagesToggles at bounded
  by_cases small : order ≥ maxMemOrder
  · rw [if_pos small] at run
    cases run
  · rw [if_neg small] at run bounded
    have orders : order + (maxMemOrder - order) ≤ maxMemOrder := by omega
    rw [LinkedKmem.kmemAllocPages, if_neg small, tracks.findOrder orders, Result.ok_bind]
    rcases search : Memory.findOrder kmem (maxMemOrder - order) order with _ | ⟨found, node⟩
    · rw [search] at run
      cases run
      exact ⟨state, rfl, tracks⟩
    · rw [search] at run bounded
      obtain ⟨start, split, rfl, lower, listed, splitRun, splitTiled, splitPaired, same, smallest, _⟩ :=
        findOrder_split tiled paired search
      have direction : ¬ found < order := Nat.not_lt_of_le lower
      dsimp only at run bounded ⊢
      rw [if_neg direction] at run bounded ⊢
      rw [splitRun, Result.ok_bind] at run
      rw [splitRun, Result.thenList_ok] at bounded
      obtain ⟨middle, middleRun, middleTracks, middleSame⟩ := tracks.splitBlock tiled paired listed
        (fun toggle early => bounded toggle (List.mem_append_left _ early)) splitRun
      obtain ⟨detached, detach, run⟩ := Result.bind_ok run
      obtain ⟨memMap, marks, run⟩ := Result.bind_ok run
      cases run
      rw [detach, Result.thenList_ok] at bounded
      obtain ⟨one, oneRun, oneTracks, oneSame⟩ := middleTracks.listDetach detach
      have inBounds := bounded _ (List.mem_append_right _ List.mem_cons_self)
      rw [← middleSame, ← oneSame] at inBounds
      obtain ⟨_, toggled⟩ := oneTracks.toggle (Nat.lt_of_not_le small) inBounds
      refine ⟨_, ?_, toggled.setMemMap memMap⟩
      rw [middleRun, Result.ok_bind, middleTracks.vaddrPn_eq, oneRun, Result.ok_bind, toggled.memMap_eq, marks]
      rfl

end

end

end Kalorona.Memory
