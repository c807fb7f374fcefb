import Kalorona.Device.Memory
import Kalorona.Utilities.Bytes
import Kalorona.Utilities.String

namespace Kalorona.Memory

open Kalorona.Data Kalorona.Device Kalorona.Utilities

/-! # The boot memory allocator

A bitmap at the beginning of memory has one bit for each page, set for pages that are not available.
Allocation is by bytes; a request may continue in the last page of the one before it.
-/

/-- `struct bootmem_node_struct`.  The pointer `mem_map` is split into its
address and the bytes behind it. -/
structure BootmemNode where
  beginPpn : Nat
  numPpn : Nat
  memMapAddr : Nat
  memMap : Bitmap
  memMapSize : Nat
  lastPage : Nat
  lastPageOffset : Nat

/-- RAM at 0x80000000, of whose first eight pages those in `marked` are not available. -/
def smallNode (count : Nat) (marked : UInt8) : BootmemNode :=
  ⟨0x80000, count, 0, fun offset => if offset = 0 then marked else 0, (count + 7) / 8, 0, 0⟩

def setBits (message : String) : Nat → Nat → Bitmap → Result Bitmap
  | 0, _, map => .ok map
  | count + 1, index, map =>
    if (testAndSetBit map index).1 then .error (.panic message)
    else setBits message count (ulong (index + 1)) (testAndSetBit map index).2

def clearBits (message : String) : Nat → Nat → Bitmap → Result Bitmap
  | 0, _, map => .ok map
  | count + 1, index, map =>
    if (testAndClearBit map index).1 then
      clearBits message count (ulong (index + 1)) (testAndClearBit map index).2
    else .error (.panic message)

/-- One round of the loop that looks for the upper and lower page number. -/
def widenRange (range : Nat × Nat) (segment : RamSegment) : Nat × Nat :=
  let begPaddr := segment.paBegin
  let endPaddr := ulong (begPaddr + segment.paLen)
  let begPpn := pageRoundUp begPaddr >>> pageShift
  let endPpn := pageRoundDown endPaddr >>> pageShift
  (if range.1 < endPpn then endPpn else range.1, if range.2 > begPpn then begPpn else range.2)

/-- `stale` is what the bytes at the place of the bitmap held before. -/
def bootmemInitUmaNode (segments : List RamSegment) (stale : Bitmap) : BootmemNode :=
  let (upperPpn, lowerPpn) := segments.foldl widenRange (0, 2 ^ 64 - 1)
  let numPpn := ulongSub upperPpn lowerPpn
  let memMapSize := ulong (numPpn + 0x7) >>> 3
  { beginPpn := lowerPpn
    numPpn
    memMapAddr := pmaPa2Va (ulong (lowerPpn <<< pageShift))
    -- set all to reserved
    memMap := fun offset => if offset < memMapSize then 0xff else stale offset
    memMapSize
    lastPage := 0
    lastPageOffset := 0 }

/-- The part that `bootmem_reserve` and `bootmem_free` share: `update` runs over the
bits of all pages that meet the range. -/
def bootmemUpdateRange (function : String) (update : Nat → Nat → Bitmap → Result Bitmap)
    (paddr size : Nat) (node : BootmemNode) : Result BootmemNode := do
  let begPpn := pageRoundDown paddr >>> pageShift
  let endPpn := pageRoundUp (ulong (paddr + size)) >>> pageShift
  if begPpn < node.beginPpn then throw (.panic (function ++ " - begin_ppn error"))
  if endPpn > ulong (node.beginPpn + node.numPpn) then
    throw (.panic (function ++ " - end_ppn error"))
  let bidx := ulongSub begPpn node.beginPpn
  let eidx := ulongSub endPpn node.beginPpn
  let memMap ← update (ulongSub eidx bidx) bidx node.memMap
  return { node with memMap }

def bootmemReserve (paddr size : Nat) (node : BootmemNode) : Result BootmemNode :=
  bootmemUpdateRange "bootmem_reserve" (setBits "bootmem_reserve - reserved twice") paddr size node

def bootmemFree (paddr size : Nat) (node : BootmemNode) : Result BootmemNode :=
  bootmemUpdateRange "bootmem_free" (clearBits "bootmem_free - freed twice") paddr size node

def bootmemFreeAvailableSegments : List RamSegment → BootmemNode → Result BootmemNode
  | [], node => .ok node
  | segment :: segments, node => do
      let node ← bootmemFree segment.paBegin segment.paLen node
      bootmemFreeAvailableSegments segments node

def bootmemInit (segments : List RamSegment) (stale : Bitmap) : Result BootmemNode := do
  -- init the uma node
  let node := bootmemInitUmaNode segments stale
  -- free all available space
  let node ← bootmemFreeAvailableSegments segments node
  -- mark the mem_map area reserved
  bootmemReserve (pmaVa2Pa node.memMapAddr) node.memMapSize node

/-- The inner scan of `bootmem_alloc`: `count` pages from `index` on are in the
node and available. -/
def pagesAvailable (node : BootmemNode) : Nat → Nat → Bool
  | 0, _ => true
  | count + 1, index =>
    if index ≥ node.numPpn || testBit node.memMap index then false
    else pagesAvailable node count (index + 1)

/-- The outer scan: the first page from `index` on where `areaSize` pages are
available. -/
def findSpot (node : BootmemNode) (areaSize : Nat) : Nat → Nat → Option Nat
  | 0, _ => none
  | remaining + 1, index =>
    if testBit node.memMap index then findSpot node areaSize remaining (index + 1)
    else if pagesAvailable node (ulong (index + areaSize) - (index + 1)) (index + 1) then some index
    else findSpot node areaSize remaining (index + 1)

def scanStarts (node : BootmemNode) (alignment goal : Nat) : Nat × Nat :=
  let ppnOffset :=
    if alignment ≠ 0 then
      ulongSub alignment (ulong (node.beginPpn <<< pageShift) &&& ulongSub alignment 1) &&&
        ulongSub alignment 1
    else 0
  let ppnOffset := ppnOffset >>> pageShift
  let preferred :=
    if goal ≠ 0 ∧ goal >>> pageShift ≥ node.beginPpn ∧
        goal >>> pageShift < ulong (node.beginPpn + node.numPpn) then
      ulongSub goal (ulong (node.beginPpn <<< pageShift))
    else 0
  let preferred :=
    (ulongSub (ulong (preferred + alignment)) 1 &&& ulongNot (ulongSub alignment 1)) >>> pageShift
  (ulong (preferred + ppnOffset), ppnOffset)

def findSpotFrom (node : BootmemNode) (areaSize : Nat) (starts : Nat × Nat) : Option Nat :=
  match findSpot node areaSize (node.numPpn - starts.1) starts.1 with
  | some spot => some spot
  | none => findSpot node areaSize (node.numPpn - starts.2) starts.2

/-- The address to return, the number of pages to mark, and the node with the
last page moved.  The first case continues in the last page. -/
def placeRequest (node : BootmemNode) (size alignment spot areaSize : Nat) : Nat × Nat × BootmemNode :=
  if alignment ≤ pageSize ∧ node.lastPageOffset ≠ 0 ∧ ulong (node.lastPage + 1) = spot then
    let offset := ulongSub (ulong (node.lastPageOffset + alignment)) 1 &&&
      ulongNot (ulongSub alignment 1)
    let remSize := ulongSub pageSize offset
    let retAddr := pmaPa2Va
      (ulong (offset + ulong (ulong (node.lastPage + node.beginPpn) <<< pageShift)))
    if size < remSize then
      -- no need to expand a new page
      (retAddr, 0, { node with lastPageOffset := ulong (offset + size) &&& (pageSize - 1) })
    else
      -- need to increment the last_page
      let backSize := size - remSize
      let areaSize := ulong (backSize + pageSize - 1) >>> pageShift
      (retAddr, areaSize, { node with
          lastPage := ulongSub (ulong (spot + areaSize)) 1
          lastPageOffset := backSize &&& (pageSize - 1) })
  else
    (pmaPa2Va (ulong (ulong (spot + node.beginPpn) <<< pageShift)), areaSize, { node with
        lastPage := ulongSub (ulong (spot + areaSize)) 1
        lastPageOffset := size &&& (pageSize - 1) })

def takeSpot (node : BootmemNode) (size alignment spot areaSize : Nat) (memory : Memory) :
    Result (Nat × BootmemNode × Memory) := do
  let (retAddr, marked, node) := placeRequest node size alignment spot areaSize
  let memMap ← setBits "bootmem_alloc" marked spot node.memMap
  return (retAddr, { node with memMap }, memset memory retAddr 0 size)

/-- Returns 0 for the null pointer. -/
def bootmemAlloc (size alignment goal : Nat) (node : BootmemNode) (memory : Memory) :
    Result (Nat × BootmemNode × Memory) := do
  if size = 0 then return (0, node, memory)
  if alignment &&& ulongSub alignment 1 ≠ 0 then return (0, node, memory)
  let areaSize := ulong (size + pageSize - 1) >>> pageShift
  match findSpotFrom node areaSize (scanStarts node alignment goal) with
  | none => return (0, node, memory)
  | some spot => takeSpot node size alignment spot areaSize memory

section
variable {message : String} {count index : Nat} {map after : Bitmap}

section
variable (bounded : index + count < 2 ^ 64)
include bounded

theorem setBits_exists (clear : ∀ other, index ≤ other → other < index + count → testBit map other = false) :
    ∃ after, setBits message count index map = .ok after := by
  induction count generalizing index map with
  | zero => exact ⟨map, rfl⟩
  | succ count ih =>
    have first := clear index (Nat.le_refl _) (by omega)
    simp only [setBits, testAndSetBit_fst, first, ulong_of_lt (show index + 1 < 2 ^ 64 by omega),
      Bool.false_eq_true, if_false]
    apply ih (by omega)
    intro other lower upper
    rw [testBit_testAndSetBit, if_neg (by omega)]
    exact clear other (by omega) (by omega)

theorem clearBits_exists (set : ∀ other, index ≤ other → other < index + count → testBit map other = true) :
    ∃ after, clearBits message count index map = .ok after := by
  induction count generalizing index map with
  | zero => exact ⟨map, rfl⟩
  | succ count ih =>
    have first := set index (Nat.le_refl _) (by omega)
    simp only [clearBits, testAndClearBit_fst, first, if_true, ulong_of_lt (show index + 1 < 2 ^ 64 by omega)]
    apply ih (by omega)
    intro other lower upper
    rw [testBit_testAndClearBit, if_neg (by omega)]
    exact set other (by omega) (by omega)

theorem testBit_setBits (run : setBits message count index map = .ok after) (other : Nat) :
    testBit after other = (decide (index ≤ other ∧ other < index + count) || testBit map other) := by
  induction count generalizing index map with
  | zero =>
    cases run
    rw [decide_eq_false (by omega)]
    simp
  | succ count ih =>
    simp only [setBits, ulong_of_lt (show index + 1 < 2 ^ 64 by omega)] at run
    split at run
    · cases run
    · rw [ih (by omega) run, testBit_testAndSetBit]
      by_cases first : other = index
      · simp [first]
      · have same : index + 1 ≤ other ∧ other < index + 1 + count ↔
            index ≤ other ∧ other < index + (count + 1) := by omega
        simp only [same, first, if_false]

theorem testBit_clearBits (run : clearBits message count index map = .ok after) (other : Nat) :
    testBit after other = (!decide (index ≤ other ∧ other < index + count) && testBit map other) := by
  induction count generalizing index map with
  | zero =>
    cases run
    rw [decide_eq_false (by omega)]
    simp
  | succ count ih =>
    simp only [clearBits, ulong_of_lt (show index + 1 < 2 ^ 64 by omega)] at run
    split at run
    · rw [ih (by omega) run, testBit_testAndClearBit]
      by_cases first : other = index
      · simp [first]
      · have same : index + 1 ≤ other ∧ other < index + 1 + count ↔
            index ≤ other ∧ other < index + (count + 1) := by omega
        simp only [same, first, if_false]
    · cases run

end

end

variable {node after : BootmemNode} {spot alignment size : Nat}

theorem pagesAvailable_clear {count index : Nat}
    (available : pagesAvailable node count index = true) : ∀ page, index ≤ page → page < index + count →
      page < node.numPpn ∧ testBit node.memMap page = false := by
  induction count generalizing index with
  | zero =>
    intro page lower upper
    omega
  | succ count ih =>
    simp only [pagesAvailable] at available
    split at available
    · cases available
    · rename_i present
      simp only [Bool.or_eq_true, decide_eq_true_eq, not_or, Bool.not_eq_true] at present
      intro page lower upper
      by_cases first : page = index
      · subst page
        exact ⟨by omega, present.2⟩
      · exact ih available page (by omega) (by omega)

theorem findSpot_clear {areaSize remaining index : Nat}
    (bounded : node.numPpn + areaSize < 2 ^ 64) (inside : index + remaining ≤ node.numPpn)
    (found : findSpot node areaSize remaining index = some spot) :
    spot < node.numPpn ∧ ∀ page, spot ≤ page → page < spot + areaSize →
      page < node.numPpn ∧ testBit node.memMap page = false := by
  induction remaining generalizing index with
  | zero => simp [findSpot] at found
  | succ remaining ih =>
    simp only [findSpot] at found
    split at found
    · exact ih (by omega) found
    · rename_i present
      split at found
      · rename_i available
        rw [Option.some.injEq] at found
        subst spot
        refine ⟨by omega, ?_⟩
        intro page lower upper
        by_cases first : page = index
        · subst page
          exact ⟨by omega, by simpa using present⟩
        · rw [ulong_of_lt (by omega)] at available
          exact pagesAvailable_clear available page (by omega) (by omega)
      · exact ih (by omega) found

/-- The node is small enough for page numbers to be addresses, and the last page
belongs to it while part of that page is unused. -/
structure NodeFits (node : BootmemNode) : Prop where
  addressable : node.beginPpn + node.numPpn ≤ 2 ^ 26
  offset : node.lastPageOffset < 4096
  lastPage : node.lastPageOffset ≠ 0 →
    node.lastPage < node.numPpn ∧ testBit node.memMap node.lastPage = true

/-- All but the marks and the last page is the same. -/
structure SameNode (before after : BootmemNode) : Prop where
  beginPpn : after.beginPpn = before.beginPpn
  numPpn : after.numPpn = before.numPpn
  memMapAddr : after.memMapAddr = before.memMapAddr
  memMapSize : after.memMapSize = before.memMapSize

theorem SameNode.refl (node : BootmemNode) : SameNode node node := ⟨rfl, rfl, rfl, rfl⟩

theorem SameNode.trans {first second third : BootmemNode} (left : SameNode first second)
    (right : SameNode second third) : SameNode first third :=
  ⟨right.beginPpn.trans left.beginPpn, right.numPpn.trans left.numPpn,
    right.memMapAddr.trans left.memMapAddr, right.memMapSize.trans left.memMapSize⟩

/-- Where a request of `size` bytes is placed: from byte `first` of the node on,
inside the marked pages and possibly the unused end of the last page. -/
structure Placed (node : BootmemNode) (size alignment spot first marked : Nat)
    (after : BootmemNode) : Prop where
  fits : first + size ≤ (spot + marked) * 4096
  starts : spot * 4096 ≤ first ∨
    (node.lastPageOffset ≠ 0 ∧ node.lastPage + 1 = spot ∧ node.lastPage * 4096 + node.lastPageOffset ≤ first)
  near : first ≤ spot * 4096
  tight : marked ≠ 0 → (spot + marked - 1) * 4096 < first + size
  aligned : alignment ∣ first
  offset : after.lastPageOffset < 4096
  lastPage : after.lastPageOffset ≠ 0 →
    after.lastPage * 4096 + after.lastPageOffset = first + size ∧ after.lastPage < spot + marked ∧
      (after.lastPage = node.lastPage ∧ node.lastPageOffset ≠ 0 ∨ spot ≤ after.lastPage)

theorem placeRequest_few (node : BootmemNode) {size : Nat} (alignment spot : Nat) (bounded : size + 4095 < 2 ^ 64) :
    ∃ address marked after, placeRequest node size alignment spot ((size + 4095) / 4096) =
        (address, marked, after) ∧
      marked ≤ (size + 4095) / 4096 ∧ after.memMap = node.memMap ∧ SameNode node after := by
  unfold placeRequest
  dsimp only
  split
  · split
    · exact ⟨_, _, _, rfl, Nat.zero_le _, rfl, rfl, rfl, rfl, rfl⟩
    · refine ⟨_, _, _, rfl, ?_, rfl, rfl, rfl, rfl, rfl⟩
      unfold pageSize
      rw [shiftRight_pageShift, ulong_of_lt (by omega)]
      omega
  · exact ⟨_, _, _, rfl, Nat.le_refl _, rfl, rfl, rfl, rfl, rfl⟩

section
variable {node : BootmemNode} {size power spot : Nat}

theorem placeRequest_continues (fits : NodeFits node) (positive : 0 < size)
    (bounded : size + 4095 < 2 ^ 64) (small : power ≤ 12) (offsetNonzero : node.lastPageOffset ≠ 0)
    (follows : node.lastPage + 1 = spot) (spotInside : spot + (size + 4095) / 4096 ≤ node.numPpn) :
    ∃ first marked after, placeRequest node size (2 ^ power) spot ((size + 4095) / 4096) =
        (pmaPa2Va (node.beginPpn * 4096 + first), marked, after) ∧
      Placed node size (2 ^ power) spot first marked after := by
  have addressable := fits.addressable
  have offsetBound := fits.offset
  have powerPositive := Nat.two_pow_pos power
  have powerBound : 2 ^ power ≤ 4096 := Nat.pow_le_pow_right (by decide) small
  have powerDivides : 2 ^ power ∣ 4096 := Nat.pow_dvd_pow 2 small
  obtain ⟨lastInside, _⟩ := fits.lastPage offsetNonzero
  -- The offset is rounded up to the alignment and stays inside the page.
  obtain ⟨offset, rounded, divides, atMost, atLeast⟩ : ∃ offset,
      ulongSub (ulong (node.lastPageOffset + 2 ^ power)) 1 &&& ulongNot (ulongSub (2 ^ power) 1) =
        offset ∧ 2 ^ power ∣ offset ∧ offset ≤ 4096 ∧ node.lastPageOffset ≤ offset :=
    ⟨_, ulong_roundUp (by omega), Dvd.intro_left _ rfl,
      roundUp_le powerPositive powerDivides (by omega), le_roundUp _ powerPositive⟩
  have address : ulong (offset + ulong (ulong (node.lastPage + node.beginPpn) <<< pageShift)) =
      node.beginPpn * 4096 + (node.lastPage * 4096 + offset) := by
    rw [shiftLeft_pageShift, ulong_of_lt (show node.lastPage + node.beginPpn < 2 ^ 64 by omega),
      ulong_of_lt (show (node.lastPage + node.beginPpn) * 4096 < 2 ^ 64 by omega),
      ulong_of_lt (by omega)]
    omega
  have remainder : ulongSub pageSize offset = 4096 - offset := ulongSub_of_le atMost (by decide)
  have next : ulong (node.lastPage + 1) = spot := by rw [ulong_of_lt (by omega), follows]
  have starts : spot * 4096 ≤ node.lastPage * 4096 + offset ∨ (node.lastPageOffset ≠ 0 ∧ node.lastPage + 1 = spot ∧
        node.lastPage * 4096 + node.lastPageOffset ≤ node.lastPage * 4096 + offset) :=
    .inr ⟨offsetNonzero, follows, by omega⟩
  have alignedFirst : 2 ^ power ∣ node.lastPage * 4096 + offset :=
    Nat.dvd_add (Dvd.dvd.mul_left powerDivides _) divides
  unfold placeRequest
  rw [if_pos ⟨by simpa only [pageSize] using powerBound, offsetNonzero, next⟩]
  simp only [rounded, remainder, address, shiftRight_pageShift, and_pageSize_pred]
  by_cases room : size < 4096 - offset
  · rw [if_pos room]
    refine ⟨_, _, _, rfl, ?_⟩
    refine ⟨by omega, starts, by omega, by omega, alignedFirst, Nat.mod_lt _ (by decide), ?_⟩
    intro nonzero
    dsimp only at nonzero ⊢
    rw [ulong_of_lt (by omega), Nat.mod_eq_of_lt (by omega)] at nonzero ⊢
    exact ⟨by omega, by omega, .inl ⟨rfl, offsetNonzero⟩⟩
  · rw [if_neg room]
    refine ⟨_, _, _, rfl, ?_⟩
    have back : ulong (size - (4096 - offset) + pageSize - 1) = size - (4096 - offset) + 4095 := by
      unfold pageSize
      rw [ulong_of_lt (by omega)]
      omega
    rw [back]
    refine ⟨by omega, starts, by omega, by omega, alignedFirst, Nat.mod_lt _ (by decide), ?_⟩
    intro nonzero
    dsimp only at nonzero ⊢
    rw [ulong_of_lt (by omega), ulongSub_of_le (by omega) (by omega)]
    exact ⟨by omega, by omega, .inr (by omega)⟩

/-- A run at `spot` may begin in the rest of the last page. -/
def Continues (node : BootmemNode) (alignment spot : Nat) : Prop :=
  alignment ≤ pageSize ∧ node.lastPageOffset ≠ 0 ∧ ulong (node.lastPage + 1) = spot

theorem placeRequest_fresh (addressable : node.beginPpn + node.numPpn ≤ 2 ^ 26)
    (positive : 0 < size) (fresh : ¬ Continues node alignment spot)
    (spotInside : spot + (size + 4095) / 4096 ≤ node.numPpn) :
    ∃ marked after, placeRequest node size alignment spot ((size + 4095) / 4096) =
        (pmaPa2Va (node.beginPpn * 4096 + spot * 4096), marked, after) ∧
      Placed node size 4096 spot (spot * 4096) marked after := by
  have address : ulong (ulong (spot + node.beginPpn) <<< pageShift) = node.beginPpn * 4096 + spot * 4096 := by
    rw [shiftLeft_pageShift, ulong_of_lt (show spot + node.beginPpn < 2 ^ 64 by omega), ulong_of_lt (by omega)]
    omega
  unfold Continues at fresh
  unfold placeRequest
  rw [if_neg fresh, address, and_pageSize_pred]
  refine ⟨_, _, rfl, ?_⟩
  refine ⟨by omega, .inl (Nat.le_refl _), Nat.le_refl _, by omega, Dvd.intro_left _ rfl,
    Nat.mod_lt _ (by decide), ?_⟩
  intro nonzero
  dsimp only at nonzero ⊢
  rw [ulong_of_lt (by omega), ulongSub_of_le (by omega) (by omega)]
  exact ⟨by omega, by omega, .inr (by omega)⟩

theorem Placed.of_dvd {unit first marked : Nat}
    (placed : Placed node size unit spot first marked after) (divides : alignment ∣ unit) :
    Placed node size alignment spot first marked after :=
  { placed with aligned := divides.trans placed.aligned }

theorem placeRequest_placed (fits : NodeFits node) (positive : 0 < size)
    (bounded : size + 4095 < 2 ^ 64) (spotInside : spot + (size + 4095) / 4096 ≤ node.numPpn) :
    ∃ first marked after, placeRequest node size (2 ^ power) spot ((size + 4095) / 4096) =
        (pmaPa2Va (node.beginPpn * 4096 + first), marked, after) ∧
      Placed node size (2 ^ min power 12) spot first marked after := by
  have addressable := fits.addressable
  by_cases continues : Continues node (2 ^ power) spot
  · obtain ⟨inPage, offsetNonzero, follows⟩ := continues
    have small : power ≤ 12 := (Nat.pow_le_pow_iff_right (by decide)).mp inPage
    have lastInside := (fits.lastPage offsetNonzero).1
    rw [ulong_of_lt (by omega)] at follows
    rw [Nat.min_eq_left small]
    exact placeRequest_continues fits positive bounded small offsetNonzero follows spotInside
  · obtain ⟨marked, after, place, placed⟩ := placeRequest_fresh addressable positive continues spotInside
    exact ⟨_, marked, after, place, placed.of_dvd (Nat.pow_dvd_pow 2 (Nat.min_le_right _ _))⟩

end

/-- The region lies inside the node, on marked pages. -/
structure RegionMarked (node : BootmemNode) (address size : Nat) : Prop where
  first : ∃ first, address = pmaPa2Va (node.beginPpn * 4096 + first) ∧
    first + size ≤ node.numPpn * 4096 ∧
    ∀ page, page * 4096 < first + size → first < (page + 1) * 4096 →
      testBit node.memMap page = true

/-- What a call may do to a node: it only adds marks. -/
structure BootmemStep (before after : BootmemNode) : Prop where
  fits : NodeFits after
  same : SameNode before after
  keeps : ∀ page, testBit before.memMap page = true → testBit after.memMap page = true

theorem findSpotFrom_clear {areaSize : Nat} {starts : Nat × Nat}
    (bounded : node.numPpn + areaSize < 2 ^ 64) (found : findSpotFrom node areaSize starts = some spot) :
    spot < node.numPpn ∧ ∀ page, spot ≤ page → page < spot + areaSize →
      page < node.numPpn ∧ testBit node.memMap page = false := by
  have scan : ∃ start, findSpot node areaSize (node.numPpn - start) start = some spot := by
    unfold findSpotFrom at found
    split at found
    next early => exact ⟨_, early.trans found⟩
    next => exact ⟨_, found⟩
  obtain ⟨start, scanned⟩ := scan
  by_cases beyond : node.numPpn ≤ start
  · rw [Nat.sub_eq_zero_of_le beyond] at scanned
    cases scanned
  · exact findSpot_clear bounded (by omega) scanned

theorem takeSpot_runs {address marked : Nat} {placed : BootmemNode} (memory : Memory)
    (place : placeRequest node size alignment spot ((size + 4095) / 4096) = (address, marked, placed))
    (bounded : size + 4095 < 2 ^ 64) (inside : spot + (size + 4095) / 4096 < 2 ^ 64)
    (clear : ∀ page, spot ≤ page → page < spot + (size + 4095) / 4096 → testBit node.memMap page = false) :
    SameNode node placed ∧
      ∃ memMap, takeSpot node size alignment spot ((size + 4095) / 4096) memory =
          .ok (address, { placed with memMap }, memset memory address 0 size) ∧
        marked ≤ (size + 4095) / 4096 ∧
        ∀ page, testBit memMap page =
          (decide (spot ≤ page ∧ page < spot + marked) || testBit node.memMap page) := by
  obtain ⟨_, _, _, run, few, sameMap, same⟩ := placeRequest_few node alignment spot bounded
  obtain ⟨rfl, rfl, rfl⟩ : address = _ ∧ marked = _ ∧ placed = _ := by
    simpa only [Prod.mk.injEq] using place.symm.trans run
  obtain ⟨memMap, marking⟩ : ∃ memMap, setBits "bootmem_alloc" marked spot node.memMap = .ok memMap :=
    setBits_exists (by omega) (fun page lower upper => clear page lower (by omega))
  refine ⟨same, memMap, ?_, few, testBit_setBits (by omega) marking⟩
  rw [takeSpot, place]
  simp only [sameMap, marking, Result.ok_bind]
  rfl

/-- The bytes that `bootmem_alloc` takes, and the pages it marks for them. -/
structure Taken (node : BootmemNode) (size alignment spot first marked : Nat)
    (after : BootmemNode) : Prop extends Placed node size alignment spot first marked after where
  same : SameNode node after
  clear : ∀ page, spot ≤ page → page < spot + marked →
    page < node.numPpn ∧ testBit node.memMap page = false
  bits : ∀ page, testBit after.memMap page =
    (decide (spot ≤ page ∧ page < spot + marked) || testBit node.memMap page)

section
variable {node after : BootmemNode} {size alignment unit spot first marked : Nat}

theorem takeSpot_taken {placed : BootmemNode} (memory : Memory) (pages : node.numPpn ≤ 2 ^ 52)
    (bounded : size + 4095 < 2 ^ 64) (place : placeRequest node size alignment spot ((size + 4095) / 4096) =
      (pmaPa2Va (node.beginPpn * 4096 + first), marked, placed))
    (lands : Placed node size unit spot first marked placed) (spotInside : spot < node.numPpn)
    (clear : ∀ page, spot ≤ page → page < spot + (size + 4095) / 4096 →
      page < node.numPpn ∧ testBit node.memMap page = false) :
    ∃ after, takeSpot node size alignment spot ((size + 4095) / 4096) memory =
        .ok (pmaPa2Va (node.beginPpn * 4096 + first), after,
          memset memory (pmaPa2Va (node.beginPpn * 4096 + first)) 0 size) ∧
      Taken node size unit spot first marked after := by
  obtain ⟨same, memMap, run, few, bits⟩ := takeSpot_runs memory place bounded (by omega)
    (fun page lower upper => (clear page lower upper).2)
  refine ⟨_, run, ⟨lands.fits, lands.starts, lands.near, lands.tight, lands.aligned, lands.offset,
    lands.lastPage⟩, ⟨same.beginPpn, same.numPpn, same.memMapAddr, same.memMapSize⟩, ?_, bits⟩
  intro page lower upper
  exact clear page lower (by omega)

section
variable (taken : Taken node size alignment spot first marked after)
include taken

theorem Taken.inside (positive : 0 < size) (fits : NodeFits node) : first + size ≤ node.numPpn * 4096 := by
  have upper := taken.fits
  rcases Nat.eq_zero_or_pos marked with none | some
  · -- Nothing was marked, so the request is in the last page.
    subst marked
    rcases taken.starts with fresh | ⟨used, follows, _⟩
    · exact absurd (Nat.le_trans upper fresh) (by omega)
    · have inNode := (fits.lastPage used).1
      exact upper.trans (Nat.mul_le_mul_right _ (by omega))
  · have last := (taken.clear (spot + marked - 1) (by omega) (by omega)).1
    exact upper.trans (Nat.mul_le_mul_right _ (by omega))

theorem Taken.marked_of_meets (fits : NodeFits node) {page : Nat} (before : page * 4096 < first + size)
    (behind : first < (page + 1) * 4096) : testBit after.memMap page = true := by
  have upper := taken.fits
  rw [taken.bits]
  rcases taken.starts with fresh | ⟨used, follows, lower⟩
  · rw [decide_eq_true (by omega), Bool.true_or]
  · by_cases last : page = node.lastPage
    · rw [last, (fits.lastPage used).2, Bool.or_true]
    · rw [decide_eq_true (by omega), Bool.true_or]

theorem Taken.step (positive : 0 < size) (fits : NodeFits node) : BootmemStep node after := by
  have inside := taken.inside positive fits
  refine ⟨⟨?_, taken.offset, ?_⟩, taken.same, ?_⟩
  · rw [taken.same.beginPpn, taken.same.numPpn]
    exact fits.addressable
  · intro nonzero
    obtain ⟨ends, _, _⟩ := taken.lastPage nonzero
    have offset := taken.offset
    rw [taken.same.numPpn]
    refine ⟨by omega, ?_⟩
    obtain ⟨_, before, known⟩ := taken.lastPage nonzero
    rw [taken.bits]
    rcases known with ⟨unchanged, used⟩ | new
    · rw [unchanged, (fits.lastPage used).2, Bool.or_true]
    · rw [decide_eq_true ⟨new, before⟩, Bool.true_or]
  · intro page set
    rw [taken.bits, set, Bool.or_true]

theorem Taken.region (positive : 0 < size) (fits : NodeFits node) :
    RegionMarked after (pmaPa2Va (node.beginPpn * 4096 + first)) size := by
  refine ⟨first, ?_, ?_, fun page before behind => taken.marked_of_meets fits before behind⟩
  · rw [taken.same.beginPpn]
  · rw [taken.same.numPpn]
    exact taken.inside positive fits

end

end

theorem two_pow_isPower {power : Nat} (small : power < 64) : 2 ^ power &&& ulongSub (2 ^ power) 1 = 0 := by
  have positive := Nat.two_pow_pos power
  have bound : 2 ^ power < 2 ^ 64 := Nat.pow_lt_pow_right (by decide) small
  rw [ulongSub_of_le (by omega) bound, Nat.and_two_pow_sub_one_eq_mod, Nat.mod_self]

def areaSize (size : Nat) : Nat := ulong (size + pageSize - 1) >>> pageShift

theorem areaSize_eq (bounded : size + 4095 < 2 ^ 64) : areaSize size = (size + 4095) / 4096 := by
  have lastByte : size + pageSize - 1 = size + 4095 := by
    unfold pageSize
    omega
  rw [areaSize, lastByte, shiftRight_pageShift, ulong_of_lt (by omega)]

theorem bootmemAlloc_eq (goal : Nat) (node : BootmemNode) (memory : Memory)
    (positive : 0 < size) (isPower : alignment &&& ulongSub alignment 1 = 0) :
    bootmemAlloc size alignment goal node memory =
      match findSpotFrom node (areaSize size) (scanStarts node alignment goal) with
      | none => .ok (0, node, memory)
      | some spot => takeSpot node size alignment spot (areaSize size) memory := by
  have area : ulong (size + pageSize - 1) >>> pageShift = areaSize size := rfl
  unfold bootmemAlloc
  simp only [Nat.ne_of_gt positive, if_false, isPower, ne_eq, not_true_eq_false, area]
  generalize findSpotFrom node _ _ = found
  generalize areaSize size = pages
  cases found <;> rfl

theorem bootmemAlloc_keeps {node : BootmemNode} {size power : Nat} (goal : Nat) (memory : Memory)
    (pages : node.numPpn ≤ 2 ^ 52) (bounded : size + 4095 < 2 ^ 64) (small : power ≤ 12) :
    ∃ address after memory', bootmemAlloc size (2 ^ power) goal node memory =
        .ok (address, after, memory') ∧ SameNode node after ∧
      (∀ page, testBit node.memMap page = true → testBit after.memMap page = true) ∧
      ∀ page ≥ node.numPpn, testBit after.memMap page = testBit node.memMap page := by
  rcases Nat.eq_zero_or_pos size with empty | positive
  · subst size
    exact ⟨0, node, memory, rfl, .refl node, fun _ set => set, fun _ _ => rfl⟩
  · rw [bootmemAlloc_eq goal node memory positive (two_pow_isPower (by omega)), areaSize_eq bounded]
    split
    next => exact ⟨0, node, memory, rfl, .refl node, fun _ set => set, fun _ _ => rfl⟩
    next spot found =>
      have clear := findSpotFrom_clear (by omega) found
      obtain ⟨_, _, _, place, _⟩ := placeRequest_few node (2 ^ power) spot bounded
      obtain ⟨same, memMap, run, few, bits⟩ := takeSpot_runs memory place bounded (by omega)
        (fun page lower upper => (clear.2 page lower upper).2)
      refine ⟨_, _, _, run, ⟨same.beginPpn, same.numPpn, same.memMapAddr, same.memMapSize⟩, ?_, ?_⟩
      · intro page set
        rw [bits, set, Bool.or_true]
      · intro page beyond
        have outside : ¬ (spot ≤ page ∧ page < spot + _) := fun inside =>
          absurd (clear.2 page inside.1 (Nat.lt_of_lt_of_le inside.2 (Nat.add_le_add_left few _))).1
            (Nat.not_lt_of_le beyond)
        rw [bits, decide_eq_false outside, Bool.false_or]

theorem bootmemAlloc_taken {power : Nat} (goal : Nat) (memory : Memory)
    (fits : NodeFits node) (positive : 0 < size) (bounded : size + 4095 < 2 ^ 64) (small : power < 64) :
    bootmemAlloc size (2 ^ power) goal node memory = .ok (0, node, memory) ∨
      ∃ spot first marked after, bootmemAlloc size (2 ^ power) goal node memory =
          .ok (pmaPa2Va (node.beginPpn * 4096 + first), after,
            memset memory (pmaPa2Va (node.beginPpn * 4096 + first)) 0 size) ∧
        Taken node size (2 ^ min power 12) spot first marked after := by
  have addressable := fits.addressable
  rw [bootmemAlloc_eq goal node memory positive (two_pow_isPower small), areaSize_eq bounded]
  split
  next => exact .inl rfl
  next spot found =>
    have clear := findSpotFrom_clear (by omega) found
    have last := clear.2 (spot + (size + 4095) / 4096 - 1) (by omega) (by omega)
    obtain ⟨first, marked, placed, place, lands⟩ := placeRequest_placed fits positive bounded
        (show spot + (size + 4095) / 4096 ≤ node.numPpn by omega)
    obtain ⟨after, run, taken⟩ := takeSpot_taken memory (by omega) bounded place lands clear.1 clear.2
    exact .inr ⟨spot, first, marked, after, run, taken⟩

theorem bootmemAlloc_spec {node : BootmemNode} {size power : Nat} (goal : Nat) (memory : Memory)
    (fits : NodeFits node) (bounded : size + 4095 < 2 ^ 64) (small : power ≤ 12) :
    ∃ address after memory', bootmemAlloc size (2 ^ power) goal node memory = .ok (address, after, memory') ∧
      BootmemStep node after ∧ (address ≠ 0 → RegionMarked after address size) := by
  have unchanged : BootmemStep node node := ⟨fits, .refl node, fun _ set => set⟩
  rcases Nat.eq_zero_or_pos size with empty | positive
  · subst size
    exact ⟨0, node, memory, rfl, unchanged, fun nonzero => absurd rfl nonzero⟩
  · rcases bootmemAlloc_taken goal memory fits positive bounded (show power < 64 by omega) with
      null | ⟨spot, first, marked, after, run, taken⟩
    · exact ⟨0, node, memory, null, unchanged, fun nonzero => absurd rfl nonzero⟩
    · exact ⟨_, after, _, run, taken.step positive fits, fun _ => taken.region positive fits⟩

structure PagedSegment (segment : RamSegment) : Prop where
  beginAligned : 4096 ∣ segment.paBegin
  endAligned : 4096 ∣ segment.paBegin + segment.paLen
  reachable : segment.paBegin + segment.paLen ≤ 2 ^ 37

section
variable {segments : List RamSegment} {segment : RamSegment}

theorem widenRange_aligned (beginAligned : 4096 ∣ segment.paBegin)
    (endAligned : 4096 ∣ segment.paBegin + segment.paLen)
    (bounded : segment.paBegin + segment.paLen < 2 ^ 64) (range : Nat × Nat) :
    widenRange range segment = (max range.1 ((segment.paBegin + segment.paLen) / 4096),
      min range.2 (segment.paBegin / 4096)) := by
  unfold widenRange
  simp only [ulong_of_lt bounded, pageRoundUp_eq (show segment.paBegin + 4095 < 2 ^ 64 by omega),
    pageRoundDown_eq bounded, shiftRight_pageShift, Prod.mk.injEq]
  constructor <;> split <;> omega

theorem PagedSegment.widenRange_eq (paged : PagedSegment segment) (range : Nat × Nat) :
    widenRange range segment = (max range.1 ((segment.paBegin + segment.paLen) / 4096),
      min range.2 (segment.paBegin / 4096)) :=
  widenRange_aligned paged.beginAligned paged.endAligned (Nat.lt_of_le_of_lt paged.reachable (by decide)) range

theorem widenRange_contains (paged : ∀ segment ∈ segments, PagedSegment segment) (range : Nat × Nat) :
    range.1 ≤ (segments.foldl widenRange range).1 ∧ (segments.foldl widenRange range).2 ≤ range.2 ∧
      (segments.foldl widenRange range).1 ≤ max range.1 (2 ^ 25) ∧
      ∀ segment ∈ segments,
        (segment.paBegin + segment.paLen) / 4096 ≤ (segments.foldl widenRange range).1 ∧
          (segments.foldl widenRange range).2 ≤ segment.paBegin / 4096 := by
  induction segments generalizing range with
  | nil => simp
  | cons first rest ih =>
    have firstPaged := paged first (List.mem_cons_self ..)
    have reachable := firstPaged.reachable
    obtain ⟨upper, lower, bounded, contains⟩ :=
      ih (fun segment member => paged segment (List.mem_cons_of_mem _ member)) (widenRange range first)
    rw [List.foldl_cons]
    rw [firstPaged.widenRange_eq] at *
    dsimp only at upper lower bounded
    refine ⟨by omega, by omega, by omega, ?_⟩
    intro segment member
    rcases List.mem_cons.mp member with rfl | inRest
    · omega
    · exact contains segment inRest

theorem bootmemInitUmaNode_marked (paged : ∀ segment ∈ segments, PagedSegment segment)
    (member : segment ∈ segments) (stale : Bitmap) :
    ∃ node, bootmemInitUmaNode segments stale = node ∧ node.beginPpn + node.numPpn ≤ 2 ^ 25 ∧
      node.memMapAddr = pmaPa2Va (node.beginPpn * 4096) ∧ node.memMapSize = (node.numPpn + 7) / 8 ∧
      node.lastPageOffset = 0 ∧ ∀ page, page < node.numPpn → testBit node.memMap page = true := by
  obtain ⟨_, _, upperBound, contains⟩ := widenRange_contains paged (0, 2 ^ 64 - 1)
  have inside := contains segment member
  rw [bootmemInitUmaNode]
  generalize segments.foldl widenRange (0, 2 ^ 64 - 1) = range at upperBound inside
  obtain ⟨upper, lower⟩ := range
  dsimp only at upperBound inside ⊢
  have count : ulongSub upper lower = upper - lower := ulongSub_of_le (by omega) (by omega)
  have address : ulong (lower <<< pageShift) = lower * 4096 := by
    rw [shiftLeft_pageShift, ulong_of_lt (by omega)]
  have size : ulong (upper - lower + 0x7) >>> 3 = (upper - lower + 7) / 8 := by
    rw [ulong_of_lt (by omega), Nat.shiftRight_eq_div_pow]
  rw [count, address, size]
  refine ⟨_, rfl, by dsimp only; omega, rfl, rfl, rfl, ?_⟩
  intro page below
  dsimp only at below ⊢
  rw [testBit_eq, if_pos (show page / 8 < (upper - lower + 7) / 8 by omega)]
  show Nat.testBit (2 ^ 8 - 1) (page % 8) = true
  rw [Nat.testBit_two_pow_sub_one, decide_eq_true (by omega)]

theorem bootmemUpdateRange_runs {function : String}
    {update : Nat → Nat → Bitmap → Result Bitmap} {paddr : Nat}
    (fits : paddr + size + 4095 < 2 ^ 64) (bounded : node.beginPpn + node.numPpn ≤ 2 ^ 25)
    (run : bootmemUpdateRange function update paddr size node = .ok after) :
    node.beginPpn ≤ paddr / 4096 ∧ ∃ memMap,
      update ((paddr + size + 4095) / 4096 - paddr / 4096) (paddr / 4096 - node.beginPpn)
        node.memMap = .ok memMap ∧ after = { node with memMap } := by
  unfold bootmemUpdateRange at run
  simp only [ulong_of_lt (show paddr + size < 2 ^ 64 by omega),
    ulong_of_lt (show node.beginPpn + node.numPpn < 2 ^ 64 by omega),
    pageRoundDown_eq (show paddr < 2 ^ 64 by omega), pageRoundUp_eq fits, shiftRight_pageShift,
    Nat.mul_div_cancel _ (show 0 < 4096 by decide)] at run
  split at run
  · cases run
  · split at run
    · cases run
    · obtain ⟨memMap, updated, final⟩ := Result.bind_ok run
      have count : (paddr + size + 4095) / 4096 - node.beginPpn - (paddr / 4096 - node.beginPpn) =
          (paddr + size + 4095) / 4096 - paddr / 4096 := by omega
      rw [ulongSub_of_le (show node.beginPpn ≤ (paddr + size + 4095) / 4096 by omega) (by omega),
        ulongSub_of_le (show node.beginPpn ≤ paddr / 4096 by omega) (by omega),
        ulongSub_of_le (by omega) (by omega), count] at updated
      exact ⟨by omega, memMap, updated, (Except.ok.inj final).symm⟩

theorem bootmemFreeAvailableSegments_clears
    (paged : ∀ segment ∈ segments, PagedSegment segment) (bounded : node.beginPpn + node.numPpn ≤ 2 ^ 25)
    (run : bootmemFreeAvailableSegments segments node = .ok after) :
    ∃ memMap, after = { node with memMap } ∧ ∀ page, testBit memMap page = false →
      testBit node.memMap page = false ∨
        ∃ segment ∈ segments, segment.paBegin ≤ (node.beginPpn + page) * 4096 ∧
          (node.beginPpn + page + 1) * 4096 ≤ segment.paBegin + segment.paLen := by
  induction segments generalizing node with
  | nil =>
    cases run
    exact ⟨after.memMap, rfl, fun _ clear => .inl clear⟩
  | cons first rest ih =>
    obtain ⟨beginAligned, endAligned, reachable⟩ := paged first (List.mem_cons_self ..)
    obtain ⟨middle, free, remaining⟩ := Result.bind_ok run
    obtain ⟨above, memMap, cleared, rfl⟩ := bootmemUpdateRange_runs (by omega) bounded free
    obtain ⟨finalMap, rfl, finalClear⟩ := ih (fun segment member => paged segment (List.mem_cons_of_mem _ member))
        (by exact bounded) remaining
    refine ⟨finalMap, rfl, ?_⟩
    intro page clear
    rcases finalClear page clear with before | ⟨segment, member, inside⟩
    · dsimp only at before
      rw [testBit_clearBits (by omega) cleared, Bool.and_eq_false_iff] at before
      rcases before with inFirst | before
      · right
        simp only [Bool.not_eq_false', decide_eq_true_eq] at inFirst
        exact ⟨first, List.mem_cons_self .., by omega, by omega⟩
      · exact .inl before
    · exact .inr ⟨segment, List.mem_cons_of_mem _ member, inside⟩

/-- What `bootmem_init` establishes: a clear page is a page of a segment, and the pages
of the map itself are marked. -/
structure BootmemReady (segments : List RamSegment) (node : BootmemNode) : Prop where
  addressable : node.beginPpn + node.numPpn ≤ 2 ^ 25
  available : ∀ page, page < node.numPpn → testBit node.memMap page = false →
    ∃ segment ∈ segments, segment.paBegin ≤ (node.beginPpn + page) * 4096 ∧
      (node.beginPpn + page + 1) * 4096 ≤ segment.paBegin + segment.paLen
  memMapAddr : node.memMapAddr = pmaPa2Va (node.beginPpn * 4096)
  memMapSize : node.memMapSize = (node.numPpn + 7) / 8
  memMapMarked : ∀ page, page * 4096 < node.memMapSize → testBit node.memMap page = true
  offset : node.lastPageOffset = 0

theorem bootmemInit_nil (stale : Bitmap) :
    bootmemInit [] stale = .error (.panic "bootmem_reserve - begin_ppn error") := by
  have below : pageRoundDown (pmaVa2Pa (pmaPa2Va (ulong ((2 ^ 64 - 1) <<< pageShift)))) >>> pageShift <
      2 ^ 64 - 1 := by decide
  show bootmemReserve _ _ (bootmemInitUmaNode [] stale) = _
  exact if_pos below

theorem bootmemInit_ready {stale : Bitmap} (paged : ∀ segment ∈ segments, PagedSegment segment)
    (run : bootmemInit segments stale = .ok node) : BootmemReady segments node := by
  obtain ⟨first, isFirst⟩ : ∃ segment, segment ∈ segments := by
    cases segments with
    | nil => simp [bootmemInit_nil] at run
    | cons first rest => exact ⟨first, List.mem_cons_self ..⟩
  obtain ⟨initial, init, addressable, mapAddr, mapSize, offset, marked⟩ :=
    bootmemInitUmaNode_marked paged isFirst stale
  rw [bootmemInit, init] at run
  obtain ⟨freed, freeRun, reserveRun⟩ := Result.bind_ok run
  obtain ⟨freedMap, rfl, freedClear⟩ := bootmemFreeAvailableSegments_clears paged addressable freeRun
  have mapPa : pmaVa2Pa (pmaPa2Va (initial.beginPpn * 4096)) = initial.beginPpn * 4096 := by
    rw [pmaVa2Pa_pmaPa2Va, Nat.mod_eq_of_lt (by omega)]
  dsimp only at reserveRun
  rw [mapAddr, mapPa, bootmemReserve] at reserveRun
  obtain ⟨_, memMap, set, rfl⟩ := bootmemUpdateRange_runs (by omega) (by exact addressable) reserveRun
  have bits := testBit_setBits (by omega) set
  refine ⟨addressable, ?_, rfl, mapSize, ?_, offset⟩
  · intro page below clear
    rw [bits, Bool.or_eq_false_iff] at clear
    rcases freedClear page clear.2 with before | available
    · simp [marked page below] at before
    · exact available
  · intro page below
    dsimp only at below ⊢
    rw [bits, decide_eq_true (by dsimp only; omega), Bool.true_or]

end

end Kalorona.Memory
