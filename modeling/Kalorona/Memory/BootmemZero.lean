import Kalorona.Memory.BootmemScan

namespace Kalorona.Memory

open Kalorona.Data Kalorona.Device Kalorona.Utilities

/-! # Alignment zero

`bootmem_alloc` guards against alignment 0 where it computes the offset of the first aligned
page, and nowhere else.
-/

def goalPage (node : BootmemNode) (goal : Nat) : Nat := goalOffset node goal >>> pageShift

theorem goalOffset_lt (node : BootmemNode) (goal : Nat) : goalOffset node goal < 2 ^ 64 := by
  unfold goalOffset
  split
  · exact Nat.mod_lt _ (by decide)
  · decide

theorem scanStarts_zero (node : BootmemNode) (goal : Nat) : scanStarts node 0 goal = (0, 0) := by
  have mask : ulongNot (ulongSub 0 1) = 0 := by decide
  unfold scanStarts
  simp only [mask, Nat.and_zero, ne_eq, not_true, if_false, Nat.zero_shiftRight]
  rfl

theorem ulongSub_succ_one {value : Nat} (bounded : value < 2 ^ 64) : ulongSub (ulong (value + 1)) 1 = value := by
  unfold ulongSub ulong
  omega

theorem scanStarts_one (node : BootmemNode) (goal : Nat) : scanStarts node 1 goal = (goalPage node goal, 0) := by
  have bounded := goalOffset_lt node goal
  have none : ulongSub 1 1 = 0 := by decide
  have mask : ulongNot 0 = 2 ^ 64 - 1 := by decide
  have goalPart : (if goal ≠ 0 ∧ goal >>> pageShift ≥ node.beginPpn ∧
      goal >>> pageShift < ulong (node.beginPpn + node.numPpn) then
      ulongSub goal (ulong (node.beginPpn <<< pageShift)) else 0) = goalOffset node goal := rfl
  unfold scanStarts
  simp only [goalPart, none, mask, ulongSub_succ_one bounded, Nat.and_zero, ite_self,
    Nat.zero_shiftRight, Nat.add_zero]
  rw [Nat.and_two_pow_sub_one_eq_mod, Nat.mod_eq_of_lt bounded, goalPage, shiftRight_pageShift,
    ulong_of_lt (by omega)]

section
variable {node : BootmemNode} {area spot : Nat}

theorem findSpotFrom_zero (goal : Nat) :
    findSpotFrom node area (scanStarts node 0 goal) = some spot ↔ FirstRun node area 0 spot := by
  rw [scanStarts_zero, findSpotFrom_iff]
  constructor
  · rintro ⟨start, ⟨rfl, _⟩ | ⟨rfl, _⟩, first⟩
    · exact first
    · exact first
  · intro first
    exact ⟨0, .inl ⟨rfl, fun none => none spot (Nat.zero_le _) first.run⟩, first⟩

theorem findSpotFrom_one (goal : Nat) : findSpotFrom node area (scanStarts node 1 goal) = some spot ↔
      FirstRun node area (goalPage node goal) spot ∨
        (NoRun node area (goalPage node goal) ∧ FirstRun node area 0 spot) := by
  rw [scanStarts_one, findSpotFrom_iff]
  constructor
  · rintro ⟨start, ⟨rfl, _⟩ | ⟨rfl, none⟩, first⟩
    · exact .inl first
    · exact .inr ⟨none, first⟩
  · rintro (first | ⟨none, first⟩)
    · exact ⟨_, .inl ⟨rfl, fun none => none spot first.lower first.run⟩, first⟩
    · exact ⟨_, .inr ⟨rfl, none⟩, first⟩

end

def appendOffset (node : BootmemNode) (alignment : Nat) : Nat :=
  ulongSub (ulong (node.lastPageOffset + alignment)) 1 &&& ulongNot (ulongSub alignment 1)

def appendedPages (size offset : Nat) : Nat :=
  if size < pageSize - offset then 0
  else ulong (size - (pageSize - offset) + pageSize - 1) >>> pageShift

theorem appendOffset_zero (node : BootmemNode) : appendOffset node 0 = 0 := by
  have mask : ulongNot (ulongSub 0 1) = 0 := by decide
  rw [appendOffset, mask, Nat.and_zero]

variable {node after : BootmemNode} {later spot : Nat} {memory : Memory}

theorem appendOffset_one (offset : node.lastPageOffset < 4096) : appendOffset node 1 = node.lastPageOffset := by
  have mask : ulongNot (ulongSub 1 1) = 2 ^ 64 - 1 := by decide
  rw [appendOffset, mask, ulongSub_succ_one (by omega), Nat.and_two_pow_sub_one_eq_mod, Nat.mod_eq_of_lt (by omega)]

section
variable {node : BootmemNode} {size alignment spot area : Nat}

theorem Continues.marks (continues : Continues node alignment spot) :
    (placeRequest node size alignment spot area).2 = if size < ulongSub pageSize (appendOffset node alignment) then
        (0, { node with lastPageOffset := ulong (appendOffset node alignment + size) % 4096 }) else
        (ulong (size - ulongSub pageSize (appendOffset node alignment) + pageSize - 1) >>> pageShift, { node with
            lastPage := ulongSub (ulong (spot +
              ulong (size - ulongSub pageSize (appendOffset node alignment) + pageSize - 1) >>>
                pageShift)) 1
            lastPageOffset := (size - ulongSub pageSize (appendOffset node alignment)) % 4096 }) := by
  unfold Continues at continues
  rw [placeRequest, if_pos continues]
  simp only [and_pageSize_pred, ← appendOffset.eq_1]
  exact apply_ite Prod.snd _ _ _

/-- The request continues the last page of the one before. -/
structure Appends (node : BootmemNode) (size offset spot marked : Nat) (after : BootmemNode) :
    Prop where
  pages : marked = appendedPages size offset
  memMap : after.memMap = node.memMap
  lastPage : after.lastPage = if size < pageSize - offset then node.lastPage
    else ulongSub (ulong (spot + marked)) 1
  lastPageOffset : after.lastPageOffset = (offset + size) % 4096

theorem Continues.appends (continues : Continues node alignment spot)
    (inPage : appendOffset node alignment < 4096) : Appends node size (appendOffset node alignment) spot
      (placeRequest node size alignment spot area).2.1 (placeRequest node size alignment spot area).2.2 := by
  rw [continues.marks]
  generalize appendOffset node alignment = offset at inPage ⊢
  rw [ulongSub_of_le (show offset ≤ pageSize from Nat.le_of_lt inPage) (by decide)]
  have pages : appendedPages size offset = if size < pageSize - offset then 0
    else ulong (size - (pageSize - offset) + pageSize - 1) >>> pageShift := appendedPages.eq_1 _ _
  by_cases fitsPage : size < pageSize - offset
  · simp only [if_pos fitsPage] at pages ⊢
    refine ⟨pages.symm, rfl, (if_pos fitsPage).symm, ?_⟩
    dsimp only
    unfold ulong
    omega
  · simp only [if_neg fitsPage] at pages ⊢
    refine ⟨pages.symm, rfl, (if_neg fitsPage).symm, ?_⟩
    dsimp only
    unfold pageSize at fitsPage ⊢
    omega

/-- The request starts on a page of its own. -/
structure Starts (node : BootmemNode) (size area spot marked : Nat) (after : BootmemNode) :
    Prop where
  pages : marked = area
  memMap : after.memMap = node.memMap
  lastPage : after.lastPage = ulongSub (ulong (spot + area)) 1
  lastPageOffset : after.lastPageOffset = size % 4096

theorem fresh_starts (fresh : ¬ Continues node alignment spot) :
    Starts node size area spot (placeRequest node size alignment spot area).2.1
      (placeRequest node size alignment spot area).2.2 := by
  -- With variables for the new numbers, the projections do not unfold their arithmetic.
  have reads (address : Nat) {last used : Nat} (atLast : last = ulongSub (ulong (spot + area)) 1)
      (atOffset : used = size % 4096) :
      Starts node size area spot (address, area, { node with lastPage := last, lastPageOffset := used }).2.1
        (address, area, { node with lastPage := last, lastPageOffset := used }).2.2 :=
    ⟨rfl, rfl, atLast, atOffset⟩
  unfold Continues at fresh
  rw [placeRequest, if_neg fresh]
  exact reads _ rfl (and_pageSize_pred size)

def Blocked (node : BootmemNode) (spot count : Nat) : Prop :=
  ∃ page, spot ≤ page ∧ page < spot + count ∧ testBit node.memMap page = true

variable {stop : Stop} {address : Nat} {memory' : Memory}

theorem setBits_stops {message : String} {count index : Nat} {map : Bitmap}
    (run : setBits message count index map = .error stop) : stop = .panic message := by
  induction count generalizing index map with
  | zero => cases run
  | succ count ih =>
    rw [setBits] at run
    split at run
    · cases run
      rfl
    · exact ih run

theorem setBits_blocked {message : String} {count : Nat} (bounded : spot + count < 2 ^ 64) :
    setBits message count spot node.memMap = .error (.panic message) ↔ Blocked node spot count := by
  constructor
  · intro stopped
    by_contra free
    obtain ⟨after, run⟩ := @setBits_exists message count spot node.memMap bounded
      fun page lower upper => Bool.eq_false_iff.mpr fun set => free ⟨page, lower, upper, set⟩
    cases run.symm.trans stopped
  · rintro ⟨page, lower, upper, set⟩
    cases run : setBits message count spot node.memMap with
    | error stop => rw [setBits_stops run]
    | ok after =>
      have clear := setBits_were_clear bounded run lower upper
      rw [set] at clear
      cases clear

theorem takeSpot_after (run : takeSpot node size alignment spot area memory = .ok (address, after, memory')) :
    after.lastPage = (placeRequest node size alignment spot area).2.2.lastPage ∧
      after.lastPageOffset = (placeRequest node size alignment spot area).2.2.lastPageOffset ∧
      after.numPpn = (placeRequest node size alignment spot area).2.2.numPpn := by
  obtain ⟨memMap, _, final⟩ := Result.bind_ok run
  cases final
  exact ⟨rfl, rfl, rfl⟩

theorem takeSpot_stops_iff (memory : Memory) : takeSpot node size alignment spot area memory = .error stop ↔
      setBits "bootmem_alloc" (placeRequest node size alignment spot area).2.1 spot
        (placeRequest node size alignment spot area).2.2.memMap = .error stop := by
  rw [takeSpot]
  generalize placeRequest node size alignment spot area = placed
  dsimp only
  cases setBits "bootmem_alloc" placed.2.1 spot placed.2.2.memMap with
  | error other => simp only [Result.error_bind, Except.error.injEq]
  | ok memMap =>
    constructor
    · intro stopped
      cases stopped
    · intro stopped
      cases stopped

theorem shiftRight_lt (value : Nat) : ulong value >>> pageShift < 2 ^ 52 := by
  have bound := ulong_lt value
  rw [shiftRight_pageShift]
  omega

theorem appendedPages_lt (size offset : Nat) : appendedPages size offset < 2 ^ 52 := by
  unfold appendedPages
  split
  · decide
  · exact shiftRight_lt _

theorem areaSize_lt (size : Nat) : areaSize size < 2 ^ 52 := shiftRight_lt _

theorem Continues.takeSpot_stops (continues : Continues node alignment spot)
    (inPage : appendOffset node alignment < 4096) (inside : spot < 2 ^ 52) (memory : Memory) :
    takeSpot node size alignment spot area memory = .error (.panic "bootmem_alloc") ↔
      Blocked node spot (appendedPages size (appendOffset node alignment)) := by
  have appends := @Continues.appends _ size _ _ area continues inPage
  have few := appendedPages_lt size (appendOffset node alignment)
  rw [takeSpot_stops_iff, appends.memMap, appends.pages, setBits_blocked (by omega)]

theorem takeSpot_stop
    (run : takeSpot node size alignment spot area memory = .error stop) : stop = .panic "bootmem_alloc" :=
  setBits_stops ((takeSpot_stops_iff memory).mp run)

theorem RunAt.clear (run : RunAt node area spot) (bounded : spot + area < 2 ^ 64) : ¬ Blocked node spot area := by
  rintro ⟨page, lower, upper, set⟩
  have clear : testBit node.memMap page = false := by
    by_cases first : page = spot
    · rw [first]
      exact run.first
    · exact (run.rest page (by omega) (by rw [ulong_of_lt bounded]; exact upper)).2
  rw [set] at clear
  cases clear

theorem RunAt.takeSpot_fresh (run : RunAt node area spot) (fresh : ¬ Continues node alignment spot)
    (bounded : spot + area < 2 ^ 64) (memory : Memory) : ∃ address after memory',
      takeSpot node size alignment spot area memory = .ok (address, after, memory') := by
  cases taken : takeSpot node size alignment spot area memory with
  | ok given => exact ⟨given.1, given.2.1, given.2.2, rfl⟩
  | error stop =>
    have starts := @fresh_starts _ size _ _ area fresh
    have stopped := (takeSpot_stops_iff memory).mp taken
    rw [starts.memMap, starts.pages] at stopped
    obtain rfl := setBits_stops stopped
    exact absurd ((setBits_blocked bounded).mp stopped) (run.clear bounded)

theorem continues_one_iff : Continues node 1 spot ↔ Continues node 0 spot := by
  unfold Continues pageSize
  simp

theorem takeSpot_zero_offset (run : takeSpot node size 0 spot area memory = .ok (address, after, memory')) :
    after.lastPageOffset = size % 4096 := by
  rw [(takeSpot_after run).2.1]
  by_cases continues : Continues node 0 spot
  · have offset := appendOffset_zero node
    have appends := @Continues.appends _ size _ _ area continues (by omega)
    rw [appends.lastPageOffset, offset, Nat.zero_add]
  · exact (fresh_starts continues).lastPageOffset

theorem Continues.takeSpot_one_offset (continues : Continues node 1 spot) (used : node.lastPageOffset < 4096)
    (run : takeSpot node size 1 spot area memory = .ok (address, after, memory')) :
    after.lastPageOffset = (node.lastPageOffset + size) % 4096 := by
  have offset := appendOffset_one used
  have appends := @Continues.appends _ size _ _ area continues (by omega)
  rw [(takeSpot_after run).2.1, appends.lastPageOffset, offset]

theorem takeSpot_zero_lastPage (positive : 0 < size) (bounded : size < 2 ^ 64) (ordered : spot < later)
    (inside : later < 2 ^ 52 - 1)
    (run : takeSpot node size 0 spot (areaSize size) memory = .ok (address, after, memory')) :
    after.lastPage ≠ ulongSub (ulong (later + areaSize size)) 1 := by
  have area : areaSize size = (size + 4095) % 2 ^ 64 / 4096 := by
    rw [areaSize, shiftRight_pageShift]
    rfl
  rw [(takeSpot_after run).1]
  by_cases continues : Continues node 0 spot
  · have offset := appendOffset_zero node
    have appends := @Continues.appends _ size _ _ (areaSize size) continues (by omega)
    rw [appends.lastPage, appends.pages, offset]
    split
    next inPage =>
      have follows := continues.2.2
      rw [area]
      unfold pageSize ulong ulongSub at *
      omega
    next beyond =>
      have pages : appendedPages size 0 = (size - 1) / 4096 := by
        rw [appendedPages, if_neg beyond, shiftRight_pageShift]
        unfold pageSize ulong at *
        omega
      rw [pages, area]
      unfold pageSize ulong ulongSub at *
      omega
  · rw [(fresh_starts continues).lastPage, area]
    unfold ulong ulongSub
    omega

/-- A spot that alignment makes no difference to: it does not follow a partly used page, or the
pages behind it are taken and both requests panic. -/
def SpotSafe (node : BootmemNode) (size spot : Nat) : Prop :=
  ¬ Continues node 0 spot ∨ (Blocked node spot (appendedPages size 0) ∧
    Blocked node spot (appendedPages size node.lastPageOffset))

theorem SpotSafe.takeSpot_eq (safe : SpotSafe node size spot) (used : node.lastPageOffset < 4096)
    (inside : spot < 2 ^ 52) (memory : Memory) :
    takeSpot node size 0 spot area memory = takeSpot node size 1 spot area memory := by
  by_cases continues : Continues node 0 spot
  · rcases safe with fresh | ⟨blockedZero, blockedOne⟩
    · exact absurd continues fresh
    have zero := appendOffset_zero node
    have one := appendOffset_one used
    rw [(continues.takeSpot_stops (by omega) inside memory).mpr (by rw [zero]; exact blockedZero),
      ((continues_one_iff.mpr continues).takeSpot_stops (by omega) inside memory).mpr
        (by rw [one]; exact blockedOne)]
  · have placed : placeRequest node size 0 spot area = placeRequest node size 1 spot area := by
      have other := mt continues_one_iff.mp continues
      unfold Continues at continues other
      rw [placeRequest, placeRequest, if_neg continues, if_neg other]
    rw [takeSpot, takeSpot, placed]

theorem takeSpot_zero_eq_one_iff (used : node.lastPageOffset < 4096)
    (positive : 0 < size) (bounded : size < 2 ^ 64) (ordered : spot ≤ later)
    (inside : later < 2 ^ 52 - 1) (here : RunAt node (areaSize size) spot)
    (there : RunAt node (areaSize size) later) (memory : Memory) :
    takeSpot node size 0 spot (areaSize size) memory = takeSpot node size 1 later (areaSize size) memory ↔
      spot = later ∧ SpotSafe node size spot := by
  have few := areaSize_lt size
  constructor
  · intro same
    by_cases continues : Continues node 1 later
    · have nonzero := continues.2.1
      cases run : takeSpot node size 1 later (areaSize size) memory with
      | ok given =>
        -- The used part of the last page counts in one of them only.
        have zero := takeSpot_zero_offset (same.trans run)
        have one := continues.takeSpot_one_offset used run
        omega
      | error stop =>
        obtain rfl := takeSpot_stop run
        rw [run] at same
        have continuesZero : Continues node 0 spot := by
          by_contra fresh
          obtain ⟨_, _, _, given⟩ := @RunAt.takeSpot_fresh _ size _ _ _ here fresh (by omega) memory
          cases given.symm.trans same
        obtain rfl : spot = later := continuesZero.2.2.symm.trans continues.2.2
        have zero := appendOffset_zero node
        have one := appendOffset_one used
        rw [continuesZero.takeSpot_stops (by omega) (by omega), zero] at same
        rw [continues.takeSpot_stops (by omega) (by omega), one] at run
        exact ⟨rfl, .inr ⟨same, run⟩⟩
    · obtain ⟨_, after, _, given⟩ := @RunAt.takeSpot_fresh _ size _ _ _ there continues (by omega) memory
      have lastPage := (takeSpot_after given).1
      rw [(fresh_starts continues).lastPage] at lastPage
      rcases Nat.lt_or_eq_of_le ordered with before | rfl
      · exact absurd lastPage (takeSpot_zero_lastPage positive bounded before inside (same.trans given))
      · exact ⟨rfl, .inl (mt continues_one_iff.mpr continues)⟩
  · rintro ⟨rfl, safe⟩
    exact safe.takeSpot_eq used (by omega) memory

end

/-- When alignment 0 is no alignment: nothing is asked for, nothing fits, or the first run of
free pages is also the first from the goal on and its spot is safe. -/
def ZeroSafe (node : BootmemNode) (size goal : Nat) : Prop :=
  size = 0 ∨ NoRun node (areaSize size) 0 ∨ ∃ spot, FirstRun node (areaSize size) 0 spot ∧
    (NoRun node (areaSize size) (goalPage node goal) ∨
      FirstRun node (areaSize size) (goalPage node goal) spot) ∧ SpotSafe node size spot

section
variable {node : BootmemNode} {size : Nat}

theorem NoRun.findSpotFrom {area : Nat} (none : NoRun node area 0) (starts : Nat × Nat) :
    Memory.findSpotFrom node area starts = Option.none := by
  cases found : Memory.findSpotFrom node area starts with
  | none => rfl
  | some spot =>
    obtain ⟨_, _, first⟩ := findSpotFrom_iff.mp found
    exact absurd first.run (none spot (Nat.zero_le _))

theorem FirstRun.findSpotFrom_one {area : Nat} (first : FirstRun node area 0 spot) (goal : Nat) :
    ∃ later, Memory.findSpotFrom node area (scanStarts node 1 goal) = some later ∧
      spot ≤ later ∧ RunAt node area later := by
  rcases noRun_or_firstRun node area (goalPage node goal) with none | ⟨later, second⟩
  · exact ⟨spot, (Memory.findSpotFrom_one goal).mpr (.inr ⟨none, first⟩), Nat.le_refl _, first.run⟩
  · refine ⟨later, (Memory.findSpotFrom_one goal).mpr (.inl second), ?_, second.run⟩
    by_contra before
    exact first.least later (Nat.zero_le _) (by omega) second.run

theorem zeroSafe_iff {goal : Nat} (positive : 0 < size) (first : FirstRun node (areaSize size) 0 spot)
    (found : findSpotFrom node (areaSize size) (scanStarts node 1 goal) = some later) :
    ZeroSafe node size goal ↔ spot = later ∧ SpotSafe node size spot := by
  constructor
  · rintro (zero | none | ⟨other, isFirst, fromGoal, safe⟩)
    · omega
    · exact absurd first.run (none spot (Nat.zero_le _))
    · obtain rfl := first.unique isFirst
      refine ⟨?_, safe⟩
      rcases (findSpotFrom_one goal).mp found with second | ⟨_, isFirst⟩
      · rcases fromGoal with none | fromGoal
        · exact absurd second.run (none later second.lower)
        · exact fromGoal.unique second
      · exact first.unique isFirst
  · rintro ⟨rfl, safe⟩
    refine .inr (.inr ⟨spot, first, ?_, safe⟩)
    rcases (findSpotFrom_one goal).mp found with second | ⟨none, _⟩
    · exact .inr second
    · exact .inl none

theorem bootmemAlloc_nothing (alignment goal : Nat) (node : BootmemNode) (memory : Memory) :
    bootmemAlloc 0 alignment goal node memory = .ok (0, node, memory) := rfl

theorem bootmemAlloc_notPower {alignment goal : Nat} (positive : 0 < size)
    (notPower : alignment &&& ulongSub alignment 1 ≠ 0) :
    bootmemAlloc size alignment goal node memory = .ok (0, node, memory) := by
  rw [bootmemAlloc, if_neg (Nat.ne_of_gt positive), if_pos notPower]
  rfl

theorem bootmemAlloc_zero_eq_one_iff (used : node.lastPageOffset < 4096)
    (pages : node.numPpn < 2 ^ 52) (bounded : size < 2 ^ 64) (goal : Nat) (memory : Memory) :
    bootmemAlloc size 0 goal node memory = bootmemAlloc size 1 goal node memory ↔
      ZeroSafe node size goal := by
  rcases Nat.eq_zero_or_pos size with rfl | positive
  · rw [bootmemAlloc_nothing, bootmemAlloc_nothing]
    exact iff_of_true rfl (.inl rfl)
  rw [bootmemAlloc_eq goal node memory positive (by decide), bootmemAlloc_eq goal node memory positive (by decide)]
  rcases noRun_or_firstRun node (areaSize size) 0 with none | ⟨spot, first⟩
  · rw [none.findSpotFrom, none.findSpotFrom]
    exact iff_of_true rfl (.inr (.inl none))
  · obtain ⟨later, found, ordered, there⟩ := first.findSpotFrom_one goal
    have inside := there.inside
    rw [(findSpotFrom_zero goal).mpr first, found, zeroSafe_iff positive first found]
    exact takeSpot_zero_eq_one_iff used positive bounded ordered (by omega) first.run there memory

end

theorem widenRange_upper (segments : List RamSegment) {range : Nat × Nat}
    (bounded : range.1 < 2 ^ 52) : (segments.foldl widenRange range).1 < 2 ^ 52 := by
  induction segments generalizing range with
  | nil => exact bounded
  | cons segment rest ih =>
    apply ih
    have ends : pageRoundDown (ulong (segment.paBegin + segment.paLen)) < 2 ^ 64 :=
      Nat.lt_of_le_of_lt (pageRoundDown_le (ulong_lt _)) (ulong_lt _)
    unfold widenRange
    dsimp only
    rw [shiftRight_pageShift]
    split
    · omega
    · exact bounded

theorem bootmemUpdateRange_checked {function : String}
    {update : Nat → Nat → Bitmap → Result Bitmap} {paddr size : Nat}
    (run : bootmemUpdateRange function update paddr size node = .ok after) :
    node.beginPpn ≤ pageRoundDown paddr >>> pageShift ∧
      pageRoundUp (ulong (paddr + size)) >>> pageShift ≤ ulong (node.beginPpn + node.numPpn) := by
  unfold bootmemUpdateRange at run
  dsimp only at run
  split at run
  · cases run
  · split at run
    · cases run
    · constructor
      · omega
      · omega

/-- Whatever the segments are, `bootmem_init` returns only with fewer than 2^52 pages: the map
is checked to lie in the node. -/
theorem bootmemInit_pages {segments : List RamSegment} {stale : Bitmap}
    (run : bootmemInit segments stale = .ok node) : node.numPpn < 2 ^ 52 := by
  obtain ⟨freed, free, reserve⟩ := Result.bind_ok run
  obtain ⟨_, rfl⟩ := bootmemFreeAvailableSegments_memMap free
  obtain ⟨_, rfl⟩ := bootmemUpdateRange_memMap reserve
  obtain ⟨lower, upper⟩ := bootmemUpdateRange_checked reserve
  have upperBound := @widenRange_upper segments (0, 2 ^ 64 - 1) (by decide)
  have count : (bootmemInitUmaNode segments stale).numPpn = ulongSub (segments.foldl widenRange (0, 2 ^ 64 - 1)).1
        (bootmemInitUmaNode segments stale).beginPpn := rfl
  have mapSize : (bootmemInitUmaNode segments stale).memMapSize < 2 ^ 61 := by
    have bound := ulong_lt ((bootmemInitUmaNode segments stale).numPpn + 0x7)
    have size : (bootmemInitUmaNode segments stale).memMapSize =
      ulong ((bootmemInitUmaNode segments stale).numPpn + 0x7) >>> 3 := rfl
    rw [size, Nat.shiftRight_eq_div_pow]
    omega
  dsimp only at lower upper ⊢
  generalize bootmemInitUmaNode segments stale = initial at *
  have inWindow : pmaVa2Pa initial.memMapAddr < 2 ^ 38 := by
    rw [pmaVa2Pa_eq]
    exact Nat.mod_lt _ (by decide)
  generalize pmaVa2Pa initial.memMapAddr = address at *
  rw [ulong_of_lt (by omega), shiftRight_pageShift] at upper
  rw [shiftRight_pageShift] at lower
  have above := @le_pageRoundUp (address + initial.memMapSize) (by omega)
  have below := @pageRoundDown_le address (by omega)
  rw [count] at upper ⊢
  unfold ulong ulongSub at *
  omega

theorem placeRequest_bounded (node : BootmemNode) (size alignment spot area : Nat) :
    (placeRequest node size alignment spot area).2.2.lastPageOffset < 4096 ∧
      (placeRequest node size alignment spot area).2.2.numPpn = node.numPpn := by
  have reads (address marked last : Nat) {used : Nat} (small : used < 4096) :
      (address, marked, { node with lastPage := last, lastPageOffset := used }).2.2.lastPageOffset < 4096 ∧
        (address, marked, { node with lastPage := last, lastPageOffset := used }).2.2.numPpn =
          node.numPpn := ⟨small, rfl⟩
  have masked (value : Nat) : value &&& (pageSize - 1) < 4096 := by
    rw [and_pageSize_pred]
    exact Nat.mod_lt _ (by decide)
  unfold placeRequest
  dsimp only
  split
  · split
    · exact reads _ _ _ (masked _)
    · exact reads _ _ _ (masked _)
  · exact reads _ _ _ (masked _)

structure NodeBounded (node : BootmemNode) : Prop where
  used : node.lastPageOffset < 4096
  pages : node.numPpn < 2 ^ 52

theorem NodeBounded.alloc {node after : BootmemNode} {memory memory' : Memory}
    {size alignment goal address : Nat} (bounded : NodeBounded node)
    (run : bootmemAlloc size alignment goal node memory = .ok (address, after, memory')) : NodeBounded after := by
  rcases Nat.eq_zero_or_pos size with rfl | positive
  · rw [bootmemAlloc_nothing] at run
    cases run
    exact bounded
  by_cases isPower : alignment &&& ulongSub alignment 1 = 0
  · rw [bootmemAlloc_eq goal node memory positive isPower] at run
    split at run
    · cases run
      exact bounded
    next spot _ =>
      obtain ⟨offset, pages⟩ := placeRequest_bounded node size alignment spot (areaSize size)
      obtain ⟨_, sameOffset, samePages⟩ := takeSpot_after run
      rw [← sameOffset] at offset
      rw [← samePages] at pages
      exact ⟨offset, pages ▸ bounded.pages⟩
  · rw [bootmemAlloc_notPower positive isPower] at run
    cases run
    exact bounded

theorem NodeBounded.bootStep {allowed : Nat → Nat → Nat → BootmemNode → Prop}
    {ledger after : BootLedger} (bounded : NodeBounded ledger.node)
    (step : BootStep allowed ledger after) : NodeBounded after.node := by
  cases step with
  | reserve run =>
    obtain ⟨_, rfl⟩ := bootmemUpdateRange_memMap run
    exact ⟨bounded.used, bounded.pages⟩
  | refuse _ run => exact bounded.alloc run
  | alloc _ run _ => exact bounded.alloc run

theorem bootmemInit_bounded {segments : List RamSegment} {stale : Bitmap}
    (run : bootmemInit segments stale = .ok node) : NodeBounded node := by
  refine ⟨?_, bootmemInit_pages run⟩
  obtain ⟨freed, free, reserve⟩ := Result.bind_ok run
  obtain ⟨_, rfl⟩ := bootmemFreeAvailableSegments_memMap free
  obtain ⟨_, rfl⟩ := bootmemUpdateRange_memMap reserve
  exact (by decide : 0 < 4096)

def AnyRequest (_size _alignment _goal : Nat) (_node : BootmemNode) : Prop := True

/-- A call whose size does not wrap, and with alignment 0 only where that is safe. -/
def CarefulRequest (size alignment goal : Nat) (node : BootmemNode) : Prop :=
  size + 4095 < 2 ^ 64 ∧ alignment < 2 ^ 64 ∧ (alignment = 0 → ZeroSafe node size goal)

theorem exists_power {alignment : Nat} (positive : 0 < alignment) (bounded : alignment < 2 ^ 64)
    (isPower : alignment &&& ulongSub alignment 1 = 0) : ∃ power < 64, alignment = 2 ^ power := by
  rw [ulongSub_of_le positive bounded] at isPower
  obtain ⟨power, rfl⟩ := (Nat.and_sub_one_eq_zero_iff_isPowerOfTwo (by omega)).mp isPower
  exact ⟨power, (Nat.pow_lt_pow_iff_right (by decide)).mp bounded, rfl⟩

theorem carefulRequest_lands : Lands CarefulRequest := by
  rintro size alignment goal node memory fits ⟨bounded, small, safe⟩
  have addressable := fits.addressable
  rcases Nat.eq_zero_or_pos size with rfl | positive
  · exact .inl (bootmemAlloc_nothing ..)
  by_cases isPower : alignment &&& ulongSub alignment 1 = 0
  · obtain ⟨power, powerSmall, same⟩ : ∃ power < 64, bootmemAlloc size alignment goal node memory =
        bootmemAlloc size (2 ^ power) goal node memory := by
      rcases Nat.eq_zero_or_pos alignment with rfl | nonzero
      · exact ⟨0, by decide, (bootmemAlloc_zero_eq_one_iff fits.offset (by omega) (by omega) goal
          memory).mpr (safe rfl)⟩
      · obtain ⟨power, powerSmall, rfl⟩ := exists_power nonzero small isPower
        exact ⟨power, powerSmall, rfl⟩
    rw [same]
    rcases bootmemAlloc_taken goal memory fits positive bounded powerSmall with null | taken
    · exact .inl null
    · exact .inr ⟨positive, _, taken⟩
  · exact .inl (bootmemAlloc_notPower positive isPower)

theorem ZeroSafe.of_unused {size : Nat} (unused : node.lastPageOffset = 0)
    (found : findSpot node (areaSize size) node.numPpn 0 = some spot) : ZeroSafe node size 0 := by
  have first := findSpot_iff.mp (show findSpot node _ (node.numPpn - 0) 0 = some spot from found)
  have goal : goalPage node 0 = 0 := by
    rw [goalPage, goalOffset, if_neg fun inside => inside.1 rfl, Nat.zero_shiftRight]
  refine .inr (.inr ⟨spot, first, .inr ?_, .inl ?_⟩)
  · rw [goal]
    exact first
  · rintro ⟨_, used, _⟩
    exact used unused

end Kalorona.Memory
