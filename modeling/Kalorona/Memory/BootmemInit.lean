import Kalorona.Device.AvailableRam
import Kalorona.Memory.BootmemZero

namespace Kalorona.Memory

open Kalorona.Data Kalorona.Device Kalorona.Utilities

/-! # Where the bitmap is put

`bootmem_init` puts `mem_map` at the lowest segment.  Its size depends on the distance to the
end of the highest one, and nothing asks whether it fits into the RAM there.
-/

/-- The segments that `bootmem_init` may be given. -/
structure BootSegments (segments : List RamSegment) : Prop where
  ascending : segments.Pairwise fun left right => left.paBegin + left.paLen ≤ right.paBegin
  nonempty : ∀ segment ∈ segments, 0 < segment.paLen
  beginAligned : ∀ segment ∈ segments, pageSize ∣ segment.paBegin
  lenAligned : ∀ segment ∈ segments, pageSize ∣ segment.paLen
  bounded : ∀ segment ∈ segments, segment.paBegin + segment.paLen ≤ 2 ^ 64

/-- The lowest segment begins at `low` and the highest ends at `high`. -/
structure Spans (segments : List RamSegment) (low high : Nat) : Prop where
  lowest : ∃ segment ∈ segments, segment.paBegin = low
  below : ∀ segment ∈ segments, low ≤ segment.paBegin
  highest : ∃ segment ∈ segments, segment.paBegin + segment.paLen = high
  above : ∀ segment ∈ segments, segment.paBegin + segment.paLen ≤ high

def Available (segments : List RamSegment) (address : Nat) : Prop :=
  ∃ segment ∈ segments, segment.Contains address

/-- The direct map, which `setup_mmu.c` ends at `VA_KERNEL_PMA_SIZE`, has the physical `address` at `va`. -/
def DirectMapped (va address : Nat) : Prop := address < vaKernelPmaSize ∧ va = vaKernelBegin + address

def UnderMap (node : BootmemNode) (ppn : Nat) : Prop :=
  ∃ offset < node.memMapSize, ∃ address,
    DirectMapped (ulong (node.memMapAddr + offset)) address ∧ address / pageSize = ppn

/-- `bootmem_init` has written to available RAM only, and the pages that the node gives out are
the available ones without those of `mem_map`. -/
structure OnlyAvailable (segments : List RamSegment) (stale : Bitmap) (node : BootmemNode) : Prop where
  inside : ∀ offset < node.memMapSize, ∃ address,
    DirectMapped (ulong (node.memMapAddr + offset)) address ∧ Available segments address
  outside : ∀ offset, node.memMapSize ≤ offset → node.memMap offset = stale offset
  bits : ∀ ppn, (node.beginPpn ≤ ppn ∧ ppn < node.beginPpn + node.numPpn ∧
    testBit node.memMap (ppn - node.beginPpn) = false) ↔
      Available segments (ppn * pageSize) ∧ ¬ UnderMap node ppn

def mapBytes (low high : Nat) : Nat := ((high - low) / pageSize + 7) / 8

/-- The place of `mem_map` is available RAM that the direct map reaches. -/
def MapAvailable (segments : List RamSegment) (low high : Nat) : Prop :=
  high < 2 ^ 64 ∧ ∀ address, low ≤ address → address < low + mapBytes low high →
    address < vaKernelPmaSize ∧ Available segments address

section
variable {segments : List RamSegment} {low high : Nat} {stale : Bitmap}

theorem foldl_widenRange {range : Nat × Nat} {upper lower : Nat}
    (aligned : ∀ segment ∈ segments, 4096 ∣ segment.paBegin ∧
      4096 ∣ segment.paBegin + segment.paLen ∧ segment.paBegin + segment.paLen < 2 ^ 64)
    (upperBound : range.1 ≤ upper ∧ ∀ segment ∈ segments, (segment.paBegin + segment.paLen) / 4096 ≤ upper)
    (lowerBound : lower ≤ range.2 ∧ ∀ segment ∈ segments, lower ≤ segment.paBegin / 4096) :
    (range.1 = upper ∨ ∃ segment ∈ segments, (segment.paBegin + segment.paLen) / 4096 = upper) →
    (range.2 = lower ∨ ∃ segment ∈ segments, segment.paBegin / 4096 = lower) →
    segments.foldl widenRange range = (upper, lower) := by
  induction segments generalizing range with
  | nil =>
    rintro (rfl | ⟨_, absent, _⟩) (rfl | ⟨_, absent, _⟩)
    · rfl
    all_goals cases absent
  | cons first rest ih =>
    intro attainsUpper attainsLower
    obtain ⟨beginAligned, endAligned, bounded⟩ := aligned first (List.mem_cons_self ..)
    have firstUpper := upperBound.2 first (List.mem_cons_self ..)
    have firstLower := lowerBound.2 first (List.mem_cons_self ..)
    rw [List.foldl_cons, widenRange_aligned beginAligned endAligned bounded]
    apply ih (fun segment member => aligned segment (List.mem_cons_of_mem _ member))
    · exact ⟨Nat.max_le.mpr ⟨upperBound.1, firstUpper⟩,
        fun segment member => upperBound.2 segment (List.mem_cons_of_mem _ member)⟩
    · exact ⟨Nat.le_min.mpr ⟨lowerBound.1, firstLower⟩,
        fun segment member => lowerBound.2 segment (List.mem_cons_of_mem _ member)⟩
    · rcases attainsUpper with here | ⟨segment, member, ends⟩
      · exact .inl (by dsimp only; omega)
      · rcases List.mem_cons.mp member with rfl | later
        · exact .inl (by dsimp only; omega)
        · exact .inr ⟨segment, later, ends⟩
    · rcases attainsLower with here | ⟨segment, member, begins⟩
      · exact .inl (by dsimp only; omega)
      · rcases List.mem_cons.mp member with rfl | later
        · exact .inl (by dsimp only; omega)
        · exact .inr ⟨segment, later, begins⟩

/-- The node reaches from `low` to `high` and begins with its map. -/
structure NodeSpans (low high : Nat) (node : BootmemNode) : Prop where
  begins : node.beginPpn * 4096 = low
  ends : (node.beginPpn + node.numPpn) * 4096 = high
  pages : 0 < node.numPpn
  memMapAddr : node.memMapAddr = pmaPa2Va low
  memMapSize : node.memMapSize = mapBytes low high

theorem bootmemInitUmaNode_spans (shape : BootSegments segments) (spans : Spans segments low high)
    (bounded : high < 2 ^ 64) (stale : Bitmap) : NodeSpans low high (bootmemInitUmaNode segments stale) ∧
      ∀ index, testBit (bootmemInitUmaNode segments stale).memMap index =
        if index < 8 * mapBytes low high then true else testBit stale index := by
  obtain ⟨lowest, lowestMember, lowestBegins⟩ := spans.lowest
  obtain ⟨highest, highestMember, highestEnds⟩ := spans.highest
  have aligned : ∀ segment ∈ segments, 4096 ∣ segment.paBegin ∧
      4096 ∣ segment.paBegin + segment.paLen ∧ segment.paBegin + segment.paLen < 2 ^ 64 := by
    intro segment member
    have begins := shape.beginAligned segment member
    exact ⟨begins, Nat.dvd_add begins (shape.lenAligned segment member),
      Nat.lt_of_le_of_lt (spans.above segment member) bounded⟩
  have lowAligned := (aligned lowest lowestMember).1
  have highAligned := (aligned highest highestMember).2.1
  have longer := shape.nonempty lowest lowestMember
  have reaches := spans.above lowest lowestMember
  have fold : segments.foldl widenRange (0, 2 ^ 64 - 1) = (high / 4096, low / 4096) := by
    apply foldl_widenRange aligned
    · exact ⟨Nat.zero_le _, fun segment member => Nat.div_le_div_right (spans.above segment member)⟩
    · exact ⟨by omega, fun segment member => Nat.div_le_div_right (spans.below segment member)⟩
    · exact .inr ⟨highest, highestMember, by rw [highestEnds]⟩
    · exact .inr ⟨lowest, lowestMember, by rw [lowestBegins]⟩
  have count : ulongSub (high / 4096) (low / 4096) = (high - low) / 4096 := by
    rw [ulongSub_of_le (by omega) (by omega)]
    omega
  have address : ulong ((low / 4096) <<< pageShift) = low := by
    rw [shiftLeft_pageShift, ulong_of_lt (by omega)]
    omega
  have size : ulong ((high - low) / 4096 + 0x7) >>> 3 = mapBytes low high := by
    rw [ulong_of_lt (by omega), Nat.shiftRight_eq_div_pow]
    rfl
  rw [bootmemInitUmaNode, fold]
  dsimp only
  rw [count, address, size]
  refine ⟨⟨?_, ?_, ?_, rfl, rfl⟩, fun index => ?_⟩
  · dsimp only
    omega
  · dsimp only
    omega
  · dsimp only
    omega
  · rw [testBit_eq]
    by_cases inside : index < 8 * mapBytes low high
    · rw [if_pos (by omega), if_pos inside]
      show Nat.testBit (2 ^ 8 - 1) (index % 8) = true
      rw [Nat.testBit_two_pow_sub_one, decide_eq_true (by omega)]
    · rw [if_neg (by omega), if_neg inside, testBit_eq]

theorem bootmemUpdateRange_inside {function : String} {update : Nat → Nat → Bitmap → Result Bitmap}
    {paddr size : Nat} {node : BootmemNode} {memMap : Bitmap} (fits : paddr + size + 4095 < 2 ^ 64)
    (pages : node.beginPpn + node.numPpn < 2 ^ 64) (lower : node.beginPpn ≤ paddr / 4096)
    (upper : (paddr + size + 4095) / 4096 ≤ node.beginPpn + node.numPpn)
    (updated : update ((paddr + size + 4095) / 4096 - paddr / 4096) (paddr / 4096 - node.beginPpn)
      node.memMap = .ok memMap) :
    bootmemUpdateRange function update paddr size node = .ok { node with memMap } := by
  have count : (paddr + size + 4095) / 4096 - node.beginPpn - (paddr / 4096 - node.beginPpn) =
      (paddr + size + 4095) / 4096 - paddr / 4096 := by omega
  unfold bootmemUpdateRange
  simp only [ulong_of_lt (show paddr + size < 2 ^ 64 by omega), ulong_of_lt pages,
    pageRoundDown_eq (show paddr < 2 ^ 64 by omega), pageRoundUp_eq fits, shiftRight_pageShift,
    Nat.mul_div_cancel _ (show 0 < 4096 by decide)]
  rw [if_neg (by omega), if_neg (by omega),
    ulongSub_of_le (show node.beginPpn ≤ (paddr + size + 4095) / 4096 by omega) (by omega),
    ulongSub_of_le lower (by omega), ulongSub_of_le (by omega) (by omega), count, updated]
  rfl

section
variable {node : BootmemNode}

theorem bootmemFree_segment {segment : RamSegment} (spans : NodeSpans low high node)
    (bounded : high < 2 ^ 64) (beginAligned : pageSize ∣ segment.paBegin)
    (lenAligned : pageSize ∣ segment.paLen) (below : low ≤ segment.paBegin)
    (above : segment.paBegin + segment.paLen ≤ high)
    (marked : ∀ page, segment.Contains ((node.beginPpn + page) * 4096) → testBit node.memMap page = true) :
    ∃ memMap, bootmemFree segment.paBegin segment.paLen node = .ok { node with memMap } ∧
      ∀ page, testBit memMap page = true ↔
        testBit node.memMap page = true ∧ ¬ segment.Contains ((node.beginPpn + page) * 4096) := by
  obtain ⟨begins, ends, _, _, _⟩ := spans
  unfold pageSize at beginAligned lenAligned
  have inBits : ∀ page, segment.Contains ((node.beginPpn + page) * 4096) ↔
      segment.paBegin / 4096 - node.beginPpn ≤ page ∧ page < segment.paBegin / 4096 -
        node.beginPpn + ((segment.paBegin + segment.paLen + 4095) / 4096 - segment.paBegin / 4096) := by
    intro page
    unfold RamSegment.Contains
    omega
  obtain ⟨memMap, cleared⟩ := @clearBits_exists "bootmem_free - freed twice"
    ((segment.paBegin + segment.paLen + 4095) / 4096 - segment.paBegin / 4096)
    (segment.paBegin / 4096 - node.beginPpn) node.memMap (by omega)
    (fun page lower upper => marked page ((inBits page).mpr ⟨lower, upper⟩))
  refine ⟨memMap, bootmemUpdateRange_inside (by omega) (by omega) (by omega) (by omega) cleared, ?_⟩
  intro page
  rw [testBit_clearBits (by omega) cleared, inBits, Bool.and_eq_true, Bool.not_eq_true',
    decide_eq_false_iff_not, and_comm]

theorem bootmemFreeAvailableSegments_frees (shape : BootSegments segments)
    (spans : NodeSpans low high node) (bounded : high < 2 ^ 64)
    (inside : ∀ segment ∈ segments, low ≤ segment.paBegin ∧ segment.paBegin + segment.paLen ≤ high)
    (marked : ∀ page, Available segments ((node.beginPpn + page) * 4096) → testBit node.memMap page = true) :
    ∃ memMap, bootmemFreeAvailableSegments segments node = .ok { node with memMap } ∧
      ∀ page, testBit memMap page = true ↔
        testBit node.memMap page = true ∧ ¬ Available segments ((node.beginPpn + page) * 4096) := by
  induction segments generalizing node with
  | nil =>
    refine ⟨node.memMap, rfl, fun page => ⟨fun set => ⟨set, ?_⟩, fun set => set.1⟩⟩
    rintro ⟨_, absent, _⟩
    cases absent
  | cons first rest ih =>
    have isFirst : first ∈ first :: rest := List.mem_cons_self ..
    have later : ∀ segment ∈ rest, segment ∈ first :: rest := fun _ => List.mem_cons_of_mem _
    obtain ⟨apart, restAscending⟩ := List.pairwise_cons.mp shape.ascending
    have restShape : BootSegments rest :=
      ⟨restAscending, fun segment member => shape.nonempty segment (later segment member),
        fun segment member => shape.beginAligned segment (later segment member),
        fun segment member => shape.lenAligned segment (later segment member),
        fun segment member => shape.bounded segment (later segment member)⟩
    obtain ⟨middle, free, middleBits⟩ := bootmemFree_segment spans bounded
      (shape.beginAligned first isFirst) (shape.lenAligned first isFirst) (inside first isFirst).1
      (inside first isFirst).2 (fun page contains => marked page ⟨first, isFirst, contains⟩)
    have middleSpans : NodeSpans low high { node with memMap := middle } :=
      ⟨spans.begins, spans.ends, spans.pages, spans.memMapAddr, spans.memMapSize⟩
    obtain ⟨memMap, rest_run, bits⟩ := ih restShape middleSpans
      (fun segment member => inside segment (later segment member)) (by
        rintro page ⟨segment, member, contains⟩
        refine (middleBits page).mpr ⟨marked page ⟨segment, later segment member, contains⟩, ?_⟩
        intro inFirst
        have ordered := apart segment member
        unfold RamSegment.Contains at contains inFirst
        dsimp only at contains
        omega)
    refine ⟨memMap, ?_, fun page => ?_⟩
    · rw [bootmemFreeAvailableSegments, free, Result.ok_bind]
      exact rest_run
    · rw [bits, middleBits, and_assoc]
      refine and_congr_right fun _ => ?_
      unfold Available
      simp only [List.mem_cons, exists_eq_or_imp, not_or]

theorem bootmemReserve_map (spans : NodeSpans low high node) (bounded : high < 2 ^ 64)
    (lowSmall : low < vaKernelPmaSize)
    (clear : ∀ page, page * 4096 < mapBytes low high → testBit node.memMap page = false) :
    ∃ memMap, bootmemReserve (pmaVa2Pa node.memMapAddr) node.memMapSize node = .ok { node with memMap } ∧
      ∀ page, testBit memMap page = true ↔
        page * 4096 < mapBytes low high ∨ testBit node.memMap page = true := by
  obtain ⟨begins, ends, pages, memMapAddr, memMapSize⟩ := spans
  have size : mapBytes low high = (node.numPpn + 7) / 8 := by
    unfold mapBytes pageSize
    omega
  have address : pmaVa2Pa node.memMapAddr = low := by
    rw [memMapAddr, pmaVa2Pa_pmaPa2Va, Nat.mod_eq_of_lt (lowSmall.trans (by decide))]
  have inBits : ∀ page, page * 4096 < mapBytes low high ↔ low / 4096 - node.beginPpn ≤ page ∧
      page < low / 4096 - node.beginPpn + ((low + mapBytes low high + 4095) / 4096 - low / 4096) := by
    intro page
    omega
  obtain ⟨memMap, set⟩ := @setBits_exists "bootmem_reserve - reserved twice"
    ((low + mapBytes low high + 4095) / 4096 - low / 4096) (low / 4096 - node.beginPpn) node.memMap
    (by omega) (fun page lower upper => clear page ((inBits page).mpr ⟨lower, upper⟩))
  have run : bootmemReserve low (mapBytes low high) node = .ok { node with memMap } :=
    bootmemUpdateRange_inside (by omega) (by omega) (by omega) (by omega) set
  refine ⟨memMap, ?_, fun page => ?_⟩
  · rw [address, memMapSize]
    rw [memMapSize] at run
    exact run
  · rw [testBit_setBits (by omega) set, inBits, Bool.or_eq_true, decide_eq_true_eq]

theorem directMapped_map {offset : Nat} (inside : low + offset < vaKernelPmaSize) :
    ulong (pmaPa2Va low + offset) = vaKernelBegin + (low + offset) := by
  unfold vaKernelPmaSize at inside
  rw [pmaPa2Va_mod (by omega), Nat.mod_eq_of_lt (by omega), ulong_of_lt]
  · omega
  · unfold vaKernelBegin
    omega

theorem underMap_iff (spans : NodeSpans low high node) (available : MapAvailable segments low high)
    (ppn : Nat) : UnderMap node ppn ↔ low ≤ ppn * 4096 ∧ ppn * 4096 < low + mapBytes low high := by
  have aligned : low % 4096 = 0 := by
    rw [← spans.begins, Nat.mul_mod_left]
  unfold UnderMap
  rw [spans.memMapAddr, spans.memMapSize]
  constructor
  · rintro ⟨offset, below, address, ⟨_, same⟩, rfl⟩
    have small := (available.2 (low + offset) (Nat.le_add_right _ _) (by omega)).1
    rw [directMapped_map small] at same
    obtain rfl := Nat.add_left_cancel same
    unfold pageSize
    omega
  · rintro ⟨lower, upper⟩
    have small := (available.2 (ppn * 4096) lower upper).1
    refine ⟨ppn * 4096 - low, by omega, ppn * 4096, ⟨small, ?_⟩, Nat.mul_div_cancel _ (by decide)⟩
    rw [directMapped_map (by omega), Nat.add_sub_cancel' lower]

end

theorem Spans.available (spans : Spans segments low high) {address : Nat}
    (available : Available segments address) : low ≤ address ∧ address < high := by
  obtain ⟨segment, member, contains⟩ := available
  have below := spans.below segment member
  have above := spans.above segment member
  unfold RamSegment.Contains at contains
  omega

section
variable (shape : BootSegments segments) (spans : Spans segments low high)
include shape spans

theorem MapAvailable.init_bits (available : MapAvailable segments low high) (stale : Bitmap) :
    ∃ node, bootmemInit segments stale = .ok node ∧ NodeSpans low high node ∧
      ∀ page, testBit node.memMap page = true ↔ page * 4096 < mapBytes low high ∨
        (if page < 8 * mapBytes low high then true else testBit stale page) = true ∧
          ¬ Available segments ((node.beginPpn + page) * 4096) := by
  have bounded := available.1
  obtain ⟨initial, initialBits⟩ := bootmemInitUmaNode_spans shape spans bounded stale
  obtain ⟨begins, ends, pages, _, _⟩ := id initial
  have size : mapBytes low high = ((bootmemInitUmaNode segments stale).numPpn + 7) / 8 := by
    unfold mapBytes pageSize
    omega
  have lowSmall := (available.2 low (Nat.le_refl _) (by omega)).1
  obtain ⟨freedMap, free, freedBits⟩ := bootmemFreeAvailableSegments_frees shape initial bounded
    (fun segment member => ⟨spans.below segment member, spans.above segment member⟩) (by
      intro page isAvailable
      have inside := spans.available isAvailable
      rw [initialBits, if_pos (by omega)])
  have freed : NodeSpans low high { bootmemInitUmaNode segments stale with memMap := freedMap } :=
    ⟨initial.begins, initial.ends, initial.pages, initial.memMapAddr, initial.memMapSize⟩
  obtain ⟨memMap, reserve, bits⟩ := bootmemReserve_map freed bounded lowSmall (by
    intro page inMap
    have inRange : low ≤ ((bootmemInitUmaNode segments stale).beginPpn + page) * 4096 ∧
        ((bootmemInitUmaNode segments stale).beginPpn + page) * 4096 < low + mapBytes low high := by
      omega
    rw [Bool.eq_false_iff]
    intro set
    exact ((freedBits page).mp set).2 (available.2 _ inRange.1 inRange.2).2)
  refine ⟨{ bootmemInitUmaNode segments stale with memMap }, ?_,
    ⟨initial.begins, initial.ends, initial.pages, initial.memMapAddr, initial.memMapSize⟩, fun page => ?_⟩
  · rw [bootmemInit]
    dsimp only
    rw [free, Result.ok_bind]
    exact reserve
  · rw [bits, freedBits, initialBits]

theorem MapAvailable.init (available : MapAvailable segments low high) (stale : Bitmap) :
    ∃ node, bootmemInit segments stale = .ok node ∧ OnlyAvailable segments stale node := by
  obtain ⟨node, run, final, bits⟩ := available.init_bits shape spans stale
  obtain ⟨begins, ends, pages, _, _⟩ := id final
  have size : mapBytes low high = (node.numPpn + 7) / 8 := by
    unfold mapBytes pageSize
    omega
  refine ⟨node, run, fun offset below => ?_, fun offset beyond => ?_, fun ppn => ?_⟩
  · rw [final.memMapSize] at below
    have place := available.2 (low + offset) (Nat.le_add_right _ _) (by omega)
    refine ⟨low + offset, ⟨place.1, ?_⟩, place.2⟩
    rw [final.memMapAddr]
    exact directMapped_map place.1
  · rw [final.memMapSize] at beyond
    apply Bitmap.byte_ext
    intro position _
    rw [Bool.eq_iff_iff, bits, if_neg (by omega)]
    constructor
    · rintro (inMap | ⟨set, _⟩)
      · omega
      · exact set
    · intro set
      refine .inr ⟨set, fun isAvailable => ?_⟩
      have inside := spans.available isAvailable
      omega
  · rw [underMap_iff final available, ← Bool.not_eq_true, bits]
    constructor
    · rintro ⟨lower, upper, clear⟩
      rw [if_pos (by omega), Nat.add_sub_cancel' lower] at clear
      refine ⟨?_, fun inMap => clear (.inl (by omega))⟩
      by_contra gap
      exact clear (.inr ⟨rfl, gap⟩)
    · rintro ⟨isAvailable, notMap⟩
      have inside := spans.available isAvailable
      unfold pageSize at inside
      have lower : node.beginPpn ≤ ppn := by omega
      refine ⟨lower, by omega, ?_⟩
      rw [Nat.add_sub_cancel' lower]
      rintro (inMap | ⟨_, gap⟩)
      · exact notMap (by omega)
      · exact gap isAvailable

theorem OnlyAvailable.map {node : BootmemNode} (run : bootmemInit segments stale = .ok node)
    (only : OnlyAvailable segments stale node) : MapAvailable segments low high := by
  have pages := bootmemInit_pages run
  obtain ⟨freed, free, reserve⟩ := Result.bind_ok run
  obtain ⟨_, rfl⟩ := bootmemFreeAvailableSegments_memMap free
  obtain ⟨memMap, rfl⟩ := bootmemUpdateRange_memMap reserve
  have bounded : high < 2 ^ 64 := by
    by_contra atTop
    -- the last page of the address space would have to be a page of the node
    obtain ⟨highest, member, ends⟩ := spans.highest
    have top := shape.bounded highest member
    have longer := shape.nonempty highest member
    have aligned := shape.lenAligned highest member
    unfold pageSize at aligned
    have lastPage : Available segments ((2 ^ 52 - 1) * pageSize) := by
      refine ⟨highest, member, ?_⟩
      unfold RamSegment.Contains pageSize
      omega
    have notUnder : ¬ UnderMap { bootmemInitUmaNode segments stale with memMap } (2 ^ 52 - 1) := by
      rintro ⟨_, _, address, ⟨small, _⟩, isLast⟩
      unfold pageSize at isLast
      unfold vaKernelPmaSize at small
      omega
    obtain ⟨lower, upper, _⟩ := (only.bits _).mpr ⟨lastPage, notUnder⟩
    have upperBound := @widenRange_upper segments (0, 2 ^ 64 - 1) (by decide)
    have count : (bootmemInitUmaNode segments stale).numPpn = ulongSub (segments.foldl widenRange (0, 2 ^ 64 - 1)).1
        (bootmemInitUmaNode segments stale).beginPpn := rfl
    dsimp only at lower upper pages
    rw [count] at upper pages
    unfold ulongSub at upper pages
    omega
  obtain ⟨initial, _⟩ := bootmemInitUmaNode_spans shape spans bounded stale
  have inside := only.inside
  dsimp only at inside
  rw [initial.memMapAddr, initial.memMapSize] at inside
  refine ⟨bounded, fun address lower upper => ?_⟩
  obtain ⟨lowest, lowestMember, begins⟩ := spans.lowest
  have reaches := spans.above lowest lowestMember
  obtain ⟨first, ⟨firstSmall, firstAt⟩, firstAvailable⟩ := inside 0 (by omega)
  unfold vaKernelPmaSize at firstSmall
  have lowSmall : low < 2 ^ 38 := by
    have above := (spans.available firstAvailable).1
    rw [Nat.add_zero, pmaPa2Va_mod (by omega), ulong_of_lt] at firstAt
    · omega
    · unfold vaKernelBegin
      omega
  obtain ⟨place, ⟨placeSmall, placeAt⟩, placeAvailable⟩ := inside (address - low) (by omega)
  have small : mapBytes low high < 2 ^ 50 := by
    unfold mapBytes pageSize
    omega
  have same : place = address := by
    unfold vaKernelPmaSize at placeSmall
    rw [pmaPa2Va_mod (by omega), Nat.mod_eq_of_lt lowSmall] at placeAt
    unfold ulong vaKernelBegin at placeAt
    omega
  subst same
  exact ⟨placeSmall, placeAvailable⟩

/-- `bootmem_init` stays within the available RAM exactly when `mem_map` fits into it. -/
theorem bootmemInit_available_iff
    (stale : Bitmap) : (∃ node, bootmemInit segments stale = .ok node ∧ OnlyAvailable segments stale node) ↔
      MapAvailable segments low high := by
  constructor
  · rintro ⟨node, run, only⟩
    exact only.map shape spans run
  · intro available
    exact available.init shape spans stale

end

end

theorem bootSegments_one {segment : RamSegment} (nonempty : 0 < segment.paLen)
    (beginAligned : pageSize ∣ segment.paBegin) (lenAligned : pageSize ∣ segment.paLen)
    (bounded : segment.paBegin + segment.paLen ≤ 2 ^ 64) : BootSegments [segment] where
  ascending := List.pairwise_singleton _ _
  nonempty := by simpa using nonempty
  beginAligned := by simpa using beginAligned
  lenAligned := by simpa using lenAligned
  bounded := by simpa using bounded

theorem spans_one {segment : RamSegment} {low high : Nat} (begins : segment.paBegin = low)
    (ends : segment.paBegin + segment.paLen = high) : Spans [segment] low high :=
  ⟨⟨_, List.mem_singleton_self _, begins⟩, by simp [begins], ⟨_, List.mem_singleton_self _, ends⟩, by simp [ends]⟩

theorem bootmemInit_available_iff_eight_pages : ∃ node, bootmemInit [⟨0x80000000, 0x8000⟩] (fun _ => 0) = .ok node ∧
      OnlyAvailable [⟨0x80000000, 0x8000⟩] (fun _ => 0) node := by
  refine (bootmemInit_available_iff (bootSegments_one (by decide) (by decide) (by decide) (by decide))
    (@spans_one _ 0x80000000 0x80008000 rfl rfl) _).mpr ⟨by decide, fun address lower upper => ?_⟩
  rw [show mapBytes 0x80000000 0x80008000 = 1 by decide] at upper
  refine ⟨?_, _, List.mem_singleton_self _, lower, ?_⟩
  · unfold vaKernelPmaSize
    omega
  · show address < 0x80008000
    omega

/-- A page is handed out under the goal that names it. -/
theorem bootmemAlloc_goal_page {node : BootmemNode} {goal page : Nat} (memory : Memory)
    (starts : scanStarts node (2 ^ 0) goal = (page, 0)) (clear : RunAt node 1 page)
    (fresh : ¬ Continues node (2 ^ 0) page) (small : page + 1 < 2 ^ 64) : ∃ after memory',
      bootmemAlloc 4096 (2 ^ 0) goal node memory =
        .ok (pmaPa2Va (ulong (ulong (page + node.beginPpn) <<< pageShift)), after, memory') := by
  have found : findSpotFrom node 1 (page, 0) = some page :=
    findSpotFrom_iff.mpr ⟨page, .inl ⟨rfl, fun none => none _ (Nat.le_refl _) clear⟩, Nat.le_refl _, clear,
      fun earlier lower upper => by omega⟩
  obtain ⟨address, marked, placed, place, _⟩ := @placeRequest_few node 4096 (2 ^ 0) page (by decide)
  obtain ⟨_, memMap, run, _⟩ := takeSpot_runs memory place (by decide) small fun other lower upper => by
    rw [show other = page by omega]
    exact clear.first
  rw [show (4096 + 4095) / 4096 = 1 by decide] at place run
  rw [bootmemAlloc_eq _ _ _ (by decide) (by decide), starts, show areaSize 4096 = 1 by decide, found,
    ← fresh_address fresh 4096 1, place]
  exact ⟨_, _, run⟩

/-- RAM that is a page longer than the window of `PMA_PA2VA`. -/
def longRam : List RamSegment := [⟨0x80000000, 2 ^ 38 + 0x1000⟩]

theorem longRam_init : ∃ node, bootmemInit longRam (fun _ => 0) = .ok node ∧
      NodeSpans 0x80000000 (2 ^ 38 + 0x80001000) node ∧ testBit node.memMap (2 ^ 26) = false := by
  have inside : ∀ address, 0x80000000 ≤ address → address < 2 ^ 38 + 0x80001000 → Available longRam address := by
    intro address lower upper
    refine ⟨_, List.mem_singleton_self _, lower, ?_⟩
    show address < 0x80000000 + (2 ^ 38 + 0x1000)
    omega
  have size : mapBytes 0x80000000 (2 ^ 38 + 0x80001000) = 2 ^ 23 + 1 := by decide
  have available : MapAvailable longRam 0x80000000 (2 ^ 38 + 0x80001000) := by
    refine ⟨by decide, fun address lower upper => ⟨?_, inside address lower (by omega)⟩⟩
    unfold vaKernelPmaSize
    omega
  obtain ⟨node, init, spans, bits⟩ := available.init_bits
    (bootSegments_one (by decide) (by decide) (by decide) (by decide)) (spans_one rfl (by decide)) fun _ => 0
  have begins : node.beginPpn * 4096 = 0x80000000 := spans.begins
  refine ⟨node, init, spans, ?_⟩
  rw [← Bool.not_eq_true, bits, show node.beginPpn = 0x80000 by omega, size]
  rintro (inMap | ⟨_, gap⟩)
  · omega
  · exact gap (inside _ (by decide) (by decide))

/-- Two pages of RAM that are 256 MiB apart have a map of three pages.  It is written over what
lies behind the first page before `bootmem_init` panics. -/
theorem bootmemInit_overwrites_gap : BootSegments [⟨0x80000000, 0x1000⟩, ⟨0x90000000, 0x1000⟩] ∧
    (bootmemInitUmaNode [⟨0x80000000, 0x1000⟩, ⟨0x90000000, 0x1000⟩] fun _ => 0).memMapSize = 8193 ∧
    ¬ Available [⟨0x80000000, 0x1000⟩, ⟨0x90000000, 0x1000⟩] 0x80001000 ∧
    bootmemInit [⟨0x80000000, 0x1000⟩, ⟨0x90000000, 0x1000⟩] (fun _ => 0) =
      .error (.panic "bootmem_reserve - reserved twice") := by
  refine ⟨⟨?_, ?_, ?_, ?_, ?_⟩, by decide +kernel, ?_, ?_⟩
  · simp
  · simp
  · simp only [List.mem_cons, List.not_mem_nil, or_false, forall_eq_or_imp, forall_eq]
    decide
  · simp only [List.mem_cons, List.not_mem_nil, or_false, forall_eq_or_imp, forall_eq]
    decide
  · simp
  · simp [Available, RamSegment.Contains]
  · decide +kernel

end Kalorona.Memory
