import Kalorona.Memory.Buddy
import Kalorona.Data.Tiling

namespace Kalorona.Memory

open Kalorona.Data Kalorona.Utilities

/-! # The buddy invariant

The listed blocks tile the free pages, and the bit of a pair is the parity of
the pair.
-/

namespace Kmem

section
variable (kmem : Kmem) (ord index node other : Nat)

@[simp] theorem toggle_beginPpn : (kmem.toggle ord index).beginPpn = kmem.beginPpn := rfl
@[simp] theorem toggle_numPpn : (kmem.toggle ord index).numPpn = kmem.numPpn := rfl
@[simp] theorem toggle_memMap : (kmem.toggle ord index).memMap = kmem.memMap := rfl
@[simp] theorem push_beginPpn : (kmem.push ord node).beginPpn = kmem.beginPpn := rfl
@[simp] theorem push_numPpn : (kmem.push ord node).numPpn = kmem.numPpn := rfl
@[simp] theorem push_memMap : (kmem.push ord node).memMap = kmem.memMap := rfl
@[simp] theorem drop_beginPpn : (kmem.drop node).beginPpn = kmem.beginPpn := rfl
@[simp] theorem drop_numPpn : (kmem.drop node).numPpn = kmem.numPpn := rfl
@[simp] theorem drop_memMap : (kmem.drop node).memMap = kmem.memMap := rfl

theorem setArea_freeAreas (area : FreeArea) :
    (kmem.setArea ord area).freeAreas other = if other = ord then area else kmem.freeAreas other :=
  Function.update_apply ..

@[simp] theorem toggle_list : ((kmem.toggle ord index).freeAreas other).freePageList =
      (kmem.freeAreas other).freePageList := by
  rw [toggle, setArea_freeAreas]
  split
  next same => rw [same]
  next => rfl

theorem toggle_map : ((kmem.toggle ord index).freeAreas other).freeAreaMap =
      if other = ord then (toggleBit (kmem.freeAreas ord).freeAreaMap index).2
      else (kmem.freeAreas other).freeAreaMap := by
  rw [toggle, setArea_freeAreas]
  split <;> rfl

theorem push_list : ((kmem.push ord node).freeAreas other).freePageList =
      if other = ord then node :: (kmem.freeAreas ord).freePageList else (kmem.freeAreas other).freePageList := by
  rw [push, setArea_freeAreas]
  split <;> rfl

@[simp] theorem push_map :
    ((kmem.push ord node).freeAreas other).freeAreaMap = (kmem.freeAreas other).freeAreaMap := by
  rw [push, setArea_freeAreas]
  split
  next same => rw [same]
  next => rfl

@[simp] theorem drop_list : ((kmem.drop node).freeAreas other).freePageList =
      (kmem.freeAreas other).freePageList.erase node := rfl

@[simp] theorem drop_map :
    ((kmem.drop node).freeAreas other).freeAreaMap = (kmem.freeAreas other).freeAreaMap := rfl

end

end Kmem

variable {left right after kmem : Kmem} {pn remaining order : Nat} {free : Set Nat}

theorem pageVaddr_congr (same : left.beginPpn = right.beginPpn) (pn : Nat) :
    pageVaddr left pn = pageVaddr right pn := by
  unfold pageVaddr
  rw [same]

theorem pageVaddr_ne_zero (kmem : Kmem) (pn : Nat) : pageVaddr kmem pn ≠ 0 := pmaPa2Va_ne_zero _

section
variable {kmem : Kmem} {pn : Nat} (addressable : kmem.beginPpn + kmem.numPpn ≤ 2 ^ 26) (inside : pn < kmem.numPpn)
include addressable inside

theorem pageVaddr_eq : pageVaddr kmem pn = vaKernelBegin + (kmem.beginPpn + pn) * 4096 := by
  unfold pageVaddr
  rw [shiftLeft_pageShift, ulong_of_lt (show pn + kmem.beginPpn < 2 ^ 64 by omega),
    ulong_of_lt (by omega), pmaPa2Va_eq (by omega), Nat.add_comm pn]

theorem pmaVa2Pa_pageVaddr : pmaVa2Pa (pageVaddr kmem pn) = (kmem.beginPpn + pn) * 4096 := by
  unfold pageVaddr
  rw [pmaVa2Pa_pmaPa2Va, shiftLeft_pageShift, ulong_of_lt (show pn + kmem.beginPpn < 2 ^ 64 by omega),
    ulong_of_lt (by omega), Nat.mod_eq_of_lt (by omega), Nat.add_comm pn]

end

theorem pageVaddr_aligned (kmem : Kmem) (pn : Nat) : pageVaddr kmem pn &&& (pageSize - 1) = 0 := by
  have begins : vaKernelBegin % 2 ^ 12 = 0 := by decide
  have shifted : ulong (ulong (pn + kmem.beginPpn) <<< pageShift) % 2 ^ 12 = 0 := by
    rw [shiftLeft_pageShift]
    unfold ulong
    omega
  rw [and_pageSize_pred, pageVaddr, pmaPa2Va, show 4096 = 2 ^ 12 from rfl, Nat.or_mod_two_pow, begins, shifted]
  rfl

section
variable {kmem : Kmem} (addressable : kmem.beginPpn + kmem.numPpn ≤ 2 ^ 26)
include addressable

theorem pageVaddr_succ (inside : pn + 1 < kmem.numPpn) :
    ulong (pageVaddr kmem pn + pageSize) = pageVaddr kmem (pn + 1) := by
  rw [pageVaddr_eq addressable inside, pageVaddr_eq addressable (show pn < kmem.numPpn by omega),
    vaKernelBegin, pageSize, ulong_of_lt (by omega)]
  omega

theorem vaddrPn_pageVaddr (inside : pn < kmem.numPpn) : vaddrPn kmem (pageVaddr kmem pn) = pn := by
  unfold vaddrPn
  rw [pmaVa2Pa_pageVaddr addressable inside, shiftRight_pageShift, ulongSub_of_le (by omega) (by omega)]
  omega

theorem pageVaddr_inj {left right : Nat} (leftInside : left < kmem.numPpn) (rightInside : right < kmem.numPpn)
    (same : pageVaddr kmem left = pageVaddr kmem right) : left = right := by
  rw [← vaddrPn_pageVaddr addressable leftInside, same, vaddrPn_pageVaddr addressable rightInside]

end

/-- The blocks on the free lists. -/
def freeBlocks (kmem : Kmem) : Set Block :=
  { block | block.order < maxMemOrder ∧ block.start < kmem.numPpn ∧
    pageVaddr kmem block.start ∈ (kmem.freeAreas block.order).freePageList }

abbrev KeepsMerged (kmem after : Kmem) : Prop :=
  Merged maxMemOrder (freeBlocks kmem) → Merged maxMemOrder (freeBlocks after)

/-- The lists hold aligned blocks of the node that tile the free pages. -/
structure Tiled (kmem : Kmem) (free : Set Nat) : Prop where
  addressable : kmem.beginPpn + kmem.numPpn ≤ 2 ^ 26
  pages : ∀ ord < maxMemOrder, ∀ node ∈ (kmem.freeAreas ord).freePageList,
    ∃ start < kmem.numPpn, node = pageVaddr kmem start
  nodup : ∀ ord < maxMemOrder, (kmem.freeAreas ord).freePageList.Nodup
  aligned : ∀ block ∈ freeBlocks kmem, block.Aligned
  below : ∀ block ∈ freeBlocks kmem, block.start + 2 ^ block.order ≤ kmem.numPpn
  tiling : Tiling Block.span (freeBlocks kmem) free

/-- The bit of a pair says whether exactly one of its blocks is listed. -/
def Paired (kmem : Kmem) : Prop :=
  ∀ ord < maxMemOrder, ∀ pair,
    testBit (kmem.freeAreas ord).freeAreaMap pair = true ↔ PairParity (freeBlocks kmem) ord pair

theorem freeBlocks_congr {left right : Kmem} (begins : left.beginPpn = right.beginPpn)
    (counts : left.numPpn = right.numPpn)
    (lists : ∀ ord, (left.freeAreas ord).freePageList = (right.freeAreas ord).freePageList) :
    freeBlocks left = freeBlocks right := by
  ext block
  simp only [freeBlocks, Set.mem_ofPred_eq, counts, lists, pageVaddr_congr begins]

theorem Tiled.congr (tiled : Tiled left free)
    (begins : right.beginPpn = left.beginPpn) (counts : right.numPpn = left.numPpn)
    (lists : ∀ ord, (right.freeAreas ord).freePageList = (left.freeAreas ord).freePageList) : Tiled right free := by
  have blocks := freeBlocks_congr begins counts lists
  obtain ⟨addressable, pages, nodup, aligned, below, tiling⟩ := tiled
  refine ⟨by omega, ?_, ?_, by rwa [blocks], ?_, by rwa [blocks]⟩
  · intro ord bounded node listed
    rw [lists] at listed
    obtain ⟨start, inside, same⟩ := pages ord bounded node listed
    exact ⟨start, by omega, by rw [same, pageVaddr_congr begins]⟩
  · intro ord bounded
    rw [lists]
    exact nodup ord bounded
  · rw [blocks, counts]
    exact below

theorem Paired.congr (paired : Paired left)
    (begins : right.beginPpn = left.beginPpn) (counts : right.numPpn = left.numPpn)
    (lists : ∀ ord, (right.freeAreas ord).freePageList = (left.freeAreas ord).freePageList)
    (maps : ∀ ord, (right.freeAreas ord).freeAreaMap = (left.freeAreas ord).freeAreaMap) : Paired right := by
  intro ord bounded pair
  rw [maps, freeBlocks_congr begins counts lists]
  exact paired ord bounded pair

section
variable {kmem : Kmem} {free : Set Nat} {block : Block}

theorem freeBlocks_push (addressable : kmem.beginPpn + kmem.numPpn ≤ 2 ^ 26)
    (ordered : block.order < maxMemOrder) (inside : block.start < kmem.numPpn) :
    freeBlocks (kmem.push block.order (pageVaddr kmem block.start)) = insert block (freeBlocks kmem) := by
  ext other
  simp only [freeBlocks, Set.mem_ofPred_eq, Set.mem_insert_iff, Kmem.push_numPpn, Kmem.push_list,
    pageVaddr_congr (Kmem.push_beginPpn kmem block.order _)]
  constructor
  · rintro ⟨otherOrdered, otherInside, listed⟩
    split at listed
    next sameOrder =>
      rcases List.mem_cons.mp listed with sameNode | listed
      · left
        have sameStart := pageVaddr_inj addressable otherInside inside sameNode
        cases other
        cases block
        simp_all
      · exact .inr ⟨otherOrdered, otherInside, sameOrder ▸ listed⟩
    next => exact .inr ⟨otherOrdered, otherInside, listed⟩
  · rintro (rfl | ⟨otherOrdered, otherInside, listed⟩)
    · exact ⟨ordered, inside, by simp⟩
    · refine ⟨otherOrdered, otherInside, ?_⟩
      split
      next sameOrder => exact List.mem_cons_of_mem _ (sameOrder ▸ listed)
      next => exact listed

theorem Tiled.not_listed (tiled : Tiled kmem free) (fresh : Disjoint block.span free) :
    block ∉ freeBlocks kmem := fun listed =>
  Set.disjoint_left.mp fresh block.span_start (tiled.tiling.subset listed block.span_start)

theorem Tiled.push (tiled : Tiled kmem free) (ordered : block.order < maxMemOrder)
    (aligned : block.Aligned) (below : block.start + 2 ^ block.order ≤ kmem.numPpn)
    (fresh : Disjoint block.span free) :
    Tiled (kmem.push block.order (pageVaddr kmem block.start)) (free ∪ block.span) := by
  have inside : block.start < kmem.numPpn := by
    have positive := Nat.two_pow_pos block.order
    omega
  have blocks := freeBlocks_push tiled.addressable ordered inside
  refine ⟨tiled.addressable, ?_, ?_, ?_, ?_, ?_⟩
  · intro ord bounded node listed
    rw [Kmem.push_list] at listed
    split at listed
    next sameOrder =>
      rcases List.mem_cons.mp listed with same | listed
      · exact ⟨block.start, inside, same⟩
      · exact tiled.pages ord bounded node (sameOrder ▸ listed)
    next => exact tiled.pages ord bounded node listed
  · intro ord bounded
    rw [Kmem.push_list]
    split
    next =>
      refine List.nodup_cons.mpr ⟨?_, tiled.nodup _ ordered⟩
      exact fun listed => tiled.not_listed fresh ⟨ordered, inside, listed⟩
    next => exact tiled.nodup ord bounded
  · rw [blocks]
    exact Set.forall_mem_insert.mpr ⟨aligned, tiled.aligned⟩
  · rw [blocks]
    exact Set.forall_mem_insert.mpr ⟨below, tiled.below⟩
  · rw [blocks]
    exact tiled.tiling.insert fresh

theorem Tiled.listDetach_eq (member : block ∈ freeBlocks kmem) : listDetach (pageVaddr kmem block.start) kmem =
      .ok (kmem.drop (pageVaddr kmem block.start)) := by
  obtain ⟨ordered, _, listed⟩ := member
  have isListed : kmem.isListed (pageVaddr kmem block.start) = true := by
    simp only [Kmem.isListed, List.any_eq_true, List.mem_range, List.contains_iff_mem]
    exact ⟨block.order, ordered, listed⟩
  rw [listDetach, if_neg (pageVaddr_ne_zero kmem _), if_pos isListed]

theorem Tiled.freeBlocks_drop (tiled : Tiled kmem free) (member : block ∈ freeBlocks kmem) :
    freeBlocks (kmem.drop (pageVaddr kmem block.start)) = freeBlocks kmem \ {block} := by
  ext other
  simp only [freeBlocks, Set.mem_ofPred_eq, Set.mem_sdiff, Set.mem_singleton_iff, Kmem.drop_numPpn,
    Kmem.drop_list, pageVaddr_congr (Kmem.drop_beginPpn kmem _)]
  constructor
  · rintro ⟨ordered, inside, listed⟩
    obtain ⟨different, kept⟩ := (tiled.nodup _ ordered).mem_erase_iff.mp listed
    refine ⟨⟨ordered, inside, kept⟩, ?_⟩
    rintro rfl
    exact different rfl
  · rintro ⟨⟨ordered, inside, listed⟩, different⟩
    refine ⟨ordered, inside, (tiled.nodup _ ordered).mem_erase_iff.mpr ⟨fun same => ?_, listed⟩⟩
    -- Two listed blocks with one address start at one page, so they meet.
    have sameStart := pageVaddr_inj tiled.addressable inside member.2.1 same
    refine different (tiled.tiling.eq_of_mem ⟨ordered, inside, listed⟩ member other.span_start ?_)
    rw [sameStart]
    exact block.span_start

theorem Tiled.drop (tiled : Tiled kmem free) (member : block ∈ freeBlocks kmem) :
    Tiled (kmem.drop (pageVaddr kmem block.start)) (free \ block.span) := by
  have blocks := tiled.freeBlocks_drop member
  refine ⟨tiled.addressable, ?_, ?_, ?_, ?_, ?_⟩
  · intro ord bounded node listed
    exact tiled.pages ord bounded node (List.mem_of_mem_erase listed)
  · intro ord bounded
    exact (tiled.nodup ord bounded).erase _
  · rw [blocks]
    exact fun other kept => tiled.aligned other kept.1
  · rw [blocks]
    exact fun other kept => tiled.below other kept.1
  · rw [blocks]
    exact tiled.tiling.remove member

end

theorem Paired.flip {before : Kmem} {block : Block} (paired : Paired before) (aligned : block.Aligned)
    (blocks : (block ∉ freeBlocks before ∧ freeBlocks after = insert block (freeBlocks before)) ∨
      (block ∈ freeBlocks before ∧ freeBlocks after = freeBlocks before \ {block}))
    (maps : ∀ ord, (after.freeAreas ord).freeAreaMap = if ord = block.order then
        (toggleBit (before.freeAreas ord).freeAreaMap (block.start / 2 ^ (block.order + 1))).2
      else (before.freeAreas ord).freeAreaMap) : Paired after := by
  have parity (ord pair : Nat) : PairParity (freeBlocks after) ord pair ↔
      if ord = block.order ∧ pair = block.start / 2 ^ (block.order + 1) then
        ¬ PairParity (freeBlocks before) ord pair
      else PairParity (freeBlocks before) ord pair := by
    rcases blocks with ⟨absent, added⟩ | ⟨member, removed⟩
    · rw [added]
      exact pairParity_insert ord pair aligned absent
    · rw [removed]
      exact pairParity_remove ord pair aligned member
  intro ord bounded pair
  have old := paired ord bounded pair
  rw [parity, maps]
  by_cases sameOrder : ord = block.order
  · by_cases samePair : pair = block.start / 2 ^ (block.order + 1)
    · rw [if_pos sameOrder, if_pos ⟨sameOrder, samePair⟩, ← old, testBit_toggleBit, if_pos samePair, samePair]
      simp
    · rw [if_pos sameOrder, if_neg (fun both => samePair both.2), ← old, testBit_toggleBit, if_neg samePair]
  · rw [if_neg sameOrder, if_neg (fun both => sameOrder both.1), ← old]

theorem Paired.halves {before : Kmem} {block : Block} (paired : Paired before)
    (aligned : block.Aligned) (absent : block ∉ freeBlocks before) (buddyAbsent : block.buddy ∉ freeBlocks before)
    (blocks : freeBlocks after = insert block.buddy (insert block (freeBlocks before)))
    (maps : ∀ ord, (after.freeAreas ord).freeAreaMap = (before.freeAreas ord).freeAreaMap) : Paired after := by
  have buddyAbsent' : block.buddy ∉ insert block (freeBlocks before) := by
    rintro (same | listed)
    · exact block.buddy_ne same
    · exact buddyAbsent listed
  intro ord bounded pair
  rw [maps, blocks, pairParity_insert ord pair aligned.buddy_aligned buddyAbsent',
    pairParity_insert ord pair aligned absent, paired ord bounded pair]
  have sameOrder : block.buddy.order = block.order := rfl
  rw [sameOrder, block.buddy_pair]
  split <;> simp

/-- Nothing but bits and lists has changed. -/
structure SameFrame (before after : Kmem) : Prop where
  beginPpn : after.beginPpn = before.beginPpn
  numPpn : after.numPpn = before.numPpn
  memMapAddr : after.memMapAddr = before.memMapAddr
  memMapSize : after.memMapSize = before.memMapSize
  areaAddr : ∀ ord, (after.freeAreas ord).freeAreaMapAddr = (before.freeAreas ord).freeAreaMapAddr
  areaSize : ∀ ord, (after.freeAreas ord).freeAreaMapSize = (before.freeAreas ord).freeAreaMapSize

structure SameMap (before after : Kmem) : Prop extends SameFrame before after where
  memMap : after.memMap = before.memMap

theorem SameFrame.refl (kmem : Kmem) : SameFrame kmem kmem := ⟨rfl, rfl, rfl, rfl, fun _ => rfl, fun _ => rfl⟩

theorem SameFrame.trans {first second third : Kmem} (left : SameFrame first second)
    (right : SameFrame second third) : SameFrame first third :=
  ⟨right.beginPpn.trans left.beginPpn, right.numPpn.trans left.numPpn,
    right.memMapAddr.trans left.memMapAddr, right.memMapSize.trans left.memMapSize,
    fun ord => (right.areaAddr ord).trans (left.areaAddr ord),
    fun ord => (right.areaSize ord).trans (left.areaSize ord)⟩

theorem SameMap.refl (kmem : Kmem) : SameMap kmem kmem := ⟨.refl kmem, rfl⟩

theorem SameMap.trans {first second third : Kmem} (left : SameMap first second)
    (right : SameMap second third) : SameMap first third :=
  ⟨left.toSameFrame.trans right.toSameFrame, right.memMap.trans left.memMap⟩

theorem SameMap.setArea (kmem : Kmem) {ord : Nat} {area : FreeArea}
    (address : area.freeAreaMapAddr = (kmem.freeAreas ord).freeAreaMapAddr)
    (size : area.freeAreaMapSize = (kmem.freeAreas ord).freeAreaMapSize) :
    SameMap kmem (kmem.setArea ord area) := by
  refine ⟨⟨rfl, rfl, rfl, rfl, ?_, ?_⟩, rfl⟩ <;> intro other <;> rw [Kmem.setArea_freeAreas] <;> split
  · next same => rw [same, address]
  · rfl
  · next same => rw [same, size]
  · rfl

theorem SameMap.toggle (kmem : Kmem) (ord index : Nat) : SameMap kmem (kmem.toggle ord index) :=
  .setArea kmem rfl rfl

theorem SameMap.push (kmem : Kmem) (ord node : Nat) : SameMap kmem (kmem.push ord node) := .setArea kmem rfl rfl

theorem SameMap.drop (kmem : Kmem) (node : Nat) : SameMap kmem (kmem.drop node) :=
  ⟨⟨rfl, rfl, rfl, rfl, fun _ => rfl, fun _ => rfl⟩, rfl⟩

section
variable {kmem : Kmem} {free : Set Nat} {block : Block}

theorem Tiled.toggle (tiled : Tiled kmem free) (ord index : Nat) : Tiled (kmem.toggle ord index) free :=
  tiled.congr rfl rfl (fun _ => Kmem.toggle_list ..)

theorem freeBlocks_toggle (kmem : Kmem) (ord index : Nat) : freeBlocks (kmem.toggle ord index) = freeBlocks kmem :=
  freeBlocks_congr rfl rfl (fun _ => Kmem.toggle_list ..)

section
variable (tiled : Tiled kmem free) (paired : Paired kmem)
include tiled paired

theorem Tiled.toggle_listInsert (ordered : block.order < maxMemOrder) (aligned : block.Aligned)
    (below : block.start + 2 ^ block.order ≤ kmem.numPpn) (fresh : Disjoint block.span free) :
    ∃ after, listInsert block.order (pageVaddr kmem block.start)
        (kmem.toggle block.order (block.start / 2 ^ (block.order + 1))) = .ok after ∧
      Tiled after (free ∪ block.span) ∧ Paired after ∧ SameMap kmem after ∧
      freeBlocks after = insert block (freeBlocks kmem) := by
  let toggled := kmem.toggle block.order (block.start / 2 ^ (block.order + 1))
  have toggledTiled : Tiled toggled free := tiled.toggle ..
  have blocks : freeBlocks (toggled.push block.order (pageVaddr toggled block.start)) =
      insert block (freeBlocks kmem) := by
    have positive := Nat.two_pow_pos block.order
    have inside : block.start < toggled.numPpn := show block.start < kmem.numPpn by omega
    rw [freeBlocks_push toggledTiled.addressable ordered inside, freeBlocks_toggle]
  refine ⟨_, if_neg (pageVaddr_ne_zero kmem _), toggledTiled.push ordered aligned below fresh,
    paired.flip aligned (.inl ⟨tiled.not_listed fresh, blocks⟩) (fun ord => ?_),
    (SameMap.toggle ..).trans (.push ..), blocks⟩
  rw [Kmem.push_map, Kmem.toggle_map]
  split
  next same => rw [same]
  next => rfl

theorem Tiled.toggle_listDetach
    (member : block ∈ freeBlocks kmem) : ∃ after, listDetach (pageVaddr kmem block.start)
        (kmem.toggle block.order (block.start / 2 ^ (block.order + 1))) = .ok after ∧
      Tiled after (free \ block.span) ∧ Paired after ∧ SameMap kmem after ∧
      freeBlocks after = freeBlocks kmem \ {block} := by
  let toggled := kmem.toggle block.order (block.start / 2 ^ (block.order + 1))
  have toggledTiled : Tiled toggled free := tiled.toggle ..
  have toggledMember : block ∈ freeBlocks toggled := by rwa [freeBlocks_toggle]
  have blocks := toggledTiled.freeBlocks_drop toggledMember
  rw [freeBlocks_toggle] at blocks
  refine ⟨_, Tiled.listDetach_eq toggledMember, toggledTiled.drop toggledMember,
    paired.flip (tiled.aligned block member) (.inr ⟨member, blocks⟩) (fun ord => ?_),
    (SameMap.toggle ..).trans (.drop ..), blocks⟩
  rw [Kmem.drop_map, Kmem.toggle_map]
  split
  next same => rw [same]
  next => rfl

theorem Tiled.listDetach_toggle
    (member : block ∈ freeBlocks kmem) : ∃ detached, listDetach (pageVaddr kmem block.start) kmem = .ok detached ∧
      Tiled (detached.toggle block.order (block.start / 2 ^ (block.order + 1))) (free \ block.span) ∧
      Paired (detached.toggle block.order (block.start / 2 ^ (block.order + 1))) ∧
      SameMap kmem detached ∧ freeBlocks detached = freeBlocks kmem \ {block} := by
  have blocks := tiled.freeBlocks_drop member
  refine ⟨_, Tiled.listDetach_eq member, (tiled.drop member).toggle .., ?_, .drop .., blocks⟩
  refine paired.flip (tiled.aligned block member) (.inr ⟨member, ?_⟩) (fun ord => ?_)
  · rw [freeBlocks_toggle, blocks]
  · rw [Kmem.toggle_map]
    split
    next same => rw [same, Kmem.drop_map]
    next => rfl

end

end

theorem and_mask_around {pn dep : Nat} (bounded : pn < 2 ^ 64) (ordered : dep < 64) :
    pn &&& ulongNot (ulongSub (2 ^ dep) 1) = (Block.around dep pn).start := by
  have smaller : 2 ^ dep < 2 ^ 64 := Nat.pow_lt_pow_right (by decide) ordered
  have positive := Nat.two_pow_pos dep
  rw [ulongSub_of_le (by omega) (by omega), and_ulongNot_mask bounded (by omega)]
  rfl

theorem freeFrom_round (remaining : Nat) {dep : Nat} (kmem : Kmem) (bounded : pn < 2 ^ 64)
    (ordered : dep < 64) :
    let block := Block.around dep pn
    let toggled := kmem.toggle dep (block.start / 2 ^ (dep + 1))
    freeFrom pn (remaining + 1) dep kmem =
      if testBit (kmem.freeAreas dep).freeAreaMap (block.start / 2 ^ (dep + 1)) = true ∧
          dep ≠ maxMemOrder - 1 then do
        let kmem ← listDetach (pageVaddr kmem block.buddy.start) toggled
        freeFrom pn remaining (dep + 1) kmem
      else listInsert dep (pageVaddr kmem block.start) toggled := by
  simp only [freeFrom, Nat.one_shiftLeft, and_mask_around bounded ordered, Nat.shiftRight_eq_div_pow, toggleBit_fst,
    Bool.not_not]
  rfl

/-- The loop of `kmem_free_page` is at order `dep`: the block it has put together
so far is in the node and not among the free pages. -/
structure Climbing (kmem : Kmem) (free : Set Nat) (pn dep : Nat) : Prop where
  tiled : Tiled kmem free
  paired : Paired kmem
  inside : pn < kmem.numPpn
  below : (Block.around dep pn).start + 2 ^ dep ≤ kmem.numPpn
  fresh : Disjoint (Block.around dep pn).span free

section
variable {kmem : Kmem} {free : Set Nat} {pn dep : Nat}

section
variable (climbing : Climbing kmem free pn dep)
include climbing

theorem Climbing.round (remaining : Nat) (ordered : dep < maxMemOrder) :
    freeFrom pn (remaining + 1) dep kmem = if testBit (kmem.freeAreas dep).freeAreaMap
          ((Block.around dep pn).start / 2 ^ (dep + 1)) = true ∧ dep ≠ maxMemOrder - 1 then do
        let kmem ← listDetach (pageVaddr kmem (Block.around dep pn).buddy.start)
          (kmem.toggle dep ((Block.around dep pn).start / 2 ^ (dep + 1)))
        freeFrom pn remaining (dep + 1) kmem
      else listInsert dep (pageVaddr kmem (Block.around dep pn).start)
        (kmem.toggle dep ((Block.around dep pn).start / 2 ^ (dep + 1))) := by
  have addressable := climbing.tiled.addressable
  have inside := climbing.inside
  exact freeFrom_round remaining kmem (by omega) (Nat.lt_trans ordered (by decide))

theorem Climbing.buddy_listed (ordered : dep < maxMemOrder) :
    testBit (kmem.freeAreas dep).freeAreaMap ((Block.around dep pn).start / 2 ^ (dep + 1)) = true ↔
      (Block.around dep pn).buddy ∈ freeBlocks kmem := by
  have notListed := climbing.tiled.not_listed climbing.fresh
  have parity := @Block.Aligned.pairParity (freeBlocks kmem) _ (Block.around_aligned dep pn)
  rw [Block.around_order] at parity
  rw [climbing.paired dep ordered, parity]
  simp [Xor, notListed]

theorem Climbing.merge (listed : (Block.around dep pn).buddy ∈ freeBlocks kmem) :
    ∃ merged, listDetach (pageVaddr kmem (Block.around dep pn).buddy.start)
        (kmem.toggle dep ((Block.around dep pn).start / 2 ^ (dep + 1))) = .ok merged ∧
      Climbing merged (free \ (Block.around dep pn).buddy.span) pn (dep + 1) ∧
      SameMap kmem merged ∧
      freeBlocks merged = freeBlocks kmem \ {(Block.around dep pn).buddy} ∧
      free \ (Block.around dep pn).buddy.span ∪ (Block.around (dep + 1) pn).span =
        free ∪ (Block.around dep pn).span := by
  obtain ⟨tiled, paired, inside, below, fresh⟩ := climbing
  have aligned := Block.around_aligned dep pn
  obtain ⟨merged, run, mergedTiled, mergedPaired, same, blocks⟩ := tiled.toggle_listDetach paired listed
  rw [Block.buddy_order, Block.buddy_pair, Block.around_order] at run
  have parent : (Block.around dep pn).parent = Block.around (dep + 1) pn := Block.parent_around dep pn
  have wholeSpan := aligned.parent_span
  rw [parent] at wholeSpan
  have apart : Disjoint (Block.around (dep + 1) pn).span (free \ (Block.around dep pn).buddy.span) := by
    rw [wholeSpan, Set.disjoint_union_left]
    exact ⟨fresh.mono_right Set.sdiff_subset, disjoint_sdiff_self_right⟩
  have parentBelow : (Block.around (dep + 1) pn).start + 2 ^ (dep + 1) ≤ kmem.numPpn := by
    have buddyBelow := tiled.below _ listed
    rw [← parent, Nat.pow_succ]
    rw [Block.buddy_order, Block.around_order] at buddyBelow
    rcases aligned.pair_cases with ⟨low, high⟩ | ⟨low, high⟩ <;> rw [Block.around_order] at high <;> omega
  refine ⟨merged, run, ⟨mergedTiled, mergedPaired, same.numPpn ▸ inside,
    same.numPpn ▸ parentBelow, apart⟩, same, blocks, ?_⟩
  rw [wholeSpan, Set.union_comm (Block.around dep pn).span, ← Set.union_assoc,
    Set.sdiff_union_of_subset (tiled.tiling.subset listed)]

theorem Climbing.list (ordered : dep < maxMemOrder) :
    ∃ after, listInsert dep (pageVaddr kmem (Block.around dep pn).start)
        (kmem.toggle dep ((Block.around dep pn).start / 2 ^ (dep + 1))) = .ok after ∧
      Tiled after (free ∪ (Block.around dep pn).span) ∧ Paired after ∧ SameMap kmem after ∧
      freeBlocks after = insert (Block.around dep pn) (freeBlocks kmem) :=
  climbing.tiled.toggle_listInsert climbing.paired ordered (Block.around_aligned dep pn)
    climbing.below climbing.fresh

theorem Climbing.freeFrom (orders : dep + (remaining + 1) = maxMemOrder) :
    ∃ after, Memory.freeFrom pn (remaining + 1) dep kmem = .ok after ∧
      Tiled after (free ∪ (Block.around dep pn).span) ∧ Paired after ∧ SameMap kmem after ∧ KeepsMerged kmem after := by
  induction remaining generalizing dep kmem free with
  | zero =>
    have top : ¬ dep ≠ maxMemOrder - 1 := by omega
    rw [climbing.round 0 (by omega), if_neg (fun both => top both.2)]
    obtain ⟨after, run, tiled, paired, same, blocks⟩ := climbing.list (by omega)
    refine ⟨after, run, tiled, paired, same, fun merged => ?_⟩
    rw [blocks]
    refine merged.insert (fun smaller => ?_)
    rw [Block.around_order] at smaller
    omega
  | succ remaining ih =>
    have ordered : dep < maxMemOrder := by omega
    rw [climbing.round _ ordered]
    split
    next merge =>
      have listed := (climbing.buddy_listed ordered).mp merge.1
      obtain ⟨merged, run, climbed, same, blocks, whole⟩ := climbing.merge listed
      obtain ⟨after, mergeRun, tiled, paired, afterSame, afterMerged⟩ := ih climbed (by omega)
      rw [whole] at tiled
      refine ⟨after, by rw [run]; exact mergeRun, tiled, paired, same.trans afterSame, ?_⟩
      intro old
      rw [KeepsMerged, blocks] at afterMerged
      exact afterMerged (old.mono Set.sdiff_subset)
    next stays =>
      obtain ⟨after, run, tiled, paired, same, blocks⟩ := climbing.list ordered
      refine ⟨after, run, tiled, paired, same, fun merged => ?_⟩
      rw [blocks]
      refine merged.insert (fun _ listed => stays ⟨(climbing.buddy_listed ordered).mpr listed, ?_⟩)
      omega

end

end

theorem kmemFreePage_spec {kmem : Kmem} {free : Set Nat} {pn : Nat} (tiled : Tiled kmem free)
    (paired : Paired kmem) (inside : pn < kmem.numPpn) (notFree : pn ∉ free)
    (allocated : testBit kmem.memMap pn = true) :
    ∃ after, kmemFreePage (pageVaddr kmem pn) kmem = .ok after ∧ Tiled after (insert pn free) ∧
      Paired after ∧ SameFrame kmem after ∧
      (∀ page, testBit after.memMap page = if page = pn then false else testBit kmem.memMap page) ∧
      KeepsMerged kmem after := by
  have addressable := tiled.addressable
  have atZero := Block.around_zero pn
  have single := Block.around_zero_span pn
  let cleared : Kmem := { kmem with memMap := (testAndClearBit kmem.memMap pn).2 }
  have clearedTiled : Tiled cleared free := tiled.congr rfl rfl (fun _ => rfl)
  have clearedPaired : Paired cleared := paired.congr rfl rfl (fun _ => rfl) (fun _ => rfl)
  have climbing : Climbing cleared free pn 0 := ⟨clearedTiled, clearedPaired, inside,
    by rw [atZero]; exact inside, by rw [single]; exact Set.disjoint_singleton_left.mpr notFree⟩
  obtain ⟨after, run, afterTiled, afterPaired, same, merged⟩ :=
    climbing.freeFrom (show 0 + (10 + 1) = maxMemOrder from rfl)
  have alignedAddr := pageVaddr_aligned kmem pn
  have unfolded : kmemFreePage (pageVaddr kmem pn) kmem = freeFrom pn maxMemOrder 0 cleared := by
    unfold kmemFreePage
    simp only [alignedAddr, vaddrPn_pageVaddr addressable inside, testAndClearBit_fst, allocated]
    rfl
  refine ⟨after, unfolded.trans run, ?_, afterPaired,
    (show SameFrame kmem cleared from ⟨rfl, rfl, rfl, rfl, fun _ => rfl, fun _ => rfl⟩).trans
      same.toSameFrame, ?_, ?_⟩
  · rwa [single, Set.union_comm, Set.singleton_union] at afterTiled
  · intro page
    rw [same.memMap, testBit_testAndClearBit]
  · exact fun old => merged (by rwa [@freeBlocks_congr cleared kmem rfl rfl (fun _ => rfl)])

theorem Tiled.push_halves {start : Nat}
    (tiled : Tiled kmem (free \ (Block.mk (order + 1) start).span)) (paired : Paired kmem)
    (ordered : order < maxMemOrder) (aligned : (Block.mk (order + 1) start).Aligned)
    (below : start + 2 ^ (order + 1) ≤ kmem.numPpn) (inFree : (Block.mk (order + 1) start).span ⊆ free) :
    let after := (kmem.push order (pageVaddr kmem start)).push order
      (pageVaddr kmem (start + 2 ^ order))
    Tiled after free ∧ Paired after ∧
      freeBlocks after =
        insert (Block.mk order start).buddy (insert ⟨order, start⟩ (freeBlocks kmem)) := by
  intro after
  have positive := Nat.two_pow_pos order
  have whole := Block.halves_span order start
  obtain ⟨leftAligned, buddy⟩ := Block.buddy_left_half aligned
  have rightAligned := leftAligned.buddy_aligned
  rw [buddy] at rightAligned
  have leftFresh : Disjoint (Block.mk order start).span (free \ (Block.mk (order + 1) start).span) := by
    rw [whole]
    exact disjoint_sdiff_self_right.mono_left Set.subset_union_left
  have rightFresh : Disjoint (Block.mk order (start + 2 ^ order)).span
      (free \ (Block.mk (order + 1) start).span) := by
    rw [whole]
    exact disjoint_sdiff_self_right.mono_left Set.subset_union_right
  have leftTiled := @Tiled.push kmem _ ⟨order, start⟩ tiled ordered leftAligned
    (show start + 2 ^ order ≤ kmem.numPpn by omega) leftFresh
  have bothTiled : Tiled after _ := @Tiled.push _ _ ⟨order, start + 2 ^ order⟩ leftTiled ordered
    rightAligned (show start + 2 ^ order + 2 ^ order ≤ kmem.numPpn by omega)
    (Set.disjoint_union_right.mpr ⟨rightFresh, (Block.halves_disjoint order start).symm⟩)
  have leftBlocks := @freeBlocks_push kmem ⟨order, start⟩ tiled.addressable ordered
    (show start < kmem.numPpn by omega)
  have blocks : freeBlocks after = _ := @freeBlocks_push _ ⟨order, start + 2 ^ order⟩
    leftTiled.addressable ordered (show start + 2 ^ order < kmem.numPpn by omega)
  rw [leftBlocks, ← buddy] at blocks
  refine ⟨?_, ?_, blocks⟩
  · rwa [Set.union_assoc, ← whole, Set.sdiff_union_of_subset inFree] at bothTiled
  · refine paired.halves leftAligned (tiled.not_listed leftFresh) ?_ blocks ?_
    · rw [buddy]
      exact tiled.not_listed rightFresh
    · intro ord
      rw [Kmem.push_map, Kmem.push_map]

section
variable {kmem : Kmem} {free : Set Nat} {order count start : Nat}

section
variable (tiled : Tiled kmem free) (paired : Paired kmem)
include tiled paired

theorem Tiled.halve (member : Block.mk (order + 1) start ∈ freeBlocks kmem) :
    ∃ detached left halved, listDetach (pageVaddr kmem start) kmem = .ok detached ∧
      listInsert order (pageVaddr kmem start)
        (detached.toggle (order + 1) (start / 2 ^ (order + 1 + 1))) = .ok left ∧
      listInsert order (ulong (pageVaddr kmem start + ulong ((1 <<< order) <<< pageShift))) left = .ok halved ∧
      Tiled halved free ∧ Paired halved ∧ SameMap kmem halved ∧
      freeBlocks halved = insert (Block.mk order start).buddy
        (insert ⟨order, start⟩ (freeBlocks kmem \ {⟨order + 1, start⟩})) := by
  have addressable := tiled.addressable
  have inside : start < kmem.numPpn := member.2.1
  have below : start + 2 ^ (order + 1) ≤ kmem.numPpn := tiled.below _ member
  have positive := Nat.two_pow_pos order
  obtain ⟨detached, detach, detachedTiled, detachedPaired, same, blocks⟩ := tiled.listDetach_toggle paired member
  have rightAddr : ulong (pageVaddr kmem start + ulong ((1 <<< order) <<< pageShift)) =
      pageVaddr kmem (start + 2 ^ order) := by
    rw [pageVaddr_eq addressable inside, pageVaddr_eq addressable (show start + 2 ^ order < kmem.numPpn by omega),
      Nat.one_shiftLeft, shiftLeft_pageShift, vaKernelBegin,
      ulong_of_lt (show 2 ^ order * 4096 < 2 ^ 64 by omega), ulong_of_lt (by omega)]
    omega
  have ordered : order < maxMemOrder := Nat.lt_of_succ_lt member.1
  obtain ⟨halvesTiled, halvesPaired, halves⟩ :=
    detachedTiled.push_halves detachedPaired ordered (tiled.aligned _ member)
      (show start + 2 ^ (order + 1) ≤ detached.numPpn by rw [same.numPpn]; exact below)
      (tiled.tiling.subset member)
  rw [freeBlocks_toggle, blocks] at halves
  have pagesSame (pn : Nat) : pageVaddr kmem pn = pageVaddr detached pn := (pageVaddr_congr same.beginPpn pn).symm
  refine ⟨detached, _, _, detach, if_neg (pageVaddr_ne_zero _ _), ?_, halvesTiled, halvesPaired,
    (same.trans (.toggle ..)).trans ((SameMap.push ..).trans (.push ..)), halves⟩
  rw [rightAddr, listInsert, if_neg (pageVaddr_ne_zero _ _), pagesSame, pagesSame]
  rfl

theorem splitBlock_round (member : Block.mk (order + count + 1) start ∈ freeBlocks kmem) :
    ∃ halved, splitBlock order (pageVaddr kmem start) (count + 1) kmem =
        splitBlock order (pageVaddr halved start) count halved ∧
      Tiled halved free ∧ Paired halved ∧ SameMap kmem halved ∧
      freeBlocks halved = insert (Block.mk (order + count) start).buddy
        (insert ⟨order + count, start⟩ (freeBlocks kmem \ {⟨order + count + 1, start⟩})) := by
  obtain ⟨detached, left, halved, detach, leftRun, rightRun, halvedTiled, halvedPaired, same,
    blocks⟩ := tiled.halve paired member
  refine ⟨halved, ?_, halvedTiled, halvedPaired, same, blocks⟩
  simp only [splitBlock, vaddrPn_pageVaddr tiled.addressable member.2.1, Nat.shiftRight_eq_div_pow,
    detach, Result.ok_bind, Nat.add_sub_cancel, leftRun, rightRun]
  rw [pageVaddr_congr same.beginPpn]

theorem splitBlock_spec (member : Block.mk (order + count) start ∈ freeBlocks kmem) :
    ∃ after, splitBlock order (pageVaddr kmem start) count kmem = .ok after ∧ Tiled after free ∧
      Paired after ∧ SameMap kmem after ∧ Block.mk order start ∈ freeBlocks after ∧
      (Merged maxMemOrder (freeBlocks kmem \ {⟨order + count, start⟩}) →
        Merged maxMemOrder (freeBlocks after \ {⟨order, start⟩})) := by
  induction count generalizing kmem with
  | zero => exact ⟨kmem, rfl, tiled, paired, .refl kmem, member, id⟩
  | succ count ih =>
    obtain ⟨halved, round, halvedTiled, halvedPaired, same, blocks⟩ := splitBlock_round tiled paired member
    obtain ⟨after, run, afterTiled, afterPaired, afterSame, smallest, merges⟩ :=
      ih halvedTiled halvedPaired (by rw [blocks]; exact .inr (.inl rfl))
    refine ⟨after, round.trans run, afterTiled, afterPaired, same.trans afterSame, smallest, ?_⟩
    intro old
    have withRight := @Merged.insert _ _ (Block.mk (order + count) start).buddy old ?_
    refine merges (withRight.mono ?_)
    · rw [blocks]
      rintro block ⟨buddy | left | kept, different⟩
      · exact .inl buddy
      · exact absurd left different
      · exact .inr kept
    · intro _ left
      rw [Block.buddy_buddy] at left
      -- The left half is not listed while the whole block is.
      have meets := tiled.tiling.eq_of_mem left.1 member
        (Block.span_start ⟨order + count, start⟩) (Block.span_start ⟨order + count + 1, start⟩)
      exact absurd (congrArg Block.order meets) (Nat.ne_of_lt (Nat.lt_succ_self _))

end

end

theorem findOrder_some {current found node : Nat}
    (search : findOrder kmem remaining current = some (found, node)) :
    current ≤ found ∧ found < current + remaining ∧
      node ∈ (kmem.freeAreas found).freePageList := by
  induction remaining generalizing current with
  | zero => cases search
  | succ remaining ih =>
    rw [findOrder] at search
    split at search
    next first rest list =>
      cases search
      exact ⟨Nat.le_refl _, by omega, by rw [list]; exact List.mem_cons_self ..⟩
    next =>
      obtain ⟨lower, upper, listed⟩ := ih search
      exact ⟨by omega, by omega, listed⟩

theorem findOrder_none {current : Nat} (search : findOrder kmem remaining current = none) :
    ∀ ord, current ≤ ord → ord < current + remaining →
      (kmem.freeAreas ord).freePageList = [] := by
  induction remaining generalizing current with
  | zero =>
    intro ord lower upper
    omega
  | succ remaining ih =>
    rw [findOrder] at search
    split at search
    next => cases search
    next list =>
      intro ord lower upper
      by_cases first : ord = current
      · rw [first, list]
      · exact ih search ord (by omega) (by omega)

/-- A block of free pages has been handed out: it is no longer free, and it is
marked. -/
structure HandedOut (before : Kmem) (free : Set Nat) (block : Block) (after : Kmem) : Prop where
  aligned : block.Aligned
  inFree : block.span ⊆ free
  below : block.start + 2 ^ block.order ≤ before.numPpn
  tiled : Tiled after (free \ block.span)
  paired : Paired after
  frame : SameFrame before after
  marked : ∀ page, testBit after.memMap page =
    (decide (block.start ≤ page ∧ page < block.start + 2 ^ block.order) || testBit before.memMap page)
  merged : KeepsMerged before after

theorem kmemAllocPages_ordered {vaddr : Nat}
    (run : kmemAllocPages order kmem = .ok (vaddr, after)) : order < maxMemOrder := by
  by_contra large
  rw [kmemAllocPages, if_pos (Nat.le_of_not_lt large)] at run
  cases run

theorem findOrder_split {found node : Nat} (tiled : Tiled kmem free) (paired : Paired kmem)
    (search : findOrder kmem (maxMemOrder - order) order = some (found, node)) :
    ∃ start split, node = pageVaddr kmem start ∧ order ≤ found ∧
      Block.mk (order + (found - order)) start ∈ freeBlocks kmem ∧
      splitBlock order node (found - order) kmem = .ok split ∧ Tiled split free ∧ Paired split ∧
      SameMap kmem split ∧ Block.mk order start ∈ freeBlocks split ∧
      (Merged maxMemOrder (freeBlocks kmem) → Merged maxMemOrder (freeBlocks split \ {⟨order, start⟩})) := by
  obtain ⟨lower, upper, listed⟩ := findOrder_some search
  have foundOrdered : found < maxMemOrder := by omega
  obtain ⟨start, inside, rfl⟩ := tiled.pages found foundOrdered node listed
  have sum : order + (found - order) = found := by omega
  have member : Block.mk (order + (found - order)) start ∈ freeBlocks kmem := by
    rw [sum]
    exact ⟨foundOrdered, inside, listed⟩
  obtain ⟨split, run, splitTiled, splitPaired, same, smallest, merges⟩ := splitBlock_spec tiled paired member
  exact ⟨start, split, rfl, lower, member, run, splitTiled, splitPaired, same, smallest,
    fun merged => merges (merged.mono Set.sdiff_subset)⟩

theorem kmemAllocPages_spec (tiled : Tiled kmem free) (paired : Paired kmem) (ordered : order < maxMemOrder)
    (clear : ∀ page ∈ free, testBit kmem.memMap page = false) :
    (kmemAllocPages order kmem = .ok (0, kmem) ∧ ∀ block ∈ freeBlocks kmem, block.order < order) ∨
      ∃ start after, kmemAllocPages order kmem = .ok (pageVaddr kmem start, after) ∧
        HandedOut kmem free ⟨order, start⟩ after := by
  have addressable := tiled.addressable
  unfold kmemAllocPages
  rw [if_neg (Nat.not_le_of_lt ordered)]
  rcases search : findOrder kmem (maxMemOrder - order) order with _ | ⟨found, node⟩
  · left
    refine ⟨rfl, ?_⟩
    intro block listed
    by_contra large
    have empty := findOrder_none search block.order (by omega) (by have := listed.1; omega)
    have member := listed.2.2
    rw [empty] at member
    cases member
  · right
    obtain ⟨start, split, rfl, lower, _, splitRun, splitTiled, splitPaired, splitSame, smallest,
      splitMerged⟩ := findOrder_split tiled paired search
    obtain ⟨detached, detach, detachedTiled, detachedPaired, same, blocks⟩ :=
      splitTiled.listDetach_toggle splitPaired smallest
    have inFree := splitTiled.tiling.subset smallest
    have below : start + 2 ^ order ≤ kmem.numPpn := by
      rw [← splitSame.numPpn]
      exact splitTiled.below _ smallest
    have memMapSame : detached.memMap = kmem.memMap := same.memMap.trans splitSame.memMap
    obtain ⟨memMap, marking⟩ : ∃ memMap,
        setBits "kmem_alloc_pages - allocated" (1 <<< order) start kmem.memMap = .ok memMap := by
      rw [Nat.one_shiftLeft]
      exact setBits_exists (by omega) (fun page least most => clear page (inFree ⟨least, most⟩))
    have bits := testBit_setBits (by rw [Nat.one_shiftLeft]; omega) marking
    rw [Nat.one_shiftLeft] at bits
    let after : Kmem := { detached.toggle order (start / 2 ^ (order + 1)) with memMap }
    have afterBlocks : freeBlocks after = freeBlocks split \ {⟨order, start⟩} :=
      blocks ▸ freeBlocks_congr rfl rfl (fun _ => Kmem.toggle_list ..)
    refine ⟨start, after, ?_, ⟨splitTiled.aligned _ smallest, inFree, below,
      detachedTiled.congr rfl rfl (fun _ => rfl),
      detachedPaired.congr rfl rfl (fun _ => rfl) (fun _ => rfl),
      (splitSame.trans (same.trans (.toggle ..))).toSameFrame.trans
        ⟨rfl, rfl, rfl, rfl, fun _ => rfl, fun _ => rfl⟩, bits,
      fun merged => afterBlocks ▸ splitMerged merged⟩⟩
    have pagesSame (pn : Nat) : pageVaddr kmem pn = pageVaddr split pn :=
      (pageVaddr_congr splitSame.beginPpn pn).symm
    have pagePn : vaddrPn split (pageVaddr split start) = start :=
      vaddrPn_pageVaddr splitTiled.addressable smallest.2.1
    simp only [Nat.not_lt_of_le lower, if_false, splitRun, Result.ok_bind]
    rw [pagesSame]
    simp only [pagePn, detach, Result.ok_bind, Kmem.toggle_memMap, memMapSame, marking, Nat.shiftRight_eq_div_pow]
    rfl

end Kalorona.Memory
