import Kalorona.Data.Bits
import Mathlib.Data.Set.Lattice
import Mathlib.Data.Set.Pairwise.Basic
import Mathlib.Order.CompletePartialOrder
import Mathlib.Order.Interval.Set.Basic
import Mathlib.Logic.Basic

namespace Kalorona.Data

/-! # Tilings by dyadic blocks

Pairwise disjoint blocks of power-of-two sizes with a known union and, for each pair of neighbouring
blocks, one bit that says whether exactly one of them is kept.
-/

/-- The chosen parts do not meet and make up `whole`. -/
structure Tiling {ι α : Type} (parts : ι → Set α) (chosen : Set ι) (whole : Set α) : Prop where
  disjoint : chosen.PairwiseDisjoint parts
  covers : ∀ x, x ∈ whole ↔ ∃ i ∈ chosen, x ∈ parts i

section
variable {ι α : Type} {parts : ι → Set α} {chosen : Set ι} {whole : Set α} {i : ι}

section
variable (tiling : Tiling parts chosen whole)
include tiling

theorem Tiling.subset (member : i ∈ chosen) : parts i ⊆ whole :=
  fun x inside => (tiling.covers x).mpr ⟨i, member, inside⟩

theorem Tiling.eq_of_mem {j : ι} {x : α}
    (left : i ∈ chosen) (right : j ∈ chosen) (inLeft : x ∈ parts i) (inRight : x ∈ parts j) : i = j := by
  by_contra different
  exact Set.disjoint_left.mp (tiling.disjoint left right different) inLeft inRight

theorem Tiling.remove (member : i ∈ chosen) : Tiling parts (chosen \ {i}) (whole \ parts i) := by
  refine ⟨tiling.disjoint.subset Set.sdiff_subset, fun x => ?_⟩
  constructor
  · rintro ⟨inWhole, outside⟩
    obtain ⟨j, kept, inside⟩ := (tiling.covers x).mp inWhole
    refine ⟨j, ⟨kept, ?_⟩, inside⟩
    rintro rfl
    exact outside inside
  · rintro ⟨j, ⟨kept, different⟩, inside⟩
    refine ⟨tiling.subset kept inside, fun removed => different ?_⟩
    exact tiling.eq_of_mem kept member inside removed

theorem Tiling.insert (fresh : Disjoint (parts i) whole) :
    Tiling parts (Insert.insert i chosen) (whole ∪ parts i) := by
  refine ⟨?_, fun x => ?_⟩
  · refine tiling.disjoint.insert ?_
    intro j kept _
    exact fresh.mono_right (tiling.subset kept)
  · constructor
    · rintro (inWhole | inside)
      · obtain ⟨j, kept, inside⟩ := (tiling.covers x).mp inWhole
        exact ⟨j, .inr kept, inside⟩
      · exact ⟨i, .inl rfl, inside⟩
    · rintro ⟨j, rfl | kept, inside⟩
      · exact .inr inside
      · exact .inl (tiling.subset kept inside)

end

end

/-- `2 ^ order` consecutive indices from `start` on. -/
structure Block where
  order : Nat
  start : Nat
deriving DecidableEq, Repr

variable {block : Block} {x : Nat}

namespace Block

def span (block : Block) : Set Nat :=
  Set.Ico block.start (block.start + 2 ^ block.order)

def Aligned (block : Block) : Prop :=
  2 ^ block.order ∣ block.start

def buddy (block : Block) : Block :=
  { block with start := block.start ^^^ 2 ^ block.order }

def parent (block : Block) : Block :=
  { order := block.order + 1, start := block.start / 2 ^ (block.order + 1) * 2 ^ (block.order + 1) }

@[simp] theorem buddy_order (block : Block) : block.buddy.order = block.order := rfl

theorem buddy_buddy (block : Block) : block.buddy.buddy = block := by
  simp only [buddy, Nat.xor_assoc, Nat.xor_self, Nat.xor_zero]

theorem buddy_ne (block : Block) : block.buddy ≠ block := by
  intro same
  have start : block.start ^^^ 2 ^ block.order = block.start := congrArg Block.start same
  have bit := Nat.xor_xor_cancel_left block.start (2 ^ block.order)
  rw [start, Nat.xor_self] at bit
  have positive := Nat.two_pow_pos block.order
  omega

@[simp] theorem mem_span : x ∈ block.span ↔ block.start ≤ x ∧ x < block.start + 2 ^ block.order := Iff.rfl

theorem span_start (block : Block) : block.start ∈ block.span :=
  ⟨Nat.le_refl _, Nat.lt_add_of_pos_right (Nat.two_pow_pos _)⟩

section
variable {block : Block} (aligned : block.Aligned)
include aligned

theorem Aligned.index : ∃ index, block.start = index * 2 ^ block.order := by
  obtain ⟨index, start⟩ := aligned
  exact ⟨index, by rw [start, Nat.mul_comm]⟩

theorem Aligned.pair_cases :
    (block.parent.start = block.start ∧ block.buddy.start = block.start + 2 ^ block.order) ∨
      (block.parent.start = block.buddy.start ∧ block.start = block.buddy.start + 2 ^ block.order) := by
  obtain ⟨index, start⟩ := aligned.index
  have parentStart : block.parent.start = index / 2 * 2 * 2 ^ block.order := by
    have quotient : index * 2 ^ block.order / 2 ^ (block.order + 1) = index / 2 := by
      rw [Nat.pow_succ', Nat.mul_div_mul_right _ _ (Nat.two_pow_pos _)]
    simp only [parent, start, quotient]
    rw [Nat.pow_succ']
    ring
  have buddyStart : block.buddy.start = (index ^^^ 1) * 2 ^ block.order := by
    simp only [buddy, start, xor_grid_step]
  rw [parentStart, buddyStart, start]
  rcases xor_one_cases index with ⟨even, swapped⟩ | ⟨odd, swapped⟩
  · have half : index / 2 * 2 = index := by omega
    exact .inl ⟨by rw [half], by rw [swapped]; ring⟩
  · have half : index / 2 * 2 = index - 1 := by omega
    have whole : index = index - 1 + 1 := by omega
    refine .inr ⟨by rw [half, swapped], ?_⟩
    rw [swapped]
    conv_lhs => rw [whole]
    ring

theorem Aligned.parent_span : block.parent.span = block.span ∪ block.buddy.span := by
  have parentSize : 2 ^ block.parent.order = 2 ^ block.order + 2 ^ block.order := by
    simp only [parent, Nat.pow_succ]
    omega
  ext x
  simp only [mem_span, Set.mem_union, parentSize, buddy_order]
  rcases aligned.pair_cases with ⟨low, high⟩ | ⟨low, high⟩ <;> omega

theorem Aligned.buddy_aligned : block.buddy.Aligned := by
  obtain ⟨index, start⟩ := aligned.index
  refine Dvd.intro_left (index ^^^ 1) ?_
  simp only [buddy, start, xor_grid_step]

end

theorem buddy_pair (block : Block) :
    block.buddy.start / 2 ^ (block.order + 1) = block.start / 2 ^ (block.order + 1) := by
  have none : 2 ^ block.order >>> (block.order + 1) = 0 := by
    rw [Nat.shiftRight_eq_div_pow]
    exact Nat.div_eq_of_lt (Nat.pow_lt_pow_right (by decide) (Nat.lt_succ_self _))
  simp only [buddy, ← Nat.shiftRight_eq_div_pow, Nat.shiftRight_xor_distrib, none, Nat.xor_zero]

def around (order index : Nat) : Block :=
  { order, start := index / 2 ^ order * 2 ^ order }

@[simp] theorem around_order (order index : Nat) : (around order index).order = order := rfl

theorem around_aligned (order index : Nat) : (around order index).Aligned := Dvd.intro_left _ rfl

theorem around_zero (index : Nat) : around 0 index = { order := 0, start := index } := by
  simp [around]

theorem around_zero_span (index : Nat) : (around 0 index).span = {index} := by
  ext x
  simp only [around_zero, mem_span, Set.mem_singleton_iff, Nat.pow_zero]
  omega

theorem parent_around (order index : Nat) : (around order index).parent = around (order + 1) index := by
  have quotient : index / 2 ^ order * 2 ^ order / 2 ^ (order + 1) = index / 2 ^ (order + 1) := by
    rw [Nat.pow_succ, Nat.mul_comm (2 ^ order) 2, Nat.mul_div_mul_right _ _ (Nat.two_pow_pos _),
      Nat.mul_comm 2, Nat.div_div_eq_div_mul]
  simp only [parent, around, quotient]

theorem buddy_left_half {order start : Nat} (aligned : (Block.mk (order + 1) start).Aligned) :
    (Block.mk order start).Aligned ∧
      (Block.mk order start).buddy = ⟨order, start + 2 ^ order⟩ := by
  have leftAligned : (Block.mk order start).Aligned := (Nat.pow_dvd_pow 2 (Nat.le_succ order)).trans aligned
  have parentStart : (Block.mk order start).parent.start = start := Nat.div_mul_cancel aligned
  refine ⟨leftAligned, ?_⟩
  rcases leftAligned.pair_cases with ⟨_, high⟩ | ⟨low, high⟩
  · exact congrArg (Block.mk order) high
  · rw [parentStart] at low
    have positive := Nat.two_pow_pos order
    simp only at high
    omega

theorem halves_span (order start : Nat) : (Block.mk (order + 1) start).span =
      (Block.mk order start).span ∪ (Block.mk order (start + 2 ^ order)).span := by
  ext x
  simp only [mem_span, Set.mem_union, Nat.pow_succ]
  omega

theorem halves_disjoint (order start : Nat) :
    Disjoint (Block.mk order start).span (Block.mk order (start + 2 ^ order)).span := by
  rw [Set.disjoint_left]
  intro x
  simp only [mem_span]
  omega

theorem Aligned.eq_of_mem {left right : Block}
    (leftAligned : left.Aligned) (rightAligned : right.Aligned) (sameOrder : left.order = right.order)
    (inLeft : x ∈ left.span) (inRight : x ∈ right.span) : left = right := by
  have start {block : Block} (aligned : block.Aligned) (inside : x ∈ block.span) :
      block.start = x / 2 ^ block.order * 2 ^ block.order := by
    obtain ⟨index, start⟩ := aligned.index
    have quotient : x / 2 ^ block.order = index := by
      rw [mem_span, start] at inside
      apply Nat.div_eq_of_lt_le inside.1
      rw [Nat.add_mul, Nat.one_mul]
      exact inside.2
    rw [quotient, start]
  cases left
  cases right
  simp only [mk.injEq] at sameOrder ⊢
  subst sameOrder
  exact ⟨rfl, (start leftAligned inLeft).trans (start rightAligned inRight).symm⟩

end Block

def PairParity (chosen : Set Block) (order pair : Nat) : Prop :=
  Xor (⟨order, 2 * pair * 2 ^ order⟩ ∈ chosen) (⟨order, (2 * pair + 1) * 2 ^ order⟩ ∈ chosen)

theorem Block.Aligned.pairParity {chosen : Set Block} {block : Block} (aligned : block.Aligned) :
    PairParity chosen block.order (block.start / 2 ^ (block.order + 1)) ↔
      Xor (block ∈ chosen) (block.buddy ∈ chosen) := by
  have low : 2 * (block.start / 2 ^ (block.order + 1)) * 2 ^ block.order = block.parent.start := by
    simp only [parent, Nat.pow_succ]
    ring
  have high : (2 * (block.start / 2 ^ (block.order + 1)) + 1) * 2 ^ block.order =
      block.parent.start + 2 ^ block.order := by
    rw [Nat.add_mul, low, Nat.one_mul]
  rw [PairParity, low, high]
  rcases aligned.pair_cases with ⟨first, second⟩ | ⟨first, second⟩
  · rw [first, ← second]
    exact Iff.rfl
  · rw [first, ← second, xor_comm]
    exact Iff.rfl

theorem pairParity_insert {chosen : Set Block} (order pair : Nat)
    (aligned : block.Aligned) (absent : block ∉ chosen) : PairParity (insert block chosen) order pair ↔
      if order = block.order ∧ pair = block.start / 2 ^ (block.order + 1) then ¬ PairParity chosen order pair
      else PairParity chosen order pair := by
  obtain ⟨index, start⟩ := aligned.index
  have number : block.start / 2 ^ (block.order + 1) = index / 2 := by
    rw [start, Nat.pow_succ', Nat.mul_div_mul_right _ _ (Nat.two_pow_pos _)]
  have same (cell : Nat) : Block.mk order (cell * 2 ^ order) = block ↔ order = block.order ∧ cell = index := by
    cases block with
    | mk blockOrder blockStart =>
      simp only at start
      simp only [Block.mk.injEq, start]
      constructor
      · rintro ⟨rfl, equal⟩
        exact ⟨rfl, Nat.eq_of_mul_eq_mul_right (Nat.two_pow_pos _) equal⟩
      · rintro ⟨rfl, rfl⟩
        exact ⟨rfl, rfl⟩
  simp only [PairParity, Set.mem_insert_iff, number, same]
  by_cases sameOrder : order = block.order
  · subst sameOrder
    have absent' : Block.mk block.order (index * 2 ^ block.order) ∉ chosen := by
      rwa [← start]
    by_cases lower : 2 * pair = index
    · subst lower
      have half : pair = 2 * pair / 2 := by omega
      simp [absent', ← half]
    · by_cases upper : 2 * pair + 1 = index
      · subst upper
        have half : pair = (2 * pair + 1) / 2 := by omega
        simp [absent', ← half, Xor]
      · have other : ¬ pair = index / 2 := by omega
        simp [lower, upper, other]
  · simp [sameOrder]

theorem pairParity_remove {chosen : Set Block} (order pair : Nat)
    (aligned : block.Aligned) (member : block ∈ chosen) : PairParity (chosen \ {block}) order pair ↔
      if order = block.order ∧ pair = block.start / 2 ^ (block.order + 1) then ¬ PairParity chosen order pair
      else PairParity chosen order pair := by
  have restored := pairParity_insert order pair aligned (fun kept : block ∈ chosen \ {block} => kept.2 rfl)
  rw [Set.insert_sdiff_singleton, Set.insert_eq_of_mem member] at restored
  split
  next own => rw [restored, if_pos own, not_not]
  next other => rw [restored, if_neg other]

/-! ## Merged tilings

When buddies below the largest order are never both chosen, the chosen blocks are
the maximal ones, so they are determined by the set they tile.
-/

/-- The aligned blocks of orders below `limit` inside `whole` that lie in no other one. -/
def maximalBlocks (limit : Nat) (whole : Set Nat) : Set Block :=
  { block | block.order < limit ∧ block.Aligned ∧ block.span ⊆ whole ∧
    ∀ larger : Block, larger.order < limit → larger.Aligned → larger.span ⊆ whole →
      block.span ⊆ larger.span → larger = block }

/-- No block below the largest order is chosen together with its buddy. -/
def Merged (limit : Nat) (chosen : Set Block) : Prop :=
  ∀ block ∈ chosen, block.order + 1 < limit → block.buddy ∉ chosen

namespace Block

variable {large small : Block}

theorem Aligned.span_subset (smallAligned : small.Aligned)
    (largeAligned : large.Aligned) (ordered : small.order ≤ large.order)
    (inSmall : x ∈ small.span) (inLarge : x ∈ large.span) : small.span ⊆ large.span := by
  obtain ⟨index, smallStart⟩ := smallAligned.index
  obtain ⟨number, largeStart⟩ := largeAligned.index
  obtain ⟨levels, difference⟩ := Nat.exists_eq_add_of_le ordered
  have positive := Nat.two_pow_pos small.order
  have size : 2 ^ large.order = 2 ^ levels * 2 ^ small.order := by
    rw [difference, Nat.pow_add, Nat.mul_comm]
  rw [size, ← Nat.mul_assoc] at largeStart
  rw [mem_span, smallStart] at inSmall
  rw [mem_span, largeStart, size, ← Nat.add_mul] at inLarge
  have low : number * 2 ^ levels ≤ index := by
    have less : number * 2 ^ levels * 2 ^ small.order < (index + 1) * 2 ^ small.order := by
      rw [Nat.add_mul, Nat.one_mul]
      omega
    exact Nat.le_of_lt_succ (Nat.lt_of_mul_lt_mul_right less)
  have high : index + 1 ≤ number * 2 ^ levels + 2 ^ levels :=
    Nat.lt_of_mul_lt_mul_right (Nat.lt_of_le_of_lt inSmall.1 inLarge.2)
  have lowSpan := Nat.mul_le_mul_right (2 ^ small.order) low
  have highSpan := Nat.mul_le_mul_right (2 ^ small.order) high
  rw [Nat.add_mul, Nat.one_mul] at highSpan
  intro y inside
  rw [mem_span, smallStart] at inside
  rw [mem_span, largeStart, size, ← Nat.add_mul]
  omega

theorem order_le_of_span_subset (subset : small.span ⊆ large.span) : small.order ≤ large.order := by
  have positive := Nat.two_pow_pos small.order
  have first := subset small.span_start
  have last := @subset (small.start + 2 ^ small.order - 1) (by rw [mem_span]; omega)
  rw [mem_span] at first last
  exact (Nat.pow_le_pow_iff_right (by decide)).mp (show 2 ^ small.order ≤ 2 ^ large.order by omega)

theorem Aligned.eq_of_span_subset (smallAligned : small.Aligned)
    (largeAligned : large.Aligned) (ordered : large.order ≤ small.order)
    (subset : small.span ⊆ large.span) : small = large :=
  smallAligned.eq_of_mem largeAligned (Nat.le_antisymm (order_le_of_span_subset subset) ordered)
    small.span_start (subset small.span_start)

end Block

section
variable {limit : Nat} {chosen : Set Block} {whole : Set Nat} {block : Block}

theorem Merged.mono {fewer : Set Block} (merged : Merged limit chosen) (subset : fewer ⊆ chosen) :
    Merged limit fewer :=
  fun block member smaller buddy => merged block (subset member) smaller (subset buddy)

theorem Merged.insert (merged : Merged limit chosen) (absent : block.order + 1 < limit → block.buddy ∉ chosen) :
    Merged limit (insert block chosen) := by
  rintro other (rfl | member) smaller (same | buddy)
  · exact other.buddy_ne same
  · exact absent smaller buddy
  · rw [← same, Block.buddy_buddy] at absent
    exact absent smaller member
  · exact merged other member smaller buddy

theorem Tiling.covered (tiling : Tiling Block.span chosen whole)
    (aligned : ∀ block ∈ chosen, block.Aligned) (merged : Merged limit chosen) {order start : Nat}
    (ordered : order < limit) (blockAligned : (Block.mk order start).Aligned)
    (inside : (Block.mk order start).span ⊆ whole) :
    ∃ larger ∈ chosen, (Block.mk order start).span ⊆ larger.span := by
  induction order generalizing start with
  | zero =>
    have first := Block.span_start ⟨0, start⟩
    obtain ⟨larger, member, covers⟩ := (tiling.covers start).mp (inside first)
    exact ⟨larger, member, blockAligned.span_subset (aligned _ member) (Nat.zero_le _) first covers⟩
  | succ order ih =>
    obtain ⟨leftAligned, buddy⟩ := Block.buddy_left_half blockAligned
    have halves := Block.halves_span order start
    have rightAligned := leftAligned.buddy_aligned
    rw [buddy] at rightAligned
    obtain ⟨left, leftMember, leftCovers⟩ := ih (by omega) leftAligned
      (fun x member => inside (halves ▸ .inl member))
    obtain ⟨right, rightMember, rightCovers⟩ := ih (by omega) rightAligned
      (fun x member => inside (halves ▸ .inr member))
    -- A chosen block that is larger than a half takes in the other half as well.
    have whole' {half large : Block} (member : large ∈ chosen)
        (inBlock : half.span ⊆ (Block.mk (order + 1) start).span)
        (covers : half.span ⊆ large.span) (larger : order < large.order) :
        ∃ larger ∈ chosen, (Block.mk (order + 1) start).span ⊆ larger.span :=
      ⟨large, member, blockAligned.span_subset (aligned _ member) larger
        (inBlock half.span_start) (covers half.span_start)⟩
    rcases Nat.lt_or_ge order left.order with larger | least
    · exact whole' leftMember (halves ▸ Set.subset_union_left) leftCovers larger
    rcases Nat.lt_or_ge order right.order with larger | rightLeast
    · exact whole' rightMember (halves ▸ Set.subset_union_right) rightCovers larger
    have leftSame := leftAligned.eq_of_span_subset (aligned _ leftMember) least leftCovers
    have rightSame := rightAligned.eq_of_span_subset (aligned _ rightMember) rightLeast rightCovers
    rw [← leftSame] at leftMember
    rw [← rightSame, ← buddy] at rightMember
    exact absurd rightMember (merged _ leftMember ordered)

theorem Tiling.eq_maximalBlocks (tiling : Tiling Block.span chosen whole)
    (aligned : ∀ block ∈ chosen, block.Aligned) (ordered : ∀ block ∈ chosen, block.order < limit)
    (merged : Merged limit chosen) : chosen = maximalBlocks limit whole := by
  ext block
  constructor
  · intro member
    refine ⟨ordered _ member, aligned _ member, tiling.subset member, ?_⟩
    intro larger largerOrdered largerAligned inside covers
    obtain ⟨largest, largestMember, largestCovers⟩ :=
      tiling.covered aligned merged largerOrdered largerAligned inside
    have same := tiling.eq_of_mem member largestMember block.span_start (largestCovers (covers block.span_start))
    rw [← same] at largestCovers
    exact largerAligned.eq_of_span_subset (aligned _ member) (Block.order_le_of_span_subset covers) largestCovers
  · rintro ⟨blockOrdered, blockAligned, inside, greatest⟩
    obtain ⟨larger, member, covers⟩ := tiling.covered aligned merged blockOrdered blockAligned inside
    rw [← greatest larger (ordered _ member) (aligned _ member) (tiling.subset member) covers]
    exact member

end

end Kalorona.Data
