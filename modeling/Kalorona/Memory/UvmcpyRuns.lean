import Kalorona.Memory.Uvmcpy
import Kalorona.Memory.BuddyPages

namespace Kalorona.Memory

open Kalorona.Data Kalorona.Utilities

/-! # What a forked address space holds -/

open LawfulPages (inUse)

section
variable {σ : Type} [PageAllocator σ] [LawfulPages σ] {src dst : Nat} {vm : Vmem σ}

omit [LawfulPages σ] in
theorem copyable_all (leaves : ∀ vpn entry, pageMap (frameVa src) vm vpn = some entry →
      entry.2 &&& (pteFlagR ||| pteFlagX) ≠ 0) (vpn : Nat) :
    copyable vm.memory src (key (vpn * pageSize)) = pageMap (frameVa src) vm vpn := by
  cases source : pageMap (frameVa src) vm vpn with
  | none => rw [copyable, ← pageMap_eq_value, source, Option.filter_none]
  | some entry =>
    exact copyable_some.mpr ⟨(pageMap_eq_value ..).symm.trans source, leaves vpn entry source⟩

theorem vmUvmcpy_duplicates (spaces : Spaces src dst vm)
    (leaves : ∀ vpn entry, pageMap (frameVa src) vm vpn = some entry → entry.2 &&& (pteFlagR ||| pteFlagX) ≠ 0)
    (apart : ∀ vpn entry, pageMap (frameVa src) vm vpn = some entry →
      frameOf entry ∉ tables dst vm) (zero : ZeroFilled vm) (grants : Grants (demand vm.memory src) vm.pages) :
    ∃ after, vmUvmcpy (frameVa src) (frameVa dst) false vm = .ok after ∧
      (∀ vpn entry, pageMap (frameVa dst) vm vpn = some entry → pageMap (frameVa dst) after vpn = some entry ∧
          SameBytes after.memory vm.memory (frameOf entry) (frameOf entry)) ∧
      (∀ vpn entry, pageMap (frameVa dst) vm vpn = none → pageMap (frameVa src) vm vpn = some entry →
        ∃ frame, pageMap (frameVa dst) after vpn = some (frame, entry.2) ∧
          SameBytes after.memory vm.memory frame (frameOf entry)) ∧
      (∀ vpn, pageMap (frameVa dst) vm vpn = none → pageMap (frameVa src) vm vpn = none →
        pageMap (frameVa dst) after vpn = none) ∧
      (∀ vpn < 2 ^ 27, ∀ entry, pageMap (frameVa dst) vm vpn = none → pageMap (frameVa dst) after vpn = some entry →
        (∀ other srcEntry, pageMap (frameVa src) vm other = some srcEntry → frameOf srcEntry ≠ frameOf entry) ∧
        ∀ other < 2 ^ 27, ∀ otherEntry, pageMap (frameVa dst) vm other = none →
          pageMap (frameVa dst) after other = some otherEntry → frameOf otherEntry = frameOf entry →
          other = vpn) ∧
      tables src after = tables src vm ∧
      (∀ table ∈ tables src vm, SameBytes after.memory vm.memory table table) ∧
      ∀ vpn, pageMap (frameVa src) after vpn = pageMap (frameVa src) vm vpn ∧
        ∀ entry, pageMap (frameVa src) vm vpn = some entry →
          SameBytes after.memory vm.memory (frameOf entry) (frameOf entry) := by
  obtain ⟨after, _, run, _, copied, _⟩ := spaces.vmUvmcpy (.inl ⟨rfl, zero⟩) grants
  have copies := copyable_all leaves
  simp only [pageMap_eq_value] at apart copies ⊢
  refine ⟨after, run, ?_, ?_, ?_, ?_, (spaces.src_same copied.outside).tables_eq, ?_, ?_⟩
  · intro vpn entry mapped
    obtain ⟨used, notTable⟩ := spaces.dstFrames _ entry rfl mapped
    exact ⟨copied.kept _ entry rfl mapped, copied.outside _ used notTable⟩
  · intro vpn entry hole source
    obtain ⟨frame, _, mapped, _, same⟩ :=
      copied.copies (key (vpn * pageSize)) nofun entry rfl hole ((copies vpn).trans source)
    exact ⟨frame, mapped, same (apart vpn entry source)⟩
  · intro vpn hole source
    exact copied.holes _ rfl hole ((copies vpn).trans source)
  · intro vpn small entry hole mapped
    refine ⟨?_, ?_⟩
    · intro other srcEntry source same
      refine copied.fresh_frame rfl hole mapped ?_
      rw [← same]
      exact spaces.srcFrames _ srcEntry rfl source
    · intro other otherSmall otherEntry otherHole otherMapped same
      by_contra different
      exact key_page_ne small otherSmall different
        (copied.distinct _ _ otherEntry entry rfl rfl otherHole hole otherMapped mapped same)
  · intro table member
    exact copied.outside table (spaces.srcTables member).1 (spaces.srcTables member).2
  · intro vpn
    refine ⟨(spaces.src_same copied.outside).value_eq rfl, fun entry source => ?_⟩
    exact copied.outside _ (spaces.srcFrames _ entry rfl source) (apart vpn entry source)

end

/-! ## A source with one page

The tables of the source are the frames 1, 2 and 3, the destination is the blank table in
frame 4, and the allocator has pages elsewhere.
-/

def chain (leaf : Nat) : Memory :=
  ((Memory.store64 (fun _ => 0) (entryAddr (frameVa 1) (0 : Fin 512)) (2 * 1024 + 1)).store64
    (entryAddr (frameVa 2) (0 : Fin 512)) (3 * 1024 + 1)).store64
    (entryAddr (frameVa 3) (0 : Fin 512)) leaf

section
variable {leaf : Nat} (small : leaf < 2 ^ 64)
include small

theorem cells_chain (frame : Nat) (pn : Fin 512) : cells (chain leaf) frame pn = if pn = 0 then
        if frame = 1 then 2 * 1024 + 1 else if frame = 2 then 3 * 1024 + 1 else if frame = 3 then leaf else 0
      else 0 := by
  have zero : cells (fun _ => 0) frame pn = 0 := Memory.load64_zero (fun _ _ => rfl)
  unfold chain
  by_cases third : frame = 3 ∧ pn = 0
  · obtain ⟨rfl, rfl⟩ := third
    rw [cells_store_same small]
    rfl
  rw [cells_store_other third]
  by_cases second : frame = 2 ∧ pn = 0
  · obtain ⟨rfl, rfl⟩ := second
    rw [cells_store_same (by decide)]
    rfl
  rw [cells_store_other second]
  by_cases first : frame = 1 ∧ pn = 0
  · obtain ⟨rfl, rfl⟩ := first
    rw [cells_store_same (by decide)]
    rfl
  rw [cells_store_other first, zero]
  by_cases start : pn = 0
  · simp only [start, and_true] at first second third
    rw [if_pos start, if_neg first, if_neg second, if_neg third]
  · rw [if_neg start]

theorem chain_follow {path : Route} {table : Nat} (short : path.length ≤ 2)
    (reached : sv39.follow (cells (chain leaf)) 1 path = some table) :
    table = path.length + 1 ∧ path = List.replicate path.length 0 := by
  induction path generalizing table with
  | nil =>
    cases reached
    exact ⟨rfl, rfl⟩
  | cons d path ih =>
    obtain ⟨parent, parentReached, child⟩ := Radix.follow_cons_some reached
    rw [List.length_cons] at short
    obtain ⟨rfl, same⟩ := ih (by omega) parentReached
    rw [cells_chain small] at child
    by_cases start : d = 0
    · rw [if_pos start] at child
      refine ⟨?_, by rw [start, List.length_cons, List.replicate_succ, ← same]⟩
      rcases Nat.le_one_iff_eq_zero_or_eq_one.mp (Nat.le_of_succ_le_succ short) with root | middle
      · rw [root, if_pos rfl, sv39_child_entry (by decide) (by decide) (by decide)] at child
        rw [List.length_cons, root]
        exact (Option.some.inj child).symm
      · rw [middle, if_neg (by decide), if_pos rfl, sv39_child_entry (by decide) (by decide) (by decide)] at child
        rw [List.length_cons, middle]
        exact (Option.some.inj child).symm
    · rw [if_neg start] at child
      cases child

theorem chain_value {key : Route} {entry : Nat × Nat} (long : key.length = 3)
    (mapped : sv39.value (cells (chain leaf)) 1 key = some entry) :
    key = [0, 0, 0] ∧ sv39.leaf leaf = some entry := by
  cases key with
  | nil => cases long
  | cons d path =>
    have bottom : path.length = 2 := Nat.succ.inj long
    obtain ⟨table, reached, found⟩ := Option.bind_eq_some_iff.mp mapped
    obtain ⟨rfl, same⟩ := chain_follow small (Nat.le_of_eq bottom) reached
    rw [cells_chain small, bottom] at found
    rw [same, bottom]
    by_cases start : d = 0
    · rw [if_pos start] at found
      exact ⟨by rw [start]; rfl, found⟩
    · rw [if_neg start] at found
      cases found

end

structure ChainLeaf (frame flags : Nat) : Prop where
  outside : frame < 0x80000
  bounded : flags < 1024
  valid : flags &&& pteFlagV ≠ 0
  leaf : flags &&& (pteFlagR ||| pteFlagX) ≠ 0

variable {flags frame : Nat}

theorem ChainLeaf.small (page : ChainLeaf frame flags) : frame * 1024 + flags < 2 ^ 64 := by
  have := page.outside
  have := page.bounded
  omega

theorem outside_node_used {kmem : Kmem} (begins : kmem.beginPpn = 0x80000) {other : Nat}
    (low : other < 0x80000) : other ∈ usedFrames kmem := by
  rintro ⟨lower, _⟩
  omega

theorem chain_zeroFilled {kmem : Kmem} (begins : kmem.beginPpn = 0x80000) (leaf : Nat) :
    ZeroFilled (⟨chain leaf, kmem⟩ : Vmem Kmem) := by
  intro other unused offset inside
  have high : 0x80000 ≤ other := by
    by_contra low
    exact unused (outside_node_used begins (by omega))
  have away : ∀ table < 4, other ≠ table := by
    intro table _
    omega
  unfold chain
  dsimp only
  rw [store64_outside_frame (away 3 (by decide)) inside, store64_outside_frame (away 2 (by decide)) inside,
    store64_outside_frame (away 1 (by decide)) inside]

section
variable {kmem : Kmem} (sound : BuddySound kmem) (begins : kmem.beginPpn = 0x80000) {frame flags : Nat}
  (page : ChainLeaf frame flags)
include sound begins page

theorem chain_blank : Backed 4 (⟨chain (frame * 1024 + flags), kmem⟩ : Vmem Kmem) ∧
      tables 4 (⟨chain (frame * 1024 + flags), kmem⟩ : Vmem Kmem) = {4} ∧
      ∀ key, sv39.value (cells (chain (frame * 1024 + flags))) 4 key = none := by
  refine @blank_root Kmem _ 4 ⟨chain (frame * 1024 + flags), kmem⟩ _ ?_ sound (outside_node_used begins (by decide))
  intro pn
  rw [cells_chain page.small]
  simp

theorem chain_spaces : Spaces 1 4 (⟨chain (frame * 1024 + flags), kmem⟩ : Vmem Kmem) := by
  have small := page.small
  obtain ⟨backed, nodes, unmapped⟩ := chain_blank sound begins page
  refine ⟨backed, ?_, ?_, ⟨?_, ?_⟩, ?_, ?_⟩
  · rw [nodes]
    rintro table rfl pn
    rw [cells_chain small]
    simp
  · intro key entry _ mapped
    cases (unmapped key).symm.trans mapped
  · intro path other table short otherShort reached otherReached
    obtain ⟨length, zeros⟩ := chain_follow small short reached
    obtain ⟨otherLength, otherZeros⟩ := chain_follow small otherShort otherReached
    rw [zeros, otherZeros, show path.length = other.length by omega]
  · intro path table pn above reached _
    have short : path.length < 2 := above
    obtain ⟨rfl, _⟩ := chain_follow small (Nat.le_of_lt short) reached
    show _ &&& _ = 0
    rw [cells_chain small]
    rcases Nat.le_one_iff_eq_zero_or_eq_one.mp (Nat.le_of_lt_succ short) with root | middle
    · rw [root, if_pos rfl]
      split <;> decide
    · rw [middle, if_neg (show ¬ 1 + 1 = 1 by decide), if_pos rfl]
      split <;> decide
  · rw [nodes]
    rintro table ⟨path, short, reached⟩
    have short : path.length ≤ 2 := short
    obtain ⟨rfl, _⟩ := chain_follow small short reached
    refine ⟨outside_node_used begins (by omega), ?_⟩
    rw [Set.mem_singleton_iff]
    omega
  · intro key entry long mapped
    have found := (chain_value small long mapped).2
    rw [sv39_leaf_entry page.bounded page.valid] at found
    cases found
    have outside := page.outside
    refine outside_node_used begins ?_
    rw [frameOf, Nat.mod_eq_of_lt (by omega)]
    exact outside

end

theorem chain_leaves {vpn : Nat} {entry : Nat × Nat} {pages : Kmem} (page : ChainLeaf frame flags)
    (mapped : pageMap (frameVa 1) (⟨chain (frame * 1024 + flags), pages⟩ : Vmem Kmem) vpn =
      some entry) : entry = (frame, flags) := by
  rw [pageMap_eq_value] at mapped
  have found := (chain_value page.small rfl mapped).2
  rw [sv39_leaf_entry page.bounded page.valid] at found
  exact (Option.some.inj found).symm

theorem chain_demand {leaf : Nat} (small : leaf < 2 ^ 64) : demand (chain leaf) 1 ≤ 4 := by
  refine @requests_length_le _ _ _ (List.replicate 3 0) fun path table pn short reached valid _ => ?_
  have start : pn = 0 := by
    by_contra late
    rw [cells_chain small, if_neg late] at valid
    exact valid rfl
  rw [start, (chain_follow small short reached).2]
  rw [← List.replicate_succ, List.suffix_replicate_iff, List.length_replicate]
  exact ⟨by omega, rfl⟩

theorem chain_source {frame flags : Nat} {pages : Kmem} (page : ChainLeaf frame flags) :
    pageMap (frameVa 1) (⟨chain (frame * 1024 + flags), pages⟩ : Vmem Kmem) 0 = some (frame, flags) := by
  have small := page.small
  have second : sv39.follow (cells (chain (frame * 1024 + flags))) 1 [0] = some 2 := by
    rw [Radix.follow_cons rfl, cells_chain small]
    exact sv39_child_entry (by decide) (by decide) (by decide)
  have third : sv39.follow (cells (chain (frame * 1024 + flags))) 1 [0, 0] = some 3 := by
    rw [Radix.follow_cons second, cells_chain small]
    exact sv39_child_entry (by decide) (by decide) (by decide)
  rw [pageMap_eq_value, show key (0 * pageSize) = [0, 0, 0] from rfl, Radix.value_cons third, cells_chain small]
  exact sv39_leaf_entry page.bounded page.valid

theorem chain_ready (page : ChainLeaf frame flags) :
    ∃ kmem : Kmem, Spaces 1 4 (⟨chain (frame * 1024 + flags), kmem⟩ : Vmem Kmem) ∧
      tables 4 (⟨chain (frame * 1024 + flags), kmem⟩ : Vmem Kmem) = {4} ∧
      ZeroFilled (⟨chain (frame * 1024 + flags), kmem⟩ : Vmem Kmem) ∧
      Grants (demand (chain (frame * 1024 + flags)) 1) kmem ∧
      ∀ key, sv39.value (cells (chain (frame * 1024 + flags))) 4 key = none := by
  obtain ⟨kmem, _, _, _, sound, begins, _, clear⟩ := sixteen_pages_sound
  obtain ⟨_, nodes, unmapped⟩ := chain_blank sound begins page
  have enough := (chain_demand page.small).trans (show 4 ≤ (List.range' 1 15).length by decide)
  exact ⟨kmem, chain_spaces sound begins page, nodes, chain_zeroFilled begins _,
    sound.grants List.nodup_range' clear enough, unmapped⟩

theorem vmUvmcpy_duplicates_one_page : ∃ (vm after : Vmem Kmem), Spaces 1 4 vm ∧ ZeroFilled vm ∧
      pageMap (frameVa 1) vm 0 = some (5, 3) ∧
      vmUvmcpy (frameVa 1) (frameVa 4) false vm = .ok after ∧
      ∃ frame, pageMap (frameVa 4) after 0 = some (frame, 3) ∧
        SameBytes after.memory vm.memory frame 5 := by
  have page : ChainLeaf 5 3 := ⟨by decide, by decide, by decide, by decide⟩
  obtain ⟨kmem, spaces, nodes, zero, grants, unmapped⟩ := chain_ready page
  have apart : ∀ vpn entry, pageMap (frameVa 1) (⟨chain (5 * 1024 + 3), kmem⟩ : Vmem Kmem) vpn = some entry →
      frameOf entry ∉ tables 4 (⟨chain (5 * 1024 + 3), kmem⟩ : Vmem Kmem) := by
    intro vpn entry mapped
    rw [chain_leaves page mapped, nodes]
    decide
  have leaves : ∀ vpn entry, pageMap (frameVa 1) (⟨chain (5 * 1024 + 3), kmem⟩ : Vmem Kmem) vpn = some entry →
      entry.2 &&& (pteFlagR ||| pteFlagX) ≠ 0 := by
    intro vpn entry mapped
    rw [chain_leaves page mapped]
    exact page.leaf
  obtain ⟨after, run, _, copies, _⟩ := vmUvmcpy_duplicates spaces leaves apart zero grants
  have hole : pageMap (frameVa 4) (⟨chain (5 * 1024 + 3), kmem⟩ : Vmem Kmem) 0 = none :=
    (pageMap_eq_value ..).trans (unmapped _)
  exact ⟨_, after, spaces, zero, chain_source page, run, copies 0 _ hole (chain_source page)⟩

/-- The source maps the root table of the destination: its bytes are not what they were. -/
theorem vmUvmcpy_changes_source_frame : ∃ (vm after : Vmem Kmem), Spaces 1 4 vm ∧ ZeroFilled vm ∧
      Grants (demand vm.memory 1) vm.pages ∧ pageMap (frameVa 1) vm 0 = some (4, 3) ∧
      vmUvmcpy (frameVa 1) (frameVa 4) false vm = .ok after ∧
      ¬ SameBytes after.memory vm.memory 4 4 := by
  have page : ChainLeaf 4 3 := ⟨by decide, by decide, by decide, by decide⟩
  obtain ⟨kmem, spaces, _, zero, grants, unmapped⟩ := chain_ready page
  obtain ⟨after, _, run, _, copied, _⟩ := spaces.vmUvmcpy (.inl ⟨rfl, zero⟩) grants
  refine ⟨_, after, spaces, zero, grants, chain_source page, run, fun same => ?_⟩
  have source := (pageMap_eq_value ..).symm.trans (@chain_source 4 3 kmem page)
  obtain ⟨frame, _, mapped, _⟩ := copied.copies (key (0 * pageSize)) nofun (4, 3) rfl (unmapped _)
      (copyable_some.mpr ⟨source, page.leaf⟩)
  have still : cells after.memory 4 0 = 0 := by
    rw [cells_congr same, cells_chain page.small]
    rfl
  have none := @value_below_none after.memory 4 4 [] (key (0 * pageSize)) 0 rfl
    (by rw [still]; decide) ⟨[0, 0], rfl⟩
  cases none.symm.trans mapped

end Kalorona.Memory
