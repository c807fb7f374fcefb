import Kalorona.Memory.PageTree
import Kalorona.Data.Runs

namespace Kalorona.Memory

open Kalorona.Data Kalorona.Utilities

/-! # Mapping and unmapping pages

Over any allocator that hands out frames nobody uses, the operations on a page
table act on the finite map from virtual page numbers to entries.
-/

/-- An allocator of frames of the direct map, seen through the set of frames in use. -/
class LawfulPages (σ : Type) [PageAllocator σ] where
  Sound : σ → Prop
  managed : σ → Set Nat
  inUse : σ → Set Nat
  alloc : ∀ {order vaddr : Nat} {pages after : σ}, Sound pages →
    allocPages order pages = .ok (vaddr, after) →
    Sound after ∧ managed after = managed pages ∧
      ((vaddr = 0 ∧ inUse after = inUse pages) ∨ ∃ frame, vaddr = frameVa frame ∧
          (∀ offset < 2 ^ order, frame + offset < 2 ^ 26 ∧ frame + offset ∈ managed pages ∧
            frame + offset ∉ inUse pages) ∧
          inUse after = inUse pages ∪ { page | frame ≤ page ∧ page < frame + 2 ^ order })
  free : ∀ {frame : Nat} {pages : σ}, Sound pages → frame ∈ managed pages →
    frame ∈ inUse pages →
    ∃ after, freePage (frameVa frame) pages = .ok after ∧ Sound after ∧
      managed after = managed pages ∧ inUse after = inUse pages \ {frame}

open LawfulPages (Sound managed inUse)

variable {σ : Type}

/-- The frames of the tables of a root. -/
def tables (root : Nat) (vm : Vmem σ) : Set Nat := sv39.nodes (cells vm.memory) root

/-- The tables below `root` have kept their bytes. -/
def SameTables (root : Nat) (before after : Vmem σ) : Prop :=
  ∀ table ∈ tables root before, ∀ offset < 4096,
    after.memory (frameVa table + offset) = before.memory (frameVa table + offset)

section
variable {root table : Nat} {vm after : Vmem σ} (same : SameTables root vm after)
include same

theorem SameTables.cells_eq (member : table ∈ tables root vm) (pn : Fin 512) :
    cells after.memory table pn = cells vm.memory table pn :=
  cells_congr (same table member) pn

theorem SameTables.follow_eq {path : Route} (short : path.length ≤ 2) :
    sv39.follow (cells after.memory) root path = sv39.follow (cells vm.memory) root path :=
  Radix.follow_congr (fun above reached => same.cells_eq ⟨_, Nat.le_of_lt above, reached⟩) short

theorem SameTables.tables_eq : tables root after = tables root vm := Radix.nodes_congr same.follow_eq

theorem SameTables.value_eq {key : Route} (long : key.length = 3) :
    sv39.value (cells after.memory) root key = sv39.value (cells vm.memory) root key :=
  Radix.value_congr (fun short reached => same.cells_eq ⟨_, short, reached⟩) long

theorem SameTables.tree (tree : sv39.Tree (cells vm.memory) root) : sv39.Tree (cells after.memory) root :=
  tree.congr fun short reached => same.cells_eq ⟨_, short, reached⟩

end

variable [PageAllocator σ]

/-- The map of a root table: the number and the flags of the valid entries. -/
def pageMap (pgtbl : Nat) (vm : Vmem σ) (vpn : Nat) : Option (Nat × Nat) :=
  match vmWalk pgtbl (vpn * pageSize) false vm with
  | .ok (entry, vm) =>
    let pte := vm.memory.load64 entry
    if entry ≠ 0 ∧ pte &&& pteFlagV ≠ 0 then some (pte >>> pteFlagsWidth, pteFlags pte) else none
  | .error _ => none

variable {root table va lv : Nat} {vm after : Vmem σ}

theorem tablePath_succ (above : lv < 2) (va : Nat) :
    tablePath lv va = digit (lv + 1) va :: tablePath (lv + 1) va := by
  match lv, above with
  | 0, _ => rfl
  | 1, _ => rfl

theorem tablePath_length (lv va : Nat) : (tablePath lv va).length = 2 - lv := by
  simp [tablePath, key]

variable {memory : Memory} {entry : Nat × Nat} {vpn flags pa count hi n : Nat} {doFree : Bool}

theorem follow_bottom_none (above : lv < 2)
    (missing : sv39.follow (cells memory) root (tablePath lv va) = none) :
    sv39.follow (cells memory) root (tablePath 0 va) = none := by
  match lv, above with
  | 0, _ => exact missing
  | 1, _ =>
    rw [tablePath_succ (by decide), Radix.follow, missing]
    rfl

theorem follow_tablePath (above : lv < 2)
    (reached : sv39.follow (cells memory) root (tablePath (lv + 1) va) = some table) :
    sv39.follow (cells memory) root (tablePath lv va) = sv39.child (cells memory table (digit (lv + 1) va)) := by
  rw [tablePath_succ above, Radix.follow_cons reached]

theorem walkFrom_find (level : lv ≤ 2)
    (reached : sv39.follow (cells vm.memory) root (tablePath lv va) = some table) :
    walkFrom va false lv (frameVa table) vm = .ok ((sv39.follow (cells vm.memory) root (tablePath 0 va)).elim 0
        fun bottom => entryAddr (frameVa bottom) (digit 0 va), vm) := by
  induction lv generalizing table with
  | zero =>
    rw [reached]
    rfl
  | succ lv ih =>
    have next := follow_tablePath (by omega) reached
    simp only [walkFrom]
    split
    next valid =>
      rw [pmaPa2Va_ptePa]
      exact ih (by omega) (next.trans (if_pos valid))
    next invalid =>
      rw [follow_bottom_none (by omega) (next.trans (if_neg invalid))]
      rfl

theorem vmWalk_find (root va : Nat) (vm : Vmem σ) : vmWalk (frameVa root) va false vm =
      .ok ((sv39.follow (cells vm.memory) root (tablePath 0 va)).elim 0
        fun bottom => entryAddr (frameVa bottom) (digit 0 va), vm) :=
  walkFrom_find (Nat.le_refl 2) rfl

theorem entryAddr_ne_zero (frame pn : Nat) : entryAddr (frameVa frame) pn ≠ 0 := by
  have := frameVa_ne_zero frame
  unfold entryAddr
  omega

theorem pageMap_eq_value (root vpn : Nat) (vm : Vmem σ) :
    pageMap (frameVa root) vm vpn = sv39.value (cells vm.memory) root (key (vpn * pageSize)) := by
  rw [pageMap, vmWalk_find]
  show _ = (sv39.follow (cells vm.memory) root (tablePath 0 (vpn * pageSize))).bind _
  cases sv39.follow (cells vm.memory) root (tablePath 0 (vpn * pageSize)) with
  | none => rfl
  | some bottom =>
    simp only [Option.elim_some, Option.bind_some, ne_eq, entryAddr_ne_zero, not_false_eq_true, true_and]
    rfl

theorem SameTables.pageMap_eq (same : SameTables root vm after) (vpn : Nat) :
    pageMap (frameVa root) after vpn = pageMap (frameVa root) vm vpn := by
  rw [pageMap_eq_value, pageMap_eq_value]
  exact same.value_eq rfl

theorem pageMap_pages (pages : σ) (vpn : Nat) :
    pageMap (frameVa root) { vm with pages } vpn = pageMap (frameVa root) vm vpn := by
  rw [pageMap_eq_value, pageMap_eq_value]

def frameOf (entry : Nat × Nat) : Nat := entry.1 % 2 ^ 26

def userPageFlags : Nat := pteFlagV ||| pteFlagR ||| pteFlagW ||| pteFlagU

def mappedFrames (root : Nat) (vm : Vmem σ) (lo hi : Nat) : Set Nat :=
  { frame | ∃ vpn entry, lo ≤ vpn ∧ vpn < hi ∧ pageMap (frameVa root) vm vpn = some entry ∧ frame = frameOf entry }

theorem pageMap_some (mapped : pageMap (frameVa root) vm vpn = some entry) :
    ∃ bottom, sv39.follow (cells vm.memory) root (tablePath 0 (vpn * pageSize)) = some bottom ∧
      sv39.leaf (cells vm.memory bottom (digit 0 (vpn * pageSize))) = some entry := by
  rw [pageMap_eq_value] at mapped
  exact Option.bind_eq_some_iff.mp mapped

theorem leaf_some {pte : Nat} (read : sv39.leaf pte = some entry) :
    pte &&& pteFlagV ≠ 0 ∧ entry = (pte >>> pteFlagsWidth, pteFlags pte) := by
  have unfolded : (if pte &&& pteFlagV ≠ 0 then some (pte >>> pteFlagsWidth, pteFlags pte)
    else none) = some entry := read
  split at unfolded
  next valid =>
    cases unfolded
    exact ⟨valid, rfl⟩
  next => cases unfolded

theorem vmMappages_eq {siz : Nat} (positive : 0 < siz) (range : vpn * pageSize + siz ≤ 2 ^ 39) :
    vmMappages (frameVa root) (vpn * pageSize) pa siz flags vm =
      Memory.mapFrom (frameVa root) flags ((siz + 4095) / 4096) (vpn * pageSize) pa vm := by
  have aligned : vpn * pageSize % 4096 = 0 := Nat.mul_mod_left vpn 4096
  generalize vpn * pageSize = base at range aligned ⊢
  have start : pageRoundDown base = base := by
    rw [pageRoundDown_eq (by omega)]
    omega
  have finish : pageRoundUp (ulong (base + siz)) = base + (siz + 4095) / 4096 * 4096 := by
    rw [ulong_of_lt (by omega), pageRoundUp_eq (by omega)]
    omega
  have rounds : ulongSub (base + (siz + 4095) / 4096 * 4096) base >>> pageShift = (siz + 4095) / 4096 := by
    rw [ulongSub_of_le (by omega) (by omega), shiftRight_pageShift]
    omega
  rw [vmMappages, if_neg (Nat.ne_of_gt positive), start, finish]
  dsimp only
  rw [rounds]

theorem vmMappages_pages (positive : 0 < count) (range : vpn + count ≤ 2 ^ 27) :
    vmMappages (frameVa root) (vpn * pageSize) pa (count * pageSize) flags vm =
      Memory.mapFrom (frameVa root) flags count (vpn * pageSize) pa vm := by
  rw [vmMappages_eq (by unfold pageSize; omega) (by unfold pageSize; omega),
    show (count * pageSize + 4095) / 4096 = count by unfold pageSize; omega]

theorem mappedFrames_cons {lo : Nat} (start : lo < hi) (end_le : hi ≤ 2 ^ 27)
    (mapped : pageMap (frameVa root) vm lo = some entry)
    (written : ∀ other < 2 ^ 27, pageMap (frameVa root) after other =
      if other = lo then none else pageMap (frameVa root) vm other) :
    mappedFrames root vm lo hi = {frameOf entry} ∪ mappedFrames root after (lo + 1) hi := by
  ext frame
  constructor
  · rintro ⟨vpn, read, lower, upper, found, rfl⟩
    by_cases first : vpn = lo
    · subst first
      rw [mapped] at found
      cases found
      exact .inl rfl
    · refine .inr ⟨vpn, read, by omega, upper, ?_, rfl⟩
      rw [written vpn (by omega), if_neg first, found]
  · rintro (rfl | ⟨vpn, read, lower, upper, found, rfl⟩)
    · exact ⟨lo, entry, Nat.le_refl lo, start, mapped, rfl⟩
    · rw [written vpn (by omega), if_neg (by omega)] at found
      exact ⟨vpn, read, by omega, upper, found, rfl⟩

theorem vmUnmappages_eq (range : vpn + count ≤ 2 ^ 27) :
    vmUnmappages (frameVa root) (vpn * pageSize) count doFree vm =
      unmapFrom (frameVa root) doFree count (vpn * pageSize) vm := by
  have aligned : vpn * pageSize &&& (1 <<< pnWidth - 1) = 0 := by
    refine (Nat.and_two_pow_sub_one_eq_mod _ 9).trans ?_
    unfold pageSize
    omega
  have rounds : (ulong (vpn * pageSize + ulong (pageSize * count)) - vpn * pageSize) >>> pageShift = count := by
    unfold pageSize
    rw [ulong_of_lt (show 0x1000 * count < 2 ^ 64 by omega), ulong_of_lt (by omega), shiftRight_pageShift]
    omega
  rw [vmUnmappages, if_neg (not_not.mpr aligned)]
  dsimp only
  rw [rounds]

theorem unmapFrom_bare (mapped : pageMap (frameVa root) vm vpn = some entry) (bare : entry.2 = pteFlagV) :
    unmapFrom (frameVa root) doFree (count + 1) (vpn * pageSize) vm =
      .error (.panic "vm_unmappages - broken entry") := by
  obtain ⟨bottom, reached, leaf⟩ := pageMap_some mapped
  obtain ⟨_, rfl⟩ := leaf_some leaf
  have broken : pteFlags (vm.memory.load64 (entryAddr (frameVa bottom) (digit 0 (vpn * pageSize)))) =
      pteFlagV := bare
  rw [unmapFrom, vmWalk_find, reached, Result.ok_bind, Option.elim_some]
  dsimp only
  rw [if_pos (.inr (.inr broken))]
  rfl

theorem vmTranslate_mapped {addr : Nat}
    (mapped : pageMap (frameVa root) vm (addr / pageSize) = some entry) : vmTranslate (frameVa root) addr vm =
      .ok (pmaPa2Va (ulong (entry.1 <<< pageShift)) + addr % pageSize) := by
  have sameKey : key (addr / pageSize * pageSize) = key addr := by
    rw [key_eq_iff]
    unfold pageSize
    omega
  rw [pageMap_eq_value, sameKey] at mapped
  obtain ⟨bottom, reached, leaf⟩ := Option.bind_eq_some_iff.mp mapped
  obtain ⟨_, rfl⟩ := leaf_some leaf
  rw [vmTranslate, vmWalk_find, show sv39.follow (cells vm.memory) root (tablePath 0 addr) = _ from reached]
  simp only [Result.ok_bind, Option.elim_some, entryAddr_ne_zero, if_false]
  rw [and_pageSize_pred, ptePa, pmaPa2Va_or (ulong_lt _) ?_ (Nat.mod_lt _ (by decide))]
  · rfl
  · rw [ulong, shiftLeft_pageShift]
    omega

/-- The next `n` requests for a page are granted. -/
inductive Grants : Nat → σ → Prop
  | none {pages : σ} : Grants 0 pages
  | page {n frame : Nat} {pages after : σ} (granted : allocPages 0 pages = .ok (frameVa frame, after))
      (rest : Grants n after) : Grants (n + 1) pages

variable {pages : σ}

theorem Grants.next (grants : Grants (n + 1) pages) :
    ∃ frame after, allocPages 0 pages = .ok (frameVa frame, after) ∧ Grants n after := by
  cases grants with
  | page granted rest => exact ⟨_, _, granted, rest⟩

theorem Grants.mono {m : Nat} (grants : Grants n pages) (fewer : m ≤ n) : Grants m pages := by
  induction grants generalizing m with
  | none =>
    obtain rfl : m = 0 := Nat.le_zero.mp fewer
    exact .none
  | page granted _ ih =>
    cases m with
    | zero => exact .none
    | succ m => exact .page granted (ih (Nat.le_of_succ_le_succ fewer))

/-- The address of the bottom entry for `va`. -/
def EntryAt (root va entry : Nat) (vm : Vmem σ) : Prop :=
  ∃ bottom, sv39.follow (cells vm.memory) root (tablePath 0 va) = some bottom ∧
    entry = entryAddr (frameVa bottom) (digit 0 va)

omit [PageAllocator σ] in
theorem EntryAt.ne_zero {entry : Nat} (place : EntryAt root va entry vm) : entry ≠ 0 := by
  obtain ⟨bottom, _, rfl⟩ := place
  exact entryAddr_ne_zero _ _

theorem walkFrom_returns (grants : Grants (lv + n) vm.pages) (table : Nat) :
    ∃ entry after, walkFrom va true lv (frameVa table) vm = .ok (entry, after) ∧
      entry ≠ 0 ∧ Grants n after.pages := by
  induction lv generalizing table vm with
  | zero => exact ⟨_, vm, rfl, entryAddr_ne_zero _ _, grants.mono (by omega)⟩
  | succ lv ih =>
    simp only [walkFrom]
    split
    · rw [pmaPa2Va_ptePa]
      exact ih (grants.mono (by omega)) _
    · rw [Nat.succ_add] at grants
      obtain ⟨frame, pages, granted, rest⟩ := grants.next
      simp only [Bool.not_true, Bool.false_eq_true, if_false, granted, Result.ok_bind, frameVa_ne_zero]
      exact ih rest frame

theorem EntryAt.pageMap_eq {entry : Nat} (place : EntryAt root (vpn * pageSize) entry vm) :
    pageMap (frameVa root) vm vpn = sv39.leaf (vm.memory.load64 entry) := by
  obtain ⟨bottom, reached, rfl⟩ := place
  rw [pageMap_eq_value]
  exact Radix.value_cons reached _

/-- The tables below the root form a tree of pages that the allocator holds in use. -/
structure Backed [LawfulPages σ] (root : Nat) (vm : Vmem σ) : Prop where
  tree : sv39.Tree (cells vm.memory) root
  sound : Sound vm.pages
  used : tables root vm ⊆ inUse vm.pages

theorem blank_root [LawfulPages σ] (blank : ∀ pn, cells vm.memory root pn = 0)
    (sound : Sound vm.pages) (used : root ∈ inUse vm.pages) : Backed root vm ∧ tables root vm = {root} ∧
      ∀ key, sv39.value (cells vm.memory) root key = none := by
  have only : ∀ {path table}, sv39.follow (cells vm.memory) root path = some table → path = [] ∧ table = root := by
    intro path
    induction path with
    | nil =>
      intro table reached
      cases reached
      exact ⟨rfl, rfl⟩
    | cons pn path ih =>
      intro table reached
      obtain ⟨parent, parentReached, child⟩ := Radix.follow_cons_some reached
      obtain ⟨_, rfl⟩ := ih parentReached
      rw [blank pn] at child
      cases child
  have nodes : tables root vm = {root} := by
    ext table
    constructor
    · rintro ⟨path, _, reached⟩
      exact (only reached).2
    · rintro rfl
      exact Radix.root_mem_nodes
  refine ⟨⟨⟨?_, ?_⟩, sound, ?_⟩, nodes, ?_⟩
  · intro path other table _ _ reached otherReached
    rw [(only reached).1, (only otherReached).1]
  · intro path table pn _ reached isSome
    obtain ⟨_, rfl⟩ := only reached
    rw [blank pn] at isSome
    cases isSome
  · rw [nodes]
    rintro table rfl
    exact used
  · intro key
    cases key with
    | nil => rfl
    | cons pn path =>
      cases reached : sv39.follow (cells vm.memory) root path with
      | none => rw [Radix.value, reached, Option.bind_none]
      | some table =>
        obtain ⟨_, rfl⟩ := only reached
        rw [Radix.value_cons reached, blank pn]
        rfl

/-- What mapping may do: the tables stay, and only pages that were not in use become tables. -/
structure Within [LawfulPages σ] (root : Nat) (before after : Vmem σ) : Prop where
  backed : Backed root after
  follows : ∀ {path table}, path.length ≤ 2 →
    sv39.follow (cells before.memory) root path = some table →
    sv39.follow (cells after.memory) root path = some table
  sameManaged : managed after.pages = managed before.pages
  claimed : inUse after.pages = inUse before.pages ∪ tables root after
  fresh : ∀ table ∈ tables root after, table ∈ tables root before ∨ table ∉ inUse before.pages
  outside : ∀ {frame offset}, frame ∉ tables root after → offset < 4096 →
    after.memory (frameVa frame + offset) = before.memory (frameVa frame + offset)

section
variable [LawfulPages σ]

theorem Within.tables_subset (within : Within root vm after) : tables root vm ⊆ tables root after := by
  rintro table ⟨path, short, reached⟩
  exact ⟨path, short, within.follows short reached⟩

theorem Within.grows (within : Within root vm after) : inUse vm.pages ⊆ inUse after.pages := by
  rw [within.claimed]
  exact Set.subset_union_left

theorem Backed.within (backed : Backed root vm) : Within root vm vm where
  backed := backed
  follows _ reached := reached
  sameManaged := rfl
  claimed := (Set.union_eq_self_of_subset_right backed.used).symm
  fresh _ member := .inl member
  outside _ _ := rfl

theorem Backed.allocated {order addr : Nat} (backed : Backed root vm)
    (alloc : allocPages order vm.pages = .ok (addr, pages)) : Backed root { vm with pages } := by
  obtain ⟨sound, _, ⟨_, sameUse⟩ | ⟨_, _, _, used⟩⟩ := LawfulPages.alloc backed.sound alloc
  · exact ⟨backed.tree, sound, sameUse ▸ backed.used⟩
  · refine ⟨backed.tree, sound, fun table member => ?_⟩
    rw [used]
    exact .inl (backed.used member)

theorem Backed.refused (backed : Backed root vm) (sound : Sound pages)
    (sameManaged : managed pages = managed vm.pages) (sameUse : inUse pages = inUse vm.pages) :
    Within root vm { vm with pages } where
  backed := ⟨backed.tree, sound, sameUse ▸ backed.used⟩
  follows _ reached := reached
  sameManaged := sameManaged
  claimed := by
    rw [sameUse]
    exact backed.within.claimed
  fresh _ member := .inl member
  outside _ _ := rfl

theorem Within.trans {final : Vmem σ} (first : Within root vm after)
    (second : Within root after final) : Within root vm final where
  backed := second.backed
  follows short reached := second.follows short (first.follows short reached)
  sameManaged := second.sameManaged.trans first.sameManaged
  claimed := by
    rw [second.claimed, first.claimed, Set.union_assoc, Set.union_eq_self_of_subset_left second.tables_subset]
  fresh table member := by
    rcases second.fresh table member with old | unused
    · exact first.fresh table old
    · refine .inr (fun used => unused ?_)
      rw [first.claimed]
      exact .inl used
  outside notTable inside := (second.outside notTable inside).trans
      (first.outside (fun member => notTable (second.tables_subset member)) inside)

/-- The allocator gave out the page `fresh`, which was not in use, and changed nothing else. -/
structure Granted (fresh : Nat) (pages after : σ) : Prop where
  sound : Sound after
  sameManaged : managed after = managed pages
  bounded : fresh < 2 ^ 26
  isManaged : fresh ∈ managed pages
  unused : fresh ∉ inUse pages
  used : inUse after = insert fresh (inUse pages)

variable {fresh low : Nat} {pn : Fin 512} {code : Int} {freed : Set Nat}

theorem Granted.grows {after : σ} (granted : Granted fresh pages after) : inUse pages ⊆ inUse after := by
  rw [granted.used]
  exact Set.subset_insert _ _

theorem Granted.isUsed {after : σ} (granted : Granted fresh pages after) : fresh ∈ inUse after := by
  rw [granted.used]
  exact Set.mem_insert _ _

theorem granted_page {after : σ} (sound : Sound pages)
    (granted : allocPages 0 pages = .ok (frameVa fresh, after)) : Granted fresh pages after := by
  obtain ⟨afterSound, sameManaged, refused | ⟨frame, same, unused, used⟩⟩ := LawfulPages.alloc sound granted
  · exact absurd refused.1 (frameVa_ne_zero fresh)
  obtain rfl : frame = fresh := by
    unfold frameVa pageSize at same
    omega
  obtain ⟨bounded, isManaged, notUsed⟩ := unused 0 (by decide)
  have single : { page | frame ≤ page ∧ page < frame + 2 ^ 0 } = {frame} := by
    ext page
    simp only [Set.mem_ofPred_eq, Set.mem_singleton_iff]
    omega
  rw [single, Set.union_comm, ← Set.insert_eq] at used
  exact ⟨afterSound, sameManaged, bounded, isManaged, notUsed, used⟩

theorem granted_frame {vaddr : Nat} {after : σ} (sound : Sound pages)
    (granted : allocPages 0 pages = .ok (vaddr, after)) (notNull : vaddr ≠ 0) :
    ∃ fresh, vaddr = frameVa fresh ∧ Granted fresh pages after := by
  obtain ⟨_, _, refused | ⟨fresh, rfl, _, _⟩⟩ := LawfulPages.alloc sound granted
  · exact absurd refused.1 notNull
  · exact ⟨fresh, rfl, granted_page sound granted⟩

theorem paPte_frame (bounded : fresh < 2 ^ 26) (small : low < 1024) :
    paPte (pmaVa2Pa (frameVa fresh)) ||| low = fresh * 1024 + low := by
  rw [pmaVa2Pa_frameVa bounded, paPte_or _ small]
  omega

theorem sv39_child_entry {frame : Nat} (bounded : frame < 2 ^ 26) (small : low < 1024)
    (valid : low &&& pteFlagV ≠ 0) : sv39.child (frame * 1024 + low) = some frame := by
  have flag : (frame * 1024 + low) &&& pteFlagV ≠ 0 := by
    rwa [flag_entry frame small (by decide)]
  refine (if_pos flag).trans ?_
  rw [pteFrame_entry frame small, Nat.mod_eq_of_lt bounded]

theorem cells_grafted {base : Memory}
    (different : table ≠ fresh) (bounded : fresh < 2 ^ 26) (small : low < 1024)
    (valid : low &&& pteFlagV ≠ 0) (pointer : low &&& (pteFlagR ||| pteFlagW ||| pteFlagX) = 0)
    (same : ∀ other ≠ fresh, ∀ pn, cells base other pn = cells memory other pn)
    (blank : ∀ pn, cells base fresh pn = 0) : Radix.Grafted sv39 (cells memory)
      (cells (base.store64 (entryAddr (frameVa table) pn)
        (paPte (pmaVa2Pa (frameVa fresh)) ||| low))) table fresh pn := by
  rw [paPte_frame bounded small]
  have written : cells (base.store64 (entryAddr (frameVa table) pn) (fresh * 1024 + low)) table pn =
      fresh * 1024 + low := cells_store_same (by omega)
  have stillBlank : ∀ d, cells (base.store64 (entryAddr (frameVa table) pn) (fresh * 1024 + low)) fresh d = 0 := by
    intro d
    rw [cells_store_other (fun target => different target.1.symm), blank]
  refine ⟨?_, ?_, ?_, ?_, ?_⟩
  · intro other notFresh d elsewhere
    rw [cells_store_other elsewhere, same other notFresh]
  · rw [written]
    exact sv39_child_entry bounded small valid
  · rw [written]
    exact (flag_entry fresh small (by decide)).trans pointer
  · intro d
    rw [stillBlank]
    rfl
  · intro d
    rw [stillBlank]
    rfl

theorem walk_grafted (different : table ≠ fresh)
    (bounded : fresh < 2 ^ 26) : Radix.Grafted sv39 (cells memory)
      (cells ((memset memory (frameVa fresh) 0 pageSize).store64 (entryAddr (frameVa table) pn)
        (paPte (pmaVa2Pa (frameVa fresh)) ||| pteFlagV))) table fresh pn :=
  cells_grafted different bounded (by decide) (by decide) (by decide) (fun _ other => cells_memset_other other)
    (cells_memset_same _ _)

theorem Backed.graft {path : Route} (backed : Backed root vm) (above : path.length < 2)
    (reached : sv39.follow (cells vm.memory) root path = some table)
    (empty : sv39.child (cells vm.memory table pn) = none) (granted : Granted fresh vm.pages pages)
    (grafted : Radix.Grafted sv39 (cells vm.memory) (cells memory) table fresh pn)
    (outside : ∀ other offset, other ≠ table → other ≠ fresh → offset < 4096 →
      memory (frameVa other + offset) = vm.memory (frameVa other + offset)) : Within root vm ⟨memory, pages⟩ ∧
      tables root ⟨memory, pages⟩ = insert fresh (tables root vm) ∧
      sv39.follow (cells memory) root (pn :: path) = some fresh ∧
      ∀ key : Route, key.length = 3 →
        sv39.value (cells memory) root key = sv39.value (cells vm.memory) root key := by
  have notTable : fresh ∉ sv39.nodes (cells vm.memory) root := fun member =>
    granted.unused (backed.used member)
  have nodes : tables root ⟨memory, pages⟩ = insert fresh (tables root vm) :=
    backed.tree.nodes_graft above reached empty notTable grafted
  refine ⟨⟨⟨backed.tree.graft above reached empty notTable grafted, granted.sound, ?_⟩, ?_,
    granted.sameManaged, ?_, ?_, ?_⟩, nodes, ?_, ?_⟩
  · rw [nodes, granted.used]
    exact Set.insert_subset_insert backed.used
  · intro path' table' short reached'
    rw [backed.tree.follow_graft_other above reached empty notTable grafted short, reached']
    rintro rfl
    rw [Radix.follow_cons reached, empty] at reached'
    cases reached'
  · rw [nodes, granted.used, Set.union_insert, Set.union_eq_self_of_subset_right backed.used]
  · intro other member
    rw [nodes] at member
    rcases member with rfl | old
    · exact .inr granted.unused
    · exact .inl old
  · intro other offset notNode inside
    rw [nodes, Set.mem_insert_iff, not_or] at notNode
    refine outside other offset ?_ notNode.1 inside
    rintro rfl
    exact notNode.2 ⟨path, Nat.le_of_lt above, reached⟩
  · exact backed.tree.follow_graft_fresh above reached empty notTable grafted
  · intro key long
    exact backed.tree.value_graft above reached empty notTable grafted long

theorem Backed.walk_graft (backed : Backed root vm) (below : lv < 2)
    (reached : sv39.follow (cells vm.memory) root (tablePath (lv + 1) va) = some table)
    (empty : sv39.child (cells vm.memory table (digit (lv + 1) va)) = none)
    (granted : Granted fresh vm.pages pages) :
    let after : Vmem σ := ⟨(memset vm.memory (frameVa fresh) 0 pageSize).store64
      (entryAddr (frameVa table) (digit (lv + 1) va)) (paPte (pmaVa2Pa (frameVa fresh)) ||| pteFlagV), pages⟩
    table ≠ fresh ∧ Within root vm after ∧ tables root after = insert fresh (tables root vm) ∧
      sv39.follow (cells after.memory) root (tablePath lv va) = some fresh ∧
      ∀ key : Route, key.length = 3 →
        sv39.value (cells after.memory) root key = sv39.value (cells vm.memory) root key := by
  have above : (tablePath (lv + 1) va).length < 2 := by
    rw [tablePath_length]
    omega
  have different : table ≠ fresh := by
    rintro rfl
    exact granted.unused (backed.used ⟨_, Nat.le_of_lt above, reached⟩)
  rw [tablePath_succ below]
  exact ⟨different, backed.graft above reached empty granted (walk_grafted different granted.bounded)
    (fun _ _ notParent notFresh inside => (store64_outside_frame notParent inside).trans
      (memset_outside_frame 0 notFresh inside))⟩

theorem Backed.walkFrom {entry : Nat} (backed : Backed root vm) (level : lv ≤ 2)
    (reached : sv39.follow (cells vm.memory) root (tablePath lv va) = some table)
    (run : Memory.walkFrom va true lv (frameVa table) vm = .ok (entry, after)) :
    Within root vm after ∧ (entry = 0 ∨ EntryAt root va entry after) ∧
      ∀ key : Route, key.length = 3 →
        sv39.value (cells after.memory) root key = sv39.value (cells vm.memory) root key := by
  induction lv generalizing table vm with
  | zero =>
    cases run
    exact ⟨backed.within, .inr ⟨table, reached, rfl⟩, fun _ _ => rfl⟩
  | succ lv ih =>
    have next := follow_tablePath (by omega) reached
    simp only [Memory.walkFrom] at run
    split at run
    next valid =>
      rw [pmaPa2Va_ptePa] at run
      exact ih backed (by omega) (next.trans (if_pos valid)) run
    next invalid =>
      simp only [Bool.not_true, Bool.false_eq_true, if_false] at run
      obtain ⟨⟨fresh, pages⟩, granted, run⟩ := Result.bind_ok run
      obtain ⟨sound, sameManaged, ⟨null, sameUse⟩ | ⟨frame, address, _, _⟩⟩ :=
        LawfulPages.alloc backed.sound granted
      · rw [if_pos null] at run
        cases run
        exact ⟨backed.refused sound sameManaged sameUse, .inl rfl, fun _ _ => rfl⟩
      · subst address
        rw [if_neg (frameVa_ne_zero frame)] at run
        obtain ⟨_, within, _, hung, values⟩ := backed.walk_graft (by omega) reached
          (if_neg invalid) (granted_page backed.sound granted)
        obtain ⟨rest, found, restValues⟩ := ih within.backed (by omega) hung run
        exact ⟨within.trans rest, found, fun key long => (restValues key long).trans (values key long)⟩

theorem Backed.write {word bottom : Nat} {path : Route} {pn : Fin 512}
    (backed : Backed root vm) (long : path.length = 2)
    (reached : sv39.follow (cells vm.memory) root path = some bottom) (bounded : word < 2 ^ 64) : Within root vm
        { vm with memory := vm.memory.store64 (entryAddr (frameVa bottom) pn) word } ∧
      sv39.value (cells (vm.memory.store64 (entryAddr (frameVa bottom) pn) word)) root (pn :: path) =
        sv39.leaf word ∧
      ∀ other : Route, other.length = 3 → other ≠ pn :: path →
        sv39.value (cells (vm.memory.store64 (entryAddr (frameVa bottom) pn) word)) root other =
          sv39.value (cells vm.memory) root other := by
  have kept : ∀ other ≠ bottom, ∀ d, cells (vm.memory.store64 (entryAddr (frameVa bottom) pn) word) other d =
        cells vm.memory other d :=
    fun other different d => cells_store_other (fun same => different same.1)
  have siblings : ∀ d ≠ pn, cells (vm.memory.store64 (entryAddr (frameVa bottom) pn) word) bottom d =
        cells vm.memory bottom d :=
    fun d different => cells_store_other (fun same => different same.2)
  have nodes := backed.tree.nodes_write long reached kept
  refine ⟨⟨⟨backed.tree.write long reached kept, backed.sound, ?_⟩, ?_, rfl, ?_, ?_, ?_⟩, ?_, ?_⟩
  · rw [tables, nodes]
    exact backed.used
  · intro path table short reached'
    rw [backed.tree.follow_write long reached kept short, reached']
  · rw [tables, nodes]
    exact backed.within.claimed
  · intro table member
    rw [tables, nodes] at member
    exact .inl member
  · intro frame offset outside inside
    rw [tables, nodes] at outside
    refine store64_outside_frame ?_ inside
    rintro rfl
    exact outside ⟨path, Nat.le_of_eq long, reached⟩
  · rw [backed.tree.value_write_same long reached kept, cells_store_same bounded]
  · intro other otherLong different
    exact backed.tree.value_write_other long reached kept siblings otherLong different

theorem key_page_ne {other : Nat} (small : vpn < 2 ^ 27) (otherSmall : other < 2 ^ 27)
    (different : other ≠ vpn) : key (other * pageSize) ≠ key (vpn * pageSize) := by
  intro same
  rw [key_eq_iff] at same
  unfold pageSize at same
  omega

theorem Backed.write_page {entry word : Nat} (backed : Backed root vm)
    (place : EntryAt root (vpn * pageSize) entry vm) (bounded : word < 2 ^ 64) (small : vpn < 2 ^ 27) :
    Within root vm { vm with memory := vm.memory.store64 entry word } ∧
      ∀ other < 2 ^ 27,
        pageMap (frameVa root) { vm with memory := vm.memory.store64 entry word } other =
          if other = vpn then sv39.leaf word else pageMap (frameVa root) vm other := by
  obtain ⟨bottom, reached, rfl⟩ := place
  obtain ⟨within, written, kept⟩ := backed.write rfl reached bounded
  refine ⟨within, ?_⟩
  intro other otherSmall
  rw [pageMap_eq_value, pageMap_eq_value]
  by_cases same : other = vpn
  · subst same
    rw [if_pos rfl]
    exact written
  · rw [if_neg same]
    exact kept _ rfl (key_page_ne small otherSmall same)

theorem Backed.vmWalk_page {entry : Nat} (backed : Backed root vm)
    (run : vmWalk (frameVa root) (vpn * pageSize) true vm = .ok (entry, after)) :
    Within root vm after ∧ (entry = 0 ∨ EntryAt root (vpn * pageSize) entry after) ∧
      ∀ other, pageMap (frameVa root) after other = pageMap (frameVa root) vm other := by
  obtain ⟨within, found, values⟩ := backed.walkFrom (Nat.le_refl 2) rfl run
  refine ⟨within, found, fun other => ?_⟩
  rw [pageMap_eq_value, pageMap_eq_value]
  exact values _ rfl

theorem sv39_leaf_entry {ppn : Nat} (small : low < 1024) (valid : low &&& pteFlagV ≠ 0) :
    sv39.leaf (ppn * 1024 + low) = some (ppn, low) := by
  have flag : (ppn * 1024 + low) &&& pteFlagV ≠ 0 := by
    rwa [flag_entry ppn small (by decide)]
  refine (if_pos flag).trans ?_
  rw [ppn_entry ppn small, pteFlags_entry ppn small]

theorem valid_or (flags : Nat) : (pteFlagV ||| flags) &&& pteFlagV ≠ 0 := by
  have set : 1 ≤ pteFlagV ||| flags &&& pteFlagV := Nat.left_le_or
  rw [Nat.and_or_distrib_right, Nat.and_self]
  omega

theorem next_ppn (pa distance : Nat) :
    (ulong (pa + pageSize) / 4096 + distance) % 2 ^ 52 = (pa / 4096 + (distance + 1)) % 2 ^ 52 := by
  unfold ulong pageSize
  omega

theorem Backed.map_page {entry : Nat} (backed : Backed root vm)
    (place : EntryAt root (vpn * pageSize) entry vm) (flagsSmall : flags < 1024)
    (paBound : pa < 2 ^ 64) (small : vpn < 2 ^ 27) : Within root vm
        { vm with memory := vm.memory.store64 entry (paPte pa ||| pteFlagV ||| flags) } ∧
      ∀ other < 2 ^ 27, pageMap (frameVa root)
          { vm with memory := vm.memory.store64 entry (paPte pa ||| pteFlagV ||| flags) } other =
        if other = vpn then some (pa / 4096, pteFlagV ||| flags)
        else pageMap (frameVa root) vm other := by
  have low : pteFlagV ||| flags < 1024 := Nat.or_lt_two_pow (n := 10) (by decide) flagsSmall
  have word : paPte pa ||| pteFlagV ||| flags = pa / 4096 * 1024 + (pteFlagV ||| flags) := by
    rw [Nat.or_assoc, paPte_or pa low]
  rw [word, ← sv39_leaf_entry low (valid_or flags)]
  exact backed.write_page place (by omega) small

theorem next_page (small : vpn < 2 ^ 27) : ulong (vpn * pageSize + pageSize) = (vpn + 1) * pageSize := by
  unfold pageSize
  rw [ulong_of_lt (by omega)]
  omega

/-- One round of `vm_mappages`: the walk finds no page for a table, or the page is entered. -/
theorem Backed.mapFrom_round (backed : Backed root vm)
    (flagsSmall : flags < 1024) (paBound : pa < 2 ^ 64) (small : vpn < 2 ^ 27)
    (run : Memory.mapFrom (frameVa root) flags (count + 1) (vpn * pageSize) pa vm = .ok (code, after)) :
    ∃ entry walked, vmWalk (frameVa root) (vpn * pageSize) true vm = .ok (entry, walked) ∧ Within root vm walked ∧
      (∀ other, pageMap (frameVa root) walked other = pageMap (frameVa root) vm other) ∧
      (entry = 0 ∧ -1 = code ∧ walked = after ∨
        EntryAt root (vpn * pageSize) entry walked ∧ pageMap (frameVa root) vm vpn = none ∧
        let written : Vmem σ := { walked with memory := walked.memory.store64 entry (paPte pa ||| pteFlagV ||| flags) }
        Within root walked written ∧ (∀ other < 2 ^ 27, pageMap (frameVa root) written other =
            if other = vpn then some (pa / 4096, pteFlagV ||| flags) else pageMap (frameVa root) vm other) ∧
          Memory.mapFrom (frameVa root) flags count ((vpn + 1) * pageSize) (ulong (pa + pageSize)) written =
            .ok (code, after)) := by
  rw [Memory.mapFrom] at run
  obtain ⟨⟨entry, walked⟩, walk, run⟩ := Result.bind_ok run
  obtain ⟨walkWithin, found, sameMap⟩ := backed.vmWalk_page walk
  refine ⟨entry, walked, walk, walkWithin, sameMap, ?_⟩
  dsimp only at run
  rcases found with null | place
  · rw [if_pos null] at run
    cases run
    exact .inl ⟨null, rfl, rfl⟩
  rw [if_neg place.ne_zero] at run
  split at run
  · cases run
  next invalid =>
    obtain ⟨writeWithin, written⟩ := walkWithin.backed.map_page place flagsSmall paBound small
    rw [next_page small] at run
    refine .inr ⟨place, ?_, writeWithin, fun other otherSmall => ?_, run⟩
    · rw [← sameMap, place.pageMap_eq]
      exact if_neg invalid
    · rw [written other otherSmall, sameMap]

theorem Backed.mapFrom (backed : Backed root vm)
    (flagsSmall : flags < 1024) (paBound : pa < 2 ^ 64) (range : vpn + count ≤ 2 ^ 27)
    (run : Memory.mapFrom (frameVa root) flags count (vpn * pageSize) pa vm = .ok (code, after)) :
    Within root vm after ∧ (code = 0 → ∀ other < 2 ^ 27, pageMap (frameVa root) after other =
        if vpn ≤ other ∧ other < vpn + count then some ((pa / 4096 + (other - vpn)) % 2 ^ 52, pteFlagV ||| flags)
        else pageMap (frameVa root) vm other) := by
  induction count generalizing vpn pa vm with
  | zero =>
    cases run
    refine ⟨backed.within, fun _ other _ => ?_⟩
    rw [if_neg (by omega)]
  | succ count ih =>
    obtain ⟨_, _, _, walkWithin, _, ⟨_, rfl, rfl⟩ | ⟨_, _, writeWithin, written, rest⟩⟩ :=
      backed.mapFrom_round flagsSmall paBound (by omega) run
    · exact ⟨walkWithin, fun zero => absurd zero (by decide)⟩
    obtain ⟨restWithin, restMap⟩ := ih writeWithin.backed (ulong_lt _) (by omega) rest
    refine ⟨(walkWithin.trans writeWithin).trans restWithin, fun zero other small => ?_⟩
    rw [restMap zero other small, written other small]
    by_cases first : other = vpn
    · subst first
      rw [if_neg (by omega), if_pos rfl, if_pos (by omega), Nat.sub_self, Nat.add_zero, Nat.mod_eq_of_lt (by omega)]
    · rw [if_neg first]
      by_cases inside : vpn + 1 ≤ other ∧ other < vpn + 1 + count
      · rw [if_pos inside, if_pos (by omega), next_ppn, show other - (vpn + 1) + 1 = other - vpn by omega]
      · rw [if_neg inside, if_neg (by omega)]

theorem Backed.mapFrom_failed (backed : Backed root vm)
    (flagsSmall : flags < 1024) (paBound : pa < 2 ^ 64) (range : vpn + count ≤ 2 ^ 27)
    (run : Memory.mapFrom (frameVa root) flags count (vpn * pageSize) pa vm = .ok (code, after)) (failed : code ≠ 0) :
    ∃ other before, vpn ≤ other ∧ other < vpn + count ∧ Backed root before ∧
      vmWalk (frameVa root) (other * pageSize) true before = .ok (0, after) := by
  induction count generalizing vpn pa vm with
  | zero =>
    cases run
    exact absurd rfl failed
  | succ count ih =>
    obtain ⟨_, _, walk, _, _, ⟨rfl, _, rfl⟩ | ⟨_, _, within, _, rest⟩⟩ :=
      backed.mapFrom_round flagsSmall paBound (by omega) run
    · exact ⟨vpn, vm, Nat.le_refl _, by omega, backed, walk⟩
    obtain ⟨other, before, lower, upper, refused⟩ := ih within.backed (ulong_lt _) (by omega) rest
    exact ⟨other, before, by omega, by omega, refused⟩

theorem Backed.mapFrom_returns {flags count vpn pa spare : Nat} (backed : Backed root vm)
    (flagsSmall : flags < 1024) (paBound : pa < 2 ^ 64) (range : vpn + count ≤ 2 ^ 27)
    (unmapped : ∀ other, vpn ≤ other → other < vpn + count →
      pageMap (frameVa root) vm other = none) (grants : Grants (2 * count + spare) vm.pages) :
    ∃ after, Memory.mapFrom (frameVa root) flags count (vpn * pageSize) pa vm = .ok (0, after) ∧
      Grants spare after.pages := by
  induction count generalizing vpn pa vm with
  | zero => exact ⟨vm, rfl, grants.mono (by omega)⟩
  | succ count ih =>
    have enough : Grants (2 + (2 * count + spare)) vm.pages := grants.mono (by omega)
    obtain ⟨entry, walked, walk, notNull, rest⟩ := walkFrom_returns enough root
    have walk : vmWalk (frameVa root) (vpn * pageSize) true vm = .ok (entry, walked) := walk
    obtain ⟨walkWithin, found, sameMap⟩ := backed.vmWalk_page walk
    have place := found.resolve_left notNull
    have invalid : ¬ walked.memory.load64 entry &&& pteFlagV ≠ 0 := by
      intro valid
      have empty := (sameMap vpn).trans (unmapped vpn (Nat.le_refl _) (by omega))
      rw [place.pageMap_eq] at empty
      cases (if_pos valid).symm.trans empty
    obtain ⟨writeWithin, written⟩ := walkWithin.backed.map_page place flagsSmall paBound (by omega)
    obtain ⟨after, run, left⟩ := ih writeWithin.backed (ulong_lt (pa + pageSize))
      (show vpn + 1 + count ≤ 2 ^ 27 by omega) (by
        intro other lower upper
        rw [written other (by omega), if_neg (by omega), sameMap]
        exact unmapped other (by omega) (by omega)) rest
    refine ⟨after, ?_, left⟩
    rw [Memory.mapFrom, walk, Result.ok_bind]
    dsimp only
    rw [if_neg notNull, if_neg invalid, next_page (by omega)]
    exact run

/-- What unmapping may do: the tables stay, entries in them change, and only `freed` is given
back. -/
structure Cleared (root : Nat) (freed : Set Nat) (before after : Vmem σ) : Prop where
  backed : Backed root after
  follows : ∀ {path}, path.length ≤ 2 →
    sv39.follow (cells after.memory) root path = sv39.follow (cells before.memory) root path
  sameManaged : managed after.pages = managed before.pages
  released : inUse after.pages = inUse before.pages \ freed
  outside : ∀ {frame offset}, frame ∉ tables root before → offset < 4096 →
    after.memory (frameVa frame + offset) = before.memory (frameVa frame + offset)

theorem Cleared.tables_eq (cleared : Cleared root freed vm after) : tables root after = tables root vm :=
  Radix.nodes_congr cleared.follows

theorem Backed.cleared (backed : Backed root vm) : Cleared root ∅ vm vm where
  backed := backed
  follows _ := rfl
  sameManaged := rfl
  released := (Set.sdiff_empty).symm
  outside _ _ := rfl

theorem Cleared.trans {final : Vmem σ} {freed' : Set Nat} (first : Cleared root freed vm after)
    (second : Cleared root freed' after final) : Cleared root (freed ∪ freed') vm final where
  backed := second.backed
  follows short := (second.follows short).trans (first.follows short)
  sameManaged := second.sameManaged.trans first.sameManaged
  released := by
    rw [second.released, first.released]
    exact sdiff_sdiff_left
  outside notTable inside :=
    (second.outside (by rwa [first.tables_eq]) inside).trans (first.outside notTable inside)

/-- The pages `lo` to `hi` are mapped and, where they are to be freed, are pages of their own. -/
structure Removable (root : Nat) (doFree : Bool) (vm : Vmem σ) (lo hi : Nat) : Prop where
  mapped : ∀ vpn, lo ≤ vpn → vpn < hi → ∃ entry, pageMap (frameVa root) vm vpn = some entry ∧
    entry.2 ≠ pteFlagV
  owned : doFree → mappedFrames root vm lo hi ⊆ (managed vm.pages ∩ inUse vm.pages) \ tables root vm
  apart : doFree → ∀ vpn other entry otherEntry, lo ≤ vpn → vpn < hi → lo ≤ other → other < hi →
    pageMap (frameVa root) vm vpn = some entry → pageMap (frameVa root) vm other = some otherEntry →
    frameOf entry = frameOf otherEntry → vpn = other

theorem Backed.remove_page (backed : Backed root vm) (small : vpn < 2 ^ 27)
    (mapped : pageMap (frameVa root) vm vpn = some entry) (sound : Sound pages)
    (sameManaged : managed pages = managed vm.pages) (released : inUse pages = inUse vm.pages \ freed)
    (spared : ∀ table ∈ tables root vm, table ∉ freed) :
    ∃ place pte, vmWalk (frameVa root) (vpn * pageSize) false vm = .ok (place, vm) ∧ place ≠ 0 ∧
      vm.memory.load64 place = pte ∧ sv39.leaf pte = some entry ∧
      Cleared root freed vm ⟨vm.memory.store64 place 0, pages⟩ ∧
      ∀ other < 2 ^ 27, pageMap (frameVa root) ⟨vm.memory.store64 place 0, pages⟩ other =
        if other = vpn then none else pageMap (frameVa root) vm other := by
  obtain ⟨bottom, reached, leaf⟩ := pageMap_some mapped
  have place : EntryAt root (vpn * pageSize) (entryAddr (frameVa bottom) (digit 0 (vpn * pageSize)))
      vm := ⟨bottom, reached, rfl⟩
  obtain ⟨within, written⟩ := backed.write_page place (show 0 < 2 ^ 64 by decide) small
  have kept : ∀ other ≠ bottom, ∀ pn,
      cells (vm.memory.store64 (entryAddr (frameVa bottom) (digit 0 (vpn * pageSize))) 0) other pn =
        cells vm.memory other pn :=
    fun other different pn => cells_store_other (fun same => different same.1)
  have nodes := backed.tree.nodes_write rfl reached kept
  refine ⟨_, _, ?_, entryAddr_ne_zero _ _, rfl, leaf, ⟨⟨within.backed.tree, sound, ?_⟩, ?_,
    sameManaged, released, ?_⟩, ?_⟩
  · rw [vmWalk_find, reached]
    rfl
  · intro table member
    rw [tables, nodes] at member
    rw [released]
    exact ⟨backed.used member, spared table member⟩
  · intro path short
    exact backed.tree.follow_write rfl reached kept short
  · intro frame offset outside inside
    refine store64_outside_frame ?_ inside
    rintro rfl
    exact outside ⟨tablePath 0 (vpn * pageSize), Nat.le_refl 2, reached⟩
  · intro other otherSmall
    have same := written other otherSmall
    rw [pageMap_eq_value] at same ⊢
    exact same

theorem Backed.release (backed : Backed root vm)
    (removable : Removable root doFree vm vpn hi) (start : vpn < hi)
    (mapped : pageMap (frameVa root) vm vpn = some entry) :
    ∃ pages, (if doFree then freePage (frameVa (frameOf entry)) vm.pages else pure vm.pages) =
        (.ok pages : Result σ) ∧ Sound pages ∧ managed pages = managed vm.pages ∧
      inUse pages = inUse vm.pages \ (if doFree then {frameOf entry} else ∅) := by
  cases doFree with
  | false => exact ⟨vm.pages, rfl, backed.sound, rfl, by simp⟩
  | true =>
    obtain ⟨⟨isManaged, used⟩, _⟩ := removable.owned rfl ⟨vpn, entry, Nat.le_refl _, start, mapped, rfl⟩
    exact LawfulPages.free backed.sound isManaged used

theorem Removable.tail (removable : Removable root doFree vm vpn hi) (start : vpn < hi) (end_le : hi ≤ 2 ^ 27)
    (mapped : pageMap (frameVa root) vm vpn = some entry)
    (cleared : Cleared root freed vm after) (freedOne : freed ⊆ {frameOf entry})
    (written : ∀ other < 2 ^ 27, pageMap (frameVa root) after other =
      if other = vpn then none else pageMap (frameVa root) vm other) :
    Removable root doFree after (vpn + 1) hi := by
  have same : ∀ other, vpn + 1 ≤ other → other < hi →
      pageMap (frameVa root) after other = pageMap (frameVa root) vm other := by
    intro other lower upper
    rw [written other (by omega), if_neg (by omega)]
  refine ⟨?_, ?_, ?_⟩
  · intro other lower upper
    rw [same other lower upper]
    exact removable.mapped other (by omega) upper
  · rintro freeing frame ⟨other, otherEntry, lower, upper, read, rfl⟩
    rw [same other lower upper] at read
    obtain ⟨⟨isManaged, used⟩, notTable⟩ := removable.owned freeing ⟨other, otherEntry, by omega, upper, read, rfl⟩
    rw [cleared.sameManaged, cleared.released, cleared.tables_eq]
    refine ⟨⟨isManaged, used, fun gone => ?_⟩, notTable⟩
    have equal := removable.apart freeing other vpn otherEntry entry (by omega) upper (by omega) start
      read mapped (freedOne gone)
    omega
  · intro freeing first second firstEntry secondEntry lower upper lower' upper' read read'
    rw [same first lower upper] at read
    rw [same second lower' upper'] at read'
    exact removable.apart freeing first second firstEntry secondEntry (by omega) upper (by omega) upper' read read'

theorem Backed.unmapFrom {doFree : Bool} {count vpn : Nat} (backed : Backed root vm)
    (range : vpn + count ≤ 2 ^ 27) (removable : Removable root doFree vm vpn (vpn + count)) :
    ∃ after, Memory.unmapFrom (frameVa root) doFree count (vpn * pageSize) vm = .ok after ∧
      Cleared root (if doFree then mappedFrames root vm vpn (vpn + count) else ∅) vm after ∧
      ∀ other < 2 ^ 27, pageMap (frameVa root) after other =
        if vpn ≤ other ∧ other < vpn + count then none else pageMap (frameVa root) vm other := by
  induction count generalizing vpn vm with
  | zero =>
    have none : mappedFrames root vm vpn (vpn + 0) = ∅ := by
      ext frame
      simp only [mappedFrames, Set.mem_ofPred_eq, Set.mem_empty_iff_false, iff_false]
      rintro ⟨other, _, lower, upper, _⟩
      omega
    refine ⟨vm, rfl, ?_, ?_⟩
    · rw [none, ite_self]
      exact backed.cleared
    · intro other _
      rw [if_neg (by omega)]
  | succ count ih =>
    have start : vpn < vpn + (count + 1) := by omega
    obtain ⟨entry, mapped, flags⟩ := removable.mapped vpn (Nat.le_refl _) start
    obtain ⟨pages, freeRun, sound, sameManaged, released⟩ := backed.release removable start mapped
    have spared : ∀ table ∈ tables root vm, table ∉ (if doFree then {frameOf entry} else ∅ : Set Nat) := by
      intro table member gone
      cases doFree with
      | false => exact gone
      | true =>
        obtain rfl : table = frameOf entry := gone
        exact (removable.owned rfl ⟨vpn, entry, Nat.le_refl _, start, mapped, rfl⟩).2 member
    obtain ⟨place, pte, walk, notNull, loaded, leaf, cleared, written⟩ :=
      backed.remove_page (by omega) mapped sound sameManaged released spared
    obtain ⟨valid, sameEntry⟩ := leaf_some leaf
    have sameFrame : pteFrame pte = frameOf entry := by
      rw [sameEntry]
      rfl
    have sameFlags : pteFlags pte = entry.2 := by rw [sameEntry]
    have whole : vpn + 1 + count = vpn + (count + 1) := by omega
    have rest := removable.tail start range mapped cleared (by cases doFree <;> simp) written
    rw [← whole] at rest
    obtain ⟨after, run, restCleared, restMap⟩ := ih cleared.backed (by omega) rest
    have nextVa := next_page (show vpn < 2 ^ 27 by omega)
    refine ⟨after, ?_, ?_, ?_⟩
    · have intact : ¬ (place = 0 ∨ pte &&& pteFlagV = 0 ∨ pteFlags pte = pteFlagV) := by
        rw [sameFlags]
        exact fun broken => broken.elim notNull (fun broken => broken.elim valid flags)
      simp only [Memory.unmapFrom, walk, Result.ok_bind, loaded, intact, if_false, pure_bind,
        pmaPa2Va_ptePa, sameFrame, nextVa]
      cases doFree with
      | false =>
        cases freeRun
        exact run
      | true =>
        rw [if_pos rfl] at freeRun
        rw [if_pos rfl, freeRun]
        exact run
    · have joined := cleared.trans restCleared
      cases doFree with
      | false => simpa using joined
      | true =>
        rw [whole] at joined
        rw [if_pos rfl, mappedFrames_cons start range mapped written]
        exact joined
    · intro other small
      rw [restMap other small, written other small]
      by_cases first : other = vpn
      · rw [if_pos first, ite_self, if_pos (by omega)]
      · rw [if_neg first]
        by_cases inside : vpn + 1 ≤ other ∧ other < vpn + 1 + count
        · rw [if_pos inside, if_pos (by omega)]
        · rw [if_neg inside, if_neg (by omega)]

end

end Kalorona.Memory
