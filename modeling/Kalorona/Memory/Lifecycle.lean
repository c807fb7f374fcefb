import Kalorona.Memory.BuddyLinkRuns
import Kalorona.Memory.PageMapRuns
import Mathlib.Data.List.Nodup

namespace Kalorona.Memory

open Kalorona.Data Kalorona.Utilities

/-! # The life of a page table

When the last leaf of a table tree is gone, `vm_reap_pagetable` gives back every table once.
-/

open LawfulPages (Sound managed inUse)

/-- An allocator with the addresses that were freed, the last one first. -/
structure Logged (σ : Type) where
  pages : σ
  freed : List Nat

variable {σ : Type} [PageAllocator σ]

instance : PageAllocator (Logged σ) where
  allocPages order logged := do
    let (vaddr, pages) ← allocPages order logged.pages
    return (vaddr, { logged with pages })
  freePage addr logged := do
    let pages ← freePage addr logged.pages
    return ⟨pages, addr :: logged.freed⟩

instance [LawfulPages σ] : LawfulPages (Logged σ) where
  Sound logged := Sound logged.pages
  managed logged := managed logged.pages
  inUse logged := inUse logged.pages
  alloc {order vaddr logged after} sound run := by
    obtain ⟨⟨granted, pages⟩, inner, rest⟩ := Result.bind_ok run
    cases rest
    exact LawfulPages.alloc sound inner
  free {frame logged} sound isManaged used := by
    obtain ⟨pages, inner, after⟩ := LawfulPages.free sound isManaged used
    refine ⟨⟨pages, frameVa frame :: logged.freed⟩, ?_, after⟩
    show (freePage (frameVa frame) logged.pages >>= _) = _
    rw [inner]
    rfl

def Vmem.logged (vm : Vmem σ) : Vmem (Logged σ) := ⟨vm.memory, ⟨vm.pages, []⟩⟩

def Vmem.unlogged (vm : Vmem (Logged σ)) : Vmem σ := ⟨vm.memory, vm.pages.pages⟩

omit [PageAllocator σ] in
theorem reapEntries_unlogged {pgtbl count i : Nat} {vm after : Vmem (Logged σ)}
    {descend : Nat → Vmem (Logged σ) → Result (Vmem (Logged σ))} {descend' : Nat → Vmem σ → Result (Vmem σ)}
    (descends : ∀ pgtbl vm after, descend pgtbl vm = .ok after → descend' pgtbl vm.unlogged = .ok after.unlogged)
    (run : reapEntries descend pgtbl count i vm = .ok after) :
    reapEntries descend' pgtbl count i vm.unlogged = .ok after.unlogged := by
  induction count generalizing i vm with
  | zero =>
    cases run
    rfl
  | succ count ih =>
    simp only [reapEntries] at run ⊢
    split at run
    next pointer =>
      obtain ⟨middle, down, rest⟩ := Result.bind_ok run
      refine (if_pos pointer).trans ?_
      refine (congrArg (· >>= _) (descends _ _ _ down)).trans ?_
      exact ih rest
    next noPointer =>
      refine (if_neg noPointer).trans ?_
      split at run
      next => cases run
      next noLeaf => exact (if_neg noLeaf).trans (ih run)

theorem vmReapPagetable_unlogged {fuel pgtbl : Nat} {vm after : Vmem (Logged σ)}
    (run : vmReapPagetable fuel pgtbl vm = .ok after) :
    vmReapPagetable fuel pgtbl vm.unlogged = .ok after.unlogged := by
  induction fuel generalizing pgtbl vm after with
  | zero => cases run
  | succ fuel ih =>
    obtain ⟨entries, loop, run⟩ := Result.bind_ok run
    obtain ⟨pages, free, run⟩ := Result.bind_ok run
    obtain ⟨inner, freed, same⟩ := Result.bind_ok free
    cases same
    cases run
    have unlogged := @reapEntries_unlogged σ pgtbl (1 <<< pnWidth) 0 vm entries
      (vmReapPagetable fuel) (vmReapPagetable fuel) (fun _ _ _ down => ih down) loop
    rw [vmReapPagetable, unlogged, Result.ok_bind]
    show (freePage pgtbl entries.pages.pages >>= _) = _
    rw [freed]
    rfl

variable [LawfulPages σ]

/-- The frames in `gone` were freed, each once, and bytes were written only in `touched`. -/
structure Reaped (gone touched : Set Nat) (before after : Vmem (Logged σ)) : Prop where
  sound : Sound after.pages
  sameManaged : managed after.pages = managed before.pages
  released : inUse after.pages = inUse before.pages \ gone
  outside : ∀ {frame offset}, frame ∉ touched → offset < 4096 →
    after.memory (frameVa frame + offset) = before.memory (frameVa frame + offset)
  log : ∃ frames : List Nat, after.pages.freed = frames.map frameVa ++ before.pages.freed ∧
    frames.Nodup ∧ ∀ frame, frame ∈ frames ↔ frame ∈ gone

section
variable {gone gone' touched touched' : Set Nat} {before vm after : Vmem (Logged σ)}

theorem Reaped.nothing (sound : Sound vm.pages) (touched : Set Nat) : Reaped ∅ touched vm vm where
  sound := sound
  sameManaged := rfl
  released := (Set.sdiff_empty).symm
  outside _ _ := rfl
  log := ⟨[], rfl, List.nodup_nil, by simp⟩

theorem Reaped.trans (first : Reaped gone touched before vm) (second : Reaped gone' touched' vm after)
    (apart : Disjoint gone gone') : Reaped (gone ∪ gone') (touched ∪ touched') before after where
  sound := second.sound
  sameManaged := second.sameManaged.trans first.sameManaged
  released := by
    rw [second.released, first.released]
    exact sdiff_sdiff_left
  outside := by
    intro frame offset untouched inside
    rw [Set.mem_union, not_or] at untouched
    exact (second.outside untouched.2 inside).trans (first.outside untouched.1 inside)
  log := by
    obtain ⟨frames, freed, once, members⟩ := first.log
    obtain ⟨later, laterFreed, laterOnce, laterMembers⟩ := second.log
    refine ⟨later ++ frames, by rw [laterFreed, freed, List.map_append, List.append_assoc], ?_, ?_⟩
    · rw [List.nodup_append]
      refine ⟨laterOnce, once, ?_⟩
      rintro frame inLater _ inFirst rfl
      exact Set.disjoint_left.mp apart ((members frame).mp inFirst) ((laterMembers frame).mp inLater)
    · intro frame
      rw [List.mem_append, members, laterMembers, Set.mem_union, or_comm]

theorem Reaped.congr (reaped : Reaped gone touched before after) (sameGone : gone = gone')
    (more : touched ⊆ touched') : Reaped gone' touched' before after := by
  subst sameGone
  exact ⟨reaped.sound, reaped.sameManaged, reaped.released,
    fun untouched inside => reaped.outside (fun member => untouched (more member)) inside,
    reaped.log⟩

theorem Reaped.clear_entry (sound : Sound vm.pages) (table : Nat) (pn : Fin 512) : Reaped ∅ {table} vm
      { vm with memory := vm.memory.store64 (entryAddr (frameVa table) pn) 0 } where
  sound := sound
  sameManaged := rfl
  released := (Set.sdiff_empty).symm
  outside untouched inside := store64_outside_frame untouched inside
  log := ⟨[], rfl, List.nodup_nil, by simp⟩

theorem Reaped.free_frame {frame : Nat} (sound : Sound vm.pages) (isManaged : frame ∈ managed vm.pages)
    (used : frame ∈ inUse vm.pages) : ∃ pages, freePage (frameVa frame) vm.pages = .ok pages ∧
      Reaped {frame} ∅ vm { vm with pages } := by
  obtain ⟨pages, inner, afterSound, sameManaged, released⟩ :=
    @LawfulPages.free σ _ _ frame vm.pages.pages sound isManaged used
  refine ⟨⟨pages, frameVa frame :: vm.pages.freed⟩, ?_, afterSound, sameManaged, released,
    fun _ _ => rfl, [frame], rfl, by simp, by simp⟩
  show (freePage (frameVa frame) vm.pages.pages >>= _) = _
  rw [inner]
  rfl

theorem Reaped.cells_eq {frame : Nat} (reaped : Reaped gone touched before after)
    (untouched : frame ∉ touched) (pn : Fin 512) : cells after.memory frame pn = cells before.memory frame pn :=
  cells_congr (fun _ inside => reaped.outside untouched inside) pn

end

/-- The tables under `path` are in use and as they were. -/
structure Standing (base : Memory) (root : Nat) (path : Route) (vm : Vmem (Logged σ)) :
    Prop where
  same : ∀ node ∈ sv39.below (cells base) root path, ∀ pn,
    cells vm.memory node pn = cells base node pn
  owned : sv39.below (cells base) root path ⊆ managed vm.pages ∩ inUse vm.pages

def belowFrom (base : Memory) (root : Nat) (path : Route) (i : Nat) : Set Nat :=
  { node | ∃ pn : Fin 512, i ≤ pn ∧ node ∈ sv39.below (cells base) root (pn :: path) }

section
variable {base : Memory} {root table i : Nat} {path : Route} {vm after : Vmem (Logged σ)}

theorem Standing.reaped {gone touched : Set Nat} (standing : Standing base root path vm)
    (reaped : Reaped gone touched vm after) (untouched : Disjoint (sv39.below (cells base) root path) touched)
    (kept : Disjoint (sv39.below (cells base) root path) gone) : Standing base root path after := by
  refine ⟨fun node member pn => ?_, fun node member => ?_⟩
  · rw [reaped.cells_eq (Set.disjoint_left.mp untouched member), standing.same node member]
  · rw [reaped.sameManaged, reaped.released]
    exact ⟨(standing.owned member).1, (standing.owned member).2, Set.disjoint_left.mp kept member⟩

theorem belowFrom_cons (inside : i < 512) : belowFrom base root path i =
      sv39.below (cells base) root (⟨i, inside⟩ :: path) ∪ belowFrom base root path (i + 1) := by
  ext node
  constructor
  · rintro ⟨pn, least, member⟩
    by_cases first : pn = ⟨i, inside⟩
    · exact .inl (first ▸ member)
    · refine .inr ⟨pn, ?_, member⟩
      have different : pn.val ≠ i := fun same => first (Fin.ext same)
      omega
  · rintro (member | ⟨pn, least, member⟩)
    · exact ⟨⟨i, inside⟩, Nat.le_refl i, member⟩
    · exact ⟨pn, by omega, member⟩

theorem belowFrom_end : belowFrom base root path 512 = ∅ := by
  ext node
  simp only [belowFrom, Set.mem_ofPred_eq, Set.mem_empty_iff_false, iff_false]
  rintro ⟨pn, least, _⟩
  omega

theorem belowFrom_disjoint (tree : sv39.Tree (cells base) root) (inside : i < 512) :
    Disjoint (sv39.below (cells base) root (⟨i, inside⟩ :: path)) (belowFrom base root path (i + 1)) := by
  rw [Set.disjoint_left]
  rintro node member ⟨pn, least, other⟩
  refine Set.disjoint_left.mp (tree.below_disjoint ?_) member other
  intro same
  rw [← same] at least
  exact Nat.lt_irrefl i least

/-- What is below the entries from `i` on is still to be freed. -/
structure Remaining (base : Memory) (root table : Nat) (path : Route) (i : Nat)
    (vm : Vmem (Logged σ)) : Prop where
  sound : Sound vm.pages
  entries : ∀ pn : Fin 512, i ≤ pn → cells vm.memory table pn = cells base table pn
  standing : ∀ pn : Fin 512, i ≤ pn → Standing base root (pn :: path) vm

theorem Remaining.skip (remaining : Remaining base root table path i vm) :
    Remaining base root table path (i + 1) vm :=
  ⟨remaining.sound, fun pn least => remaining.entries pn (by omega),
    fun pn least => remaining.standing pn (by omega)⟩

theorem Remaining.next {middle : Vmem (Logged σ)} (tree : sv39.Tree (cells base) root)
    (reached : sv39.follow (cells base) root path = some table) (short : path.length ≤ 2)
    (remaining : Remaining base root table path i vm) (inside : i < 512)
    (reaped : Reaped (sv39.below (cells base) root (⟨i, inside⟩ :: path))
      (sv39.below (cells base) root (⟨i, inside⟩ :: path)) vm middle) : Remaining base root table path (i + 1)
        { middle with memory := middle.memory.store64 (entryAddr (frameVa table) i) 0 } ∧
      Reaped (sv39.below (cells base) root (⟨i, inside⟩ :: path))
        (sv39.below (cells base) root (⟨i, inside⟩ :: path) ∪ {table}) vm
        { middle with memory := middle.memory.store64 (entryAddr (frameVa table) i) 0 } := by
  have cleared := Reaped.clear_entry reaped.sound table ⟨i, inside⟩
  have both := (reaped.trans cleared (Set.disjoint_empty _)).congr (Set.union_empty _) subset_rfl
  refine ⟨⟨both.sound, fun pn least => ?_, fun pn least => ?_⟩, both⟩
  · have other : ¬ (table = table ∧ pn = ⟨i, inside⟩) := by
      rintro ⟨_, rfl⟩
      exact Nat.lt_irrefl i least
    refine (cells_store_other other).trans ?_
    rw [reaped.cells_eq (tree.not_mem_below reached short _), remaining.entries pn (by omega)]
  · have apart : Disjoint (sv39.below (cells base) root (pn :: path))
        (sv39.below (cells base) root (⟨i, inside⟩ :: path)) := by
      refine tree.below_disjoint ?_
      rintro rfl
      exact Nat.lt_irrefl i least
    refine (remaining.standing pn (by omega)).reaped both ?_ apart
    rw [Set.disjoint_union_right, Set.disjoint_singleton_right]
    exact ⟨apart, tree.not_mem_below reached short pn⟩

theorem Remaining.reapEntries {count : Nat} {descend : Nat → Vmem (Logged σ) → Result (Vmem (Logged σ))}
    (tree : sv39.Tree (cells base) root)
    (reached : sv39.follow (cells base) root path = some table) (short : path.length ≤ 2)
    (pointers : ∀ pn, cells base table pn &&& pteFlagV ≠ 0 → path.length < 2)
    (descends : ∀ pn child vm, path.length < 2 →
      sv39.follow (cells base) root (pn :: path) = some child → Sound vm.pages → Standing base root (pn :: path) vm →
      ∃ after, descend (frameVa child) vm = .ok after ∧
        Reaped (sv39.below (cells base) root (pn :: path)) (sv39.below (cells base) root (pn :: path)) vm after)
    (remaining : Remaining base root table path i vm) (rounds : i + count = 512) :
    ∃ after, Memory.reapEntries descend (frameVa table) count i vm = .ok after ∧
      Reaped (belowFrom base root path i) (belowFrom base root path i ∪ {table}) vm after := by
  induction count generalizing i vm with
  | zero =>
    obtain rfl : i = 512 := rounds
    refine ⟨vm, rfl, ?_⟩
    rw [belowFrom_end]
    exact .nothing remaining.sound _
  | succ count ih =>
    have inside : i < 512 := by omega
    let pn : Fin 512 := ⟨i, inside⟩
    have loaded : vm.memory.load64 (entryAddr (frameVa table) i) = cells base table pn :=
      remaining.entries pn (Nat.le_refl i)
    have split := @belowFrom_cons base root i path inside
    have child : sv39.follow (cells base) root (pn :: path) = sv39.child (cells base table pn) :=
      Radix.follow_cons reached pn
    simp only [Memory.reapEntries, loaded]
    by_cases valid : cells base table pn &&& pteFlagV ≠ 0
    · have above := pointers pn valid
      have next : sv39.follow (cells base) root (pn :: path) = some (pteFrame (cells base table pn)) :=
        child.trans (if_pos valid)
      have inner : cells base table pn &&& (pteFlagR ||| pteFlagW ||| pteFlagX) = 0 :=
        tree.inner pn above reached (by rw [← child, next]; rfl)
      obtain ⟨middle, down, reaped⟩ := descends pn _ vm above next remaining.sound
        (remaining.standing pn (Nat.le_refl i))
      obtain ⟨rest, step⟩ := remaining.next tree reached short inside reaped
      obtain ⟨after, run, later⟩ := ih rest (by omega)
      refine ⟨after, ?_, ?_⟩
      · rw [if_pos ⟨valid, inner⟩, pmaPa2Va_ptePa, down]
        exact run
      · refine (step.trans later (belowFrom_disjoint tree inside)).congr split.symm ?_
        rw [split]
        rintro frame ((member | member) | member | member)
        · exact .inl (.inl member)
        · exact .inr member
        · exact .inl (.inr member)
        · exact .inr member
    · have none : sv39.below (cells base) root (pn :: path) = ∅ := Radix.below_none (child.trans (if_neg valid))
      rw [if_neg (fun both => valid both.1), if_neg valid]
      rw [split, show sv39.below (cells base) root (⟨i, inside⟩ :: path) = ∅ from none, Set.empty_union]
      exact ih remaining.skip (by omega)

theorem Standing.vmReapPagetable {levels fuel : Nat} (tree : sv39.Tree (cells base) root)
    (noLeaf : ∀ key : Route, key.length = 3 → sv39.value (cells base) root key = none)
    (reached : sv39.follow (cells base) root path = some table) (depth : path.length + levels = 2)
    (deep : levels < fuel) (sound : Sound vm.pages) (standing : Standing base root path vm) :
    ∃ after, Memory.vmReapPagetable fuel (frameVa table) vm = .ok after ∧
      Reaped (sv39.below (cells base) root path) (sv39.below (cells base) root path) vm after := by
  induction fuel generalizing path table levels vm with
  | zero => omega
  | succ fuel ih =>
    have short : path.length ≤ 2 := by omega
    have members := Radix.mem_below_iff reached short
    have own : table ∈ sv39.below (cells base) root path := (members table).mpr (.inl rfl)
    have whole : belowFrom base root path 0 ∪ {table} = sv39.below (cells base) root path := by
      ext node
      rw [members]
      simp only [belowFrom, Nat.zero_le, true_and, Set.mem_union, Set.mem_ofPred_eq, Set.mem_singleton_iff]
      exact or_comm
    have remaining : Remaining base root table path 0 vm := by
      refine ⟨sound, fun pn _ => standing.same table own pn, fun pn _ => ?_⟩
      have inside : sv39.below (cells base) root (pn :: path) ⊆ sv39.below (cells base) root path :=
        fun node member => (members node).mpr (.inr ⟨pn, member⟩)
      exact ⟨fun node member => standing.same node (inside member), inside.trans standing.owned⟩
    have notBelow : table ∉ belowFrom base root path 0 := by
      rintro ⟨pn, _, member⟩
      exact tree.not_mem_below reached short pn member
    have pointers : ∀ pn, cells base table pn &&& pteFlagV ≠ 0 → path.length < 2 := by
      intro pn valid
      by_contra bottom
      have value := (Radix.value_cons reached pn).trans (if_pos valid)
      rw [noLeaf (pn :: path) (show path.length + 1 = 3 by omega)] at value
      cases value
    obtain ⟨entries, loop, reaped⟩ := @Remaining.reapEntries σ _ _ base root table 0 path vm
      (1 <<< pnWidth) (Memory.vmReapPagetable fuel) tree reached short pointers
      (fun pn child vm above below soundBelow standingBelow =>
        @ih child (pn :: path) vm (levels - 1) below (show path.length + 1 + (levels - 1) = 2 by omega)
          (by omega) soundBelow standingBelow) remaining rfl
    obtain ⟨pages, free, freed⟩ := Reaped.free_frame reaped.sound
      (by rw [reaped.sameManaged]; exact (standing.owned own).1)
      (by rw [reaped.released]; exact ⟨(standing.owned own).2, notBelow⟩)
    refine ⟨{ entries with pages }, ?_, ?_⟩
    · rw [Memory.vmReapPagetable, loop, Result.ok_bind, free]
      rfl
    · refine (reaped.trans freed ?_).congr whole ?_
      · rw [Set.disjoint_singleton_right]
        exact notBelow
      · rw [Set.union_empty, whole]

end

/-- A call of `vm_mappages` that returned 0, or of `vm_unmappages` without freeing. -/
inductive LifeCall (pgtbl : Nat) : Vmem σ → Vmem σ → Prop
  | map {vm after : Vmem σ} {va pa siz flags : Nat} (paBound : pa < 2 ^ 64) (flagsBound : flags < 2 ^ 64)
      (returned : vmMappages pgtbl va pa siz flags vm = .ok (0, after)) : LifeCall pgtbl vm after
  | unmap {vm after : Vmem σ} {va count : Nat}
      (returned : vmUnmappages pgtbl va count false vm = .ok after) : LifeCall pgtbl vm after

section
variable {root va count : Nat} {vm after : Vmem σ}

theorem Backed.write_entry {entry word : Nat} (backed : Backed root vm)
    (place : EntryAt root va entry vm) (bounded : word < 2 ^ 64) :
    Within root vm { vm with memory := vm.memory.store64 entry word } := by
  obtain ⟨bottom, reached, rfl⟩ := place
  exact (backed.write (tablePath_length 0 va) reached bounded).1

theorem Backed.mapFrom_within {pa flags : Nat} {code : Int} (backed : Backed root vm)
    (paBound : pa < 2 ^ 64) (flagsBound : flags < 2 ^ 64)
    (run : Memory.mapFrom (frameVa root) flags count va pa vm = .ok (code, after)) : Within root vm after := by
  induction count generalizing va pa vm with
  | zero =>
    cases run
    exact backed.within
  | succ count ih =>
    rw [Memory.mapFrom] at run
    obtain ⟨⟨entry, walked⟩, walk, run⟩ := Result.bind_ok run
    obtain ⟨walkWithin, found, _⟩ := backed.walkFrom (Nat.le_refl 2) rfl walk
    dsimp only at run
    rcases found with null | place
    · rw [if_pos null] at run
      cases run
      exact walkWithin
    rw [if_neg place.ne_zero] at run
    split at run
    · cases run
    have word : paPte pa ||| pteFlagV ||| flags < 2 ^ 64 := by
      refine Nat.or_lt_two_pow (Nat.or_lt_two_pow ?_ (by decide)) flagsBound
      rw [paPte, shiftRight_pageShift, Nat.shiftLeft_eq, pteFlagsWidth]
      omega
    have writeWithin := walkWithin.backed.write_entry place word
    exact (walkWithin.trans writeWithin).trans (ih writeWithin.backed (ulong_lt _) run)

theorem Backed.unmapFrom_within (backed : Backed root vm)
    (run : Memory.unmapFrom (frameVa root) false count va vm = .ok after) : Within root vm after := by
  induction count generalizing va vm with
  | zero =>
    cases run
    exact backed.within
  | succ count ih =>
    rw [Memory.unmapFrom, vmWalk_find, Result.ok_bind] at run
    dsimp only at run
    split at run
    · cases run
    next sound =>
      obtain ⟨pages, same, run⟩ := Result.bind_ok run
      cases same
      cases reached : sv39.follow (cells vm.memory) root (tablePath 0 va) with
      | none =>
        rw [reached] at sound
        exact absurd (.inl rfl) sound
      | some bottom =>
        rw [reached] at run
        have writeWithin := backed.write_entry ⟨bottom, reached, rfl⟩ (show 0 < 2 ^ 64 by decide)
        exact writeWithin.trans (ih writeWithin.backed run)

theorem Backed.lifeCall (backed : Backed root vm) (call : LifeCall (frameVa root) vm after) :
    Within root vm after := by
  cases call with
  | map paBound flagsBound returned =>
    unfold vmMappages at returned
    split at returned
    · cases returned
    · exact backed.mapFrom_within paBound flagsBound returned
  | unmap returned =>
    unfold vmUnmappages at returned
    split at returned
    · cases returned
    · exact backed.unmapFrom_within returned

theorem Backed.lifeRun (backed : Backed root vm)
    (run : Relation.ReflTransGen (LifeCall (frameVa root)) vm after) : Within root vm after := by
  refine run_preserves (Within root vm) (fun _ _ within call => ?_) backed.within run
  exact within.trans (within.backed.lifeCall call)

theorem Backed.reap {fuel : Nat} (backed : Backed root vm) (deep : 3 ≤ fuel)
    (tablesManaged : tables root vm ⊆ managed vm.pages)
    (empty : ∀ vpn < 2 ^ 27, pageMap (frameVa root) vm vpn = none) :
    ∃ after, vmReapPagetable fuel (frameVa root) vm.logged = .ok after ∧
      Reaped (tables root vm) (tables root vm) vm.logged after := by
  have noLeaf : ∀ key : Route, key.length = 3 → sv39.value (cells vm.memory) root key = none := by
    intro digits long
    obtain ⟨vpn, small, rfl⟩ := exists_key long
    rw [← pageMap_eq_value]
    exact empty vpn small
  have standing : Standing vm.memory root [] vm.logged := by
    refine ⟨fun _ _ _ => rfl, ?_⟩
    rw [Radix.below_root]
    exact fun table member => ⟨tablesManaged member, backed.used member⟩
  have reaped := @Standing.vmReapPagetable σ _ _ vm.memory root root [] vm.logged 2 fuel backed.tree
    noLeaf rfl rfl deep backed.sound standing
  rwa [Radix.below_root] at reaped

end

/-- From a blank root page through any successful calls to a table without leaves, over any allocator
that manages every frame it does not hold in use. -/
theorem lifecycle_conserves {start pages : σ} {pgtbl fuel : Nat} {memory : Memory} {vm : Vmem σ}
    (sound : Sound start) (whole : ∀ frame, frame ∉ inUse start → frame ∈ managed start)
    (granted : allocPages 0 start = .ok (pgtbl, pages)) (notNull : pgtbl ≠ 0)
    (run : Relation.ReflTransGen (LifeCall pgtbl) ⟨memset memory pgtbl 0 pageSize, pages⟩ vm)
    (empty : ∀ vpn < 2 ^ 27, pageMap pgtbl vm vpn = none) (deep : 3 ≤ fuel) :
    ∃ root after freed, pgtbl = frameVa root ∧ vmReapPagetable fuel pgtbl vm = .ok after ∧
      vmReapPagetable fuel pgtbl vm.logged = .ok ⟨after.memory, ⟨after.pages, freed⟩⟩ ∧
      freed.Nodup ∧ (∀ addr, addr ∈ freed ↔ ∃ table ∈ tables root vm, addr = frameVa table) ∧
      inUse vm.pages \ inUse start = tables root vm ∧ Sound after.pages ∧
      managed after.pages = managed start ∧ inUse after.pages = inUse start := by
  obtain ⟨_, _, ⟨null, _⟩ | ⟨root, rfl, _, _⟩⟩ := LawfulPages.alloc sound granted
  · exact absurd null notNull
  have taken := granted_page sound granted
  have blankCells := cells_memset_same memory root
  generalize memset memory (frameVa root) 0 pageSize = cleared at run blankCells
  obtain ⟨blank, only, _⟩ := @blank_root σ _ root ⟨cleared, pages⟩ _ blankCells taken.sound taken.isUsed
  have within := blank.lifeRun run
  have rootTable : root ∈ tables root vm := Radix.root_mem_nodes
  -- The frames in use are those of the start and the tables.
  have used : inUse vm.pages = inUse start ∪ tables root vm := by
    rw [within.claimed, show inUse pages = insert root (inUse start) from taken.used,
      Set.insert_union, Set.insert_eq_of_mem (.inr rootTable)]
  have apart : ∀ table ∈ tables root vm, table ∉ inUse start := by
    intro table member
    rcases within.fresh table member with old | unused
    · rw [only] at old
      rw [old]
      exact taken.unused
    · intro old
      refine unused ?_
      rw [show inUse pages = insert root (inUse start) from taken.used]
      exact .inr old
  have nodes : managed vm.pages = managed start := within.sameManaged.trans taken.sameManaged
  have tablesManaged : tables root vm ⊆ managed vm.pages := by
    intro table member
    rw [nodes]
    exact whole table (apart table member)
  obtain ⟨after, reap, reaped⟩ := @Backed.reap σ _ _ root vm fuel within.backed deep tablesManaged empty
  obtain ⟨frames, freed, once, members⟩ := reaped.log
  rw [show vm.logged.pages.freed = [] from rfl, List.append_nil] at freed
  refine ⟨root, after.unlogged, after.pages.freed, rfl, vmReapPagetable_unlogged reap, reap, ?_, ?_, ?_,
    reaped.sound, reaped.sameManaged.trans nodes, ?_⟩
  · rw [freed]
    exact once.map frameVa_injective
  · intro addr
    rw [freed, List.mem_map]
    simp only [members, eq_comm]
  · rw [used, Set.union_sdiff_left]
    exact (Set.disjoint_left.mpr apart).sdiff_eq_left
  · have released : inUse after.unlogged.pages = inUse vm.pages \ tables root vm := reaped.released
    rw [released, used, Set.union_sdiff_right]
    exact (Set.disjoint_left.mpr apart).symm.sdiff_eq_left

theorem testBit_memMap_of_usedFrames {left right : Kmem} {pn : Nat}
    (nodes : nodeFrames right = nodeFrames left) (used : usedFrames right = usedFrames left)
    (inside : pn < left.numPpn) : testBit right.memMap pn = testBit left.memMap pn := by
  have first : left.beginPpn ∈ nodeFrames right := nodes ▸ ⟨Nat.le_refl _, by omega⟩
  have otherFirst : right.beginPpn ∈ nodeFrames left := nodes ▸ ⟨Nat.le_refl _, Nat.lt_of_le_of_lt first.1 first.2⟩
  have begins : right.beginPpn = left.beginPpn := Nat.le_antisymm first.1 otherFirst.1
  have member : left.beginPpn + pn ∈ nodeFrames left := ⟨by omega, by omega⟩
  have same : left.beginPpn + pn ∈ usedFrames right ↔ left.beginPpn + pn ∈ usedFrames left := by
    rw [used]
  simp only [usedFrames, Set.mem_ofPred_eq, nodes, member, true_imp_iff, begins, Nat.add_sub_cancel_left] at same
  exact Bool.eq_iff_iff.mpr same

theorem Faithful.unused_page {pages : Set Nat} {state : LinkedKmem} {kmem : Kmem} {frame : Nat}
    (faithful : Faithful pages state kmem) (unused : frame ∉ usedFrames kmem) :
    frame ∈ nodeFrames kmem ∧ frame - kmem.beginPpn ∈ pages := by
  simp only [usedFrames, Set.mem_ofPred_eq, not_forall] at unused
  obtain ⟨inNode, clear⟩ := unused
  have upper := inNode.2
  have lower := inNode.1
  exact ⟨inNode, faithful.within ⟨by omega, Bool.eq_false_iff.mpr clear⟩⟩

theorem usedFrames_bare (kmem : Kmem) : usedFrames kmem.bare = usedFrames kmem := rfl

/-- The allocator in memory as one of frames, of which those of the given pages can be freed. -/
@[reducible] def linkedPages (board : Kmem) (pages : Set Nat) : LawfulPages LinkedKmem where
  Sound state := ∃ kmem, Faithful pages state kmem ∧ SameFrame board kmem
  managed _ := { frame | frame ∈ nodeFrames board ∧ frame - board.beginPpn ∈ pages }
  inUse state := usedFrames state.kmem
  alloc {order vaddr state after} sound run := by
    obtain ⟨kmem, faithful, same⟩ := sound
    obtain ⟨kmem', granted, kept, frame⟩ := faithful.alloc run
    obtain ⟨_, _, outcome⟩ := faithful.sound.allocPages granted
    rw [faithful.tracks.fields, kept.tracks.fields, usedFrames_bare, usedFrames_bare]
    refine ⟨⟨kmem', kept, same.trans frame⟩, rfl, outcome.imp_right ?_⟩
    rintro ⟨first, address, unused, used⟩
    refine ⟨first, address, fun offset inBlock => ?_, used⟩
    obtain ⟨small, _, notUsed⟩ := unused offset inBlock
    have managed := faithful.unused_page notUsed
    rw [same.nodeFrames_eq, same.beginPpn] at managed
    exact ⟨small, managed, notUsed⟩
  free {frame state} sound isManaged used := by
    obtain ⟨kmem, faithful, same⟩ := sound
    rw [faithful.tracks.fields, usedFrames_bare] at used
    obtain ⟨node, allowed⟩ := isManaged
    rw [← same.nodeFrames_eq] at node
    rw [← same.beginPpn] at allowed
    have lower := node.1
    have upper := node.2
    have inside : frame - kmem.beginPpn < kmem.numPpn := by omega
    have address := faithful.sound.pageVaddr_frameVa inside
    rw [Nat.add_sub_cancel' lower] at address
    obtain ⟨final, kmem', run, freed, kept, frameSame⟩ := faithful.free_returns allowed inside (used node)
    obtain ⟨_, again, _, _, released⟩ := faithful.sound.freePage node used
    rw [address] at run freed
    cases again.symm.trans freed
    refine ⟨final, run, ⟨kmem', kept, same.trans frameSame⟩, rfl, ?_⟩
    rw [faithful.tracks.fields, kept.tracks.fields]
    exact released

/-- On every board whose maps fit: `vm_reap_pagetable` frees the tables, all pages that were taken on
the way, each once and nothing else, and the map of the allocator is as before the root was taken. -/
theorem page_table_lifecycle {freeable : Set Nat} {node : BootmemNode} {memory bytes : Memory}
    {links : Links AreaNode} {start pages : LinkedKmem} {pgtbl fuel : Nat} {vm : Vmem LinkedKmem}
    (mapped : NodeMapped node) (heads : ∀ ord < maxMemOrder, links.nxt (.head ord) = none)
    (reachable : PageRun freeable node memory links start)
    (granted : start.kmemAllocPages 0 = .ok (pgtbl, pages)) (notNull : pgtbl ≠ 0)
    (run : Relation.ReflTransGen (LifeCall pgtbl) ⟨memset bytes pgtbl 0 pageSize, pages⟩ vm)
    (empty : ∀ vpn < 2 ^ 27, pageMap pgtbl vm vpn = none) (deep : 3 ≤ fuel) :
    ∃ root after freed, pgtbl = frameVa root ∧ vmReapPagetable fuel pgtbl vm = .ok after ∧
      vmReapPagetable fuel pgtbl vm.logged = .ok ⟨after.memory, ⟨after.pages, freed⟩⟩ ∧
      freed.Nodup ∧ (∀ addr, addr ∈ freed ↔ ∃ table ∈ tables root vm, addr = frameVa table) ∧
      usedFrames vm.pages.kmem \ usedFrames start.kmem = tables root vm ∧
      ∀ pn < start.kmem.numPpn,
        testBit after.pages.kmem.memMap pn = testBit start.kmem.memMap pn := by
  obtain ⟨allowed, kmem, _, faithful, _⟩ := reachable.faithful mapped.toNodeFits heads
  have startUsed : usedFrames start.kmem = usedFrames kmem := by rw [faithful.tracks.fields, usedFrames_bare]
  obtain ⟨root, after, freed, isRoot, reap, logged, once, members, taken, ⟨kmem', kept, frame⟩, _, used⟩ :=
    @lifecycle_conserves LinkedKmem _ (linkedPages kmem allowed) _ _ _ _ _ _ ⟨kmem, faithful, .refl kmem⟩
      (fun _ unused => faithful.unused_page (startUsed ▸ unused : _ ∉ usedFrames kmem)) granted notNull run
      empty deep
  refine ⟨root, after, freed, isRoot, reap, logged, once, members, taken, fun pn inside => ?_⟩
  have sameUse : usedFrames after.pages.kmem = usedFrames start.kmem := used
  rw [kept.tracks.fields, startUsed] at sameUse
  rw [faithful.tracks.fields] at inside
  rw [kept.tracks.memMap_eq, faithful.tracks.memMap_eq]
  exact testBit_memMap_of_usedFrames frame.nodeFrames_eq sameUse inside

theorem Backed.map_unmap {root pa flags : Nat} {vm : Vmem σ} (backed : Backed root vm)
    (unmapped : ∀ vpn, pageMap (frameVa root) vm vpn = none) (paBound : pa < 2 ^ 64)
    (aligned : pa % pageSize = 0) (flagsBound : flags < 2 ^ 10) (flagged : flags ||| pteFlagV ≠ pteFlagV)
    (grants : Grants 2 vm.pages) :
    ∃ mapped after, vmMappages (frameVa root) 0 pa pageSize flags vm = .ok (0, mapped) ∧
      vmUnmappages (frameVa root) 0 1 false mapped = .ok after ∧
      ∀ vpn < 2 ^ 27, pageMap (frameVa root) after vpn = none := by
  have request : MapRange root vm 0 pa 1 flags :=
    ⟨by decide, by decide, fun _ _ => unmapped _, paBound, aligned, flagsBound⟩
  obtain ⟨mapped, returned, _⟩ := @MapRange.returns σ _ _ root vm 0 pa 1 flags backed request 0 grants
  obtain ⟨within, effect⟩ := request.effect backed returned
  have found := effect 0 (by decide)
  have unmap : UnmapRequest root mapped 0 1 := by
    refine ⟨by decide, fun i first => ?_⟩
    obtain rfl : i = 0 := by omega
    exact ⟨_, found, flagged⟩
  obtain ⟨after, removed, _, rest⟩ := unmap.effect within.backed
  rw [Nat.zero_mul, Nat.one_mul] at returned
  rw [Nat.zero_mul] at removed
  refine ⟨mapped, after, returned, removed, fun vpn small => ?_⟩
  rw [rest vpn small, replaced]
  split
  · rfl
  · next elsewhere =>
    rw [effect vpn small, replaced, if_neg elsewhere, unmapped]

/-- A page of the device at 0x10000000 is mapped and unmapped on a board with sixteen
pages of RAM. -/
theorem page_table_lifecycle_device :
    ∃ (start pages : LinkedKmem) (pgtbl : Nat) (mapped vm after : Vmem LinkedKmem),
      PageRun { pn | pn ≠ 0 } sixteenPages (fun _ => 0) nullLinks start ∧
      start.kmemAllocPages 0 = .ok (pgtbl, pages) ∧ pgtbl ≠ 0 ∧
      vmMappages pgtbl 0 0x10000000 pageSize (pteFlagR ||| pteFlagW)
        ⟨memset (fun _ => 0) pgtbl 0 pageSize, pages⟩ = .ok (0, mapped) ∧
      vmUnmappages pgtbl 0 1 false mapped = .ok vm ∧ vmReapPagetable 3 pgtbl vm = .ok after ∧
      ∀ pn < start.kmem.numPpn, testBit after.pages.kmem.memMap pn = testBit start.kmem.memMap pn := by
  obtain ⟨start, init, ⟨_, pages⟩, granted, rfl, ⟨_, _⟩, firstGranted, rfl, ⟨_, _⟩, secondGranted, rfl⟩ :
      ∃ state, LinkedKmem.kmemPageManagerInit sixteenPages (fun _ => 0) nullLinks = .ok state ∧
        ∃ root, state.kmemAllocPages 0 = .ok root ∧ root.1 = frameVa 0x80001 ∧
          ∃ first, root.2.kmemAllocPages 0 = .ok first ∧ first.1 = frameVa 0x80002 ∧
            ∃ second, first.2.kmemAllocPages 0 = .ok second ∧ second.1 = frameVa 0x80003 := by
    decide +kernel
  have grants : Grants 2 pages := .page firstGranted (.page secondGranted .none)
  have run := sixteenPages_run init
  obtain ⟨allowed, kmem, _, faithful, _⟩ := run.faithful sixteenPages_mapped.toNodeFits fun _ _ => rfl
  let _ := linkedPages kmem allowed
  have sound : Sound start := ⟨kmem, faithful, .refl kmem⟩
  have taken : Granted 0x80001 start pages := granted_page sound granted
  have blankCells := cells_memset_same (fun _ => 0) 0x80001
  generalize clearing : memset (fun _ => 0) (frameVa 0x80001) 0 pageSize = cleared at blankCells
  obtain ⟨backed, _, noValue⟩ := @blank_root LinkedKmem _ 0x80001 ⟨cleared, pages⟩ _ blankCells taken.sound
    taken.isUsed
  obtain ⟨mapped, vm, map, unmap, empty⟩ := @Backed.map_unmap LinkedKmem _ _ 0x80001 0x10000000
    (pteFlagR ||| pteFlagW) _ backed (fun vpn => (pageMap_eq_value _ vpn _).trans (noValue _))
    (by decide) (by decide) (by decide) (by decide) grants
  have notNull := frameVa_ne_zero 0x80001
  have calls : Relation.ReflTransGen (LifeCall (frameVa 0x80001)) ⟨cleared, pages⟩ vm :=
    .tail (.single (.map (by decide) (by decide) map)) (.unmap unmap)
  rw [← clearing] at map calls
  obtain ⟨_, after, _, _, reap, _, _, _, _, sameMap⟩ := page_table_lifecycle sixteenPages_mapped
    (fun _ _ => rfl) run granted notNull calls empty (Nat.le_refl 3)
  exact ⟨start, pages, _, mapped, vm, after, run, granted, notNull, map, unmap, reap, sameMap⟩

omit [LawfulPages σ] [PageAllocator σ] in
theorem reapEntries_blank {root count i : Nat} {vm : Vmem σ} {descend : Nat → Vmem σ → Result (Vmem σ)}
    (blank : ∀ pn, cells vm.memory root pn = 0) (rounds : i + count = 512) :
    reapEntries descend (frameVa root) count i vm = .ok vm := by
  induction count generalizing i with
  | zero => rfl
  | succ count ih =>
    have loaded : vm.memory.load64 (entryAddr (frameVa root) i) = 0 := blank ⟨i, by omega⟩
    simp only [reapEntries, loaded, Nat.zero_and]
    exact ih (by omega)

/-- The words of the first page of `raggedPages 4 1` while its pages 2 to 7 and 32 are free: the
beginning of `mem_map`. -/
def memMapLinks : Links AreaNode where
  prv node := if node = .page 0xffffffc080000000 then some (.page 0xfeffffff03) else none
  nxt _ := none

/-- 33 pages of RAM.  When page 32 is freed at start-up, its bits of the orders 0 and 1 are the first
bits of the next maps.  So when page 2, a new root table, is freed, the page of `mem_map` is taken for
the buddy of pages 2 and 3, and `list_detach` stores through what `mem_map` holds. -/
theorem vmReapPagetable_detaches_mem_map : ∃ start pages : LinkedKmem,
      LinkedKmem.kmemPageManagerInit (raggedPages 4 1) (fun _ => 0) memMapLinks = .ok start ∧
      start.kmemAllocPages 0 = .ok (frameVa 0x80002, pages) ∧
      vmReapPagetable 3 (frameVa 0x80002) ⟨memset (fun _ => 0) (frameVa 0x80002) 0 pageSize, pages⟩ =
        .error .stray := by
  obtain ⟨start, init, ⟨_, pages⟩, granted, rfl, stray⟩ :
      ∃ start, LinkedKmem.kmemPageManagerInit (raggedPages 4 1) (fun _ => 0) memMapLinks = .ok start ∧
        ∃ root, start.kmemAllocPages 0 = .ok root ∧ root.1 = frameVa 0x80002 ∧
          root.2.kmemFreePage (frameVa 0x80002) = .error .stray := by decide +kernel
  refine ⟨start, pages, init, granted, ?_⟩
  have blank := cells_memset_same (fun _ => 0) 0x80002
  generalize memset (fun _ => 0) (frameVa 0x80002) 0 pageSize = cleared at blank
  have freed : freePage (frameVa 0x80002) pages = .error .stray := stray
  rw [vmReapPagetable, @reapEntries_blank LinkedKmem 0x80002 (1 <<< pnWidth) 0 ⟨cleared, pages⟩ _ blank rfl,
    Result.ok_bind, freed]
  rfl

end Kalorona.Memory
