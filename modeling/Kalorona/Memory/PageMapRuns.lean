import Kalorona.Memory.BuddyPages

namespace Kalorona.Memory

open Kalorona.Data Kalorona.Utilities

/-! # Sequences of calls on a page table

Along any sequence of calls the table stays a tree whose tables are none of the
mapped frames, and each call changes the map as its arguments say.
-/

open LawfulPages (inUse)

variable {σ : Type} [PageAllocator σ] [LawfulPages σ]

/-- The mapped frames are in use, and none is a table. -/
structure WellFormed (root : Nat) (vm : Vmem σ) : Prop where
  backed : Backed root vm
  frames : ∀ vpn < 2 ^ 27, ∀ entry, pageMap (frameVa root) vm vpn = some entry →
    frameOf entry ∈ inUse vm.pages \ tables root vm

/-- `n` unmapped pages from `vpn` on, page-aligned addresses and flags of an entry. -/
structure MapRange (root : Nat) (vm : Vmem σ) (vpn pa n flags : Nat) : Prop where
  positive : 1 ≤ n
  range : vpn + n ≤ 2 ^ 27
  unmapped : ∀ i < n, pageMap (frameVa root) vm (vpn + i) = none
  paBound : pa < 2 ^ 64
  aligned : pa % pageSize = 0
  flagsBound : flags < 2 ^ 10

/-- What a call of `vm_mappages` asks for: pages to be mapped as leaves, to frames in use that
are no tables. -/
structure MapRequest (root : Nat) (vm : Vmem σ) (vpn pa n flags : Nat) : Prop extends
    MapRange root vm vpn pa n flags where
  leaf : flags &&& (pteFlagR ||| pteFlagW ||| pteFlagX) ≠ 0
  frames : ∀ i < n, (pa / pageSize + i) % 2 ^ 26 ∈ inUse vm.pages \ tables root vm

/-- What a call of `vm_unmappages` asks for: `n` mapped pages from `vpn` on, each with a flag
besides V. -/
structure UnmapRequest (root : Nat) (vm : Vmem σ) (vpn n : Nat) : Prop where
  range : vpn + n ≤ 2 ^ 27
  mapped : ∀ i < n, ∃ entry, pageMap (frameVa root) vm (vpn + i) = some entry ∧ entry.2 ≠ pteFlagV

def replaced (map : Nat → Option (Nat × Nat)) (vpn n : Nat) (entries : Nat → Option (Nat × Nat))
    (other : Nat) : Option (Nat × Nat) :=
  if vpn ≤ other ∧ other < vpn + n then entries (other - vpn) else map other

inductive TableCall (root : Nat) : Vmem σ → Vmem σ → Prop
  | map {vm after : Vmem σ} {vpn pa n flags : Nat} (request : MapRequest root vm vpn pa n flags)
      (returned : vmMappages (frameVa root) (vpn * pageSize) pa (n * pageSize) flags vm =
        .ok (0, after)) : TableCall root vm after
  | unmap {vm after : Vmem σ} {vpn n : Nat} (request : UnmapRequest root vm vpn n)
      (returned : vmUnmappages (frameVa root) (vpn * pageSize) n false vm = .ok after) :
      TableCall root vm after

variable {root : Nat} {vm after : Vmem σ}

section
variable {vpn pa n flags : Nat}

theorem MapRange.effect (backed : Backed root vm) (request : MapRange root vm vpn pa n flags)
    (returned : vmMappages (frameVa root) (vpn * pageSize) pa (n * pageSize) flags vm = .ok (0, after)) :
    Within root vm after ∧ ∀ other < 2 ^ 27, pageMap (frameVa root) after other =
      replaced (pageMap (frameVa root) vm) vpn n
        (fun i => some ((pa / pageSize + i) % 2 ^ 52, flags ||| pteFlagV)) other := by
  have range := request.range
  have positive := request.positive
  rw [vmMappages_pages (by omega) (by omega)] at returned
  obtain ⟨within, mapped⟩ := backed.mapFrom request.flagsBound request.paBound request.range returned
  refine ⟨within, fun other small => ?_⟩
  rw [mapped rfl other small, replaced, Nat.or_comm]
  rfl

theorem MapRange.returns (backed : Backed root vm) (request : MapRange root vm vpn pa n flags)
    {spare : Nat} (grants : Grants (2 * n + spare) vm.pages) :
    ∃ after, vmMappages (frameVa root) (vpn * pageSize) pa (n * pageSize) flags vm =
      .ok (0, after) ∧ Grants spare after.pages := by
  have range := request.range
  have positive := request.positive
  rw [vmMappages_pages (by omega) (by omega)]
  refine backed.mapFrom_returns request.flagsBound request.paBound range ?_ grants
  intro other lower upper
  have unmapped := request.unmapped (other - vpn) (by omega)
  rwa [Nat.add_sub_cancel' lower] at unmapped

theorem MapRange.wellFormed (wf : WellFormed root vm) (request : MapRange root vm vpn pa n flags)
    (frames : ∀ i < n, (pa / pageSize + i) % 2 ^ 26 ∈ inUse vm.pages \ tables root vm)
    (returned : vmMappages (frameVa root) (vpn * pageSize) pa (n * pageSize) flags vm =
      .ok (0, after)) : WellFormed root after := by
  obtain ⟨within, mapped⟩ := request.effect wf.backed returned
  -- a frame in use that was no table is none of the fresh tables either
  have stays : ∀ frame ∈ inUse vm.pages \ tables root vm, frame ∈ inUse after.pages \ tables root after := by
    rintro frame ⟨used, notTable⟩
    refine ⟨?_, fun member => ?_⟩
    · rw [within.claimed]
      exact .inl used
    · rcases within.fresh frame member with old | unused
      · exact notTable old
      · exact unused used
  refine ⟨within.backed, fun other small entry found => ?_⟩
  rw [mapped other small, replaced] at found
  split at found
  next inside =>
    cases found
    have frame := stays _ (frames (other - vpn) (by omega))
    unfold frameOf
    dsimp only
    rwa [Nat.mod_mod_of_dvd _ (by decide)]
  next => exact stays _ (wf.frames other small entry found)

theorem UnmapRequest.effect (backed : Backed root vm) (request : UnmapRequest root vm vpn n) :
    ∃ after, vmUnmappages (frameVa root) (vpn * pageSize) n false vm = .ok after ∧
      Cleared root ∅ vm after ∧ ∀ other < 2 ^ 27, pageMap (frameVa root) after other =
        replaced (pageMap (frameVa root) vm) vpn n (fun _ => none) other := by
  have removable : Removable root false vm vpn (vpn + n) := by
    refine ⟨fun other lower upper => ?_, nofun, nofun⟩
    have mapped := request.mapped (other - vpn) (by omega)
    rwa [Nat.add_sub_cancel' lower] at mapped
  rw [vmUnmappages_eq request.range]
  exact backed.unmapFrom request.range removable

theorem UnmapRequest.wellFormed (wf : WellFormed root vm) (request : UnmapRequest root vm vpn n)
    (returned : vmUnmappages (frameVa root) (vpn * pageSize) n false vm = .ok after) : WellFormed root after := by
  obtain ⟨_, run, cleared, unmapped⟩ := request.effect wf.backed
  cases run.symm.trans returned
  refine ⟨cleared.backed, fun other small entry found => ?_⟩
  rw [cleared.tables_eq, cleared.released, Set.sdiff_empty]
  rw [unmapped other small, replaced] at found
  split at found
  next => cases found
  next => exact wf.frames other small entry found

end

theorem WellFormed.call (wf : WellFormed root vm) (call : TableCall root vm after) : WellFormed root after := by
  cases call with
  | map request returned => exact request.toMapRange.wellFormed wf request.frames returned
  | unmap request returned => exact request.wellFormed wf returned

theorem page_table_refines_map {start : Vmem σ} (wellFormed : WellFormed root start)
    (run : Relation.ReflTransGen (TableCall root) start vm) : WellFormed root vm ∧
      (∀ vpn pa n flags after, MapRequest root vm vpn pa n flags →
        vmMappages (frameVa root) (vpn * pageSize) pa (n * pageSize) flags vm = .ok (0, after) →
        WellFormed root after ∧ ∀ other < 2 ^ 27, pageMap (frameVa root) after other =
          replaced (pageMap (frameVa root) vm) vpn n
            (fun i => some ((pa / pageSize + i) % 2 ^ 52, flags ||| pteFlagV)) other) ∧
      (∀ vpn n, UnmapRequest root vm vpn n →
        ∃ after, vmUnmappages (frameVa root) (vpn * pageSize) n false vm = .ok after ∧
          WellFormed root after ∧ ∀ other < 2 ^ 27, pageMap (frameVa root) after other =
            replaced (pageMap (frameVa root) vm) vpn n (fun _ => none) other) ∧
      ∀ addr entry, pageMap (frameVa root) vm (addr / pageSize) = some entry →
        vmTranslate (frameVa root) addr vm = .ok (pmaPa2Va (ulong (entry.1 <<< pageShift)) + addr % pageSize) := by
  have wf : WellFormed root vm := run_preserves (WellFormed root) (fun _ _ wf call => wf.call call) wellFormed run
  refine ⟨wf, ?_, ?_, ?_⟩
  · intro vpn pa n flags after request returned
    exact ⟨request.toMapRange.wellFormed wf request.frames returned, (request.toMapRange.effect wf.backed returned).2⟩
  · intro vpn n request
    obtain ⟨after, returned, _, unmapped⟩ := request.effect wf.backed
    exact ⟨after, returned, request.wellFormed wf returned, unmapped⟩
  · intro addr entry mapped
    exact vmTranslate_mapped mapped

theorem blank_space : ∃ (root : Nat) (vm : Vmem Kmem), WellFormed root vm ∧ tables root vm = {root} ∧
      (∀ vpn, pageMap (frameVa root) vm vpn = none) ∧ 0x80000 ≤ root ∧ root < 0x80010 ∧
      (∀ frame, frame < 0x80000 ∨ 0x80010 ≤ frame → frame ∈ inUse vm.pages) ∧
      Grants 8 vm.pages := by
  obtain ⟨kmem, _, _, _, sound, begins, counts, clear⟩ := sixteen_pages_sound
  obtain ⟨frame, after, granted, grants⟩ := (sound.grants List.nodup_range' clear (show 8 + 1 ≤ 15 by decide)).next
  obtain ⟨afterSound, sameNode, refused | ⟨root, _, unused, used⟩⟩ := sound.allocPages granted
  · exact absurd refused.1 (frameVa_ne_zero frame)
  obtain ⟨_, inNode, _⟩ := unused 0 (by decide)
  have rootUsed : root ∈ usedFrames after := by
    rw [used]
    exact .inr ⟨Nat.le_refl _, by simp⟩
  obtain ⟨backed, nodes, noValue⟩ := @blank_root Kmem _ root ⟨fun _ => 0, after⟩ _
    (fun pn => Memory.load64_zero (fun _ _ => rfl)) afterSound rootUsed
  have unmapped : ∀ vpn, pageMap (frameVa root) ⟨fun _ => 0, after⟩ vpn = none := fun vpn =>
    (pageMap_eq_value root vpn _).trans (noValue _)
  refine ⟨root, _, ⟨backed, ?_⟩, nodes, unmapped, ?_, ?_, ?_, grants⟩
  · intro vpn _ entry found
    rw [unmapped vpn] at found
    cases found
  · have lower := inNode.1
    rw [begins] at lower
    exact lower
  · have upper := inNode.2
    rw [begins, counts] at upper
    exact upper
  · intro frame outside inNode'
    rw [sameNode] at inNode'
    have lower := inNode'.1
    have upper := inNode'.2
    rw [begins] at lower
    rw [begins, counts] at upper
    omega

/-- The first page of a blank table is mapped to the device at 0x10000000. -/
theorem page_table_refines_map_device :
    ∃ (root : Nat) (vm after : Vmem Kmem), WellFormed root vm ∧ TableCall root vm after ∧
      pageMap (frameVa root) after 0 = some (0x10000, 7) ∧
      vmTranslate (frameVa root) 0x5 after = .ok 0xFFFFFFC010000005 := by
  obtain ⟨root, vm, wf, nodes, unmapped, lower, upper, outside, grants⟩ := blank_space
  have request : MapRequest root vm 0 0x10000000 1 (pteFlagR ||| pteFlagW) := by
    refine ⟨⟨by decide, by decide, fun _ _ => unmapped _, by decide, by decide, by decide⟩,
      by decide, fun i single => ⟨outside _ ?_, ?_⟩⟩
    · obtain rfl : i = 0 := by omega
      exact .inl (by decide)
    · rw [nodes, Set.mem_singleton_iff, pageSize]
      omega
  obtain ⟨after, returned, _⟩ := @MapRange.returns _ _ _ _ _ _ _ _ _ wf.backed request.toMapRange 0
    (grants.mono (by decide))
  have call : TableCall root vm after := .map request returned
  obtain ⟨_, mapping, _⟩ := page_table_refines_map wf .refl
  have mapped := (mapping 0 0x10000000 1 (pteFlagR ||| pteFlagW) after request returned).2 0 (by decide)
  have found : pageMap (frameVa root) after 0 = some (0x10000, 7) := mapped
  refine ⟨root, vm, after, wf, call, found, ?_⟩
  exact (page_table_refines_map wf (.single call)).2.2.2 0x5 _ found

/-- Three ways past the plain reading of the calls: a table page as the frame leaves no tree, an
entry with no flag but V cannot be removed, and frame numbers start again at 2 ^ 52. -/
theorem page_table_calls_beyond_map : ∃ (root : Nat) (vm own bare wrapped : Vmem Kmem), WellFormed root vm ∧
      (MapRange root vm 0 (root * pageSize) 1 pteFlagR ∧
        vmMappages (frameVa root) 0 (root * pageSize) pageSize pteFlagR vm = .ok (0, own) ∧
        ¬ WellFormed root own) ∧
      (WellFormed root bare ∧ pageMap (frameVa root) bare 0 = some (0x10000, pteFlagV) ∧
        vmUnmappages (frameVa root) 0 1 false bare = .error (.panic "vm_unmappages - broken entry")) ∧
      MapRange root vm 0 (2 ^ 64 - pageSize) 2 pteFlagR ∧
      vmMappages (frameVa root) 0 (2 ^ 64 - pageSize) (2 * pageSize) pteFlagR vm = .ok (0, wrapped) ∧
      pageMap (frameVa root) wrapped 1 = some (0, pteFlagR ||| pteFlagV) := by
  obtain ⟨root, vm, wf, nodes, unmapped, lower, upper, outside, grants⟩ := blank_space
  have ownRange : MapRange root vm 0 (root * pageSize) 1 pteFlagR :=
    ⟨by decide, by decide, fun _ _ => unmapped _, by unfold pageSize; omega,
      Nat.mul_mod_left root pageSize, by decide⟩
  obtain ⟨own, ownReturned, _⟩ := @MapRange.returns _ _ _ _ _ _ _ _ _ wf.backed ownRange 0 (grants.mono (by decide))
  have bareRange : MapRange root vm 0 0x10000000 1 0 :=
    ⟨by decide, by decide, fun _ _ => unmapped _, by decide, by decide, by decide⟩
  obtain ⟨bare, bareReturned, _⟩ := @MapRange.returns _ _ _ _ _ _ _ _ _ wf.backed bareRange 0
    (grants.mono (by decide))
  have wrapRange : MapRange root vm 0 (2 ^ 64 - pageSize) 2 pteFlagR :=
    ⟨by decide, by decide, fun _ _ => unmapped _, by decide, by decide, by decide⟩
  obtain ⟨wrapped, wrapReturned, _⟩ := @MapRange.returns _ _ _ _ _ _ _ _ _ wf.backed wrapRange 0
    (grants.mono (by decide))
  have bareMapped : pageMap (frameVa root) bare 0 = some (0x10000, pteFlagV) :=
    (bareRange.effect wf.backed bareReturned).2 0 (by decide)
  refine ⟨root, vm, own, bare, wrapped, wf, ⟨ownRange, ?_, ?_⟩, ⟨?_, bareMapped, ?_⟩, wrapRange, ?_, ?_⟩
  · simpa using ownReturned
  · intro ownWf
    have mapped := (ownRange.effect wf.backed ownReturned).2 0 (by decide)
    refine (ownWf.frames 0 (by decide) _ mapped).2 ?_
    have own : frameOf ((root * pageSize / pageSize + 0) % 2 ^ 52, pteFlagR ||| pteFlagV) = root := by
      unfold frameOf pageSize
      dsimp only
      omega
    dsimp only [Nat.sub_zero]
    rw [own]
    exact Radix.root_mem_nodes
  · refine bareRange.wellFormed wf (fun i single => ⟨outside _ ?_, ?_⟩) bareReturned
    · obtain rfl : i = 0 := by omega
      exact .inl (by decide)
    · rw [nodes, Set.mem_singleton_iff, pageSize]
      omega
  · rw [show (0 : Nat) = 0 * pageSize from rfl, vmUnmappages_eq (by decide)]
    exact unmapFrom_bare bareMapped rfl
  · simpa using wrapReturned
  · exact (wrapRange.effect wf.backed wrapReturned).2 1 (by decide)

end Kalorona.Memory
