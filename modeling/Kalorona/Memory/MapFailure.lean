import Kalorona.Memory.UvmcpyRuns

namespace Kalorona.Memory

open Kalorona.Data Kalorona.Utilities

/-! # Mapping that runs out of pages

What `vm_mappages` has entered when `vm_walk` finds no page for a table stays.
-/

open LawfulPages (Sound inUse)

section
variable {σ : Type} [PageAllocator σ] [LawfulPages σ] {root va pa flags count : Nat} {code : Int}
  {vm after : Vmem σ}

theorem mapped_word_lt (paBound : pa < 2 ^ 64) (flagsBound : flags < 2 ^ 64) :
    paPte pa ||| pteFlagV ||| flags < 2 ^ 64 := by
  have page : paPte pa < 2 ^ 64 := by
    unfold paPte
    rw [shiftRight_pageShift, Nat.shiftLeft_eq]
    unfold pteFlagsWidth
    omega
  exact Nat.or_lt_two_pow (Nat.or_lt_two_pow page (by decide)) flagsBound

theorem mapped_word_leaf (pa flags : Nat) : ∃ entry, sv39.leaf (paPte pa ||| pteFlagV ||| flags) = some entry := by
  have valid : (paPte pa ||| pteFlagV ||| flags) &&& pteFlagV ≠ 0 := by
    rw [Nat.or_comm (paPte pa), Nat.or_assoc]
    exact valid_or _
  exact ⟨_, if_pos valid⟩

def KeepsPages (root : Nat) (before after : Vmem σ) : Prop :=
  ∀ key entry, key.length = 3 → sv39.value (cells before.memory) root key = some entry →
    sv39.value (cells after.memory) root key = some entry

theorem Backed.enter_page {entry : Nat} {walked : Vmem σ} (backed : Backed root vm)
    (paBound : pa < 2 ^ 64) (flagsBound : flags < 2 ^ 64)
    (walk : vmWalk (frameVa root) va true vm = .ok (entry, walked)) (notNull : entry ≠ 0)
    (invalid : walked.memory.load64 entry &&& pteFlagV = 0) :
    let written : Vmem σ := { walked with memory := walked.memory.store64 entry (paPte pa ||| pteFlagV ||| flags) }
    Backed root written ∧ sv39.value (cells vm.memory) root (key va) = none ∧
      (∃ entry, sv39.value (cells written.memory) root (key va) = some entry) ∧
      KeepsPages root vm written := by
  obtain ⟨within, found, values⟩ := backed.walkFrom (Nat.le_refl 2) rfl walk
  obtain ⟨bottom, reached, rfl⟩ := found.resolve_left notNull
  obtain ⟨writeWithin, entered, kept⟩ :=
    @Backed.write _ _ _ _ _ _ _ _ (digit 0 va) within.backed rfl reached (mapped_word_lt paBound flagsBound)
  have empty : sv39.value (cells vm.memory) root (key va) = none := by
    rw [← values _ rfl]
    refine (Radix.value_cons reached _).trans ?_
    exact if_neg (not_not.mpr invalid)
  refine ⟨writeWithin.backed, empty, ?_, ?_⟩
  · obtain ⟨leaf, isLeaf⟩ := mapped_word_leaf pa flags
    exact ⟨leaf, entered.trans isLeaf⟩
  · intro other leaf long mapped
    have different : other ≠ digit 0 va :: tablePath 0 va := by
      rintro rfl
      cases empty.symm.trans mapped
    exact (kept other long different).trans ((values other long).trans mapped)

theorem Backed.mapFrom_keeps (backed : Backed root vm) (paBound : pa < 2 ^ 64) (flagsBound : flags < 2 ^ 64)
    (run : Memory.mapFrom (frameVa root) flags count va pa vm = .ok (code, after)) : KeepsPages root vm after := by
  induction count generalizing va pa vm with
  | zero =>
    cases run
    exact fun _ _ _ mapped => mapped
  | succ count ih =>
    rw [Memory.mapFrom] at run
    obtain ⟨⟨entry, walked⟩, walk, run⟩ := Result.bind_ok run
    dsimp only at run
    split at run
    · cases run
      obtain ⟨_, _, values⟩ := backed.walkFrom (Nat.le_refl 2) rfl walk
      exact fun other leaf long mapped => (values other long).trans mapped
    next notNull =>
      split at run
      · cases run
      next valid =>
        obtain ⟨written, _, _, kept⟩ := backed.enter_page paBound flagsBound walk notNull (not_not.mp valid)
        have rest := ih written (ulong_lt _) run
        exact fun other leaf long mapped => rest other leaf long (kept other leaf long mapped)

def SamePages (root : Nat) (before after : Vmem σ) : Prop :=
  ∀ vpn < 2 ^ 27, pageMap (frameVa root) after vpn = pageMap (frameVa root) before vpn

theorem vmMappages_atomic_iff {siz : Nat} (backed : Backed root vm) (vaBound : va < 2 ^ 64)
    (aligned : va % pageSize = 0) (paBound : pa < 2 ^ 64) (flagsBound : flags < 2 ^ 64) (positive : 0 < siz)
    (failed : vmMappages (frameVa root) va pa siz flags vm = .ok (-1, after)) :
    SamePages root vm after ↔ ∃ walked, vmWalk (frameVa root) va true vm = .ok (0, walked) := by
  have whole : va / 4096 * 4096 = va := Nat.div_mul_cancel (Nat.dvd_of_mod_eq_zero aligned)
  rw [vmMappages, if_neg (Nat.ne_of_gt positive), pageRoundDown_eq vaBound, whole] at failed
  dsimp only at failed
  generalize ulongSub (pageRoundUp (ulong (va + siz))) va >>> pageShift = count at failed
  cases count with
  | zero => cases failed
  | succ count =>
    rw [mapFrom] at failed
    obtain ⟨⟨entry, walked⟩, walk, failed⟩ := Result.bind_ok failed
    dsimp only at failed
    split at failed
    next null =>
      cases failed
      subst null
      obtain ⟨_, _, same⟩ := backed.walkFrom (Nat.le_refl 2) rfl walk
      refine ⟨fun _ => ⟨_, walk⟩, fun _ vpn _ => ?_⟩
      rw [pageMap_eq_value, pageMap_eq_value]
      exact same _ rfl
    next notNull =>
      split at failed
      · cases failed
      next valid =>
        obtain ⟨written, empty, ⟨leaf, entered⟩, _⟩ :=
          backed.enter_page paBound flagsBound walk notNull (not_not.mp valid)
        have left := written.mapFrom_keeps (ulong_lt _) flagsBound failed _ leaf rfl entered
        constructor
        · intro same
          -- the page at `va` was entered in the first round
          have page : key (va / 4096 % 2 ^ 27 * pageSize) = key va := by
            rw [key_eq_iff]
            unfold pageSize
            omega
          have unchanged := same (va / 4096 % 2 ^ 27) (Nat.mod_lt _ (by decide))
          rw [pageMap_eq_value, pageMap_eq_value, page, left, empty] at unchanged
          cases unchanged
        · rintro ⟨_, refused⟩
          cases walk.symm.trans refused
          exact absurd rfl notNull

end

theorem chain_without_pages :
    ∃ kmem node memory, kmemPageManagerInit (smallNode 2 1) (fun _ => 0) = .ok (kmem, node, memory) ∧
      Backed 1 (⟨chain (5 * 1024 + 3), kmem⟩ : Vmem Kmem) := by
  obtain ⟨kmem, node, memory, boot, buddy, begins, _⟩ := @smallNode_sound 2 1 (by decide)
  have spaces := @chain_spaces kmem buddy begins 5 3 ⟨by decide, by decide, by decide, by decide⟩
  exact ⟨kmem, node, memory, boot, spaces.srcTree, buddy, fun _ member => (spaces.srcTables member).1⟩

theorem vmMappages_atomic_iff_first_page : ∃ vm after : Vmem Kmem, Backed 1 vm ∧
      vmMappages (frameVa 1) (512 * pageSize) 0 8192 7 vm = .ok (-1, after) ∧ SamePages 1 vm after := by
  obtain ⟨kmem, node, memory, boot, backed⟩ := chain_without_pages
  obtain ⟨_, again, ⟨⟨_, after⟩, failed, rfl⟩, ⟨_, walked⟩, walk, rfl⟩ :
      ∃ boot, kmemPageManagerInit (smallNode 2 1) (fun _ => 0) = .ok boot ∧
        (∃ failed, vmMappages (frameVa 1) (512 * pageSize) 0 8192 7 ⟨chain (5 * 1024 + 3), boot.1⟩ = .ok failed ∧
          failed.1 = -1) ∧ ∃ walked, vmWalk (frameVa 1) (512 * pageSize) true ⟨chain (5 * 1024 + 3), boot.1⟩ =
            .ok walked ∧ walked.1 = 0 := by decide +kernel
  cases boot.symm.trans again
  exact ⟨_, after, backed, failed, (vmMappages_atomic_iff backed (by decide) (by decide) (by decide)
    (by decide) (by decide) failed).mpr ⟨walked, walk⟩⟩

/-- The first page is entered, and the second needs a table. -/
theorem vmMappages_leaves_page : ∃ vm after : Vmem Kmem, Backed 1 vm ∧
      vmMappages (frameVa 1) (511 * pageSize) 0 8192 7 vm = .ok (-1, after) ∧
      pageMap (frameVa 1) vm 511 = none ∧ pageMap (frameVa 1) after 511 ≠ none := by
  obtain ⟨kmem, node, memory, boot, backed⟩ := chain_without_pages
  obtain ⟨_, again, ⟨_, after⟩, failed, rfl, left⟩ : ∃ boot, kmemPageManagerInit (smallNode 2 1) (fun _ => 0) = .ok boot ∧
      ∃ failed, vmMappages (frameVa 1) (511 * pageSize) 0 8192 7 ⟨chain (5 * 1024 + 3), boot.1⟩ = .ok failed ∧
        failed.1 = -1 ∧ pageMap (frameVa 1) ⟨chain (5 * 1024 + 3), boot.1⟩ 511 = none ∧
        pageMap (frameVa 1) failed.2 511 ≠ none := by decide +kernel
  cases boot.symm.trans again
  exact ⟨_, after, backed, failed, left⟩

end Kalorona.Memory
