import Kalorona.Memory.PageMap

namespace Kalorona.Memory

open Kalorona.Data Kalorona.Utilities

/-! # Two runs over one page table

Memory is compared outside a set of stale addresses.
-/

def SameOutside (stale : Set Nat) (memory memory' : Memory) : Prop :=
  ∀ address ∉ stale, memory' address = memory address

section
variable {stale : Set Nat} {memory memory' : Memory}

section
variable (same : SameOutside stale memory memory')
include same

theorem SameOutside.mono {more : Set Nat} (larger : stale ⊆ more) : SameOutside more memory memory' :=
  fun address outside => same address fun member => outside (larger member)

theorem SameOutside.load64 {address : Nat}
    (apart : ∀ offset < 8, address + offset ∉ stale) : memory'.load64 address = memory.load64 address :=
  Memory.load64_congr fun offset inside => same _ (apart offset inside)

theorem SameOutside.store64 (address word : Nat) :
    SameOutside stale (memory.store64 address word) (memory'.store64 address word) :=
  fun other outside => Memory.storeBytes_congr (same other outside)

theorem SameOutside.memset (dst siz : Nat) (val : UInt8) :
    SameOutside (stale \ Set.Ico dst (dst + siz)) (Utilities.memset memory dst val siz)
      (Utilities.memset memory' dst val siz) := by
  intro address outside
  rw [memset_apply, memset_apply]
  split
  · rfl
  next beyond => exact same address fun member => outside ⟨member, beyond⟩

end

end

variable {σ : Type}

def tableBytes (root : Nat) (vm : Vmem σ) : Set Nat :=
  { address | ∃ table ∈ tables root vm, address ∈ frameBytes table }

/-- Two states that differ in stale bytes outside the tables. -/
structure Twin (root : Nat) (stale : Set Nat) (vm vm' : Vmem σ) : Prop where
  pages : vm'.pages = vm.pages
  bytes : SameOutside (stale \ tableBytes root vm) vm.memory vm'.memory

section
variable {root table va lv : Nat} {stale : Set Nat} {vm vm' : Vmem σ}

theorem Twin.same (twin : Twin root stale vm vm') : SameTables root vm vm' := fun table isTable _ inside =>
  twin.bytes _ fun outside => outside.2 ⟨table, isTable, frame_byte_mem table inside⟩

theorem Twin.of_tables {after after' : Vmem σ} (pages : after'.pages = after.pages)
    (nodes : tables root after = tables root vm)
    (same : SameOutside (stale \ tableBytes root vm) after.memory after'.memory) :
    Twin root stale after after' := by
  refine ⟨pages, ?_⟩
  rw [tableBytes, nodes]
  exact same

end

def TwinResult (root : Nat) (stale : Set Nat) {α : Type} (one two : α × Vmem σ) : Prop :=
  two.1 = one.1 ∧ Twin root stale one.2 two.2

section
variable {root table va lv : Nat} {stale : Set Nat} {vm vm' : Vmem σ}

theorem Twin.graft {fresh word place : Nat} {pages : σ} (twin : Twin root stale vm vm')
    (nodes : tables root ⟨(memset vm.memory (frameVa fresh) 0 pageSize).store64 place word, pages⟩ =
      insert fresh (tables root vm)) :
    Twin root stale ⟨(memset vm.memory (frameVa fresh) 0 pageSize).store64 place word, pages⟩
      ⟨(memset vm'.memory (frameVa fresh) 0 pageSize).store64 place word, pages⟩ := by
  refine ⟨rfl, ((twin.bytes.memset _ _ _).store64 _ _).mono ?_⟩
  rintro address ⟨⟨isStale, notTable⟩, notFresh⟩
  refine ⟨isStale, ?_⟩
  rintro ⟨table, member, inside⟩
  rw [nodes] at member
  rcases member with rfl | old
  · exact notFresh inside
  · exact notTable ⟨table, old, inside⟩

theorem Twin.write {entry : Nat} (twin : Twin root stale vm vm')
    (tree : sv39.Tree (cells vm.memory) root) (place : EntryAt root va entry vm) (word : Nat) (pages : σ) :
    sv39.Tree (cells (vm.memory.store64 entry word)) root ∧
      Twin root stale ⟨vm.memory.store64 entry word, pages⟩ ⟨vm'.memory.store64 entry word, pages⟩ := by
  obtain ⟨bottom, reached, rfl⟩ := place
  have kept : ∀ other ≠ bottom, ∀ pn,
      cells (vm.memory.store64 (entryAddr (frameVa bottom) (digit 0 va)) word) other pn =
        cells vm.memory other pn :=
    fun other different pn => cells_store_other (fun same => different same.1)
  exact ⟨tree.write rfl reached kept, .of_tables rfl (tree.nodes_write rfl reached kept) (twin.bytes.store64 _ _)⟩

theorem Twin.load_entry {entry : Nat} (twin : Twin root stale vm vm')
    (place : EntryAt root va entry vm) : vm'.memory.load64 entry = vm.memory.load64 entry := by
  obtain ⟨bottom, reached, rfl⟩ := place
  exact twin.same.cells_eq ⟨tablePath 0 va, Nat.le_refl 2, reached⟩ (digit 0 va)

variable [PageAllocator σ] [LawfulPages σ]

theorem Twin.walkFrom (twin : Twin root stale vm vm') (backed : Backed root vm) (level : lv ≤ 2)
    (reached : sv39.follow (cells vm.memory) root (tablePath lv va) = some table) :
    Result.Matches (TwinResult root stale) (Memory.walkFrom va true lv (frameVa table) vm)
      (Memory.walkFrom va true lv (frameVa table) vm') := by
  induction lv generalizing table vm vm' with
  | zero => exact .ok ⟨rfl, twin⟩
  | succ lv ih =>
    have above : (tablePath (lv + 1) va).length < 2 := by
      rw [tablePath_length]
      omega
    have next := follow_tablePath (by omega) reached
    have word : vm'.memory.load64 (entryAddr (frameVa table) (vaGetPn (lv + 1) va)) =
        vm.memory.load64 (entryAddr (frameVa table) (vaGetPn (lv + 1) va)) :=
      twin.same.cells_eq ⟨_, Nat.le_of_lt above, reached⟩ (digit (lv + 1) va)
    simp only [Memory.walkFrom, word]
    split
    next valid =>
      rw [pmaPa2Va_ptePa]
      exact ih twin backed (by omega) (next.trans (if_pos valid))
    next invalid =>
      simp only [Bool.not_true, Bool.false_eq_true, if_false]
      rw [twin.pages]
      apply (Result.Matches.refl _).bind
      rintro ⟨address, pages⟩ _ alloc _ rfl
      dsimp only
      split
      next => exact .ok ⟨rfl, .of_tables rfl rfl twin.bytes⟩
      next notNull =>
        obtain ⟨_, _, ⟨null, _⟩ | ⟨fresh, rfl, _⟩⟩ := LawfulPages.alloc backed.sound alloc
        · exact absurd null notNull
        obtain ⟨_, within, nodes, hung, _⟩ := backed.walk_graft (by omega) reached
          (if_neg invalid) (granted_page backed.sound alloc)
        exact ih (twin.graft nodes) within.backed (by omega) hung

variable {flags pa : Nat}

theorem entry_lt (bounded : pa < 2 ^ 64) (small : flags < 1024) : paPte pa ||| pteFlagV ||| flags < 2 ^ 64 := by
  have low : pteFlagV ||| flags < 2 ^ 10 := Nat.or_lt_two_pow (by decide) small
  rw [Nat.or_assoc, paPte_or pa low]
  omega

section
variable (twin : Twin root stale vm vm')
include twin

theorem Twin.mapFrom {count : Nat} (backed : Backed root vm) (small : flags < 1024) (bounded : pa < 2 ^ 64) :
    Result.Matches (TwinResult root stale) (Memory.mapFrom (frameVa root) flags count va pa vm)
      (Memory.mapFrom (frameVa root) flags count va pa vm') := by
  induction count generalizing va pa vm vm' with
  | zero => exact .ok ⟨rfl, twin⟩
  | succ count ih =>
    rw [Memory.mapFrom, Memory.mapFrom]
    apply (twin.walkFrom backed (Nat.le_refl 2) rfl).bind
    rintro ⟨entry, walked⟩ ⟨entry', walked'⟩ walk _ ⟨same, twin⟩
    obtain ⟨within, found, _⟩ := backed.walkFrom (Nat.le_refl 2) rfl walk
    dsimp only at same twin ⊢
    subst same
    rcases found with rfl | place
    · exact .ok ⟨rfl, twin⟩
    rw [if_neg place.ne_zero, if_neg place.ne_zero, twin.load_entry place]
    split
    · exact .error _
    have written := (twin.write within.backed.tree place (paPte pa ||| pteFlagV ||| flags) walked.pages).2
    obtain ⟨bottom, reached, rfl⟩ := place
    have writeWithin := (@Backed.write _ _ _ _ _ _ _ _ (digit 0 va) within.backed rfl reached
      (entry_lt bounded small)).1
    rw [twin.pages]
    exact ih written writeWithin.backed (ulong_lt _)

theorem Twin.vmMappages {siz : Nat} (backed : Backed root vm) (small : flags < 1024) (bounded : pa < 2 ^ 64) :
    Result.Matches (TwinResult root stale) (Memory.vmMappages (frameVa root) va pa siz flags vm)
      (Memory.vmMappages (frameVa root) va pa siz flags vm') := by
  unfold Memory.vmMappages
  split
  · exact .ok ⟨rfl, twin⟩
  · exact twin.mapFrom backed small bounded

omit [LawfulPages σ] in
theorem Twin.unmapFrom {doFree : Bool} {count : Nat} (tree : sv39.Tree (cells vm.memory) root) :
    Result.Matches (fun one two => sv39.Tree (cells one.memory) root ∧ Twin root stale one two)
      (Memory.unmapFrom (frameVa root) doFree count va vm)
      (Memory.unmapFrom (frameVa root) doFree count va vm') := by
  induction count generalizing va vm vm' with
  | zero => exact .ok ⟨tree, twin⟩
  | succ count ih =>
    rw [Memory.unmapFrom, Memory.unmapFrom, Memory.vmWalk_find, Memory.vmWalk_find,
      twin.same.follow_eq (show (tablePath 0 va).length ≤ 2 from Nat.le_refl 2)]
    cases reached : sv39.follow (cells vm.memory) root (tablePath 0 va) with
    | none => exact .error _
    | some bottom =>
      have place : EntryAt root va (entryAddr (frameVa bottom) (digit 0 va)) vm := ⟨bottom, reached, rfl⟩
      simp only [Result.ok_bind, Option.elim_some, twin.load_entry place]
      split
      · exact .error _
      rw [twin.pages]
      split
      · apply (Result.Matches.refl _).bind
        rintro pages _ _ _ rfl
        obtain ⟨nextTree, next⟩ := twin.write tree place 0 pages
        exact ih next nextTree
      · obtain ⟨nextTree, next⟩ := twin.write tree place 0 vm.pages
        exact ih next nextTree

omit [LawfulPages σ] in
theorem Twin.vmUnmappages {doFree : Bool} {count : Nat} (tree : sv39.Tree (cells vm.memory) root) :
    Result.Matches (fun one two => sv39.Tree (cells one.memory) root ∧ Twin root stale one two)
      (Memory.vmUnmappages (frameVa root) va count doFree vm)
      (Memory.vmUnmappages (frameVa root) va count doFree vm') := by
  unfold Memory.vmUnmappages
  split
  · exact .error _
  · exact twin.unmapFrom tree

end

end

end Kalorona.Memory
