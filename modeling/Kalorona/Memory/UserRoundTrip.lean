import Kalorona.Memory.UserCopy

namespace Kalorona.Memory

open Kalorona.Data Kalorona.Utilities

/-! # Copying out and in again

The copies find each byte by a walk of its own through tables that they do not change.
-/

variable {σ : Type} [PageAllocator σ]

def copiedPages (va size : Nat) : Set Nat := { vpn | ∃ i < size, vpn = ulong (va + i) / pageSize }

/-- The range is mapped for the user, each page to its own frame. -/
structure UserRange (root va size : Nat) (vm : Vmem σ) : Prop where
  mapped : ∀ vpn ∈ copiedPages va size, ∃ entry, pageMap (frameVa root) vm vpn = some entry ∧
    entry.2 &&& userPageFlags = userPageFlags
  distinct : ∀ vpn ∈ copiedPages va size, ∀ other ∈ copiedPages va size, ∀ entry otherEntry,
    pageMap (frameVa root) vm vpn = some entry → pageMap (frameVa root) vm other = some otherEntry →
    frameOf entry = frameOf otherEntry → vpn = other
  notTable : ∀ vpn ∈ copiedPages va size, ∀ entry, pageMap (frameVa root) vm vpn = some entry →
    frameOf entry ∉ tables root vm

def BufferApart (root va size : Nat) (vm : Vmem σ) (buffer : Nat) : Prop :=
  ∀ i < size, ∀ vpn ∈ copiedPages va size, ∀ entry, pageMap (frameVa root) vm vpn = some entry →
    ulong (buffer + i) ∉ frameBytes (frameOf entry)

def BufferNotTable (root size : Nat) (vm : Vmem σ) (buffer : Nat) : Prop :=
  ∀ i < size, ∀ table ∈ tables root vm, ulong (buffer + i) ∉ frameBytes table

def userByte (root va : Nat) (vm : Vmem σ) (i : Nat) : Nat :=
  (pageMap (frameVa root) vm (ulong (va + i) / pageSize)).elim 0
    fun entry => frameVa (frameOf entry) + ulong (va + i) % pageSize

section
variable {root user kernel size : Nat} {vm after : Vmem σ}

theorem SameTables.walkEntry_eq (same : SameTables root vm after) (va : Nat) :
    walkEntry (frameVa root) va after = walkEntry (frameVa root) va vm := by
  have short : (tablePath 0 va).length ≤ 2 := Nat.le_of_eq (tablePath_length 0 va)
  rw [Memory.walkEntry_eq, Memory.walkEntry_eq, same.follow_eq short]
  cases reached : sv39.follow (cells vm.memory) root (tablePath 0 va) with
  | none => rw [Option.map_none, Option.map_none]
  | some bottom => exact congrArg some (same.cells_eq ⟨_, short, reached⟩ _)

theorem walkEntry_mapped {addr : Nat} {entry : Nat × Nat}
    (mapped : pageMap (frameVa root) vm (addr / pageSize) = some entry) :
    ∃ pte, walkEntry (frameVa root) addr vm = some pte ∧
      userPointer pte addr = frameVa (frameOf entry) + addr % pageSize := by
  have base : pmaPa2Va (ulong (entry.1 <<< pageShift)) = frameVa (frameOf entry) := by
    unfold ulong frameVa frameOf pageSize
    rw [pmaPa2Va_mod (Nat.mod_lt _ (by decide)), shiftLeft_pageShift]
    omega
  have translated := vmTranslate_mapped mapped
  rw [vmTranslate_eq, base] at translated
  have pointer := Except.ok.inj translated
  have notNull := frameVa_ne_zero (frameOf entry)
  cases found : walkEntry (frameVa root) addr vm with
  | none =>
    rw [found, Option.elim_none] at pointer
    omega
  | some pte =>
    rw [found] at pointer
    exact ⟨pte, rfl, pointer⟩

theorem userCopy_moves {transfer : Nat → Nat → Memory → Memory} {reads writes pointers : Nat → Nat}
    (userSmall : user < 2 ^ 64) (kernelSmall : kernel < 2 ^ 64)
    (reached : ∀ i < size, ∃ pte, walkEntry (frameVa root) (ulong (user + i)) vm = some pte ∧
      userPointer pte (ulong (user + i)) = pointers i)
    (moves : ∀ i < size, ∀ memory : Memory, transfer (pointers i) (ulong (kernel + i)) memory =
      memory.store (writes i) (memory (reads i)))
    (notTable : ∀ i < size, ∀ table ∈ tables root vm, writes i ∉ frameBytes table)
    (apart : ∀ i < size, ∀ j < size, reads i ≠ writes j)
    (injective : ∀ i < size, ∀ j < size, writes i = writes j → i = j) :
    ∃ after, userCopy transfer (frameVa root) user kernel size vm = .ok (0, after) ∧
      (∀ i < size, after.memory (writes i) = vm.memory (reads i)) ∧
      ∀ address, (∀ i < size, address ≠ writes i) → after.memory address = vm.memory address := by
  induction size with
  | zero => exact ⟨vm, rfl, fun i impossible => absurd impossible (Nat.not_lt_zero i), fun _ _ => rfl⟩
  | succ size ih =>
    obtain ⟨middle, run, moved, kept⟩ := ih (fun i below => reached i (by omega))
      (fun i below => moves i (by omega)) (fun i below => notTable i (by omega))
      (fun i below j other => apart i (by omega) j (by omega))
      (fun i below j other => injective i (by omega) j (by omega))
    have tablesKept : SameTables root vm middle := by
      intro table member offset inside
      refine kept _ fun i below same => ?_
      exact notTable i (by omega) table member (same ▸ frame_byte_mem table inside)
    obtain ⟨pte, found, pointer⟩ := reached size (by omega)
    have next := userCopy_next userSmall kernelSmall run
    rw [tablesKept.walkEntry_eq, found, Option.elim_some, pointer, moves size (by omega),
      kept (reads size) (fun i below => apart size (by omega) i (by omega))] at next
    refine ⟨_, next, fun i below => ?_, fun address elsewhere => ?_⟩
    · by_cases last : i = size
      · subst last
        exact Memory.store_same _ _
      · rw [← moved i (by omega)]
        exact Memory.store_other _ fun same => last (injective i below size (by omega) same)
    · rw [← kept address fun i below => elsewhere i (by omega)]
      exact Memory.store_other _ (elsewhere size (by omega))

variable {i va : Nat}

theorem copiedPages_mem (below : i < size) : ulong (va + i) / pageSize ∈ copiedPages va size := ⟨i, below, rfl⟩

variable (range : UserRange root va size vm)
include range

theorem UserRange.byte (below : i < size) :
    ∃ entry, pageMap (frameVa root) vm (ulong (va + i) / pageSize) = some entry ∧
      userByte root va vm i = frameVa (frameOf entry) + ulong (va + i) % pageSize := by
  obtain ⟨entry, found, _⟩ := range.mapped _ (copiedPages_mem below)
  refine ⟨entry, found, ?_⟩
  rw [userByte, found, Option.elim_some]

theorem UserRange.byte_mem {entry : Nat × Nat} (below : i < size)
    (found : pageMap (frameVa root) vm (ulong (va + i) / pageSize) = some entry) :
    userByte root va vm i ∈ frameBytes (frameOf entry) := by
  obtain ⟨_, again, byte⟩ := range.byte below
  cases found.symm.trans again
  rw [byte]
  exact frame_byte_mem _ (Nat.mod_lt _ (by decide))

theorem UserRange.byte_injective {j : Nat} (small : size < 2 ^ 64) (below : i < size) (otherBelow : j < size)
    (same : userByte root va vm i = userByte root va vm j) : i = j := by
  obtain ⟨entry, found, byte⟩ := range.byte below
  obtain ⟨other, otherFound, otherByte⟩ := range.byte otherBelow
  have inside := range.byte_mem below found
  rw [same] at inside
  have frames := frameBytes_unique inside (range.byte_mem otherBelow otherFound)
  have pages := range.distinct _ (copiedPages_mem below) _ (copiedPages_mem otherBelow) _ _ found otherFound frames
  rw [byte, otherByte, frames] at same
  have offsets := Nat.add_left_cancel same
  unfold ulong pageSize at pages offsets
  omega

theorem UserRange.byte_notTable {table : Nat} (below : i < size) (member : table ∈ tables root vm) :
    userByte root va vm i ∉ frameBytes table := by
  intro inside
  obtain ⟨entry, found, _⟩ := range.byte below
  cases frameBytes_unique (range.byte_mem below found) inside
  exact range.notTable _ (copiedPages_mem below) entry found member

theorem BufferApart.ne_byte {buffer j : Nat} (isApart : BufferApart root va size vm buffer)
    (below : i < size) (otherBelow : j < size) :
    ulong (buffer + i) ≠ userByte root va vm j := by
  intro same
  obtain ⟨entry, found, _⟩ := range.byte otherBelow
  have inside := range.byte_mem otherBelow found
  rw [← same] at inside
  exact isApart i below _ (copiedPages_mem otherBelow) entry found inside

theorem UserRange.walk (below : i < size) :
    ∃ pte, walkEntry (frameVa root) (ulong (va + i)) vm = some pte ∧
      userPointer pte (ulong (va + i)) = userByte root va vm i := by
  obtain ⟨entry, found, byte⟩ := range.byte below
  rw [byte]
  exact walkEntry_mapped found

theorem UserRange.copyout {src : Nat} (small : size < 2 ^ 64) (vaSmall : va < 2 ^ 64) (srcSmall : src < 2 ^ 64)
    (srcApart : BufferApart root va size vm src) :
    ∃ out, vmMemcpyout (frameVa root) va src size vm = .ok (0, out) ∧
      (∀ i < size, out.memory (userByte root va vm i) = vm.memory (ulong (src + i))) ∧
      ∀ address, (∀ i < size, address ≠ userByte root va vm i) →
        out.memory address = vm.memory address := by
  rw [vmMemcpyout_eq]
  apply userCopy_moves vaSmall srcSmall (fun i below => range.walk below)
  · exact fun _ _ _ => rfl
  · exact fun i below table member => range.byte_notTable below member
  · exact fun i below j otherBelow => srcApart.ne_byte range below otherBelow
  · exact fun i below j otherBelow => range.byte_injective small below otherBelow

theorem UserRange.copyin {dst : Nat} (small : size < 2 ^ 64) (vaSmall : va < 2 ^ 64) (dstSmall : dst < 2 ^ 64)
    (dstApart : BufferApart root va size vm dst) (dstNotTable : BufferNotTable root size vm dst)
    (same : SameTables root vm after) :
    ∃ final, vmMemcpyin (frameVa root) dst va size after = .ok (0, final) ∧
      ∀ i < size, final.memory (ulong (dst + i)) = after.memory (userByte root va vm i) := by
  rw [vmMemcpyin_eq]
  have moved := @userCopy_moves _ _ root va dst size after
    (fun user kernel memory => memory.store kernel (memory user)) (userByte root va vm)
    (fun i => ulong (dst + i)) (userByte root va vm) vaSmall dstSmall
    (fun i below => by rw [same.walkEntry_eq]; exact range.walk below) (fun _ _ _ => rfl)
    (by rw [same.tables_eq]; exact dstNotTable)
    (fun i below j otherBelow => (dstApart.ne_byte range otherBelow below).symm)
    (fun i below j otherBelow equal => by unfold ulong at equal; omega)
  obtain ⟨final, run, bytes, _⟩ := moved
  exact ⟨final, run, bytes⟩

end

/-- What is copied out is in the frames of the range, and comes back when it is copied in. -/
theorem user_copy_round_trip {root : Nat} {va src dst size : UInt64} {vm : Vmem σ}
    (range : UserRange root va.toNat size.toNat vm) (srcApart : BufferApart root va.toNat size.toNat vm src.toNat)
    (dstApart : BufferApart root va.toNat size.toNat vm dst.toNat)
    (dstNotTable : BufferNotTable root size.toNat vm dst.toNat) : ∃ out after,
      vmMemcpyout (frameVa root) va.toNat src.toNat size.toNat vm = .ok (0, out) ∧
      (∀ i < size.toNat, out.memory (userByte root va.toNat vm i) = vm.memory (ulong (src.toNat + i))) ∧
      (∀ address, (∀ i < size.toNat, address ≠ userByte root va.toNat vm i) →
        out.memory address = vm.memory address) ∧
      vmMemcpyin (frameVa root) dst.toNat va.toNat size.toNat out = .ok (0, after) ∧
      ∀ i < size.toNat, after.memory (ulong (dst.toNat + i)) = vm.memory (ulong (src.toNat + i)) := by
  obtain ⟨out, outRun, written, kept⟩ := range.copyout size.toNat_lt va.toNat_lt src.toNat_lt srcApart
  have same : SameTables root vm out := by
    intro table member offset inside
    refine kept _ fun i below same => ?_
    exact range.byte_notTable below member (same ▸ frame_byte_mem table inside)
  obtain ⟨after, inRun, bytes⟩ := range.copyin size.toNat_lt va.toNat_lt dst.toNat_lt dstApart dstNotTable same
  refine ⟨out, after, outRun, written, kept, inRun, fun i below => ?_⟩
  rw [bytes i below, written i below]

section
variable {vm : Vmem Kmem} {va size frame : Nat}
  (pages : ∀ vpn ∈ copiedPages va size, pageMap (frameVa 1) vm vpn = some (5 + vpn, 23) ∧ vpn < 2)
include pages

theorem small_userRange (few : ∀ table ∈ tables 1 vm, table ≤ 3) : UserRange 1 va size vm where
  mapped vpn member := ⟨_, (pages vpn member).1, show 23 &&& userPageFlags = userPageFlags by decide⟩
  distinct vpn member other otherMember _ _ found otherFound same := by
    obtain ⟨isPage, low⟩ := pages vpn member
    obtain ⟨otherPage, otherLow⟩ := pages other otherMember
    cases isPage.symm.trans found
    cases otherPage.symm.trans otherFound
    unfold frameOf at same
    omega
  notTable vpn member entry found isTable := by
    obtain ⟨isPage, low⟩ := pages vpn member
    cases isPage.symm.trans found
    have few := few _ isTable
    unfold frameOf at few
    omega

theorem small_bufferApart (small : frame < 2 ^ 26) (short : size ≤ pageSize)
    (other : ∀ vpn ∈ copiedPages va size, frame ≠ 5 + vpn) : BufferApart 1 va size vm (frameVa frame) := by
  intro i below vpn member entry found inside
  obtain ⟨isPage, low⟩ := pages vpn member
  cases isPage.symm.trans found
  have apart := other vpn member
  unfold pageSize at short
  simp only [frameBytes, frameVa, frameOf, vaKernelBegin, pageSize, ulong, Set.mem_Ico] at inside
  omega

end

theorem small_bufferNotTable {vm : Vmem Kmem} {size frame : Nat} (few : ∀ table ∈ tables 1 vm, table ≤ 3)
    (small : frame < 2 ^ 26) (short : size ≤ pageSize) (high : 3 < frame) :
    BufferNotTable 1 size vm (frameVa frame) := by
  intro i below table member inside
  have low := few table member
  unfold pageSize at short
  simp only [frameBytes, frameVa, vaKernelBegin, pageSize, ulong, Set.mem_Ico] at inside
  omega

theorem chain_tables {table : Nat} {kmem : Kmem}
    (member : table ∈ tables 1 (⟨chain (5 * 1024 + 23), kmem⟩ : Vmem Kmem)) : table ≤ 3 := by
  obtain ⟨path, short, reached⟩ := member
  have short : path.length ≤ 2 := short
  obtain ⟨rfl, _⟩ := chain_follow (by decide) short reached
  omega

theorem first_two_bytes {vpn : Nat} (member : vpn ∈ copiedPages 0 2) : vpn = 0 := by
  obtain ⟨i, below, rfl⟩ := member
  unfold ulong pageSize
  omega

/-- Below the third table of the chain two pages are mapped. -/
def twoPages : Vmem Kmem :=
  ⟨(chain (5 * 1024 + 23)).store64 (entryAddr (frameVa 3) (⟨1, by decide⟩ : Fin 512)) (6 * 1024 + 23),
    kmemOfBootmem (smallNode 16 0)⟩

theorem twoPages_tables {table : Nat} (member : table ∈ tables 1 twoPages) : table ≤ 3 := by
  rw [tables, Radix.nodes_congr fun short => Radix.follow_congr (fun above reached => ?_) short] at member
  · exact @chain_tables table twoPages.pages member
  · have above : _ < 2 := above
    obtain ⟨rfl, _⟩ := chain_follow (by decide) (Nat.le_of_lt above) reached
    exact fun pn => cells_store_other (by omega)

theorem boundary_pages {vpn : Nat} (member : vpn ∈ copiedPages 4094 4) :
    pageMap (frameVa 1) twoPages vpn = some (5 + vpn, 23) ∧ vpn < 2 := by
  obtain ⟨i, below, rfl⟩ := member
  match i, below with
  | 0, _ | 1, _ | 2, _ | 3, _ => decide +kernel

/-- The four bytes lie on both sides of a page boundary. -/
theorem user_copy_round_trip_two_pages : ∃ vm out after : Vmem Kmem, UserRange 1 4094 4 vm ∧
      vmMemcpyout (frameVa 1) 4094 (frameVa 1) 4 vm = .ok (0, out) ∧
      vmMemcpyin (frameVa 1) (frameVa 7) 4094 4 out = .ok (0, after) ∧
      ∀ i < 4, after.memory (ulong (frameVa 7 + i)) = vm.memory (ulong (frameVa 1 + i)) := by
  have range := small_userRange (fun _ => boundary_pages) fun _ => twoPages_tables
  have isApart {frame : Nat} (small : frame < 2 ^ 26) (other : frame < 5 ∨ 7 ≤ frame) :
      BufferApart 1 4094 4 twoPages (frameVa frame) := by
    refine small_bufferApart (fun _ => boundary_pages) small (by decide) fun vpn member => ?_
    have low := (boundary_pages member).2
    omega
  obtain ⟨out, after, outRun, _, _, inRun, same⟩ :=
    @user_copy_round_trip Kmem _ 1 4094 (UInt64.ofNat (frameVa 1)) (UInt64.ofNat (frameVa 7)) 4 twoPages range
      (@isApart 1 (by decide) (by decide)) (@isApart 7 (by decide) (by decide))
      (@small_bufferNotTable _ 4 7 (fun _ => twoPages_tables) (by decide) (by decide) (by decide))
  exact ⟨_, out, after, range, outRun, inRun, same⟩

/-- A copy into the second table makes the next walk fail. -/
theorem copyin_breaks_table : ∃ vm out after : Vmem Kmem, Backed 1 vm ∧ UserRange 1 0 2 vm ∧
      BufferApart 1 0 2 vm (frameVa 6) ∧ BufferApart 1 0 2 vm (frameVa 2) ∧
      vmMemcpyout (frameVa 1) 0 (frameVa 6) 2 vm = .ok (0, out) ∧
      vmMemcpyin (frameVa 1) (frameVa 2) 0 2 out = .ok (-1, after) := by
  obtain ⟨kmem, node, memory, boot, sound, begins, _⟩ := sixteen_pages_sound
  have spaces := @chain_spaces kmem sound begins 5 23 ⟨by decide, by decide, by decide, by decide⟩
  have backed : Backed 1 (⟨chain (5 * 1024 + 23), kmem⟩ : Vmem Kmem) :=
    ⟨spaces.srcTree, sound, fun _ member => (spaces.srcTables member).1⟩
  obtain ⟨_, again, ⟨_, out⟩, outRun, rfl, ⟨_, after⟩, inRun, rfl⟩ :
      ∃ boot, kmemPageManagerInit (smallNode 16 0) (fun _ => 0) = .ok boot ∧
        ∃ out, vmMemcpyout (frameVa 1) 0 (frameVa 6) 2 ⟨chain (5 * 1024 + 23), boot.1⟩ = .ok out ∧ out.1 = 0 ∧
          ∃ final, vmMemcpyin (frameVa 1) (frameVa 2) 0 2 out.2 = .ok final ∧ final.1 = -1 := by decide +kernel
  cases boot.symm.trans again
  have pages : ∀ vpn ∈ copiedPages 0 2, pageMap (frameVa 1) (⟨chain (5 * 1024 + 23), kmem⟩ : Vmem Kmem) vpn =
      some (5 + vpn, 23) ∧ vpn < 2 := by
    intro vpn member
    rw [first_two_bytes member]
    exact ⟨chain_source ⟨by decide, by decide, by decide, by decide⟩, by decide⟩
  exact ⟨_, out, after, backed, small_userRange pages fun _ => chain_tables,
    small_bufferApart pages (by decide) (by decide) fun _ member => by rw [first_two_bytes member]; decide,
    small_bufferApart pages (by decide) (by decide) fun _ _ => by omega, outRun, inRun⟩

end Kalorona.Memory
