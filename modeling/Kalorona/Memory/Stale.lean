import Kalorona.Memory.UvmcpyRuns

namespace Kalorona.Memory

open Kalorona.Data Kalorona.Utilities

/-! # Stale bytes in a forked address space

`vm_uvmcpy_recursive` does not clear the page that it makes a sub-table, so what the page held behind
its links is read as entries of the destination.
-/

open LawfulPages (Sound inUse)

section
variable {σ : Type} [PageAllocator σ] [LawfulPages σ] {src dst : Nat} {start vm vm' : Vmem σ}

def view (root : Nat) (vm : Vmem σ) (vpn : Nat) : Option (Nat × (Fin 4096 → UInt8)) :=
  (pageMap (frameVa root) vm vpn).map (fun entry =>
    (entry.2, fun offset => vm.memory (frameVa (frameOf entry) + offset)))

/-- Runs from states that agree on the pages in use give the same destination, and no page that
neither space maps is mapped. -/
def IgnoresStale (src dst : Nat) (vm : Vmem σ) : Prop :=
  ∀ one two after after', Agree vm one → Agree vm two →
    vmUvmcpy (frameVa src) (frameVa dst) false one = .ok after →
    vmUvmcpy (frameVa src) (frameVa dst) false two = .ok after' →
    view dst after = view dst after' ∧
      ∀ vpn, pageMap (frameVa src) vm vpn = none → pageMap (frameVa dst) vm vpn = none →
        pageMap (frameVa dst) after vpn = none

theorem Agree.same {root : Nat} (agree : Agree vm vm') (owned : tables root vm ⊆ inUse vm.pages) :
    SameTables root vm vm' := fun table member => agree.bytes table (owned member)

theorem Agree.grants (agree : Agree vm vm') (owned : tables src vm ⊆ inUse vm.pages)
    (grants : Grants (demand vm.memory src) vm.pages) : Grants (demand vm'.memory src) vm'.pages := by
  rwa [agree.pages, demand, @requests_congr vm.memory vm'.memory (fun _ => false) _ src 2 src [] rfl rfl
    (fun short reached => (agree.same owned).cells_eq ⟨_, short, reached⟩) fun _ _ _ => rfl]

theorem Spaces.agree (spaces : Spaces src dst vm) (agree : Agree vm vm') : Spaces src dst vm' := by
  have sameDst := agree.same spaces.backed.used
  have sameSrc : SameTables src vm vm' := agree.same fun _ member => (spaces.srcTables member).1
  have pages := agree.pages
  refine ⟨⟨sameDst.tree spaces.backed.tree, pages ▸ spaces.backed.sound, ?_⟩, ?_, ?_,
    sameSrc.tree spaces.srcTree, ?_, ?_⟩
  · rw [sameDst.tables_eq, pages]
    exact spaces.backed.used
  · rw [sameDst.tables_eq]
    rintro table ⟨path, short, reached⟩ pn
    rw [sameDst.cells_eq ⟨path, short, reached⟩]
    exact spaces.clean table ⟨path, short, reached⟩ pn
  · rw [sameDst.tables_eq, pages]
    intro key entry long mapped
    exact spaces.dstFrames key entry long ((sameDst.value_eq long).symm.trans mapped)
  · rw [sameDst.tables_eq, sameSrc.tables_eq, pages]
    exact spaces.srcTables
  · rw [pages]
    intro key entry long mapped
    exact spaces.srcFrames key entry long ((sameSrc.value_eq long).symm.trans mapped)

theorem exists_agree (vm : Vmem σ) (stale : Memory) :
    ∃ vm', Agree vm vm' ∧ ∀ frame ∉ inUse vm.pages, SameBytes vm'.memory stale frame frame := by
  classical
  have frame_at : ∀ frame offset, offset < 4096 → (frameVa frame + offset - vaKernelBegin) / pageSize = frame := by
    intro frame offset inside
    unfold frameVa pageSize
    omega
  refine ⟨⟨fun address => if (address - vaKernelBegin) / pageSize ∈ inUse vm.pages then
    vm.memory address else stale address, vm.pages⟩, ⟨rfl, ?_⟩, ?_⟩
  · intro frame used offset inside
    dsimp only
    rw [frame_at frame offset inside, if_pos used]
  · intro frame unused offset inside
    dsimp only
    rw [frame_at frame offset inside, if_neg unused]

def selfPointers : Memory := fun address =>
  UInt8.ofNat (((address - vaKernelBegin) / pageSize * 1024 + 1) / 256 ^ ((address - vaKernelBegin) % 8))

theorem cells_selfPointers {frame : Nat} (bounded : frame < 2 ^ 26) (pn : Fin 512) :
    cells selfPointers frame pn = frame * 1024 + 1 := by
  have digits : ∀ offset < 8, selfPointers (entryAddr (frameVa frame) pn + offset) =
      UInt8.ofNat ((frame * 1024 + 1) / 256 ^ offset) := by
    intro offset inside
    have page : (entryAddr (frameVa frame) pn + offset - vaKernelBegin) / pageSize = frame := by
      unfold entryAddr frameVa pageSize
      omega
    have place : (entryAddr (frameVa frame) pn + offset - vaKernelBegin) % 8 = offset := by
      unfold entryAddr frameVa pageSize
      omega
    rw [selfPointers, page, place]
  rw [cells, Memory.load64, Memory.loadBytes_digits digits]
  exact Nat.mod_eq_of_lt (by omega)

/-- A table in use whose entries point to itself, behind the two words that were cleared. -/
def SelfTable (vm : Vmem σ) (table : Nat) : Prop :=
  table ∈ inUse vm.pages ∧ table < 2 ^ 26 ∧ ∀ pn : Fin 512, 2 ≤ pn.val →
    cells vm.memory table pn = table * 1024 + 1

/-- A page that was taken since the start, all of whose entries point to such pages. -/
def Inward (start vm : Vmem σ) (table : Nat) : Prop :=
  table ∈ inUse vm.pages \ inUse start.pages ∧ ∀ pn, cells vm.memory table pn = 0 ∨
    pteFrame (cells vm.memory table pn) ∈ inUse vm.pages \ inUse start.pages

/-- The destination after the entries at the paths in `done`: where a pointer of the source met
an empty entry, there is now a self-pointing table. -/
structure Stamped (src dst : Nat) (start : Vmem σ) (done : Set Route) (vm : Vmem σ) :
    Prop where
  sound : Sound vm.pages
  used : inUse start.pages ⊆ inUse vm.pages
  unused : ∀ frame ∉ inUse vm.pages, frame < 2 ^ 26 →
    ∀ pn, cells vm.memory frame pn = frame * 1024 + 1
  kept : ∀ table ∈ inUse start.pages, ∀ pn, cells start.memory table pn ≠ 0 →
    cells vm.memory table pn = cells start.memory table pn
  pending : ∀ table ∈ inUse start.pages, ∀ pn, (∀ path, path.length ≤ 2 →
    sv39.follow (cells start.memory) dst path = some table → pn :: path ∉ done) →
    cells vm.memory table pn = cells start.memory table pn
  stamped : ∀ path pn srcTable dstTable, pn :: path ∈ done → path.length < 2 →
    sv39.follow (cells start.memory) src path = some srcTable →
    sv39.follow (cells start.memory) dst path = some dstTable →
    cells start.memory srcTable pn &&& pteFlagV ≠ 0 → cells start.memory dstTable pn = 0 →
    ∃ table, SelfTable vm table ∧ sv39.child (cells vm.memory dstTable pn) = some table

/-- The table of the destination at a path: one it had, or a page that was taken since. -/
def StampedAt (dst : Nat) (start : Vmem σ) (path : Route) (table : Nat) (vm : Vmem σ) : Prop :=
  (path.length ≤ 2 ∧ sv39.follow (cells start.memory) dst path = some table) ∨
    (sv39.follow (cells start.memory) dst path = none ∧
      table ∈ inUse vm.pages \ inUse start.pages ∧ (path.length < 2 → Inward start vm table))

section
variable {done : Set Route} {path : Route} {pn : Fin 512}
  {srcTable dstTable fresh pte : Nat} {pages : σ} {after : Vmem σ}

theorem StampedAt.used (begins : Spaces src dst start) (stamped : Stamped src dst start done vm)
    (place : StampedAt dst start path dstTable vm) : dstTable ∈ inUse vm.pages := by
  rcases place with ⟨short, reached⟩ | ⟨_, taken, _⟩
  · exact stamped.used (begins.backed.used ⟨path, short, reached⟩)
  · exact taken.1

theorem Stamped.word (begins : Spaces src dst start) (stamped : Stamped src dst start done vm)
    (short : path.length ≤ 2) (reached : sv39.follow (cells start.memory) dst path = some dstTable)
    (new : pn :: path ∉ done) : cells vm.memory dstTable pn = cells start.memory dstTable pn := by
  refine stamped.pending dstTable (begins.backed.used ⟨path, short, reached⟩) pn ?_
  intro other otherShort otherReached
  rwa [← begins.backed.tree.distinct short otherShort reached otherReached]

/-- An empty entry now points to a fresh page. -/
structure Writes (table : Nat) (pn : Fin 512) (fresh : Nat) (vm after : Vmem σ) : Prop where
  granted : Granted fresh vm.pages after.pages
  empty : cells vm.memory table pn = 0
  points : pteFrame (cells after.memory table pn) = fresh
  others : ∀ other ≠ fresh, ∀ d, ¬ (other = table ∧ d = pn) →
    cells after.memory other d = cells vm.memory other d

theorem Writes.of_made {content : Memory} (granted : Granted fresh vm.pages pages)
    (empty : cells vm.memory dstTable pn = 0) (same : ∀ other, other ≠ fresh → SameBytes content vm.memory other other)
    (made : after = entryMade content pte dstTable pn fresh pages) : Writes dstTable pn fresh vm after := by
  subst made
  refine ⟨granted, empty, ?_, fun other notFresh d target => cells_entryMade_other target (same other notFresh)⟩
  rw [cells_entryMade granted.bounded, pteFrame_entry fresh (pteFlags_lt _), Nat.mod_eq_of_lt granted.bounded]

theorem Writes.nonzero {table other : Nat} {d : Fin 512} (writes : Writes table pn fresh vm after)
    (used : other ∈ inUse vm.pages) (nonzero : cells vm.memory other d ≠ 0) :
    cells after.memory other d = cells vm.memory other d := by
  refine writes.others other (ne_of_mem_of_not_mem used writes.granted.unused) d ?_
  rintro ⟨rfl, rfl⟩
  exact nonzero writes.empty

theorem Writes.selfTable {table other : Nat} (writes : Writes table pn fresh vm after)
    (self : SelfTable vm other) : SelfTable after other := by
  refine ⟨writes.granted.grows self.1, self.2.1, fun d late => ?_⟩
  rw [writes.nonzero self.1 (by rw [self.2.2 d late]; omega), self.2.2 d late]

section
variable {table other : Nat} (stamped : Stamped src dst start done vm) (writes : Writes table pn fresh vm after)
include stamped writes

theorem Writes.inward (inward : Inward start vm other) : Inward start after other := by
  have grows := writes.granted.grows
  refine ⟨⟨grows inward.1.1, inward.1.2⟩, fun d => ?_⟩
  by_cases target : other = table ∧ d = pn
  · rw [target.1, target.2, writes.points]
    exact .inr ⟨writes.granted.isUsed, fun old => writes.granted.unused (stamped.used old)⟩
  · rw [writes.others other (ne_of_mem_of_not_mem inward.1.1 writes.granted.unused) d target]
    exact (inward.2 d).imp_right fun taken => ⟨grows taken.1, taken.2⟩

theorem Writes.at {otherPath : Route} (place : StampedAt dst start otherPath other vm) :
    StampedAt dst start otherPath other after :=
  place.imp_right fun ⟨missing, taken, inward⟩ =>
    ⟨missing, ⟨writes.granted.grows taken.1, taken.2⟩, fun above => writes.inward stamped (inward above)⟩

end

theorem Writes.stamped {more : Set Route} (begins : Spaces src dst start)
    (stamped : Stamped src dst start done vm) (writes : Writes dstTable pn fresh vm after)
    (place : StampedAt dst start path dstTable vm) (member : pn :: path ∈ more) (larger : done ⊆ more)
    (added : ∀ path pn srcTable dstTable, pn :: path ∈ more → pn :: path ∉ done →
      path.length < 2 → sv39.follow (cells start.memory) src path = some srcTable →
      sv39.follow (cells start.memory) dst path = some dstTable →
      cells start.memory srcTable pn &&& pteFlagV ≠ 0 → cells start.memory dstTable pn = 0 →
      ∃ table, SelfTable after table ∧ sv39.child (cells after.memory dstTable pn) = some table) :
    Stamped src dst start more after where
  sound := writes.granted.sound
  used frame used := writes.granted.grows (stamped.used used)
  unused frame unused bounded d := by
    have old : frame ∉ inUse vm.pages := fun used => unused (writes.granted.grows used)
    have notFresh : frame ≠ fresh := by
      rintro rfl
      exact unused writes.granted.isUsed
    rw [writes.others frame notFresh d, stamped.unused frame old bounded d]
    rintro ⟨rfl, rfl⟩
    exact old (place.used begins stamped)
  kept table used d nonzero := by
    have same := stamped.kept table used d nonzero
    rw [writes.nonzero (stamped.used used) (by rwa [same]), same]
  pending table used d untouched := by
    have notFresh : table ≠ fresh := ne_of_mem_of_not_mem (stamped.used used) writes.granted.unused
    rw [writes.others table notFresh d]
    · exact stamped.pending table used d (fun other short reached old =>
        untouched other short reached (larger old))
    · rintro ⟨rfl, rfl⟩
      obtain ⟨short, reached⟩ := place.resolve_right fun taken => taken.2.1.2 used
      exact untouched path short reached member
  stamped other d sTable dTable inMore above srcReached dstReached valid empty := by
    by_cases old : d :: other ∈ done
    · obtain ⟨table, self, child⟩ :=
        stamped.stamped other d sTable dTable old above srcReached dstReached valid empty
      have nonzero : cells vm.memory dTable d ≠ 0 := by
        intro zero
        rw [zero] at child
        cases child
      have used := stamped.used (begins.backed.used ⟨other, Nat.le_of_lt above, dstReached⟩)
      refine ⟨table, writes.selfTable self, ?_⟩
      rwa [writes.nonzero used nonzero]
    · exact added other d sTable dTable inMore old above srcReached dstReached valid empty

theorem Stamped.add {more : Set Route} (stamped : Stamped src dst start done vm)
    (nothing : ∀ path pn srcTable dstTable, pn :: path ∈ more → path.length < 2 →
      sv39.follow (cells start.memory) src path = some srcTable →
      sv39.follow (cells start.memory) dst path = some dstTable →
      cells start.memory srcTable pn &&& pteFlagV ≠ 0 → cells start.memory dstTable pn ≠ 0) :
    Stamped src dst start (done ∪ more) vm :=
  { stamped with
    pending := fun table used pn untouched => stamped.pending table used pn
      (fun path short reached old => untouched path short reached (.inl old))
    stamped := by
      rintro path pn srcTable dstTable (old | new) above srcReached dstReached valid empty
      · exact stamped.stamped path pn srcTable dstTable old above srcReached dstReached valid empty
      · exact absurd empty (nothing path pn srcTable dstTable new above srcReached dstReached valid) }

omit [PageAllocator σ] [LawfulPages σ] in
theorem Skipped.no_pointer {other : Route} {d : Fin 512} {table new : Nat}
    (skipped : Skipped (cells start.memory srcTable pn) path new)
    (reached : sv39.follow (cells start.memory) src path = some srcTable)
    (under : d :: other ∈ below (pn :: path)) (above : other.length < 2)
    (otherReached : sv39.follow (cells start.memory) src other = some table)
    (valid : cells start.memory table d &&& pteFlagV ≠ 0) : False := by
  rcases skipped with invalid | ⟨bottom, _⟩
  · rcases List.suffix_cons_iff.mp under with same | deeper
    · cases same
      cases reached.symm.trans otherReached
      exact invalid valid
    · have missing : sv39.follow (cells start.memory) src (pn :: path) = none :=
        (Radix.follow_cons reached pn).trans (if_neg invalid)
      cases (follow_below_none missing deeper).symm.trans otherReached
  · have longer := under.length_le
    rw [List.length_cons, List.length_cons] at longer
    omega

section
variable (begins : Spaces src dst start)
include begins

section
variable (stamped : Stamped src dst start done vm) (place : StampedAt dst start path dstTable vm)
include stamped place

theorem Stamped.leaf (bottom : path.length = 2)
    (empty : cells vm.memory dstTable pn = 0) (granted : Granted fresh vm.pages pages)
    (made : after = leafCopied vm.memory pte dstTable pn fresh pages) :
    Writes dstTable pn fresh vm after ∧ Stamped src dst start (done ∪ below (pn :: path)) after := by
  have writes := Writes.of_made granted empty (fun _ => memcpy_page_outside) made
  refine ⟨writes, writes.stamped begins stamped place (.inr (List.suffix_refl _)) Set.subset_union_left ?_⟩
  intro other d _ _ member old above
  have longer := (member.resolve_left old).length_le
  rw [List.length_cons, List.length_cons] at longer
  omega

theorem Stamped.table (new : pn :: path ∉ done) (valid : pte &&& pteFlagV ≠ 0)
    (empty : cells vm.memory dstTable pn = 0) (granted : Granted fresh vm.pages pages)
    (made : after = tableMade vm.memory pte dstTable pn fresh pages) : Writes dstTable pn fresh vm after ∧
      Stamped src dst start (insert (pn :: path) done) after ∧ StampedAt dst start (pn :: path) fresh after := by
  have notFresh : fresh ≠ dstTable := (ne_of_mem_of_not_mem (place.used begins stamped) granted.unused).symm
  have writes := Writes.of_made granted empty (fun _ => handedOut_outside) made
  have word : cells after.memory dstTable pn = fresh * 1024 + pteFlags pte := made ▸ cells_entryMade granted.bounded
  have fills : ∀ d : Fin 512, cells after.memory fresh d = if d.val < 2 then 0 else cells vm.memory fresh d :=
    fun _ => made ▸ cells_tableMade_fresh notFresh
  have samePages : after.pages = pages := by rw [made]; rfl
  rw [← samePages] at granted
  -- behind the words that were cleared, the page that was handed out pointed to itself
  have freshCells : ∀ d : Fin 512, 2 ≤ d.val → cells after.memory fresh d = fresh * 1024 + 1 := by
    intro d late
    rw [fills, if_neg (by omega), stamped.unused fresh granted.unused granted.bounded d]
  have isNew : fresh ∉ inUse start.pages := fun old => granted.unused (stamped.used old)
  have child : sv39.child (cells after.memory dstTable pn) = some fresh := by
    rw [word]
    exact sv39_child_entry granted.bounded (pteFlags_lt _) (by rwa [pteFlags_and _ (by decide)])
  refine ⟨writes, ?_, .inr ⟨?_, ⟨granted.isUsed, isNew⟩, fun _ => ⟨⟨granted.isUsed, isNew⟩, fun d => ?_⟩⟩⟩
  · refine writes.stamped begins stamped place (Set.mem_insert _ _) (Set.subset_insert _ _) ?_
    intro other d sTable dTable member old _ _ otherReached _ _
    cases member.resolve_right old
    rcases place with ⟨_, dstReached⟩ | ⟨missing, _⟩
    · cases dstReached.symm.trans otherReached
      exact ⟨fresh, ⟨granted.isUsed, granted.bounded, freshCells⟩, child⟩
    · cases missing.symm.trans otherReached
  · rcases place with ⟨short, dstReached⟩ | ⟨missing, _⟩
    · rw [Radix.follow_cons dstReached, ← stamped.word begins short dstReached new, empty]
      rfl
    · exact follow_below_none missing (List.suffix_cons pn path)
  · by_cases late : 2 ≤ d.val
    · rw [freshCells d late, pteFrame_entry fresh (by decide), Nat.mod_eq_of_lt granted.bounded]
      exact .inr ⟨granted.isUsed, isNew⟩
    · rw [fills, if_pos (by omega)]
      exact .inl rfl

theorem Stamped.pointer (new : pn :: path ∉ done) (above : path.length < 2)
    (full : cells vm.memory dstTable pn ≠ 0) : Stamped src dst start (insert (pn :: path) done) vm ∧
      StampedAt dst start (pn :: path) (pteFrame (cells vm.memory dstTable pn)) vm := by
  rw [Set.insert_eq, Set.union_comm]
  rcases place with ⟨short, reached⟩ | ⟨missing, _, inward⟩
  · have word := stamped.word begins short reached new
    rw [word] at full ⊢
    have valid := (begins.clean dstTable ⟨path, short, reached⟩ pn).resolve_left full
    refine ⟨stamped.add ?_, .inl ⟨?_, (Radix.follow_cons reached pn).trans (if_pos valid)⟩⟩
    · rintro other d sTable dTable here _ _ otherReached _
      cases here
      cases reached.symm.trans otherReached
      exact full
    · rw [List.length_cons]
      omega
  · refine ⟨stamped.add ?_, .inr ⟨follow_below_none missing (List.suffix_cons pn path), ?_⟩⟩
    · rintro other d sTable dTable here _ _ otherReached _
      cases here
      cases missing.symm.trans otherReached
    · refine ⟨((inward above).2 pn).resolve_left full, fun higher => ?_⟩
      -- the root is no page that was taken since
      obtain rfl : path = [] := List.eq_nil_of_length_eq_zero (by rw [List.length_cons] at higher; omega)
      cases missing

end

theorem Spaces.stampRule : CopyRule src start (fun _ => false) (fun _ => True)
      (fun done vm vm' => vm' = vm ∧ Stamped src dst start done vm) (StampedAt dst start) where
  sound holds := holds.2.sound
  samePages holds := by rw [holds.1]
  source holds short reached pn := by
    obtain ⟨rfl, stamped⟩ := holds
    obtain ⟨used, notTable⟩ := begins.srcTables ⟨_, short, reached⟩
    have same := stamped.pending _ used pn (fun path short reached =>
      absurd ⟨path, short, reached⟩ notTable)
    exact ⟨same, same⟩
  target holds _ _ pn := by rw [holds.1]
  expected _ _ _ _ := .inr ⟨rfl, fun _ => trivial⟩
  skip holds _ _ reached _ skipped := ⟨holds.1, holds.2.add (fun _ _ _ _ under above otherReached _ valid =>
      absurd valid (fun valid => skipped.no_pointer reached under above otherReached valid))⟩
  leaf holds place bottom _ _ _ _ empty granted made made' := by
    obtain ⟨rfl, stamped⟩ := holds
    obtain ⟨writes, after⟩ := stamped.leaf begins place bottom empty granted made
    exact ⟨⟨made'.trans made.symm, after⟩, fun _ _ place => writes.at stamped place⟩
  table holds place _ _ new valid empty granted _ made made' := by
    obtain ⟨rfl, stamped⟩ := holds
    obtain ⟨writes, after, child⟩ := stamped.table begins place new valid empty granted made
    exact ⟨⟨made'.trans made.symm, after⟩, child, fun _ _ place => writes.at stamped place⟩
  pointer holds place above _ new _ full := by
    obtain ⟨rfl, stamped⟩ := holds
    obtain ⟨stamped, child⟩ := stamped.pointer begins place new above full
    exact ⟨⟨rfl, stamped⟩, child⟩

theorem Stamped.follow (stamped : Stamped src dst start done vm)
    {table : Nat} (short : path.length ≤ 2) (reached : sv39.follow (cells start.memory) dst path = some table) :
    sv39.follow (cells vm.memory) dst path = some table := by
  induction path generalizing table with
  | nil =>
    cases reached
    rfl
  | cons d path ih =>
    rw [List.length_cons] at short
    obtain ⟨parent, parentReached, child⟩ := Radix.follow_cons_some reached
    have used := begins.backed.used ⟨path, (show path.length ≤ 2 by omega), parentReached⟩
    have nonzero : cells start.memory parent d ≠ 0 := by
      intro zero
      rw [zero] at child
      cases child
    rw [Radix.follow_cons (ih (by omega) parentReached), stamped.kept parent used d nonzero]
    exact child

end

theorem SelfTable.value {table root : Nat} {front : Route} (self : SelfTable vm table)
    (reached : sv39.follow (cells vm.memory) root path = some table) (longer : front ≠ [])
    (late : ∀ d ∈ front, 2 ≤ d.val) :
    sv39.value (cells vm.memory) root (front ++ path) = some (table, pteFlagV) := by
  have follows : ∀ front : Route, (∀ d ∈ front, 2 ≤ d.val) →
      sv39.follow (cells vm.memory) root (front ++ path) = some table := by
    intro front late
    induction front with
    | nil => exact reached
    | cons d front ih =>
      obtain ⟨first, rest⟩ := List.forall_mem_cons.mp late
      rw [List.cons_append, Radix.follow_cons (ih rest), self.2.2 d first]
      exact sv39_child_entry self.2.1 (by decide) (by decide)
  cases front with
  | nil => exact absurd rfl longer
  | cons d front =>
    obtain ⟨first, rest⟩ := List.forall_mem_cons.mp late
    rw [List.cons_append, Radix.value_cons (follows front rest), self.2.2 d first]
    exact sv39_leaf_entry (by decide) (by decide)

end

theorem Meets.ignoresStale (spaces : Spaces src dst vm) (meets : Meets src dst vm)
    (grants : Grants (demand vm.memory src) vm.pages) : IgnoresStale src dst vm := by
  -- both runs are compared with the run from the state itself
  have compare : ∀ one after, Agree vm one → vmUvmcpy (frameVa src) (frameVa dst) false one = .ok after →
      ∃ final, vmUvmcpy (frameVa src) (frameVa dst) false vm = .ok final ∧
        Copied src dst { path | path ≠ [] } vm final ∧ Agree final after := by
    intro one after agree run
    obtain ⟨final, other, finalRun, otherRun, copied, agrees⟩ := spaces.vmUvmcpy (.inr ⟨meets, agree⟩) grants
    cases run.symm.trans otherRun
    exact ⟨final, finalRun, copied, agrees⟩
  have same : ∀ final after, Copied src dst { path | path ≠ [] } vm final → Agree final after →
      view dst after = view dst final ∧
        ∀ vpn, pageMap (frameVa dst) after vpn = pageMap (frameVa dst) final vpn := by
    intro final after copied agree
    have maps : ∀ vpn, pageMap (frameVa dst) after vpn = pageMap (frameVa dst) final vpn := by
      intro vpn
      rw [pageMap_eq_value, pageMap_eq_value, (agree.same copied.spaces.backed.used).value_eq rfl]
    refine ⟨funext (fun vpn => ?_), maps⟩
    rw [view, view, maps vpn]
    refine Option.map_congr (fun entry mapped => ?_)
    rw [pageMap_eq_value] at mapped
    have used := (copied.spaces.dstFrames _ entry rfl mapped).1
    rw [Prod.mk.injEq]
    exact ⟨rfl, funext (fun offset => agree.bytes (frameOf entry) used offset offset.isLt)⟩
  intro one two after after' agree agree' run run'
  obtain ⟨final, finalRun, copied, agrees⟩ := compare one after agree run
  obtain ⟨final', finalRun', copied', agrees'⟩ := compare two after' agree' run'
  cases finalRun.symm.trans finalRun'
  obtain ⟨views, maps⟩ := same final after copied agrees
  refine ⟨views.trans (same final after' copied agrees').1.symm, fun vpn noSource hole => ?_⟩
  rw [maps vpn, pageMap_eq_value]
  rw [pageMap_eq_value] at noSource hole
  refine copied.holes _ rfl hole ?_
  rw [copyable, noSource, Option.filter_none]

section
variable {path : Route} {pn : Fin 512} {srcTable dstTable : Nat}
  (spaces : Spaces src dst vm) (grants : Grants (demand vm.memory src) vm.pages)
  (above : path.length < 2) (srcReached : sv39.follow (cells vm.memory) src path = some srcTable)
  (dstReached : sv39.follow (cells vm.memory) dst path = some dstTable)
  (valid : cells vm.memory srcTable pn &&& pteFlagV ≠ 0) (empty : cells vm.memory dstTable pn = 0)
include spaces grants above srcReached dstReached valid empty

theorem exists_stale_run : ∃ two after, Agree vm two ∧ vmUvmcpy (frameVa src) (frameVa dst) false two = .ok after ∧
      ∀ front : Route, front ≠ [] → (∀ d ∈ front, 2 ≤ d.val) →
        ∃ table, sv39.value (cells after.memory) dst (front ++ pn :: path) = some (table, pteFlagV) := by
  obtain ⟨two, agree, stale⟩ := exists_agree vm selfPointers
  have srcOwned : tables src vm ⊆ inUse vm.pages := fun _ member => (spaces.srcTables member).1
  have spaces' := spaces.agree agree
  have short := Nat.le_of_lt above
  have srcReached' := ((agree.same srcOwned).follow_eq short).trans srcReached
  have dstReached' := ((agree.same spaces.backed.used).follow_eq short).trans dstReached
  have valid' := valid
  rw [← (agree.same srcOwned).cells_eq ⟨_, short, srcReached⟩ pn] at valid'
  have empty' := ((agree.same spaces.backed.used).cells_eq ⟨_, short, dstReached⟩ pn).trans empty
  have grants' := agree.grants srcOwned grants
  have initial : Stamped src dst two ∅ two := by
    refine ⟨spaces'.backed.sound, fun _ used => used, ?_, fun _ _ _ _ => rfl, fun _ _ _ _ => rfl, nofun⟩
    intro frame unused bounded d
    rw [agree.pages] at unused
    rw [cells_congr (stale frame unused) d, cells_selfPointers bounded]
  obtain ⟨after, _, run, _, _, stamped⟩ := spaces'.stampRule.vmUvmcpy spaces'.copySource
    ⟨rfl, initial⟩ (.inl ⟨Nat.zero_le 2, rfl⟩)
    (grants'.serves (by rw [Nat.add_zero]; exact requests_le_demand) spaces'.backed.sound fun _ _ => trivial)
  refine ⟨two, after, agree, run, fun front longer late => ?_⟩
  obtain ⟨table, self, child⟩ :=
    stamped.stamped path pn srcTable dstTable nofun above srcReached' dstReached' valid' empty'
  have reached := (Radix.follow_cons (stamped.follow spaces' short dstReached') pn).trans child
  exact ⟨table, self.value reached longer late⟩

theorem exists_stale_difference : ∃ one two after after', Agree vm one ∧ Agree vm two ∧
      vmUvmcpy (frameVa src) (frameVa dst) false one = .ok after ∧
      vmUvmcpy (frameVa src) (frameVa dst) false two = .ok after' ∧
      view dst after ≠ view dst after' := by
  obtain ⟨two, after', agree', run', stale⟩ :=
    exists_stale_run spaces grants above srcReached dstReached valid empty
  obtain ⟨one, agree, zero⟩ := exists_agree vm (fun _ => 0)
  have srcOwned : tables src vm ⊆ inUse vm.pages := fun _ member => (spaces.srcTables member).1
  have blank : ZeroFilled one := by
    intro frame unused
    rw [agree.pages] at unused
    exact zero frame unused
  have grants' := agree.grants srcOwned grants
  obtain ⟨after, _, run, _, copied, _⟩ := (spaces.agree agree).vmUvmcpy (.inl ⟨rfl, blank⟩) grants'
  refine ⟨one, two, after, after', agree, agree', run, run', fun same => ?_⟩
  -- a page under the entry: the stale run maps it with V only, a copy would have R or X
  have long : (List.replicate (2 - path.length) (2 : Fin 512) ++ pn :: path).length = 3 := by
    rw [List.length_append, List.length_replicate, List.length_cons]
    omega
  obtain ⟨table, mapped⟩ := stale (List.replicate (2 - path.length) 2)
    (by rw [Ne, List.replicate_eq_nil_iff]; omega) fun d member => by
      rw [List.eq_of_mem_replicate member]
      decide
  have under : pn :: path <:+ List.replicate (2 - path.length) 2 ++ pn :: path := List.suffix_append _ _
  obtain ⟨vpn, _, found⟩ := exists_key long
  rw [← found] at under mapped
  have hole : sv39.value (cells one.memory) dst (key (vpn * pageSize)) = none := by
    rw [(agree.same spaces.backed.used).value_eq rfl]
    exact value_below_none dstReached (by rw [empty]; decide) under
  have here := congrFun same vpn
  rw [view, view, pageMap_eq_value, pageMap_eq_value, mapped] at here
  cases source : copyable one.memory src (key (vpn * pageSize)) with
  | none =>
    rw [copied.holes _ rfl hole source] at here
    cases here
  | some entry =>
    obtain ⟨frame, _, copy, _⟩ := copied.copies (key (vpn * pageSize)) nofun entry rfl hole source
    rw [copy, Option.map_some, Option.map_some, Option.some.injEq, Prod.mk.injEq] at here
    refine (copyable_some.mp source).2 ?_
    rw [here.1]
    exact (show pteFlagV &&& (pteFlagR ||| pteFlagX) = 0 by decide)

end

theorem vmUvmcpy_ignoresStale_iff (spaces : Spaces src dst vm) (grants : Grants (demand vm.memory src) vm.pages) :
    IgnoresStale src dst vm ↔ Meets src dst vm := by
  refine ⟨fun ignores path srcTable dstTable pn above srcReached dstReached valid empty => ?_,
    fun meets => meets.ignoresStale spaces grants⟩
  obtain ⟨one, two, after, after', agree, agree', run, run', differs⟩ :=
    exists_stale_difference spaces grants above srcReached dstReached valid empty
  exact differs (ignores one two after after' agree agree' run run').1

end

theorem chain_event (leaf : Nat) (small : leaf < 2 ^ 64) :
    cells (chain leaf) 1 0 &&& pteFlagV ≠ 0 ∧ cells (chain leaf) 4 0 = 0 := by
  rw [cells_chain small, cells_chain small]
  exact ⟨show (2 * 1024 + 1) &&& pteFlagV ≠ 0 by decide, rfl⟩

section
variable {kmem : Kmem} (sound : BuddySound kmem) (begins : kmem.beginPpn = 0x80000) {frame flags : Nat}
  (page : ChainLeaf frame flags)
include sound begins page

theorem chain_target (high : 4 ≤ frame) : Spaces 4 1 (⟨chain (frame * 1024 + flags), kmem⟩ : Vmem Kmem) := by
  obtain ⟨backed, nodes, unmapped⟩ := chain_blank sound begins page
  have source := chain_spaces sound begins page
  have low : ∀ table ∈ tables 1 (⟨chain (frame * 1024 + flags), kmem⟩ : Vmem Kmem), table ≤ 3 := by
    rintro table ⟨path, short, reached⟩
    rw [(chain_follow page.small short reached).1]
    exact Nat.succ_le_succ short
  refine ⟨⟨source.srcTree, sound, fun table member => (source.srcTables member).1⟩, fun table _ pn => ?_,
    fun digits entry long mapped => ⟨source.srcFrames digits entry long mapped, fun isTable => ?_⟩,
    backed.tree, fun table member => ⟨backed.used member, fun isTable => ?_⟩,
    fun digits entry _ mapped => ?_⟩
  · have valid : (frame * 1024 + flags) &&& pteFlagV ≠ 0 := by
      rw [flag_entry frame page.bounded (by decide)]
      exact page.valid
    rw [cells_chain page.small]
    grind [show (2 * 1024 + 1) &&& pteFlagV ≠ 0 by decide, show (3 * 1024 + 1) &&& pteFlagV ≠ 0 by decide]
  · have outside := page.outside
    have found := (chain_value page.small long mapped).2
    rw [sv39_leaf_entry page.bounded page.valid] at found
    cases found
    have small := low _ isTable
    rw [frameOf, Nat.mod_eq_of_lt (by omega)] at small
    omega
  · rw [nodes] at member
    cases member
    exact absurd (low _ isTable) (by decide)
  · cases (unmapped digits).symm.trans mapped

theorem chain_empty {path : Route} {table : Nat} {pn : Fin 512} (short : path.length ≤ 2)
    (reached : sv39.follow (cells (chain (frame * 1024 + flags))) 4 path = some table) :
    ¬ cells (chain (frame * 1024 + flags)) table pn &&& pteFlagV ≠ 0 := by
  obtain ⟨_, nodes, _⟩ := chain_blank sound begins page
  have isTable : table ∈ tables 4 (⟨chain (frame * 1024 + flags), kmem⟩ : Vmem Kmem) := ⟨path, short, reached⟩
  rw [nodes] at isTable
  cases isTable
  rw [cells_chain page.small]
  simp

end

/-- The copy of a page to a blank table depends on stale bytes; the copy of the blank table to that of
the page does not. -/
theorem vmUvmcpy_ignoresStale_iff_one_page :
    ∃ vm : Vmem Kmem, Spaces 1 4 vm ∧ Grants (demand vm.memory 1) vm.pages ∧ ¬ IgnoresStale 1 4 vm ∧
      Spaces 4 1 vm ∧ Grants (demand vm.memory 4) vm.pages ∧ IgnoresStale 4 1 vm := by
  have page : ChainLeaf 5 3 := ⟨by decide, by decide, by decide, by decide⟩
  obtain ⟨kmem, _, _, _, sound, begins, _, clear⟩ := sixteen_pages_sound
  obtain ⟨valid, empty⟩ := chain_event _ page.small
  have spaces := chain_spaces sound begins page
  have target := chain_target sound begins page (by decide)
  have grants : ∀ n, n ≤ 4 → Grants n kmem := fun n few =>
    sound.grants List.nodup_range' clear (few.trans (show 4 ≤ (List.range' 1 15).length by decide))
  have enough := grants _ (chain_demand page.small)
  have few : demand (chain (5 * 1024 + 3)) 4 ≤ 4 := by
    refine @requests_length_le _ _ _ (List.replicate 3 0) fun path table pn short reached valid _ => ?_
    exact absurd valid (chain_empty sound begins page short reached)
  have spare := grants _ few
  refine ⟨_, spaces, enough, fun ignores => ?_, target, spare, (vmUvmcpy_ignoresStale_iff target spare).mpr ?_⟩
  · exact (vmUvmcpy_ignoresStale_iff spaces enough).mp ignores [] 1 4 0 (by decide) rfl rfl valid empty
  · intro path srcTable dstTable pn above srcReached _ valid
    exact absurd valid (chain_empty sound begins page (Nat.le_of_lt above) srcReached)

/-- The bytes that a fresh page held map the page 1026, which neither space maps. -/
theorem vmUvmcpy_reads_stale_bytes :
    ∃ (vm one two after after' : Vmem Kmem), Spaces 1 4 vm ∧ Agree vm one ∧ Agree vm two ∧
      vmUvmcpy (frameVa 1) (frameVa 4) false one = .ok after ∧
      vmUvmcpy (frameVa 1) (frameVa 4) false two = .ok after' ∧
      pageMap (frameVa 1) vm 1026 = none ∧ pageMap (frameVa 4) vm 1026 = none ∧
      pageMap (frameVa 4) after 1026 = none ∧
      ∃ table, pageMap (frameVa 4) after' 1026 = some (table, pteFlagV) := by
  have page : ChainLeaf 5 3 := ⟨by decide, by decide, by decide, by decide⟩
  obtain ⟨kmem, spaces, _, zero, grants, unmapped⟩ := chain_ready page
  obtain ⟨valid, empty⟩ := chain_event _ page.small
  obtain ⟨two, after', agree, run', stale⟩ :=
    exists_stale_run spaces grants (show ([] : Route).length < 2 by decide) rfl rfl valid empty
  obtain ⟨after, _, run, _, copied, _⟩ := spaces.vmUvmcpy (.inl ⟨rfl, zero⟩) grants
  have noSource : sv39.value (cells (chain (5 * 1024 + 3))) 1 (key (1026 * pageSize)) = none := by
    cases source : sv39.value (cells (chain (5 * 1024 + 3))) 1 (key (1026 * pageSize)) with
    | none => rfl
    | some entry => exact absurd (chain_value page.small rfl source).1 (by decide)
  have nothing : copyable (chain (5 * 1024 + 3)) 1 (key (1026 * pageSize)) = none := by
    rw [copyable, noSource, Option.filter_none]
  refine ⟨_, _, two, after, after', spaces, .refl _, agree, run, run', ?_, ?_, ?_, ?_⟩
  · rw [pageMap_eq_value, noSource]
  · rw [pageMap_eq_value, unmapped]
  · rw [pageMap_eq_value, copied.holes _ rfl (unmapped _) nothing]
  · obtain ⟨table, mapped⟩ := stale [2, 2] (List.cons_ne_nil _ _) (by simp)
    exact ⟨table, (pageMap_eq_value ..).trans mapped⟩

end Kalorona.Memory
