import Kalorona.Memory.UvmcpyRule

namespace Kalorona.Memory

open Kalorona.Data Kalorona.Utilities

/-! # Copying an address space

`vm_uvmcpy` goes through the source tables and fills the holes of the destination
with copies.
-/

open LawfulPages (Sound managed inUse)

variable {σ : Type} [PageAllocator σ]

/-- The pages of the source that are copied: those with R or X. -/
def copyable (memory : Memory) (src : Nat) (key : Route) : Option (Nat × Nat) :=
  (sv39.value (cells memory) src key).filter (fun entry => entry.2 &&& (pteFlagR ||| pteFlagX) != 0)

variable {key path : Route} {memory : Memory} {root frame pte : Nat} {pn : Fin 512}

theorem copyable_some {src : Nat} {entry : Nat × Nat} :
    copyable memory src key = some entry ↔ sv39.value (cells memory) src key = some entry ∧
      entry.2 &&& (pteFlagR ||| pteFlagX) ≠ 0 := by
  rw [copyable, Option.filter_eq_some_iff, bne_iff_ne]

/-- Each pointer of the source meets an entry of the destination, where both have a table. -/
def Meets (src dst : Nat) (vm : Vmem σ) : Prop :=
  ∀ path srcTable dstTable pn, path.length < 2 →
    sv39.follow (cells vm.memory) src path = some srcTable →
    sv39.follow (cells vm.memory) dst path = some dstTable →
    cells vm.memory srcTable pn &&& pteFlagV ≠ 0 → cells vm.memory dstTable pn ≠ 0

/-- The word at an entry of a tree; 0 where there is no table. -/
def word (memory : Memory) (root : Nat) : Route → Nat
  | [] => 0
  | pn :: path => (sv39.follow (cells memory) root path).elim 0 fun table => cells memory table pn

def occupied (memory : Memory) (root : Nat) (key : Route) : Bool := word memory root key != 0

theorem word_cons {table : Nat} (reached : sv39.follow (cells memory) root path = some table) (pn : Fin 512) :
    word memory root (pn :: path) = cells memory table pn := by
  rw [word, reached, Option.elim_some]

theorem value_eq_word (memory : Memory) (root : Nat) (key : Route) :
    sv39.value (cells memory) root key = sv39.leaf (word memory root key) := by
  have nothing : sv39.leaf 0 = none := rfl
  cases key with
  | nil => exact nothing.symm
  | cons pn path =>
    rw [Radix.value, word]
    cases sv39.follow (cells memory) root path with
    | none => exact nothing.symm
    | some table => rfl

/-- The page is zero behind the two words that are cleared when it is handed out. -/
def Blank (memory : Memory) (frame : Nat) : Prop :=
  ∀ offset, 16 ≤ offset → offset < 4096 → memory (frameVa frame + offset) = 0

theorem Blank.cells (blank : Blank memory frame) (late : ¬ pn.val < 2) : Memory.cells memory frame pn = 0 := by
  refine Memory.load64_zero (fun offset bound => ?_)
  rw [entryAddr, Nat.add_assoc]
  exact blank _ (by omega) (by omega)

variable [LawfulPages σ]

/-- Every page that is not in use is zero. -/
def ZeroFilled (vm : Vmem σ) : Prop :=
  ∀ frame ∉ inUse vm.pages, ∀ offset < 4096, vm.memory (frameVa frame + offset) = 0

/-- What was in use stays in use, and pages are only taken from those that are managed. -/
structure Drawn (before after : σ) : Prop where
  used : inUse before ⊆ inUse after
  sameManaged : managed after = managed before
  taken : inUse after ⊆ inUse before ∪ managed before

theorem Drawn.refl (pages : σ) : Drawn pages pages := ⟨fun _ used => used, rfl, Set.subset_union_left⟩

variable {pages : σ} {vm' : Vmem σ}

theorem Drawn.trans {before next : σ} (first : Drawn before pages) (second : Drawn pages next) :
    Drawn before next := by
  refine ⟨first.used.trans second.used, second.sameManaged.trans first.sameManaged, fun frame used => ?_⟩
  rcases second.taken used with old | isManaged
  · exact first.taken old
  · exact .inr (first.sameManaged ▸ isManaged)

theorem Granted.drawn {fresh : Nat} {next : σ} (granted : Granted fresh pages next) : Drawn pages next := by
  refine ⟨granted.grows, granted.sameManaged, ?_⟩
  rw [granted.used]
  exact Set.insert_subset (.inr granted.isManaged) Set.subset_union_left

/-- Two trees with no table in common; the destination has no entry that is neither valid nor
zero. -/
structure Spaces (src dst : Nat) (vm : Vmem σ) : Prop where
  backed : Backed dst vm
  clean : ∀ table ∈ tables dst vm, ∀ pn, cells vm.memory table pn = 0 ∨
    cells vm.memory table pn &&& pteFlagV ≠ 0
  dstFrames : ∀ key entry, key.length = 3 → sv39.value (cells vm.memory) dst key = some entry →
    frameOf entry ∈ inUse vm.pages \ tables dst vm
  srcTree : sv39.Tree (cells vm.memory) src
  srcTables : tables src vm ⊆ inUse vm.pages \ tables dst vm
  srcFrames : ∀ key entry, key.length = 3 → sv39.value (cells vm.memory) src key = some entry →
    frameOf entry ∈ inUse vm.pages

/-- What the copy has done when it has been at the entries `done`: it has changed the entries there, of
which the holes of the destination hold copies, and pages that were not in use. -/
structure Copied (src dst : Nat) (done : Set Route) (before after : Vmem σ) : Prop where
  spaces : Spaces src dst after
  drawn : Drawn before.pages after.pages
  grown : ∀ table ∈ tables dst after, table ∈ tables dst before ∨ table ∉ inUse before.pages
  follows : ∀ {path table}, path.length ≤ 2 →
    sv39.follow (cells before.memory) dst path = some table →
    sv39.follow (cells after.memory) dst path = some table
  outside : ∀ frame ∈ inUse before.pages, frame ∉ tables dst before →
    SameBytes after.memory before.memory frame frame
  unused : ∀ frame ∉ inUse after.pages, SameBytes after.memory before.memory frame frame
  meets : Meets src dst before → Meets src dst after
  words : ∀ path (pn : Fin 512), path.length ≤ 2 → pn :: path ∉ done →
    word after.memory dst (pn :: path) = word before.memory dst (pn :: path)
  kept : ∀ key entry, key.length = 3 → sv39.value (cells before.memory) dst key = some entry →
    sv39.value (cells after.memory) dst key = some entry
  holes : ∀ key, key.length = 3 → sv39.value (cells before.memory) dst key = none →
    copyable before.memory src key = none →
    sv39.value (cells after.memory) dst key = none
  copies : ∀ key ∈ done, ∀ entry, key.length = 3 →
    sv39.value (cells before.memory) dst key = none →
    copyable before.memory src key = some entry →
    ∃ frame, frame ∉ inUse before.pages ∧
      sv39.value (cells after.memory) dst key = some (frame, entry.2) ∧ frame < 2 ^ 26 ∧
      (frameOf entry ∉ tables dst before → SameBytes after.memory before.memory frame (frameOf entry))
  distinct : ∀ key other entry otherEntry, key.length = 3 → other.length = 3 →
    sv39.value (cells before.memory) dst key = none →
    sv39.value (cells before.memory) dst other = none →
    sv39.value (cells after.memory) dst key = some entry →
    sv39.value (cells after.memory) dst other = some otherEntry →
    frameOf entry = frameOf otherEntry → key = other

variable {src dst : Nat} {vm after final : Vmem σ} {done more : Set Route}

section
variable (spaces : Spaces src dst vm)
  (outside : ∀ frame ∈ inUse vm.pages, frame ∉ tables dst vm → SameBytes after.memory vm.memory frame frame)
include spaces outside

theorem Spaces.src_same : SameTables src vm after := fun table member =>
  outside table (spaces.srcTables member).1 (spaces.srcTables member).2

theorem Spaces.src_copyable (long : key.length = 3) :
    copyable after.memory src key = copyable vm.memory src key := by
  rw [copyable, copyable, (spaces.src_same outside).value_eq long]

end

theorem Copied.pending (copied : Copied src dst done vm after) (long : key.length = 3) (new : key ∉ done) :
    sv39.value (cells after.memory) dst key = sv39.value (cells vm.memory) dst key := by
  cases key with
  | nil => cases long
  | cons pn path =>
    rw [value_eq_word, copied.words path pn (Nat.le_of_eq (Nat.succ.inj long)) new, ← value_eq_word]

theorem Copied.fresh_frame {entry : Nat × Nat} (copied : Copied src dst done vm after) (long : key.length = 3)
    (hole : sv39.value (cells vm.memory) dst key = none)
    (mapped : sv39.value (cells after.memory) dst key = some entry) : frameOf entry ∉ inUse vm.pages := by
  cases source : copyable vm.memory src key with
  | none => cases (copied.holes key long hole source).symm.trans mapped
  | some srcEntry =>
    by_cases member : key ∈ done
    · obtain ⟨frame, unused, found, bounded, _⟩ := copied.copies key member srcEntry long hole source
      cases found.symm.trans mapped
      rwa [frameOf, Nat.mod_eq_of_lt bounded]
    · rw [copied.pending long member, hole] at mapped
      cases mapped

theorem Copied.trans (start : Spaces src dst vm) (first : Copied src dst done vm after)
    (second : Copied src dst more after final) : Copied src dst (done ∪ more) vm final := by
  have fresh : ∀ frame ∈ inUse vm.pages, frame ∉ tables dst vm → frame ∉ tables dst after := by
    intro frame used notTable member
    rcases first.grown frame member with old | unused
    · exact notTable old
    · exact unused used
  have outside : ∀ frame ∈ inUse vm.pages, frame ∉ tables dst vm →
      SameBytes final.memory vm.memory frame frame := by
    intro frame used notTable offset inside
    exact (second.outside frame (first.drawn.used used) (fresh frame used notTable) offset inside).trans
      (first.outside frame used notTable offset inside)
  have srcSame : ∀ {key : Route}, key.length = 3 →
      copyable after.memory src key = copyable vm.memory src key := start.src_copyable first.outside
  refine ⟨second.spaces, first.drawn.trans second.drawn, ?_, ?_, outside, ?_, ?_, ?_, ?_, ?_, ?_, ?_⟩
  · intro table member
    rcases second.grown table member with old | unused
    · exact first.grown table old
    · exact .inr (fun used => unused (first.drawn.used used))
  · intro path table short reached
    exact second.follows short (first.follows short reached)
  · intro frame unused offset inside
    exact (second.unused frame unused offset inside).trans
      (first.unused frame (fun used => unused (second.drawn.used used)) offset inside)
  · exact fun meets => second.meets (first.meets meets)
  · intro path pn short new
    rw [second.words path pn short (fun member => new (.inr member)),
      first.words path pn short (fun member => new (.inl member))]
  · intro key entry long mapped
    exact second.kept key entry long (first.kept key entry long mapped)
  · intro key long hole unmapped
    exact second.holes key long (first.holes key long hole unmapped) ((srcSame long).trans unmapped)
  · intro key member entry long hole source
    by_cases earlier : key ∈ done
    · obtain ⟨frame, unused, mapped, bounded, same⟩ := first.copies key earlier entry long hole source
      refine ⟨frame, unused, second.kept key _ long mapped, bounded, fun notTable offset inside => ?_⟩
      have owned := first.spaces.dstFrames key _ long mapped
      rw [frameOf, Nat.mod_eq_of_lt bounded] at owned
      exact (second.outside frame owned.1 owned.2 offset inside).trans (same notTable offset inside)
    · obtain ⟨frame, unused, mapped, bounded, same⟩ := second.copies key (member.resolve_left earlier) entry long
          ((first.pending long earlier).trans hole) ((srcSame long).trans source)
      refine ⟨frame, fun used => unused (first.drawn.used used), mapped, bounded, fun notTable offset inside => ?_⟩
      have owned := start.srcFrames key entry long (copyable_some.mp source).1
      exact (same (fresh _ owned notTable) offset inside).trans (first.outside _ owned notTable offset inside)
  · intro key other entry otherEntry long otherLong hole otherHole mapped otherMapped same
    cases found : sv39.value (cells after.memory) dst key with
    | none =>
      cases otherFound : sv39.value (cells after.memory) dst other with
      | none =>
        exact second.distinct key other entry otherEntry long otherLong found otherFound mapped otherMapped same
      | some _ =>
        cases (second.kept other _ otherLong otherFound).symm.trans otherMapped
        have unused := second.fresh_frame long found mapped
        rw [same] at unused
        exact absurd (first.spaces.dstFrames other _ otherLong otherFound).1 unused
    | some _ =>
      cases (second.kept key _ long found).symm.trans mapped
      cases otherFound : sv39.value (cells after.memory) dst other with
      | none =>
        have unused := second.fresh_frame otherLong otherFound otherMapped
        rw [← same] at unused
        exact absurd (first.spaces.dstFrames key _ long found).1 unused
      | some _ =>
        cases (second.kept other _ otherLong otherFound).symm.trans otherMapped
        exact first.distinct key other _ _ long otherLong hole otherHole found otherFound same

theorem Spaces.skip (spaces : Spaces src dst vm)
    (nothing : ∀ key ∈ done, key.length = 3 → sv39.value (cells vm.memory) dst key = none →
      copyable vm.memory src key = none) : Copied src dst done vm vm where
  spaces := spaces
  drawn := .refl vm.pages
  grown _ member := .inl member
  follows _ reached := reached
  outside _ _ _ _ _ := rfl
  unused _ _ _ _ := rfl
  meets meets := meets
  words _ _ _ _ := rfl
  kept _ _ _ mapped := mapped
  holes _ _ hole _ := hole
  copies key member entry long hole source := by
    cases (nothing key member long hole).symm.trans source
  distinct key other entry otherEntry _ _ hole _ mapped := by
    cases hole.symm.trans mapped

theorem child_valid (child : sv39.child pte = some frame) : pte &&& pteFlagV ≠ 0 ∧ pteFrame pte = frame := by
  have unfolded : (if pte &&& pteFlagV ≠ 0 then some (pteFrame pte) else none) = some frame := child
  split at unfolded
  next valid =>
    cases unfolded
    exact ⟨valid, rfl⟩
  next => cases unfolded

theorem Spaces.next (spaces : Spaces src dst vm) (backed : Backed dst after)
    (used : inUse vm.pages ⊆ inUse after.pages)
    (grown : ∀ table ∈ tables dst after, table ∈ tables dst vm ∨ table ∉ inUse vm.pages)
    (outside : ∀ frame ∈ inUse vm.pages, frame ∉ tables dst vm → SameBytes after.memory vm.memory frame frame)
    (clean : ∀ table ∈ tables dst after, ∀ pn, cells after.memory table pn = 0 ∨
      cells after.memory table pn &&& pteFlagV ≠ 0)
    (dstFrames : ∀ key entry, key.length = 3 → sv39.value (cells after.memory) dst key = some entry →
      frameOf entry ∈ inUse after.pages \ tables dst after) : Spaces src dst after where
  backed := backed
  clean := clean
  dstFrames := dstFrames
  srcTree := (spaces.src_same outside).tree spaces.srcTree
  srcTables := by
    rw [(spaces.src_same outside).tables_eq]
    intro table member
    refine ⟨used (spaces.srcTables member).1, fun isTable => ?_⟩
    rcases grown table isTable with old | unused
    · exact (spaces.srcTables member).2 old
    · exact unused (spaces.srcTables member).1
  srcFrames key entry long source := by
    rw [(spaces.src_same outside).value_eq long] at source
    exact used (spaces.srcFrames key entry long source)

theorem Copied.extend (copied : Copied src dst done vm after) (larger : done ⊆ more)
    (same : ∀ key ∈ more, key.length = 3 → key ∈ done) : Copied src dst more vm after :=
  { copied with
    words := fun path pn short new => copied.words path pn short fun old => new (larger old)
    copies := fun key member entry long => copied.copies key (same key member long) entry long }

section
variable {path : Route} {pn : Fin 512} {srcTable dstTable fresh : Nat} {pages : σ}

theorem Spaces.graft (spaces : Spaces src dst vm) (blank : Blank vm.memory fresh) (above : path.length < 2)
    (srcReached : sv39.follow (cells vm.memory) src path = some srcTable)
    (dstReached : sv39.follow (cells vm.memory) dst path = some dstTable)
    (valid : cells vm.memory srcTable pn &&& pteFlagV ≠ 0)
    (empty : cells vm.memory dstTable pn = 0) (granted : Granted fresh vm.pages pages)
    (made : after = tableMade vm.memory (cells vm.memory srcTable pn) dstTable pn fresh pages) :
    Copied src dst {pn :: path} vm after ∧ sv39.follow (cells after.memory) dst (pn :: path) = some fresh := by
  have isTable : dstTable ∈ tables dst vm := ⟨path, Nat.le_of_lt above, dstReached⟩
  have different : dstTable ≠ fresh := ne_of_mem_of_not_mem (spaces.backed.used isTable) granted.unused
  have notTable : fresh ∉ tables dst vm := fun member => granted.unused (spaces.backed.used member)
  have noChild : sv39.child (cells vm.memory dstTable pn) = none := by
    rw [empty]
    rfl
  have samePages : after.pages = pages := by rw [made]; rfl
  have grafted : Radix.Grafted sv39 (cells vm.memory) (cells after.memory) dstTable fresh pn := by
    rw [made]
    refine cells_grafted different granted.bounded (pteFlags_lt _) ?_ ?_
      (fun other old => cells_congr (handedOut_outside old)) fun d => ?_
    · rwa [pteFlags_and _ (by decide)]
    · rw [pteFlags_and _ (by decide)]
      refine spaces.srcTree.inner pn above srcReached ?_
      rw [show sv39.child (cells vm.memory srcTable pn) = _ from if_pos valid]
      rfl
    · rw [cells_handedOut, ite_eq_left_iff]
      exact blank.cells
  have freshCells : ∀ d, cells after.memory fresh d = 0 := by
    intro d
    rw [made, cells_tableMade_fresh different.symm, ite_eq_left_iff]
    exact blank.cells
  have elsewhere : ∀ other, other ≠ dstTable → other ≠ fresh → SameBytes after.memory vm.memory other other := by
    rw [made]
    exact fun other notParent notFresh => entryMade_outside notParent (handedOut_outside notFresh)
  rw [← samePages] at granted
  obtain ⟨within, nodes, hung, values⟩ := spaces.backed.graft above dstReached noChild granted grafted
    (fun other offset notParent notFresh inside => elsewhere other notParent notFresh offset inside)
  have used := granted.grows
  have outside : ∀ frame ∈ inUse vm.pages, frame ∉ tables dst vm → SameBytes after.memory vm.memory frame frame :=
    fun frame old notDst => elsewhere frame (ne_of_mem_of_not_mem isTable notDst).symm
      (ne_of_mem_of_not_mem old granted.unused)
  have kept : ∀ table ∈ tables dst vm, ∀ d, ¬ (table = dstTable ∧ d = pn) →
      cells after.memory table d = cells vm.memory table d :=
    fun table member d target => grafted.kept table (ne_of_mem_of_not_mem member notTable) d target
  refine ⟨?_, hung⟩
  refine ⟨spaces.next within.backed used within.fresh outside ?_ ?_, granted.drawn, within.fresh,
    within.follows, outside, ?_, ?_, ?_, ?_, ?_, ?_, ?_⟩
  · intro table member d
    rw [nodes] at member
    rcases member with rfl | old
    · exact .inl (freshCells d)
    · by_cases target : table = dstTable ∧ d = pn
      · rw [target.1, target.2]
        exact .inr (child_valid grafted.child).1
      · rw [kept table old d target]
        exact spaces.clean table old d
  · intro key entry long mapped
    obtain ⟨inUse, notTable⟩ := spaces.dstFrames key entry long ((values key long).symm.trans mapped)
    rw [nodes, Set.mem_sdiff, Set.mem_insert_iff, not_or]
    exact ⟨used inUse, ne_of_mem_of_not_mem inUse granted.unused, notTable⟩
  · intro frame unused
    refine elsewhere frame ?_ ?_
    · rintro rfl
      exact unused (used (spaces.backed.used isTable))
    · rintro rfl
      exact unused granted.isUsed
  · intro meets
    exact absurd empty (meets path srcTable dstTable pn above srcReached dstReached valid)
  · intro other d short new
    rcases spaces.backed.tree.follow_graft_cases above dstReached noChild notTable grafted short with
      ⟨here, atFresh⟩ | ⟨_, same⟩
    · rw [word_cons atFresh, freshCells, here, word, Radix.follow_cons dstReached, noChild]
      rfl
    · rw [word, word, same]
      cases old : sv39.follow (cells vm.memory) dst other with
      | none => rw [Option.elim_none, Option.elim_none]
      | some table =>
        refine kept table ⟨other, short, old⟩ d ?_
        rintro ⟨rfl, rfl⟩
        rw [spaces.backed.tree.distinct short (Nat.le_of_lt above) old dstReached] at new
        exact new rfl
  · intro key entry long mapped
    exact (values key long).trans mapped
  · intro key long hole _
    exact (values key long).trans hole
  · rintro key rfl entry long
    rw [List.length_cons] at long
    omega
  · intro key other entry otherEntry long _ hole _ mapped
    cases ((values key long).trans hole).symm.trans mapped

theorem Backed.fill {root : Nat} {memory : Memory} (backed : Backed root vm)
    (granted : Granted fresh vm.pages pages) (same : ∀ frame ≠ fresh, SameBytes memory vm.memory frame frame) :
    Backed root ⟨memory, pages⟩ ∧
      (∀ path : Route, path.length ≤ 2 →
        sv39.follow (cells memory) root path = sv39.follow (cells vm.memory) root path) ∧
      ∀ key : Route, key.length = 3 →
        sv39.value (cells memory) root key = sv39.value (cells vm.memory) root key := by
  have sameCells : ∀ {path table}, path.length ≤ 2 → sv39.follow (cells vm.memory) root path = some table →
      ∀ d, cells memory table d = cells vm.memory table d := by
    intro path table short reached d
    refine cells_congr (same table ?_) d
    exact ne_of_mem_of_not_mem (backed.used ⟨path, short, reached⟩) granted.unused
  have follows : ∀ {path : Route}, path.length ≤ 2 →
      sv39.follow (cells memory) root path = sv39.follow (cells vm.memory) root path :=
    Radix.follow_congr (fun above reached => sameCells (Nat.le_of_lt above) reached)
  refine ⟨⟨backed.tree.congr sameCells, granted.sound, ?_⟩, fun _ => follows,
    fun _ long => Radix.value_congr sameCells long⟩
  rw [tables, Radix.nodes_congr follows]
  exact backed.used.trans granted.grows

theorem Backed.leafCopied (backed : Backed root vm) (long : path.length = 2)
    (reached : sv39.follow (cells vm.memory) root path = some dstTable)
    (granted : Granted fresh vm.pages pages) (valid : pte &&& pteFlagV ≠ 0)
    (made : after = leafCopied vm.memory pte dstTable pn fresh pages) : Backed root after ∧
      (∀ {path : Route}, path.length ≤ 2 →
        sv39.follow (cells after.memory) root path = sv39.follow (cells vm.memory) root path) ∧
      sv39.value (cells after.memory) root (pn :: path) = some (fresh, pteFlags pte) ∧
      ∀ key : Route, key.length = 3 → key ≠ pn :: path →
        sv39.value (cells after.memory) root key = sv39.value (cells vm.memory) root key := by
  have flags := pteFlags_lt pte
  have bounded : fresh * 1024 + pteFlags pte < 2 ^ 64 := by
    have := granted.bounded
    omega
  obtain ⟨base, copied⟩ : ∃ base, base =
    memcpy vm.memory (frameVa fresh) (frameVa (pteFrame pte)) pageSize := ⟨_, rfl⟩
  obtain ⟨filled, follows, values⟩ := @Backed.fill _ _ _ vm _ _ _ base backed granted
    (fun frame different => copied ▸ memcpy_page_outside different)
  have midReached := (follows path (Nat.le_of_eq long)).trans reached
  obtain ⟨within, written, kept⟩ := @Backed.write _ _ _ _ _ _ _ _ pn filled long midReached bounded
  rw [sv39_leaf_entry flags (by rwa [pteFlags_and _ (by decide)])] at written
  rw [Memory.leafCopied, entryMade, paPte_frame granted.bounded flags, ← copied] at made
  cases made
  refine ⟨within.backed, fun {other} short => ?_, written, fun key keyLong different => ?_⟩
  · rw [filled.tree.follow_write long midReached
      (fun table different d => cells_store_other (fun target => different target.1)) short]
    exact follows other short
  · exact (kept key keyLong different).trans (values key keyLong)

/-- What the copy of a leaf changes: the entry at `pn :: path`, and the page that was granted. -/
structure LeafWritten (dst : Nat) (path : Route) (pn : Fin 512) (pte dstTable fresh : Nat)
    (vm after : Vmem σ) : Prop where
  reached : sv39.follow (cells vm.memory) dst path = some dstTable
  granted : Granted fresh vm.pages after.pages
  backed : Backed dst after
  follows : ∀ {other : Route}, other.length ≤ 2 →
    sv39.follow (cells after.memory) dst other = sv39.follow (cells vm.memory) dst other
  written : sv39.value (cells after.memory) dst (pn :: path) = some (fresh, pteFlags pte)
  values : ∀ key : Route, key.length = 3 → key ≠ pn :: path →
    sv39.value (cells after.memory) dst key = sv39.value (cells vm.memory) dst key
  elsewhere : ∀ other, other ≠ dstTable → other ≠ fresh → SameBytes after.memory vm.memory other other
  otherCells : ∀ table d, ¬ (table = dstTable ∧ d = pn) → table ≠ fresh →
    cells after.memory table d = cells vm.memory table d
  dstWord : cells after.memory dstTable pn &&& pteFlagV ≠ 0

theorem Backed.leafWritten (backed : Backed dst vm) (long : path.length = 2)
    (reached : sv39.follow (cells vm.memory) dst path = some dstTable) (valid : pte &&& pteFlagV ≠ 0)
    (granted : Granted fresh vm.pages pages)
    (made : after = Memory.leafCopied vm.memory pte dstTable pn fresh pages) :
    LeafWritten dst path pn pte dstTable fresh vm after := by
  obtain ⟨backedAfter, follows, written, values⟩ := backed.leafCopied long reached granted valid made
  have samePages : after.pages = pages := by rw [made]; rfl
  refine ⟨reached, samePages ▸ granted, backedAfter, follows, written, values, ?_, ?_, ?_⟩
  · rw [made]
    exact fun other notTable notNew => entryMade_outside notTable (memcpy_page_outside notNew)
  · rw [made]
    exact fun table d target notNew => cells_entryMade_other target (memcpy_page_outside notNew)
  · rwa [made, cells_entryMade granted.bounded, flag_entry fresh (pteFlags_lt _) (by decide),
      pteFlags_and _ (by decide)]

section
variable {pte : Nat} (leaf : LeafWritten dst path pn pte dstTable fresh vm after) (long : path.length = 2)
include leaf

theorem LeafWritten.tables_eq : tables dst after = tables dst vm := Radix.nodes_congr leaf.follows

include long

theorem LeafWritten.isTable : dstTable ∈ tables dst vm := ⟨path, Nat.le_of_eq long, leaf.reached⟩

theorem LeafWritten.outside : ∀ frame ∈ inUse vm.pages, frame ∉ tables dst vm →
    SameBytes after.memory vm.memory frame frame := by
  intro frame inUse notTable
  exact leaf.elsewhere frame (ne_of_mem_of_not_mem (leaf.isTable long) notTable).symm
    (ne_of_mem_of_not_mem inUse leaf.granted.unused)

theorem LeafWritten.spaces (spaces : Spaces src dst vm) : Spaces src dst after := by
  refine spaces.next leaf.backed leaf.granted.grows ?_ (leaf.outside long) ?_ ?_
  · intro table member
    exact .inl (leaf.tables_eq ▸ member)
  · intro table member d
    rw [leaf.tables_eq] at member
    by_cases target : table = dstTable ∧ d = pn
    · rw [target.1, target.2]
      exact .inr leaf.dstWord
    · rw [leaf.otherCells table d target (ne_of_mem_of_not_mem (spaces.backed.used member) leaf.granted.unused)]
      exact spaces.clean table member d
  · intro key entry keyLong mapped
    rw [leaf.tables_eq]
    by_cases here : key = pn :: path
    · subst here
      cases leaf.written.symm.trans mapped
      rw [frameOf, Nat.mod_eq_of_lt leaf.granted.bounded]
      exact ⟨leaf.granted.isUsed, fun member => leaf.granted.unused (spaces.backed.used member)⟩
    · obtain ⟨inUse, notTable⟩ :=
        spaces.dstFrames key entry keyLong ((leaf.values key keyLong here).symm.trans mapped)
      exact ⟨leaf.granted.grows inUse, notTable⟩

theorem LeafWritten.unused (backed : Backed dst vm) (free : frame ∉ inUse after.pages) :
    SameBytes after.memory vm.memory frame frame := by
  refine leaf.elsewhere frame ?_ ?_
  · rintro rfl
    exact free (leaf.granted.grows (backed.used (leaf.isTable long)))
  · rintro rfl
    exact free leaf.granted.isUsed

theorem LeafWritten.words (backed : Backed dst vm) {other : Route} {d : Fin 512}
    (short : other.length ≤ 2) (new : d :: other ≠ pn :: path) :
    word after.memory dst (d :: other) = word vm.memory dst (d :: other) := by
  rw [word, word, leaf.follows short]
  cases old : sv39.follow (cells vm.memory) dst other with
  | none => rw [Option.elim_none, Option.elim_none]
  | some table =>
    refine leaf.otherCells table d ?_ (ne_of_mem_of_not_mem (backed.used ⟨other, short, old⟩) leaf.granted.unused)
    rintro ⟨rfl, rfl⟩
    rw [backed.tree.distinct short (Nat.le_of_eq long) old leaf.reached] at new
    exact new rfl

theorem LeafWritten.meets (spaces : Spaces src dst vm) (meets : Meets src dst vm) : Meets src dst after := by
  intro other sTable dTable d short sReached dReached sValid
  have sReached' := ((spaces.src_same (leaf.outside long)).follow_eq (Nat.le_of_lt short)).symm.trans sReached
  have dReached' := (leaf.follows (Nat.le_of_lt short)).symm.trans dReached
  rw [(spaces.src_same (leaf.outside long)).cells_eq ⟨other, Nat.le_of_lt short, sReached'⟩] at sValid
  have above : dTable ≠ dstTable := by
    refine spaces.backed.tree.ne_of_path_ne (Nat.le_of_eq long) leaf.reached (Nat.le_of_lt short) dReached' ?_
    rintro rfl
    omega
  rw [leaf.otherCells dTable d (fun target => above target.1) (ne_of_mem_of_not_mem
    (spaces.backed.used ⟨other, Nat.le_of_lt short, dReached'⟩) leaf.granted.unused)]
  exact meets other sTable dTable d short sReached' dReached' sValid

end

theorem Spaces.copyLeaf (spaces : Spaces src dst vm) (long : path.length = 2)
    (srcReached : sv39.follow (cells vm.memory) src path = some srcTable)
    (dstReached : sv39.follow (cells vm.memory) dst path = some dstTable)
    (valid : cells vm.memory srcTable pn &&& pteFlagV ≠ 0)
    (leaf : cells vm.memory srcTable pn &&& (pteFlagR ||| pteFlagX) ≠ 0)
    (empty : cells vm.memory dstTable pn = 0) (granted : Granted fresh vm.pages pages)
    (made : after = leafCopied vm.memory (cells vm.memory srcTable pn) dstTable pn fresh pages) :
    Copied src dst {pn :: path} vm after := by
  have source : sv39.value (cells vm.memory) src (pn :: path) =
      some (cells vm.memory srcTable pn >>> pteFlagsWidth, pteFlags (cells vm.memory srcTable pn)) :=
    (Radix.value_cons srcReached pn).trans (if_pos valid)
  have copies : copyable vm.memory src (pn :: path) = some _ :=
    copyable_some.mpr ⟨source, by rwa [pteFlags_and _ (by decide)]⟩
  have change := spaces.backed.leafWritten long dstReached valid granted made
  have hole : sv39.value (cells vm.memory) dst (pn :: path) = none := by
    rw [Radix.value_cons dstReached, empty]
    rfl
  have filled : SameBytes after.memory vm.memory fresh (pteFrame (cells vm.memory srcTable pn)) := by
    rw [made]
    exact leafCopied_fresh (ne_of_mem_of_not_mem (spaces.backed.used (change.isTable long)) granted.unused).symm
  refine ⟨change.spaces long spaces, change.granted.drawn, ?_, ?_, change.outside long,
    fun _ free => change.unused long spaces.backed free, change.meets long spaces,
    fun _ _ short new => change.words long spaces.backed short new, ?_, ?_, ?_, ?_⟩
  · intro table member
    exact .inl (change.tables_eq ▸ member)
  · intro other table short reached
    rw [change.follows short, reached]
  · intro key entry keyLong mapped
    rw [change.values key keyLong, mapped]
    rintro rfl
    cases hole.symm.trans mapped
  · intro key keyLong unmapped noSource
    rw [change.values key keyLong, unmapped]
    rintro rfl
    cases copies.symm.trans noSource
  · rintro key rfl entry _ _ found
    cases copies.symm.trans found
    exact ⟨fresh, granted.unused, change.written, granted.bounded, fun _ => filled⟩
  · intro key other entry otherEntry keyLong otherLong unmapped otherUnmapped mapped otherMapped _
    have only : ∀ k : Route, k.length = 3 → sv39.value (cells vm.memory) dst k = none →
        ∀ e, sv39.value (cells after.memory) dst k = some e → k = pn :: path := by
      intro k kLong kUnmapped e kMapped
      by_contra different
      rw [change.values k kLong different, kUnmapped] at kMapped
      cases kMapped
    rw [only key keyLong unmapped entry mapped, only other otherLong otherUnmapped otherEntry otherMapped]

end

theorem follow_below_none {other : Route}
    (missing : sv39.follow (cells memory) root path = none) (under : path <:+ other) :
    sv39.follow (cells memory) root other = none := by
  induction other with
  | nil =>
    rw [List.suffix_nil.mp under] at missing
    exact missing
  | cons d other ih =>
    rcases List.suffix_cons_iff.mp under with rfl | deeper
    · exact missing
    · rw [Radix.follow, ih deeper]
      rfl

section
variable {memory : Memory} {root table : Nat} {path key : Route} {pn : Fin 512}
  (reached : sv39.follow (cells memory) root path = some table)
  (invalid : ¬ cells memory table pn &&& pteFlagV ≠ 0) (under : key ∈ below (pn :: path))
include reached invalid under

theorem value_below_none : sv39.value (cells memory) root key = none := by
  cases key with
  | nil => rfl
  | cons d other =>
    rcases List.suffix_cons_iff.mp under with same | deeper
    · cases same
      exact (Radix.value_cons reached pn).trans (if_neg invalid)
    · have missing : sv39.follow (cells memory) root (pn :: path) = none :=
        (Radix.follow_cons reached pn).trans (if_neg invalid)
      rw [Radix.value, follow_below_none missing deeper]
      rfl

theorem copyable_below_none : copyable memory root key = none := by
  rw [copyable, value_below_none reached invalid under, Option.filter_none]

end

theorem pointer_of_inner (inner : sv39.inner pte) : pte &&& (pteFlagR ||| pteFlagX) = 0 := by
  have masked : (pteFlagR ||| pteFlagW ||| pteFlagX) &&& (pteFlagR ||| pteFlagX) =
      pteFlagR ||| pteFlagX := by decide
  have zero : pte &&& (pteFlagR ||| pteFlagW ||| pteFlagX) = 0 := inner
  rw [← masked, ← Nat.and_assoc, zero, Nat.zero_and]

theorem Spaces.copySource (spaces : Spaces src dst vm) : CopySource src vm := by
  intro path table pn above reached valid
  refine pointer_of_inner (spaces.srcTree.inner pn above reached ?_)
  rw [show sv39.child (cells vm.memory table pn) = _ from if_pos valid]
  rfl

theorem below_leaf (bottom : path.length = 2)
    (long : key.length = 3) : key ∈ below (pn :: path) ↔ key = pn :: path := by
  constructor
  · intro under
    exact (List.IsSuffix.eq_of_length under (by rw [List.length_cons, bottom, long])).symm
  · rintro rfl
    exact List.suffix_refl _

theorem above_key (above : path.length < 2)
    (long : key.length = 3) : key ∈ insert (pn :: path) done ↔ key ∈ done := by
  rw [Set.mem_insert_iff, or_iff_right]
  rintro rfl
  rw [List.length_cons] at long
  omega

/-- The states differ in free pages at most. -/
structure Agree (vm vm' : Vmem σ) : Prop where
  pages : vm'.pages = vm.pages
  bytes : ∀ frame ∈ inUse vm.pages, SameBytes vm'.memory vm.memory frame frame

theorem Agree.refl (vm : Vmem σ) : Agree vm vm := ⟨rfl, fun _ _ _ _ => rfl⟩

theorem Agree.leafCopied {dstTable fresh : Nat}
    (agree : Agree vm vm') (granted : Granted fresh vm.pages pages) (srcUsed : pteFrame pte ∈ inUse vm.pages) :
    Agree (leafCopied vm.memory pte dstTable pn fresh pages)
      (leafCopied vm'.memory pte dstTable pn fresh pages) := by
  unfold Memory.leafCopied entryMade
  refine ⟨rfl, fun frame used offset inside => Memory.storeBytes_congr ?_⟩
  by_cases new : frame = fresh
  · have within : frameVa fresh ≤ frameVa frame + offset ∧ frameVa frame + offset < frameVa fresh + pageSize := by
      rw [new]
      unfold pageSize
      omega
    rw [memcpy_page, memcpy_page, if_pos within, if_pos within, new, Nat.add_sub_cancel_left]
    exact agree.bytes _ srcUsed offset inside
  · rw [memcpy_page_outside new offset inside, memcpy_page_outside new offset inside]
    refine agree.bytes frame ?_ offset inside
    have grown : frame ∈ inUse pages := used
    rw [granted.used] at grown
    exact grown.resolve_left new

/-- Two runs of a copy in step: they are the same run, where pages that fit are blank; or they differ
in the bytes of unused pages, and no table is made. -/
def Clean (src dst : Nat) (fit : Nat → Prop) (start vm vm' : Vmem σ) : Prop :=
  (vm' = vm ∧ ∀ frame, fit frame → frame ∉ inUse start.pages → Blank start.memory frame) ∨
    (Meets src dst vm ∧ Agree vm vm')

theorem Clean.agree {fit : Nat → Prop} {start : Vmem σ} (clean : Clean src dst fit start vm vm') :
    Agree vm vm' := by
  rcases clean with ⟨rfl, _⟩ | ⟨_, agree⟩
  · exact .refl vm'
  · exact agree

def TableAt (dst : Nat) (path : Route) (table : Nat) (vm : Vmem σ) : Prop :=
  path.length ≤ 2 ∧ sv39.follow (cells vm.memory) dst path = some table

omit [PageAllocator σ] [LawfulPages σ] in
theorem TableAt.isTable {table : Nat} (place : TableAt dst path table vm) : table ∈ tables dst vm :=
  ⟨path, place.1, place.2⟩

theorem Copied.tableAt (copied : Copied src dst done vm after) (path : Route) (table : Nat)
    (place : TableAt dst path table vm) : TableAt dst path table after :=
  ⟨place.1, copied.follows place.1 place.2⟩

theorem Spaces.skipped {srcTable dstTable : Nat}
    (spaces : Spaces src dst vm) (srcReached : sv39.follow (cells vm.memory) src path = some srcTable)
    (place : TableAt dst path dstTable vm)
    (skipped : Skipped (cells vm.memory srcTable pn) path (cells vm.memory dstTable pn))
    (under : key ∈ below (pn :: path)) (long : key.length = 3)
    (hole : sv39.value (cells vm.memory) dst key = none) : copyable vm.memory src key = none := by
  rcases skipped with invalid | ⟨bottom, pointer | full⟩
  · exact copyable_below_none srcReached invalid under
  · rw [(below_leaf bottom long).mp under]
    cases found : copyable vm.memory src (pn :: path) with
    | none => rfl
    | some entry =>
      obtain ⟨mapped, leaf⟩ := copyable_some.mp found
      obtain ⟨_, same⟩ := leaf_some ((Radix.value_cons srcReached pn).symm.trans mapped)
      rw [same, pteFlags_and _ (by decide)] at leaf
      exact absurd pointer leaf
  · rw [(below_leaf bottom long).mp under, Radix.value_cons place.2] at hole
    cases hole.symm.trans (if_pos ((spaces.clean dstTable place.isTable pn).resolve_left full))

section
variable {start vm' after' : Vmem σ} {path : Route} {pn : Fin 512} {srcTable dstTable fresh : Nat}
  {pages : σ} {fit : Nat → Prop} (begins : Spaces src dst start) (copied : Copied src dst done start vm)
  (clean : Clean src dst fit start vm vm') (place : TableAt dst path dstTable vm)
  (reached : sv39.follow (cells start.memory) src path = some srcTable)

include begins copied reached

theorem Copied.source_word (short : path.length ≤ 2) :
    cells vm.memory srcTable pn = cells start.memory srcTable pn :=
  (begins.src_same copied.outside).cells_eq ⟨path, short, reached⟩ pn

theorem Copied.source_reached (short : path.length ≤ 2) : sv39.follow (cells vm.memory) src path = some srcTable :=
  ((begins.src_same copied.outside).follow_eq short).trans reached

theorem Copied.skip_entry (place : TableAt dst path dstTable vm)
    (skipped : Skipped (cells start.memory srcTable pn) path (cells vm.memory dstTable pn)) :
    Copied src dst (done ∪ below (pn :: path)) start vm := by
  rw [← copied.source_word begins reached place.1] at skipped
  exact copied.trans begins (copied.spaces.skip (fun key under long hole =>
    copied.spaces.skipped (copied.source_reached begins reached place.1) place skipped under long hole))

include clean place

theorem Copied.leaf_entry (bottom : path.length = 2) (valid : cells start.memory srcTable pn &&& pteFlagV ≠ 0)
    (leaf : cells start.memory srcTable pn &&& (pteFlagR ||| pteFlagX) ≠ 0)
    (empty : cells vm.memory dstTable pn = 0) (granted : Granted fresh vm.pages pages)
    (made : after = leafCopied vm.memory (cells start.memory srcTable pn) dstTable pn fresh pages)
    (made' : after' = leafCopied vm'.memory (cells start.memory srcTable pn) dstTable pn fresh pages) :
    Copied src dst (done ∪ below (pn :: path)) start after ∧ Clean src dst fit start after after' ∧
      ∀ other table, TableAt dst other table vm → TableAt dst other table after := by
  have srcReached := copied.source_reached begins reached place.1
  rw [← copied.source_word begins reached place.1] at valid leaf made made'
  have step := copied.spaces.copyLeaf bottom srcReached place.2 valid leaf empty granted made
  refine ⟨(copied.trans begins step).extend ?_ ?_, ?_, step.tableAt⟩
  · exact Set.union_subset_union_right _ (Set.singleton_subset_iff.mpr (List.suffix_refl _))
  · rintro key (old | under) long
    · exact .inl old
    · exact .inr ((below_leaf bottom long).mp under)
  · rcases clean with ⟨rfl, blank⟩ | ⟨meets, agree⟩
    · exact .inl ⟨made'.trans made.symm, blank⟩
    · refine .inr ⟨step.meets meets, ?_⟩
      rw [made, made']
      refine agree.leafCopied granted ?_
      exact copied.spaces.srcFrames (pn :: path) _ (by rw [List.length_cons, bottom])
        ((Radix.value_cons srcReached pn).trans (if_pos valid))

theorem Copied.table_entry (above : path.length < 2) (valid : cells start.memory srcTable pn &&& pteFlagV ≠ 0)
    (empty : cells vm.memory dstTable pn = 0) (granted : Granted fresh vm.pages pages) (fits : fit fresh)
    (made : after = tableMade vm.memory (cells start.memory srcTable pn) dstTable pn fresh pages)
    (made' : after' = tableMade vm'.memory (cells start.memory srcTable pn) dstTable pn fresh pages) :
    Copied src dst (insert (pn :: path) done) start after ∧ Clean src dst fit start after after' ∧
      TableAt dst (pn :: path) fresh after ∧
      ∀ other table, TableAt dst other table vm → TableAt dst other table after := by
  have srcReached := copied.source_reached begins reached place.1
  rw [← copied.source_word begins reached place.1] at valid made made'
  obtain ⟨rfl, fitBlank⟩ := clean.resolve_right (fun meets =>
    meets.1 path srcTable dstTable pn above srcReached place.2 valid empty)
  have blank : Blank vm'.memory fresh := by
    intro offset late inside
    rw [copied.unused fresh granted.unused offset inside]
    exact fitBlank fresh fits (fun old => granted.unused (copied.drawn.used old)) offset late inside
  obtain ⟨step, child⟩ := copied.spaces.graft blank above srcReached place.2 valid empty granted made
  rw [← Set.union_singleton]
  refine ⟨copied.trans begins step, .inl ⟨made'.trans made.symm, fitBlank⟩, ⟨?_, child⟩, step.tableAt⟩
  rw [List.length_cons]
  omega

end

theorem Spaces.copyRule {start : Vmem σ} {fit : Nat → Prop} (begins : Spaces src dst start) :
    CopyRule src start (occupied start.memory dst) fit
      (fun done vm vm' => Copied src dst done start vm ∧ Clean src dst fit start vm vm') (TableAt dst) where
  sound holds := holds.1.spaces.backed.sound
  samePages holds := holds.2.agree.pages
  source holds short reached pn := by
    have same := @Copied.source_word _ _ _ _ _ _ _ _ _ pn _ begins holds.1 reached short
    refine ⟨same, (cells_congr (holds.2.agree.bytes _ ?_) pn).trans same⟩
    exact holds.1.drawn.used (begins.srcTables ⟨_, short, reached⟩).1
  target holds place _ pn := cells_congr (holds.2.agree.bytes _ (holds.1.spaces.backed.used place.isTable)) pn
  expected holds place short new := by
    rw [occupied, bne_eq_false_iff_eq, ← holds.1.words _ _ short new, word_cons place.2]
    exact .inl Iff.rfl
  skip holds place _ reached _ skipped := ⟨holds.1.skip_entry begins reached place skipped, holds.2⟩
  leaf holds place bottom reached _ valid leaf empty granted made made' := by
    obtain ⟨copied, clean, kept⟩ :=
      holds.1.leaf_entry begins holds.2 place reached bottom valid leaf empty granted made made'
    exact ⟨⟨copied, clean⟩, kept⟩
  table holds place above reached _ valid empty granted fits made made' := by
    obtain ⟨copied, clean, child, kept⟩ :=
      holds.1.table_entry begins holds.2 place reached above valid empty granted fits made made'
    exact ⟨⟨copied, clean⟩, child, kept⟩
  pointer holds place above _ _ _ full := by
    refine ⟨⟨holds.1.extend (Set.subset_insert _ _) (fun _ member long => (above_key above long).mp member),
      holds.2⟩, ?_, ?_⟩
    · rw [List.length_cons]
      omega
    · exact (Radix.follow_cons place.2 _).trans
        (if_pos ((holds.1.spaces.clean _ place.isTable _).resolve_left full))

theorem Spaces.copies {vm' : Vmem σ} {fit : Nat → Prop} (spaces : Spaces src dst vm)
    (clean : Clean src dst fit vm vm vm')
    (serves : Serves fit 0 (requests vm.memory (occupied vm.memory dst) 2 [] src) vm.pages) :
    ∃ after after', Memory.vmUvmcpy (frameVa src) (frameVa dst) false vm = .ok after ∧
      Memory.vmUvmcpy (frameVa src) (frameVa dst) false vm' = .ok after' ∧
      Copied src dst { path | path ≠ [] } vm after ∧ Agree after after' := by
  obtain ⟨after, after', run, run', copied, clean⟩ := spaces.copyRule.vmUvmcpy spaces.copySource
    ⟨spaces.skip nofun, clean⟩ ⟨Nat.zero_le 2, rfl⟩ serves
  exact ⟨after, after', run, run', copied, clean.agree⟩

theorem Spaces.vmUvmcpy (spaces : Spaces src dst vm)
    (clean : (vm' = vm ∧ ZeroFilled vm) ∨ (Meets src dst vm ∧ Agree vm vm'))
    (grants : Grants (demand vm.memory src) vm.pages) :
    ∃ after after', Memory.vmUvmcpy (frameVa src) (frameVa dst) false vm = .ok after ∧
      Memory.vmUvmcpy (frameVa src) (frameVa dst) false vm' = .ok after' ∧
      Copied src dst { path | path ≠ [] } vm after ∧ Agree after after' := by
  refine @Spaces.copies _ _ _ src dst vm vm' (fun frame => frame ∉ inUse vm.pages → ZeroFilled vm →
    Blank vm.memory frame) spaces ?_ (grants.serves ?_ spaces.backed.sound ?_)
  · refine clean.imp_left fun same => ⟨same.1, fun frame fits unused => fits unused same.2⟩
  · rw [Nat.add_zero]
    exact requests_le_demand
  · exact fun frame _ unused zero offset _ inside => zero frame unused offset inside

end Kalorona.Memory
