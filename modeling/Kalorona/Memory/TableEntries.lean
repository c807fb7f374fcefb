import Kalorona.Memory.Uvmcpy

namespace Kalorona.Memory

open Kalorona.Data Kalorona.Utilities

/-! # The entries of tables that were built by mapping pages

A page table that starts blank and is only extended by `vm_mappages` has no stale entries: each
entry is zero, or leads to a page that was mapped.
-/

open LawfulPages (inUse)

variable {σ : Type}

/-- Every entry is zero, or is valid and lies on the way to one of these keys. -/
def Along (keys : List Route) (root : Nat) (vm : Vmem σ) : Prop :=
  ∀ path table (pn : Fin 512), path.length ≤ 2 → sv39.follow (cells vm.memory) root path = some table →
    cells vm.memory table pn = 0 ∨
      (cells vm.memory table pn &&& pteFlagV ≠ 0 ∧ ∃ key ∈ keys, pn :: path <:+ key)

section
variable {keys more : List Route} {root : Nat} {vm after : Vmem σ}

theorem Along.mono (along : Along keys root vm) (grown : keys ⊆ more) : Along more root vm := by
  intro path table pn short reached
  refine (along path table pn short reached).imp_right ?_
  rintro ⟨valid, key, member, toward⟩
  exact ⟨valid, key, grown member, toward⟩

theorem Along.congr (along : Along keys root vm) (same : SameTables root vm after) : Along keys root after := by
  intro path table pn short reached
  rw [same.follow_eq short] at reached
  rw [same.cells_eq ⟨path, short, reached⟩]
  exact along path table pn short reached

theorem Along.clean (along : Along keys root vm) :
    ∀ table ∈ tables root vm, ∀ pn, cells vm.memory table pn = 0 ∨ cells vm.memory table pn &&& pteFlagV ≠ 0 := by
  rintro table ⟨path, short, reached⟩ pn
  exact (along path table pn short reached).imp_right And.left

theorem along_blank (blank : ∀ pn, cells vm.memory root pn = 0) : Along [] root vm := by
  intro path table pn _ reached
  cases path with
  | nil =>
    cases reached
    exact .inl (blank pn)
  | cons d path =>
    -- nothing hangs under a blank root
    have missing : sv39.follow (cells vm.memory) root [path.getLastD d] = none := by
      rw [Radix.follow_cons rfl, blank]
      rfl
    have under : [path.getLastD d] <:+ d :: path := by
      induction path using List.reverseRecOn with
      | nil => exact List.suffix_refl _
      | append_singleton front last _ =>
        rw [List.getLastD_concat]
        exact ⟨d :: front, rfl⟩
    rw [follow_below_none missing under] at reached
    cases reached

end

section
variable [PageAllocator σ] [LawfulPages σ] {keys : List Route} {root table fresh : Nat}
  {path : Route} {pn : Fin 512} {vm after : Vmem σ} (along : Along keys root vm) (backed : Backed root vm)
include along backed

theorem Along.graft {memory : Memory} (pages : σ) (above : path.length < 2)
    (reached : sv39.follow (cells vm.memory) root path = some table)
    (empty : sv39.child (cells vm.memory table pn) = none) (unused : fresh ∉ tables root vm)
    (grafted : Radix.Grafted sv39 (cells vm.memory) (cells memory) table fresh pn)
    (blank : ∀ d, cells memory fresh d = 0) (toward : ∃ key ∈ keys, pn :: path <:+ key) :
    Along keys root ⟨memory, pages⟩ := by
  intro other otherTable d short otherReached
  rcases backed.tree.follow_graft_cases above reached empty unused grafted short with
    ⟨_, atFresh⟩ | ⟨_, same⟩
  · cases atFresh.symm.trans otherReached
    exact .inl (blank d)
  · have old := same.symm.trans otherReached
    by_cases target : otherTable = table ∧ d = pn
    · obtain ⟨rfl, rfl⟩ := target
      obtain rfl := backed.tree.distinct short (Nat.le_of_lt above) old reached
      exact .inr ⟨(child_valid grafted.child).1, toward⟩
    · have isTable : otherTable ∈ tables root vm := ⟨other, short, old⟩
      have notFresh : otherTable ≠ fresh := ne_of_mem_of_not_mem isTable unused
      rw [show cells memory otherTable d = _ from grafted.kept otherTable notFresh d target]
      exact along other otherTable d short old

theorem Along.walkFrom {va lv entry : Nat} (level : lv ≤ 2)
    (reached : sv39.follow (cells vm.memory) root (tablePath lv va) = some table) (wanted : key va ∈ keys)
    (run : Memory.walkFrom va true lv (frameVa table) vm = .ok (entry, after)) : Along keys root after := by
  induction lv generalizing table vm with
  | zero =>
    cases run
    exact along
  | succ lv ih =>
    have next := follow_tablePath (by omega) reached
    simp only [Memory.walkFrom] at run
    split at run
    next valid =>
      rw [pmaPa2Va_ptePa] at run
      exact ih along backed (by omega) (next.trans (if_pos valid)) run
    next invalid =>
      have empty : sv39.child (cells vm.memory table (digit (lv + 1) va)) = none := if_neg invalid
      simp only [Bool.not_true, Bool.false_eq_true, if_false] at run
      obtain ⟨⟨_, pages⟩, granted, run⟩ := Result.bind_ok run
      dsimp only at run
      split at run
      · cases run
        exact along
      next notNull =>
        obtain ⟨frame, rfl, fresh⟩ := granted_frame backed.sound granted notNull
        have above : (tablePath (lv + 1) va).length < 2 := by
          rw [tablePath_length]
          omega
        have notTable : frame ∉ tables root vm := fun member => fresh.unused (backed.used member)
        obtain ⟨different, within, _, hung, _⟩ := backed.walk_graft (by omega) reached empty fresh
        have toward : digit (lv + 1) va :: tablePath (lv + 1) va <:+ key va := by
          rw [← tablePath_succ (by omega)]
          exact List.drop_suffix _ _
        have extended := along.graft backed pages above reached empty notTable
          (walk_grafted different fresh.bounded) (fun d => (cells_store_other fun target => different target.1.symm).trans
            (cells_memset_same _ _ d)) ⟨_, wanted, toward⟩
        exact ih extended within.backed (by omega) hung run

theorem Along.write {word : Nat} (long : path.length = 2)
    (reached : sv39.follow (cells vm.memory) root path = some table) (bounded : word < 2 ^ 64)
    (valid : word &&& pteFlagV ≠ 0) (wanted : pn :: path ∈ keys) :
    Along keys root { vm with memory := vm.memory.store64 (entryAddr (frameVa table) pn) word } := by
  intro other otherTable d short otherReached
  have old : sv39.follow (cells vm.memory) root other = some otherTable := by
    rwa [backed.tree.follow_write long reached
      (fun frame different d => cells_store_other fun target => different target.1) short] at otherReached
  by_cases target : otherTable = table ∧ d = pn
  · obtain ⟨rfl, rfl⟩ := target
    obtain rfl := backed.tree.distinct short (Nat.le_of_eq long) old reached
    refine .inr ⟨?_, d :: other, wanted, List.suffix_refl _⟩
    rwa [show cells (vm.memory.store64 _ word) otherTable d = word from cells_store_same bounded]
  · rw [show cells (vm.memory.store64 _ word) otherTable d = _ from cells_store_other target]
    exact along other otherTable d short old

theorem Along.mapFrom {flags count vpn pa : Nat} {code : Int} (flagsSmall : flags < 1024)
    (paBound : pa < 2 ^ 64) (range : vpn + count ≤ 2 ^ 27)
    (wanted : ∀ other, vpn ≤ other → other < vpn + count → key (other * pageSize) ∈ keys)
    (run : Memory.mapFrom (frameVa root) flags count (vpn * pageSize) pa vm = .ok (code, after)) :
    Along keys root after := by
  induction count generalizing vpn pa vm with
  | zero =>
    cases run
    exact along
  | succ count ih =>
    have first : key (vpn * pageSize) ∈ keys := wanted vpn (Nat.le_refl _) (by omega)
    obtain ⟨entry, walked, walk, walkWithin, _, round⟩ := backed.mapFrom_round flagsSmall paBound (by omega) run
    have walkAlong : Along keys root walked := along.walkFrom backed (Nat.le_refl 2) rfl first walk
    rcases round with ⟨_, _, rfl⟩ | ⟨place, _, writeWithin, _, rest⟩
    · exact walkAlong
    have low : pteFlagV ||| flags < 1024 := Nat.or_lt_two_pow (n := 10) (by decide) flagsSmall
    have word : paPte pa ||| pteFlagV ||| flags = pa / 4096 * 1024 + (pteFlagV ||| flags) := by
      rw [Nat.or_assoc, paPte_or pa low]
    have writeAlong : Along keys root
        { walked with memory := walked.memory.store64 entry (paPte pa ||| pteFlagV ||| flags) } := by
      obtain ⟨bottom, bottomReached, rfl⟩ := place
      rw [word]
      refine walkAlong.write walkWithin.backed rfl bottomReached (by omega) ?_ first
      rw [flag_entry _ low (by decide)]
      exact valid_or flags
    exact ih writeAlong writeWithin.backed (ulong_lt _) (by omega)
      (fun other lower upper => wanted other (by omega) (by omega)) rest

end

variable {keys : List Route} {root : Nat}

theorem Backed.walkFrom_draws [PageAllocator σ] [LawfulPages σ] {fit : Nat → Prop}
    {table va lv n entry : Nat} {vm after : Vmem σ} (backed : Backed root vm) (level : lv ≤ 2)
    (reached : sv39.follow (cells vm.memory) root (tablePath lv va) = some table)
    (blank : ∀ pn, cells vm.memory table pn = 0) (serves : Serves fit (n + lv) keys vm.pages)
    (run : Memory.walkFrom va true lv (frameVa table) vm = .ok (entry, after)) : Serves fit n keys after.pages ∧
      ∃ bottom, sv39.follow (cells after.memory) root (tablePath 0 va) = some bottom := by
  induction lv generalizing table vm with
  | zero =>
    cases run
    exact ⟨serves, table, reached⟩
  | succ lv ih =>
    have empty : sv39.child (cells vm.memory table (digit (lv + 1) va)) = none := by
      rw [blank]
      rfl
    have invalid : ¬ vm.memory.load64 (entryAddr (frameVa table) (vaGetPn (lv + 1) va)) &&& pteFlagV ≠ 0 := by
      rw [show vm.memory.load64 (entryAddr (frameVa table) (vaGetPn (lv + 1) va)) = 0 from blank (digit (lv + 1) va)]
      decide
    simp only [Memory.walkFrom] at run
    rw [if_neg invalid] at run
    simp only [Bool.not_true, Bool.false_eq_true, if_false] at run
    obtain ⟨⟨_, pages⟩, granted, run⟩ := Result.bind_ok run
    dsimp only at run
    obtain ⟨notNull, rest⟩ := serves.draw granted
    rw [if_neg notNull] at run
    obtain ⟨fresh, rfl, page⟩ := granted_frame backed.sound granted notNull
    obtain ⟨different, within, _, hung, _⟩ := backed.walk_graft (by omega) reached empty page
    refine ih within.backed (by omega) hung (fun pn => ?_) rest run
    exact (cells_store_other fun target => different target.1.symm).trans (cells_memset_same _ _ pn)

/-- Whether an entry lies on the way to one of these keys. -/
def onWay (keys : List Route) (entry : Route) : Bool := keys.any (entry.isSuffixOf ·)

theorem onWay_iff {entry : Route} : onWay keys entry = true ↔ ∃ key ∈ keys, entry <:+ key := by
  simp only [onWay, List.any_eq_true, List.isSuffixOf_iff_suffix]

theorem value_none_of_word {memory : Memory} {path key : Route} {pn : Fin 512}
    (zero : word memory root (pn :: path) = 0) (under : pn :: path <:+ key) :
    sv39.value (cells memory) root key = none := by
  cases reached : sv39.follow (cells memory) root path with
  | some table =>
    rw [word_cons reached] at zero
    exact value_below_none reached (by rw [zero]; decide) under
  | none =>
    cases key with
    | nil => rfl
    | cons d other =>
      have deeper : path <:+ other := by
        rcases List.suffix_cons_iff.mp under with same | deeper
        · rw [(List.cons.inj same).2]
        · exact (List.suffix_cons pn path).trans deeper
      rw [Radix.value, follow_below_none reached deeper]
      rfl

/-- Where the pages are mapped, exactly the entries on the way to them are occupied. -/
theorem Along.occupied_eq {vm : Vmem σ} (along : Along keys root vm)
    (mapped : ∀ key ∈ keys, sv39.value (cells vm.memory) root key ≠ none) {path : Route}
    (short : path.length ≤ 2) (pn : Fin 512) : occupied vm.memory root (pn :: path) = onWay keys (pn :: path) := by
  rw [Bool.eq_iff_iff, onWay_iff, occupied, bne_iff_ne]
  constructor
  · intro full
    cases reached : sv39.follow (cells vm.memory) root path with
    | none =>
      rw [word, reached] at full
      exact absurd rfl full
    | some table =>
      rw [word_cons reached] at full
      exact ((along path table pn short reached).resolve_left full).2
  · rintro ⟨key, member, under⟩ zero
    exact mapped key member (value_none_of_word zero under)

def pageKeys (lo width : Nat) : List Route :=
  (List.range' lo width).map fun vpn => key (vpn * pageSize)

theorem mem_pageKeys {lo width vpn : Nat} (lower : lo ≤ vpn) (upper : vpn < lo + width) :
    key (vpn * pageSize) ∈ pageKeys lo width :=
  List.mem_map.mpr ⟨vpn, List.mem_range'_1.mpr ⟨lower, upper⟩, rfl⟩

end Kalorona.Memory
