import Kalorona.Memory.Bootmem
import Kalorona.Data.Runs
import Mathlib.Data.Set.Basic

namespace Kalorona.Memory

open Kalorona.Data Kalorona.Device Kalorona.Utilities

/-! # Runs of the boot memory allocator

A request may start in the last page of the one before it.  What makes this safe is that
nothing else lies in the rest of that page, whatever is allocated or reserved in between.
-/

def rangePages (node : BootmemNode) (paddr size : Nat) : Set Nat :=
  { page | pageRoundDown paddr >>> pageShift ≤ node.beginPpn + page ∧
    node.beginPpn + page < pageRoundUp (ulong (paddr + size)) >>> pageShift }

def mapPages (node : BootmemNode) : Set Nat :=
  rangePages node (pmaVa2Pa node.memMapAddr) node.memMapSize

def Covers (first size page : Nat) : Prop :=
  page * 4096 < first + size ∧ first < (page + 1) * 4096

variable {page paddr size first : Nat} {after node : BootmemNode} {segments : List RamSegment}

section
variable {message : String} {count index : Nat} {map after : Bitmap}

theorem setBits_keeps (run : setBits message count index map = .ok after)
    (set : testBit map page = true) : testBit after page = true := by
  induction count generalizing index map with
  | zero =>
    cases run
    exact set
  | succ count ih =>
    rw [setBits] at run
    split at run
    · cases run
    · apply ih run
      rw [testBit_testAndSetBit, set]
      exact ite_self _

theorem setBits_were_clear (bounded : index + count < 2 ^ 64)
    (run : setBits message count index map = .ok after) (lower : index ≤ page)
    (upper : page < index + count) : testBit map page = false := by
  induction count generalizing index map with
  | zero => omega
  | succ count ih =>
    rw [setBits, testAndSetBit_fst] at run
    split at run
    · cases run
    next clear =>
      by_cases first : page = index
      · rw [first]
        exact Bool.eq_false_iff.mpr clear
      · rw [ulong_of_lt (by omega)] at run
        have later := ih (by omega) run (by omega) (by omega)
        rwa [testBit_testAndSetBit, if_neg first] at later

end

theorem bootmemReserve_marks
    (pages : node.beginPpn + node.numPpn ≤ 2 ^ 52) (run : bootmemReserve paddr size node = .ok after) :
    ∃ memMap, after = { node with memMap } ∧
      (∀ page, testBit node.memMap page = true → testBit memMap page = true) ∧
      ∀ page ∈ rangePages node paddr size, page < node.numPpn ∧
        testBit node.memMap page = false ∧ testBit memMap page = true := by
  have small : pageRoundDown paddr >>> pageShift < 2 ^ 52 := by
    have bound : pageRoundDown paddr < 2 ^ 64 := Nat.lt_of_le_of_lt Nat.and_le_right (by decide)
    rw [shiftRight_pageShift]
    omega
  unfold bootmemReserve bootmemUpdateRange at run
  unfold rangePages
  simp only [ulong_of_lt (show node.beginPpn + node.numPpn < 2 ^ 64 by omega)] at run
  generalize pageRoundDown paddr >>> pageShift = begPpn at run small ⊢
  generalize pageRoundUp (ulong (paddr + size)) >>> pageShift = endPpn at run ⊢
  split at run
  · cases run
  · split at run
    · cases run
    · obtain ⟨memMap, set, final⟩ := Result.bind_ok run
      refine ⟨memMap, (Except.ok.inj final).symm, fun page => setBits_keeps set, ?_⟩
      rintro page ⟨lower, upper⟩
      rw [ulongSub_of_le (show node.beginPpn ≤ endPpn by omega) (by omega),
        ulongSub_of_le (show node.beginPpn ≤ begPpn by omega) (by omega),
        ulongSub_of_le (by omega) (by omega)] at set
      refine ⟨by omega, setBits_were_clear (by omega) set (by omega) (by omega), ?_⟩
      rw [testBit_setBits (by omega) set, decide_eq_true (by omega), Bool.true_or]

theorem bootmemUpdateRange_memMap {function : String} {update : Nat → Nat → Bitmap → Result Bitmap}
    (run : bootmemUpdateRange function update paddr size node = .ok after) :
    ∃ memMap, after = { node with memMap } := by
  unfold bootmemUpdateRange at run
  dsimp only at run
  split at run
  · cases run
  · split at run
    · cases run
    · obtain ⟨memMap, _, final⟩ := Result.bind_ok run
      exact ⟨memMap, (Except.ok.inj final).symm⟩

theorem bootmemFreeAvailableSegments_memMap
    (run : bootmemFreeAvailableSegments segments node = .ok after) : ∃ memMap, after = { node with memMap } := by
  induction segments generalizing node with
  | nil =>
    cases run
    exact ⟨after.memMap, rfl⟩
  | cons first rest ih =>
    obtain ⟨middle, free, remaining⟩ := Result.bind_ok run
    obtain ⟨_, rfl⟩ := bootmemUpdateRange_memMap free
    obtain ⟨memMap, rfl⟩ := ih remaining
    exact ⟨memMap, rfl⟩

theorem bootmemInit_fresh {stale : Bitmap}
    (run : bootmemInit segments stale = .ok node) (pages : node.beginPpn + node.numPpn ≤ 2 ^ 52) :
    node.lastPageOffset = 0 ∧ ∀ page ∈ mapPages node, testBit node.memMap page = true := by
  obtain ⟨freed, free, reserve⟩ := Result.bind_ok run
  obtain ⟨freedMap, rfl⟩ := bootmemFreeAvailableSegments_memMap free
  obtain ⟨_, same⟩ := bootmemUpdateRange_memMap reserve
  obtain ⟨memMap, rfl, _, marked⟩ := bootmemReserve_marks (by subst same; exact pages) reserve
  exact ⟨rfl, fun page member => (marked page member).2.2⟩

/-- A node with all that was handed out and reserved. -/
structure BootLedger where
  node : BootmemNode
  memory : Memory
  handedOut : List (Nat × Nat)
  reserved : Set Nat

def BootLedger.start (node : BootmemNode) (memory : Memory) : BootLedger :=
  ⟨node, memory, [], mapPages node⟩

/-- A call of `bootmem_reserve` that returns, or one of `bootmem_alloc` with arguments that are
allowed in the state. -/
inductive BootStep (allowed : Nat → Nat → Nat → BootmemNode → Prop) :
    BootLedger → BootLedger → Prop
  | reserve {ledger : BootLedger} {paddr size : Nat} {node : BootmemNode}
      (run : bootmemReserve paddr size ledger.node = .ok node) :
      BootStep allowed ledger
        { ledger with node, reserved := ledger.reserved ∪ rangePages ledger.node paddr size }
  | refuse {ledger : BootLedger} {size alignment goal : Nat} {node : BootmemNode} {memory : Memory}
      (call : allowed size alignment goal ledger.node)
      (run : bootmemAlloc size alignment goal ledger.node ledger.memory = .ok (0, node, memory)) :
      BootStep allowed ledger { ledger with node, memory }
  | alloc {ledger : BootLedger} {size alignment goal address : Nat} {node : BootmemNode}
      {memory : Memory} (call : allowed size alignment goal ledger.node)
      (run : bootmemAlloc size alignment goal ledger.node ledger.memory =
        .ok (address, node, memory)) (returned : address ≠ 0) :
      BootStep allowed ledger
        { ledger with node, memory, handedOut := (address, size) :: ledger.handedOut }

/-- A request that was handed out lies on marked pages of the node and leaves the unused end of
the last page alone. -/
structure Kept (node : BootmemNode) (first size : Nat) : Prop where
  positive : 0 < size
  inside : first + size ≤ node.numPpn * 4096
  marked : ∀ page, Covers first size page → testBit node.memMap page = true
  tail : node.lastPageOffset ≠ 0 → first + size ≤ node.lastPage * 4096 + node.lastPageOffset ∨
    (node.lastPage + 1) * 4096 ≤ first

/-- All that was handed out or reserved is still marked. -/
structure BootSound (ledger : BootLedger) : Prop where
  fits : NodeFits ledger.node
  kept : ∀ region ∈ ledger.handedOut, ∃ first,
    region.1 = pmaPa2Va (ledger.node.beginPpn * 4096 + first) ∧ Kept ledger.node first region.2
  reserved : ∀ page ∈ ledger.reserved, testBit ledger.node.memMap page = true
  lastPage : ledger.node.lastPageOffset ≠ 0 → ledger.node.lastPage ∉ ledger.reserved

section
variable {node after : BootmemNode} {size alignment spot first marked : Nat}

theorem Taken.met_before {page : Nat} (taken : Taken node size alignment spot first marked after)
    (set : testBit node.memMap page = true) (covers : Covers first size page) :
    node.lastPageOffset ≠ 0 ∧ page = node.lastPage ∧
      node.lastPage * 4096 + node.lastPageOffset ≤ first := by
  have upper := taken.fits
  obtain ⟨before, behind⟩ := covers
  have outside : ¬ (spot ≤ page ∧ page < spot + marked) := by
    rintro ⟨lower, inside⟩
    have clear := (taken.clear page lower inside).2
    rw [set] at clear
    cases clear
  rcases taken.starts with fresh | ⟨used, follows, lower⟩
  · omega
  · exact ⟨used, by omega, lower⟩

theorem Taken.apart {start length : Nat} (taken : Taken node size alignment spot first marked after)
    (positive : 0 < size) (kept : Kept node start length) : start + length ≤ first ∨ first + size ≤ start := by
  have lengthPositive := kept.positive
  by_contra meets
  -- The page of the first common byte.
  obtain ⟨used, last, behind⟩ := @Taken.met_before _ _ _ _ _ _ _ (max start first / 4096) taken
    (kept.marked _ ⟨by omega, by omega⟩) ⟨by omega, by omega⟩
  rcases kept.tail used with before | beyond
  · omega
  · omega

section
variable (taken : Taken node size alignment spot first marked after)
include taken

theorem Taken.covers (lower : spot ≤ page) (upper : page < spot + marked) : Covers first size page := by
  have tight := taken.tight (by omega)
  have near := taken.near
  constructor
  · refine Nat.lt_of_le_of_lt (Nat.mul_le_mul_right _ ?_) tight
    omega
  · omega

theorem Taken.last_cases
    (used : after.lastPageOffset ≠ 0) : (after.lastPage = node.lastPage ∧ node.lastPageOffset ≠ 0) ∨
      testBit node.memMap after.lastPage = false := by
  obtain ⟨_, upper, same | new⟩ := taken.lastPage used
  · exact .inl same
  · exact .inr (taken.clear _ new upper).2

theorem Taken.keeps {start length : Nat}
    (positive : 0 < size) (kept : Kept node start length) : Kept after start length := by
  refine ⟨kept.positive, ?_, ?_, ?_⟩
  · rw [taken.same.numPpn]
    exact kept.inside
  · intro page covers
    rw [taken.bits, kept.marked page covers, Bool.or_true]
  · intro used
    have lengthPositive := kept.positive
    have offset := taken.offset
    obtain ⟨ends, _, _⟩ := taken.lastPage used
    rcases taken.apart positive kept with before | behind
    · left
      omega
    · -- Behind the new end, the old request cannot be in the same page.
      right
      by_contra inPage
      have covers : Covers start length after.lastPage := ⟨by omega, by omega⟩
      rcases taken.last_cases used with ⟨same, wasUsed⟩ | clear
      · rcases kept.tail wasUsed with before | beyond
        · obtain ⟨_, _, atLast⟩ := taken.met_before (kept.marked _ covers) ⟨by omega, by omega⟩
          omega
        · omega
      · rw [kept.marked _ covers] at clear
        cases clear

theorem Taken.kept (positive : 0 < size) (fits : NodeFits node) : Kept after first size := by
  refine ⟨positive, ?_, fun page covers => taken.marked_of_meets fits covers.1 covers.2, ?_⟩
  · rw [taken.same.numPpn]
    exact taken.inside positive fits
  · intro used
    left
    exact Nat.le_of_eq (taken.lastPage used).1.symm

end

end

def Lands (allowed : Nat → Nat → Nat → BootmemNode → Prop) : Prop :=
  ∀ size alignment goal node memory, NodeFits node → allowed size alignment goal node →
    bootmemAlloc size alignment goal node memory = .ok (0, node, memory) ∨
      0 < size ∧ ∃ unit spot first marked after, bootmemAlloc size alignment goal node memory =
          .ok (pmaPa2Va (node.beginPpn * 4096 + first), after,
            memset memory (pmaPa2Va (node.beginPpn * 4096 + first)) 0 size) ∧
        Taken node size unit spot first marked after

section
variable {ledger after : BootLedger}

theorem BootSound.start {stale : Bitmap} (run : bootmemInit segments stale = .ok node)
    (addressable : node.beginPpn + node.numPpn ≤ 2 ^ 26) (memory : Memory) : BootSound (.start node memory) := by
  obtain ⟨offset, marked⟩ := bootmemInit_fresh run (by omega)
  have used : ¬ node.lastPageOffset ≠ 0 := not_not.mpr offset
  have small : node.lastPageOffset < 4096 := by omega
  exact ⟨⟨addressable, small, fun nonzero => absurd nonzero used⟩, by simp [BootLedger.start],
    marked, fun nonzero => absurd nonzero used⟩

theorem BootSound.reserve (sound : BootSound ledger)
    (run : bootmemReserve paddr size ledger.node = .ok node) : BootSound
      { ledger with node, reserved := ledger.reserved ∪ rangePages ledger.node paddr size } := by
  have addressable := sound.fits.addressable
  obtain ⟨memMap, rfl, keeps, range⟩ := bootmemReserve_marks (by omega) run
  refine ⟨⟨addressable, sound.fits.offset, fun used => ?_⟩, ?_, ?_, ?_⟩
  · obtain ⟨inside, marked⟩ := sound.fits.lastPage used
    exact ⟨inside, keeps _ marked⟩
  · intro region member
    obtain ⟨first, address, kept⟩ := sound.kept region member
    exact ⟨first, address, kept.positive, kept.inside,
      fun page covers => keeps page (kept.marked page covers), kept.tail⟩
  · rintro page (old | new)
    · exact keeps page (sound.reserved page old)
    · exact (range page new).2.2
  · rintro used (old | new)
    · exact sound.lastPage used old
    · have clear := (range _ new).2.1
      rw [(sound.fits.lastPage used).2] at clear
      cases clear

theorem BootSound.take {unit spot marked : Nat} (memory : Memory)
    (sound : BootSound ledger) (positive : 0 < size) (taken : Taken ledger.node size unit spot first marked node) :
    BootSound { ledger with
      node, memory, handedOut := (pmaPa2Va (ledger.node.beginPpn * 4096 + first), size) :: ledger.handedOut } := by
  refine ⟨(taken.step positive sound.fits).fits, ?_, ?_, ?_⟩
  · intro region member
    dsimp only
    rw [taken.same.beginPpn]
    rcases List.mem_cons.mp member with rfl | old
    · exact ⟨first, rfl, taken.kept positive sound.fits⟩
    · obtain ⟨start, address, kept⟩ := sound.kept region old
      exact ⟨start, address, taken.keeps positive kept⟩
  · intro page member
    exact (taken.step positive sound.fits).keeps page (sound.reserved page member)
  · intro used member
    rcases taken.last_cases used with ⟨same, wasUsed⟩ | clear
    · exact sound.lastPage wasUsed (same ▸ member)
    · rw [sound.reserved _ member] at clear
      cases clear

section
variable {allowed : Nat → Nat → Nat → BootmemNode → Prop} (lands : Lands allowed) (sound : BootSound ledger)
include lands sound

theorem BootSound.bootStep (step : BootStep allowed ledger after) :
    BootSound after ∧ SameNode ledger.node after.node ∧ ledger.reserved ⊆ after.reserved := by
  cases step with
  | reserve run =>
    have addressable := sound.fits.addressable
    obtain ⟨memMap, rfl, _⟩ := bootmemReserve_marks (by omega) run
    exact ⟨sound.reserve run, ⟨rfl, rfl, rfl, rfl⟩, Set.subset_union_left⟩
  | refuse call run =>
    rcases lands _ _ _ _ ledger.memory sound.fits call with null | ⟨_, _, _, _, _, _, given, _⟩
    · cases null.symm.trans run
      exact ⟨sound, .refl _, subset_rfl⟩
    · have zero := (Prod.mk.inj (Except.ok.inj (given.symm.trans run))).1
      exact absurd zero (pmaPa2Va_ne_zero _)
  | alloc call run returned =>
    rcases lands _ _ _ _ ledger.memory sound.fits call with
      null | ⟨positive, _, _, _, _, _, given, taken⟩
    · exact absurd (Prod.mk.inj (Except.ok.inj (null.symm.trans run))).1.symm returned
    · cases given.symm.trans run
      exact ⟨sound.take _ positive taken, taken.same, subset_rfl⟩

theorem BootSound.run (run : Relation.ReflTransGen (BootStep allowed) ledger after) :
    BootSound after ∧ SameNode ledger.node after.node ∧ ledger.reserved ⊆ after.reserved := by
  refine run_preserves (fun state => BootSound state ∧ SameNode ledger.node state.node ∧
    ledger.reserved ⊆ state.reserved) ?_ ⟨sound, .refl _, subset_rfl⟩ run
  rintro before next ⟨kept, same, grows⟩ step
  obtain ⟨nextKept, nextSame, nextGrows⟩ := kept.bootStep lands step
  exact ⟨nextKept, same.trans nextSame, grows.trans nextGrows⟩

end

end

def SmallRequest (size alignment _goal : Nat) (_node : BootmemNode) : Prop :=
  0 < size ∧ size + 4095 < 2 ^ 64 ∧ ∃ power ≤ 12, alignment = 2 ^ power

theorem smallRequest_lands : Lands SmallRequest := by
  rintro size _ goal node memory fits ⟨positive, bounded, power, small, rfl⟩
  rcases bootmemAlloc_taken goal memory fits positive bounded (show power < 64 by omega) with
    null | taken
  · exact .inl null
  · exact .inr ⟨positive, _, taken⟩

theorem pmaPa2Va_byte
    (addressable : node.beginPpn + node.numPpn ≤ 2 ^ 26) (inside : first < node.numPpn * 4096) :
    pmaPa2Va (node.beginPpn * 4096 + first) = vaKernelBegin + (node.beginPpn * 4096 + first) := by
  apply pmaPa2Va_eq
  have bound : (node.beginPpn + node.numPpn) * 4096 ≤ 2 ^ 26 * 4096 := Nat.mul_le_mul_right _ addressable
  rw [Nat.add_mul] at bound
  exact Nat.lt_of_lt_of_le (Nat.add_lt_add_left inside _) bound

theorem BootSound.apart {ledger : BootLedger} {unit spot marked : Nat} (sound : BootSound ledger) (positive : 0 < size)
    (taken : Taken ledger.node size unit spot first marked node) : ∀ region ∈ ledger.handedOut,
      region.1 + region.2 ≤ pmaPa2Va (ledger.node.beginPpn * 4096 + first) ∨
        pmaPa2Va (ledger.node.beginPpn * 4096 + first) + size ≤ region.1 := by
  intro region member
  obtain ⟨start, regionAddress, kept⟩ := sound.kept region member
  have inside := taken.inside positive sound.fits
  have regionPositive := kept.positive
  have regionInside := kept.inside
  rw [regionAddress, pmaPa2Va_byte sound.fits.addressable
      (show first < ledger.node.numPpn * 4096 by omega), pmaPa2Va_byte sound.fits.addressable
      (show start < ledger.node.numPpn * 4096 by omega)]
  rcases taken.apart positive kept with before | behind
  · left
    omega
  · right
    omega

end Kalorona.Memory
