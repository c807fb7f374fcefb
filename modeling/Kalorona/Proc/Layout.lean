import Kalorona.Proc.AddressSpace

namespace Kalorona.Proc

open Kalorona.Data Kalorona.Utilities Kalorona.Memory

/-! # The layout of a process

The heap grows up from `VA_USER_BEGIN` and the stack down from the user handler;
the page of the trapframe follows the handler.
-/

open LawfulPages (Sound managed inUse)

def heapVpn : Nat := vaUserBegin / pageSize
def handlerVpn : Nat := vaUserUserHandlerBegin / pageSize
def trapframeVpn : Nat := vaUserTrapframeBegin / pageSize

variable {σ : Type} [PageAllocator σ] [LawfulPages σ]

omit [LawfulPages σ] in
theorem vmMapUserHandler_eq {userHandlerPa root : Nat} {vm : Vmem σ} :
    vmMapUserHandler userHandlerPa (frameVa root) vm = mapFrom (frameVa root) (pteFlagR ||| pteFlagX)
      ((vaUserUserHandlerSize + 4095) / 4096) (handlerVpn * pageSize) userHandlerPa vm := by
  rw [vmMapUserHandler, show vaUserUserHandlerBegin = handlerVpn * pageSize by decide,
    vmMappages_eq (by decide) (by decide)]

omit [LawfulPages σ] in
theorem vmMappages_trapframe {root pa flags : Nat} {vm : Vmem σ} :
    vmMappages (frameVa root) vaUserTrapframeBegin pa trapframeSize flags vm = mapFrom (frameVa root) flags
      ((trapframeSize + 4095) / 4096) (trapframeVpn * pageSize) pa vm := by
  rw [show vaUserTrapframeBegin = trapframeVpn * pageSize by decide, vmMappages_eq (by decide) (by decide)]

/-- The frames of `mine` that are still in use, and those taken into use since. -/
def taken (mine : Set Nat) (before after : σ) : Set Nat :=
  { frame | frame ∈ inUse after ∧ (frame ∈ mine ∨ frame ∉ inUse before) }

/-- A page table with these user pages, the handler and the trapframe, all frames owned by the
process; `mine` are the frames in use that it was given. -/
structure LaidPages (root kstack : Nat) (user mine : Set Nat) (vm : Vmem σ) : Prop where
  backed : Backed root vm
  rootManaged : root ∈ managed vm.pages
  mineUsed : mine ⊆ inUse vm.pages
  tablesMine : tables root vm ⊆ mine
  kstackMine : kstack ∈ mine ∩ managed vm.pages
  kstackApart : kstack ∉ tables root vm
  low : ∀ vpn ∈ user, vpn < handlerVpn
  mapped : ∀ vpn ∈ user, ∃ entry, pageMap (frameVa root) vm vpn = some entry ∧
    entry.1 < 2 ^ 26 ∧ entry.2 &&& (pteFlagV ||| pteFlagU) = pteFlagV ||| pteFlagU
  kernel : ∀ vpn, handlerVpn ≤ vpn → vpn ≤ trapframeVpn →
    ∃ entry, pageMap (frameVa root) vm vpn = some entry ∧ entry.2 ≠ pteFlagV
  only : ∀ vpn < 2 ^ 27, ∀ entry, pageMap (frameVa root) vm vpn = some entry →
    vpn ∈ user ∨ (handlerVpn ≤ vpn ∧ vpn ≤ trapframeVpn)
  frames : ∀ vpn ∈ insert trapframeVpn user, ∀ entry, pageMap (frameVa root) vm vpn = some entry →
    frameOf entry ∈ (mine ∩ managed vm.pages) \ insert kstack (tables root vm)
  distinct : ∀ vpn ∈ insert trapframeVpn user, ∀ other ∈ insert trapframeVpn user,
    ∀ entry otherEntry, pageMap (frameVa root) vm vpn = some entry →
    pageMap (frameVa root) vm other = some otherEntry → frameOf entry = frameOf otherEntry →
    vpn = other

section
variable {root kstack : Nat} {user mine : Set Nat} {vm after : Vmem σ}

theorem LaidPages.bounded (laid : LaidPages root kstack user mine vm) {vpn : Nat}
    (member : vpn ∈ insert trapframeVpn user) : vpn < 2 ^ 27 := by
  rcases member with rfl | inUser
  · decide
  · exact Nat.lt_trans (laid.low vpn inUser) (by decide)

/-- Others use the allocator and the memory, and leave these frames and the tables alone. -/
structure Elsewhere (root : Nat) (mine : Set Nat) (before after : Vmem σ) : Prop where
  sound : Sound after.pages
  sameManaged : managed after.pages = managed before.pages
  kept : mine ⊆ inUse after.pages
  bytes : SameTables root before after

section
variable (elsewhere : Elsewhere root mine vm after)
include elsewhere

theorem Elsewhere.tables_eq : tables root after = tables root vm := elsewhere.bytes.tables_eq

theorem Elsewhere.pageMap_eq (vpn : Nat) : pageMap (frameVa root) after vpn = pageMap (frameVa root) vm vpn :=
  elsewhere.bytes.pageMap_eq vpn

theorem Elsewhere.backed (backed : Backed root vm) (tablesMine : tables root vm ⊆ mine) : Backed root after where
  tree := elsewhere.bytes.tree backed.tree
  sound := elsewhere.sound
  used := by
    rw [elsewhere.tables_eq]
    exact tablesMine.trans elsewhere.kept

end

theorem LaidPages.elsewhere (laid : LaidPages root kstack user mine vm)
    (elsewhere : Elsewhere root mine vm after) : LaidPages root kstack user mine after where
  backed := elsewhere.backed laid.backed laid.tablesMine
  rootManaged := by
    rw [elsewhere.sameManaged]
    exact laid.rootManaged
  mineUsed := elsewhere.kept
  tablesMine := by
    rw [elsewhere.tables_eq]
    exact laid.tablesMine
  kstackMine := by
    rw [elsewhere.sameManaged]
    exact laid.kstackMine
  kstackApart := by
    rw [elsewhere.tables_eq]
    exact laid.kstackApart
  low := laid.low
  mapped := by simpa only [elsewhere.pageMap_eq] using laid.mapped
  kernel := by simpa only [elsewhere.pageMap_eq] using laid.kernel
  only := by simpa only [elsewhere.pageMap_eq] using laid.only
  frames := by
    simpa only [elsewhere.pageMap_eq, elsewhere.tables_eq, elsewhere.sameManaged] using laid.frames
  distinct := by simpa only [elsewhere.pageMap_eq] using laid.distinct

theorem alloc_frames {order vaddr : Nat} {pages next : σ} (sound : Sound pages)
    (run : allocPages order pages = .ok (vaddr, next)) (notNull : vaddr ≠ 0) :
    ∃ first, vaddr = frameVa first ∧ Sound next ∧ managed next = managed pages ∧
      (∀ frame, first ≤ frame → frame < first + 2 ^ order →
        frame < 2 ^ 26 ∧ frame ∈ managed pages ∧ frame ∉ inUse pages) ∧
      inUse next = inUse pages ∪ { frame | first ≤ frame ∧ frame < first + 2 ^ order } := by
  obtain ⟨afterSound, sameManaged, refused | ⟨first, same, unused, used⟩⟩ := LawfulPages.alloc sound run
  · exact absurd refused.1 notNull
  · refine ⟨first, same, afterSound, sameManaged, fun frame lower upper => ?_, used⟩
    have found := unused (frame - first) (by omega)
    rwa [show first + (frame - first) = frame by omega] at found

theorem flags_user {flags : Nat} (isUser : flags &&& pteFlagU = pteFlagU) :
    (pteFlagV ||| flags) &&& (pteFlagV ||| pteFlagU) = pteFlagV ||| pteFlagU := by
  have split : flags &&& (pteFlagV ||| pteFlagU) = flags &&& pteFlagV ||| pteFlagU := by
    rw [Nat.and_or_distrib_left, isUser]
  have low : flags &&& pteFlagV = flags % 2 := Nat.and_one_is_mod flags
  rw [Nat.and_or_distrib_right, split, low]
  rcases Nat.mod_two_eq_zero_or_one flags with even | odd
  · rw [even]
    decide
  · rw [odd]
    decide

/-- More frames are in use, and the tables that are new lie in frames that were free. -/
structure Widened (root : Nat) (before after : Vmem σ) : Prop where
  backed : Backed root after
  sameManaged : managed after.pages = managed before.pages
  used : inUse before.pages ⊆ inUse after.pages
  fresh : ∀ table ∈ tables root after, table ∈ tables root before ∨ table ∉ inUse before.pages

/-- For the user `pages` were mapped to fresh frames, and nothing else changed. -/
structure Added (root : Nat) (user pages : Set Nat) (before after : Vmem σ) : Prop where
  low : ∀ vpn ∈ pages, vpn < handlerVpn
  free : ∀ vpn ∈ pages, vpn ∉ user
  same : ∀ vpn < 2 ^ 27, vpn ∉ pages →
    pageMap (frameVa root) after vpn = pageMap (frameVa root) before vpn
  mapped : ∀ vpn ∈ pages, ∃ entry, pageMap (frameVa root) after vpn = some entry ∧
    entry.1 < 2 ^ 26 ∧ entry.2 &&& (pteFlagV ||| pteFlagU) = pteFlagV ||| pteFlagU ∧
    frameOf entry ∈ managed before.pages ∧ frameOf entry ∉ inUse before.pages ∧
    frameOf entry ∈ inUse after.pages ∧ frameOf entry ∉ tables root after
  distinct : ∀ vpn ∈ pages, ∀ other ∈ pages, ∀ entry otherEntry,
    pageMap (frameVa root) after vpn = some entry →
    pageMap (frameVa root) after other = some otherEntry → frameOf entry = frameOf otherEntry →
    vpn = other

theorem Added.frame {pages : Set Nat} {vpn : Nat} {entry : Nat × Nat} (added : Added root user pages vm after)
    (member : vpn ∈ pages) (found : pageMap (frameVa root) after vpn = some entry) :
    frameOf entry ∈ managed vm.pages ∧ frameOf entry ∉ inUse vm.pages ∧
      frameOf entry ∈ inUse after.pages ∧ frameOf entry ∉ tables root after := by
  obtain ⟨_, mapped, _, _, facts⟩ := added.mapped vpn member
  cases mapped.symm.trans found
  exact facts

theorem Widened.notTable {frame : Nat} (widened : Widened root vm after) (inVm : frame ∈ inUse vm.pages)
    (notOld : frame ∉ tables root vm) : frame ∉ tables root after := by
  intro member
  rcases widened.fresh frame member with old | unused
  · exact notOld old
  · exact unused inVm

section
variable {pages : Set Nat} (laid : LaidPages root kstack user mine vm) (added : Added root user pages vm after)
include laid added

theorem LaidPages.old_same {vpn : Nat} (old : vpn ∈ insert trapframeVpn user) :
    pageMap (frameVa root) after vpn = pageMap (frameVa root) vm vpn := by
  refine added.same vpn (laid.bounded old) fun new => ?_
  rcases old with rfl | old
  · exact absurd (added.low _ new) (by decide)
  · exact added.free vpn new old

theorem LaidPages.added_distinct {one two : Nat} {entry otherEntry : Nat × Nat}
    (oneMember : one ∈ insert trapframeVpn user) (twoMember : two ∈ pages)
    (found : pageMap (frameVa root) after one = some entry)
    (otherFound : pageMap (frameVa root) after two = some otherEntry) : frameOf entry ≠ frameOf otherEntry := by
  intro equal
  rw [laid.old_same added oneMember] at found
  have inVm := laid.mineUsed (laid.frames one oneMember entry found).1.1
  rw [equal] at inVm
  exact (added.frame twoMember otherFound).2.1 inVm

theorem LaidPages.add (widened : Widened root vm after) :
    LaidPages root kstack (user ∪ pages) (taken mine vm.pages after.pages) after := by
  have split : ∀ vpn ∈ insert trapframeVpn (user ∪ pages), vpn ∈ insert trapframeVpn user ∨ vpn ∈ pages := by
    rintro vpn (rfl | old | new)
    · exact .inl (.inl rfl)
    · exact .inl (.inr old)
    · exact .inr new
  have kstackUsed := laid.mineUsed laid.kstackMine.1
  refine ⟨widened.backed, ?_, fun _ member => member.1, ?_, ?_, ?_, ?_, ?_, ?_, ?_, ?_, ?_⟩
  · rw [widened.sameManaged]
    exact laid.rootManaged
  · intro table member
    exact ⟨widened.backed.used member, (widened.fresh table member).imp_left fun old => laid.tablesMine old⟩
  · rw [widened.sameManaged]
    exact ⟨⟨widened.used kstackUsed, .inl laid.kstackMine.1⟩, laid.kstackMine.2⟩
  · exact widened.notTable kstackUsed laid.kstackApart
  · rintro vpn (old | new)
    · exact laid.low vpn old
    · exact added.low vpn new
  · rintro vpn (old | new)
    · rw [laid.old_same added (.inr old)]
      exact laid.mapped vpn old
    · obtain ⟨entry, found, bounded, flags, _⟩ := added.mapped vpn new
      exact ⟨entry, found, bounded, flags⟩
  · intro vpn lower upper
    have top : trapframeVpn < 2 ^ 27 := by decide
    rw [added.same vpn (by omega) fun new => absurd (added.low vpn new) (by omega)]
    exact laid.kernel vpn lower upper
  · intro vpn small entry found
    by_cases new : vpn ∈ pages
    · exact .inl (.inr new)
    · rw [added.same vpn small new] at found
      exact (laid.only vpn small entry found).imp_left .inl
  · intro vpn member entry found
    rw [widened.sameManaged]
    rcases split vpn member with old | new
    · rw [laid.old_same added old] at found
      obtain ⟨⟨isMine, isManaged⟩, apart⟩ := laid.frames vpn old entry found
      have inVm := laid.mineUsed isMine
      refine ⟨⟨⟨widened.used inVm, .inl isMine⟩, isManaged⟩, ?_⟩
      rintro (isKstack | isTable)
      · exact apart (.inl isKstack)
      · exact widened.notTable inVm (fun old => apart (.inr old)) isTable
    · obtain ⟨isManaged, unused, inAfter, notTable⟩ := added.frame new found
      refine ⟨⟨⟨inAfter, .inr unused⟩, isManaged⟩, ?_⟩
      rintro (isKstack | isTable)
      · exact unused (isKstack ▸ kstackUsed)
      · exact notTable isTable
  · intro one oneMember two twoMember entry otherEntry found otherFound equal
    rcases split one oneMember with oneOld | oneNew <;> rcases split two twoMember with twoOld | twoNew
    · rw [laid.old_same added oneOld] at found
      rw [laid.old_same added twoOld] at otherFound
      exact laid.distinct one oneOld two twoOld entry otherEntry found otherFound equal
    · exact absurd equal (laid.added_distinct added oneOld twoNew found otherFound)
    · exact absurd equal.symm (laid.added_distinct added twoOld oneNew otherFound found)
    · exact added.distinct one oneNew two twoNew entry otherEntry found otherFound equal

end

section
variable {order vpn first flags : Nat} {next : σ} (laid : LaidPages root kstack user mine vm) (sound : Sound next)
  (sameManaged : managed next = managed vm.pages) (frames : ∀ frame, first ≤ frame → frame < first + 2 ^ order →
    frame < 2 ^ 26 ∧ frame ∈ managed vm.pages ∧ frame ∉ inUse vm.pages)
  (used : inUse next = inUse vm.pages ∪ { frame | first ≤ frame ∧ frame < first + 2 ^ order })
  (small : flags < 1024) (below : vpn + 2 ^ order ≤ handlerVpn)
  (run : vmMappages (frameVa root) (vpn * pageSize) (pmaVa2Pa (frameVa first))
    (2 ^ order * pageSize) flags { vm with pages := next } = .ok (0, after))
include laid sound sameManaged frames used small below run

omit sameManaged in
theorem LaidPages.map_frames : Within root { vm with pages := next } after ∧
      ∀ other < 2 ^ 27, pageMap (frameVa root) after other = if vpn ≤ other ∧ other < vpn + 2 ^ order then
          some (first + (other - vpn), pteFlagV ||| flags) else pageMap (frameVa root) vm other := by
  have positive : 0 < 2 ^ order := Nat.two_pow_pos order
  have bounded := (frames first (Nat.le_refl _) (by omega)).1
  have last := (frames (first + (2 ^ order - 1)) (by omega) (by omega)).1
  have top : handlerVpn ≤ 2 ^ 27 := by decide
  have backed : Backed root { vm with pages := next } := by
    refine ⟨laid.backed.tree, sound, fun table member => ?_⟩
    rw [used]
    exact .inl (laid.backed.used member)
  rw [vmMappages_pages positive (by omega), pmaVa2Pa_frameVa bounded] at run
  obtain ⟨within, map⟩ := backed.mapFrom small (by omega) (by omega) run
  refine ⟨within, fun other otherSmall => ?_⟩
  rw [map rfl other otherSmall]
  by_cases inside : vpn ≤ other ∧ other < vpn + 2 ^ order
  · rw [if_pos inside, if_pos inside, Nat.mul_div_cancel _ (by decide), Nat.mod_eq_of_lt (by omega)]
  · rw [if_neg inside, if_neg inside, pageMap_pages]

theorem LaidPages.extend (isUser : flags &&& pteFlagU = pteFlagU)
    (free : ∀ other, vpn ≤ other → other < vpn + 2 ^ order → other ∉ user) :
    LaidPages root kstack (user ∪ { other | vpn ≤ other ∧ other < vpn + 2 ^ order })
      (taken mine vm.pages after.pages) after := by
  obtain ⟨within, map⟩ := laid.map_frames sound frames used small below run
  have top : handlerVpn ≤ 2 ^ 27 := by decide
  have nextUsed : inUse vm.pages ⊆ inUse next := by
    rw [used]
    exact Set.subset_union_left
  have afterUsed : inUse next ⊆ inUse after.pages := within.grows
  have widened : Widened root vm after := by
    refine ⟨within.backed, within.sameManaged.trans sameManaged, nextUsed.trans afterUsed, ?_⟩
    intro table member
    exact (within.fresh table member).imp_right fun unused old => unused (nextUsed old)
  refine laid.add ⟨?_, ?_, ?_, ?_, ?_⟩ widened
  · exact fun other new => Nat.lt_of_lt_of_le new.2 below
  · exact fun other new => free other new.1 new.2
  · intro other otherSmall outside
    exact (map other otherSmall).trans (if_neg outside)
  · intro other inside
    have bounds : vpn ≤ other ∧ other < vpn + 2 ^ order := inside
    obtain ⟨bounded, isManaged, unused⟩ := frames (first + (other - vpn)) (by omega) (by omega)
    have inNext : first + (other - vpn) ∈ inUse next := by
      rw [used]
      exact .inr ⟨by omega, by omega⟩
    refine ⟨_, (map other (by omega)).trans (if_pos inside), bounded, flags_user isUser, ?_⟩
    rw [frameOf, Nat.mod_eq_of_lt bounded]
    refine ⟨isManaged, unused, afterUsed inNext, fun isTable => ?_⟩
    rcases within.fresh _ isTable with old | fresh
    · exact unused (laid.backed.used old)
    · exact fresh inNext
  · intro one oneInside two twoInside entry otherEntry found otherFound equal
    have oneBounds : vpn ≤ one ∧ one < vpn + 2 ^ order := oneInside
    have twoBounds : vpn ≤ two ∧ two < vpn + 2 ^ order := twoInside
    rw [map one (by omega), if_pos oneBounds] at found
    rw [map two (by omega), if_pos twoBounds] at otherFound
    cases found
    cases otherFound
    have oneFrame := (frames (first + (one - vpn)) (by omega) (by omega)).1
    have twoFrame := (frames (first + (two - vpn)) (by omega) (by omega)).1
    rw [frameOf, frameOf, Nat.mod_eq_of_lt oneFrame, Nat.mod_eq_of_lt twoFrame] at equal
    omega

end

theorem LaidPages.grow {order vpn addr flags : Nat} {next : σ} (laid : LaidPages root kstack user mine vm)
    (alloc : allocPages order vm.pages = .ok (addr, next)) (notNull : addr ≠ 0) (small : flags < 1024)
    (below : vpn + 2 ^ order ≤ handlerVpn)
    (run : vmMappages (frameVa root) (vpn * pageSize) (pmaVa2Pa addr) (2 ^ order * pageSize) flags
      { vm with pages := next } = .ok (0, after)) (isUser : flags &&& pteFlagU = pteFlagU)
    (free : ∀ other, vpn ≤ other → other < vpn + 2 ^ order → other ∉ user) :
    LaidPages root kstack (user ∪ { other | vpn ≤ other ∧ other < vpn + 2 ^ order })
      (taken mine vm.pages after.pages) after := by
  obtain ⟨first, rfl, sound, sameManaged, frames, used⟩ := alloc_frames laid.backed.sound alloc notNull
  exact laid.extend sound sameManaged frames used small below run isUser free

/-- Each of `pages` is mapped to a frame of its own. -/
structure Owning (root : Nat) (pages : Set Nat) (vm : Vmem σ) : Prop where
  backed : Backed root vm
  bounded : ∀ vpn ∈ pages, vpn < 2 ^ 27
  mapped : ∀ vpn ∈ pages, ∃ entry, pageMap (frameVa root) vm vpn = some entry ∧ entry.2 ≠ pteFlagV
  frames : ∀ vpn ∈ pages, ∀ entry, pageMap (frameVa root) vm vpn = some entry →
    frameOf entry ∈ (managed vm.pages ∩ inUse vm.pages) \ tables root vm
  distinct : ∀ vpn ∈ pages, ∀ other ∈ pages, ∀ entry otherEntry,
    pageMap (frameVa root) vm vpn = some entry →
    pageMap (frameVa root) vm other = some otherEntry → frameOf entry = frameOf otherEntry →
    vpn = other

theorem user_not_bare {flags : Nat}
    (isUser : flags &&& (pteFlagV ||| pteFlagU) = pteFlagV ||| pteFlagU) : flags ≠ pteFlagV := by
  rintro rfl
  exact absurd isUser (by decide)

theorem LaidPages.owning (laid : LaidPages root kstack user mine vm) :
    Owning root (insert trapframeVpn user) vm where
  backed := laid.backed
  bounded _ member := laid.bounded member
  mapped := by
    rintro vpn (rfl | member)
    · exact laid.kernel trapframeVpn (by decide) (Nat.le_refl _)
    · obtain ⟨entry, found, _, isUser⟩ := laid.mapped vpn member
      exact ⟨entry, found, user_not_bare isUser⟩
  frames vpn member entry found := by
    obtain ⟨⟨isMine, isManaged⟩, apart⟩ := laid.frames vpn member entry found
    exact ⟨⟨isManaged, laid.mineUsed isMine⟩, fun isTable => apart (.inr isTable)⟩
  distinct := laid.distinct

section
variable {pages freed : Set Nat} {lo count : Nat}

theorem Owning.rest (owning : Owning root pages vm) (cleared : Cleared root freed vm after)
    (map : ∀ other < 2 ^ 27, pageMap (frameVa root) after other =
      if lo ≤ other ∧ other < lo + count then none else pageMap (frameVa root) vm other)
    (spared : ∀ vpn ∈ pages, ¬ (lo ≤ vpn ∧ vpn < lo + count) → ∀ entry,
      pageMap (frameVa root) vm vpn = some entry → frameOf entry ∉ freed) :
    Owning root (pages \ { vpn | lo ≤ vpn ∧ vpn < lo + count }) after := by
  have same : ∀ vpn ∈ pages \ { vpn | lo ≤ vpn ∧ vpn < lo + count },
      pageMap (frameVa root) after vpn = pageMap (frameVa root) vm vpn := by
    intro vpn member
    rw [map vpn (owning.bounded vpn member.1)]
    exact if_neg member.2
  refine ⟨cleared.backed, fun vpn member => owning.bounded vpn member.1, ?_, ?_, ?_⟩
  · intro vpn member
    rw [same vpn member]
    exact owning.mapped vpn member.1
  · intro vpn member entry found
    rw [same vpn member] at found
    obtain ⟨⟨isManaged, used⟩, notTable⟩ := owning.frames vpn member.1 entry found
    rw [cleared.sameManaged, cleared.released, cleared.tables_eq]
    exact ⟨⟨isManaged, used, spared vpn member.1 member.2 entry found⟩, notTable⟩
  · intro vpn member other otherMember entry otherEntry found otherFound equal
    rw [same vpn member] at found
    rw [same other otherMember] at otherFound
    exact owning.distinct vpn member.1 other otherMember.1 entry otherEntry found otherFound equal

theorem Owning.unmap (owning : Owning root pages vm) (range : lo + count ≤ 2 ^ 27)
    (inside : ∀ vpn, lo ≤ vpn → vpn < lo + count → vpn ∈ pages) :
    ∃ after, vmUnmappages (frameVa root) (lo * pageSize) count true vm = .ok after ∧
      Cleared root (mappedFrames root vm lo (lo + count)) vm after ∧
      Owning root (pages \ { vpn | lo ≤ vpn ∧ vpn < lo + count }) after ∧
      ∀ other < 2 ^ 27, pageMap (frameVa root) after other =
        if lo ≤ other ∧ other < lo + count then none else pageMap (frameVa root) vm other := by
  have removable : Removable root true vm lo (lo + count) := by
    refine ⟨fun vpn lower upper => owning.mapped vpn (inside vpn lower upper), fun _ => ?_, fun _ => ?_⟩
    · rintro frame ⟨vpn, entry, lower, upper, found, rfl⟩
      exact owning.frames vpn (inside vpn lower upper) entry found
    · intro vpn other entry otherEntry lower upper otherLower otherUpper
      exact owning.distinct vpn (inside vpn lower upper) other (inside other otherLower otherUpper) entry otherEntry
  obtain ⟨after, run, cleared, map⟩ := owning.backed.unmapFrom range removable
  rw [if_pos rfl] at cleared
  refine ⟨after, (vmUnmappages_eq range).trans run, cleared, owning.rest cleared map ?_, map⟩
  rintro vpn member outside entry found ⟨other, otherEntry, lower, upper, otherFound, equal⟩
  have same := owning.distinct vpn member other (inside other lower upper) entry otherEntry found otherFound equal
  omega

theorem Owning.unmap_kept (owning : Owning root pages vm) (range : lo + count ≤ 2 ^ 27)
    (mapped : ∀ vpn, lo ≤ vpn → vpn < lo + count →
      ∃ entry, pageMap (frameVa root) vm vpn = some entry ∧ entry.2 ≠ pteFlagV) :
    ∃ after, vmUnmappages (frameVa root) (lo * pageSize) count false vm = .ok after ∧
      Cleared root ∅ vm after ∧
      Owning root (pages \ { vpn | lo ≤ vpn ∧ vpn < lo + count }) after ∧
      ∀ other < 2 ^ 27, pageMap (frameVa root) after other =
        if lo ≤ other ∧ other < lo + count then none else pageMap (frameVa root) vm other := by
  obtain ⟨after, run, cleared, map⟩ :=
    @Backed.unmapFrom _ _ _ _ _ false _ _ owning.backed range ⟨mapped, nofun, nofun⟩
  rw [if_neg (by decide)] at cleared
  exact ⟨after, (vmUnmappages_eq range).trans run, cleared, owning.rest cleared map (by simp), map⟩

end

omit [LawfulPages σ] in
theorem freePages_one {frame : Nat} {pages next : σ} (freed : freePage (frameVa frame) pages = .ok next) :
    freePages (frameVa frame) 1 pages = .ok next := by
  have aligned : frameVa frame &&& (pageSize - 1) = 0 := by
    rw [and_pageSize_pred, frameVa]
    unfold vaKernelBegin pageSize
    omega
  rw [freePages, if_neg (not_not.mpr aligned), freePagesLoop, freed]
  rfl

theorem Owning.free_frame {pages : Set Nat} {frame : Nat} (owning : Owning root pages vm)
    (isManaged : frame ∈ managed vm.pages) (used : frame ∈ inUse vm.pages) (notTable : frame ∉ tables root vm)
    (apart : ∀ vpn ∈ pages, ∀ entry, pageMap (frameVa root) vm vpn = some entry → frameOf entry ≠ frame) :
    ∃ next, freePages (frameVa frame) 1 vm.pages = .ok next ∧ managed next = managed vm.pages ∧
      inUse next = inUse vm.pages \ {frame} ∧ Owning root pages { vm with pages := next } := by
  obtain ⟨next, freed, sound, sameManaged, released⟩ := LawfulPages.free owning.backed.sound isManaged used
  refine ⟨next, freePages_one freed, sameManaged, released, ⟨owning.backed.tree, sound, ?_⟩, owning.bounded, ?_, ?_, ?_⟩
  · intro table member
    rw [released]
    exact ⟨owning.backed.used member, fun same => notTable (same ▸ member)⟩
  · intro vpn member
    rw [pageMap_pages]
    exact owning.mapped vpn member
  · intro vpn member entry found
    rw [pageMap_pages] at found
    obtain ⟨⟨entryManaged, entryUsed⟩, entryApart⟩ := owning.frames vpn member entry found
    rw [sameManaged, released]
    exact ⟨⟨entryManaged, entryUsed, apart vpn member entry found⟩, entryApart⟩
  · intro vpn member other otherMember entry otherEntry found otherFound
    rw [pageMap_pages] at found otherFound
    exact owning.distinct vpn member other otherMember entry otherEntry found otherFound

end

/-- The pages between `VA_USER_BEGIN` and `heap_vaddr`, and between `stack_vaddr` and the user
handler. -/
def laidUser (heapPages stackPages : Nat) : Set Nat :=
  { vpn | (heapVpn ≤ vpn ∧ vpn < heapVpn + heapPages) ∨ (handlerVpn - stackPages ≤ vpn ∧ vpn < handlerVpn) }

/-- The record of a process says where its pages are. -/
structure Laid (root kstack heapPages stackPages : Nat) (mine : Set Nat) (space : ProcSpace)
    (vm : Vmem σ) : Prop where
  pages : LaidPages root kstack (laidUser heapPages stackPages) mine vm
  pgtbl : space.pgtbl = frameVa root
  kstackVaddr : space.kstackVaddr = frameVa kstack
  heapVaddr : space.heapVaddr = (heapVpn + heapPages) * pageSize
  stackVaddr : space.stackVaddr = (handlerVpn - stackPages) * pageSize
  room : heapVpn + heapPages + stackPages ≤ handlerVpn

section
variable {root kstack heapPages stackPages : Nat} {mine : Set Nat} {space : ProcSpace} {vm : Vmem σ}

theorem range_count {lo count : Nat} (small : lo + count ≤ 2 ^ 27) :
    ulongSub ((lo + count) * pageSize) (lo * pageSize) >>> pageShift = count := by
  rw [ulongSub_of_le (by unfold pageSize; omega) (by unfold pageSize; omega), shiftRight_pageShift]
  unfold pageSize
  omega

theorem Laid.reap (laid : Laid root kstack heapPages stackPages mine space vm) :
    ∃ after, procReapSpace space vm = .ok after ∧ Backed root after ∧
      managed after.pages = managed vm.pages := by
  have room := laid.room
  have top : handlerVpn + 9 ≤ 2 ^ 27 := by decide
  have frameAt : trapframeVpn = handlerVpn + 8 := by decide
  obtain ⟨one, oneRun, oneCleared, oneOwning, oneMap⟩ :=
    @Owning.unmap _ _ _ _ _ _ trapframeVpn 1 laid.pages.owning (by omega) (fun vpn lower upper =>
      .inl (show vpn = trapframeVpn by omega))
  have handler : ∀ vpn, handlerVpn ≤ vpn → vpn < handlerVpn + 8 →
      ∃ entry, pageMap (frameVa root) one vpn = some entry ∧ entry.2 ≠ pteFlagV := by
    intro vpn lower upper
    rw [oneMap vpn (by omega), if_neg (by omega)]
    exact laid.pages.kernel vpn lower (by omega)
  obtain ⟨two, twoRun, twoCleared, twoOwning, twoMap⟩ := oneOwning.unmap_kept (by omega) handler
  -- the kernel stack is no frame of a page
  have kstackApart : ∀ vpn ∈ insert trapframeVpn (laidUser heapPages stackPages), ∀ entry,
      pageMap (frameVa root) vm vpn = some entry → frameOf entry ≠ kstack := by
    intro vpn member entry found same
    exact (laid.pages.frames vpn member entry found).2 (.inl same)
  have kstackUsed : kstack ∈ inUse two.pages := by
    rw [twoCleared.released, oneCleared.released, Set.sdiff_empty]
    refine ⟨laid.pages.mineUsed laid.pages.kstackMine.1, ?_⟩
    rintro ⟨vpn, entry, lower, upper, found, same⟩
    exact kstackApart vpn (.inl (show vpn = trapframeVpn by omega)) entry found same.symm
  obtain ⟨next, freed, sameManaged, _, threeOwning⟩ := twoOwning.free_frame
    (by rw [twoCleared.sameManaged, oneCleared.sameManaged]; exact laid.pages.kstackMine.2) kstackUsed
    (by rw [twoCleared.tables_eq, oneCleared.tables_eq]; exact laid.pages.kstackApart) (by
      intro vpn member entry found
      have small := laid.pages.bounded member.1.1
      have offHandler : ¬ (handlerVpn ≤ vpn ∧ vpn < handlerVpn + 8) := member.2
      have offFrame : ¬ (trapframeVpn ≤ vpn ∧ vpn < trapframeVpn + 1) := member.1.2
      rw [twoMap vpn small, if_neg offHandler, oneMap vpn small, if_neg offFrame] at found
      exact kstackApart vpn member.1.1 entry found)
  obtain ⟨four, fourRun, fourCleared, fourOwning, _⟩ :=
    @Owning.unmap _ _ _ _ _ _ (handlerVpn - stackPages) stackPages threeOwning (by omega) (by
      intro vpn lower upper
      refine ⟨⟨.inr (.inr ⟨lower, by omega⟩), fun off => ?_⟩, fun off => ?_⟩
      · have := off.1
        omega
      · have := off.1
        omega)
  obtain ⟨five, fiveRun, fiveCleared, fiveOwning, _⟩ :=
    @Owning.unmap _ _ _ _ _ _ heapVpn heapPages fourOwning (by omega) (by
      intro vpn lower upper
      refine ⟨⟨⟨.inr (.inl ⟨lower, upper⟩), fun off => ?_⟩, fun off => ?_⟩, fun off => ?_⟩
      · have := off.1
        omega
      · have := off.1
        omega
      · have := off.1
        omega)
  refine ⟨five, ?_, fiveOwning.backed, ?_⟩
  · have stackCount := range_count (show handlerVpn - stackPages + stackPages ≤ 2 ^ 27 by omega)
    have heapCount := range_count (show heapVpn + heapPages ≤ 2 ^ 27 by omega)
    rw [Nat.sub_add_cancel (by omega)] at stackCount
    have handlerRun : vmUnmapUserHandler (frameVa root) one = .ok two := twoRun
    rw [procReapSpace, laid.pgtbl, laid.kstackVaddr, laid.stackVaddr, laid.heapVaddr,
      show vaUserTrapframeBegin = trapframeVpn * pageSize by decide,
      show pageRoundUp trapframeSize >>> pageShift = 1 by decide, oneRun, Result.ok_bind, handlerRun,
      Result.ok_bind, freed, Result.ok_bind,
      show vaUserUserHandlerBegin = handlerVpn * pageSize by decide, stackCount, fourRun,
      Result.ok_bind, show vaUserBegin = heapVpn * pageSize by decide, heapCount]
    exact fiveRun
  · rw [fiveCleared.sameManaged, fourCleared.sameManaged]
    exact sameManaged.trans (twoCleared.sameManaged.trans oneCleared.sameManaged)

end

end Kalorona.Proc
