import Kalorona.Memory.Object
import Kalorona.Memory.PageMap

namespace Kalorona.Memory

open Kalorona.Data Kalorona.Utilities

/-! # The buddy allocator as an allocator of frames

Frames outside the node count as used: the allocator never hands them out.
-/

def nodeFrames (kmem : Kmem) : Set Nat :=
  { frame | kmem.beginPpn ≤ frame ∧ frame < kmem.beginPpn + kmem.numPpn }

def usedFrames (kmem : Kmem) : Set Nat :=
  { frame | frame ∈ nodeFrames kmem → testBit kmem.memMap (frame - kmem.beginPpn) = true }

variable {kmem after : Kmem}

theorem BuddySound.pageVaddr_frameVa {pn : Nat} (sound : BuddySound kmem) (inside : pn < kmem.numPpn) :
    pageVaddr kmem pn = frameVa (kmem.beginPpn + pn) := by
  rw [pageVaddr_eq sound.tiled.addressable inside, frameVa, pageSize, Nat.mul_comm]

theorem SameFrame.nodeFrames_eq (frame : SameFrame kmem after) : nodeFrames after = nodeFrames kmem := by
  rw [nodeFrames, frame.beginPpn, frame.numPpn, nodeFrames]

theorem HandedOut.usedFrames_eq {block : Block} (handed : HandedOut kmem (clearPages kmem) block after) :
    usedFrames after = usedFrames kmem ∪
      { page | kmem.beginPpn + block.start ≤ page ∧ page < kmem.beginPpn + block.start + 2 ^ block.order } := by
  ext frame
  simp only [usedFrames, nodeFrames, Set.mem_ofPred_eq, Set.mem_union, handed.frame.beginPpn,
    handed.frame.numPpn, handed.marked, Bool.or_eq_true, decide_eq_true_eq]
  constructor
  · intro marked
    by_cases inside : kmem.beginPpn ≤ frame ∧ frame < kmem.beginPpn + kmem.numPpn
    · rcases marked inside with inBlock | old
      · exact .inr (by omega)
      · exact .inl (fun _ => old)
    · exact .inl (fun inNode => absurd inNode inside)
  · rintro (old | inBlock) inNode
    · exact .inr (old inNode)
    · exact .inl (by omega)

theorem BuddySound.allocPages {order vaddr : Nat} (sound : BuddySound kmem)
    (run : Memory.kmemAllocPages order kmem = .ok (vaddr, after)) :
    BuddySound after ∧ nodeFrames after = nodeFrames kmem ∧
      ((vaddr = 0 ∧ usedFrames after = usedFrames kmem) ∨ ∃ frame, vaddr = frameVa frame ∧
          (∀ offset < 2 ^ order, frame + offset < 2 ^ 26 ∧ frame + offset ∈ nodeFrames kmem ∧
            frame + offset ∉ usedFrames kmem) ∧
          usedFrames after = usedFrames kmem ∪ { page | frame ≤ page ∧ page < frame + 2 ^ order }) := by
  by_cases null : vaddr = 0
  · subst null
    rw [sound.refused run]
    exact ⟨sound, rfl, .inl ⟨rfl, rfl⟩⟩
  · obtain ⟨start, rfl, handed, afterSound⟩ := sound.handedOut run null
    have addressable := sound.tiled.addressable
    have below := handed.below
    dsimp only at below
    refine ⟨afterSound, handed.frame.nodeFrames_eq, .inr ⟨kmem.beginPpn + start, ?_, ?_, ?_⟩⟩
    · exact sound.pageVaddr_frameVa handed.start_lt
    · intro offset inBlock
      have node : kmem.beginPpn + start + offset ∈ nodeFrames kmem := ⟨by omega, by omega⟩
      refine ⟨by omega, node, fun used => ?_⟩
      have clear := (handed.inFree (show start + offset ∈ (⟨order, start⟩ : Block).span from
        ⟨by simp, by simpa using inBlock⟩)).2
      have marked := used node
      rw [Nat.add_assoc, Nat.add_sub_cancel_left, clear] at marked
      cases marked
    · exact handed.usedFrames_eq

theorem BuddySound.freePage {frame : Nat} (sound : BuddySound kmem) (node : frame ∈ nodeFrames kmem)
    (used : frame ∈ usedFrames kmem) :
    ∃ after, Memory.kmemFreePage (frameVa frame) kmem = .ok after ∧ BuddySound after ∧
      nodeFrames after = nodeFrames kmem ∧ usedFrames after = usedFrames kmem \ {frame} := by
  have lower := node.1
  have upper := node.2
  obtain ⟨after, run, afterSound, same, bits, _⟩ :=
    sound.kmemFreePage (show frame - kmem.beginPpn < kmem.numPpn by omega) (used node)
  rw [sound.pageVaddr_frameVa (by omega), Nat.add_sub_cancel' lower] at run
  refine ⟨after, run, afterSound, same.nodeFrames_eq, ?_⟩
  ext other
  simp only [usedFrames, same.nodeFrames_eq, same.beginPpn, bits, Set.mem_ofPred_eq, Set.mem_sdiff,
    Set.mem_singleton_iff]
  constructor
  · intro marked
    refine ⟨fun inNode => ?_, ?_⟩
    · have bit := marked inNode
      split at bit
      · cases bit
      · exact bit
    · rintro rfl
      have bit := marked node
      rw [if_pos rfl] at bit
      cases bit
  · rintro ⟨marked, different⟩ inNode
    have first := inNode.1
    rw [if_neg (by omega)]
    exact marked inNode

instance : LawfulPages Kmem where
  Sound := BuddySound
  managed := nodeFrames
  inUse := usedFrames
  alloc sound run := sound.allocPages run
  free sound node used := sound.freePage node used

theorem BuddySound.alloc_page {pn : Nat} (sound : BuddySound kmem) (clear : pn ∈ clearPages kmem) :
    ∃ start after, Memory.kmemAllocPages 0 kmem = .ok (pageVaddr kmem start, after) ∧
      HandedOut kmem (clearPages kmem) ⟨0, start⟩ after ∧ BuddySound after := by
  rcases sound.kmemAllocPages (show 0 < maxMemOrder by decide) with refused | granted
  · exfalso
    rcases kmemAllocPages_spec sound.tiled sound.paired (show 0 < maxMemOrder by decide)
      (fun page clear => clear.2) with ⟨_, none⟩ | ⟨start, _, given, _⟩
    · obtain ⟨block, listed, _⟩ := (sound.tiled.tiling.covers pn).mp clear
      exact absurd (none block listed) (Nat.not_lt_zero _)
    · cases pageVaddr_ne_zero kmem start (Prod.mk.inj (Except.ok.inj (given.symm.trans refused))).1
  · exact granted

theorem BuddySound.grants {pages : List Nat} {n : Nat} (sound : BuddySound kmem)
    (nodup : pages.Nodup) (clear : ∀ pn ∈ pages, pn ∈ clearPages kmem) (enough : n ≤ pages.length) :
    Grants n kmem := by
  induction n generalizing pages kmem with
  | zero => exact .none
  | succ n ih =>
    obtain ⟨pn, member⟩ := List.exists_mem_of_length_pos (Nat.lt_of_lt_of_le n.succ_pos enough)
    obtain ⟨start, after, granted, handed, afterSound⟩ := sound.alloc_page (clear pn member)
    rw [sound.pageVaddr_frameVa handed.start_lt] at granted
    refine .page granted (ih afterSound (nodup.erase start) ?_ ?_)
    · intro other remaining
      obtain ⟨different, old⟩ := nodup.mem_erase_iff.mp remaining
      rw [handed.clearPages_eq]
      refine ⟨clear other old, fun inBlock => different ?_⟩
      have bounds := Block.mem_span.mp inBlock
      simp only [Nat.pow_zero] at bounds
      omega
    · have shorter : pages.length - 1 ≤ (pages.erase start).length := by
        rw [List.length_erase]
        split <;> omega
      omega

theorem smallNode_sound {count : Nat} {marked : UInt8} (bounded : count ≤ 2 ^ 16) : ∃ kmem node memory,
      kmemPageManagerInit (smallNode count marked) (fun _ => 0) = .ok (kmem, node, memory) ∧
      BuddySound kmem ∧ kmem.beginPpn = 0x80000 ∧ kmem.numPpn = count := by
  obtain ⟨kmem, node, memory, boot, tiled, paired, begins, counts, _⟩ :=
    @kmemPageManagerInit_spec (smallNode count marked) (fun _ => 0) (show 0x80000 + count ≤ 2 ^ 26 by omega)
  exact ⟨kmem, node, memory, boot, ⟨tiled, paired⟩, begins, counts⟩

theorem ram_pages_sound {count : Nat} (bounded : count ≤ 2 ^ 16)
    (evaluated : ∃ boot, kmemPageManagerInit (smallNode count 0) (fun _ => 0) = .ok boot ∧
      ∀ pn ∈ List.range' 1 (count - 1), testBit boot.1.memMap pn = false) : ∃ kmem node memory,
      kmemPageManagerInit (smallNode count 0) (fun _ => 0) = .ok (kmem, node, memory) ∧
      BuddySound kmem ∧ kmem.beginPpn = 0x80000 ∧ kmem.numPpn = count ∧
      ∀ pn ∈ List.range' 1 (count - 1), pn ∈ clearPages kmem := by
  obtain ⟨kmem, node, memory, boot, sound, begins, counts⟩ := @smallNode_sound count 0 bounded
  refine ⟨kmem, node, memory, boot, sound, begins, counts, ?_⟩
  obtain ⟨_, again, clear⟩ := evaluated
  cases boot.symm.trans again
  refine fun pn member => ⟨?_, clear pn member⟩
  rw [counts]
  simp only [List.mem_range'_1] at member
  omega

theorem sixteen_pages_sound : ∃ kmem node memory,
      kmemPageManagerInit (smallNode 16 0) (fun _ => 0) = .ok (kmem, node, memory) ∧
      BuddySound kmem ∧ kmem.beginPpn = 0x80000 ∧ kmem.numPpn = 16 ∧
      ∀ pn ∈ List.range' 1 15, pn ∈ clearPages kmem :=
  ram_pages_sound (by decide) (by decide +kernel)

theorem thirty_two_pages_sound : ∃ kmem node memory,
      kmemPageManagerInit (smallNode 32 0) (fun _ => 0) = .ok (kmem, node, memory) ∧
      BuddySound kmem ∧ kmem.beginPpn = 0x80000 ∧ kmem.numPpn = 32 ∧
      ∀ pn ∈ List.range' 1 31, pn ∈ clearPages kmem :=
  ram_pages_sound (by decide) (by decide +kernel)

end Kalorona.Memory
