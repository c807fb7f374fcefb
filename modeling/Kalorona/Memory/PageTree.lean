import Kalorona.Memory.Vmem
import Kalorona.Data.RadixTree
import Mathlib.Order.Interval.Set.Defs

namespace Kalorona.Memory

open Kalorona.Data Kalorona.Utilities

/-! # Page tables as radix trees

The kernel sees 2 ^ 26 frames through the direct map.  A table is named by its
frame, and a virtual address by the digits that select its entry in each level.
-/

def frameVa (frame : Nat) : Nat := vaKernelBegin + pageSize * frame

def frameBytes (frame : Nat) : Set Nat := Set.Ico (frameVa frame) (frameVa frame + pageSize)

variable {offset frame other word : Nat} {memory : Memory} {pn : Fin 512}

theorem frame_byte_mem (frame : Nat) (inside : offset < 4096) : frameVa frame + offset ∈ frameBytes frame :=
  ⟨Nat.le_add_right _ _, Nat.add_lt_add_left inside _⟩

theorem frameBytes_unique {address : Nat} (member : address ∈ frameBytes frame)
    (otherMember : address ∈ frameBytes other) : frame = other := by
  simp only [frameBytes, Set.mem_Ico, frameVa, pageSize] at member otherMember
  omega

def pteFrame (pte : Nat) : Nat := (pte >>> pteFlagsWidth) % 2 ^ 26

def sv39 : Radix Nat (Fin 512) Nat (Nat × Nat) where
  depth := vaNVpn - 1
  child pte := if pte &&& pteFlagV ≠ 0 then some (pteFrame pte) else none
  leaf pte := if pte &&& pteFlagV ≠ 0 then some (pte >>> pteFlagsWidth, pteFlags pte) else none
  inner pte := pte &&& (pteFlagR ||| pteFlagW ||| pteFlagX) = 0

def cells (memory : Memory) (frame : Nat) (pn : Fin 512) : Nat :=
  memory.load64 (entryAddr (frameVa frame) pn)

theorem vaGetPn_eq (lv va : Nat) : vaGetPn lv va = va / 2 ^ (9 * lv + 12) % 512 := by
  rw [vaGetPn, Nat.shiftRight_eq_div_pow]
  exact Nat.and_two_pow_sub_one_eq_mod _ 9

theorem vaGetPn_lt (lv va : Nat) : vaGetPn lv va < 512 := by
  rw [vaGetPn_eq]
  exact Nat.mod_lt _ (by decide)

def digit (lv va : Nat) : Fin 512 := ⟨vaGetPn lv va, vaGetPn_lt lv va⟩

/-- The entries of a walk, one page number a level, the deepest first. -/
abbrev Route := List (Fin 512)

def key (va : Nat) : Route := [digit 0 va, digit 1 va, digit 2 va]

def tablePath (lv va : Nat) : Route := (key va).drop (lv + 1)

theorem key_eq_iff {va : Nat} : key va = key other ↔ va / 4096 % 2 ^ 27 = other / 4096 % 2 ^ 27 := by
  simp only [key, digit, List.cons.injEq, Fin.mk.injEq, vaGetPn_eq, and_true]
  omega

theorem exists_key {digits : Route} (long : digits.length = 3) :
    ∃ vpn < 2 ^ 27, key (vpn * pageSize) = digits := by
  obtain ⟨low, middle, high, rfl⟩ : ∃ low middle high, digits = [low, middle, high] := by
    match digits, long with
    | [low, middle, high], _ => exact ⟨low, middle, high, rfl⟩
  refine ⟨low + 512 * middle + 512 ^ 2 * high, by omega, ?_⟩
  simp only [key, digit, List.cons.injEq, Fin.ext_iff, vaGetPn_eq, and_true, pageSize]
  omega

theorem pmaPa2Va_or {pa : Nat} (bounded : pa < 2 ^ 64) (aligned : pa % 4096 = 0)
    (inside : offset < 4096) : pmaPa2Va (pa ||| offset) = pmaPa2Va pa + offset := by
  have joined : offset ||| 2 ^ 12 * (pa / 4096) = 2 ^ 12 * (pa / 4096) + offset := or_high inside _
  have whole : 2 ^ 12 * (pa / 4096) = pa := by omega
  rw [whole] at joined
  rw [Nat.or_comm, joined, pmaPa2Va_mod bounded, pmaPa2Va_mod (by omega)]
  omega

theorem pmaPa2Va_ptePa (pte : Nat) : pmaPa2Va (ptePa pte) = frameVa (pteFrame pte) := by
  rw [ptePa, ulong, pmaPa2Va_mod (Nat.mod_lt _ (by decide)), shiftLeft_pageShift, frameVa, pteFrame, pageSize]
  congr 1
  generalize pte >>> pteFlagsWidth = ppn
  omega

theorem pmaVa2Pa_frameVa (bounded : frame < 2 ^ 26) : pmaVa2Pa (frameVa frame) = frame * 4096 := by
  rw [pmaVa2Pa_eq, frameVa, vaKernelBegin, pageSize]
  omega

theorem frameVa_ne_zero (frame : Nat) : frameVa frame ≠ 0 := by
  unfold frameVa vaKernelBegin
  omega

theorem frameVa_injective : Function.Injective frameVa := by
  intro left right same
  unfold frameVa pageSize at same
  omega

theorem pteFlags_eq (pte : Nat) : pteFlags pte = pte % 1024 := Nat.and_two_pow_sub_one_eq_mod pte 10

theorem pteFlags_lt (pte : Nat) : pteFlags pte < 1024 := by
  rw [pteFlags_eq]
  exact Nat.mod_lt _ (by decide)

theorem pteFlags_and {mask : Nat} (pte : Nat) (small : mask < 1024) : pteFlags pte &&& mask = pte &&& mask := by
  have whole : 1023 &&& mask = mask := by
    rw [Nat.and_comm]
    exact (Nat.and_two_pow_sub_one_eq_mod mask 10).trans (Nat.mod_eq_of_lt small)
  rw [pteFlags, Nat.and_assoc]
  exact congrArg (pte &&& ·) whole

theorem paPte_or {low : Nat} (pa : Nat) (small : low < 1024) : paPte pa ||| low = pa / 4096 * 1024 + low := by
  have joined : low ||| 2 ^ 10 * (pa / 4096) = 2 ^ 10 * (pa / 4096) + low := or_high small _
  rw [paPte, shiftRight_pageShift, Nat.shiftLeft_eq, pteFlagsWidth, Nat.or_comm,
    Nat.mul_comm (pa / 4096) (2 ^ 10), joined]

section
variable {low : Nat} (ppn : Nat) (small : low < 1024)
include small

theorem pteFlags_entry : pteFlags (ppn * 1024 + low) = low := by
  rw [pteFlags_eq]
  omega

theorem ppn_entry : (ppn * 1024 + low) >>> pteFlagsWidth = ppn := by
  rw [Nat.shiftRight_eq_div_pow, pteFlagsWidth]
  omega

theorem pteFrame_entry : pteFrame (ppn * 1024 + low) = ppn % 2 ^ 26 := by
  rw [pteFrame, ppn_entry ppn small]

theorem flag_entry {mask : Nat} (flag : mask < 1024) : (ppn * 1024 + low) &&& mask = low &&& mask := by
  rw [← pteFlags_and _ flag, pteFlags_entry ppn small]

end

theorem cells_congr {other : Memory}
    (same : ∀ offset < 4096, memory (frameVa frame + offset) = other (frameVa frame + offset))
    (pn : Fin 512) : cells memory frame pn = cells other frame pn := by
  refine Memory.load64_congr (fun offset bound => ?_)
  rw [entryAddr, Nat.add_assoc]
  exact same _ (by omega)

theorem cells_store_same (bounded : word < 2 ^ 64) :
    cells (memory.store64 (entryAddr (frameVa frame) pn) word) frame pn = word :=
  Memory.load64_store64_same bounded

theorem cells_store_other {otherPn : Fin 512} (different : ¬ (other = frame ∧ otherPn = pn)) :
    cells (memory.store64 (entryAddr (frameVa frame) pn) word) other otherPn = cells memory other otherPn := by
  refine Memory.load64_store64_other ?_
  simp only [Fin.ext_iff] at different
  simp only [entryAddr, frameVa, pageSize]
  omega

theorem store64_outside_frame (different : other ≠ frame) (inside : offset < 4096) :
    memory.store64 (entryAddr (frameVa frame) pn) word (frameVa other + offset) =
      memory (frameVa other + offset) := by
  refine Memory.store64_outside ?_
  simp only [entryAddr, frameVa, pageSize]
  omega

theorem memset_outside_frame (val : UInt8) (different : other ≠ frame) (inside : offset < 4096) :
    memset memory (frameVa frame) val pageSize (frameVa other + offset) = memory (frameVa other + offset) := by
  refine memset_outside ?_
  simp only [frameVa, pageSize]
  omega

theorem cells_memset_same (memory : Memory) (frame : Nat) (pn : Fin 512) :
    cells (memset memory (frameVa frame) 0 pageSize) frame pn = 0 := by
  refine Memory.load64_zero (fun offset bound => ?_)
  rw [memset_apply, if_pos]
  simp only [entryAddr, pageSize]
  omega

theorem cells_memset_other (different : other ≠ frame) (pn : Fin 512) :
    cells (memset memory (frameVa frame) 0 pageSize) other pn = cells memory other pn :=
  cells_congr (fun _ inside => memset_outside_frame 0 different inside) pn

end Kalorona.Memory
