import Kalorona.Data.ByteMemory
import Kalorona.Kernel.Machine

namespace Kalorona.Utilities

open Kalorona.Data

/-! # Memory primitives of the string library

The loops run one byte at a time, forward except for half of `memmove`.
-/

def memset (memory : Memory) (dst : Nat) (val : UInt8) : Nat → Memory
  | 0 => memory
  | siz + 1 => memset (memory.store dst val) (dst + 1) val siz

def memcpy (memory : Memory) (dst src : Nat) : Nat → Memory
  | 0 => memory
  | siz + 1 => memcpy (memory.store dst (memory src)) (dst + 1) (src + 1) siz

def copyBackward (memory : Memory) (p1 p2 : Nat) : Nat → Memory
  | 0 => memory
  | siz + 1 => copyBackward (memory.store p1 (memory p2)) (ulongSub p1 1) (ulongSub p2 1) siz

def memmove (memory : Memory) (dst src siz : Nat) : Memory :=
  if dst = src then memory
  else if dst < src then memcpy memory dst src siz
  else copyBackward memory (ulongSub (ulong (dst + siz)) 1) (ulongSub (ulong (src + siz)) 1) siz

/-- `strcmp` of two strings, each given by its characters before the terminator. -/
def strcmp : List UInt8 → List UInt8 → Int
  | c :: l, d :: r => if c = d ∧ c ≠ 0 then strcmp l r else c.toNat - d.toNat
  | l, r => (l.headD 0).toNat - (r.headD 0).toNat

/-- `strcmp` of the string at the address `l` with a literal. -/
def strcmpAt (memory : Memory) : Nat → List UInt8 → Int
  | l, [] => (memory l).toNat
  | l, c :: r =>
    if memory l = c ∧ memory l ≠ 0 then strcmpAt memory (l + 1) r else (memory l).toNat - c.toNat

def strncmpLoop : Nat → List UInt8 → List UInt8 → Int
  | n + 1, c :: l, d :: r => if c ≠ 0 ∧ d ≠ 0 ∧ c = d then strncmpLoop n l r else c.toNat - d.toNat
  | _, l, r => (l.headD 0).toNat - (r.headD 0).toNat

def strncmp (l r : List UInt8) : Nat → Int
  | 0 => 0
  | n + 1 => strncmpLoop n l r

theorem memset_apply (memory : Memory) (dst : Nat) (val : UInt8) (siz address : Nat) :
    memset memory dst val siz address = if dst ≤ address ∧ address < dst + siz then val else memory address := by
  induction siz generalizing memory dst with
  | zero =>
    have outside : ¬ (dst ≤ address ∧ address < dst + 0) := by omega
    rw [if_neg outside]
    rfl
  | succ siz ih =>
    rw [memset, ih]
    by_cases first : address = dst
    · subst address
      simp
    · have same : dst + 1 ≤ address ∧ address < dst + 1 + siz ↔
          dst ≤ address ∧ address < dst + (siz + 1) := by omega
      simp only [same, Memory.store_other _ first]

variable {dst siz src : Nat} {memory : Memory}

theorem memset_outside {address : Nat} {val : UInt8}
    (outside : address < dst ∨ dst + siz ≤ address) : memset memory dst val siz address = memory address := by
  rw [memset_apply, if_neg (by omega)]

/-- Copying forward never reads a byte that it has written, unless the destination begins
inside the source. -/
theorem memcpy_apply (ahead : dst ≤ src ∨ src + siz ≤ dst) (address : Nat) :
    memcpy memory dst src siz address = if dst ≤ address ∧ address < dst + siz then memory (src + (address - dst))
      else memory address := by
  induction siz generalizing memory dst src with
  | zero =>
    have outside : ¬ (dst ≤ address ∧ address < dst + 0) := by omega
    rw [if_neg outside]
    rfl
  | succ siz ih =>
    rw [memcpy, ih (by omega)]
    by_cases first : address = dst
    · subst address
      simp
    · have same : dst + 1 ≤ address ∧ address < dst + 1 + siz ↔
          dst ≤ address ∧ address < dst + (siz + 1) := by omega
      simp only [same, Memory.store_other _ first]
      split
      next inside =>
        rw [Memory.store_other _ (by omega)]
        congr 1
        omega
      next => rfl

/-- Copying backward never reads a byte that it has written, if the destination begins
after the source. -/
theorem copyBackward_apply (behind : src < dst) (fits : dst + siz ≤ 2 ^ 64) (address : Nat) :
    copyBackward memory (ulongSub (ulong (dst + siz)) 1) (ulongSub (ulong (src + siz)) 1) siz address =
      if dst ≤ address ∧ address < dst + siz then memory (src + (address - dst)) else memory address := by
  induction siz generalizing memory with
  | zero =>
    have outside : ¬ (dst ≤ address ∧ address < dst + 0) := by omega
    rw [if_neg outside]
    rfl
  | succ siz ih =>
    have last : ∀ base, base + (siz + 1) ≤ 2 ^ 64 → ulongSub (ulong (base + (siz + 1))) 1 = base + siz := by
      intro base bounded
      unfold ulongSub ulong
      omega
    have before : ∀ base, base + (siz + 1) ≤ 2 ^ 64 → base + siz = ulong (base + siz) := by
      intro base bounded
      exact (ulong_of_lt (by omega)).symm
    rw [last dst fits, last src (by omega), copyBackward, before dst fits, before src (by omega),
      ih (by omega), ← before dst fits, ← before src (by omega)]
    by_cases here : address = dst + siz
    · subst address
      simp
    · have same : dst ≤ address ∧ address < dst + siz ↔ dst ≤ address ∧ address < dst + (siz + 1) := by omega
      simp only [same, Memory.store_other _ here]
      split
      next inside => rw [Memory.store_other _ (by omega)]
      next => rfl

theorem memmove_apply (fits : dst + siz ≤ 2 ^ 64) (address : Nat) :
    memmove memory dst src siz address = if dst ≤ address ∧ address < dst + siz then memory (src + (address - dst))
      else memory address := by
  unfold memmove
  split
  next same =>
    subst same
    split
    next inside => rw [Nat.add_sub_cancel' inside.1]
    next => rfl
  next different =>
    split
    next below => exact memcpy_apply (.inl (Nat.le_of_lt below)) address
    next above => exact copyBackward_apply (by omega) fits address

theorem toNat_sub_eq_zero_iff (c d : UInt8) : (c.toNat : Int) - d.toNat = 0 ↔ c = d := by
  rw [← UInt8.toNat_inj]
  omega

theorem strcmp_eq_zero_iff {l r : List UInt8} (left : (0 : UInt8) ∉ l) (right : (0 : UInt8) ∉ r) :
    strcmp l r = 0 ↔ l = r := by
  induction l generalizing r with
  | nil =>
    cases r with
    | nil => simp [strcmp]
    | cons d r =>
      have different : (0 : UInt8) ≠ d := fun same => right (same ▸ List.mem_cons_self)
      simpa [strcmp, different] using (toNat_sub_eq_zero_iff 0 d).not.mpr different
  | cons c l ih =>
    have nonzero : c ≠ 0 := fun same => left (same ▸ List.mem_cons_self)
    cases r with
    | nil => simpa [strcmp] using (toNat_sub_eq_zero_iff c 0).not.mpr nonzero
    | cons d r =>
      have rest := ih (List.not_mem_of_not_mem_cons left) (List.not_mem_of_not_mem_cons right)
      by_cases same : c = d
      · simpa [strcmp, same, same ▸ nonzero] using rest
      · simpa [strcmp, same] using (toNat_sub_eq_zero_iff c d).not.mpr same

theorem strcmpAt_eq {l : Nat} {text r : List UInt8} (string : memory.HoldsString l text) :
    strcmpAt memory l r = strcmp text r := by
  induction r generalizing l text with
  | nil =>
    cases text with
    | nil =>
      have terminator : memory l = 0 := string
      simp [strcmpAt, strcmp, terminator]
    | cons c text => simp [strcmpAt, strcmp, string.1]
  | cons d r ih =>
    cases text with
    | nil =>
      have terminator : memory l = 0 := string
      simp [strcmpAt, strcmp, terminator]
    | cons c text =>
      obtain ⟨here, _, rest⟩ := string
      simp only [strcmpAt, strcmp, here, ih rest]

/-- After `memmove` the destination holds what the source held before, however the two
ranges overlap, and nothing else has changed. -/
theorem memmove_moves {memory : Memory} {dst src siz : Nat} (fits : dst + siz ≤ 2 ^ 64) :
    (∀ i < siz, memmove memory dst src siz (dst + i) = memory (src + i)) ∧
      ∀ address, address < dst ∨ dst + siz ≤ address →
        memmove memory dst src siz address = memory address := by
  constructor
  · intro i inside
    rw [memmove_apply fits, if_pos (by omega), Nat.add_sub_cancel_left]
  · intro address outside
    rw [memmove_apply fits, if_neg (by omega)]

/-- Three bytes moved up by one, to the end of the address space. -/
theorem memmove_moves_to_top :
    (∀ i < 3, memmove UInt8.ofNat (2 ^ 64 - 3) (2 ^ 64 - 4) 3 (2 ^ 64 - 3 + i) = UInt8.ofNat (2 ^ 64 - 4 + i)) ∧
      ∀ address, address < 2 ^ 64 - 3 ∨ 2 ^ 64 - 3 + 3 ≤ address →
        memmove UInt8.ofNat (2 ^ 64 - 3) (2 ^ 64 - 4) 3 address = UInt8.ofNat address :=
  memmove_moves (by decide)

end Kalorona.Utilities
