import Mathlib.Algebra.Order.Group.Nat
import Mathlib.Tactic.NormNum

namespace Kalorona.Data

/-! # Byte-addressed memory

Memory is a function from addresses to bytes.  A 64-bit word occupies eight
consecutive bytes, least significant byte first.
-/

abbrev Memory := Nat → UInt8

namespace Memory

variable (memory : Memory)

def store (address : Nat) (byte : UInt8) : Memory :=
  fun other => if other = address then byte else memory other

/-- The number whose little-endian digits are the `count` bytes from `address`. -/
def loadBytes (address : Nat) : Nat → Nat
  | 0 => 0
  | count + 1 => (memory address).toNat + 256 * loadBytes (address + 1) count

def storeBytes (address word : Nat) : Nat → Memory
  | 0 => memory
  | count + 1 => (storeBytes (address + 1) (word / 256) count).store address (UInt8.ofNat word)

def load64 (address : Nat) : Nat := memory.loadBytes address 8

def store64 (address word : Nat) : Memory := memory.storeBytes address word 8

variable {memory}

@[simp] theorem store_same (address : Nat) (byte : UInt8) : memory.store address byte address = byte := by
  simp [store]

variable {address other count word : Nat} {text : List UInt8}

theorem store_other (byte : UInt8) (different : other ≠ address) :
    memory.store address byte other = memory other := by
  simp [store, different]

theorem loadBytes_lt (memory : Memory) (address count : Nat) : memory.loadBytes address count < 256 ^ count := by
  induction count generalizing address with
  | zero => simp [loadBytes]
  | succ count ih =>
    have rest := ih (address + 1)
    have byte : (memory address).toNat < 256 := UInt8.toNat_lt _
    simp only [loadBytes, Nat.pow_succ]
    omega

theorem load64_lt (address : Nat) : memory.load64 address < 2 ^ 64 := by
  have bound := loadBytes_lt memory address 8
  norm_num at bound
  exact bound

theorem loadBytes_congr {other : Memory} {source : Nat}
    (agree : ∀ offset < count, memory (address + offset) = other (source + offset)) :
    memory.loadBytes address count = other.loadBytes source count := by
  induction count generalizing address source with
  | zero => rfl
  | succ count ih =>
    have first := agree 0 (by omega)
    have rest : memory.loadBytes (address + 1) count = other.loadBytes (source + 1) count :=
      ih (fun offset bound => by
        simpa only [Nat.add_assoc, Nat.add_comm 1 offset] using agree (offset + 1) (by omega))
    simp only [Nat.add_zero] at first
    simp only [loadBytes, first, rest]

theorem loadBytes_digits
    (digits : ∀ offset < count, memory (address + offset) = UInt8.ofNat (word / 256 ^ offset)) :
    memory.loadBytes address count = word % 256 ^ count := by
  induction count generalizing address word with
  | zero => exact (Nat.mod_one word).symm
  | succ count ih =>
    have first := digits 0 (by omega)
    have rest : memory.loadBytes (address + 1) count = word / 256 % 256 ^ count := ih (fun offset bound => by
        rw [Nat.add_assoc, Nat.add_comm 1 offset, digits (offset + 1) (by omega), Nat.pow_succ',
          Nat.div_div_eq_div_mul])
    rw [Nat.add_zero, Nat.pow_zero, Nat.div_one] at first
    have split : word % 256 ^ (count + 1) = word % 256 + 256 * (word / 256 % 256 ^ count) := by
      rw [Nat.pow_succ', Nat.mod_mul]
    rw [loadBytes, first, rest, split, UInt8.toNat_ofNat']

theorem load64_congr {other : Memory} {source : Nat}
    (agree : ∀ offset < 8, memory (address + offset) = other (source + offset)) :
    memory.load64 address = other.load64 source :=
  loadBytes_congr agree

theorem loadBytes_zero (address count : Nat) : Memory.loadBytes (fun _ => 0) address count = 0 := by
  induction count generalizing address with
  | zero => rfl
  | succ count ih => simp [loadBytes, ih]

theorem load64_zero (zero : ∀ offset < 8, memory (address + offset) = 0) : memory.load64 address = 0 :=
  (loadBytes_congr zero).trans (loadBytes_zero address 8)

theorem storeBytes_outside (outside : other < address ∨ address + count ≤ other) :
    memory.storeBytes address word count other = memory other := by
  induction count generalizing address word with
  | zero => rfl
  | succ count ih =>
    rw [storeBytes, store_other _ (by omega), ih (by omega)]

theorem loadBytes_storeBytes (memory : Memory) (address word count : Nat) :
    (memory.storeBytes address word count).loadBytes address count = word % 256 ^ count := by
  induction count generalizing address word with
  | zero => simp [loadBytes, Nat.mod_one]
  | succ count ih =>
    have tail : (memory.storeBytes address word (count + 1)).loadBytes (address + 1) count =
        (memory.storeBytes (address + 1) (word / 256) count).loadBytes (address + 1) count :=
      loadBytes_congr (fun offset _ => store_other _ (by omega))
    have digits : word % 256 ^ (count + 1) = word % 256 + 256 * (word / 256 % 256 ^ count) := by
      rw [Nat.pow_succ', Nat.mod_mul]
    rw [loadBytes, tail, ih, digits]
    simp [storeBytes, UInt8.toNat_ofNat']

theorem store64_outside (outside : other < address ∨ address + 8 ≤ other) :
    memory.store64 address word other = memory other :=
  storeBytes_outside outside

theorem storeBytes_congr {memory' : Memory} (same : memory' other = memory other) :
    memory'.storeBytes address word count other = memory.storeBytes address word count other := by
  induction count generalizing address word with
  | zero => exact same
  | succ count ih =>
    simp only [storeBytes]
    by_cases here : other = address
    · rw [here, store_same, store_same]
    · rw [store_other _ here, store_other _ here, ih]

theorem load64_store64_same (bounded : word < 2 ^ 64) : (memory.store64 address word).load64 address = word := by
  have read := loadBytes_storeBytes memory address word 8
  rwa [Nat.mod_eq_of_lt (by norm_num; omega)] at read

theorem load64_store64_other (apart : other + 8 ≤ address ∨ address + 8 ≤ other) :
    (memory.store64 address word).load64 other = memory.load64 other :=
  load64_congr (fun offset bound => store64_outside (by omega))

/-- The characters from `address` up to the first NUL. -/
def HoldsString (memory : Memory) : Nat → List UInt8 → Prop
  | address, [] => memory address = 0
  | address, c :: text => memory address = c ∧ c ≠ 0 ∧ HoldsString memory (address + 1) text

instance HoldsString.decidable (memory : Memory) :
    (address : Nat) → (text : List UInt8) → Decidable (memory.HoldsString address text)
  | _, [] => inferInstanceAs (Decidable (_ = _))
  | address, _ :: text =>
    have := HoldsString.decidable memory (address + 1) text
    inferInstanceAs (Decidable (_ ∧ _ ∧ _))

theorem HoldsString.drop {address : Nat} {before text : List UInt8}
    (string : memory.HoldsString address (before ++ text)) : memory.HoldsString (address + before.length) text := by
  induction before generalizing address with
  | nil => exact string
  | cons c before ih =>
    have rest := ih string.2.2
    rwa [List.length_cons, Nat.add_comm before.length, ← Nat.add_assoc]

theorem HoldsString.getElem {i : Nat} (string : memory.HoldsString address text)
    (inside : i < text.length) : memory (address + i) = text[i] := by
  induction text generalizing address i with
  | nil => exact absurd inside (Nat.not_lt_zero i)
  | cons c text ih =>
    cases i with
    | zero => exact string.1
    | succ i =>
      have rest := ih string.2.2 (Nat.lt_of_succ_lt_succ inside)
      rw [Nat.add_assoc, Nat.add_comm 1] at rest
      exact rest

theorem HoldsString.nonzero (string : memory.HoldsString address text) : (0 : UInt8) ∉ text := by
  induction text generalizing address with
  | nil => exact List.not_mem_nil
  | cons c text ih =>
    intro member
    rcases List.mem_cons.mp member with zero | later
    · exact string.2.1 zero.symm
    · exact ih string.2.2 later

theorem HoldsString.congr {other : Memory} (string : memory.HoldsString address text)
    (agree : ∀ i ≤ text.length, other (address + i) = memory (address + i)) : other.HoldsString address text := by
  induction text generalizing address with
  | nil => exact (agree 0 (Nat.le_refl 0)).trans string
  | cons c text ih =>
    refine ⟨(agree 0 (Nat.zero_le _)).trans string.1, string.2.1, ih string.2.2 fun i bound => ?_⟩
    rw [Nat.add_assoc, Nat.add_comm 1]
    exact agree (i + 1) (Nat.succ_le_succ bound)

def HoldsStrings (memory : Memory) : Nat → List (List UInt8) → Prop
  | _, [] => True
  | address, text :: texts =>
    memory.HoldsString address text ∧ HoldsStrings memory (address + (text.length + 1)) texts

def packedLength (texts : List (List UInt8)) : Nat := (texts.map fun text => text.length + 1).sum

theorem packedLength_cons (text : List UInt8) (texts : List (List UInt8)) :
    packedLength (text :: texts) = text.length + 1 + packedLength texts := by
  simp [packedLength]

theorem length_lt_packedLength {texts : List (List UInt8)} (member : text ∈ texts) :
    text.length < packedLength texts := by
  induction texts with
  | nil => exact absurd member List.not_mem_nil
  | cons first texts ih =>
    rw [packedLength_cons]
    rcases List.mem_cons.mp member with rfl | later
    · omega
    · have rest := ih later
      omega

end Memory

end Kalorona.Data
