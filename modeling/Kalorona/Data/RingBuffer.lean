import Mathlib.Data.Nat.ModEq
import Mathlib.Logic.Function.Basic

namespace Kalorona.Data

/-! # Ring buffers with free-running counters

The head and the tail count the elements taken and put, modulo a number that the capacity divides.
-/

/-- Two counters that run on; the slot of a counter is its rest. -/
structure RingBuffer (α : Type) where
  slots : Nat → α
  head : Nat
  tail : Nat

namespace RingBuffer

variable {α : Type} {capacity modulus : Nat} {ring : RingBuffer α} {contents : List α} {value : α}

def push (capacity modulus : Nat) (ring : RingBuffer α) (value : α) : RingBuffer α :=
  { ring with
    slots := Function.update ring.slots (ring.tail % capacity) value
    tail := (ring.tail + 1) % modulus }

def front (capacity : Nat) (ring : RingBuffer α) : α := ring.slots (ring.head % capacity)

def pop (modulus : Nat) (ring : RingBuffer α) : RingBuffer α := { ring with head := (ring.head + 1) % modulus }

def level (modulus : Nat) (ring : RingBuffer α) : Nat := (ring.tail + modulus - ring.head) % modulus

/-- The ring holds `contents`, the oldest first. -/
structure Holds (capacity modulus : Nat) (ring : RingBuffer α) (contents : List α) : Prop where
  head : ring.head < modulus
  tail : ring.tail = (ring.head + contents.length) % modulus
  fits : contents.length ≤ capacity
  slots : ∀ offset, (inside : offset < contents.length) →
    ring.slots ((ring.head + offset) % capacity) = contents[offset]

theorem holds_nil (bounded : ring.head < modulus) (empty : ring.head = ring.tail) :
    Holds capacity modulus ring [] where
  head := bounded
  tail := by rw [List.length_nil, Nat.add_zero, Nat.mod_eq_of_lt bounded, empty]
  fits := Nat.zero_le _
  slots offset inside := absurd inside (Nat.not_lt_zero offset)

theorem level_push (bounded : ring.head < modulus) :
    (push capacity modulus ring value).level modulus = (ring.level modulus + 1) % modulus := by
  simp only [level, push, Nat.add_sub_assoc (Nat.le_of_lt bounded), Nat.mod_add_mod]
  rw [Nat.add_right_comm]

theorem slot_level (divides : capacity ∣ modulus) (bounded : ring.head < modulus) :
    (ring.head + ring.level modulus) % capacity = ring.tail % capacity := by
  have around : ring.head + (ring.tail + modulus - ring.head) = ring.tail + modulus := by omega
  rw [level, ← Nat.mod_mod_of_dvd _ divides, Nat.add_mod_mod, around, Nat.add_mod_right, Nat.mod_mod_of_dvd _ divides]

theorem slot_pop (divides : capacity ∣ modulus) (offset : Nat) :
    ((ring.pop modulus).head + offset) % capacity = (ring.head + (offset + 1)) % capacity := by
  rw [pop, Nat.add_mod, Nat.mod_mod_of_dvd _ divides, ← Nat.add_mod, Nat.add_right_comm, Nat.add_assoc]

theorem level_of_empty (empty : ring.head = ring.tail) : ring.level modulus = 0 := by
  rw [level, empty, Nat.add_sub_cancel_left, Nat.mod_self]

theorem level_pop (bounded : ring.head < modulus) (within : ring.tail < modulus)
    (nonempty : ring.head ≠ ring.tail) : ring.level modulus = (ring.pop modulus).level modulus + 1 := by
  have wraps : (ring.head + 1) % modulus = if ring.head + 1 = modulus then 0 else ring.head + 1 := by
    split
    next last => rw [last, Nat.mod_self]
    next inner => exact Nat.mod_eq_of_lt (by omega)
  simp only [level, pop, wraps]
  split
  next last =>
    rw [Nat.mod_eq_of_lt (by omega), Nat.sub_zero, Nat.add_mod_right, Nat.mod_eq_of_lt within]
    omega
  next inner =>
    by_cases ahead : ring.head < ring.tail
    · have first : ring.tail + modulus - ring.head = ring.tail - ring.head + modulus := by omega
      have second : ring.tail + modulus - (ring.head + 1) = ring.tail - (ring.head + 1) + modulus := by omega
      rw [first, second, Nat.add_mod_right, Nat.add_mod_right, Nat.mod_eq_of_lt (by omega),
        Nat.mod_eq_of_lt (by omega)]
      omega
    · rw [Nat.mod_eq_of_lt (by omega), Nat.mod_eq_of_lt (by omega)]
      omega

def Keeps (capacity modulus : Nat) (good : α → Prop) (ring : RingBuffer α) : Prop :=
  ∀ offset, offset < ring.level modulus → good (ring.slots ((ring.head + offset) % capacity))

theorem keeps_of_empty {good : α → Prop} (empty : ring.head = ring.tail) : Keeps capacity modulus good ring := by
  intro offset inside
  rw [level_of_empty empty] at inside
  exact absurd inside (Nat.not_lt_zero offset)

namespace Keeps

variable {good : α → Prop}

section
variable (keeps : Keeps capacity modulus good ring)
include keeps

theorem mono {better : α → Prop}
    (imply : ∀ value, good value → better value) : Keeps capacity modulus better ring :=
  fun offset inside => imply _ (keeps offset inside)

theorem push (divides : capacity ∣ modulus) (bounded : ring.head < modulus) (fine : good value) :
    Keeps capacity modulus good (ring.push capacity modulus value) := by
  intro offset inside
  rw [level_push bounded] at inside
  have reach : offset < ring.level modulus + 1 := Nat.lt_of_lt_of_le inside (Nat.mod_le _ _)
  simp only [RingBuffer.push]
  by_cases here : (ring.head + offset) % capacity = ring.tail % capacity
  · rw [here, Function.update_self]
    exact fine
  · rw [Function.update_of_ne here]
    have different : offset ≠ ring.level modulus := by
      rintro rfl
      exact here (slot_level divides bounded)
    exact keeps offset (by omega)

theorem pop (divides : capacity ∣ modulus)
    (bounded : ring.head < modulus) (within : ring.tail < modulus) (nonempty : ring.head ≠ ring.tail) :
    good (ring.front capacity) ∧ Keeps capacity modulus good (ring.pop modulus) := by
  have fewer := level_pop bounded within nonempty
  refine ⟨keeps 0 (by omega), fun offset inside => ?_⟩
  rw [slot_pop divides]
  exact keeps (offset + 1) (by omega)

end

end Keeps

namespace Holds

section
variable (holds : Holds capacity modulus ring contents)
include holds

theorem level_eq (large : capacity < modulus) : ring.level modulus = contents.length := by
  have head := holds.head
  have fits := holds.fits
  have split : ring.head + contents.length + (modulus - ring.head) = contents.length + modulus := by
    omega
  rw [level, holds.tail, Nat.add_sub_assoc (Nat.le_of_lt head), Nat.mod_add_mod, split,
    Nat.add_mod_right, Nat.mod_eq_of_lt (by omega)]

theorem empty_iff (large : capacity < modulus) : ring.head = ring.tail ↔ contents = [] := by
  have head := holds.head
  constructor
  · intro same
    have levels := holds.level_eq large
    rw [level_of_empty same] at levels
    exact List.eq_nil_of_length_eq_zero levels.symm
  · rintro rfl
    rw [holds.tail, List.length_nil, Nat.add_zero, Nat.mod_eq_of_lt head]

theorem full_iff (large : capacity < modulus) :
    (ring.head + capacity) % modulus = ring.tail ↔ contents.length = capacity := by
  have fits := holds.fits
  rw [holds.tail]
  constructor
  · intro same
    have congruent : contents.length ≡ capacity [MOD modulus] := Nat.ModEq.add_left_cancel' ring.head same.symm
    exact congruent.eq_of_lt_of_lt (by omega) large
  · intro full
    rw [full]

theorem push (divides : capacity ∣ modulus) (room : contents.length < capacity) (value : α) :
    Holds capacity modulus (ring.push capacity modulus value) (contents ++ [value]) where
  head := holds.head
  tail := by
    simp only [RingBuffer.push, holds.tail, Nat.mod_add_mod, List.length_append, List.length_singleton, Nat.add_assoc]
  fits := by
    rw [List.length_append, List.length_singleton]
    exact room
  slots offset inside := by
    have place : ring.tail % capacity = (ring.head + contents.length) % capacity := by
      rw [holds.tail, Nat.mod_mod_of_dvd _ divides]
    simp only [RingBuffer.push, place]
    rw [List.length_append, List.length_singleton] at inside
    by_cases last : offset = contents.length
    · subst last
      rw [Function.update_self, List.getElem_concat_length rfl]
    · have earlier : offset < contents.length := by omega
      have apart : (ring.head + offset) % capacity ≠ (ring.head + contents.length) % capacity := by
        intro same
        have congruent : offset ≡ contents.length [MOD capacity] := Nat.ModEq.add_left_cancel' ring.head same
        exact last (congruent.eq_of_lt_of_lt (by omega) room)
      rw [Function.update_of_ne apart, holds.slots offset earlier, List.getElem_append_left earlier]

end

theorem pop (holds : Holds capacity modulus ring (value :: contents)) (divides : capacity ∣ modulus) :
    ring.front capacity = value ∧ Holds capacity modulus (ring.pop modulus) contents := by
  have head := holds.head
  refine ⟨holds.slots 0 (Nat.zero_lt_succ _), Nat.mod_lt _ (by omega), ?_, ?_, ?_⟩
  · simp only [RingBuffer.pop, holds.tail, List.length_cons, Nat.mod_add_mod]
    rw [Nat.add_right_comm, Nat.add_assoc]
  · exact Nat.le_of_succ_le holds.fits
  · intro offset inside
    rw [slot_pop divides]
    exact holds.slots (offset + 1) (Nat.succ_lt_succ inside)

end Holds

end RingBuffer

end Kalorona.Data
