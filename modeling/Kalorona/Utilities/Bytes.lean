import Kalorona.Kernel.Machine

namespace Kalorona.Utilities

/-! # Byte bitmaps

A bitmap is reached through a pointer to its first byte, so a map is the
function from byte offsets to bytes.
-/

abbrev Bitmap := Nat → UInt8

def testBit (map : Bitmap) (index : Nat) : Bool :=
  (map (index >>> 3)).toNat >>> (index &&& 0x7) &&& 1 == 1

def writeByte (map : Bitmap) (offset : Nat) (byte : Nat) : Bitmap :=
  fun other => if other = offset then UInt8.ofNat byte else map other

def testAndSetBit (map : Bitmap) (index : Nat) : Bool × Bitmap :=
  (testBit map index, writeByte map (index >>> 3) ((map (index >>> 3)).toNat ||| 1 <<< (index &&& 0x7)))

/-- Clears the bit and returns what it was.  The mask is built as an `int`, and
only its low byte meets the map. -/
def testAndClearBit (map : Bitmap) (index : Nat) : Bool × Bitmap :=
  (testBit map index, writeByte map (index >>> 3)
      ((map (index >>> 3)).toNat &&& (2 ^ 32 - 1 - 1 <<< (index &&& 0x7))))

def toggleBit (map : Bitmap) (index : Nat) : Bool × Bitmap :=
  let flipped := writeByte map (index >>> 3)
    ((map (index >>> 3)).toNat ^^^ 1 <<< (index &&& 0x7))
  (testBit flipped index, flipped)

theorem testBit_eq (map : Bitmap) (index : Nat) :
    testBit map index = (map (index / 8)).toNat.testBit (index % 8) := by
  have position : index &&& 0x7 = index % 8 := Nat.and_two_pow_sub_one_eq_mod index 3
  simp only [testBit, position, Nat.shiftRight_eq_div_pow, Nat.testBit, Nat.and_comm 1]
  rcases Nat.mod_two_eq_zero_or_one ((map (index / 2 ^ 3)).toNat / 2 ^ (index % 8)) with _ | _ <;>
    simp [Nat.and_one_is_mod]

theorem Bitmap.byte_ext {left right : Bitmap} {offset : Nat}
    (bits : ∀ position < 8, testBit left (8 * offset + position) = testBit right (8 * offset + position)) :
    left offset = right offset := by
  refine UInt8.toNat_inj.mp (Nat.eq_of_testBit_eq (fun position => ?_))
  by_cases inside : position < 8
  · have bit := bits position inside
    rw [testBit_eq, testBit_eq, show (8 * offset + position) / 8 = offset by omega,
      show (8 * offset + position) % 8 = position by omega] at bit
    exact bit
  · have small (byte : UInt8) : byte.toNat.testBit position = false :=
      Nat.testBit_lt_two_pow (Nat.lt_of_lt_of_le byte.toNat_lt
        (Nat.pow_le_pow_right (by decide) (Nat.le_of_not_lt inside)))
    rw [small, small]

theorem Bitmap.ext {left right : Bitmap}
    (bits : ∀ index, testBit left index = testBit right index) : left = right := by
  funext offset
  exact Bitmap.byte_ext fun position _ => bits _

theorem testBit_writeByte (map : Bitmap) (offset byte index : Nat) : testBit (writeByte map offset byte) index =
      if index / 8 = offset then byte.testBit (index % 8) else testBit map index := by
  have position : index % 8 < 8 := Nat.mod_lt _ (by decide)
  simp only [testBit_eq, writeByte]
  split
  · rw [UInt8.toNat_ofNat', Nat.testBit_mod_two_pow]
    simp [position]
  · rfl

private theorem shifted_one_testBit (position other : Nat) :
    (1 <<< position).testBit other = decide (position = other) := by
  rw [Nat.one_shiftLeft, Nat.testBit_two_pow]

private theorem testBit_update {map : Bitmap} {index byte : Nat} {bit : Bool}
    (own : byte.testBit (index % 8) = bit)
    (others : ∀ position < 8, position ≠ index % 8 →
      byte.testBit position = (map (index / 8)).toNat.testBit position) (other : Nat) :
    testBit (writeByte map (index / 8) byte) other =
      if other = index then bit else testBit map other := by
  rw [testBit_writeByte]
  by_cases same : other = index
  · subst other
    simp [own]
  · simp only [same, if_false]
    split
    next sameByte =>
      rw [others _ (Nat.mod_lt _ (by decide)) (by omega), testBit_eq, sameByte]
    next => rfl

@[simp] theorem testAndSetBit_fst (map : Bitmap) (index : Nat) :
    (testAndSetBit map index).1 = testBit map index := rfl

@[simp] theorem testAndClearBit_fst (map : Bitmap) (index : Nat) :
    (testAndClearBit map index).1 = testBit map index := rfl

@[simp] theorem testBit_testAndSetBit (map : Bitmap) (index other : Nat) :
    testBit (testAndSetBit map index).2 other = if other = index then true else testBit map other := by
  have position : index &&& 0x7 = index % 8 := Nat.and_two_pow_sub_one_eq_mod index 3
  simp only [testAndSetBit, position, Nat.shiftRight_eq_div_pow, Nat.reducePow]
  refine testBit_update ?_ ?_ other
  · rw [Nat.testBit_or, shifted_one_testBit]
    simp
  · intro place _ different
    rw [Nat.testBit_or, shifted_one_testBit]
    simp [Ne.symm different]

@[simp] theorem testBit_testAndClearBit (map : Bitmap) (index other : Nat) :
    testBit (testAndClearBit map index).2 other = if other = index then false else testBit map other := by
  have position : index &&& 0x7 = index % 8 := Nat.and_two_pow_sub_one_eq_mod index 3
  have small : 1 <<< (index % 8) < 2 ^ 32 := by
    rw [Nat.one_shiftLeft]
    exact Nat.pow_lt_pow_right (by decide) (by omega)
  have mask : 2 ^ 32 - 1 - 1 <<< (index % 8) = 2 ^ 32 - (1 <<< (index % 8) + 1) := by omega
  simp only [testAndClearBit, position, Nat.shiftRight_eq_div_pow, Nat.reducePow]
  rw [show (4294967296 : Nat) = 2 ^ 32 from rfl, mask]
  refine testBit_update ?_ ?_ other
  · rw [Nat.testBit_and, Nat.testBit_two_pow_sub_succ small, shifted_one_testBit]
    simp
  · intro place bound different
    rw [Nat.testBit_and, Nat.testBit_two_pow_sub_succ small, shifted_one_testBit]
    simp [Ne.symm different, show place < 32 by omega]

@[simp] theorem testBit_toggleBit (map : Bitmap) (index other : Nat) : testBit (toggleBit map index).2 other =
      if other = index then !testBit map index else testBit map other := by
  have position : index &&& 0x7 = index % 8 := Nat.and_two_pow_sub_one_eq_mod index 3
  simp only [toggleBit, position, Nat.shiftRight_eq_div_pow, Nat.reducePow]
  refine testBit_update ?_ ?_ other
  · rw [Nat.testBit_xor, shifted_one_testBit, testBit_eq]
    simp
  · intro place _ different
    rw [Nat.testBit_xor, shifted_one_testBit]
    simp [Ne.symm different]

@[simp] theorem toggleBit_fst (map : Bitmap) (index : Nat) : (toggleBit map index).1 = !testBit map index := by
  have flipped := testBit_toggleBit map index index
  rw [if_pos rfl] at flipped
  exact flipped

example : testBit (testAndSetBit (fun _ => 0x05) 9).2 9 = true := by decide

end Kalorona.Utilities
