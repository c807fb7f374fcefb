import Mathlib.Data.Nat.Bitwise
import Mathlib.Algebra.Order.Group.Nat
import Mathlib.Tactic.Ring

namespace Kalorona.Data

/-! # Masks and shifts as arithmetic

Masks, shifts and exclusive or, restated with quotients, remainders and sums.
-/

theorem and_high_mask {value bits low : Nat} (bounded : value < 2 ^ bits) (fits : low ≤ bits) :
    value &&& (2 ^ bits - 2 ^ low) = value / 2 ^ low * 2 ^ low := by
  have maskForm : 2 ^ bits - 2 ^ low = 2 ^ bits - ((2 ^ low - 1) + 1) := by
    rw [Nat.sub_add_cancel (Nat.one_le_two_pow)]
  have lowBound : 2 ^ low - 1 < 2 ^ bits := Nat.lt_of_lt_of_le (Nat.sub_lt (Nat.two_pow_pos low) Nat.one_pos)
      (Nat.pow_le_pow_right (by decide) fits)
  apply Nat.eq_of_testBit_eq
  intro index
  rw [maskForm, Nat.testBit_and, Nat.testBit_two_pow_sub_succ lowBound,
    Nat.testBit_two_pow_sub_one, Nat.testBit_mul_two_pow, Nat.testBit_div_two_pow]
  by_cases below : low ≤ index
  · rw [Nat.sub_add_cancel below]
    by_cases inside : index < bits
    · simp [below, inside]
    · have zero : value.testBit index = false := Nat.testBit_lt_two_pow (Nat.lt_of_lt_of_le bounded
          (Nat.pow_le_pow_right (by decide) (Nat.le_of_not_lt inside)))
      simp [zero]
  · simp [below, Nat.lt_of_not_le below]

theorem or_high {value low : Nat} (bounded : value < 2 ^ low) (high : Nat) :
    value ||| 2 ^ low * high = 2 ^ low * high + value := by
  rw [Nat.or_comm, Nat.two_pow_add_eq_or_of_lt bounded]

theorem xor_grid_step (index low : Nat) : (index * 2 ^ low) ^^^ 2 ^ low = (index ^^^ 1) * 2 ^ low := by
  have scaled := Nat.shiftLeft_xor_distrib (a := index) (b := 1) (i := low)
  simp only [Nat.shiftLeft_eq, Nat.one_mul] at scaled
  exact scaled.symm

theorem xor_one_cases (index : Nat) :
    (index % 2 = 0 ∧ index ^^^ 1 = index + 1) ∨ (index % 2 = 1 ∧ index ^^^ 1 = index - 1) := by
  rcases Nat.mod_two_eq_zero_or_one index with even | odd
  · exact .inl ⟨even, Nat.xor_one_of_even (Nat.even_iff.mpr even)⟩
  · exact .inr ⟨odd, Nat.xor_one_of_odd (Nat.odd_iff.mpr odd)⟩

theorem le_roundUp (value : Nat) {unit : Nat} (positive : 0 < unit) : value ≤ (value + unit - 1) / unit * unit := by
  have split := Nat.div_add_mod (value + unit - 1) unit
  have remainder := Nat.mod_lt (value + unit - 1) positive
  rw [Nat.mul_comm] at split
  omega

theorem roundUp_le {value unit multiple : Nat} (positive : 0 < unit) (divides : unit ∣ multiple)
    (below : value ≤ multiple) : (value + unit - 1) / unit * unit ≤ multiple := by
  obtain ⟨cells, whole⟩ := divides
  have quotient : (value + unit - 1) / unit ≤ cells := by
    apply Nat.le_of_lt_succ
    apply Nat.div_lt_of_lt_mul
    rw [Nat.mul_succ, ← whole]
    omega
  calc (value + unit - 1) / unit * unit
      ≤ cells * unit := Nat.mul_le_mul_right _ quotient
    _ = multiple := by rw [Nat.mul_comm, ← whole]

end Kalorona.Data
