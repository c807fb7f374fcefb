import Kalorona.Utilities.Bytes
import Mathlib.Data.Finset.Basic

namespace Kalorona.Utilities

/-! # Bitmaps as sets of indices

An array of bytes stands for the set of the indices whose bit is 1.
-/

inductive BitCall where
  | test (index : Nat)
  | testAndSet (index : Nat)
  | testAndClear (index : Nat)
  | toggle (index : Nat)
deriving DecidableEq, Repr

namespace BitCall

def index : BitCall → Nat
  | test index | testAndSet index | testAndClear index | toggle index => index

def onMap : BitCall → Bitmap → Bool × Bitmap
  | test index, map => (testBit map index, map)
  | testAndSet index, map => testAndSetBit map index
  | testAndClear index, map => testAndClearBit map index
  | toggle index, map => toggleBit map index

def onSet : BitCall → Finset Nat → Bool × Finset Nat
  | test index, set => (decide (index ∈ set), set)
  | testAndSet index, set => (decide (index ∈ set), insert index set)
  | testAndClear index, set => (decide (index ∈ set), set.erase index)
  | toggle index, set =>
    let flipped := if index ∈ set then set.erase index else insert index set
    (decide (index ∈ flipped), flipped)

def write : BitCall → Bool → Bool
  | test _, bit => bit
  | testAndSet _, _ => true
  | testAndClear _, _ => false
  | toggle _, bit => !bit

end BitCall

def runCalls {σ : Type} (step : BitCall → σ → Bool × σ) : List BitCall → σ → List Bool × σ
  | [], state => ([], state)
  | call :: calls, state =>
    let (result, state) := step call state
    let (results, state) := runCalls step calls state
    (result :: results, state)

def indices (map : Bitmap) (length : Nat) : Finset Nat :=
  {index ∈ Finset.range (8 * length) | testBit map index = true}

section
variable {map : Bitmap} {length : Nat}

theorem mem_indices {index : Nat} : index ∈ indices map length ↔ index < 8 * length ∧ testBit map index = true := by
  simp [indices]

theorem BitCall.testBit_onMap (call : BitCall) (map : Bitmap) (other : Nat) : testBit (call.onMap map).2 other =
      if other = call.index then call.write (testBit map call.index) else testBit map other := by
  cases call with
  | test index =>
    by_cases same : other = index
    · simp [onMap, BitCall.index, write, same]
    · simp [onMap, BitCall.index, same]
  | testAndSet index => exact testBit_testAndSetBit map index other
  | testAndClear index => exact testBit_testAndClearBit map index other
  | toggle index => exact testBit_toggleBit map index other

theorem BitCall.onMap_outside {call : BitCall} (inside : call.index < 8 * length) {offset : Nat}
    (outside : length ≤ offset) : (call.onMap map).2 offset = map offset := by
  apply Bitmap.byte_ext
  intro position _
  have other : 8 * offset + position ≠ call.index := by omega
  rw [call.testBit_onMap, if_neg other]

theorem BitCall.onMap_refines {call : BitCall} (inside : call.index < 8 * length) :
    ((call.onMap map).1, indices (call.onMap map).2 length) = call.onSet (indices map length) := by
  have member : testBit map call.index = decide (call.index ∈ indices map length) := by
    simp [mem_indices, inside]
  have members (other : Nat) : other ∈ indices (call.onMap map).2 length ↔
      if other = call.index then call.write (testBit map call.index) = true
      else other ∈ indices map length := by
    rw [mem_indices, call.testBit_onMap]
    by_cases same : other = call.index
    · simp [same, inside]
    · simp [same, mem_indices]
  cases call with
  | test index => exact Prod.ext member rfl
  | testAndSet index =>
    refine Prod.ext member (Finset.ext fun other => ?_)
    rw [members, onSet, Finset.mem_insert, BitCall.index, write]
    by_cases same : other = index <;> simp [same]
  | testAndClear index =>
    refine Prod.ext member (Finset.ext fun other => ?_)
    rw [members, onSet, Finset.mem_erase, BitCall.index, write]
    by_cases same : other = index <;> simp [same]
  | toggle index =>
    have flipped : indices ((toggle index).onMap map).2 length =
        if index ∈ indices map length then (indices map length).erase index
        else insert index (indices map length) := by
      refine Finset.ext fun other => ?_
      rw [members, member]
      simp only [BitCall.index, write]
      by_cases same : other = index <;> by_cases listed : index ∈ indices map length <;>
        simp [same, listed]
    -- `toggle_bit` reads the bit again after the write
    have returned : ((toggle index).onMap map).1 =
        decide (index ∈ indices ((toggle index).onMap map).2 length) := by
      have again : ((toggle index).onMap map).1 = testBit ((toggle index).onMap map).2 index := rfl
      have bounded : index < 8 * length := inside
      rw [again]
      simp [mem_indices, bounded]
    rw [flipped] at returned
    exact Prod.ext returned flipped

theorem runCalls_refines {calls : List BitCall} (inside : ∀ call ∈ calls, call.index < 8 * length) :
    ((runCalls BitCall.onMap calls map).1, indices (runCalls BitCall.onMap calls map).2 length) =
      runCalls BitCall.onSet calls (indices map length) := by
  induction calls generalizing map with
  | nil => rfl
  | cons call calls ih =>
    have first := @BitCall.onMap_refines map length call (inside call List.mem_cons_self)
    have rest := @ih (call.onMap map).2 fun other member => inside other (List.mem_cons_of_mem _ member)
    simp only [runCalls, ← first, ← rest]

theorem runCalls_outside {calls : List BitCall} (inside : ∀ call ∈ calls, call.index < 8 * length)
    {offset : Nat} (outside : length ≤ offset) : (runCalls BitCall.onMap calls map).2 offset = map offset := by
  induction calls generalizing map with
  | nil => rfl
  | cons call calls ih =>
    have rest := @ih (call.onMap map).2 fun other member => inside other (List.mem_cons_of_mem _ member)
    exact rest.trans (BitCall.onMap_outside (inside call List.mem_cons_self) outside)

end

/-- On an array of `length` bytes every call with an index of the array does to the set of the
array what it says, leaves the bits of the other indices alone and stays inside the array; so
does every sequence of such calls. -/
theorem bitmaps_refine_sets (map : Bitmap) (length : Nat) : (∀ call : BitCall, call.index < 8 * length →
      ((call.onMap map).1, indices (call.onMap map).2 length) = call.onSet (indices map length) ∧
      (∀ other, other ≠ call.index → testBit (call.onMap map).2 other = testBit map other) ∧
      ∀ offset, length ≤ offset → (call.onMap map).2 offset = map offset) ∧
    ∀ calls : List BitCall, (∀ call ∈ calls, call.index < 8 * length) →
      ((runCalls BitCall.onMap calls map).1, indices (runCalls BitCall.onMap calls map).2 length) =
        runCalls BitCall.onSet calls (indices map length) ∧
      ∀ offset, length ≤ offset → (runCalls BitCall.onMap calls map).2 offset = map offset := by
  refine ⟨fun call inside => ⟨call.onMap_refines inside, ?_, ?_⟩, fun calls inside => ?_⟩
  · intro other different
    rw [call.testBit_onMap, if_neg different]
  · intro offset outside
    exact BitCall.onMap_outside inside outside
  · exact ⟨runCalls_refines inside, fun offset outside => runCalls_outside inside outside⟩

/-- The two bytes 0x05 0x80 are the set of 0, 2 and 15. -/
theorem bitmaps_refine_sets_two_bytes :
    let map : Bitmap := fun offset => if offset = 0 then 0x05 else 0x80
    let calls : List BitCall := [.testAndSet 9, .toggle 2, .testAndClear 15, .test 9]
    (∀ call ∈ calls, call.index < 8 * 2) ∧ indices map 2 = {0, 2, 15} ∧
      runCalls BitCall.onSet calls (indices map 2) = ([false, false, true, true], {0, 9}) ∧
      ((runCalls BitCall.onMap calls map).1, indices (runCalls BitCall.onMap calls map).2 2) =
        runCalls BitCall.onSet calls (indices map 2) :=
  ⟨by decide, by decide, by decide, ((bitmaps_refine_sets _ 2).2 _ (by decide)).1⟩

end Kalorona.Utilities
