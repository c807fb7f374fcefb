import Kalorona.Utilities.Qsort

namespace Kalorona.Utilities

/-! # The sorting functions of the kernel

`qsort_impl` at eight integer types, with the signed bounds of the source; only the first `len`
elements may be accessed.
-/

inductive ElementType where
  | uint8 | uint16 | uint32 | uint64
  | int8 | int16 | int32 | int64
deriving DecidableEq, Repr

def ElementType.width : ElementType → Nat
  | .uint8 | .int8 => 8
  | .uint16 | .int16 => 16
  | .uint32 | .int32 => 32
  | .uint64 | .int64 => 64

/-- `int8` is `char`, which has no sign on RISC-V. -/
def ElementType.signed : ElementType → Bool
  | .int16 | .int32 | .int64 => true
  | _ => false

structure Element (typ : ElementType) where
  bits : BitVec typ.width
deriving DecidableEq, Repr

namespace Element

variable {typ : ElementType}

def value (element : Element typ) : Int :=
  if typ.signed then element.bits.toInt else element.bits.toNat

theorem value_injective : Function.Injective (@value typ) := by
  rintro ⟨left⟩ ⟨right⟩ same
  unfold value at same
  split at same
  · exact congrArg mk (BitVec.eq_of_toInt_eq same)
  · exact congrArg mk (BitVec.eq_of_toNat_eq (Int.ofNat.inj same))

instance : LinearOrder (Element typ) := LinearOrder.lift' value value_injective

end Element

section
variable {α : Type}

def readWithin (len : Nat) (arr : List α) (index : Int) : Result α :=
  if 0 ≤ index ∧ index < len then arrayRead arr index.toNat else .error .stray

def writeWithin (len : Nat) (arr : List α) (index : Int) (value : α) : Result (List α) :=
  if 0 ≤ index ∧ index < len then .ok (arr.set index.toNat value) else .error .stray

def swapWithin (len : Nat) (arr : List α) (left right : Int) : Result (List α) := do
  let tmp ← readWithin len arr left
  let other ← readWithin len arr right
  let arr ← writeWithin len arr left other
  writeWithin len arr right tmp

variable [LinearOrder α]

def qsortLoop (len : Nat) (pivot : α) (high : Int) : Nat → Int → Int → List α → Result (Int × List α)
  | 0, j, ptr, arr => if j < high then .error .hang else .ok (ptr, arr)
  | fuel + 1, j, ptr, arr =>
    if j < high then do
      let value ← readWithin len arr j
      if value < pivot then
        let ptr := ptr + 1
        let arr ← swapWithin len arr ptr j
        qsortLoop len pivot high fuel (j + 1) ptr arr
      else
        qsortLoop len pivot high fuel (j + 1) ptr arr
    else .ok (ptr, arr)

/-- `__qsort`.  The fuel bounds the depth of the recursion. -/
def qsortBetween (len : Nat) : Nat → Int → Int → List α → Result (List α)
  | 0, low, high, arr => if low < high then .error .hang else .ok arr
  | fuel + 1, low, high, arr =>
    if low < high then do
      let pivot ← readWithin len arr high
      let (ptr, arr) ← qsortLoop len pivot high (high - low).toNat low (low - 1) arr
      let ptr := ptr + 1
      let arr ← swapWithin len arr ptr high
      let arr ← qsortBetween len fuel low (ptr - 1) arr
      qsortBetween len fuel (ptr + 1) high arr
    else .ok arr

end

def qsortImpl (typ : ElementType) (fuel : Nat) (arr : List (Element typ)) (len : Nat) :
    Result (List (Element typ)) :=
  qsortBetween len fuel 0 (len - 1) arr

def qsortUint8 := qsortImpl .uint8
def qsortUint16 := qsortImpl .uint16
def qsortUint32 := qsortImpl .uint32
def qsortUint64 := qsortImpl .uint64
def qsortInt8 := qsortImpl .int8
def qsortInt16 := qsortImpl .int16
def qsortInt32 := qsortImpl .int32
def qsortInt64 := qsortImpl .int64

section
variable {α : Type} {len : Nat} {arr : List α}

theorem readWithin_eq {index : Nat} (inside : index < len) : readWithin len arr index = arrayRead arr index := by
  rw [readWithin, if_pos (by omega), Int.toNat_natCast]

theorem writeWithin_eq {index : Nat} (inside : index < len) (value : α) :
    writeWithin len arr index value = .ok (arr.set index value) := by
  rw [writeWithin, if_pos (by omega), Int.toNat_natCast]

theorem swapWithin_eq {left right : Nat} (leftInside : left < len) (rightInside : right < len) :
    swapWithin len arr left right = arraySwap arr left right := by
  simp only [swapWithin, arraySwap, readWithin_eq leftInside, readWithin_eq rightInside,
    writeWithin_eq leftInside, writeWithin_eq rightInside, Result.ok_bind]
  rfl

variable [LinearOrder α] {pivot : α}

theorem qsortLoop_eq {remaining j ptr : Nat} {high : Int} (top : high = j + remaining)
    (inside : j + remaining ≤ len) (behind : ptr ≤ j) : qsortLoop len pivot high remaining j (ptr - 1) arr =
      (qsortScan pivot remaining j ptr arr).map fun scanned => ((scanned.1 : Int) - 1, scanned.2) := by
  induction remaining generalizing j ptr arr with
  | zero =>
    rw [qsortLoop, if_neg (by omega)]
    rfl
  | succ remaining ih =>
    have next : ((j + 1 : Nat) : Int) = j + 1 := by omega
    have write : ((ptr + 1 : Nat) : Int) - 1 = ptr - 1 + 1 := by omega
    rw [qsortLoop, if_pos (by omega), readWithin_eq (by omega), qsortScan, Result.bind_map]
    refine congrArg (arrayRead arr j >>= ·) (funext fun value => ?_)
    split
    next below =>
      have place : (ptr : Int) - 1 + 1 = ptr := by omega
      dsimp only
      rw [place, swapWithin_eq (by omega) (by omega), Result.bind_map]
      refine congrArg (arraySwap arr ptr j >>= ·) (funext fun swapped => ?_)
      have continues := @ih swapped (j + 1) (ptr + 1) (by omega) (by omega) (by omega)
      rwa [next, write, place] at continues
    next =>
      have continues := @ih arr (j + 1) ptr (by omega) (by omega) (by omega)
      rwa [next] at continues

theorem qsortScan_position {remaining j ptr position : Nat} {scanned : List α}
    (run : qsortScan pivot remaining j ptr arr = .ok (position, scanned)) :
    ptr ≤ position ∧ position ≤ ptr + remaining := by
  induction remaining generalizing j ptr arr with
  | zero =>
    cases run
    omega
  | succ remaining ih =>
    obtain ⟨value, _, rest⟩ := Result.bind_ok run
    split at rest
    · obtain ⟨swapped, _, rest⟩ := Result.bind_ok rest
      have bounds := ih rest
      omega
    · have bounds := ih rest
      omega

theorem qsortBetween_eq {fuel low stop : Nat} {sorted : List α} (inside : stop ≤ len)
    (run : qsortRange fuel low stop arr = .ok sorted) : qsortBetween len fuel low (stop - 1) arr = .ok sorted := by
  induction fuel generalizing low stop arr sorted with
  | zero =>
    unfold qsortRange at run
    split at run
    · cases run
    · rw [qsortBetween, if_neg (by omega), run]
  | succ fuel ih =>
    unfold qsortRange at run
    split at run
    next proper =>
      obtain ⟨pivot, pivotRead, run⟩ := Result.bind_ok run
      obtain ⟨⟨position, scanned⟩, scan, run⟩ := Result.bind_ok run
      obtain ⟨swapped, swap, run⟩ := Result.bind_ok run
      obtain ⟨lower, left, right⟩ := Result.bind_ok run
      have bounds := qsortScan_position scan
      have last : (stop : Int) - 1 = ((stop - 1 : Nat) : Int) := by omega
      have count : (((stop - 1 : Nat) : Int) - low).toNat = stop - 1 - low := by omega
      have place : (position : Int) - 1 + 1 = position := by omega
      have loop := @qsortLoop_eq α len arr _ pivot (stop - 1 - low) low low ((stop - 1 : Nat) : Int)
        (by omega) (by omega) (Nat.le_refl low)
      rw [scan] at loop
      have upper := ih inside right
      rw [last] at upper
      rw [last, qsortBetween, if_pos (by omega), readWithin_eq (by omega), pivotRead, Result.ok_bind, count, loop]
      dsimp only [Except.map, Result.ok_bind]
      rw [place, swapWithin_eq (by omega) (by omega), swap, Result.ok_bind, ih (by omega) left, Result.ok_bind]
      exact upper
    next =>
      rw [qsortBetween, if_neg (by omega), run]

end

/-- Each sorting function returns, accesses only its first `len` elements, leaves the others as
they are and arranges the first `len` in order. -/
theorem qsort_sorts_in_place (typ : ElementType) (arr : List (Element typ)) {fuel len : Nat}
    (within : len ≤ arr.length) (enough : len ≤ fuel) :
    ∃ sorted, qsortImpl typ fuel arr len = .ok (sorted ++ arr.drop len) ∧
      sorted.Perm (arr.take len) ∧ sorted.Pairwise (· ≤ ·) := by
  have length : (arr.take len).length = len := by rw [List.length_take]; omega
  obtain ⟨sorted, run, perm, ordered⟩ := qsortRange_sorts fuel [] (arr.take len) (arr.drop len)
    (show (arr.take len).length ≤ fuel by omega) rfl (show len = 0 + (arr.take len).length by omega)
  rw [List.nil_append, List.take_append_drop] at run
  exact ⟨sorted, qsortBetween_eq (Nat.le_refl len) run, perm, ordered⟩

/-- Negative numbers come first, and the element after the first three stays where it is. -/
theorem qsort_sorts_in_place_int16 : qsortInt16 3 [⟨5⟩, ⟨0xFFFF⟩, ⟨5⟩, ⟨0⟩] 3 = .ok [⟨0xFFFF⟩, ⟨5⟩, ⟨5⟩, ⟨0⟩] ∧
      ∃ sorted, qsortImpl .int16 3 [⟨5⟩, ⟨0xFFFF⟩, ⟨5⟩, ⟨0⟩] 3 = .ok (sorted ++ [⟨0⟩]) ∧
        sorted.Perm [⟨5⟩, ⟨0xFFFF⟩, ⟨5⟩] ∧ sorted.Pairwise (· ≤ ·) :=
  ⟨rfl, qsort_sorts_in_place .int16 [⟨5⟩, ⟨0xFFFF⟩, ⟨5⟩, ⟨0⟩] (by decide) (by decide)⟩

end Kalorona.Utilities
