import Kalorona.Kernel.Machine
import Mathlib.Order.Basic
import Mathlib.Data.List.Perm.Basic
import Mathlib.Order.Lattice

namespace Kalorona.Utilities

/-! # In-place quicksort

The source sorts the closed index range `low .. high`; the model keeps the open end `stop = high +
1`, and its write position is the source's `ptr + 1`.  An access outside the array stops as `stray`.
-/

section
variable {α : Type}

def arrayRead (arr : List α) (index : Nat) : Result α :=
  match arr[index]? with
  | some value => .ok value
  | none => .error .stray

def arraySwap (arr : List α) (left right : Nat) : Result (List α) := do
  let tmp ← arrayRead arr left
  let other ← arrayRead arr right
  return (arr.set left other).set right tmp

variable [LinearOrder α]

/-- The scan of `__qsort` over the `remaining` positions from `j` on. -/
def qsortScan (pivot : α) : Nat → Nat → Nat → List α → Result (Nat × List α)
  | 0, _, ptr, arr => .ok (ptr, arr)
  | remaining + 1, j, ptr, arr => do
      let value ← arrayRead arr j
      if value < pivot then
        let arr ← arraySwap arr ptr j
        qsortScan pivot remaining (j + 1) (ptr + 1) arr
      else
        qsortScan pivot remaining (j + 1) ptr arr

/-- `__qsort` on `low ≤ index < stop`.  The fuel bounds the recursion depth. -/
def qsortRange : Nat → Nat → Nat → List α → Result (List α)
  | 0, low, stop, arr => if low + 1 < stop then .error .stray else .ok arr
  | fuel + 1, low, stop, arr =>
    if low + 1 < stop then do
      let pivot ← arrayRead arr (stop - 1)
      let (ptr, arr) ← qsortScan pivot (stop - 1 - low) low low arr
      let arr ← arraySwap arr ptr (stop - 1)
      let arr ← qsortRange fuel low ptr arr
      qsortRange fuel (ptr + 1) stop arr
    else .ok arr

def qsort (arr : List α) (len : Nat) : Result (List α) :=
  qsortRange len 0 len arr

end

section
variable {α : Type}

theorem arrayRead_append (before rest : List α) (value : α) {index : Nat}
    (position : index = before.length) : arrayRead (before ++ value :: rest) index = .ok value := by
  subst position
  simp [arrayRead]

theorem arraySwap_append (before middle rest : List α) (left right : α) {low high : Nat}
    (lower : low = before.length) (upper : high = before.length + 1 + middle.length) :
    arraySwap (before ++ left :: (middle ++ right :: rest)) low high =
      .ok (before ++ right :: (middle ++ left :: rest)) := by
  subst lower upper
  have second : arrayRead (before ++ left :: (middle ++ right :: rest))
      (before.length + 1 + middle.length) = .ok right := by
    have regroup : before ++ left :: (middle ++ right :: rest) =
        (before ++ left :: middle) ++ right :: rest := by simp
    rw [regroup]
    exact arrayRead_append _ rest right (by simp; omega)
  have offset : before.length + 1 + middle.length - before.length = middle.length + 1 := by omega
  unfold arraySwap
  rw [arrayRead_append before _ left rfl, second]
  simp only [Result.ok_bind]
  rw [List.set_append_right _ _ (Nat.le_refl _), Nat.sub_self, List.set_cons_zero,
    List.set_append_right _ _ (by omega), offset, List.set_cons_succ,
    List.set_append_right _ _ (Nat.le_refl _), Nat.sub_self, List.set_cons_zero]
  rfl

theorem arraySwap_self (before rest : List α) (value : α) {index : Nat} (position : index = before.length) :
    arraySwap (before ++ value :: rest) index index = .ok (before ++ value :: rest) := by
  unfold arraySwap
  rw [arrayRead_append before rest value position]
  subst position
  simp only [Result.ok_bind, List.set_set]
  rw [List.set_append_right _ _ (Nat.le_refl _), Nat.sub_self, List.set_cons_zero]
  rfl

/-- An element that stands after the two parts is put between them; the last exchange of a pass does
this with the pivot. -/
private theorem arraySwap_pivot (before below above rest : List α) (pivot : α) :
    ∃ above',
      arraySwap (before ++ below ++ above ++ pivot :: rest) (before.length + below.length)
          (before.length + below.length + above.length) =
        .ok (before ++ below ++ pivot :: (above' ++ rest)) ∧ above'.Perm above := by
  cases above with
  | nil =>
    refine ⟨[], ?_, .nil⟩
    simpa using arraySwap_self (before ++ below) rest pivot (show before.length + below.length = _ by simp)
  | cons first above =>
    refine ⟨above ++ [first], ?_, List.perm_append_singleton first above⟩
    have swapped := arraySwap_append (before ++ below) above rest first pivot
      (show before.length + below.length = _ by simp)
      (show before.length + below.length + (above.length + 1) = _ by
        simp only [List.length_append]
        omega)
    simpa using swapped

variable [LinearOrder α]

theorem qsortScan_splits (pivot : α) (before below above unread rest : List α)
    (small : ∀ value ∈ below, value < pivot) (large : ∀ value ∈ above, pivot ≤ value) {j ptr : Nat}
    (writeAt : ptr = before.length + below.length) (readAt : j = ptr + above.length) : ∃ below' above',
      qsortScan pivot unread.length j ptr (before ++ below ++ above ++ unread ++ rest) =
        .ok (before.length + below'.length, before ++ below' ++ above' ++ rest) ∧
      (below' ++ above').Perm (below ++ above ++ unread) ∧
      (∀ value ∈ below', value < pivot) ∧ (∀ value ∈ above', pivot ≤ value) := by
  induction unread generalizing below above j ptr with
  | nil =>
    refine ⟨below, above, ?_, by simp, small, large⟩
    simp [qsortScan, writeAt]
  | cons value unread ih =>
    have read : arrayRead (before ++ below ++ above ++ value :: unread ++ rest) j = .ok value := by
      have regroup : before ++ below ++ above ++ value :: unread ++ rest =
          (before ++ below ++ above) ++ value :: (unread ++ rest) := by simp
      rw [regroup]
      exact arrayRead_append _ _ value (by simp only [List.length_append]; omega)
    simp only [List.length_cons, qsortScan, read, Result.ok_bind]
    by_cases isBelow : value < pivot
    · simp only [if_pos isBelow]
      have smaller : ∀ other ∈ below ++ [value], other < pivot := by
        intro other member
        rcases List.mem_append.mp member with old | new
        · exact small other old
        · rw [List.mem_singleton.mp new]
          exact isBelow
      obtain ⟨moved, swapped, permAbove⟩ := arraySwap_pivot before below above (unread ++ rest) value
      have larger : ∀ other ∈ moved, pivot ≤ other := fun other member => large other (permAbove.mem_iff.mp member)
      obtain ⟨below', above', run, perm, small', large'⟩ := ih (below ++ [value]) moved smaller larger
          (show ptr + 1 = _ by simp only [List.length_append, List.length_singleton]; omega)
          (show j + 1 = _ by rw [permAbove.length_eq]; omega)
      refine ⟨below', above', ?_, ?_, small', large'⟩
      · have regroup : before ++ below ++ above ++ value :: unread ++ rest =
            before ++ below ++ above ++ value :: (unread ++ rest) := by simp
        rw [regroup, readAt, writeAt, swapped, Result.ok_bind, ← writeAt, ← readAt]
        simpa using run
      · have exchange : (value :: (moved ++ unread)).Perm (above ++ value :: unread) :=
          (List.Perm.cons value (permAbove.append_right unread)).trans List.perm_middle.symm
        refine perm.trans ?_
        simpa using exchange.append_left below
    · simp only [if_neg isBelow]
      obtain ⟨below', above', run, perm, small', large'⟩ := ih below (above ++ [value]) small (by
          intro other member
          rcases List.mem_append.mp member with old | new
          · exact large other old
          · rw [List.mem_singleton.mp new]
            exact not_lt.mp isBelow) writeAt
          (show j + 1 = _ by simp only [List.length_append, List.length_singleton]; omega)
      refine ⟨below', above', ?_, ?_, small', large'⟩
      · simpa using run
      · simpa using perm

private theorem pairwise_around {below above : List α} {pivot : α}
    (sortedBelow : below.Pairwise (· ≤ ·)) (sortedAbove : above.Pairwise (· ≤ ·))
    (small : ∀ value ∈ below, value ≤ pivot) (large : ∀ value ∈ above, pivot ≤ value) :
    (below ++ pivot :: above).Pairwise (· ≤ ·) := by
  refine List.pairwise_append.mpr ⟨sortedBelow, List.pairwise_cons.mpr ⟨large, sortedAbove⟩, ?_⟩
  intro left inBelow right inRest
  rcases List.mem_cons.mp inRest with same | inAbove
  · rw [same]
    exact small left inBelow
  · exact le_trans (small left inBelow) (large right inAbove)

theorem qsortRange_sorts (fuel : Nat) (before segment rest : List α) {low stop : Nat}
    (enough : segment.length ≤ fuel) (starts : low = before.length) (ends : stop = low + segment.length) :
    ∃ sorted, qsortRange fuel low stop (before ++ segment ++ rest) = .ok (before ++ sorted ++ rest) ∧
      sorted.Perm segment ∧ sorted.Pairwise (· ≤ ·) := by
  induction fuel generalizing before segment rest low stop with
  | zero =>
    have empty : segment = [] := List.eq_nil_of_length_eq_zero (by omega)
    subst segment
    have done : ¬ low + 1 < stop := by simp only [List.length_nil] at ends; omega
    exact ⟨[], by simp [qsortRange, done], .nil, .nil⟩
  | succ fuel ih =>
    by_cases proper : low + 1 < stop
    · -- The last element is the pivot; the scan runs over the others.
      obtain ⟨unread, pivot, split⟩ : ∃ unread pivot, segment = unread ++ [pivot] := by
        rcases List.eq_nil_or_concat' segment with empty | split
        · rw [empty, List.length_nil] at ends
          omega
        · exact split
      subst segment
      have lengths : stop = low + (unread.length + 1) := by
        simpa only [List.length_append, List.length_singleton] using ends
      have pivotRead : arrayRead (before ++ (unread ++ [pivot]) ++ rest) (stop - 1) = .ok pivot := by
        have regroup : before ++ (unread ++ [pivot]) ++ rest = (before ++ unread) ++ pivot :: rest := by simp
        rw [regroup]
        exact arrayRead_append _ _ _ (by simp only [List.length_append]; omega)
      obtain ⟨below, above, scanned, perm, small, large⟩ :=
        qsortScan_splits pivot before [] [] unread (pivot :: rest) (by simp) (by simp)
          (show low = _ by simpa using starts) (show low = _ by simp)
      have partLengths : below.length + above.length = unread.length := by
        simpa using perm.length_eq
      obtain ⟨above', swapped, permAbove⟩ := arraySwap_pivot before below above rest pivot
      have large' : ∀ value ∈ above', pivot ≤ value := fun value member => large value (permAbove.mem_iff.mp member)
      obtain ⟨sortedBelow, leftRun, leftPerm, leftSorted⟩ :=
        ih before below (pivot :: (above' ++ rest)) (by simp at enough; omega) starts
          (show before.length + below.length = _ by omega)
      obtain ⟨sortedAbove, rightRun, rightPerm, rightSorted⟩ := ih (before ++ sortedBelow ++ [pivot]) above' rest
          (by have := permAbove.length_eq; simp at enough; omega)
          (show before.length + below.length + 1 = _ by
            have := leftPerm.length_eq
            simp only [List.length_append, List.length_singleton]
            omega)
          (show stop = _ by have := permAbove.length_eq; omega)
      refine ⟨sortedBelow ++ pivot :: sortedAbove, ?_, ?_, ?_⟩
      · have count : stop - 1 - low = unread.length := by omega
        have last : stop - 1 = before.length + below.length + above.length := by omega
        have regroup : before ++ (unread ++ [pivot]) ++ rest =
            before ++ [] ++ [] ++ unread ++ pivot :: rest := by simp
        rw [qsortRange, if_pos proper, pivotRead, Result.ok_bind, regroup, count, scanned, Result.ok_bind]
        simp only [last, swapped, Result.ok_bind]
        rw [leftRun, Result.ok_bind]
        have rightShape : before ++ sortedBelow ++ pivot :: (above' ++ rest) =
            before ++ sortedBelow ++ [pivot] ++ above' ++ rest := by simp
        rw [rightShape, rightRun]
        simp
      · have parts : (sortedBelow ++ pivot :: sortedAbove).Perm (below ++ pivot :: above) :=
          leftPerm.append (.cons pivot (rightPerm.trans permAbove))
        have scannedPerm : (below ++ above).Perm unread := by simpa using perm
        calc sortedBelow ++ pivot :: sortedAbove
            |>.Perm (below ++ pivot :: above) := parts
          _ |>.Perm (pivot :: (below ++ above)) := List.perm_middle
          _ |>.Perm (pivot :: unread) := .cons pivot scannedPerm
          _ |>.Perm (unread ++ [pivot]) := (List.perm_append_singleton pivot unread).symm
      · exact pairwise_around leftSorted rightSorted
          (fun value member => le_of_lt (small value (leftPerm.mem_iff.mp member)))
          (fun value member => large' value (rightPerm.mem_iff.mp member))
    · have short : segment.length ≤ 1 := by omega
      refine ⟨segment, by simp [qsortRange, proper], .refl _, ?_⟩
      match segment, short with
      | [], _ => exact .nil
      | [value], _ => exact List.pairwise_singleton _ _

theorem qsort_sorts (segment rest : List α) :
    ∃ sorted, qsort (segment ++ rest) segment.length = .ok (sorted ++ rest) ∧
      sorted.Perm segment ∧ sorted.Pairwise (· ≤ ·) := by
  simpa [qsort] using qsortRange_sorts segment.length [] segment rest (Nat.le_refl _) rfl
    (show segment.length = 0 + segment.length by omega)

example : (qsort [3, 1, 3, 2, 9, 0] 5).toOption = some [1, 2, 3, 3, 9, 0] := by decide

end

end Kalorona.Utilities
