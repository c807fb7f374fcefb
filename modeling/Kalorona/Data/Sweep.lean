import Mathlib.Data.List.Count
import Mathlib.Algebra.Order.Group.Nat

namespace Kalorona.Data

/-! # Counting endpoints

A point lies in none of a family of half-open intervals exactly when as many of them have ended as
have begun.
-/

/-- How many of the values are at most `point`. -/
def upTo (values : List Nat) (point : Nat) : Nat :=
  values.countP (· ≤ point)

theorem upTo_append (left right : List Nat) (point : Nat) :
    upTo (left ++ right) point = upTo left point + upTo right point :=
  List.countP_append

theorem upTo_perm {left right : List Nat} (perm : left.Perm right) (point : Nat) :
    upTo left point = upTo right point :=
  perm.countP_eq _

variable {point : Nat}

theorem upTo_eq_length {values : List Nat} (reached : ∀ value ∈ values, value ≤ point) :
    upTo values point = values.length :=
  List.countP_eq_length.mpr (fun value member => by simpa using reached value member)

theorem upTo_eq_zero {values : List Nat} (ahead : ∀ value ∈ values, point < value) : upTo values point = 0 :=
  List.countP_eq_zero.mpr (fun value member => by simpa using ahead value member)

section
variable {intervals : List (Nat × Nat)} (ordered : ∀ interval ∈ intervals, interval.1 ≤ interval.2)
include ordered

theorem upTo_snd_le_upTo_fst (point : Nat) :
    upTo (intervals.map Prod.snd) point ≤ upTo (intervals.map Prod.fst) point := by
  simp only [upTo, List.countP_map]
  apply List.countP_mono_left
  intro interval member ended
  simp only [Function.comp_apply, decide_eq_true_eq] at ended ⊢
  exact Nat.le_trans (ordered interval member) ended

theorem not_mem_of_balanced
    (balanced : upTo (intervals.map Prod.fst) point = upTo (intervals.map Prod.snd) point) :
    ∀ interval ∈ intervals, ¬ (interval.1 ≤ point ∧ point < interval.2) := by
  induction intervals with
  | nil => simp
  | cons first rest ih =>
    have orderedRest := fun interval (member : interval ∈ rest) =>
      ordered interval (List.mem_cons_of_mem _ member)
    have restLe := upTo_snd_le_upTo_fst orderedRest point
    have firstOrdered := ordered first List.mem_cons_self
    simp only [upTo, List.map_cons, List.countP_cons, decide_eq_true_eq] at balanced restLe ih
    -- Both counts grow together at the head, so the tails are balanced too.
    have headBalanced : ¬ (first.1 ≤ point ∧ point < first.2) := by
      rintro ⟨begun, running⟩
      rw [if_pos begun, if_neg (by omega)] at balanced
      omega
    have tailBalanced : upTo (rest.map Prod.fst) point = upTo (rest.map Prod.snd) point := by
      simp only [upTo]
      by_cases begun : first.1 ≤ point
      · rw [if_pos begun, if_pos (by omega)] at balanced
        omega
      · rw [if_neg begun, if_neg (by omega)] at balanced
        omega
    intro interval member
    rcases List.mem_cons.mp member with same | later
    · rw [same]
      exact headBalanced
    · exact ih orderedRest tailBalanced interval later

theorem balanced_of_not_mem (outside : ∀ interval ∈ intervals, ¬ (interval.1 ≤ point ∧ point < interval.2)) :
    upTo (intervals.map Prod.fst) point = upTo (intervals.map Prod.snd) point := by
  simp only [upTo, List.countP_map]
  apply List.countP_congr
  intro interval member
  have apart := outside interval member
  have firstLe := ordered interval member
  simp only [Function.comp_apply, decide_eq_true_eq]
  omega

end

end Kalorona.Data
