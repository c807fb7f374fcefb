import Kalorona.Kernel.Machine

namespace Kalorona

/-! # Interrupts of one hart

`pushoff_hart` and `popoff_hart` count how often interrupts were turned off, and turn
them on again at the last `popoff_hart` if they were on at the first `pushoff_hart`.
-/

/-- The interrupt enable bit of a hart, and the two fields of its `hart_struct`. -/
structure HartTraps where
  interrupts : Bool
  trapPushoffDep : Nat
  trapEnabled : Bool
deriving DecidableEq, Repr

def pushoffHart (hart : HartTraps) : HartTraps where
  interrupts := false
  trapPushoffDep := hart.trapPushoffDep + 1
  trapEnabled := if hart.trapPushoffDep = 0 then hart.interrupts else hart.trapEnabled

def popoffHart (hart : HartTraps) : Result HartTraps :=
  if hart.interrupts then .error (.panic "popoff_hart - already enabled;")
  else if hart.trapPushoffDep < 1 then .error (.panic "popoff_hart - non-matching popoff;")
  else
    let dep := hart.trapPushoffDep - 1
    .ok { hart with
      trapPushoffDep := dep
      interrupts := if dep = 0 ∧ hart.trapEnabled = true then true else false }

@[simp] theorem pushoffHart_interrupts (hart : HartTraps) : (pushoffHart hart).interrupts = false := rfl

@[simp] theorem pushoffHart_dep (hart : HartTraps) :
    (pushoffHart hart).trapPushoffDep = hart.trapPushoffDep + 1 := rfl

/-- With interrupts off and at least one `pushoff_hart`, `popoff_hart` takes one back; it
turns interrupts on only with the last one. -/
theorem popoffHart_ok {hart : HartTraps} (off : hart.interrupts = false) (pushed : 0 < hart.trapPushoffDep) :
    ∃ after, popoffHart hart = .ok after ∧ after.trapPushoffDep = hart.trapPushoffDep - 1 ∧
      (after.trapPushoffDep ≠ 0 → after.interrupts = false) := by
  have run : popoffHart hart = .ok { hart with
      trapPushoffDep := hart.trapPushoffDep - 1
      interrupts := if hart.trapPushoffDep - 1 = 0 ∧ hart.trapEnabled = true then true else false } := by
    rw [popoffHart, if_neg (by simp [off]), if_neg (by omega)]
  exact ⟨_, run, rfl, fun more => if_neg fun last => more last.1⟩

/-- A hart that counts `count`: interrupts are off while it is positive, and are then on again
if they were, as `enabled` says. -/
structure HartTraps.Counts (enabled : Bool) (count : Nat) (hart : HartTraps) : Prop where
  dep : hart.trapPushoffDep = count
  off : 0 < count → hart.interrupts = false
  saved : 0 < count → hart.trapEnabled = enabled
  restored : count = 0 → hart.interrupts = enabled

section
variable {enabled : Bool} {count : Nat} {hart : HartTraps}

theorem HartTraps.Counts.pushoff (counts : hart.Counts enabled count) :
    (pushoffHart hart).Counts enabled (count + 1) := by
  refine ⟨congrArg (· + 1) counts.dep, fun _ => rfl, fun _ => ?_, fun zero => absurd zero (Nat.succ_ne_zero _)⟩
  show (if hart.trapPushoffDep = 0 then hart.interrupts else hart.trapEnabled) = enabled
  rw [counts.dep]
  split
  next first => exact counts.restored first
  next nested => exact counts.saved (Nat.pos_of_ne_zero nested)

theorem HartTraps.Counts.popoff (counts : hart.Counts enabled (count + 1)) :
    ∃ after, popoffHart hart = .ok after ∧ after.Counts enabled count := by
  have off := counts.off (Nat.succ_pos count)
  have saved := counts.saved (Nat.succ_pos count)
  have run : popoffHart hart = .ok ⟨if count = 0 ∧ enabled = true then true else false, count, enabled⟩ := by
    rw [popoffHart, if_neg (by simp [off]), if_neg (by rw [counts.dep]; omega), counts.dep, saved]
    rfl
  refine ⟨_, run, rfl, ?_, fun _ => rfl, ?_⟩
  · intro more
    exact if_neg fun last => Nat.ne_of_gt more last.1
  · intro last
    cases enabled <;> simp [last]

end

end Kalorona
