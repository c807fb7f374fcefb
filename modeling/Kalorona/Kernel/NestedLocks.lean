import Kalorona.Data.Runs
import Kalorona.Kernel.Hart
import Kalorona.Kernel.Spinlock
import Mathlib.Data.Fintype.Card
import Mathlib.Logic.Function.Basic

namespace Kalorona

open Kalorona.Data

/-! # Nested spinlocks on one hart

`spinlock_acquire` begins with `pushoff_hart` and `spinlock_release` ends with `popoff_hart`,
so the hart counts the locks that it holds.  The counter is an `int` here.
-/

structure HartStruct where
  interrupts : Bool
  trapPushoffDep : BitVec 32
  trapEnabled : Bool
deriving DecidableEq, Repr

namespace HartStruct

def pushoffHart (hart : HartStruct) : HartStruct where
  interrupts := false
  trapPushoffDep := hart.trapPushoffDep + 1
  trapEnabled := if hart.trapPushoffDep = 0 then hart.interrupts else hart.trapEnabled

def popoffHart (hart : HartStruct) : Result HartStruct :=
  if hart.interrupts then .error (.panic "popoff_hart - already enabled;")
  else if hart.trapPushoffDep.toInt < 1 then .error (.panic "popoff_hart - non-matching popoff;")
  else
    let dep := hart.trapPushoffDep - 1
    .ok { hart with
      trapPushoffDep := dep
      interrupts := if dep = 0 ∧ hart.trapEnabled = true then true else false }

def traps (hart : HartStruct) : HartTraps :=
  ⟨hart.interrupts, hart.trapPushoffDep.toNat, hart.trapEnabled⟩

theorem dep_eq_zero_iff (dep : BitVec 32) : dep = 0 ↔ dep.toNat = 0 := BitVec.toNat_inj.symm

theorem pushoffHart_traps {hart : HartStruct} (below : hart.trapPushoffDep.toNat + 1 < 2 ^ 31) :
    hart.pushoffHart.traps = Kalorona.pushoffHart hart.traps := by
  have counted : (hart.trapPushoffDep + 1).toNat = hart.trapPushoffDep.toNat + 1 := by
    rw [BitVec.toNat_add]
    exact Nat.mod_eq_of_lt (Nat.lt_trans below (by decide))
  simp only [traps, pushoffHart, Kalorona.pushoffHart, counted, HartTraps.mk.injEq, true_and]
  exact if_congr (dep_eq_zero_iff _) rfl rfl

theorem popoffHart_traps {hart : HartStruct} (off : hart.interrupts = false)
    (pushed : 0 < hart.trapPushoffDep.toNat) (positive : hart.trapPushoffDep.toNat < 2 ^ 31) :
    ∃ after, hart.popoffHart = .ok after ∧ Kalorona.popoffHart hart.traps = .ok after.traps := by
  have counted : (hart.trapPushoffDep - 1).toNat = hart.trapPushoffDep.toNat - 1 := by
    bv_omega
  have atLeast : ¬ hart.trapPushoffDep.toInt < 1 := by
    rw [BitVec.toInt_eq_toNat_of_lt (by omega)]
    omega
  have last : hart.trapPushoffDep - 1 = 0 ∧ hart.trapEnabled = true ↔
      hart.trapPushoffDep.toNat - 1 = 0 ∧ hart.trapEnabled = true := by
    rw [dep_eq_zero_iff, counted]
  have run : hart.popoffHart = .ok { hart with
      trapPushoffDep := hart.trapPushoffDep - 1
      interrupts := if hart.trapPushoffDep - 1 = 0 ∧ hart.trapEnabled = true then true else false } := by
    rw [popoffHart, if_neg (by simp [off]), if_neg atLeast]
  have numbers : ¬ hart.traps.trapPushoffDep < 1 := Nat.not_lt.mpr pushed
  refine ⟨_, run, ?_⟩
  rw [Kalorona.popoffHart, if_neg (by simp [traps, off]), if_neg numbers]
  simp only [traps, counted, Except.ok.injEq, HartTraps.mk.injEq, and_true]
  exact (if_congr last rfl rfl).symm

end HartStruct

structure LockingHart (L : Type) where
  hart : HartStruct
  locks : L → Spinlock

inductive LockCall (L : Type) where
  | acquire (lk : L)
  | release (lk : L)
deriving DecidableEq, Repr

variable {L : Type} [DecidableEq L]

namespace LockingHart

def acquire (current : Nat) (lk : L) (s : LockingHart L) : Result (LockingHart L) := do
  let hart := s.hart.pushoffHart
  let lock ← spinlockAcquire current (s.locks lk)
  return ⟨hart, Function.update s.locks lk lock⟩

def release (current : Nat) (lk : L) (s : LockingHart L) : Result (LockingHart L) := do
  let lock ← spinlockRelease current (s.locks lk)
  let hart ← s.hart.popoffHart
  return ⟨hart, Function.update s.locks lk lock⟩

end LockingHart

namespace LockCall

def run (current : Nat) (s : LockingHart L) : LockCall L → Result (LockingHart L)
  | acquire lk => s.acquire current lk
  | release lk => s.release current lk

def Allowed (held : Finset L) : LockCall L → Prop
  | acquire lk => lk ∉ held
  | release lk => lk ∈ held

def held (before : Finset L) : LockCall L → Finset L
  | acquire lk => insert lk before
  | release lk => before.erase lk

end LockCall

def runLockCalls (current : Nat) (calls : List (LockCall L)) (s : LockingHart L) : Result (LockingHart L) :=
  calls.foldlM (LockCall.run current) s

/-- The hart holds the locks in `held`, and nobody any other. -/
structure LocksHeld (current : Nat) (held : Finset L) (locks : L → Spinlock) : Prop where
  locked : ∀ lk ∈ held, locks lk = ⟨1, current⟩
  free : ∀ lk ∉ held, (locks lk).locked = 0

/-- The hart holds these locks, and had interrupts as `enabled` says before the first. -/
structure HoldsLocks (current : Nat) (enabled : Bool) (held : Finset L) (s : LockingHart L) : Prop where
  counts : s.hart.traps.Counts enabled held.card
  few : held.card < 2 ^ 31
  locks : LocksHeld current held s.locks

section
variable {current : Nat} {enabled : Bool} {held : Finset L} {s : LockingHart L} {lk : L} {locks : L → Spinlock}

theorem LocksHeld.insert (holds : LocksHeld current held locks) (lk : L) :
    LocksHeld current (insert lk held) (Function.update locks lk ⟨1, current⟩) := by
  constructor
  · intro other member
    by_cases same : other = lk
    · rw [same, Function.update_self]
    · rw [Function.update_of_ne same]
      exact holds.locked other (Finset.mem_of_mem_insert_of_ne member same)
  · intro other notHeld
    rw [Finset.mem_insert, not_or] at notHeld
    rw [Function.update_of_ne notHeld.1]
    exact holds.free other notHeld.2

theorem LocksHeld.erase (holds : LocksHeld current held locks) (lk : L) :
    LocksHeld current (held.erase lk) (Function.update locks lk ⟨0, 0⟩) := by
  constructor
  · intro other member
    rw [Function.update_of_ne (Finset.ne_of_mem_erase member)]
    exact holds.locked other (Finset.mem_of_mem_erase member)
  · intro other notHeld
    by_cases same : other = lk
    · rw [same, Function.update_self]
    · rw [Function.update_of_ne same]
      exact holds.free other fun heldOther => notHeld (Finset.mem_erase.mpr ⟨same, heldOther⟩)

section
variable (holds : HoldsLocks current enabled held s)
include holds

theorem HoldsLocks.acquire (other : lk ∉ held) (few : (insert lk held).card < 2 ^ 31) :
    ∃ after, s.acquire current lk = .ok after ∧ HoldsLocks current enabled (insert lk held) after := by
  have unlocked := holds.locks.free lk other
  have more := Finset.card_insert_of_notMem other
  have taken : spinlockAcquire current (s.locks lk) = .ok ⟨1, current⟩ := by
    simp [spinlockAcquire, isHoldingSpinlock, unlocked]
  have dep : s.hart.trapPushoffDep.toNat = held.card := holds.counts.dep
  have counts : s.hart.pushoffHart.traps.Counts enabled (insert lk held).card := by
    rw [HartStruct.pushoffHart_traps (by omega), more]
    exact holds.counts.pushoff
  refine ⟨⟨s.hart.pushoffHart, Function.update s.locks lk ⟨1, current⟩⟩, ?_, counts, few, holds.locks.insert lk⟩
  rw [LockingHart.acquire, taken]
  rfl

theorem HoldsLocks.release (member : lk ∈ held) :
    ∃ after, s.release current lk = .ok after ∧ HoldsLocks current enabled (held.erase lk) after := by
  have fewer := Finset.card_erase_add_one member
  have opened : spinlockRelease current (s.locks lk) = .ok ⟨0, 0⟩ := by
    simp [spinlockRelease, isHoldingSpinlock, holds.locks.locked lk member]
  have few := holds.few
  have counts := holds.counts
  rw [← fewer] at counts few
  have dep : s.hart.trapPushoffDep.toNat = (held.erase lk).card + 1 := counts.dep
  obtain ⟨hart, popped, simulated⟩ := HartStruct.popoffHart_traps (counts.off (Nat.succ_pos _))
    (by omega) (by omega)
  obtain ⟨_, again, countsAfter⟩ := counts.popoff
  cases simulated.symm.trans again
  refine ⟨⟨hart, Function.update s.locks lk ⟨0, 0⟩⟩, ?_, countsAfter, by omega, holds.locks.erase lk⟩
  rw [LockingHart.release, opened, Result.ok_bind, popped]
  rfl

theorem HoldsLocks.call {call : LockCall L} (allowed : call.Allowed held) (few : (call.held held).card < 2 ^ 31) :
    ∃ after, call.run current s = .ok after ∧ HoldsLocks current enabled (call.held held) after := by
  cases call with
  | acquire lk => exact holds.acquire allowed few
  | release lk => exact holds.release allowed

theorem HoldsLocks.calls {calls : List (LockCall L)}
    (allowed : Allows (fun held (call : LockCall L) => call.Allowed held) LockCall.held held calls)
    (few : ∀ before, before <+: calls → (before.foldl LockCall.held held).card < 2 ^ 31) :
    ∃ after, runLockCalls current calls s = .ok after ∧
      HoldsLocks current enabled (calls.foldl LockCall.held held) after := by
  induction calls generalizing held s with
  | nil => exact ⟨s, rfl, holds⟩
  | cons call calls ih =>
    obtain ⟨between, first, holdsBetween⟩ := holds.call allowed.1 (few [call] ⟨calls, rfl⟩)
    obtain ⟨after, rest, holdsAfter⟩ := ih holdsBetween allowed.2 fun before beginning =>
      few (call :: before) (List.cons_prefix_cons.mpr ⟨rfl, beginning⟩)
    refine ⟨after, ?_, holdsAfter⟩
    rw [runLockCalls, List.foldlM_cons, first]
    exact rest

end

end

/-- Whatever order the locks are released in, the counter is the number of locks held, interrupts
are off while there is one and as they were when there is none, and no call panics, as long as the
number of locks is an `int`. -/
theorem nested_locking_restores (current : Nat) {start : LockingHart L}
    (unnested : start.hart.trapPushoffDep = 0) (free : ∀ lk, (start.locks lk).locked = 0)
    {calls : List (LockCall L)}
    (allowed : Allows (fun held (call : LockCall L) => call.Allowed held) LockCall.held ∅ calls)
    (few : ∀ before, before <+: calls → (before.foldl LockCall.held ∅).card < 2 ^ 31)
    {before : List (LockCall L)} (beginning : before <+: calls) : ∃ s, runLockCalls current before start = .ok s ∧
      s.hart.trapPushoffDep.toInt = (before.foldl LockCall.held ∅).card ∧
      (0 < s.hart.trapPushoffDep.toInt → s.hart.interrupts = false) ∧
      (s.hart.trapPushoffDep = 0 → s.hart.interrupts = start.hart.interrupts) := by
  have holds : HoldsLocks current start.hart.interrupts ∅ start := by
    have dep : start.hart.traps.trapPushoffDep = 0 := (HartStruct.dep_eq_zero_iff _).mp unnested
    exact ⟨⟨dep, fun some => absurd some (by simp), fun some => absurd some (by simp), fun _ => rfl⟩,
      by simp, ⟨fun lk member => absurd member (Finset.notMem_empty lk), fun lk _ => free lk⟩⟩
  obtain ⟨rest, split⟩ := beginning
  rw [← split] at allowed
  obtain ⟨s, run, holdsAfter⟩ := holds.calls allowed.of_append.1 fun earlier isEarlier =>
    few earlier (isEarlier.trans ⟨rest, split⟩)
  have dep : s.hart.trapPushoffDep.toNat = (before.foldl LockCall.held ∅).card := holdsAfter.counts.dep
  have number : s.hart.trapPushoffDep.toInt = (before.foldl LockCall.held ∅).card := by
    have small := holdsAfter.few
    rw [BitVec.toInt_eq_toNat_of_lt (by omega), dep]
  refine ⟨s, run, number, ?_, ?_⟩
  · intro some
    rw [number] at some
    exact holdsAfter.counts.off (Int.natCast_pos.mp some)
  · intro none
    rw [HartStruct.dep_eq_zero_iff, dep] at none
    exact holdsAfter.counts.restored none

/-- Two locks, released in the order in which they were acquired. -/
theorem nested_locking_restores_two :
    let start : LockingHart Bool := ⟨⟨true, 0, false⟩, fun _ => ⟨0, 0⟩⟩
    let calls : List (LockCall Bool) := [.acquire false, .acquire true, .release false, .release true]
    ∃ s, runLockCalls 1 calls start = .ok s ∧
      s.hart.trapPushoffDep.toInt = (calls.foldl LockCall.held ∅).card ∧
      (0 < s.hart.trapPushoffDep.toInt → s.hart.interrupts = false) ∧
      (s.hart.trapPushoffDep = 0 → s.hart.interrupts = start.hart.interrupts) :=
  nested_locking_restores 1 rfl (fun _ => rfl) (by simp [Allows, LockCall.Allowed, LockCall.held])
    (fun before _ => Nat.lt_of_le_of_lt (Finset.card_le_univ _) (by decide)) (List.prefix_refl _)

theorem allows_acquire {locks : List L} {held : Finset L} (nodup : locks.Nodup) (fresh : ∀ lk ∈ locks, lk ∉ held) :
    Allows (fun held (call : LockCall L) => call.Allowed held) LockCall.held held (locks.map .acquire) := by
  induction locks generalizing held with
  | nil => trivial
  | cons lk locks ih =>
    obtain ⟨other, nodup⟩ := List.nodup_cons.mp nodup
    refine ⟨fresh lk List.mem_cons_self, ih nodup fun later member inserted => ?_⟩
    rcases Finset.mem_insert.mp inserted with rfl | earlier
    · exact other member
    · exact fresh later (List.mem_cons_of_mem _ member) earlier

theorem acquire_range (current count : Nat) :
    let start : LockingHart Nat := ⟨⟨true, 0, true⟩, fun _ => ⟨0, 0⟩⟩
    ∃ s, runLockCalls current ((List.range count).map .acquire) start = .ok s ∧
      s.hart.trapPushoffDep = BitVec.ofNat 32 count ∧ (0 < count → s.hart.interrupts = false) ∧
      LocksHeld current (Finset.range count) s.locks := by
  intro start
  induction count with
  | zero => exact ⟨start, rfl, rfl, fun some => absurd some (Nat.lt_irrefl 0), ⟨by simp, fun _ _ => rfl⟩⟩
  | succ count ih =>
    obtain ⟨s, run, dep, _, holds⟩ := ih
    have taken : spinlockAcquire current (s.locks count) = .ok ⟨1, current⟩ := by
      simp [spinlockAcquire, isHoldingSpinlock, holds.free count (by simp)]
    refine ⟨⟨s.hart.pushoffHart, Function.update s.locks count ⟨1, current⟩⟩, ?_, ?_, fun _ => rfl, ?_⟩
    · rw [runLockCalls] at run
      rw [runLockCalls, List.range_succ, List.map_append, List.foldlM_append, run, Result.ok_bind,
        List.map_singleton, List.foldlM_cons, LockCall.run, LockingHart.acquire, taken]
      rfl
    · show s.hart.trapPushoffDep + 1 = _
      rw [dep, BitVec.ofNat_add]
      rfl
    · rw [Finset.range_add_one]
      exact holds.insert count

theorem acquire_range_wraps {current count : Nat} {value : Int} (some : 0 < count)
    (wraps : (BitVec.ofNat 32 count).toInt = value) (negative : value < 1) :
    let start : LockingHart Nat := ⟨⟨true, 0, true⟩, fun _ => ⟨0, 0⟩⟩
    let calls : List (LockCall Nat) := (List.range count).map .acquire
    Allows (fun held (call : LockCall Nat) => call.Allowed held) LockCall.held ∅ calls ∧
      ∃ s, runLockCalls current calls start = .ok s ∧ s.hart.trapPushoffDep.toInt = value ∧
        s.release current 0 = .error (.panic "popoff_hart - non-matching popoff;") := by
  obtain ⟨s, run, dep, off, holds⟩ := acquire_range current count
  refine ⟨allows_acquire List.nodup_range fun lk _ => Finset.notMem_empty lk, s, run, by rw [dep, wraps], ?_⟩
  have opened : spinlockRelease current (s.locks 0) = .ok ⟨0, 0⟩ := by
    simp [spinlockRelease, isHoldingSpinlock, holds.locked 0 (Finset.mem_range.mpr some)]
  rw [LockingHart.release, opened, Result.ok_bind, HartStruct.popoffHart, if_neg (by simp [off some]),
    if_pos (by rw [dep, wraps]; exact negative)]
  rfl

/-- With 2 ^ 31 locks held the counter is negative, and the first release panics. -/
theorem nested_locking_wraps :
    let start : LockingHart Nat := ⟨⟨true, 0, true⟩, fun _ => ⟨0, 0⟩⟩
    let calls : List (LockCall Nat) := (List.range (2 ^ 31)).map .acquire
    Allows (fun held (call : LockCall Nat) => call.Allowed held) LockCall.held ∅ calls ∧
      ∃ s, runLockCalls 1 calls start = .ok s ∧ s.hart.trapPushoffDep.toInt = -2 ^ 31 ∧
        s.release 1 0 = .error (.panic "popoff_hart - non-matching popoff;") :=
  acquire_range_wraps (by decide) (by decide) (by decide)

end Kalorona
