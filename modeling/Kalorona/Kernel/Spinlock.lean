import Kalorona.Kernel.Machine

namespace Kalorona

/-! # Spinlocks, as one hart sees them

The functions are those of one hart that nobody competes with: a lock word that
is set and not its own stays set.  A hart is named by the address of its
`hart_struct`.
-/

/-- `struct spinlock`, without its description. -/
structure Spinlock where
  locked : Nat
  hart : Nat
deriving DecidableEq, Repr

def isHoldingSpinlock (current : Nat) (lock : Spinlock) : Bool :=
  lock.hart == current && lock.locked != 0

def spinlockAcquire (current : Nat) (lock : Spinlock) : Result Spinlock :=
  if isHoldingSpinlock current lock then .error (.panic "spinlock_acquire - spinlock held;")
  else if lock.locked ≠ 0 then .error .hang
  else .ok ⟨1, current⟩

def spinlockRelease (current : Nat) (lock : Spinlock) : Result Spinlock :=
  if !isHoldingSpinlock current lock then
    .error (.panic "spinlock_release - spinlock not held;")
  else .ok ⟨0, 0⟩

theorem spinlockRelease_acquired {current : Nat} {lock acquired : Spinlock}
    (acquire : spinlockAcquire current lock = .ok acquired) : spinlockRelease current acquired = .ok ⟨0, 0⟩ := by
  unfold spinlockAcquire at acquire
  split at acquire
  · cases acquire
  · split at acquire
    · cases acquire
    · cases acquire
      simp [spinlockRelease, isHoldingSpinlock]

end Kalorona
