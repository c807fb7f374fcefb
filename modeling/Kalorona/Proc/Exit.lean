import Kalorona.Kernel.Hart
import Kalorona.Proc.Record

namespace Kalorona.Proc

open Kalorona.Data Kalorona.Memory

/-! # `proc_exit` and the lock of the process manager

`proc_exit` holds `proc_manager.lock` while it gives its children to `root_proc`, and for each of
them it calls `proc_wakeup`, which takes the same lock.
-/

/-- The process manager with its lock, and the interrupts of the hart that runs. -/
structure ManagerOnHart where
  manager : ProcManager
  lock : Spinlock
  traps : HartTraps

namespace ManagerOnHart

variable {hart p e chan : Nat} {statusCode : Int} {list : List Nat} {s : ManagerOnHart}

def acquire (hart : Nat) (s : ManagerOnHart) : Result ManagerOnHart := do
  let traps := pushoffHart s.traps
  let lock ← spinlockAcquire hart s.lock
  return { s with lock, traps }

def release (hart : Nat) (s : ManagerOnHart) : Result ManagerOnHart := do
  let lock ← spinlockRelease hart s.lock
  let traps ← popoffHart s.traps
  return { s with lock, traps }

def procWakeup (hart chan : Nat) (s : ManagerOnHart) : Result ManagerOnHart := do
  let s ← s.acquire hart
  let s := { s with manager := s.manager.procWakeup chan }
  s.release hart

def reparentChildren (hart p : Nat) : List Nat → ManagerOnHart → Result ManagerOnHart
  | [], s => .ok s
  | e :: list, s => do
      let record := s.manager.records e
      if record.parent = p then
        let s := { s with
          manager := s.manager.setRecord e { record with parent := s.manager.rootProc } }
        let s ← procWakeup hart (s.manager.records e).parent s
        reparentChildren hart p list s
      else reparentChildren hart p list s

/-- `proc_exit` of the running process `p`, up to `scheduler_switch`. -/
def procExit (hart p : Nat) (statusCode : Int) (s : ManagerOnHart) : Result ManagerOnHart := do
  let s ← s.acquire hart
  -- take care of children
  let s ← reparentChildren hart p s.manager.procList s
  let record := { s.manager.records p with state := .zombie, exitState := statusCode }
  let s := { s with manager := s.manager.setRecord p record }
  let s ← s.release hart
  -- wakeup sleeping chan of parent
  procWakeup hart (s.manager.records p).parent s

def IsChild (p e : Nat) (s : ManagerOnHart) : Prop :=
  e ∈ s.manager.procList ∧ (s.manager.records e).parent = p

instance : Decidable (IsChild p e s) := inferInstanceAs (Decidable (_ ∧ _))

def reparented (p e : Nat) (s : ManagerOnHart) : ProcStruct :=
  if IsChild p e s then { s.manager.records e with parent := s.manager.rootProc }
  else s.manager.records e

/-- The call reaches `scheduler_switch`, with `p` a zombie and its children adopted. -/
def Terminates (hart p : Nat) (statusCode : Int) (s : ManagerOnHart) : Prop :=
  ∃ after, procExit hart p statusCode s = .ok after ∧
    after.manager.procList = s.manager.procList ∧
    (after.manager.records p).state = .zombie ∧ (after.manager.records p).exitState = statusCode ∧
    (∀ e, IsChild p e s → (after.manager.records e).parent = s.manager.rootProc) ∧
    ∀ e, e ≠ p → after.manager.records e = reparented p e s ∨
      ((s.manager.records e).state = .sleeping ∧ ((s.manager.records e).sleepingChan = s.manager.rootProc ∨
          (s.manager.records e).sleepingChan = (s.manager.records p).parent) ∧
        after.manager.records e = { reparented p e s with state := .runnable })

def held (hart : Nat) (s : ManagerOnHart) : ManagerOnHart :=
  { s with lock := ⟨1, hart⟩, traps := pushoffHart s.traps }

theorem held_manager : (s.held hart).manager = s.manager := rfl

theorem acquire_eq {lock : Spinlock} (free : spinlockAcquire hart s.lock = .ok lock) :
    s.acquire hart = .ok (s.held hart) := by
  have taken : lock = ⟨1, hart⟩ := by
    unfold spinlockAcquire at free
    split at free
    · cases free
    · split at free <;> cases free
      rfl
  rw [acquire, free, taken]
  rfl

theorem release_held {manager : ProcManager} :
    ∃ traps, release hart { s.held hart with manager } = .ok ⟨manager, ⟨0, 0⟩, traps⟩ := by
  obtain ⟨traps, popped, _⟩ := @popoffHart_ok (pushoffHart s.traps) rfl (Nat.succ_pos _)
  refine ⟨traps, ?_⟩
  have opened : spinlockRelease hart (s.held hart).lock = .ok ⟨0, 0⟩ := by
    simp [held, spinlockRelease, isHoldingSpinlock]
  rw [release, opened, Result.ok_bind, show (s.held hart).traps = pushoffHart s.traps from rfl, popped]
  rfl

theorem procWakeup_open {manager : ProcManager} {traps : HartTraps} :
    ∃ after, procWakeup hart chan ⟨manager, ⟨0, 0⟩, traps⟩ = .ok after ∧
      after.manager = manager.procWakeup chan := by
  have taken : acquire hart ⟨manager, ⟨0, 0⟩, traps⟩ = .ok (held hart ⟨manager, ⟨0, 0⟩, traps⟩) :=
    @acquire_eq hart ⟨manager, ⟨0, 0⟩, traps⟩ ⟨1, hart⟩ (by simp [spinlockAcquire, isHoldingSpinlock])
  obtain ⟨traps', released⟩ := @release_held hart ⟨manager, ⟨0, 0⟩, traps⟩ (manager.procWakeup chan)
  refine ⟨⟨manager.procWakeup chan, ⟨0, 0⟩, traps'⟩, ?_, rfl⟩
  rw [procWakeup, taken, Result.ok_bind]
  exact released

theorem procWakeup_held (holding : isHoldingSpinlock hart s.lock = true) :
    procWakeup hart chan s = .error (.panic "spinlock_acquire - spinlock held;") := by
  rw [procWakeup, acquire, spinlockAcquire, if_pos holding]
  rfl

theorem reparentChildren_none (none : ∀ e ∈ list, (s.manager.records e).parent ≠ p) :
    reparentChildren hart p list s = .ok s := by
  induction list with
  | nil => rfl
  | cons e list ih =>
    obtain ⟨here, rest⟩ := List.forall_mem_cons.mp none
    rw [reparentChildren, if_neg here]
    exact ih rest

theorem reparentChildren_some (holding : isHoldingSpinlock hart s.lock = true) (member : e ∈ list)
    (child : (s.manager.records e).parent = p) :
    reparentChildren hart p list s = .error (.panic "spinlock_acquire - spinlock held;") := by
  induction list with
  | nil => cases member
  | cons first list ih =>
    rw [reparentChildren]
    by_cases isChild : (s.manager.records first).parent = p
    · rw [if_pos isChild]
      dsimp only
      rw [procWakeup_held (by exact holding)]
      rfl
    · rw [if_neg isChild]
      apply ih
      rcases List.mem_cons.mp member with same | later
      · exact absurd (same ▸ child) isChild
      · exact later

section
variable {lock : Spinlock} (free : spinlockAcquire hart s.lock = .ok lock)
include free

theorem procExit_panics (child : IsChild p e s) :
    procExit hart p statusCode s = .error (.panic "spinlock_acquire - spinlock held;") := by
  have holding : isHoldingSpinlock hart (s.held hart).lock = true := by
    simp [held, isHoldingSpinlock]
  rw [procExit, acquire_eq free, Result.ok_bind, held_manager,
    @reparentChildren_some hart p e s.manager.procList (s.held hart) holding child.1 child.2]
  rfl

theorem procExit_childless (none : ∀ e, ¬ IsChild p e s) : ∃ after, procExit hart p statusCode s = .ok after ∧
      after.manager = (s.manager.setRecord p { s.manager.records p with
        state := .zombie, exitState := statusCode }).procWakeup (s.manager.records p).parent := by
  have loop := @reparentChildren_none hart p s.manager.procList (s.held hart)
    fun e listed parent => none e ⟨listed, parent⟩
  obtain ⟨traps, released⟩ := @release_held hart s (s.manager.setRecord p { s.manager.records p with
    state := .zombie, exitState := statusCode })
  obtain ⟨after, wakes, same⟩ := @procWakeup_open hart (s.manager.records p).parent
    (s.manager.setRecord p { s.manager.records p with state := .zombie, exitState := statusCode }) traps
  refine ⟨after, ?_, same⟩
  rw [procExit, acquire_eq free, Result.ok_bind, held_manager, loop, Result.ok_bind]
  dsimp only
  rw [held_manager, released, Result.ok_bind]
  simpa [ProcManager.setRecord] using wakes

theorem procExit_terminates_iff : Terminates hart p statusCode s ↔ ∀ e, ¬ IsChild p e s := by
  constructor
  · rintro ⟨after, run, _⟩ e child
    rw [procExit_panics free child] at run
    cases run
  · intro none
    obtain ⟨after, run, manager⟩ := @procExit_childless hart p statusCode s lock free none
    refine ⟨after, run, ?_, ?_, ?_, fun e child => absurd child (none e), fun e other => ?_⟩
    · rw [manager]
      rfl
    all_goals rw [manager]
    · simp [ProcManager.procWakeup, ProcManager.setRecord, wakeSleepers]
    · simp [ProcManager.procWakeup, ProcManager.setRecord, wakeSleepers]
    · have record : (s.manager.setRecord p { s.manager.records p with
          state := .zombie, exitState := statusCode }).records e = s.manager.records e :=
        Function.update_of_ne other _ _
      rw [reparented, if_neg (none e), ProcManager.procWakeup]
      simp only [wakeSleepers, record]
      split
      next asleep => exact .inr ⟨asleep.2.2, .inr asleep.2.1, rfl⟩
      next => exact .inl rfl

end

def twoProcesses (parent : Nat) (manager : ProcManager) : ManagerOnHart where
  manager := { manager with
    records := fun e => { ProcManager.deadRecord 0 with
      state := .running, parent := if e = 2 then parent else 0 }
    procList := [2, 1] }
  lock := ⟨0, 0⟩
  traps := ⟨true, 0, false⟩

theorem procExit_terminates_iff_no_child :
    ∃ s : ManagerOnHart, s.manager.procList = [2, 1] ∧ (s.manager.records 1).state = .running ∧
      Terminates 1 1 7 s := by
  obtain ⟨manager, _⟩ := ProcManager.first_enrolled (ProcManager.deadRecord 0)
  refine ⟨twoProcesses 0 manager, rfl, rfl, ?_⟩
  refine (@procExit_terminates_iff 1 1 7 (twoProcesses 0 manager) ⟨1, 1⟩ rfl).mpr fun e child => ?_
  have parent := child.2
  dsimp only [twoProcesses] at parent
  split at parent <;> cases parent

/-- Process 2 is a child of the process that exits. -/
theorem procExit_panics_with_child :
    ∃ s : ManagerOnHart, s.lock = ⟨0, 0⟩ ∧ s.manager.procList = [2, 1] ∧ IsChild 1 2 s ∧
      (s.manager.records 1).state = .running ∧
      procExit 1 1 7 s = .error (.panic "spinlock_acquire - spinlock held;") ∧ ¬ Terminates 1 1 7 s := by
  obtain ⟨manager, _⟩ := ProcManager.first_enrolled (ProcManager.deadRecord 0)
  have child : IsChild 1 2 (twoProcesses 1 manager) := ⟨List.mem_cons_self, rfl⟩
  have panics := @procExit_panics 1 1 2 7 (twoProcesses 1 manager) ⟨1, 1⟩ rfl child
  refine ⟨twoProcesses 1 manager, rfl, rfl, child, rfl, panics, ?_⟩
  rintro ⟨after, run, _⟩
  cases panics.symm.trans run

end ManagerOnHart

end Kalorona.Proc
