import Kalorona.Data.LockCode
import Kalorona.Console.Print

namespace Kalorona.Proc

open Kalorona.Data Kalorona.Console

/-! # What the kernel does with its spinlocks

The code that the system calls and the traps run, reduced to its locks, its switches,
its interrupt control and the transmit ring of the UART driver.  A test on other data
may go either way.
-/

/-- The spinlocks. -/
inductive KernelLock where
  | console
  | tx
  | rx
  | manager
  | tick
  | pages
  /-- The lock of an object manager. -/
  | objects (manager : Nat)
deriving DecidableEq, Repr

inductive KernelTest where
  /-- `tx_buffer_head + TX_BUFFER_SIZE == tx_buffer_tail`. -/
  | txFull
  /-- `tx_buffer_head != tx_buffer_tail`, and the transmitter is idle. -/
  | txReady
  /-- A test on data that is left open. -/
  | any
deriving DecidableEq, Repr

inductive KernelEffect where
  /-- Put a character into the transmit ring. -/
  | txStore
  /-- Send one from it. -/
  | txSend
deriving DecidableEq, Repr

abbrev KernelCode := LockCode KernelLock KernelTest KernelEffect

namespace KernelCode

open LockCode (all)

def locked (lock : KernelLock) (body : KernelCode) : KernelCode :=
  all [.acquire lock, body, .release lock]

def maybe (body : KernelCode) : KernelCode := .either body .skip

def procWakeup : KernelCode := locked .manager .skip

def procIsKilled : KernelCode := locked .manager .skip

/-- `proc_sleep` with a lock other than `proc_manager.lock`. -/
def procSleep (lk : KernelLock) : KernelCode :=
  all [.acquire .manager, .release lk, .release .manager, .leave, locked .manager .skip, .acquire lk]

/-- `proc_sleep` with `proc_manager.lock`. -/
def procSleepManager : KernelCode :=
  all [.release .manager, .leave, locked .manager .skip, .acquire .manager]

def schedulerYield : KernelCode := all [locked .manager .skip, .leave]

/-- `proc_exit`; for a child it calls `proc_wakeup` with the lock held. -/
def procExit : KernelCode :=
  all [locked .manager (.whileDo .any procWakeup), procWakeup, .leave]

/-- `proc_kill`; `proc_lock_and_find` releases the lock where it finds nobody. -/
def procKill : KernelCode := locked .manager .skip

def kmemAllocPages : KernelCode := locked .pages .skip

def kmemFreePage : KernelCode := locked .pages .skip

def kmemObjectAlloc (manager : Nat) : KernelCode :=
  locked (.objects manager) (.whileDo .any kmemAllocPages)

def kmemFree (manager : Nat) : KernelCode := locked (.objects manager) .skip

/-- `proc_create`, with the manager of the process records. -/
def procCreate (manager : Nat) : KernelCode :=
  .seq (kmemObjectAlloc manager) (maybe (all [locked .manager .skip,
    .whileDo .any kmemAllocPages, locked .manager .skip]))

def procFork (manager : Nat) : KernelCode :=
  .seq (procCreate manager) (maybe (locked .manager (.whileDo .any kmemAllocPages)))

def procReapDetached (manager : Nat) : KernelCode :=
  all [.whileDo .any kmemFreePage, kmemFree manager]

def procExtendStack : KernelCode :=
  locked .manager (maybe (.whileDo .any kmemAllocPages))

def ns16550aFlush : KernelCode :=
  .whileDo .txReady (all [.effect .txSend, procWakeup])

def ns16550aPutcAsync : KernelCode :=
  locked .tx (all [.whileDo .txFull (procSleep .tx), .effect .txStore, ns16550aFlush])

def ns16550aReadc : KernelCode := locked .rx (.whileDo .any (procSleep .rx))

def ns16550aInterruptHandler : KernelCode :=
  all [.whileDo .any procWakeup, locked .tx ns16550aFlush]

/-! ## The console, with `locking_enabled` and the device as its `kernel_stdout_dev` -/

def printChars : List UInt8 → KernelCode
  | [] => .skip
  | _ :: rest => .seq ns16550aPutcAsync (printChars rest)

def print (text : List UInt8) : KernelCode := locked .console (printChars text)

/-- `printf`; a format with arguments that have no meaning prints nothing. -/
def printf (fmt : String) (args : List PrintArg) : KernelCode :=
  print ((Console.printf (textBytes fmt) args).getD [])

def printBuffer (bytes : List UInt8) : KernelCode := print (Console.printBuffer bytes)

def getchar : KernelCode := ns16550aReadc

end KernelCode

/-- The system calls, `sys_debug_yell` with the data that it prints: the pid, the bytes of the
trapframe, the values of `a0` to `a7` and the character that was read. -/
inductive Syscall where
  | debugYell (pid : Int) (frame : List UInt8) (registers : List Nat) (c : UInt8)
  | exit
  | fork
  | kill
  | sleep
  | uptime
  | wait
  | sbrk
  | getpid
deriving DecidableEq, Repr

inductive Trap where
  /-- The flag is for hart 0, which keeps the ticks. -/
  | timer (keepsTicks : Bool)
  | device
  | ecall (call : Syscall)
  | stackFault
  | unhandled (pid : Int) (cause sepc : Nat)
deriving DecidableEq, Repr

namespace KernelCode

open LockCode (all)

def sysDebugYell (pid : Int) (frame : List UInt8) (registers : List Nat) (c : UInt8) : KernelCode :=
  all [printf "[sys_debug]pid #%d yelling with trapframe: \n" [.int32 pid],
    printBuffer frame,
    printf "a0 = %p, a1 = %p, a2 = %p, a3 = %p, a4 = %p, a5 = %p, a6 = %p, a7 = %p.\n"
      (registers.map .uint64),
    getchar,
    printf "System got an %c\n" [.char c]]

def syscallSleep : KernelCode :=
  locked .tick (.whileDo .any (all [procIsKilled, maybe (procSleep .tick)]))

/-- `syscall_wait`, with the manager of the process records. -/
def syscallWait (manager : Nat) : KernelCode :=
  locked .manager (all [.whileDo .any procSleepManager, maybe (procReapDetached manager)])

def syscallSbrk : KernelCode :=
  locked .manager (.either (.whileDo .any kmemAllocPages) (.whileDo .any kmemFreePage))

def syscall (manager : Nat) : Syscall → KernelCode
  | .debugYell pid frame registers c => sysDebugYell pid frame registers c
  | .exit => procExit
  | .fork => procFork manager
  | .kill => procKill
  | .sleep => syscallSleep
  | .uptime => locked .tick .skip
  | .wait => syscallWait manager
  | .sbrk => syscallSbrk
  | .getpid => .skip

def tickHandler : KernelCode := all [locked .tick .skip, procWakeup]

def timer (keepsTicks : Bool) : KernelCode := if keepsTicks then tickHandler else .skip

def killedExits : KernelCode := all [procIsKilled, maybe procExit]

/-- `utrap_handler` up to `utrap_return`; the trap itself turns interrupts off. -/
def utrapHandler (manager : Nat) (trap : Trap) : KernelCode :=
  all [.interrupts false,
    match trap with
    | .timer keepsTicks => .seq (timer keepsTicks) schedulerYield
    | .device => maybe ns16550aInterruptHandler
    | .ecall call => all [killedExits, .interrupts true, syscall manager call]
    | .stackFault => procExtendStack
    | .unhandled pid cause sepc =>
      .seq (printf "[proc]user program #%d unexpected interrupted, scause: %p, sepc: %p, killed\n"
        [.int32 pid, .uint64 cause, .uint64 sepc]) procKill,
    killedExits, .interrupts false]

inductive Interrupt where
  | timer (keepsTicks : Bool)
  | device
deriving DecidableEq, Repr

/-- `ktrap_handler`, on a hart that runs a process or not; the return from the trap turns
interrupts on again. -/
def ktrapHandler (runsProcess : Bool) (interrupt : Interrupt) : KernelCode :=
  all [.interrupts false,
    match interrupt with
    | .timer keepsTicks =>
      .seq (timer keepsTicks) (if runsProcess then maybe schedulerYield else .skip)
    | .device => maybe ns16550aInterruptHandler,
    .interrupts true]

def scheduler : KernelCode :=
  .whileDo .any (all [.interrupts true,
    locked .manager (.whileDo .any (all [.release .manager, .leave, .acquire .manager]))])

def roomy : KernelTest → Bool
  | .txFull => true
  | _ => false

/-- The code ends with the locks it was entered with. -/
def Balanced (code : KernelCode) (held : List KernelLock) : Prop :=
  code.check roomy held = some (.ends held)

variable {body : KernelCode} {held : List KernelLock}

theorem balanced_locked {lock : KernelLock}
    (free : lock ∉ held) (balanced : Balanced body (lock :: held)) : Balanced (locked lock body) held := by
  rw [Balanced] at balanced
  simp [Balanced, locked, all, LockCode.check, free, balanced]

theorem balanced_seq {first second : KernelCode}
    (firstBalanced : Balanced first held) (secondBalanced : Balanced second held) :
    Balanced (.seq first second) held := by
  rw [Balanced] at firstBalanced secondBalanced
  simp [Balanced, LockCode.check, firstBalanced, secondBalanced]

theorem balanced_maybe (balanced : Balanced body held) : Balanced (maybe body) held := by
  rw [Balanced] at balanced
  simp [Balanced, maybe, LockCode.check, balanced, LockCode.Verdict.join]

theorem balanced_whileDo {test : KernelTest}
    (balanced : Balanced body held) : Balanced (.whileDo test body) held := by
  rw [Balanced] at balanced
  simp [Balanced, LockCode.check, balanced]

theorem balanced_putc : Balanced ns16550aPutcAsync [.console] := rfl

theorem balanced_printChars (text : List UInt8) : Balanced (printChars text) [.console] := by
  induction text with
  | nil => rfl
  | cons c rest ih => exact balanced_seq balanced_putc ih

theorem balanced_print (text : List UInt8) : Balanced (print text) [] :=
  balanced_locked (by simp) (balanced_printChars text)

theorem balanced_kmemObjectAlloc (manager : Nat) : Balanced (kmemObjectAlloc manager) [] :=
  balanced_locked (by simp) (balanced_whileDo (balanced_locked (by simp) rfl))

theorem balanced_procReapDetached (manager : Nat) : Balanced (procReapDetached manager) [.manager] :=
  balanced_seq rfl (balanced_seq (balanced_locked (by simp) rfl) rfl)

theorem balanced_syscall (manager : Nat) (call : Syscall) : Balanced (syscall manager call) [] := by
  cases call with
  | debugYell pid frame registers c =>
    exact balanced_seq (balanced_print _) (balanced_seq (balanced_print _)
      (balanced_seq (balanced_print _) (balanced_seq rfl (balanced_seq (balanced_print _) rfl))))
  | fork =>
    exact balanced_seq (balanced_seq (balanced_kmemObjectAlloc manager) rfl) rfl
  | wait =>
    exact balanced_locked (by simp) (balanced_seq rfl
      (balanced_seq (balanced_maybe (balanced_procReapDetached manager)) rfl))
  | _ => rfl

theorem balanced_utrapHandler (manager : Nat) (trap : Trap) : Balanced (utrapHandler manager trap) [] := by
  refine balanced_seq rfl (balanced_seq ?_ rfl)
  cases trap with
  | timer keepsTicks => cases keepsTicks <;> rfl
  | ecall call =>
    exact balanced_seq rfl (balanced_seq rfl (balanced_seq (balanced_syscall manager call) rfl))
  | unhandled pid cause sepc => exact balanced_seq (balanced_print _) rfl
  | _ => rfl

theorem balanced_ktrapHandler (runsProcess : Bool) (interrupt : Interrupt) :
    Balanced (ktrapHandler runsProcess interrupt) [] := by
  cases interrupt with
  | timer keepsTicks => cases runsProcess <;> cases keepsTicks <;> rfl
  | device => rfl

theorem balanced_scheduler : Balanced scheduler [] := rfl

end KernelCode

end Kalorona.Proc
