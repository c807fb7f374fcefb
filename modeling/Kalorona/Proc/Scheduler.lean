import Kalorona.Kernel.Machine
import Mathlib.Logic.Function.Basic

namespace Kalorona.Proc

/-! # Scheduling as a step machine

Each hart is at a point of the kernel's code, on the scheduler's stack of some hart or on the kernel
stack of some process.  A step is one critical section of `proc_manager.lock`, or one call of
`proc_switch`.  A panic has no step.
-/

inductive ProcState where
  | sleeping
  | runnable
  | running
  | stopped
  | zombie
  | allocated
deriving DecidableEq, Repr

inductive Stack (H P : Type) where
  | hart (h : H)
  | process (p : P)
deriving DecidableEq, Repr

/-- Where a hart is, or where a saved context will continue. -/
inductive Code (P : Type) where
  /-- In `scheduler`, about to acquire the lock and look at the processes after the cursor. -/
  | scan (cursor : Option P)
  /-- In `scheduler`, with `running_proc` set, about to call `proc_switch`. -/
  | dispatch (p : P)
  /-- In `scheduler`, where `proc_switch` returns. -/
  | back (p : P)
  /-- In the program or the kernel code of a process. -/
  | running
  /-- In `proc_sleep`, where `scheduler_switch` returns. -/
  | awake (p : P)
  /-- In `proc_exit`, after the lock is released. -/
  | exiting (p : P)
  /-- In `scheduler_switch`, about to call `proc_switch`. -/
  | switchAway (p : P) (resume : Code P)
deriving DecidableEq, Repr

/-- What `proc_switch` saves. -/
structure Context (H P : Type) where
  stack : Stack H P
  code : Code P
deriving DecidableEq, Repr

/-- The part of `struct hart_struct` that scheduling uses, with the hart's place. -/
structure Hart (H P : Type) where
  stack : Stack H P
  code : Code P
  runningProc : Option P
  context : Option (Context H P)
deriving DecidableEq, Repr

/-- The channels of `proc_sleep` are addresses: of a process record or of something else. -/
inductive Chan (P : Type) where
  | proc (p : P)
  | other (address : Nat)
deriving DecidableEq, Repr

structure Process (H P : Type) where
  state : ProcState
  sleepingChan : Option (Chan P)
  parent : Option P
  killed : Bool
  exitState : Int
  context : Option (Context H P)
deriving DecidableEq, Repr

/-- The harts, and the process manager; `procList` is the chain from `proc_list`. -/
structure System (H P : Type) where
  harts : H → Hart H P
  procs : P → Process H P
  procList : List P

/-- The critical sections and `proc_switch`. -/
inductive Action (H P : Type) where
  | schedule (h : H)
  | clearRunning (h : H)
  | switch (h : H)
  | yield (h : H)
  | sleep (h : H) (chan : Option (Chan P))
  | resume (h : H)
  | wakeup (h : H) (chan : Option (Chan P))
  | kill (h : H) (target : P)
  | exit (h : H) (statusCode : Int)
  | wakeParent (h : H)
  | wait (h : H) (copyFails : Bool)
deriving DecidableEq, Repr

/-! ## Over any records

Machines that keep different parts of a record share what `proc_wakeup` and `syscall_wait` do to them.
-/

section
variable {P R C S : Type} [DecidableEq P] [DecidableEq C]

/-- `proc_wakeup`; `wake` marks a record as runnable. -/
def wakeSleepers (state : R → ProcState) (sleepingChan : R → C) (wake : R → R) (procList : List P) (chan : C)
    (procs : P → R) (p : P) : R :=
  if p ∈ procList ∧ sleepingChan (procs p) = chan ∧ state (procs p) = .sleeping then wake (procs p) else procs p

def listedChildren (parent : P → Option P) (procList : List P) (p : P) : List P :=
  procList.filter fun e => parent e = some p

def zombieAmong (state : P → ProcState) (children : List P) : Option P :=
  children.find? fun e => state e = .zombie

/-- One round of the loop of `syscall_wait`: it reaps a zombie, fails, or goes to sleep. -/
def waitRound (zombieChild : Option P) (children : List P) (killed : Bool) (reap : P → S) (fail sleep : S) : S :=
  match zombieChild with
  | some child => reap child
  | none => if children = [] ∨ killed then fail else sleep

end

variable {H P : Type}

namespace System

section
variable [DecidableEq H] (s : System H P) (h : H) (hart : Hart H P)

def setHart : System H P :=
  { s with harts := Function.update s.harts h hart }

@[simp] theorem setHart_self : (s.setHart h hart).harts h = hart := Function.update_self ..

theorem setHart_of_ne {other : H} (different : other ≠ h) :
    (s.setHart h hart).harts other = s.harts other := Function.update_of_ne different ..

@[simp] theorem setHart_procs : (s.setHart h hart).procs = s.procs := rfl

end

section
variable [DecidableEq P] (s : System H P) (p : P) (process : Process H P)

def setProc : System H P :=
  { s with procs := Function.update s.procs p process }

@[simp] theorem setProc_harts : (s.setProc p process).harts = s.harts := rfl
@[simp] theorem setProc_self : (s.setProc p process).procs p = process := Function.update_self ..

theorem setProc_of_ne {other : P} (different : other ≠ p) :
    (s.setProc p process).procs other = s.procs other := Function.update_of_ne different ..

end

variable [DecidableEq H] [DecidableEq P]

/-- The processes that a loop with this cursor has still to visit.  The record of a
process that was detached has a null `nxt_proc`. -/
def afterCursor (s : System H P) : Option P → List P
  | none => s.procList
  | some p => (s.procList.dropWhile (· ≠ p)).tail

def picked (s : System H P) (cursor : Option P) : Option P :=
  (s.afterCursor cursor).find? fun p => (s.procs p).state = .runnable

def wakeAll (s : System H P) (chan : Option (Chan P)) : System H P :=
  { s with
    procs := wakeSleepers Process.state Process.sleepingChan (fun p => { p with state := .runnable })
      s.procList chan s.procs }

def children (s : System H P) (p : P) : List P :=
  listedChildren (fun e => (s.procs e).parent) s.procList p

def zombieChild (s : System H P) (p : P) : Option P :=
  zombieAmong (fun e => (s.procs e).state) (s.children p)

/-- Publish a new state of the running process and go on to `scheduler_switch`. -/
def leave (s : System H P) (h : H) (p : P) (process : Process H P) (resume : Code P) : System H P :=
  (s.setProc p process).setHart h { s.harts h with code := .switchAway p resume }

end System

variable [DecidableEq H] [DecidableEq P]

/-- `proc_switch`: save the place of the hart in one context and take up the other. -/
def procSwitch (s : System H P) (h : H) : Option (System H P) :=
  let hart := s.harts h
  match hart.code with
  | .dispatch p =>
    (s.procs p).context.map fun next =>
      s.setHart h { hart with
        stack := next.stack, code := next.code, context := some ⟨hart.stack, .back p⟩ }
  | .switchAway p resume =>
    hart.context.map fun next =>
      (s.setProc p { s.procs p with context := some ⟨hart.stack, resume⟩ }).setHart h
        { hart with stack := next.stack, code := next.code }
  | _ => none

def syscallWait (s : System H P) (h : H) (p : P) (copyFails : Bool) : System H P :=
  waitRound (s.zombieChild p) (s.children p) (s.procs p).killed
    -- sth wrong with the cpy, or reap the proc
    (fun child => if copyFails then s else { s with procList := s.procList.erase child })
    s
    (s.leave h p { s.procs p with sleepingChan := some (.proc p), state := .sleeping } (.awake p))

/-- A trap that yields: from the program of the process unconditionally, from the kernel
if the process that the hart runs is marked as running. -/
def trapYield (s : System H P) (h : H) : Option (System H P) :=
  let hart := s.harts h
  match hart.runningProc with
  | none => none
  | some p =>
    if hart.code = .running ∨ (s.procs p).state = .running then
      some (s.leave h p { s.procs p with state := .runnable } hart.code)
    else none

/-- Steps of the code of a process, which finds its record through `running_proc`. -/
def processStep (s : System H P) (h : H) (next : P → Option (System H P)) : Option (System H P) :=
  match (s.harts h).code, (s.harts h).runningProc with
  | .running, some p => next p
  | _, _ => none

def step : Action H P → System H P → Option (System H P)
  | .schedule h, s =>
    match (s.harts h).code with
    | .scan cursor =>
      match s.picked cursor with
      | some p =>
        some ((s.setProc p { s.procs p with state := .running }).setHart h
          { s.harts h with code := .dispatch p, runningProc := some p })
      | none => some (s.setHart h { s.harts h with code := .scan none })
    | _ => none
  | .clearRunning h, s =>
    match (s.harts h).code with
    | .back p => some (s.setHart h { s.harts h with code := .scan (some p), runningProc := none })
    | _ => none
  | .switch h, s => procSwitch s h
  | .yield h, s => trapYield s h
  | .sleep h chan, s => processStep s h fun p =>
    some (s.leave h p { s.procs p with sleepingChan := chan, state := .sleeping } (.awake p))
  | .resume h, s =>
    match (s.harts h).code with
    | .awake p =>
      some ((s.setProc p { s.procs p with sleepingChan := none }).setHart h { s.harts h with code := .running })
    | _ => none
  | .wakeup _ chan, s => some (s.wakeAll chan)
  | .kill h target, s => processStep s h fun _ =>
    if target ∈ s.procList then
      let state := if (s.procs target).state = .sleeping then .runnable else (s.procs target).state
      some (s.setProc target { s.procs target with killed := true, state })
    else some s
  | .exit h statusCode, s => processStep s h fun p =>
    -- with a child, proc_wakeup would acquire the lock that proc_exit holds
    if s.children p = [] then
      some ((s.setProc p { s.procs p with state := .zombie, exitState := statusCode }).setHart h
        { s.harts h with code := .exiting p })
    else none
  | .wakeParent h, s =>
    match (s.harts h).code with
    | .exiting p =>
      some ((s.wakeAll ((s.procs p).parent.map .proc)).setHart h { s.harts h with code := .switchAway p .running })
    | _ => none
  | .wait h copyFails, s => processStep s h fun p => some (syscallWait s h p copyFails)

end Kalorona.Proc
