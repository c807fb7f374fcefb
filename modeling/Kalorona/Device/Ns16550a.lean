import Kalorona.Proc.Sleep

namespace Kalorona.Device

open Kalorona.Data Kalorona.Proc Kalorona.Proc.Sleep

/-! # The receive path of the UART driver

Processes read characters under `rx_lock`; the interrupt handler on another hart puts
them into the ring without it.  A step is a critical section of a lock, cut where
`proc_manager.lock` is taken inside it, or one access of the handler to the ring.
-/

/-- Where a process is in `ns16550a_driver_readc`. -/
inductive ReadCode where
  | outside
  /-- About to compare `rx_buffer_head` with `rx_buffer_tail`. -/
  | testing
  /-- A character was taken from the ring. -/
  | past
deriving DecidableEq, Repr

inductive HandlerCode where
  | idle
  /-- The character is in the ring, before the tail. -/
  | stored
  /-- Between `rx_buffer_tail++` and the end of `proc_wakeup`. -/
  | waking
deriving DecidableEq, Repr

def ReadCode.holdsLock : ReadCode → Bool
  | .outside => false
  | _ => true

/-- The loop of `ns16550a_driver_readc` sleeps on the address of `rx_buffer_head`. -/
def readSite (P : Type) (address : Nat) : Site P ReadCode where
  chan := .other address
  outside := .outside
  again := .testing
  holds := ReadCode.holdsLock
  holds_outside := rfl
  holds_again := rfl

def rxBufferSize : Nat := 256

/-- The receive part of `struct ns16550a_internal_struct`, with the processes and what
`ns16550a_driver_readc` returned to each. -/
structure Receiver (P W : Type) where
  kernel : State P W ReadCode
  rxBuffer : Nat → UInt8
  rxBufferHead : Nat
  rxBufferTail : Nat
  ret : P → UInt8
  handler : HandlerCode

inductive ReceiverEvent (P W : Type) where
  | kernel (event : Event P W)
  /-- `ns16550a_driver_readc`: acquire `rx_lock`; test for a character, and sleep or take it;
  release `rx_lock`. -/
  | acquire (p : P)
  | test (p : P)
  | release (p : P)
  /-- `ns16550a_driver_interrupt_handler`: store a character that the device has; advance the
  tail; `proc_wakeup`. -/
  | store (c : UInt8)
  | advance
  | wakeup
deriving DecidableEq, Repr

variable {P W : Type} [DecidableEq P]

namespace Receiver

def Enabled (address : Nat) (s : Receiver P W) : ReceiverEvent P W → Prop
  | .kernel event => Sleep.Enabled (readSite P address) s.kernel event
  | .acquire p => s.kernel.Executes p .outside ∧ s.kernel.lock = none
  | .test p => s.kernel.Executes p .testing
  | .release p => s.kernel.Executes p .past
  | .store _ => s.handler = .idle
  | .advance => s.handler = .stored
  | .wakeup => s.handler = .waking ∧ s.kernel.manager = none

instance Enabled.decidable [DecidableEq W] (address : Nat) (s : Receiver P W) (event : ReceiverEvent P W) :
    Decidable (s.Enabled address event) := by
  cases event <;> unfold Enabled <;> infer_instance

def next (address : Nat) (s : Receiver P W) : ReceiverEvent P W → Receiver P W
  | .kernel event => { s with kernel := Sleep.next (readSite P address) s.kernel event }
  | .acquire p => { s with kernel := s.kernel.acquire p .testing }
  | .test p =>
    if s.rxBufferHead = s.rxBufferTail then { s with kernel := s.kernel.moveTo p .entering }
    else
      { s with
        kernel := s.kernel.moveTo p (.code .past)
        rxBufferHead := ulong (s.rxBufferHead + 1)
        ret := Function.update s.ret p (s.rxBuffer (s.rxBufferHead % rxBufferSize)) }
  | .release p => { s with kernel := s.kernel.release p .outside }
  | .store c =>
    { s with
      rxBuffer := Function.update s.rxBuffer (s.rxBufferTail % rxBufferSize) c
      handler := .stored }
  | .advance => { s with rxBufferTail := ulong (s.rxBufferTail + 1), handler := .waking }
  | .wakeup =>
    { s with kernel := s.kernel.wakeAll (some (.other address)), handler := .idle }

/-- A reader sleeps although there is a character and no handler is about to wake it up. -/
def LostWakeup (address : Nat) (s : Receiver P W) : Prop :=
  s.rxBufferHead ≠ s.rxBufferTail ∧ s.handler ≠ .waking ∧
    ∃ p, (s.kernel.procs p).state = .sleeping ∧
      (s.kernel.procs p).sleepingChan = some (.other address)

/-- `proc_wakeup` does not run while a reader stands between a test that found the ring empty
and the lock of `proc_wakeup`, with a character in the ring. -/
def Timely (s : Receiver P W) : ReceiverEvent P W → Prop
  | .wakeup => ∀ p, (s.kernel.procs p).place = .entering → s.rxBufferHead = s.rxBufferTail
  | _ => True

instance Timely.decidable {n : Nat} (s : Receiver (Fin n) W) (event : ReceiverEvent (Fin n) W) :
    Decidable (s.Timely event) := by
  cases event <;> unfold Timely <;> infer_instance

structure Initial (address : Nat) (s : Receiver P W) : Prop where
  quiet : Quiet (readSite P address) s.kernel
  handler : s.handler = .idle

/-- Whoever has called `proc_sleep` while there is a character is about to be woken up. -/
structure Served (address : Nat) (s : Receiver P W) : Prop where
  sound : Sound (readSite P address) s.kernel
  blocked : ∀ p, Blocked (readSite P address) (s.kernel.procs p) →
    s.rxBufferHead ≠ s.rxBufferTail → s.handler = .waking

variable {address : Nat} {s : Receiver P W} {p : P}

namespace Served

section
variable (served : s.Served address)
include served

theorem moved {k after : ReadCode} {kernel : State P W ReadCode}
    (executes : s.kernel.Executes p k) (sound : Sound (readSite P address) kernel)
    (procs : kernel.procs = (s.kernel.moveTo p (.code after)).procs) : Served address { s with kernel } := by
  refine ⟨sound, fun q blocked => ?_⟩
  dsimp only at blocked
  rw [procs] at blocked
  exact served.blocked q (executes.blocked_of_moveTo blocked).2

theorem test (executes : s.kernel.Executes p .testing) : (s.next address (.test p)).Served address := by
  simp only [Receiver.next]
  split
  next empty =>
    exact ⟨served.sound.executes_moveTo executes rfl rfl, fun q _ some => absurd empty some⟩
  next some =>
    refine ⟨served.sound.executes_moveTo executes rfl rfl, fun q blocked _ => ?_⟩
    exact served.blocked q (executes.blocked_of_moveTo blocked).2 some

theorem wakeup (free : s.kernel.manager = none)
    (timely : s.Timely .wakeup) : (s.next address .wakeup).Served address := by
  refine ⟨served.sound.wakeAll _, fun q blocked some => ?_⟩
  rcases blocked with entering | both | waiting
  · simp only [Receiver.next, State.wakeAll_place] at entering
    exact absurd (timely q entering) some
  · simp only [Receiver.next, State.wakeAll_place] at both
    have managed := served.sound.manager q
    rw [both, free] at managed
    cases managed.mp rfl
  · exact absurd waiting (served.sound.not_waiting_wakeAll free q)

theorem next {event : ReceiverEvent P W}
    (enabled : s.Enabled address event) (timely : s.Timely event) : (s.next address event).Served address := by
  cases event with
  | kernel event =>
    exact ⟨served.sound.next enabled, fun q blocked => served.blocked q ((follows_next enabled q).blocked blocked)⟩
  | acquire p =>
    exact served.moved enabled.1 (served.sound.executes_acquire enabled.1 enabled.2 rfl) rfl
  | test p => exact served.test enabled
  | release p => exact served.moved enabled (served.sound.executes_release enabled rfl rfl) rfl
  | store c =>
    have idle : s.handler = .idle := enabled
    refine ⟨served.sound, fun q blocked some => ?_⟩
    cases idle.symm.trans (served.blocked q blocked some)
  | advance => exact ⟨served.sound, fun _ _ _ => rfl⟩
  | wakeup => exact served.wakeup enabled.2 timely

omit [DecidableEq P] in
theorem not_lostWakeup : ¬ s.LostWakeup address := by
  rintro ⟨some, notWaking, p, sleeping, chan⟩
  exact notWaking (served.blocked p (.inr (.inr (.inr ⟨sleeping, chan⟩))) some)

end

end Served

omit [DecidableEq P] in
theorem Initial.served (initial : s.Initial address) : s.Served address := by
  have places := initial.quiet.places
  refine ⟨initial.quiet.sound, fun p blocked => ?_⟩
  rcases blocked with entering | both | marking | ⟨sleeping, chan⟩
  · simp [places p] at entering
  · simp [places p] at both
  · simp [places p] at marking
  · exact absurd chan (initial.quiet.sleeps p sleeping)

def fallAsleep (p : P) : List (ReceiverEvent P W) :=
  [.kernel (.enter p), .kernel (.handOver p), .kernel (.sleep p)]

theorem fallAsleep_allowed (free : s.kernel.manager = none) (entering : (s.kernel.procs p).place = .entering) :
    Allows (Enabled address) (next address) s (fallAsleep p) := by
  refine ⟨⟨free, entering⟩, ?_, ?_, trivial⟩
  · simp [Enabled, Sleep.Enabled, Receiver.next, Sleep.next]
  · simp [Enabled, Sleep.Enabled, Receiver.next, Sleep.next]

theorem fallAsleep_sleeps (s : Receiver P W) (p : P) :
    (((fallAsleep p).foldl (next address) s).kernel.procs p).state = .sleeping ∧
      (((fallAsleep p).foldl (next address) s).kernel.procs p).sleepingChan = some (.other address) := by
  simp [fallAsleep, Receiver.next, Sleep.next, State.setProc, readSite]

theorem lostWakeup_of_not_timely (enabled : s.Enabled address .wakeup) (late : ¬ s.Timely .wakeup) :
    ∃ after, Relation.ReflTransGen (EventStep (Enabled address) (next address))
      (s.next address .wakeup) after ∧ after.LostWakeup address := by
  simp only [Timely, not_forall] at late
  obtain ⟨p, entering, some⟩ := late
  have free : (s.next address .wakeup).kernel.manager = none := enabled.2
  have place : ((s.next address .wakeup).kernel.procs p).place = .entering := by
    simp [Receiver.next, entering]
  have asleep := @fallAsleep_sleeps P W _ address (s.next address .wakeup) p
  exact ⟨_, run_of_allows (fallAsleep_allowed free place), some, by
    simp [fallAsleep, Receiver.next], p, asleep⟩

/-- No wakeup is lost in a run in which every `proc_wakeup` of the handler is timely; one that
is not can always lose one. -/
theorem receive_wakeups_timely {start : Receiver P W} (initial : start.Initial address) :
    (Relation.ReflTransGen (EventStep (fun s event => Enabled address s event ∧ s.Timely event) (next address))
        start s → ¬ s.LostWakeup address) ∧
      (s.Enabled address .wakeup → ¬ s.Timely .wakeup →
        ∃ after, Relation.ReflTransGen (EventStep (Enabled address) (next address))
          (s.next address .wakeup) after ∧ after.LostWakeup address) := by
  refine ⟨fun run => ?_, lostWakeup_of_not_timely⟩
  have served : s.Served address := by
    refine run_preserves (Served address) ?_ initial.served run
    rintro before after served ⟨event, ⟨enabled, timely⟩, rfl⟩
    exact served.next enabled timely
  exact served.not_lostWakeup

def oneReader : Receiver (Fin 1) Unit where
  kernel := ⟨none, none, fun _ => ⟨.running, none, false, .code .outside⟩, [0]⟩
  rxBuffer := fun _ => 0
  rxBufferHead := 0
  rxBufferTail := 0
  ret := fun _ => 0
  handler := .idle

theorem oneReader_initial : oneReader.Initial 64 := ⟨⟨rfl, rfl, fun _ => rfl, by decide, by decide⟩, rfl⟩

def sleepThenReceive : List (ReceiverEvent (Fin 1) Unit) :=
  [.acquire 0, .test 0] ++ fallAsleep 0 ++ [.store 97, .advance, .wakeup]

theorem receive_wakeups_timely_asleep : ¬ (sleepThenReceive.foldl (next 64) oneReader).LostWakeup 64 := by
  refine (receive_wakeups_timely oneReader_initial).1 (run_of_allows ?_)
  decide

/-- The character comes, and `proc_wakeup` with it, when the reader has found the ring empty
and not yet fallen asleep. -/
def receiveThenSleep : List (ReceiverEvent (Fin 1) Unit) :=
  [.acquire 0, .test 0] ++ [.store 97, .advance, .wakeup] ++ fallAsleep 0

theorem receive_loses_wakeup : oneReader.Initial 64 ∧
      ∃ s, Relation.ReflTransGen (EventStep (Enabled 64) (next 64)) oneReader s ∧
        s.LostWakeup 64 := by
  refine ⟨oneReader_initial, receiveThenSleep.foldl (next 64) oneReader, run_of_allows ?_, ?_, ?_, 0, ?_, ?_⟩
  all_goals decide

end Receiver

end Kalorona.Device
