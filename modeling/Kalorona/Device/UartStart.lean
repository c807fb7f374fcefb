import Kalorona.Device.DriverInit
import Kalorona.Device.UartRings

namespace Kalorona.Device

open Kalorona.Console Kalorona.Data

/-! # The UART after its initialisation

`ns16550a_driver_init` does not write the counters of the two rings, so the rings start with
what the memory of the record held.
-/

section
variable {grants : Nat → Nat} {node : FdtNode} {s after : DriverState} {devId u dev uIrq halU result : Nat}

structure Initialised (u dev : Nat) (stale : Ns16550aInternal) (after : DriverState) : Prop where
  linked : (after.devices dev).driverInternal = u
  record : ∃ devId interruptSrcId clockFreq regBase regSize, after.internals u =
    { stale with
      devId, interruptSrcId, clockFreq, regBase, regSize, txLock := ⟨0, 0⟩, rxLock := ⟨0, 0⟩ }

theorem ns16550aActivate_success (returned : ns16550aActivate u dev uIrq halU s = .ok (result, after))
    (success : result ≠ 0) : result = dev ∧ after.devices = s.devices ∧
      after.internals u = { s.internals u with txLock := ⟨0, 0⟩, rxLock := ⟨0, 0⟩ } := by
  unfold ns16550aActivate at returned
  split at returned
  next =>
    cases returned
    exact absurd rfl success
  next registered accepted =>
    have kept : registered.devices = s.devices ∧ registered.internals = s.internals := by
      unfold halTrapRegisterIrq at accepted
      split at accepted
      · cases accepted
      · cases accepted
        exact ⟨rfl, rfl⟩
    split at returned
    · cases returned
    next nonnull =>
      cases returned
      simp only [halUartRegisterDevice, if_neg nonnull, DriverState.writeRegisters]
      refine ⟨trivial, kept.1, ?_⟩
      rw [DriverState.internals_modifyInternal, kept.2]

theorem ns16550aConfigure_success
    (returned : ns16550aConfigure devId node u dev uIrq halU s = .ok (result, after)) (success : result ≠ 0) :
    result = dev ∧ Initialised u dev (s.internals u) after := by
  unfold ns16550aConfigure at returned
  split at returned
  next => cases returned; exact absurd rfl success
  next =>
    split at returned
    next => cases returned; exact absurd rfl success
    next =>
      split at returned
      next => cases returned; exact absurd rfl success
      next =>
        obtain ⟨same, devices, record⟩ := ns16550aActivate_success returned success
        refine ⟨same, ?_, ?_⟩
        · simp [devices, DriverState.setIrq, DriverState.setDevice]
        · rw [record]
          simp only [DriverState.setIrq, DriverState.setDevice, DriverState.internals_modifyInternal]
          exact ⟨_, _, _, _, _, rfl⟩

theorem ns16550aDriverInit_success
    (returned : ns16550aDriverInit grants devId node s = .ok (result, after)) (success : result ≠ 0) :
    Initialised (grants s.calls) result (s.internals (grants s.calls)) after := by
  unfold ns16550aDriverInit DriverState.allocThree at returned
  simp only [DriverState.alloc] at returned
  split at returned
  next => cases returned; exact absurd rfl success
  next =>
    split at returned
    next => cases returned; exact absurd rfl success
    next =>
      split at returned
      next => cases returned; exact absurd rfl success
      next nonnull =>
        obtain ⟨rfl, initialised⟩ := ns16550aConfigure_success returned success
        exact initialised

end

/-- The rings of a UART, and the characters that were passed to `ns16550a_driver_putc_async`. -/
structure Uart (P : Type) where
  tx : Transmitter P
  rx : RxRing
  passed : List UInt8

def uartOf (P : Type) (internal : Ns16550aInternal) : Uart P where
  tx := ⟨internal.txBuffer, internal.txBufferHead, internal.txBufferTail, fun _ => none, [], []⟩
  rx := ⟨internal.rxBuffer, internal.rxBufferHead, internal.rxBufferTail, [], []⟩
  passed := []

theorem uartOf_initialised (P : Type) {u dev : Nat} {stale : Ns16550aInternal} {after : DriverState}
    (initialised : Initialised u dev stale after) :
    uartOf P (after.internals (after.devices dev).driverInternal) = uartOf P stale := by
  obtain ⟨linked, _, _, _, _, _, record⟩ := initialised
  rw [linked, record]
  rfl

inductive UartEvent (P : Type) where
  | transmit (event : Transmitter.TxEvent P)
  | receive (event : RxEvent)

def passes {P : Type} : Transmitter.TxEvent P → List UInt8
  | .call _ c => [c]
  | _ => []

namespace RxRing

/-- Only characters that the device has received are in the ring. -/
structure Genuine (s : RxRing) : Prop where
  head : s.rxBufferHead < 2 ^ 64
  tail : s.rxBufferTail < 2 ^ 64
  keeps : s.ring.Keeps rxBufferSize (2 ^ 64) (· ∈ s.received)
  returned : ∀ c ∈ s.returned, c ∈ s.received

theorem Genuine.next {s : RxRing} {event : RxEvent} (genuine : s.Genuine) (enabled : s.Enabled event) :
    (s.next event).Genuine := by
  obtain ⟨head, tail, keeps, returned⟩ := genuine
  cases event with
  | accept c =>
    refine ⟨head, ulong_lt _, ?_, fun c' member => List.mem_append_left _ (returned c' member)⟩
    have wider : s.ring.Keeps rxBufferSize (2 ^ 64) (· ∈ s.received ++ [c]) :=
      keeps.mono fun value member => List.mem_append_left _ member
    exact wider.push (by decide) head (List.mem_append_right _ List.mem_cons_self)
  | readc =>
    obtain ⟨front, popped⟩ := keeps.pop (by decide) head tail enabled
    refine ⟨ulong_lt _, tail, popped, fun c member => ?_⟩
    rcases List.mem_append.mp member with earlier | last
    · exact returned c earlier
    · rw [List.mem_singleton.mp last]
      exact front

end RxRing

namespace Transmitter

variable {P : Type}

theorem flush_appended (lsr : List Bool) (s : Transmitter P) :
    (flush lsr s).appended = s.appended ∧ (flush lsr s).waiting = s.waiting := by
  induction lsr generalizing s with
  | nil => exact ⟨rfl, rfl⟩
  | cons idle rest ih =>
    unfold flush
    split
    · exact ih _
    · exact ⟨rfl, rfl⟩

/-- Only characters that callers have passed wait or are queued. -/
structure Passed (passed : List UInt8) (s : Transmitter P) : Prop where
  queued : s.Queued
  waiting : ∀ p c, s.waiting p = some c → c ∈ passed
  appended : ∀ c ∈ s.appended, c ∈ passed

variable {s : Transmitter P}

theorem Passed.sent {passed : List UInt8} (inside : s.Passed passed) : ∀ c ∈ s.thr, c ∈ passed := by
  obtain ⟨contents, _, split⟩ := inside.queued
  intro c sent
  apply inside.appended
  rw [split]
  exact List.mem_append_left _ sent

section
variable [DecidableEq P]

theorem next_waiting {event : TxEvent P} {p : P} {c : UInt8}
    (waits : (s.next event).waiting p = some c) : s.waiting p = some c ∨ c ∈ passes event := by
  cases event with
  | call q d =>
    by_cases same : p = q
    · subst same
      have brought : d = c := by simpa [next] using waits
      exact .inr (by simp [passes, brought])
    · exact .inl (by simpa [next, same] using waits)
  | interrupt lsr =>
    rw [next, (flush_appended lsr s).2] at waits
    exact .inl waits
  | proceed q lsr =>
    simp only [next] at waits
    split at waits
    next => exact .inl waits
    next =>
      split at waits
      next => exact .inl waits
      next =>
        rw [(flush_appended lsr _).2] at waits
        by_cases same : p = q
        · simp [same] at waits
        · exact .inl (by simpa [same] using waits)

theorem next_appended {event : TxEvent P} {c : UInt8}
    (member : c ∈ (s.next event).appended) : c ∈ s.appended ∨ ∃ p, s.waiting p = some c := by
  cases event with
  | call q d => exact .inl member
  | interrupt lsr =>
    rw [next, (flush_appended lsr s).1] at member
    exact .inl member
  | proceed q lsr =>
    simp only [next] at member
    split at member
    next => exact .inl member
    next d waited =>
      split at member
      next => exact .inl member
      next =>
        rw [(flush_appended lsr _).1] at member
        rcases List.mem_append.mp member with earlier | last
        · exact .inl earlier
        · exact .inr ⟨q, List.mem_singleton.mp last ▸ waited⟩

theorem Passed.next {passed : List UInt8} (inside : s.Passed passed) (event : TxEvent P) :
    (s.next event).Passed (passed ++ passes event) where
  queued := inside.queued.next event
  waiting p c waits := by
    rcases next_waiting waits with earlier | brought
    · exact List.mem_append_left _ (inside.waiting p c earlier)
    · exact List.mem_append_right _ brought
  appended c member := by
    rcases next_appended member with earlier | ⟨p, waited⟩
    · exact List.mem_append_left _ (inside.appended c earlier)
    · exact List.mem_append_left _ (inside.waiting p c waited)

end

end Transmitter

namespace Uart

variable {P : Type}

def Enabled (s : Uart P) : UartEvent P → Prop
  | .transmit event => s.tx.Enabled event
  | .receive event => s.rx.Enabled event

variable [DecidableEq P]

def next (s : Uart P) : UartEvent P → Uart P
  | .transmit event => { s with tx := s.tx.next event, passed := s.passed ++ passes event }
  | .receive event => { s with rx := s.rx.next event }

/-- Every character that was sent had been passed to the driver, and every one that was returned
had come from the device. -/
structure Silent (s : Uart P) : Prop where
  sent : ∀ c ∈ s.tx.thr, c ∈ s.passed
  returned : ∀ c ∈ s.rx.returned, c ∈ s.rx.received

theorem silent_of_empty {internal : Ns16550aInternal} {s : Uart P}
    (txEmpty : internal.txBufferHead = internal.txBufferTail)
    (rxEmpty : internal.rxBufferHead = internal.rxBufferTail) (txWord : internal.txBufferHead < 2 ^ 64)
    (rxWord : internal.rxBufferHead < 2 ^ 64)
    (run : Relation.ReflTransGen (EventStep Enabled next) (uartOf P internal) s) : s.Silent := by
  have kept : s.tx.Passed s.passed ∧ s.rx.Genuine := by
    refine run_preserves (fun s : Uart P => s.tx.Passed s.passed ∧ s.rx.Genuine) ?_ ⟨?_, ?_⟩ run
    · rintro before after ⟨tx, rx⟩ ⟨event, enabled, rfl⟩
      cases event with
      | transmit event => exact ⟨tx.next event, rx⟩
      | receive event => exact ⟨tx, rx.next enabled⟩
    · refine ⟨Transmitter.Initial.queued ⟨txWord, txEmpty, rfl, rfl⟩, ?_, ?_⟩
      · intro p c waits
        cases waits
      · intro c member
        cases member
    · have rxTail : internal.rxBufferTail < 2 ^ 64 := rxEmpty ▸ rxWord
      refine ⟨rxWord, rxTail, RingBuffer.keeps_of_empty rxEmpty, ?_⟩
      intro c member
      cases member
  exact ⟨kept.1.sent, kept.2.returned⟩

section
variable {internal : Ns16550aInternal}
  (silent : ∀ s, Relation.ReflTransGen (EventStep Enabled next) (uartOf P internal) s → s.Silent)
include silent

theorem transmit_empty_of_silent : internal.txBufferHead = internal.txBufferTail := by
  by_contra different
  let after := (uartOf P internal).next (.transmit (.interrupt [true]))
  have run : Relation.ReflTransGen (EventStep Enabled next) (uartOf P internal) after :=
    .single ⟨.transmit (.interrupt [true]), trivial, rfl⟩
  have sent : after.tx.thr = [internal.txBuffer (internal.txBufferHead % txBufferSize)] := by
    simp [after, uartOf, next, Transmitter.next, Transmitter.flush, different]
  have passed := (silent after run).sent (internal.txBuffer (internal.txBufferHead % txBufferSize)) (by simp [sent])
  simp [after, uartOf, next, passes] at passed

theorem receive_empty_of_silent : internal.rxBufferHead = internal.rxBufferTail := by
  by_contra different
  let after := (uartOf P internal).next (.receive .readc)
  have run : Relation.ReflTransGen (EventStep Enabled next) (uartOf P internal) after :=
    .single ⟨.receive .readc, different, rfl⟩
  have received := (silent after run).returned _ (List.mem_append_right _ List.mem_cons_self)
  cases received

end

end Uart

/-- After a successful initialisation, in every run nothing is sent that was not passed to the driver
and nothing is returned that did not come from the device, exactly if the memory of the record
held equal counters for either ring. -/
theorem uart_starts_silent_iff (P : Type) [DecidableEq P] {grants : Nat → Nat} {devId dev : Nat} {node : FdtNode}
    {s after : DriverState} (returned : ns16550aDriverInit grants devId node s = .ok (dev, after))
    (success : dev ≠ 0) (txWord : (s.internals (grants s.calls)).txBufferHead < 2 ^ 64)
    (rxWord : (s.internals (grants s.calls)).rxBufferHead < 2 ^ 64) :
    (∀ reached, Relation.ReflTransGen (EventStep Uart.Enabled Uart.next)
        (uartOf P (after.internals (after.devices dev).driverInternal)) reached → reached.Silent) ↔
      (s.internals (grants s.calls)).txBufferHead = (s.internals (grants s.calls)).txBufferTail ∧
        (s.internals (grants s.calls)).rxBufferHead = (s.internals (grants s.calls)).rxBufferTail := by
  rw [uartOf_initialised P (ns16550aDriverInit_success returned success)]
  constructor
  · intro silent
    exact ⟨Uart.transmit_empty_of_silent silent, Uart.receive_empty_of_silent silent⟩
  · rintro ⟨txEmpty, rxEmpty⟩ reached run
    exact Uart.silent_of_empty txEmpty rxEmpty txWord rxWord run

theorem serialNode_starts {s : DriverState} (calls : s.calls = 0) :
    ∃ after, ns16550aDriverInit (· + 1) 1 (serialNode 10) s = .ok (2, after) := by
  have interrupts : intProperty (serialNode 10) "interrupts" = some 10 := by decide
  have clock : intProperty (serialNode 10) "clock-frequency" = some 3686400 := by decide
  have region : regPair (serialNode 10) = some (0x10000000, 0x100) := by decide
  simp [ns16550aDriverInit, DriverState.allocThree, DriverState.alloc, ns16550aConfigure, ns16550aActivate,
    halTrapRegisterIrq, DriverState.setIrq, DriverState.setDevice, calls, interrupts, clock, region]

theorem uart_starts_silent_zeroed :
    ∃ after, ns16550aDriverInit (· + 1) 1 (serialNode 10) idleDrivers = .ok (2, after) ∧
      ∀ reached, Relation.ReflTransGen (EventStep Uart.Enabled Uart.next)
        (uartOf Bool (after.internals (after.devices 2).driverInternal)) reached → reached.Silent := by
  obtain ⟨after, returned⟩ := @serialNode_starts idleDrivers rfl
  exact ⟨after, returned, (uart_starts_silent_iff Bool returned (by decide) (by decide) (by decide)).mpr ⟨rfl, rfl⟩⟩

def recycledDrivers : DriverState :=
  { idleDrivers with internals := fun _ => { blankInternal with txBuffer := fun _ => 83, txBufferTail := 1 } }

/-- The first interrupt sends a character that nobody has written. -/
theorem uart_sends_stale_character :
    ∃ after, ns16550aDriverInit (· + 1) 1 (serialNode 10) recycledDrivers = .ok (2, after) ∧
      ∃ reached, Relation.ReflTransGen (EventStep Uart.Enabled Uart.next)
          (uartOf Bool (after.internals (after.devices 2).driverInternal)) reached ∧
        reached.tx.thr = [83] ∧ reached.passed = [] ∧ ¬ reached.Silent := by
  obtain ⟨after, returned⟩ := @serialNode_starts recycledDrivers rfl
  refine ⟨after, returned, _, .single ⟨.transmit (.interrupt [true]), trivial, rfl⟩, ?_⟩
  rw [uartOf_initialised Bool (ns16550aDriverInit_success returned (by decide))]
  refine ⟨by decide, by decide, fun silent => ?_⟩
  exact absurd (silent.sent 83) (by decide)

end Kalorona.Device
