import Kalorona.Data.RingBuffer
import Kalorona.Device.Ns16550a

namespace Kalorona.Device

open Kalorona.Data

/-! # The two rings of the UART driver

The interrupt handler fills the receive ring; whoever holds `tx_lock` sends from the transmit ring
while the device is ready.
-/

def txBufferSize : Nat := 256

/-- The receive ring, with all characters that the handler has accepted and all that
`ns16550a_driver_readc` has returned. -/
structure RxRing where
  rxBuffer : Nat → UInt8
  rxBufferHead : Nat
  rxBufferTail : Nat
  received : List UInt8
  returned : List UInt8

inductive RxEvent where
  /-- One round of the loop of `ns16550a_driver_interrupt_handler`. -/
  | accept (c : UInt8)
  /-- A call of `ns16550a_driver_readc` returns. -/
  | readc
deriving DecidableEq, Repr

namespace RxRing

def Enabled (s : RxRing) : RxEvent → Prop
  | .accept _ => True
  | .readc => s.rxBufferHead ≠ s.rxBufferTail

instance Enabled.decidable (s : RxRing) (event : RxEvent) : Decidable (s.Enabled event) := by
  cases event <;> unfold Enabled <;> infer_instance

def next (s : RxRing) : RxEvent → RxRing
  | .accept c =>
    { s with
      rxBuffer := Function.update s.rxBuffer (s.rxBufferTail % rxBufferSize) c
      rxBufferTail := ulong (s.rxBufferTail + 1)
      received := s.received ++ [c] }
  | .readc =>
    { s with
      rxBufferHead := ulong (s.rxBufferHead + 1)
      returned := s.returned ++ [s.rxBuffer (s.rxBufferHead % rxBufferSize)] }

def level (s : RxRing) : Nat := ulongSub s.rxBufferTail s.rxBufferHead

structure Initial (s : RxRing) : Prop where
  word : s.rxBufferHead < 2 ^ 64
  empty : s.rxBufferHead = s.rxBufferTail
  received : s.received = []
  returned : s.returned = []

/-- What was returned is what was received, in order, each character once at most; and the
counters are no further apart than the ring is long. -/
structure Delivers (s : RxRing) : Prop where
  inOrder : s.returned.Sublist s.received
  level : s.level ≤ rxBufferSize

def Room (s : RxRing) : RxEvent → Prop
  | .accept _ => s.level < rxBufferSize
  | .readc => True

def ring (s : RxRing) : RingBuffer UInt8 := ⟨s.rxBuffer, s.rxBufferHead, s.rxBufferTail⟩

/-- What was received was returned, in order, or is in the ring. -/
def Queued (s : RxRing) : Prop :=
  ∃ contents, s.ring.Holds rxBufferSize (2 ^ 64) contents ∧ s.received = s.returned ++ contents

variable {s : RxRing}

theorem Initial.queued (initial : s.Initial) : s.Queued :=
  ⟨[], RingBuffer.holds_nil initial.word initial.empty, by rw [initial.received, initial.returned]; rfl⟩

theorem Queued.delivers (queued : s.Queued) : s.Delivers := by
  obtain ⟨contents, holds, split⟩ := queued
  have level : s.level = contents.length := holds.level_eq (by decide)
  refine ⟨?_, level ▸ holds.fits⟩
  rw [split]
  exact List.sublist_append_left _ _

theorem Queued.next {event : RxEvent} (queued : s.Queued) (enabled : s.Enabled event)
    (room : s.Room event) : (s.next event).Queued := by
  obtain ⟨contents, holds, split⟩ := queued
  have level : s.level = contents.length := holds.level_eq (by decide)
  cases event with
  | accept c =>
    have shorter : contents.length < rxBufferSize := level ▸ room
    refine ⟨contents ++ [c], holds.push (by decide) shorter c, ?_⟩
    simp only [RxRing.next, split, List.append_assoc]
  | readc =>
    cases contents with
    | nil => exact absurd ((holds.empty_iff (by decide)).mpr rfl) enabled
    | cons first rest =>
      obtain ⟨front, popped⟩ := holds.pop (by decide)
      refine ⟨rest, popped, ?_⟩
      have value : s.rxBuffer (s.rxBufferHead % rxBufferSize) = first := front
      simp only [RxRing.next, value, split, List.append_assoc, List.singleton_append]

theorem level_accept (word : s.rxBufferHead < 2 ^ 64) (c : UInt8) :
    (s.next (.accept c)).level = (s.level + 1) % 2 ^ 64 :=
  @RingBuffer.level_push UInt8 rxBufferSize (2 ^ 64) s.ring c word

/-- The receive ring delivers in order, up to every moment of a run, exactly if no character
is accepted while `RX_BUFFER_SIZE` of them wait. -/
theorem receive_ring_delivers_iff {start : RxRing} {events : List RxEvent} (initial : start.Initial)
    (allows : Allows Enabled next start events) :
    (∀ before, before <+: events → (before.foldl next start).Delivers) ↔
      ∀ before event, before ++ [event] <+: events → (before.foldl next start).Room event := by
  constructor
  · intro delivers before event beginning
    cases event with
    | readc => trivial
    | accept c =>
      have shorter : before <+: events := (List.prefix_append _ _).trans beginning
      have word : (before.foldl next start).rxBufferHead < 2 ^ 64 := by
        refine beginnings_preserve (fun s : RxRing => s.rxBufferHead < 2 ^ 64)
          (fun _ _ => True) ?_ allows initial.word (fun _ _ _ => trivial) shorter
        intro s event bounded _ _
        cases event with
        | accept c => exact bounded
        | readc => exact ulong_lt _
      have here := (delivers before shorter).level
      have later := (delivers _ beginning).level
      rw [List.foldl_append, List.foldl_cons, List.foldl_nil, level_accept word] at later
      unfold rxBufferSize at here later
      show (before.foldl next start).level < 256
      omega
  · intro room before beginning
    have queued : (before.foldl next start).Queued :=
      beginnings_preserve Queued Room (fun _ _ queued enabled room => queued.next enabled room) allows
        initial.queued room beginning
    exact queued.delivers

def lastRxRing : RxRing := ⟨fun _ => 0, 2 ^ 64 - 1, 2 ^ 64 - 1, [], []⟩

theorem receive_ring_delivers_iff_wrapping :
    (∀ before, before <+: [.accept 97, .accept 98, .readc] → (before.foldl next lastRxRing).Delivers) ↔
    ∀ before event, before ++ [event] <+: [.accept 97, .accept 98, .readc] →
      (before.foldl next lastRxRing).Room event :=
  receive_ring_delivers_iff ⟨by decide, rfl, rfl, rfl⟩ (by decide)

def emptyRxRing : RxRing := ⟨fun _ => 0, 0, 0, [], []⟩

def burst : List RxEvent := List.replicate 256 (.accept 97) ++ [.accept 98, .readc, .readc]

theorem receive_ring_overruns : emptyRxRing.Initial ∧ Allows Enabled next emptyRxRing burst ∧
      ((burst.take 257).foldl next emptyRxRing).level = 257 ∧
      (burst.foldl next emptyRxRing).returned = [98, 97] ∧
      ¬ (burst.foldl next emptyRxRing).returned.Sublist (burst.foldl next emptyRxRing).received := by
  refine ⟨⟨by decide, rfl, rfl, rfl⟩, ?_, ?_, ?_, ?_⟩
  all_goals decide +kernel

end RxRing

namespace Receiver

variable {P W : Type} [DecidableEq P] {address : Nat} {s : Receiver P W} {ring : RxRing}

/-- The ring that handler and readers share; a character is accepted when it is stored, although the
tail is advanced in a step of its own. -/
structure Shows (s : Receiver P W) (ring : RxRing) : Prop where
  buffer : ring.rxBuffer = s.rxBuffer
  head : ring.rxBufferHead = s.rxBufferHead
  tail : ring.rxBufferTail = if s.handler = .stored then ulong (s.rxBufferTail + 1) else s.rxBufferTail

/-- What a step of the receiver does to the ring. -/
def rxEvents (s : Receiver P W) : ReceiverEvent P W → List RxEvent
  | .store c => [.accept c]
  | .test _ => if s.rxBufferHead = s.rxBufferTail then [] else [.readc]
  | _ => []

def rxRun (address : Nat) : Receiver P W → List (ReceiverEvent P W) → List RxEvent
  | _, [] => []
  | s, event :: rest => s.rxEvents event ++ rxRun address (s.next address event) rest

theorem Shows.next {event : ReceiverEvent P W} (shows : s.Shows ring) (enabled : s.Enabled address event) :
    (s.next address event).Shows ((s.rxEvents event).foldl RxRing.next ring) := by
  obtain ⟨buffer, head, tail⟩ := shows
  cases event with
  | kernel event => exact ⟨buffer, head, tail⟩
  | acquire p => exact ⟨buffer, head, tail⟩
  | release p => exact ⟨buffer, head, tail⟩
  | test p =>
    simp only [Receiver.next, rxEvents]
    split
    · exact ⟨buffer, head, tail⟩
    · exact ⟨buffer, congrArg (fun head => ulong (head + 1)) head, tail⟩
  | store c =>
    have idle : s.handler = .idle := enabled
    rw [if_neg (by simp [idle])] at tail
    refine ⟨?_, head, ?_⟩
    · simp [rxEvents, RxRing.next, Receiver.next, buffer, tail]
    · simp [rxEvents, RxRing.next, Receiver.next, tail]
  | advance =>
    have stored : s.handler = .stored := enabled
    exact ⟨buffer, head, tail.trans (if_pos stored)⟩
  | wakeup =>
    have waking : s.handler = .waking := enabled.1
    exact ⟨buffer, head, tail.trans (if_neg (by simp [waking]))⟩

theorem Shows.returns (shows : s.Shows ring) (some : s.rxBufferHead ≠ s.rxBufferTail) (p : P) :
    (ring.next .readc).returned = ring.returned ++ [(s.next address (.test p)).ret p] := by
  simp [RxRing.next, Receiver.next, some, shows.buffer, shows.head]

/-- Whatever handler and readers do in whatever order is a run of the ring. -/
theorem Shows.run {events : List (ReceiverEvent P W)} (shows : s.Shows ring)
    (allows : Allows (Enabled address) (Receiver.next address) s events) :
    (events.foldl (Receiver.next address) s).Shows ((rxRun address s events).foldl RxRing.next ring) := by
  induction events generalizing s ring with
  | nil => exact shows
  | cons event rest ih =>
    rw [rxRun, List.foldl_append]
    exact ih (shows.next allows.1) allows.2

end Receiver

/-- The transmit ring, with the characters of the calls of `ns16550a_driver_putc_async` that
are under way, those that were put into the ring and those that were written to `THR`. -/
structure Transmitter (P : Type) where
  txBuffer : Nat → UInt8
  txBufferHead : Nat
  txBufferTail : Nat
  waiting : P → Option UInt8
  appended : List UInt8
  thr : List UInt8

namespace Transmitter

variable {P : Type}

/-- The loop of `ns16550a_driver_flush`, with what the tests of `UART_LSR_TX_IDLE` find. -/
def flush : List Bool → Transmitter P → Transmitter P
  | [], s => s
  | idle :: rest, s =>
    if s.txBufferHead ≠ s.txBufferTail ∧ idle then
      flush rest { s with
        txBufferHead := ulong (s.txBufferHead + 1)
        thr := s.thr ++ [s.txBuffer (s.txBufferHead % txBufferSize)] }
    else s

inductive TxEvent (P : Type) where
  /-- A process calls `ns16550a_driver_putc_async`. -/
  | call (p : P) (c : UInt8)
  /-- Its next critical section, up to the release of `tx_lock` or to `proc_sleep`. -/
  | proceed (p : P) (lsr : List Bool)
  /-- The critical section of `ns16550a_driver_interrupt_handler`. -/
  | interrupt (lsr : List Bool)
deriving DecidableEq, Repr

def Enabled (s : Transmitter P) : TxEvent P → Prop
  | .call p _ => s.waiting p = none
  | .proceed p _ => s.waiting p ≠ none
  | .interrupt _ => True

instance Enabled.decidable (s : Transmitter P) (event : TxEvent P) : Decidable (s.Enabled event) := by
  cases event <;> unfold Enabled <;> infer_instance

variable [DecidableEq P]

/-- The section of a call that finds the ring full changes nothing: the process sleeps. -/
def next (s : Transmitter P) : TxEvent P → Transmitter P
  | .call p c => { s with waiting := Function.update s.waiting p (some c) }
  | .proceed p lsr =>
    match s.waiting p with
    | none => s
    | some c =>
      if ulong (s.txBufferHead + txBufferSize) = s.txBufferTail then s
      else flush lsr { s with
        txBuffer := Function.update s.txBuffer (s.txBufferTail % txBufferSize) c
        txBufferTail := ulong (s.txBufferTail + 1)
        waiting := Function.update s.waiting p none
        appended := s.appended ++ [c] }
  | .interrupt lsr => flush lsr s

structure Initial (s : Transmitter P) : Prop where
  word : s.txBufferHead < 2 ^ 64
  empty : s.txBufferHead = s.txBufferTail
  appended : s.appended = []
  thr : s.thr = []

def ring (s : Transmitter P) : RingBuffer UInt8 := ⟨s.txBuffer, s.txBufferHead, s.txBufferTail⟩

def Queued (s : Transmitter P) : Prop :=
  ∃ contents, s.ring.Holds txBufferSize (2 ^ 64) contents ∧ s.appended = s.thr ++ contents

omit [DecidableEq P] in
theorem Initial.queued {s : Transmitter P} (initial : s.Initial) : s.Queued :=
  ⟨[], RingBuffer.holds_nil initial.word initial.empty, by rw [initial.appended, initial.thr]; rfl⟩

omit [DecidableEq P] in
theorem Queued.flush {s : Transmitter P} (queued : s.Queued) (lsr : List Bool) :
    (Transmitter.flush lsr s).Queued := by
  induction lsr generalizing s with
  | nil => exact queued
  | cons idle rest ih =>
    unfold Transmitter.flush
    split
    next sends =>
      obtain ⟨contents, holds, split⟩ := queued
      cases contents with
      | nil => exact absurd ((holds.empty_iff (by decide)).mpr rfl) sends.1
      | cons first later =>
        obtain ⟨front, popped⟩ := holds.pop (by decide)
        have value : s.txBuffer (s.txBufferHead % txBufferSize) = first := front
        refine ih ⟨later, popped, ?_⟩
        simp only [value, split, List.append_assoc, List.singleton_append]
    next => exact queued

theorem Queued.next {s : Transmitter P} (queued : s.Queued) (event : TxEvent P) : (s.next event).Queued := by
  cases event with
  | call p c => exact queued
  | interrupt lsr => exact queued.flush lsr
  | proceed p lsr =>
    cases under : s.waiting p with
    | none => simpa only [Transmitter.next, under] using queued
    | some c =>
      simp only [Transmitter.next, under]
      split
      next => exact queued
      next room =>
        obtain ⟨contents, holds, split⟩ := queued
        have shorter : contents.length < txBufferSize :=
          Nat.lt_of_le_of_ne holds.fits fun full => room ((holds.full_iff (by decide)).mpr full)
        apply Queued.flush
        refine ⟨contents ++ [c], holds.push (by decide) shorter c, ?_⟩
        simp only [split, List.append_assoc]

/-- In every run the counters are no further apart than the ring is long, and what was put
into the ring is what was written to `THR`, and after it what the ring holds. -/
theorem transmit_ring_fifo {start s : Transmitter P} (initial : start.Initial)
    (run : Relation.ReflTransGen (EventStep Enabled next) start s) :
    ulongSub s.txBufferTail s.txBufferHead ≤ txBufferSize ∧
      ∃ rest, s.appended = s.thr ++ rest ∧ rest.length = ulongSub s.txBufferTail s.txBufferHead ∧
        ∀ offset, (inside : offset < rest.length) →
          s.txBuffer (ulong (s.txBufferHead + offset) % txBufferSize) = rest[offset] := by
  have queued : s.Queued := by
    refine run_preserves Queued ?_ initial.queued run
    rintro before after queued ⟨event, _, rfl⟩
    exact queued.next event
  obtain ⟨contents, holds, split⟩ := queued
  have level : ulongSub s.txBufferTail s.txBufferHead = contents.length := holds.level_eq (by decide)
  refine ⟨level ▸ holds.fits, contents, split, level.symm, fun offset inside => ?_⟩
  rw [ulong, Nat.mod_mod_of_dvd _ (by decide)]
  exact holds.slots offset inside

def lastTransmitter : Transmitter Bool := ⟨fun _ => 0, 2 ^ 64 - 1, 2 ^ 64 - 1, fun _ => none, [], []⟩

def twoWriters : List (TxEvent Bool) :=
  [.call false 97, .call true 98, .proceed true [false], .proceed false [], .interrupt [true, false]]

theorem transmit_ring_fifo_wrapping :
    let s := twoWriters.foldl next lastTransmitter
    s.thr = [98] ∧ ulongSub s.txBufferTail s.txBufferHead ≤ txBufferSize ∧
      ∃ rest, s.appended = s.thr ++ rest ∧ rest.length = ulongSub s.txBufferTail s.txBufferHead ∧
        ∀ offset, (inside : offset < rest.length) →
          s.txBuffer (ulong (s.txBufferHead + offset) % txBufferSize) = rest[offset] :=
  ⟨by decide, transmit_ring_fifo ⟨by decide, rfl, rfl, rfl⟩ (run_of_allows (by decide))⟩

end Transmitter

end Kalorona.Device
