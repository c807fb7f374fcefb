import Kalorona.Proc.Sleep

namespace Kalorona.Proc

open Kalorona.Data Sleep

/-! # No wakeup is lost

Processes test a condition on some data with a spinlock held and call `proc_sleep` while it is
false.  Whoever holds the spinlock and is not in `proc_sleep` may change the data, and any thread
may call `proc_wakeup`.  The state records which threads have made the condition of which process
true since they last completed `proc_wakeup`.
-/

inductive WaitCode where
  | outside
  /-- About to test the condition. -/
  | testing
  /-- The condition was found true. -/
  | past
deriving DecidableEq, Repr

def WaitCode.holdsLock : WaitCode → Bool
  | .outside => false
  | _ => true

def waitSite {P : Type} (chan : Chan P) : Site P WaitCode where
  chan := chan
  outside := .outside
  again := .testing
  holds := WaitCode.holdsLock
  holds_outside := rfl
  holds_again := rfl

/-- `wants` is the argument of the condition for each process. -/
structure Room (P W D A : Type) where
  kernel : State P W WaitCode
  data : D
  wants : P → A
  made : Thread P W → P → Prop

inductive RoomEvent (P W D A : Type) where
  | kernel (event : Event P W)
  /-- Acquire the spinlock, on the way to the loop. -/
  | acquire (p : P) (argument : A)
  /-- The test fails, and `proc_sleep` is called. -/
  | sleep (p : P)
  /-- The test succeeds. -/
  | pass (p : P)
  /-- Release the spinlock, after the loop or leaving it. -/
  | release (p : P)
  | write (thread : Thread P W) (data : D)
  | wakeup (thread : Thread P W)

variable {P W D A : Type} [DecidableEq P]

/-- The thread can take a step of its own, outside `proc_sleep`. -/
def Sleep.State.Acts (s : State P W WaitCode) : Thread P W → Prop
  | .process p => (s.procs p).place.around = true ∧ (s.procs p).state = .running
  | .handler _ => True

instance Sleep.State.Acts.decidable (s : State P W WaitCode) (thread : Thread P W) : Decidable (s.Acts thread) := by
  cases thread <;> unfold Acts <;> infer_instance

def Sleep.Thread.isHandler : Thread P W → Bool
  | .process _ => false
  | .handler _ => true

variable {chan : Chan P}

namespace Room

def Enabled (condition : A → D → Prop) (chan : Chan P) (s : Room P W D A) : RoomEvent P W D A → Prop
  | .kernel event => Sleep.Enabled (waitSite chan) s.kernel event
  | .acquire p _ => s.kernel.Executes p .outside ∧ s.kernel.lock = none
  | .sleep p => s.kernel.Executes p .testing ∧ ¬ condition (s.wants p) s.data
  | .pass p => s.kernel.Executes p .testing ∧ condition (s.wants p) s.data
  | .release p => s.kernel.Executes p .testing ∨ s.kernel.Executes p .past
  | .write thread _ => s.kernel.Acts thread ∧ s.kernel.lock = some thread
  | .wakeup thread => s.kernel.Acts thread ∧ s.kernel.manager = none

instance Enabled.decidable [DecidableEq W] (condition : A → D → Prop)
    [∀ argument data, Decidable (condition argument data)] (chan : Chan P) (s : Room P W D A)
    (event : RoomEvent P W D A) : Decidable (s.Enabled condition chan event) := by
  cases event <;> unfold Enabled <;> infer_instance

def next (condition : A → D → Prop) (chan : Chan P) (s : Room P W D A) : RoomEvent P W D A → Room P W D A
  | .kernel event => { s with kernel := Sleep.next (waitSite chan) s.kernel event }
  | .acquire p argument =>
    { s with
      kernel := s.kernel.acquire p .testing
      wants := Function.update s.wants p argument
      made := fun thread q => q ≠ p ∧ s.made thread q }
  | .sleep p => { s with kernel := s.kernel.moveTo p .entering }
  | .pass p => { s with kernel := s.kernel.moveTo p (.code .past) }
  | .release p => { s with kernel := s.kernel.release p .outside }
  | .write thread data =>
    { s with
      data
      made := fun other q => s.made other q ∨
        (other = thread ∧ ¬ condition (s.wants q) s.data ∧ condition (s.wants q) data) }
  | .wakeup thread =>
    { s with
      kernel := s.kernel.wakeAll (some chan)
      made := fun other q => other ≠ thread ∧ s.made other q }

structure Initial (chan : Chan P) (s : Room P W D A) : Prop where
  quiet : Quiet (waitSite chan) s.kernel
  made : ∀ thread p, ¬ s.made thread p

/-- The condition of a process is false until it has released the spinlock in `proc_sleep`;
if it becomes true after that, somebody has made it true and has not yet called
`proc_wakeup`. -/
structure Attended (condition : A → D → Prop) (chan : Chan P) (s : Room P W D A) : Prop where
  sound : Sound (waitSite chan) s.kernel
  failed : ∀ p, (s.kernel.procs p).place = .entering ∨ (s.kernel.procs p).place = .both →
    ¬ condition (s.wants p) s.data
  pending : ∀ p, Waiting (waitSite chan) (s.kernel.procs p) → condition (s.wants p) s.data →
    ∃ thread, s.made thread p

namespace Attended

variable {condition : A → D → Prop} {chan : Chan P} {s : Room P W D A} {p : P}

section
variable (attended : s.Attended condition chan)
include attended

theorem kernelStep {event : Event P W}
    (enabled : Sleep.Enabled (waitSite chan) s.kernel event) : Attended condition chan
      { s with kernel := Sleep.next (waitSite chan) s.kernel event } := by
  have follows := follows_next enabled
  refine ⟨attended.sound.next enabled, fun q place => ?_, fun q waiting holds => ?_⟩
  · have moves := (follows q).moves
    rcases place with entering | both
    · rw [entering] at moves
      exact attended.failed q (.inl moves.to_entering)
    · rw [both] at moves
      exact attended.failed q moves.to_both
  · rcases (follows q).waits waiting with waited | both
    · exact attended.pending q waited holds
    · exact absurd holds (attended.failed q (.inr both))

theorem moved {k after : WaitCode} {kernel : State P W WaitCode} {wants : P → A} {made : Thread P W → P → Prop}
    (executes : s.kernel.Executes p k) (sound : Sound (waitSite chan) kernel)
    (procs : kernel.procs = (s.kernel.moveTo p (.code after)).procs) (others : ∀ q, q ≠ p → wants q = s.wants q)
    (kept : ∀ q thread, q ≠ p → s.made thread q → made thread q) :
    Attended condition chan ⟨kernel, s.data, wants, made⟩ := by
  refine ⟨sound, fun q place => ?_, fun q waiting holds => ?_⟩
  · have blocked : Blocked (waitSite chan) (kernel.procs q) := by
      rcases place with entering | both
      · exact .inl entering
      · exact .inr (.inl both)
    rw [procs] at blocked
    have different := (executes.blocked_of_moveTo blocked).1
    dsimp only at place ⊢
    rw [procs, State.moveTo_of_ne _ _ different] at place
    rw [others q different]
    exact attended.failed q place
  · have blocked : Blocked (waitSite chan) (kernel.procs q) := .inr (.inr waiting)
    rw [procs] at blocked
    have different := (executes.blocked_of_moveTo blocked).1
    dsimp only at waiting holds ⊢
    rw [procs, State.moveTo_of_ne _ _ different] at waiting
    rw [others q different] at holds
    obtain ⟨thread, pending⟩ := attended.pending q waiting holds
    exact ⟨thread, kept q thread different pending⟩

theorem sleep (executes : s.kernel.Executes p .testing) (fails : ¬ condition (s.wants p) s.data) :
    Attended condition chan { s with kernel := s.kernel.moveTo p .entering } := by
  refine ⟨attended.sound.executes_moveTo executes rfl rfl, fun q place => ?_, fun q waiting holds => ?_⟩
  all_goals
    by_cases same : q = p
  · rw [same]
    exact fails
  · dsimp only at place
    rw [State.moveTo_of_ne _ _ same] at place
    exact attended.failed q place
  · rw [same] at holds
    exact absurd holds fails
  · dsimp only at waiting
    rw [State.moveTo_of_ne _ _ same] at waiting
    exact attended.pending q waiting holds

theorem write {thread : Thread P W}
    (acts : s.kernel.Acts thread) (holder : s.kernel.lock = some thread) (data : D) :
    Attended condition chan (s.next condition chan (.write thread data)) := by
  refine ⟨attended.sound, fun q place => ?_, fun q waiting holds => ?_⟩
  · have keeps : (waitSite chan).keeps (s.kernel.procs q).place = true := by
      rcases place with entering | both
      · rw [show (s.kernel.procs q).place = .entering from entering]
        rfl
      · rw [show (s.kernel.procs q).place = .both from both]
        rfl
    cases holder.symm.trans ((attended.sound.lock q).mp keeps)
    have around : (s.kernel.procs q).place.around = true := acts.1
    rcases place with entering | both
    · rw [show (s.kernel.procs q).place = .entering from entering] at around
      cases around
    · rw [show (s.kernel.procs q).place = .both from both] at around
      cases around
  · by_cases before : condition (s.wants q) s.data
    · obtain ⟨other, made⟩ := attended.pending q waiting before
      exact ⟨other, .inl made⟩
    · exact ⟨thread, .inr ⟨rfl, before, holds⟩⟩

theorem wakeup (free : s.kernel.manager = none) (thread : Thread P W) :
    Attended condition chan (s.next condition chan (.wakeup thread)) := by
  refine ⟨attended.sound.wakeAll _, fun q place => ?_, fun q waiting _ => ?_⟩
  · rw [show (s.next condition chan (.wakeup thread)).kernel = s.kernel.wakeAll (some chan) from rfl,
      State.wakeAll_place] at place
    exact attended.failed q place
  · exact absurd waiting (attended.sound.not_waiting_wakeAll free q)

theorem next {event : RoomEvent P W D A}
    (enabled : s.Enabled condition chan event) : (s.next condition chan event).Attended condition chan := by
  cases event with
  | kernel event => exact attended.kernelStep enabled
  | acquire p argument =>
    refine attended.moved enabled.1 (attended.sound.executes_acquire enabled.1 enabled.2 rfl) rfl ?_ ?_
    · intro q different
      exact Function.update_of_ne different ..
    · intro q thread different made
      exact ⟨different, made⟩
  | sleep p => exact attended.sleep enabled.1 enabled.2
  | pass p =>
    exact attended.moved enabled.1 (attended.sound.executes_moveTo enabled.1 rfl rfl) rfl
      (fun _ _ => rfl) (fun _ _ _ made => made)
  | release p =>
    rcases enabled with executes | executes
    all_goals
      exact attended.moved executes (attended.sound.executes_release executes rfl rfl) rfl
        (fun _ _ => rfl) (fun _ _ _ made => made)
  | write thread data => exact attended.write enabled.1 enabled.2 data
  | wakeup thread => exact attended.wakeup enabled.2 thread

end

end Attended

omit [DecidableEq P] in
theorem Initial.attended {s : Room P W D A} (initial : s.Initial chan)
    (condition : A → D → Prop) : s.Attended condition chan := by
  have places := initial.quiet.places
  refine ⟨initial.quiet.sound, fun q place => ?_, fun q waiting _ => ?_⟩
  · simp [places q] at place
  · rcases waiting with marking | ⟨sleeping, onChan⟩
    · simp [places q] at marking
    · exact absurd onChan (initial.quiet.sleeps q sleeping)

theorem Initial.attended_of_run {condition : A → D → Prop}
    {start s : Room P W D A} (initial : start.Initial chan)
    (run : Relation.ReflTransGen (EventStep (Enabled condition chan) (next condition chan)) start s) :
    s.Attended condition chan := by
  refine run_preserves (Attended condition chan) ?_ (initial.attended condition) run
  rintro before after attended ⟨event, enabled, rfl⟩
  exact attended.next enabled

end Room

/-! ## `syscall_sleep` and `tick_handler`

The data is `tick` and the argument of a process is the `start` and the `ticks` of its
call of `syscall_sleep`. -/

/-- The loop of `syscall_sleep` goes on while `tick - start < ticks`. -/
def tickReached (call : Nat × Nat) (tick : Nat) : Prop := ¬ ulongSub tick call.1 < call.2

instance (call : Nat × Nat) (tick : Nat) : Decidable (tickReached call tick) :=
  inferInstanceAs (Decidable (¬ _))

/-- The events of a room in which `syscall_sleep` and `tick_handler` are all that uses
`tick_lock`. -/
def TickEnabled (chan : Chan P) (s : Room P W Nat (Nat × Nat)) (event : RoomEvent P W Nat (Nat × Nat)) : Prop :=
  s.Enabled tickReached chan event ∧
    match event with
    -- start = tick
    | .acquire _ (start, _) => start = s.data
    -- goodbye, or the end of the loop
    | .release p => (s.kernel.procs p).killed = true ∨ s.kernel.Executes p .past
    -- tick++
    | .write thread tick => thread.isHandler = true ∧ tick = ulong (s.data + 1)
    | _ => True

instance TickEnabled.decidable [DecidableEq W] (chan : Chan P) (s : Room P W Nat (Nat × Nat)) :
    (event : RoomEvent P W Nat (Nat × Nat)) → Decidable (TickEnabled chan s event)
  | .kernel _ => inferInstanceAs (Decidable (_ ∧ True))
  | .acquire _ (_, _) => inferInstanceAs (Decidable (_ ∧ _ = _))
  | .sleep _ => inferInstanceAs (Decidable (_ ∧ True))
  | .pass _ => inferInstanceAs (Decidable (_ ∧ True))
  | .release _ => inferInstanceAs (Decidable (_ ∧ (_ ∨ _)))
  | .write _ _ => inferInstanceAs (Decidable (_ ∧ _ ∧ _))
  | .wakeup _ => inferInstanceAs (Decidable (_ ∧ True))

/-- A process is past the loop of `syscall_sleep` only while its ticks have passed. -/
def TickPast (s : Room P W Nat (Nat × Nat)) : Prop :=
  ∀ p, (s.kernel.procs p).place = .code .past → tickReached (s.wants p) s.data

theorem TickPast.next {s : Room P W Nat (Nat × Nat)}
    {event : RoomEvent P W Nat (Nat × Nat)} (past : TickPast s)
    (sound : Sound (waitSite chan) s.kernel) (enabled : TickEnabled chan s event) :
    TickPast (s.next tickReached chan event) := by
  obtain ⟨enabled, restricted⟩ := enabled
  intro q place
  cases event with
  | kernel event =>
    exact past q (((follows_next enabled q).moves.code_iff (by simp [waitSite])).mp place)
  | acquire p call =>
    by_cases same : q = p
    · simp [Room.next, same] at place
    · simp only [Room.next, State.acquire_procs, State.moveTo_of_ne _ _ same] at place ⊢
      rw [Function.update_of_ne same]
      exact past q place
  | sleep p =>
    by_cases same : q = p
    · simp [Room.next, same] at place
    · simp only [Room.next, State.moveTo_of_ne _ _ same] at place
      exact past q place
  | pass p =>
    by_cases same : q = p
    · rw [same]
      exact enabled.2
    · simp only [Room.next, State.moveTo_of_ne _ _ same] at place
      exact past q place
  | release p =>
    by_cases same : q = p
    · simp [Room.next, same] at place
    · simp only [Room.next, State.release_procs, State.moveTo_of_ne _ _ same] at place
      exact past q place
  | write thread tick =>
    have held := (sound.lock q).mp (by rw [show (s.kernel.procs q).place = .code .past from place]; rfl)
    cases held.symm.trans enabled.2
    cases restricted.1
  | wakeup thread =>
    simp only [Room.next, State.wakeAll_place] at place
    exact past q place

theorem Room.Initial.tick_of_run {start s : Room P W Nat (Nat × Nat)} (initial : start.Initial chan)
    (run : Relation.ReflTransGen (EventStep (TickEnabled chan) (Room.next tickReached chan)) start s) :
    s.Attended tickReached chan ∧ TickPast s := by
  refine run_preserves (fun s => s.Attended tickReached chan ∧ TickPast s) ?_ ⟨initial.attended tickReached, ?_⟩ run
  · rintro before after ⟨attended, past⟩ ⟨event, enabled, rfl⟩
    exact ⟨attended.next enabled.1, past.next attended.sound enabled⟩
  · intro p place
    cases (initial.quiet.places p).symm.trans place

/-- Whoever sleeps on the channel although its condition is true sleeps only until somebody
who has made it true has called `proc_wakeup`; and so for `syscall_sleep`, which returns 0
only when its ticks have passed. -/
theorem no_lost_wakeup : (∀ {P W D A : Type} [DecidableEq P] (condition : A → D → Prop) (chan : Chan P)
      {start s : Room P W D A}, start.Initial chan →
      Relation.ReflTransGen (EventStep (Room.Enabled condition chan) (Room.next condition chan)) start s →
      ∀ p, (s.kernel.procs p).state = .sleeping → (s.kernel.procs p).sleepingChan = some chan →
        condition (s.wants p) s.data → ∃ thread, s.made thread p) ∧
    ∀ {P W : Type} [DecidableEq P] (chan : Chan P) {start s : Room P W Nat (Nat × Nat)},
      start.Initial chan →
      Relation.ReflTransGen (EventStep (TickEnabled chan) (Room.next tickReached chan)) start s →
      (∀ p, (s.kernel.procs p).state = .sleeping → (s.kernel.procs p).sleepingChan = some chan →
        (∀ thread, ¬ s.made thread p) → ulongSub s.data (s.wants p).1 < (s.wants p).2) ∧
      ∀ p, (s.kernel.procs p).place = .code .past →
        ¬ ulongSub s.data (s.wants p).1 < (s.wants p).2 := by
  refine ⟨?_, ?_⟩
  · intro P W D A _ condition chan start s initial run p sleeping onChan holds
    exact (initial.attended_of_run run).pending p (.inr ⟨sleeping, onChan⟩) holds
  · intro P W _ chan start s initial run
    obtain ⟨attended, past⟩ := initial.tick_of_run run
    refine ⟨fun p sleeping onChan nobody => ?_, past⟩
    by_contra reached
    obtain ⟨thread, made⟩ := attended.pending p (.inr ⟨sleeping, onChan⟩) reached
    exact nobody thread made

def Room.oneSleeper : Room Unit Unit Nat (Nat × Nat) where
  kernel := ⟨none, none, fun _ => ⟨.running, none, false, .code .outside⟩, [()]⟩
  data := 7
  wants := fun _ => (0, 0)
  made := fun _ _ => False

/-- The process sleeps for one tick, and the tick comes after it has released `tick_lock` in
`proc_sleep`. -/
def tickDuringSleep : List (RoomEvent Unit Unit Nat (Nat × Nat)) :=
  [.acquire () (7, 1), .sleep (), .kernel (.enter ()), .kernel (.handOver ()),
    .kernel (.handlerAcquire ()), .write (.handler ()) 8, .kernel (.handlerRelease ()),
    .kernel (.sleep ())]

def tickThenReturn : List (RoomEvent Unit Unit Nat (Nat × Nat)) :=
  tickDuringSleep ++ [.wakeup (.handler ()), .kernel (.dispatch ()), .kernel (.resume ()),
    .kernel (.relock ()), .pass ()]

theorem no_lost_wakeup_one_tick :
    (∃ thread, (tickDuringSleep.foldl (Room.next tickReached (.other 64)) Room.oneSleeper).made thread ()) ∧
    ¬ ulongSub 8 7 < 1 := by
  have initial : Room.oneSleeper.Initial (.other 64) :=
    ⟨⟨rfl, rfl, fun _ => rfl, by simp [Room.oneSleeper], by simp [Room.oneSleeper]⟩, fun _ _ made => made⟩
  have returns : Relation.ReflTransGen
      (EventStep (TickEnabled (.other 64)) (Room.next tickReached (.other 64))) Room.oneSleeper
      (tickThenReturn.foldl (Room.next tickReached (.other 64)) Room.oneSleeper) :=
    run_of_allows (by decide)
  obtain ⟨pending, ticks⟩ := no_lost_wakeup
  refine ⟨pending tickReached (.other 64) initial (run_of_allows (by decide)) () ?_ ?_ ?_,
    (ticks (.other 64) initial returns).2 () ?_⟩
  all_goals decide

end Kalorona.Proc
