import Kalorona.Proc.Sleep

namespace Kalorona.Proc

open Kalorona.Data Sleep

/-! # Sleeplocks

Any number of processes use one `struct sleeplock`.  Its inner spinlock and the loop
of `sleeplock_acquire` are those of the sleep machine; a step here is one critical
section of the inner spinlock, cut where `proc_manager.lock` is taken inside it.
-/

/-- Where a process is in the functions of the lock. -/
inductive SleeplockCode where
  | outside
  /-- In `sleeplock_acquire`, about to test `locked`. -/
  | testing
  /-- In `sleeplock_acquire`, with `locked` and `pid` set. -/
  | taken
  /-- `sleeplock_acquire` has returned. -/
  | holding
  /-- In `sleeplock_release`, about to call `proc_wakeup`. -/
  | releasing
  /-- In `sleeplock_release`, about to clear `locked`. -/
  | woken
deriving DecidableEq, Repr

def SleeplockCode.holdsInner : SleeplockCode → Bool
  | .outside | .holding => false
  | _ => true

/-- The loop of `sleeplock_acquire` sleeps on the address of the lock. -/
def sleeplockSite (P : Type) (lk : Nat) : Site P SleeplockCode where
  chan := .other lk
  outside := .outside
  again := .testing
  holds := SleeplockCode.holdsInner
  holds_outside := rfl
  holds_again := rfl

/-- `struct sleeplock`, with the processes; its `pid` has the 32 bits of the pid of a process. -/
structure Sleeplock (P W : Type) where
  kernel : State P W SleeplockCode
  locked : Nat
  pid : UInt32

inductive SleeplockEvent (P W : Type) where
  | kernel (event : Event P W)
  /-- `sleeplock_acquire`: acquire the inner spinlock; test `locked`, and sleep or take the
  lock; release the inner spinlock. -/
  | acquire (p : P)
  | test (p : P)
  | finish (p : P)
  /-- `sleeplock_release`: acquire the inner spinlock; `proc_wakeup`; clear `locked` and `pid`
  and release the inner spinlock. -/
  | release (p : P)
  | wakeup (p : P)
  | clear (p : P)
deriving DecidableEq, Repr

variable {P W : Type} [DecidableEq P]

def Sleeplock.Enabled (lk : Nat) (s : Sleeplock P W) : SleeplockEvent P W → Prop
  | .kernel event => Sleep.Enabled (sleeplockSite P lk) s.kernel event
  | .acquire p => s.kernel.Executes p .outside ∧ s.kernel.lock = none
  | .test p => s.kernel.Executes p .testing
  | .finish p => s.kernel.Executes p .taken
  -- only the current holder calls `sleeplock_release`
  | .release p => s.kernel.Executes p .holding ∧ s.kernel.lock = none
  | .wakeup p => s.kernel.Executes p .releasing ∧ s.kernel.manager = none
  | .clear p => s.kernel.Executes p .woken

instance Sleeplock.Enabled.decidable [DecidableEq W] (lk : Nat) (s : Sleeplock P W) (event : SleeplockEvent P W) :
    Decidable (s.Enabled lk event) := by
  cases event <;> unfold Enabled <;> infer_instance

def Sleeplock.next (pids : P → UInt32) (lk : Nat) (s : Sleeplock P W) : SleeplockEvent P W → Sleeplock P W
  | .kernel event => { s with kernel := Sleep.next (sleeplockSite P lk) s.kernel event }
  | .acquire p => { s with kernel := s.kernel.acquire p .testing }
  | .test p =>
    if s.locked ≠ 0 then { s with kernel := s.kernel.moveTo p .entering }
    else { kernel := s.kernel.moveTo p (.code .taken), locked := 1, pid := pids p }
  | .finish p => { s with kernel := s.kernel.release p .holding }
  | .release p => { s with kernel := s.kernel.acquire p .releasing }
  | .wakeup p =>
    { s with kernel := (s.kernel.wakeAll (some (.other lk))).moveTo p (.code .woken) }
  | .clear p => { kernel := s.kernel.release p .outside, locked := 0, pid := 0 }

def Sleep.Place.owns : Sleep.Place SleeplockCode → Bool
  | .code .taken | .code .holding | .code .releasing | .code .woken => true
  | _ => false

omit [DecidableEq P] in
theorem Sleep.Place.owns_iff {place : Sleep.Place SleeplockCode} :
    place.owns = true ↔ place = .code .taken ∨ place = .code .holding ∨
      place = .code .releasing ∨ place = .code .woken := by
  cases place with
  | code k => cases k <;> simp [Sleep.Place.owns]
  | _ => simp [Sleep.Place.owns]

def sleeplockWords (pids : P → UInt32) : Option P → Nat × UInt32
  | none => (0, 0)
  | some p => (1, pids p)

/-- The lock has this owner, and whoever waits for it waits for an owner that has not yet
called `proc_wakeup`. -/
structure Sleeplock.Owned (pids : P → UInt32) (lk : Nat) (s : Sleeplock P W) (owner : Option P) :
    Prop where
  sound : Sound (sleeplockSite P lk) s.kernel
  owns : ∀ p, (s.kernel.procs p).place.owns = true ↔ owner = some p
  words : (s.locked, s.pid) = sleeplockWords pids owner
  blocked : ∀ q, Blocked (sleeplockSite P lk) (s.kernel.procs q) →
    ∃ p, owner = some p ∧ (s.kernel.procs p).place ≠ .code .woken

namespace Sleeplock.Owned

variable {pids : P → UInt32} {lk : Nat} {s : Sleeplock P W} {owner : Option P} {p : P}
  {k : SleeplockCode} {place : Sleep.Place SleeplockCode} {kernel : State P W SleeplockCode}

section
variable (owned : s.Owned pids lk owner)
include owned

theorem update {locked : Nat} {pid : UInt32} {after : Option P}
    (sound : Sound (sleeplockSite P lk) kernel) (procs : kernel.procs = (s.kernel.moveTo p place).procs)
    (own : place.owns = true ↔ after = some p) (others : ∀ q, q ≠ p → (owner = some q ↔ after = some q))
    (words : (locked, pid) = sleeplockWords pids after)
    (blocked : ∀ q, Blocked (sleeplockSite P lk) (kernel.procs q) →
      ∃ r, after = some r ∧ (kernel.procs r).place ≠ .code .woken) : Owned pids lk ⟨kernel, locked, pid⟩ after := by
  refine ⟨sound, fun q => ?_, words, blocked⟩
  dsimp only
  by_cases same : q = p
  · rw [same, procs, State.moveTo_self]
    exact own
  · rw [procs, State.moveTo_of_ne _ _ same]
    exact (owned.owns q).trans (others q same)

theorem keep (executes : s.kernel.Executes p k) {after : SleeplockCode} (sound : Sound (sleeplockSite P lk) kernel)
    (procs : kernel.procs = (s.kernel.moveTo p (.code after)).procs)
    (own : (Sleep.Place.code after).owns = (Sleep.Place.code k).owns) (notWoken : after ≠ .woken) :
    Owned pids lk { s with kernel } owner := by
  have ownership := owned.owns p
  rw [executes.1, ← own] at ownership
  refine owned.update sound procs ownership (fun _ _ => Iff.rfl) owned.words fun q blocked => ?_
  rw [procs] at blocked ⊢
  obtain ⟨r, isOwner, place⟩ := owned.blocked q (executes.blocked_of_moveTo blocked).2
  refine ⟨r, isOwner, ?_⟩
  by_cases same : r = p
  · rw [same, State.moveTo_self]
    simpa using notWoken
  · rwa [State.moveTo_of_ne _ _ same]

theorem kernelStep {event : Event P W} (enabled : Sleep.Enabled (sleeplockSite P lk) s.kernel event) :
    Owned pids lk { s with kernel := Sleep.next (sleeplockSite P lk) s.kernel event } owner := by
  have follows := follows_next enabled
  have kept : ∀ q k, k ≠ SleeplockCode.testing →
      ((((Sleep.next (sleeplockSite P lk) s.kernel event).procs q).place = .code k ↔
        (s.kernel.procs q).place = .code k)) :=
    fun q k other => (follows q).moves.code_iff other
  refine ⟨owned.sound.next enabled, fun q => ?_, owned.words, fun q blocked => ?_⟩
  · rw [← owned.owns q, Sleep.Place.owns_iff, Sleep.Place.owns_iff, kept q _ (by simp),
      kept q _ (by simp), kept q _ (by simp), kept q _ (by simp)]
  · obtain ⟨r, isOwner, place⟩ := owned.blocked q ((follows q).blocked blocked)
    exact ⟨r, isOwner, fun woken => place ((kept r _ (by simp)).mp woken)⟩

omit [DecidableEq P] in
theorem not_blocked_of_woken (woken : (s.kernel.procs p).place = .code .woken) (q : P) :
    ¬ Blocked (sleeplockSite P lk) (s.kernel.procs q) := by
  intro blocked
  obtain ⟨r, isOwner, place⟩ := owned.blocked q blocked
  have isAlso := (owned.owns p).mp (by rw [woken]; rfl)
  cases isOwner.symm.trans isAlso
  exact place woken

/-- The test finds the lock taken: its owner has not called `proc_wakeup` yet, since it
would hold the inner spinlock from there on. -/
theorem sleep (executes : s.kernel.Executes p .testing) (taken : s.locked ≠ 0) :
    Owned pids lk { s with kernel := s.kernel.moveTo p .entering } owner := by
  have notOwner := owned.owns p
  rw [executes.1] at notOwner
  refine owned.update (owned.sound.executes_moveTo executes rfl rfl) rfl notOwner
    (fun _ _ => Iff.rfl) owned.words fun q _ => ?_
  cases isOwner : owner with
  | none =>
    have words := owned.words
    rw [isOwner] at words
    exact absurd (congrArg Prod.fst words) taken
  | some r =>
    have different : r ≠ p := by
      intro same
      rw [isOwner, same] at notOwner
      cases notOwner.mpr rfl
    refine ⟨r, rfl, ?_⟩
    rw [State.moveTo_of_ne _ _ different]
    intro woken
    exact different (owned.sound.holder_unique (by rw [woken]; rfl) (by rw [executes.1]; rfl))

theorem take (executes : s.kernel.Executes p .testing) (free : s.locked = 0) :
    Owned pids lk ⟨s.kernel.moveTo p (.code .taken), 1, pids p⟩ (some p) := by
  have nobody : owner = none := by
    cases isOwner : owner with
    | none => rfl
    | some r =>
      have words := owned.words
      rw [isOwner, free] at words
      cases congrArg Prod.fst words
  refine owned.update (owned.sound.executes_moveTo executes rfl rfl) rfl (by simp [Sleep.Place.owns])
    (fun q different => by simp [nobody, Ne.symm different]) rfl fun q _ => ?_
  exact ⟨p, rfl, by simp⟩

/-- `proc_wakeup` leaves nobody waiting: the owner holds the inner spinlock, so nobody is on
the way to sleep. -/
theorem wakeup (executes : s.kernel.Executes p .releasing) (free : s.kernel.manager = none) : Owned pids lk
      { s with kernel := (s.kernel.wakeAll (some (.other lk))).moveTo p (.code .woken) } owner := by
  have woken : Owned pids lk { s with kernel := s.kernel.wakeAll (some (.other lk)) } owner := owned.kernelStep
      (show Sleep.Enabled (sleeplockSite P lk) s.kernel (.wakeup (some (.other lk))) from free)
  have still := executes.wakeAll (some (.other lk))
  have isOwner := owned.owns p
  rw [executes.1] at isOwner
  refine woken.update (woken.sound.executes_moveTo still rfl rfl) rfl isOwner
    (fun _ _ => Iff.rfl) owned.words fun q blocked => ?_
  obtain ⟨different, before⟩ := still.blocked_of_moveTo blocked
  have waiting := woken.sound.waiting_of_blocked (by rw [still.1]; rfl) different before
  exact absurd waiting (owned.sound.not_waiting_wakeAll free q)

theorem clear (executes : s.kernel.Executes p .woken) : Owned pids lk ⟨s.kernel.release p .outside, 0, 0⟩ none := by
  have isOwner := (owned.owns p).mp (by rw [executes.1]; rfl)
  refine owned.update (owned.sound.executes_release executes rfl rfl) rfl (by simp [Sleep.Place.owns])
    (fun q different => by simp [isOwner, Ne.symm different]) rfl fun q blocked => ?_
  exact absurd (executes.blocked_of_moveTo blocked).2 (owned.not_blocked_of_woken executes.1 q)

theorem next {event : SleeplockEvent P W}
    (enabled : s.Enabled lk event) : ∃ after, (s.next pids lk event).Owned pids lk after := by
  cases event with
  | kernel event => exact ⟨owner, owned.kernelStep enabled⟩
  | acquire p =>
    exact ⟨owner, owned.keep enabled.1 (owned.sound.executes_acquire enabled.1 enabled.2 rfl) rfl rfl (by simp)⟩
  | test p =>
    simp only [Sleeplock.next]
    split
    next taken => exact ⟨owner, owned.sleep enabled taken⟩
    next free => exact ⟨some p, owned.take enabled (not_not.mp free)⟩
  | finish p =>
    exact ⟨owner, owned.keep enabled (owned.sound.executes_release enabled rfl rfl) rfl rfl (by simp)⟩
  | release p =>
    exact ⟨owner, owned.keep enabled.1 (owned.sound.executes_acquire enabled.1 enabled.2 rfl) rfl rfl (by simp)⟩
  | wakeup p => exact ⟨owner, owned.wakeup enabled.1 enabled.2⟩
  | clear p => exact ⟨none, owned.clear enabled⟩

end

end Sleeplock.Owned

structure Sleeplock.Initial (lk : Nat) (s : Sleeplock P W) : Prop where
  quiet : Quiet (sleeplockSite P lk) s.kernel
  locked : s.locked = 0
  pid : s.pid = 0

omit [DecidableEq P] in
theorem Sleeplock.Initial.owned {lk : Nat} {s : Sleeplock P W} (initial : s.Initial lk)
    (pids : P → UInt32) : s.Owned pids lk none := by
  have places := initial.quiet.places
  refine ⟨initial.quiet.sound, fun p => ?_, ?_, fun q blocked => ?_⟩
  · simp [places p, Sleep.Place.owns, sleeplockSite]
  · simp [initial.locked, initial.pid, sleeplockWords]
  · rcases blocked with entering | both | marking | ⟨sleeping, chan⟩
    · simp [places q] at entering
    · simp [places q] at both
    · simp [places q] at marking
    · exact absurd chan (initial.quiet.sleeps q sleeping)

theorem Sleeplock.Initial.owned_of_run {pids : P → UInt32} {lk : Nat} {start s : Sleeplock P W}
    (initial : start.Initial lk)
    (run : Relation.ReflTransGen (EventStep (Sleeplock.Enabled lk) (Sleeplock.next pids lk)) start s) :
    ∃ owner, s.Owned pids lk owner := by
  refine run_preserves (fun s => ∃ owner, s.Owned pids lk owner) ?_ ⟨none, initial.owned pids⟩ run
  rintro before after ⟨owner, owned⟩ ⟨event, enabled, rfl⟩
  exact owned.next enabled

/-- In every run at most one process has the lock, `locked` and `pid` say which, and nobody
sleeps for a lock that is free. -/
theorem sleeplock_safe (pids : P → UInt32) (lk : Nat) {start s : Sleeplock P W} (initial : start.Initial lk)
    (run : Relation.ReflTransGen (EventStep (Sleeplock.Enabled lk) (Sleeplock.next pids lk)) start s) :
    (∀ p q, (s.kernel.procs p).place.owns = true → (s.kernel.procs q).place.owns = true → p = q) ∧
      (s.locked = 1 ↔ ∃ p, (s.kernel.procs p).place.owns = true) ∧
      (∀ p, (s.kernel.procs p).place.owns = true → s.pid = pids p) ∧
      ∀ p, (s.kernel.procs p).state = .sleeping →
        (s.kernel.procs p).sleepingChan = some (.other lk) →
        ¬ (s.locked = 0 ∧ s.kernel.lock = none) := by
  obtain ⟨owner, owned⟩ := initial.owned_of_run run
  have words := owned.words
  refine ⟨fun p q first second => ?_, ⟨fun taken => ?_, ?_⟩, fun p owns => ?_, fun p sleeping chan => ?_⟩
  · have both := ((owned.owns p).mp first).symm.trans ((owned.owns q).mp second)
    simpa using both
  · cases isOwner : owner with
    | none =>
      rw [isOwner, taken] at words
      cases congrArg Prod.fst words
    | some p => exact ⟨p, (owned.owns p).mpr isOwner⟩
  · rintro ⟨p, owns⟩
    rw [(owned.owns p).mp owns] at words
    exact congrArg Prod.fst words
  · rw [(owned.owns p).mp owns] at words
    exact congrArg Prod.snd words
  · rintro ⟨unlocked, _⟩
    obtain ⟨r, isOwner, _⟩ := owned.blocked p (.inr (.inr (.inr ⟨sleeping, chan⟩)))
    rw [isOwner, unlocked] at words
    cases congrArg Prod.fst words

def Sleeplock.twoProcesses : Sleeplock Bool Unit where
  kernel := ⟨none, none, fun _ => ⟨.running, none, false, .code .outside⟩, [true, false]⟩
  locked := 0
  pid := 0

def Sleeplock.contendedRun : List (SleeplockEvent Bool Unit) :=
  [.acquire true, .test true, .finish true,
    .acquire false, .test false, .kernel (.enter false), .kernel (.handOver false),
    .kernel (.sleep false), .kernel (.kill false), .kernel (.dispatch false),
    .kernel (.resume false), .kernel (.relock false), .test false, .kernel (.enter false),
    .kernel (.handOver false), .release true, .kernel (.sleep false), .wakeup true, .clear true,
    .kernel (.dispatch false), .kernel (.resume false), .kernel (.relock false), .test false]

def Sleeplock.twoPids (p : Bool) : UInt32 := if p then 1 else 2

def Sleeplock.contended : Sleeplock Bool Unit :=
  Sleeplock.contendedRun.foldl (Sleeplock.next Sleeplock.twoPids 64) Sleeplock.twoProcesses

theorem sleeplock_safe_contended : Sleeplock.contended.pid = 2 ∧
      (Sleeplock.contended.locked = 1 ↔ ∃ p, (Sleeplock.contended.kernel.procs p).place.owns = true) := by
  have initial : Sleeplock.twoProcesses.Initial 64 := ⟨⟨rfl, rfl, fun _ => rfl, by decide, by decide⟩, rfl, rfl⟩
  have run : Relation.ReflTransGen (EventStep (Sleeplock.Enabled 64) (Sleeplock.next Sleeplock.twoPids 64))
      Sleeplock.twoProcesses Sleeplock.contended := run_of_allows (by decide)
  obtain ⟨_, locked, pid, _⟩ := sleeplock_safe Sleeplock.twoPids 64 initial run
  exact ⟨pid false (by decide), locked⟩

end Kalorona.Proc
