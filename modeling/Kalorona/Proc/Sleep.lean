import Kalorona.Proc.Scheduler
import Kalorona.Data.Runs

namespace Kalorona.Proc.Sleep

/-! # `proc_sleep` and `proc_wakeup`

The processes that sleep on one channel under one spinlock, as if each had a hart of its own, and
any number of interrupt handlers.  Between two steps anybody may hold the spinlock;
`proc_manager.lock` is held only by a process inside `proc_sleep`, since its other critical sections
are single steps.  The last step of the first half of `proc_sleep` releases it and switches away.
-/

inductive Thread (P W : Type) where
  | process (p : P)
  | handler (w : W)
deriving DecidableEq, Repr

/-- Where a process is in `proc_sleep`, or in the code around the call. -/
inductive Place (K : Type) where
  | code (k : K)
  /-- The call was made, with the spinlock held. -/
  | entering
  /-- `proc_manager.lock` is acquired, the spinlock not yet released. -/
  | both
  /-- Only `proc_manager.lock` is held. -/
  | marking
  | asleep
  /-- `scheduler_switch` has returned. -/
  | returned
  /-- `sleeping_chan` is cleared, the spinlock not yet acquired again. -/
  | relocking
deriving DecidableEq, Repr

/-- A loop that sleeps: the channel, where the code is when it is not in the loop, where
the call returns to, and where the spinlock is held. -/
structure Site (P K : Type) where
  chan : Chan P
  outside : K
  again : K
  holds : K → Bool
  holds_outside : holds outside = false
  holds_again : holds again = true

/-- A process as far as sleep and wakeup go. -/
structure Sleeper (P K : Type) where
  state : ProcState
  sleepingChan : Option (Chan P)
  killed : Bool
  place : Place K
deriving DecidableEq, Repr

structure State (P W K : Type) where
  lock : Option (Thread P W)
  manager : Option P
  procs : P → Sleeper P K
  procList : List P

inductive Event (P W : Type) where
  /-- In `proc_sleep`: acquire `proc_manager.lock`. -/
  | enter (p : P)
  /-- In `proc_sleep`: release the spinlock. -/
  | handOver (p : P)
  /-- In `proc_sleep`: set `sleeping_chan` and the state, release the lock and switch. -/
  | sleep (p : P)
  /-- In `scheduler`: run a process. -/
  | dispatch (p : P)
  /-- In `proc_sleep`: clear `sleeping_chan`. -/
  | resume (p : P)
  /-- In `proc_sleep`: acquire the spinlock again. -/
  | relock (p : P)
  | yield (p : P)
  | wakeup (chan : Option (Chan P))
  | kill (p : P)
  /-- `proc_sleep` on another channel, and where that call clears `sleeping_chan`. -/
  | sleepOn (p : P) (chan : Option (Chan P))
  | forget (p : P)
  | exit (p : P)
  | detach (p : P)
  /-- `proc_create` links the process, and its creator starts it. -/
  | link (p : P)
  | start (p : P)
  | handlerAcquire (w : W)
  | handlerRelease (w : W)
deriving DecidableEq, Repr

variable {P W K : Type}

def Site.keeps (site : Site P K) : Place K → Bool
  | .code k => site.holds k
  | .entering | .both => true
  | _ => false

def Place.around : Place K → Bool
  | .code _ => true
  | _ => false

def Place.managing : Place K → Bool
  | .both | .marking => true
  | _ => false

/-- The switch to a process that slept returns from `scheduler_switch` in `proc_sleep`. -/
def Place.dispatched : Place K → Place K
  | .asleep => .returned
  | place => place

/-- The state and the channel of a process fit its place. -/
structure Site.Fits (site : Site P K) (listed : Prop) (process : Sleeper P K) : Prop where
  unlisted : ¬ listed →
    process.place = .code site.outside ∧ (process.state = .zombie ∨ process.state = .allocated)
  exited : process.state = .zombie → process.place = .code site.outside
  sleeps : process.state = .sleeping → process.sleepingChan = some site.chan →
    process.place = .asleep

section
variable {site : Site P K} {listed : Prop} {process : Sleeper P K} (fits : site.Fits listed process)
include fits

theorem Site.Fits.listed_of_place (place : process.place ≠ .code site.outside) : listed := by
  by_contra absent
  exact place (fits.unlisted absent).1

theorem Site.Fits.listed_of_state (notZombie : process.state ≠ .zombie)
    (notAllocated : process.state ≠ .allocated) : listed := by
  by_contra absent
  rcases (fits.unlisted absent).2 with zombie | allocated
  · exact notZombie zombie
  · exact notAllocated allocated

end

variable {process : Sleeper P K} {after : K}

theorem Site.Fits.awake {site : Site P K} {listed : Prop} (member : listed)
    (notZombie : process.state ≠ .zombie) (notSleeping : process.state ≠ .sleeping) : site.Fits listed process where
  unlisted := fun absent => absurd member absent
  exited := fun zombie => absurd zombie notZombie
  sleeps := fun sleeping => absurd sleeping notSleeping

theorem Site.Fits.moved {site : Site P K} {listed : Prop}
    (fits : site.Fits listed process) (inside : process.place ≠ .code site.outside)
    (awake : process.place ≠ .asleep) (place : Place K) : site.Fits listed { process with place } where
  unlisted := fun absent => absurd (fits.listed_of_place inside) absent
  exited := fun zombie => absurd (fits.exited zombie) inside
  sleeps := fun sleeping chan => absurd (fits.sleeps sleeping chan) awake

section
variable {site : Site P K} {k : K}

/-- How a step of the kernel moves a process: on through `proc_sleep`. -/
inductive Place.Moves (again : K) : Place K → Place K → Prop
  | stays (place : Place K) : Place.Moves again place place
  | enters : Place.Moves again .entering .both
  | handsOver : Place.Moves again .both .marking
  | sleeps : Place.Moves again .marking .asleep
  | returns : Place.Moves again .asleep .returned
  | resumes : Place.Moves again .returned .relocking
  | relocks : Place.Moves again .relocking (.code again)

theorem Place.Moves.dispatched (again : K) (place : Place K) : place.Moves again place.dispatched := by
  cases place with
  | asleep => exact .returns
  | _ => exact .stays _

variable {again : K} {before : Place K}

theorem Place.Moves.code_iff {after : Place K}
    (moves : before.Moves again after) (other : k ≠ again) : after = .code k ↔ before = .code k := by
  cases moves with
  | stays => exact Iff.rfl
  | relocks => simp [Ne.symm other]
  | _ => simp

theorem Place.Moves.to_entering (moves : before.Moves again .entering) : before = .entering := by
  cases moves
  rfl

theorem Place.Moves.to_both (moves : before.Moves again .both) : before = .entering ∨ before = .both := by
  cases moves with
  | stays => exact .inr rfl
  | enters => exact .inl rfl

def Waiting (site : Site P K) (process : Sleeper P K) : Prop :=
  process.place = .marking ∨
    (process.state = .sleeping ∧ process.sleepingChan = some site.chan)

def Blocked (site : Site P K) (process : Sleeper P K) : Prop :=
  process.place = .entering ∨ process.place = .both ∨ Waiting site process

/-- What one step does to one process: it moves on, and it waits only if it did so before
or has just released the spinlock in `proc_sleep`. -/
structure Follows (site : Site P K) (before after : Sleeper P K) : Prop where
  moves : before.place.Moves site.again after.place
  waits : Waiting site after → Waiting site before ∨ before.place = .both

theorem not_waiting_of_running (running : process.state = .running)
    (place : process.place ≠ .marking) : ¬ Waiting site process := by
  rintro (marking | ⟨sleeping, _⟩)
  · exact place marking
  · rw [running] at sleeping
    cases sleeping

theorem Follows.refl (site : Site P K) (process : Sleeper P K) : Follows site process process := ⟨.stays _, .inl⟩

theorem Follows.of_not_sleeping {before after : Sleeper P K} (place : after.place = before.place)
    (awake : after.state = .sleeping → after.sleepingChan ≠ some site.chan) : Follows site before after := by
  refine ⟨?_, ?_⟩
  · rw [place]
    exact .stays _
  · rintro (marking | ⟨sleeping, chan⟩)
    · exact .inl (.inl (place ▸ marking))
    · exact absurd chan (awake sleeping)

theorem Follows.blocked {before after : Sleeper P K} (follows : Follows site before after)
    (blocked : Blocked site after) : Blocked site before := by
  have moves := follows.moves
  rcases blocked with entering | both | waiting
  · rw [entering] at moves
    exact .inl moves.to_entering
  · rw [both] at moves
    rcases moves.to_both with entering | both
    · exact .inl entering
    · exact .inr (.inl both)
  · rcases follows.waits waiting with waited | both
    · exact .inr (.inr waited)
    · exact .inr (.inl both)

end

namespace State

variable [DecidableEq P]

def setProc (s : State P W K) (p : P) (process : Sleeper P K) : State P W K :=
  { s with procs := Function.update s.procs p process }

def moveTo (s : State P W K) (p : P) (place : Place K) : State P W K :=
  s.setProc p { s.procs p with place }

def wakeAll (s : State P W K) (chan : Option (Chan P)) : State P W K :=
  { s with
    procs := wakeSleepers Sleeper.state Sleeper.sleepingChan (fun p => { p with state := .runnable })
      s.procList chan s.procs }

def acquire (s : State P W K) (p : P) (k : K) : State P W K :=
  { s.moveTo p (.code k) with lock := some (.process p) }

def release (s : State P W K) (p : P) (k : K) : State P W K :=
  { s.moveTo p (.code k) with lock := none }

def Executes (s : State P W K) (p : P) (k : K) : Prop :=
  (s.procs p).place = .code k ∧ (s.procs p).state = .running

instance [DecidableEq K] (s : State P W K) (p : P) (k : K) : Decidable (s.Executes p k) :=
  inferInstanceAs (Decidable (_ ∧ _))

section
variable {site : Site P K} {s : State P W K} {p q : P} {k : K}

@[simp] theorem moveTo_self (s : State P W K) (p : P) (place : Place K) :
    (s.moveTo p place).procs p = { s.procs p with place } := Function.update_self ..

theorem moveTo_of_ne (s : State P W K) (place : Place K) (different : q ≠ p) :
    (s.moveTo p place).procs q = s.procs q := Function.update_of_ne different ..

@[simp] theorem acquire_procs (s : State P W K) (p : P) (k : K) :
    (s.acquire p k).procs = (s.moveTo p (.code k)).procs := rfl

@[simp] theorem release_procs (s : State P W K) (p : P) (k : K) :
    (s.release p k).procs = (s.moveTo p (.code k)).procs := rfl

@[simp] theorem wakeAll_place (s : State P W K) (chan : Option (Chan P)) (p : P) :
    ((s.wakeAll chan).procs p).place = (s.procs p).place := by
  simp only [wakeAll, wakeSleepers]
  split <;> rfl

theorem Executes.wakeAll (executes : s.Executes p k) (chan : Option (Chan P)) : (s.wakeAll chan).Executes p k := by
  have awake : ¬ (p ∈ s.procList ∧ (s.procs p).sleepingChan = chan ∧ (s.procs p).state = .sleeping) := by
    simp [executes.2]
  simp only [Executes, State.wakeAll, wakeSleepers, if_neg awake]
  exact executes

theorem Executes.blocked_of_moveTo (executes : s.Executes p k)
    (blocked : Blocked site ((s.moveTo p (.code after)).procs q)) : q ≠ p ∧ Blocked site (s.procs q) := by
  by_cases same : q = p
  · rw [same, moveTo_self] at blocked
    rcases blocked with entering | both | waiting
    · cases entering
    · cases both
    · exact absurd waiting (not_waiting_of_running executes.2 (by simp))
  · rw [moveTo_of_ne s _ same] at blocked
    exact ⟨same, blocked⟩

end

end State

variable [DecidableEq P]

def Enabled (site : Site P K) (s : State P W K) : Event P W → Prop
  | .enter p => s.manager = none ∧ (s.procs p).place = .entering
  | .handOver p => (s.procs p).place = .both
  | .sleep p => (s.procs p).place = .marking
  | .dispatch p => s.manager = none ∧ p ∈ s.procList ∧ (s.procs p).state = .runnable
  | .resume p =>
    s.manager = none ∧ (s.procs p).place = .returned ∧ (s.procs p).state = .running
  | .relock p =>
    s.lock = none ∧ (s.procs p).place = .relocking ∧ (s.procs p).state = .running
  -- a timer trap: interrupts are off while a spinlock is held
  | .yield p =>
    s.manager = none ∧ site.keeps (s.procs p).place = false ∧ (s.procs p).state = .running
  | .wakeup _ => s.manager = none
  | .kill p => s.manager = none ∧ p ∈ s.procList
  | .sleepOn p chan =>
    s.manager = none ∧ (s.procs p).place.around ∧ site.keeps (s.procs p).place = false ∧
      (s.procs p).state = .running ∧ chan ≠ some site.chan
  | .forget p =>
    s.manager = none ∧ (s.procs p).place.around ∧ (s.procs p).state = .running
  | .exit p => s.manager = none ∧ s.Executes p site.outside
  | .detach p => s.manager = none ∧ (s.procs p).state = .zombie
  | .link p => s.manager = none ∧ p ∉ s.procList
  | .start p => s.manager = none ∧ p ∈ s.procList ∧ (s.procs p).state = .allocated
  | .handlerAcquire _ => s.lock = none
  | .handlerRelease w => s.lock = some (.handler w)

instance Enabled.decidable [DecidableEq W] [DecidableEq K] (site : Site P K) (s : State P W K)
    (event : Event P W) : Decidable (Enabled site s event) := by
  cases event <;> unfold Enabled <;> infer_instance

def next (site : Site P K) (s : State P W K) : Event P W → State P W K
  | .enter p => { s.moveTo p .both with manager := some p }
  | .handOver p => { s.moveTo p .marking with lock := none }
  | .sleep p =>
    { s.setProc p { s.procs p with
        sleepingChan := some site.chan, state := .sleeping, place := .asleep } with
      manager := none }
  | .dispatch p =>
    s.setProc p { s.procs p with state := .running, place := (s.procs p).place.dispatched }
  | .resume p => s.setProc p { s.procs p with sleepingChan := none, place := .relocking }
  | .relock p => s.acquire p site.again
  | .yield p => s.setProc p { s.procs p with state := .runnable }
  | .wakeup chan => s.wakeAll chan
  | .kill p =>
    s.setProc p { s.procs p with
      killed := true,
      state := if (s.procs p).state = .sleeping then .runnable else (s.procs p).state }
  | .sleepOn p chan => s.setProc p { s.procs p with sleepingChan := chan, state := .sleeping }
  | .forget p => s.setProc p { s.procs p with sleepingChan := none }
  | .exit p => s.setProc p { s.procs p with state := .zombie }
  | .detach p => { s with procList := s.procList.erase p }
  | .link p =>
    { s.setProc p { s.procs p with state := .allocated, killed := false } with
      procList := p :: s.procList }
  | .start p => s.setProc p { s.procs p with state := .runnable }
  | .handlerAcquire w => { s with lock := some (.handler w) }
  | .handlerRelease _ => { s with lock := none }

/-- Both locks are held by the processes whose places say so. -/
structure Sound (site : Site P K) (s : State P W K) : Prop where
  lock : ∀ p, site.keeps (s.procs p).place = true ↔ s.lock = some (.process p)
  manager : ∀ p, (s.procs p).place.managing = true ↔ s.manager = some p
  fits : ∀ p, site.Fits (p ∈ s.procList) (s.procs p)

variable {site : Site P K} {s : State P W K} {p q : P} {k : K}

section
variable (sound : Sound site s)
include sound

theorem Sound.update {lock : Option (Thread P W)} {manager : Option P} {procList : List P}
    (ownLock : site.keeps process.place = true ↔ lock = some (.process p))
    (otherLocks : ∀ q, q ≠ p → (s.lock = some (.process q) ↔ lock = some (.process q)))
    (ownManager : process.place.managing = true ↔ manager = some p)
    (otherManagers : ∀ q, q ≠ p → (s.manager = some q ↔ manager = some q))
    (listed : ∀ q, q ≠ p → (q ∈ procList ↔ q ∈ s.procList)) (fits : site.Fits (p ∈ procList) process) :
    Sound site ⟨lock, manager, Function.update s.procs p process, procList⟩ := by
  refine ⟨fun q => ?_, fun q => ?_, fun q => ?_⟩
  all_goals
    dsimp only
    by_cases same : q = p
  · rw [same, Function.update_self]
    exact ownLock
  · rw [Function.update_of_ne same]
    exact (sound.lock q).trans (otherLocks q same)
  · rw [same, Function.update_self]
    exact ownManager
  · rw [Function.update_of_ne same]
    exact (sound.manager q).trans (otherManagers q same)
  · rw [same, Function.update_self]
    exact fits
  · rw [Function.update_of_ne same, listed q same]
    exact sound.fits q

theorem Sound.setProc (keeps : site.keeps process.place = site.keeps (s.procs p).place)
    (managing : process.place.managing = (s.procs p).place.managing)
    (fits : site.Fits (p ∈ s.procList) process) : Sound site (s.setProc p process) := by
  refine sound.update ?_ (fun _ _ => Iff.rfl) ?_ (fun _ _ => Iff.rfl) (fun _ _ => Iff.rfl) fits
  · rw [keeps]
    exact sound.lock p
  · rw [managing]
    exact sound.manager p

theorem Sound.acquire (free : s.lock = none)
    (unmanaged : (s.procs p).place.managing = false) (holds : site.holds k = true)
    (fits : site.Fits (p ∈ s.procList) { s.procs p with place := .code k }) : Sound site (s.acquire p k) := by
  refine sound.update ?_ ?_ ?_ (fun _ _ => Iff.rfl) (fun _ _ => Iff.rfl) fits
  · simp [Site.keeps, holds]
  · intro q different
    simp [free, Ne.symm different]
  · have own := sound.manager p
    rw [unmanaged] at own
    exact own

theorem Sound.release (held : s.lock = some (.process p))
    (unmanaged : (s.procs p).place.managing = false) (holds : site.holds k = false)
    (fits : site.Fits (p ∈ s.procList) { s.procs p with place := .code k }) : Sound site (s.release p k) := by
  refine sound.update ?_ ?_ ?_ (fun _ _ => Iff.rfl) (fun _ _ => Iff.rfl) fits
  · simp [Site.keeps, holds]
  · intro q different
    simp [held, Ne.symm different]
  · have own := sound.manager p
    rw [unmanaged] at own
    exact own

omit [DecidableEq P] in
theorem Sound.fits_executes (executes : s.Executes p k)
    (place : Place K) : site.Fits (p ∈ s.procList) { s.procs p with place } := by
  have running := executes.2
  exact .awake ((sound.fits p).listed_of_state (by simp [running]) (by simp [running]))
    (by simp [running]) (by simp [running])

theorem Sound.executes_acquire (executes : s.Executes p k)
    (free : s.lock = none) (holds : site.holds after = true) : Sound site (s.acquire p after) :=
  sound.acquire free (by simp [executes.1, Place.managing]) holds (sound.fits_executes executes _)

theorem Sound.executes_release (executes : s.Executes p k)
    (held : site.holds k = true) (holds : site.holds after = false) : Sound site (s.release p after) :=
  sound.release ((sound.lock p).mp (by simp [executes.1, Site.keeps, held]))
    (by simp [executes.1, Place.managing]) holds (sound.fits_executes executes _)

/-- A step in the code around the loop that does not touch the spinlock; with the place
`entering`, the call of `proc_sleep`. -/
theorem Sound.executes_moveTo {place : Place K}
    (executes : s.Executes p k) (holds : site.keeps place = site.holds k)
    (unmanaged : place.managing = false) : Sound site (s.moveTo p place) := by
  refine sound.setProc ?_ ?_ (sound.fits_executes executes _)
  · rw [executes.1, holds, Site.keeps]
  · rw [executes.1, unmanaged]
    rfl

omit [DecidableEq P] in
theorem Sound.holder_unique
    (first : site.keeps (s.procs p).place = true) (second : site.keeps (s.procs q).place = true) : p = q := by
  have both := ((sound.lock p).mp first).symm.trans ((sound.lock q).mp second)
  simpa using both

omit [DecidableEq P] in
theorem Sound.waiting_of_blocked (held : site.keeps (s.procs p).place = true) (different : q ≠ p)
    (blocked : Blocked site (s.procs q)) : Waiting site (s.procs q) := by
  rcases blocked with entering | both | waiting
  · exact absurd (sound.holder_unique (by rw [entering]; rfl) held) different
  · exact absurd (sound.holder_unique (by rw [both]; rfl) held) different
  · exact waiting

theorem Sound.wakeAll (chan : Option (Chan P)) : Sound site (s.wakeAll chan) := by
  refine ⟨fun p => ?_, fun p => ?_, fun p => ?_⟩
  · rw [State.wakeAll_place]
    exact sound.lock p
  · rw [State.wakeAll_place]
    exact sound.manager p
  · simp only [State.wakeAll, wakeSleepers]
    split
    next woken => exact .awake woken.1 (by simp) (by simp)
    next => exact sound.fits p

omit [DecidableEq P] in
theorem Sound.handlers {lock : Option (Thread P W)}
    (before : ∀ p, s.lock ≠ some (.process p)) (after : ∀ p, lock ≠ some (.process p)) :
    Sound site { s with lock } where
  lock := fun p => (sound.lock p).trans (iff_of_false (before p) (after p))
  manager := sound.manager
  fits := sound.fits

theorem Sound.next {event : Event P W} (enabled : Enabled site s event) : Sound site (next site s event) := by
  cases event with
  | enter p =>
    obtain ⟨free, place⟩ := enabled
    have held := sound.lock p
    rw [place] at held
    refine sound.update held (fun _ _ => Iff.rfl) (by simp [Place.managing]) ?_
      (fun _ _ => Iff.rfl) ((sound.fits p).moved (by simp [place]) (by simp [place]) _)
    intro q different
    simp [free, Ne.symm different]
  | handOver p =>
    have place : (s.procs p).place = .both := enabled
    have held := sound.lock p
    have managed := sound.manager p
    rw [place] at held managed
    refine sound.update (by simp [Site.keeps]) ?_ managed (fun _ _ => Iff.rfl)
      (fun _ _ => Iff.rfl) ((sound.fits p).moved (by simp [place]) (by simp [place]) _)
    intro q different
    simp [held.mp rfl, Ne.symm different]
  | sleep p =>
    have place : (s.procs p).place = .marking := enabled
    have held := sound.lock p
    have managed := sound.manager p
    rw [place] at held managed
    refine sound.update held (fun _ _ => Iff.rfl) (by simp [Place.managing]) ?_
      (fun _ _ => Iff.rfl) ⟨?_, by simp, by simp⟩
    · intro q different
      simp [managed.mp rfl, Ne.symm different]
    · intro absent
      exact absurd ((sound.fits p).listed_of_place (by simp [place])) absent
  | dispatch p =>
    refine sound.setProc ?_ ?_ (.awake enabled.2.1 (by simp) (by simp))
    · cases (s.procs p).place <;> rfl
    · cases (s.procs p).place <;> rfl
  | resume p =>
    obtain ⟨_, place, running⟩ := enabled
    have listed := (sound.fits p).listed_of_place (by simp [place])
    exact sound.setProc (by simp [place, Site.keeps]) (by simp [place, Place.managing])
      (.awake listed (by simp [running]) (by simp [running]))
  | relock p =>
    obtain ⟨free, place, running⟩ := enabled
    have listed := (sound.fits p).listed_of_place (by simp [place])
    exact sound.acquire free (by simp [place, Place.managing]) site.holds_again
      (.awake listed (by simp [running]) (by simp [running]))
  | yield p =>
    have running := enabled.2.2
    have listed := (sound.fits p).listed_of_state (by simp [running]) (by simp [running])
    exact sound.setProc rfl rfl (.awake listed (by simp) (by simp))
  | wakeup chan => exact sound.wakeAll chan
  | kill p =>
    refine sound.setProc rfl rfl ⟨fun absent => absurd enabled.2 absent, ?_, ?_⟩
    · intro zombie
      split at zombie
      · cases zombie
      · exact (sound.fits p).exited zombie
    · intro sleeping
      split at sleeping
      · cases sleeping
      · contradiction
  | sleepOn p chan =>
    obtain ⟨_, _, _, running, other⟩ := enabled
    have listed := (sound.fits p).listed_of_state (by simp [running]) (by simp [running])
    exact sound.setProc rfl rfl ⟨fun absent => absurd listed absent, by simp, fun _ same => absurd same other⟩
  | forget p =>
    obtain ⟨_, _, running⟩ := enabled
    have listed := (sound.fits p).listed_of_state (by simp [running]) (by simp [running])
    exact sound.setProc rfl rfl (.awake listed (by simp [running]) (by simp [running]))
  | exit p =>
    have executes := enabled.2
    have listed := (sound.fits p).listed_of_state (by simp [executes.2]) (by simp [executes.2])
    exact sound.setProc rfl rfl ⟨fun absent => absurd listed absent, fun _ => executes.1, by simp⟩
  | detach p =>
    refine ⟨sound.lock, sound.manager, fun q => ?_⟩
    refine ⟨fun absent => ?_, (sound.fits q).exited, (sound.fits q).sleeps⟩
    by_cases same : q = p
    · rw [same]
      exact ⟨(sound.fits p).exited enabled.2, .inl enabled.2⟩
    · exact (sound.fits q).unlisted fun member => absent ((List.mem_erase_of_ne same).mpr member)
  | link p =>
    exact sound.update (sound.lock p) (fun _ _ => Iff.rfl) (sound.manager p) (fun _ _ => Iff.rfl)
      (fun q different => by simp [different]) (.awake (by simp) (by simp) (by simp))
  | start p => exact sound.setProc rfl rfl (.awake enabled.2.1 (by simp) (by simp))
  | handlerAcquire w =>
    have free : s.lock = none := enabled
    exact sound.handlers (by simp [free]) (by simp)
  | handlerRelease w =>
    have held : s.lock = some (.handler w) := enabled
    exact sound.handlers (by simp [held]) (by simp)

end

/-- Nobody is in the code of the site. -/
structure Quiet (site : Site P K) (s : State P W K) : Prop where
  lock : s.lock = none
  manager : s.manager = none
  places : ∀ p, (s.procs p).place = .code site.outside
  unlisted : ∀ p, p ∉ s.procList → (s.procs p).state = .zombie ∨ (s.procs p).state = .allocated
  sleeps : ∀ p, (s.procs p).state = .sleeping → (s.procs p).sleepingChan ≠ some site.chan

omit [DecidableEq P] in
theorem Quiet.sound (quiet : Quiet site s) : Sound site s := by
  refine ⟨fun p => ?_, fun p => ?_, fun p => ?_⟩
  · simp [quiet.places p, quiet.lock, Site.keeps, site.holds_outside]
  · simp [quiet.places p, quiet.manager, Place.managing]
  · exact ⟨fun absent => ⟨quiet.places p, quiet.unlisted p absent⟩, fun _ => quiet.places p,
      fun sleeping chan => absurd chan (quiet.sleeps p sleeping)⟩

theorem follows_update (own : Follows site (s.procs p) process) (q : P) :
    Follows site (s.procs q) (Function.update s.procs p process q) := by
  by_cases same : q = p
  · rw [same, Function.update_self]
    exact own
  · rw [Function.update_of_ne same]
    exact .refl site _

theorem follows_wakeAll (s : State P W K) (chan : Option (Chan P)) (q : P) :
    Follows site (s.procs q) ((s.wakeAll chan).procs q) := by
  simp only [State.wakeAll, wakeSleepers]
  split
  · exact .of_not_sleeping rfl (by simp)
  · exact .refl site _

theorem follows_next {event : Event P W} (enabled : Enabled site s event) (q : P) :
    Follows site (s.procs q) ((next site s event).procs q) := by
  cases event with
  | enter p =>
    have place := enabled.2
    refine follows_update ⟨by rw [place]; exact .enters, ?_⟩ q
    rintro (marking | sleeping)
    · cases marking
    · exact .inl (.inr sleeping)
  | handOver p =>
    have place : (s.procs p).place = .both := enabled
    exact follows_update ⟨by rw [place]; exact .handsOver, fun _ => .inr place⟩ q
  | sleep p =>
    have place : (s.procs p).place = .marking := enabled
    exact follows_update ⟨by rw [place]; exact .sleeps, fun _ => .inl (.inl place)⟩ q
  | dispatch p =>
    refine follows_update ⟨.dispatched _ _, ?_⟩ q
    rintro (marking | ⟨sleeping, _⟩)
    · refine .inl (.inl ?_)
      cases place : (s.procs p).place <;> simp_all [Place.dispatched]
    · cases sleeping
  | resume p =>
    obtain ⟨_, place, running⟩ := enabled
    refine follows_update ⟨by rw [place]; exact .resumes, ?_⟩ q
    rintro (marking | ⟨_, chan⟩)
    · cases marking
    · cases chan
  | relock p =>
    obtain ⟨_, place, running⟩ := enabled
    refine follows_update ⟨by rw [place]; exact .relocks, ?_⟩ q
    rintro (marking | sleeping)
    · cases marking
    · exact .inl (.inr sleeping)
  | yield p =>
    refine follows_update ?_ q
    exact .of_not_sleeping rfl (by simp)
  | wakeup chan => exact follows_wakeAll s chan q
  | kill p =>
    refine follows_update ?_ q
    refine .of_not_sleeping rfl ?_
    intro sleeping
    split at sleeping
    · cases sleeping
    · contradiction
  | sleepOn p chan =>
    refine follows_update ?_ q
    exact .of_not_sleeping rfl fun _ => enabled.2.2.2.2
  | forget p =>
    refine follows_update ?_ q
    exact .of_not_sleeping rfl (by simp)
  | exit p =>
    refine follows_update ?_ q
    exact .of_not_sleeping rfl (by simp)
  | detach p => exact .refl site _
  | link p =>
    refine follows_update ?_ q
    exact .of_not_sleeping rfl (by simp)
  | start p =>
    refine follows_update ?_ q
    exact .of_not_sleeping rfl (by simp)
  | handlerAcquire w => exact .refl site _
  | handlerRelease w => exact .refl site _

/-- `proc_wakeup` leaves nobody waiting: it has `proc_manager.lock`, so nobody is about to
sleep, and whoever sleeps is on the list. -/
theorem Sound.not_waiting_wakeAll (sound : Sound site s) (free : s.manager = none) (q : P) :
    ¬ Waiting site ((s.wakeAll (some site.chan)).procs q) := by
  simp only [State.wakeAll, wakeSleepers]
  rintro (marking | ⟨sleeping, chan⟩)
  · have place : (s.procs q).place = .marking := by
      split at marking <;> exact marking
    have managed := sound.manager q
    rw [place, free] at managed
    cases managed.mp rfl
  · split at sleeping
    · cases sleeping
    · next kept =>
      rw [if_neg kept] at chan
      have listed := (sound.fits q).listed_of_state (by simp [sleeping]) (by simp [sleeping])
      exact kept ⟨listed, chan, sleeping⟩

end Kalorona.Proc.Sleep
