import Kalorona.Proc.Scheduler
import Kalorona.Data.Runs

namespace Kalorona.Proc

open Kalorona.Data

/-! # Which hart executes a process

A hart owns a process from the moment the scheduler takes it until `proc_switch`
has left its stack.  Ownership is exclusive in every run in which the scheduler
only takes processes whose stack no hart is still on.
-/

variable {H P : Type} {s t : System H P} {h : H} {p : P}

inductive Resumable (p : P) : Code P → Prop
  | running : Resumable p .running
  | awake : Resumable p (.awake p)

/-- Where the code of a process may stand, by its state. -/
inductive Place (p : P) (state : ProcState) : Code P → Prop
  | active {code : Code P} (isRunning : state = .running) (resumable : Resumable p code) :
      Place p state code
  | exiting (isZombie : state = .zombie) : Place p state (.exiting p)
  | leaving {resume : Code P} (published : state ≠ .running) (resumable : Resumable p resume) :
      Place p state (.switchAway p resume)

def StateKept (before after : ProcState) : Prop :=
  after = before ∨ (before = .sleeping ∧ after = .runnable)

theorem StateKept.running {before after : ProcState} (kept : StateKept before after)
    (isRunning : before = .running) : after = .running := by
  rcases kept with same | ⟨sleeping, _⟩
  · rw [same, isRunning]
  · rw [isRunning] at sleeping
    cases sleeping

theorem Place.kept {before after : ProcState} {code : Code P} (place : Place p before code)
    (kept : StateKept before after) : Place p after code := by
  cases place with
  | active isRunning resumable => exact .active (kept.running isRunning) resumable
  | exiting isZombie =>
    rcases kept with same | ⟨sleeping, _⟩
    · exact .exiting (same.trans isZombie)
    · rw [isZombie] at sleeping
      cases sleeping
  | leaving published resumable =>
    rcases kept with same | ⟨_, awakened⟩
    · exact .leaving (same ▸ published) resumable
    · exact .leaving (by simp [awakened]) resumable

/-- What a hart may be at. -/
inductive HartAt (s : System H P) (h : H) : Prop
  | scanning {c : Option P} (stack : (s.harts h).stack = .hart h)
      (code : (s.harts h).code = .scan c) (idle : (s.harts h).runningProc = none)
  | dispatching {p : P} (stack : (s.harts h).stack = .hart h)
      (code : (s.harts h).code = .dispatch p) (runs : (s.harts h).runningProc = some p)
      (state : (s.procs p).state = .running)
  | returned {p : P} (stack : (s.harts h).stack = .hart h) (code : (s.harts h).code = .back p)
      (runs : (s.harts h).runningProc = some p)
  | onProcess {p : P} (stack : (s.harts h).stack = .process p)
      (runs : (s.harts h).runningProc = some p)
      (context : (s.harts h).context = some ⟨.hart h, .back p⟩)
      (place : Place p (s.procs p).state (s.harts h).code)

/-- The hart is on the stack of the process or about to switch to it. -/
def Owns (s : System H P) (h : H) (p : P) : Prop :=
  (s.harts h).code = .dispatch p ∨ (s.harts h).stack = .process p

def Saved (p : P) (process : Process H P) : Prop :=
  ∃ code, process.context = some ⟨.process p, code⟩ ∧ Resumable p code

/-- The hart has published a new state of `p` and not yet saved its context. -/
def Code.Leaves (p : P) : Code P → Prop
  | .switchAway q _ => q = p
  | _ => False

def Code.InScheduler : Code P → Prop
  | .scan _ | .dispatch _ | .back _ => True
  | _ => False

/-- Every hart is at a place of the code that its state allows, and no process is on two harts. -/
structure Coherent (s : System H P) : Prop where
  harts : ∀ h, HartAt s h
  saved : ∀ p, Saved p (s.procs p)
  exclusive : ∀ h h' p, Owns s h p → Owns s h' p → h = h'

theorem HartAt.kept (place : HartAt s h) (same : t.harts h = s.harts h)
    (states : ∀ p, Owns s h p → StateKept (s.procs p).state (t.procs p).state) : HartAt t h := by
  cases place with
  | scanning stack code idle => exact .scanning (same ▸ stack) (same ▸ code) (same ▸ idle)
  | dispatching stack code runs state =>
    exact .dispatching (same ▸ stack) (same ▸ code) (same ▸ runs) ((states _ (.inl code)).running state)
  | returned stack code runs => exact .returned (same ▸ stack) (same ▸ code) (same ▸ runs)
  | onProcess stack runs context place =>
    refine .onProcess (same ▸ stack) (same ▸ runs) (same ▸ context) ?_
    rw [same]
    exact place.kept (states _ (.inr stack))

theorem Coherent.step_of (coherent : Coherent s)
    (others : ∀ h', h' ≠ h → t.harts h' = s.harts h') (own : HartAt t h) (saved : ∀ p, Saved p (t.procs p))
    (states : ∀ h' p, h' ≠ h → Owns s h' p → StateKept (s.procs p).state (t.procs p).state)
    (owned : ∀ p, Owns t h p → ∀ h', h' ≠ h → ¬ Owns s h' p) : Coherent t := by
  have otherOwns : ∀ h' p, h' ≠ h → Owns t h' p → Owns s h' p := by
    intro h' p different owns
    rwa [Owns, others h' different] at owns
  refine ⟨?_, saved, ?_⟩
  · intro h'
    by_cases acting : h' = h
    · rw [acting]
      exact own
    · exact (coherent.harts h').kept (others h' acting) (fun p => states h' p acting)
  · intro first second p firstOwns secondOwns
    by_cases firstActing : first = h
    · by_cases secondActing : second = h
      · rw [firstActing, secondActing]
      · subst firstActing
        exact absurd (otherOwns second p secondActing secondOwns) (owned p firstOwns second secondActing)
    · by_cases secondActing : second = h
      · subst secondActing
        exact absurd (otherOwns first p firstActing firstOwns) (owned p secondOwns first firstActing)
      · exact coherent.exclusive first second p (otherOwns first p firstActing firstOwns)
          (otherOwns second p secondActing secondOwns)

section
variable {cursor : Option P} (place : HartAt s h)
include place

theorem HartAt.scan (code : (s.harts h).code = .scan cursor) :
    (s.harts h).stack = .hart h ∧ (s.harts h).runningProc = none := by
  cases place with
  | scanning stack _ idle => exact ⟨stack, idle⟩
  | dispatching _ other => cases code.symm.trans other
  | returned _ other => cases code.symm.trans other
  | onProcess _ _ _ place =>
    rw [code] at place
    cases place with
    | active _ resumable => cases resumable

theorem HartAt.dispatch (code : (s.harts h).code = .dispatch p) :
    (s.harts h).stack = .hart h ∧ (s.harts h).runningProc = some p ∧
      (s.procs p).state = .running := by
  cases place with
  | scanning _ other => cases code.symm.trans other
  | dispatching stack other runs state =>
    cases code.symm.trans other
    exact ⟨stack, runs, state⟩
  | returned _ other => cases code.symm.trans other
  | onProcess _ _ _ place =>
    rw [code] at place
    cases place with
    | active _ resumable => cases resumable

theorem HartAt.back (code : (s.harts h).code = .back p) :
    (s.harts h).stack = .hart h ∧ (s.harts h).runningProc = some p := by
  cases place with
  | scanning _ other => cases code.symm.trans other
  | dispatching _ other => cases code.symm.trans other
  | returned stack other runs =>
    cases code.symm.trans other
    exact ⟨stack, runs⟩
  | onProcess _ _ _ place =>
    rw [code] at place
    cases place with
    | active _ resumable => cases resumable

theorem HartAt.process (away : (s.harts h).stack ≠ .hart h) :
    ∃ p, (s.harts h).stack = .process p ∧ (s.harts h).runningProc = some p ∧
      (s.harts h).context = some ⟨.hart h, .back p⟩ ∧
      Place p (s.procs p).state (s.harts h).code := by
  cases place with
  | scanning stack => exact absurd stack away
  | dispatching stack => exact absurd stack away
  | returned stack => exact absurd stack away
  | onProcess stack runs context place => exact ⟨_, stack, runs, context, place⟩

theorem HartAt.away (noScan : ∀ cursor, (s.harts h).code ≠ .scan cursor)
    (noDispatch : ∀ p, (s.harts h).code ≠ .dispatch p) (noBack : ∀ p, (s.harts h).code ≠ .back p) :
    (s.harts h).stack ≠ .hart h := by
  cases place with
  | scanning _ code => exact absurd code (noScan _)
  | dispatching _ code => exact absurd code (noDispatch _)
  | returned _ code => exact absurd code (noBack _)
  | onProcess stack => simp [stack]

end

section
variable (coherent : Coherent s)
include coherent

theorem Coherent.unowned (owns : Owns s h p) {h' : H} (different : h' ≠ h) : ¬ Owns s h' p :=
  fun otherOwns => different (coherent.exclusive h' h p otherOwns owns)

theorem Coherent.keep_harts (harts : t.harts = s.harts) (contexts : ∀ p, (t.procs p).context = (s.procs p).context)
    (states : ∀ p, StateKept (s.procs p).state (t.procs p).state) : Coherent t := by
  refine ⟨?_, ?_, ?_⟩
  · intro h
    exact (coherent.harts h).kept (congrFun harts h) (fun p _ => states p)
  · intro p
    obtain ⟨resume, context, resumable⟩ := coherent.saved p
    exact ⟨resume, (contexts p).trans context, resumable⟩
  · intro h h' p
    rw [Owns, Owns, harts]
    exact coherent.exclusive h h' p

theorem Coherent.at_running (code : (s.harts h).code = .running)
    (runs : (s.harts h).runningProc = some p) : (s.harts h).stack = .process p ∧ (s.procs p).state = .running := by
  have away := (coherent.harts h).away (by simp [code]) (by simp [code]) (by simp [code])
  obtain ⟨q, stack, runs', _, place⟩ := (coherent.harts h).process away
  obtain rfl : p = q := by simpa [runs] using runs'
  rw [code] at place
  cases place with
  | active isRunning _ => exact ⟨stack, isRunning⟩

theorem Coherent.processStep {next : P → Option (System H P)}
    (preserves : ∀ p, (s.harts h).stack = .process p → (s.procs p).state = .running → next p = some t → Coherent t)
    (run : Proc.processStep s h next = some t) : Coherent t := by
  unfold Proc.processStep at run
  split at run
  next p code runs =>
    obtain ⟨stack, state⟩ := coherent.at_running code runs
    exact preserves p stack state run
  next => cases run

theorem Coherent.wakeAll [DecidableEq P] (chan : Option (Chan P)) : Coherent (s.wakeAll chan) := by
  refine coherent.keep_harts rfl (fun p => ?_) (fun p => ?_)
  · unfold System.wakeAll wakeSleepers
    dsimp only
    split <;> rfl
  · unfold System.wakeAll wakeSleepers
    dsimp only
    split
    next awakened => exact .inr ⟨awakened.2.2, rfl⟩
    next => exact .inl rfl

theorem Coherent.leaves_of_runnable (runnable : (s.procs p).state = .runnable)
    (owns : Owns s h p) : (s.harts h).code.Leaves p := by
  rcases owns with dispatches | onStack
  · have running := ((coherent.harts h).dispatch dispatches).2.2
    rw [runnable] at running
    cases running
  · obtain ⟨q, stack, _, _, place⟩ := (coherent.harts h).process (by simp [onStack])
    obtain rfl : p = q := by simpa [onStack] using stack
    rw [runnable] at place
    generalize (s.harts h).code = code at place
    cases place with
    | active isRunning => cases isRunning
    | exiting isZombie => cases isZombie
    | leaving => rfl

theorem Coherent.move [DecidableEq H] {hart : Hart H P} (own : HartAt (s.setHart h hart) h)
    (owned : ∀ q, hart.code = .dispatch q ∨ hart.stack = .process q →
      ∀ h', h' ≠ h → ¬ Owns s h' q) : Coherent (s.setHart h hart) := by
  refine coherent.step_of (fun h' different => System.setHart_of_ne _ _ _ different) own
    coherent.saved (fun _ _ _ _ => .inl rfl) ?_
  intro q owns
  exact owned q (by simpa [Owns] using owns)

end

section
variable [DecidableEq H] [DecidableEq P] (coherent : Coherent s)
include coherent

theorem Coherent.set {process : Process H P} {hart : Hart H P}
    (own : HartAt ((s.setProc p process).setHart h hart) h) (saved : Saved p process)
    (states : ∀ h', h' ≠ h → Owns s h' p → StateKept (s.procs p).state process.state)
    (owned : ∀ q, hart.code = .dispatch q ∨ hart.stack = .process q → ∀ h', h' ≠ h → ¬ Owns s h' q) :
    Coherent ((s.setProc p process).setHart h hart) := by
  refine coherent.step_of (fun h' different => System.setHart_of_ne _ _ _ different) own ?_ ?_ ?_
  · intro q
    by_cases same : q = p
    · subst same
      simpa using saved
    · simpa [System.setProc_of_ne _ _ _ same] using coherent.saved q
  · intro h' q different owns
    by_cases same : q = p
    · subst same
      simpa using states h' different owns
    · simp [StateKept, System.setProc_of_ne _ _ _ same]
  · intro q owns
    exact owned q (by simpa [Owns] using owns)

theorem Coherent.set_own {process : Process H P} {code : Code P}
    (stack : (s.harts h).stack = .process p) (place : Place p process.state code)
    (saved : process.context = (s.procs p).context) :
    Coherent ((s.setProc p process).setHart h { s.harts h with code }) := by
  obtain ⟨q, stack', runs, context, _⟩ := (coherent.harts h).process (by simp [stack])
  obtain rfl : p = q := by simpa [stack] using stack'
  refine coherent.set ?_ ?_ ?_ ?_
  · refine .onProcess (by simpa using stack) (by simpa using runs) (by simpa using context) ?_
    simpa using place
  · obtain ⟨resume, context, resumable⟩ := coherent.saved p
    exact ⟨resume, saved.trans context, resumable⟩
  · intro h' different owns
    exact absurd owns (coherent.unowned (.inr stack) different)
  · intro q owns h' different
    refine coherent.unowned ?_ different
    rcases owns with dispatches | onStack
    · simp only at dispatches
      subst dispatches
      cases place with
      | active _ resumable => cases resumable
    · exact .inr onStack

theorem Coherent.schedule
    (careful : ∀ cursor, (s.harts h).code = .scan cursor → ∀ p ∈ s.picked cursor, ∀ h', ¬ (s.harts h').code.Leaves p)
    (run : step (.schedule h) s = some t) : Coherent t := by
  simp only [step] at run
  split at run
  next cursor code =>
    obtain ⟨stack, idle⟩ := (coherent.harts h).scan code
    split at run
    next p found =>
      cases run
      have runnable : (s.procs p).state = .runnable := by
        simpa using List.find?_some found
      have unowned : ∀ h', ¬ Owns s h' p := by
        intro h' owns
        exact careful cursor code p found h' (coherent.leaves_of_runnable runnable owns)
      refine coherent.set ?_ (coherent.saved p) (fun h' _ owns => absurd owns (unowned h')) ?_
      · exact .dispatching (p := p) (by simpa using stack) (by simp) (by simp) (by simp)
      · rintro q (dispatches | onStack) h' _
        · cases dispatches
          exact unowned h'
        · rw [stack] at onStack
          cases onStack
    next =>
      cases run
      refine coherent.move ?_ ?_
      · exact .scanning (c := none) (by simpa using stack) (by simp) (by simpa using idle)
      · rintro q (dispatches | onStack)
        · cases dispatches
        · rw [stack] at onStack
          cases onStack
  next => cases run

theorem Coherent.clearRunning (run : step (.clearRunning h) s = some t) : Coherent t := by
  simp only [step] at run
  split at run
  next p code =>
    cases run
    obtain ⟨stack, _⟩ := (coherent.harts h).back code
    refine coherent.move ?_ ?_
    · exact .scanning (c := some p) (by simpa using stack) (by simp) (by simp)
    · rintro q (dispatches | onStack)
      · cases dispatches
      · rw [stack] at onStack
        cases onStack
  next => cases run

theorem Coherent.switch (run : step (.switch h) s = some t) : Coherent t := by
  simp only [step, procSwitch] at run
  split at run
  next p code =>
    obtain ⟨stack, runs, state⟩ := (coherent.harts h).dispatch code
    obtain ⟨resume, context, resumable⟩ := coherent.saved p
    rw [context] at run
    cases run
    refine coherent.move ?_ ?_
    · refine .onProcess (p := p) (by simp) (by simpa using runs) (by simp [stack]) ?_
      simpa using Place.active state resumable
    · rintro q (dispatches | onStack) h' different
      · dsimp only at dispatches
        rw [dispatches] at resumable
        cases resumable
      · cases onStack
        exact coherent.unowned (.inl code) different
  next p resume code =>
    have away := (coherent.harts h).away (by simp [code]) (by simp [code]) (by simp [code])
    obtain ⟨q, stack, runs, context, place⟩ := (coherent.harts h).process away
    rw [context] at run
    cases run
    rw [code] at place
    cases place with
    | active _ resumable => cases resumable
    | leaving published resumable =>
      refine coherent.set ?_ ?_ (fun _ _ _ => .inl rfl) ?_
      · exact .returned (p := p) (by simp) (by simp) (by simpa using runs)
      · exact ⟨resume, by rw [stack], resumable⟩
      · rintro q (dispatches | onStack)
        · cases dispatches
        · cases onStack
  next => cases run

theorem Coherent.yield (careful : ¬ (s.harts h).code.InScheduler)
    (run : step (.yield h) s = some t) : Coherent t := by
  have away := (coherent.harts h).away (fun _ code => careful (by simp [code, Code.InScheduler]))
    (fun _ code => careful (by simp [code, Code.InScheduler]))
    (fun _ code => careful (by simp [code, Code.InScheduler]))
  obtain ⟨p, stack, runs, _, place⟩ := (coherent.harts h).process away
  simp only [step, trapYield, runs] at run
  split at run
  next taken =>
    cases run
    refine coherent.set_own stack (.leaving (by simp) ?_) rfl
    generalize (s.harts h).code = code at place taken
    cases place with
    | active _ resumable => exact resumable
    | exiting isZombie => simp [isZombie] at taken
    | leaving published _ => simp [published] at taken
  next => cases run

theorem Coherent.sleep {chan : Option (Chan P)} (run : step (.sleep h chan) s = some t) : Coherent t := by
  refine coherent.processStep (fun p stack _ next => ?_) run
  cases next
  exact coherent.set_own stack (.leaving (by simp) .awake) rfl

theorem Coherent.resume (run : step (.resume h) s = some t) : Coherent t := by
  simp only [step] at run
  split at run
  next p code =>
    cases run
    have away := (coherent.harts h).away (by simp [code]) (by simp [code]) (by simp [code])
    obtain ⟨q, stack, _, _, place⟩ := (coherent.harts h).process away
    rw [code] at place
    cases place with
    | active isRunning resumable =>
      cases resumable
      exact coherent.set_own stack (.active isRunning .running) rfl
  next => cases run

theorem Coherent.kill {target : P} (run : step (.kill h target) s = some t) : Coherent t := by
  refine coherent.processStep (fun p _ _ next => ?_) run
  split at next
  next =>
    cases next
    refine coherent.keep_harts rfl (fun q => ?_) (fun q => ?_)
    · by_cases same : q = target
      · subst same
        simp
      · simp [System.setProc_of_ne _ _ _ same]
    · by_cases same : q = target
      · subst same
        simp only [StateKept, System.setProc_self]
        split
        next sleeping => exact .inr ⟨sleeping, rfl⟩
        next => exact .inl rfl
      · simp [StateKept, System.setProc_of_ne _ _ _ same]
  next =>
    cases next
    exact coherent

theorem Coherent.exit {statusCode : Int} (run : step (.exit h statusCode) s = some t) : Coherent t := by
  refine coherent.processStep (fun p stack _ next => ?_) run
  split at next
  next =>
    cases next
    exact coherent.set_own stack (.exiting rfl) rfl
  next => cases next

theorem Coherent.wakeParent (run : step (.wakeParent h) s = some t) : Coherent t := by
  simp only [step] at run
  split at run
  next p code =>
    cases run
    have woken := coherent.wakeAll ((s.procs p).parent.map .proc)
    have away := (woken.harts h).away (by simp [System.wakeAll, code])
      (by simp [System.wakeAll, code]) (by simp [System.wakeAll, code])
    obtain ⟨q, stack, _, _, place⟩ := (woken.harts h).process away
    have code' : ((s.wakeAll ((s.procs p).parent.map .proc)).harts h).code = .exiting p := code
    rw [code'] at place
    cases place with
    | active _ resumable => cases resumable
    | exiting isZombie =>
      have place : Place p ((s.wakeAll ((s.procs p).parent.map .proc)).procs p).state
        (.switchAway p .running) := .leaving (by simp [isZombie]) .running
      have left := woken.set_own stack place rfl
      rwa [System.setProc, Function.update_eq_self] at left
  next => cases run

theorem Coherent.wait {copyFails : Bool} (run : step (.wait h copyFails) s = some t) : Coherent t := by
  refine coherent.processStep (fun p stack _ next => ?_) run
  cases next
  unfold syscallWait waitRound
  split
  · split
    · exact coherent
    · exact coherent.keep_harts rfl (fun _ => rfl) (fun _ => .inl rfl)
  · split
    · exact coherent
    · exact coherent.set_own stack (.leaving (by simp) .awake) rfl

/-- What the locking of the kernel does not ensure: the scheduler takes no process that a
hart is about to leave, and no timer interrupt yields within the scheduler. -/
def Careful (s : System H P) : Action H P → Prop
  | .schedule h => ∀ cursor, (s.harts h).code = .scan cursor → ∀ p ∈ s.picked cursor,
      ∀ h', ¬ (s.harts h').code.Leaves p
  | .yield h => ¬ (s.harts h).code.InScheduler
  | _ => True

theorem Coherent.step {action : Action H P} (careful : Careful s action)
    (run : Proc.step action s = some t) : Coherent t := by
  cases action with
  | schedule h => exact coherent.schedule careful run
  | clearRunning h => exact coherent.clearRunning run
  | switch h => exact coherent.switch run
  | yield h => exact coherent.yield careful run
  | sleep h chan => exact coherent.sleep run
  | resume h => exact coherent.resume run
  | wakeup h chan =>
    cases run
    exact coherent.wakeAll chan
  | kill h target => exact coherent.kill run
  | exit h statusCode => exact coherent.exit run
  | wakeParent h => exact coherent.wakeParent run
  | wait h copyFails => exact coherent.wait run

end

/-- Every hart has entered `scheduler`, and the context of every process is one that
`proc_create` or `proc_switch` left on its kernel stack. -/
structure Initial (s : System H P) : Prop where
  harts : ∀ h, (s.harts h).stack = .hart h ∧ (s.harts h).code = .scan none ∧
    (s.harts h).runningProc = none
  saved : ∀ p, Saved p (s.procs p)

theorem Initial.coherent (initial : Initial s) : Coherent s := by
  refine ⟨?_, initial.saved, ?_⟩
  · intro h
    obtain ⟨stack, code, idle⟩ := initial.harts h
    exact .scanning stack code idle
  · intro h h' p owns
    obtain ⟨stack, code, _⟩ := initial.harts h
    simp [Owns, stack, code] at owns

def Executes (s : System H P) (h : H) (p : P) : Prop :=
  (s.harts h).runningProc = some p ∧ (s.harts h).stack = .process p

section
variable [DecidableEq H] [DecidableEq P]

def Guarded (guard : System H P → Action H P → Prop) (s t : System H P) : Prop :=
  ∃ action, guard s action ∧ step action s = some t

def Reaches : System H P → System H P → Prop :=
  Relation.ReflTransGen (Guarded fun _ _ => True)

theorem Coherent.run (coherent : Coherent s) (run : Relation.ReflTransGen (Guarded Careful) s t) : Coherent t := by
  refine run_preserves Coherent ?_ coherent run
  rintro before after coherent ⟨action, careful, taken⟩
  exact coherent.step careful taken

theorem careful_runs_exclusive (initial : Initial s) (run : Relation.ReflTransGen (Guarded Careful) s t) :
    (∀ h h' p, Executes t h p → Executes t h' p → h = h') ∧
      ∀ h h' p, (t.harts h).code = .dispatch p → (t.harts h').stack ≠ .process p := by
  have coherent := initial.coherent.run run
  refine ⟨?_, ?_⟩
  · intro h h' p executes executes'
    exact coherent.exclusive h h' p (.inr executes.2) (.inr executes'.2)
  · intro h h' p dispatches onStack
    obtain rfl := coherent.exclusive h h' p (.inl dispatches) (.inr onStack)
    obtain ⟨stack, _⟩ := (coherent.harts h).dispatch dispatches
    cases stack.symm.trans onStack

end

def twoHarts : System Bool Unit where
  harts h := ⟨.hart h, .scan none, none, none⟩
  procs p := ⟨.runnable, none, none, false, 0, some ⟨.process p, .running⟩⟩
  procList := [()]

theorem twoHarts_initial : Initial twoHarts where
  harts _ := ⟨rfl, rfl, rfl⟩
  saved _ := ⟨.running, rfl, .running⟩

/-- The process runs on the first hart, yields, and goes on on the second. -/
theorem careful_runs_exclusive_twoHarts :
    ∃ t, Initial twoHarts ∧ Relation.ReflTransGen (Guarded Careful) twoHarts t ∧
      Executes t true () ∧ ∀ h, Executes t h () → h = true := by
  have run : Relation.ReflTransGen (Guarded Careful) twoHarts _ :=
    .head ⟨.schedule false, fun _ _ _ _ h' leaves => by cases h' <;> exact leaves, rfl⟩ <|
    .head ⟨.switch false, trivial, rfl⟩ <|
    .head ⟨.yield false, id, rfl⟩ <|
    .head ⟨.switch false, trivial, rfl⟩ <|
    .head ⟨.schedule true, fun _ _ _ _ h' leaves => by cases h' <;> exact leaves, rfl⟩ <|
    .single ⟨.switch true, trivial, rfl⟩
  exact ⟨_, twoHarts_initial, run, ⟨rfl, rfl⟩, fun h executes =>
    (careful_runs_exclusive twoHarts_initial run).1 h true () executes ⟨rfl, rfl⟩⟩

/-- The first hart has made the process runnable but is still on its stack when the second
hart takes it and resumes the context that the first one has not saved. -/
theorem scheduler_runs_process_twice : ∃ dispatching both, Initial twoHarts ∧ Reaches twoHarts dispatching ∧
      (dispatching.harts true).code = .dispatch () ∧
      (dispatching.harts false).stack = .process () ∧
      Reaches dispatching both ∧ Executes both false () ∧ Executes both true () := by
  have run : Reaches twoHarts _ := .head ⟨.schedule false, trivial, rfl⟩ <| .head ⟨.switch false, trivial, rfl⟩ <|
    .head ⟨.yield false, trivial, rfl⟩ <|
    .single ⟨.schedule true, trivial, rfl⟩
  exact ⟨_, _, twoHarts_initial, run, rfl, rfl, .single ⟨.switch true, trivial, rfl⟩, ⟨rfl, rfl⟩, ⟨rfl, rfl⟩⟩

end Kalorona.Proc
