import Kalorona.Proc.Exclusive

namespace Kalorona.Proc

open Kalorona.Data

/-! # Reaping a process

`syscall_wait` frees the record, the kernel stack and the address space of a child
as soon as `proc_exit` has marked it, while a hart may still be on its way out.
-/

variable {H P : Type} {s t : System H P} {h : H} {p child : P}

/-- `syscall_wait` on this hart detaches the child and passes it to `proc_reap_detached`. -/
def Reaps [DecidableEq P] (s : System H P) (h : H) (child : P) : Prop :=
  ∃ p, (s.harts h).code = .running ∧ (s.harts h).runningProc = some p ∧
    s.zombieChild p = some child

def HoldsCursor (s : System H P) (h : H) (p : P) : Prop :=
  (s.harts h).code = .dispatch p ∨ (s.harts h).code = .back p ∨
    (s.harts h).code = .scan (some p) ∨
    ((s.harts h).stack ≠ .hart h ∧ (s.harts h).context = some ⟨.hart h, .back p⟩)

/-- The hart is through with the process. -/
structure Released (s : System H P) (h : H) (p : P) : Prop where
  notRunning : (s.harts h).runningProc ≠ some p
  offStack : (s.harts h).stack ≠ .process p
  noCursor : ¬ HoldsCursor s h p

/-- The process that a hart has, or has come back from. -/
def Hart.visits (hart : Hart H P) : Option P :=
  match hart.runningProc, hart.code with
  | some p, _ => some p
  | none, .scan cursor => cursor
  | none, _ => none

variable {hart : Hart H P}

theorem Hart.visits_of_running (runs : hart.runningProc = some p) : hart.visits = some p := by
  rw [Hart.visits, runs]

theorem Hart.visits_of_scan {cursor : Option P} (idle : hart.runningProc = none)
    (code : hart.code = .scan cursor) : hart.visits = cursor := by
  rw [Hart.visits, idle, code]

theorem Coherent.released (coherent : Coherent s) (gone : (s.harts h).visits ≠ some p) : Released s h p := by
  have notRunning : (s.harts h).runningProc ≠ some p := fun runs => gone (Hart.visits_of_running runs)
  refine ⟨notRunning, fun onStack => ?_, ?_⟩
  · obtain ⟨q, stack, runs, _⟩ := (coherent.harts h).process (by simp [onStack])
    cases onStack.symm.trans stack
    exact notRunning runs
  · rintro (dispatches | returned | scans | ⟨away, saved⟩)
    · exact notRunning ((coherent.harts h).dispatch dispatches).2.1
    · exact notRunning ((coherent.harts h).back returned).2
    · exact gone (Hart.visits_of_scan ((coherent.harts h).scan scans).2 scans)
    · obtain ⟨q, _, runs, context, _⟩ := (coherent.harts h).process away
      cases saved.symm.trans context
      exact notRunning runs

theorem processStep_some {next : P → Option (System H P)} (run : processStep s h next = some t) :
    ∃ p, (s.harts h).runningProc = some p ∧ next p = some t := by
  unfold processStep at run
  split at run
  next p _ runs => exact ⟨p, runs, run⟩
  next => cases run

/-- The harts go on with the processes they have. -/
def HartsKept (s t : System H P) : Prop :=
  ∀ h, t.harts h = s.harts h ∨ ∃ p, (s.harts h).runningProc = some p ∧ (t.harts h).runningProc = some p

theorem HartsKept.visits (kept : HartsKept s t) (h : H) : (t.harts h).visits = (s.harts h).visits := by
  rcases kept h with same | ⟨p, before, after⟩
  · rw [same]
  · rw [Hart.visits_of_running before, Hart.visits_of_running after]

/-- A state and its past: for each hart, the process that its last step of `scheduler` took. -/
structure History (H P : Type) where
  system : System H P
  taken : H → Option P

section
variable [DecidableEq H]

theorem hartsKept_setHart {base : System H P} (harts : base.harts = s.harts)
    (before : (s.harts h).runningProc = some p) (after : hart.runningProc = some p) :
    HartsKept s (base.setHart h hart) := by
  intro h'
  by_cases acting : h' = h
  · subst acting
    exact .inr ⟨p, before, by rwa [System.setHart_self]⟩
  · exact .inl (by rw [System.setHart_of_ne _ _ _ acting, harts])

def History.next (past : History H P) (action : Action H P) (t : System H P) : History H P where
  system := t
  taken := match action with
    | .schedule h => Function.update past.taken h (t.harts h).runningProc
    | _ => past.taken

variable [DecidableEq P]

/-- Besides `Careful`: after the exit of a child its parent does not wait for it until every hart
whose `scheduler` took the child has gone past it, with another step of `scheduler`. -/
def Settled (past : History H P) : Action H P → Prop
  | .wait h false => ∀ child, Reaps past.system h child → ∀ h', past.taken h' ≠ some child
  | action => Careful past.system action

def SettledStep (past after : History H P) : Prop :=
  ∃ action t, Settled past action ∧ step action past.system = some t ∧ after = past.next action t

variable {action : Action H P}

omit [DecidableEq H] in
theorem Settled.careful {past : History H P} (settled : Settled past action) : Careful past.system action := by
  cases action with
  | wait => trivial
  | _ => exact settled

omit [DecidableEq P] [DecidableEq H] in
theorem Coherent.busy (coherent : Coherent s) (h : H) (away : ¬ (s.harts h).code.InScheduler) :
    ∃ p, (s.harts h).runningProc = some p := by
  obtain ⟨p, _, runs, _⟩ := (coherent.harts h).process ((coherent.harts h).away
    (fun _ code => away (by rw [code]; trivial)) (fun _ code => away (by rw [code]; trivial))
    (fun _ code => away (by rw [code]; trivial)))
  exact ⟨p, runs⟩

theorem Coherent.hartsKept (coherent : Coherent s) (run : Proc.step action s = some t)
    (noSchedule : ∀ h, action ≠ .schedule h) (noClear : ∀ h, action ≠ .clearRunning h) : HartsKept s t := by
  have unchanged : ∀ t : System H P, t.harts = s.harts → HartsKept s t := fun t same h => .inl (by rw [same])
  cases action with
  | schedule h => exact absurd rfl (noSchedule h)
  | clearRunning h => exact absurd rfl (noClear h)
  | switch h =>
    simp only [Proc.step, procSwitch] at run
    split at run
    next p code =>
      have runs := ((coherent.harts h).dispatch code).2.1
      obtain ⟨_, _, rfl⟩ := Option.map_eq_some_iff.mp run
      exact hartsKept_setHart rfl runs runs
    next p resume code =>
      obtain ⟨q, runs⟩ := coherent.busy h (by rw [code]; exact id)
      obtain ⟨_, _, rfl⟩ := Option.map_eq_some_iff.mp run
      exact hartsKept_setHart rfl runs runs
    next => cases run
  | yield h =>
    simp only [Proc.step, trapYield] at run
    split at run
    next => cases run
    next p runs =>
      split at run
      · cases run
        exact hartsKept_setHart rfl runs runs
      · cases run
  | resume h =>
    simp only [Proc.step] at run
    split at run
    next p code =>
      obtain ⟨q, runs⟩ := coherent.busy h (by rw [code]; exact id)
      cases run
      exact hartsKept_setHart rfl runs runs
    next => cases run
  | wakeup h chan =>
    cases run
    exact unchanged _ rfl
  | wakeParent h =>
    simp only [Proc.step] at run
    split at run
    next p code =>
      obtain ⟨q, runs⟩ := coherent.busy h (by rw [code]; exact id)
      cases run
      exact hartsKept_setHart rfl runs runs
    next => cases run
  | sleep h chan =>
    obtain ⟨p, runs, run⟩ := processStep_some run
    cases run
    exact hartsKept_setHart rfl runs runs
  | kill h target =>
    obtain ⟨_, _, run⟩ := processStep_some run
    split at run <;> cases run <;> exact unchanged _ rfl
  | exit h statusCode =>
    obtain ⟨p, runs, run⟩ := processStep_some run
    split at run
    · cases run
      exact hartsKept_setHart rfl runs runs
    · cases run
  | wait h copyFails =>
    obtain ⟨p, runs, run⟩ := processStep_some run
    cases run
    unfold syscallWait waitRound
    split
    · split <;> exact unchanged _ rfl
    · split
      · exact unchanged _ rfl
      · exact hartsKept_setHart rfl runs runs

theorem Coherent.taken_next {past : History H P} (coherent : Coherent past.system)
    (run : Proc.step action past.system = some t) (known : ∀ h, past.taken h = (past.system.harts h).visits)
    (h : H) : (past.next action t).taken h = (t.harts h).visits := by
  cases action with
  | schedule acting =>
    simp only [Proc.step] at run
    split at run
    next cursor code =>
      have idle := ((coherent.harts acting).scan code).2
      by_cases same : h = acting
      · subst same
        refine (Function.update_self ..).trans ?_
        split at run
        all_goals
          cases run
          simp [Hart.visits, idle]
      · refine (Function.update_of_ne same ..).trans ?_
        rw [known]
        split at run
        all_goals
          cases run
          exact congrArg Hart.visits (System.setHart_of_ne _ _ _ same).symm
    next => cases run
  | clearRunning acting =>
    simp only [Proc.step] at run
    split at run
    next p code =>
      cases run
      refine (known h).trans ?_
      by_cases same : h = acting
      · subst same
        rw [System.setHart_self, Hart.visits_of_running ((coherent.harts h).back code).2]
        rfl
      · rw [System.setHart_of_ne _ _ _ same]
    next => cases run
  | _ =>
    rw [(coherent.hartsKept run (by simp) (by simp)).visits h]
    exact known h

theorem settled_runs_release {past : History H P} (initial : Initial s)
    (run : Relation.ReflTransGen SettledStep ⟨s, fun _ => none⟩ past) (settled : Settled past (.wait h false))
    (reaps : Reaps past.system h child) (h' : H) : Released past.system h' child := by
  obtain ⟨coherent, known⟩ := run_preserves
    (fun past : History H P => Coherent past.system ∧ ∀ h, past.taken h = (past.system.harts h).visits)
    (by
      rintro before _ ⟨coherent, known⟩ ⟨action, t, settled, taken, rfl⟩
      exact ⟨coherent.step settled.careful taken, coherent.taken_next taken known⟩)
    ⟨initial.coherent, fun h => (Hart.visits_of_scan (initial.harts h).2.2 (initial.harts h).2.1).symm⟩ run
  refine coherent.released ?_
  rw [← known]
  exact settled child reaps h'

end

def parentAndChild : System Bool Bool where
  harts h := ⟨.hart h, .scan none, none, none⟩
  procs p := ⟨.runnable, none, if p then some false else none, false, 0, some ⟨.process p, .running⟩⟩
  procList := [true, false]

theorem parentAndChild_initial : Initial parentAndChild where
  harts _ := ⟨rfl, rfl, rfl⟩
  saved _ := ⟨.running, rfl, .running⟩

/-- The child exits and its hart goes through the whole list before the parent waits. -/
theorem settled_runs_release_child : ∃ past : History Bool Bool, Initial parentAndChild ∧
      Relation.ReflTransGen SettledStep ⟨parentAndChild, fun _ => none⟩ past ∧
      Reaps past.system true true ∧ ∀ h, Released past.system h true := by
  have run : Relation.ReflTransGen SettledStep ⟨parentAndChild, fun _ => none⟩ _ :=
    .head ⟨.schedule false, _, fun _ _ _ _ h' leaves => by cases h' <;> exact leaves, rfl, rfl⟩ <|
    .head ⟨.switch false, _, trivial, rfl, rfl⟩ <|
    .head ⟨.schedule true, _, fun _ _ _ _ h' leaves => by cases h' <;> exact leaves, rfl, rfl⟩ <|
    .head ⟨.switch true, _, trivial, rfl, rfl⟩ <|
    .head ⟨.exit false 0, _, trivial, rfl, rfl⟩ <|
    .head ⟨.wakeParent false, _, trivial, rfl, rfl⟩ <|
    .head ⟨.switch false, _, trivial, rfl, rfl⟩ <|
    .head ⟨.clearRunning false, _, trivial, rfl, rfl⟩ <|
    .single ⟨.schedule false, _, fun _ _ _ _ h' leaves => by cases h' <;> exact leaves, rfl, rfl⟩
  refine ⟨_, parentAndChild_initial, run, ⟨false, rfl, rfl, by decide⟩, fun h' => ?_⟩
  refine settled_runs_release (h := true) parentAndChild_initial run ?_ ⟨false, rfl, rfl, by decide⟩ h'
  rintro _ ⟨_, _, running, found⟩ h'
  cases running
  cases found
  cases h' <;> decide

/-- The child has marked itself and released the lock; its hart still runs it, on the kernel
stack that the parent's `syscall_wait` frees. -/
theorem syscallWait_reaps_running_child :
    ∃ t, Initial parentAndChild ∧ Reaches parentAndChild t ∧ Reaps t true true ∧
      (t.harts false).runningProc = some true ∧ (t.harts false).stack = .process true ∧
      HoldsCursor t false true := by
  have run : Reaches parentAndChild _ := .head ⟨.schedule false, trivial, rfl⟩ <|
    .head ⟨.switch false, trivial, rfl⟩ <|
    .head ⟨.schedule true, trivial, rfl⟩ <|
    .head ⟨.switch true, trivial, rfl⟩ <|
    .single ⟨.exit false 0, trivial, rfl⟩
  exact ⟨_, parentAndChild_initial, run, ⟨false, rfl, rfl, by decide⟩, rfl, rfl,
    .inr (.inr (.inr ⟨by decide, rfl⟩))⟩

end Kalorona.Proc
