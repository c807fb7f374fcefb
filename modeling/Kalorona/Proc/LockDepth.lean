import Kalorona.Proc.KernelPaths
import Kalorona.Device.UartRings
import Kalorona.Kernel.Hart
import Mathlib.Data.Fintype.Defs
import Mathlib.Data.Fintype.Basic

namespace Kalorona.Proc

open Kalorona.Data Kalorona.Device

/-! # Spinlocks across context switches

Harts run the kernel's paths: each runs its scheduler, or a process that the scheduler
switched to.  A process without code is in its program, and a trap gives it code to run.
`proc_switch` is one step with the change of `running_proc`.
-/

variable {H P : Type}

/-- What the next instruction of a hart works on: its code and its interrupts, and what all
harts share. -/
structure HartView (H : Type) where
  code : List KernelCode
  traps : HartTraps
  locks : KernelLock → Option H
  txHead : Nat
  txTail : Nat

def KernelTest.txIsFull (head tail : Nat) : Bool := ulong (head + txBufferSize) == tail

def KernelTest.allows (head tail : Nat) : KernelTest → Bool → Bool
  | .txFull, outcome => outcome == txIsFull head tail
  | .txReady, outcome => !outcome || head != tail
  | .any, _ => true

/-- One instruction.  A spinlock that is held elsewhere leaves the hart spinning, and one
that it may not acquire or release stops it in `panic`. -/
def HartView.step [DecidableEq H] (h : H) (choice : Bool) (v : HartView H) : Option (HartView H) :=
  match v.code with
  | [] => none
  | .skip :: rest => some { v with code := rest }
  | .seq first second :: rest => some { v with code := first :: second :: rest }
  | .either first second :: rest => some { v with code := (if choice then first else second) :: rest }
  | .whileDo test body :: rest =>
    if test.allows v.txHead v.txTail choice then
      some { v with code := if choice then body :: .whileDo test body :: rest else rest }
    else none
  | .effect .txStore :: rest => some { v with code := rest, txTail := ulong (v.txTail + 1) }
  | .effect .txSend :: rest => some { v with code := rest, txHead := ulong (v.txHead + 1) }
  | .interrupts allowed :: rest =>
    some { v with code := rest, traps := { v.traps with interrupts := allowed } }
  | .acquire lock :: rest =>
    if v.locks lock = none then
      some { v with
        code := rest
        traps := pushoffHart v.traps
        locks := Function.update v.locks lock (some h) }
    else none
  | .release lock :: rest =>
    if v.locks lock = some h then
      match popoffHart v.traps with
      | .ok traps =>
        some { v with code := rest, traps, locks := Function.update v.locks lock none }
      | .error _ => none
    else none
  | .leave :: _ => none

/-- The hart holds exactly these spinlocks, its interrupts are off by as many, and its code
is one that keeps to the discipline from there on. -/
structure HartView.Sound (h : H) (held : List KernelLock) (v : HartView H) : Prop where
  nodup : held.Nodup
  locks : ∀ lock, lock ∈ held ↔ v.locks lock = some h
  depth : v.traps.trapPushoffDep = held.length
  masked : held ≠ [] → v.traps.interrupts = false
  code : LockCode.Accepts KernelCode.roomy held v.code

def HartView.roomy (v : HartView H) : Bool :=
  match v.code with
  | .whileDo .txFull _ :: _ => !KernelTest.txIsFull v.txHead v.txTail
  | _ => true

namespace HartView.Sound

variable {h : H} {held : List KernelLock} {v after : HartView H}

section
variable (sound : v.Sound h held)
include sound

theorem withCode {code : List KernelCode} {txHead txTail : Nat}
    (accepts : LockCode.Accepts KernelCode.roomy held code) :
    HartView.Sound h held { v with code, txHead, txTail } :=
  ⟨sound.nodup, sound.locks, sound.depth, sound.masked, accepts⟩

variable {lock : KernelLock} {rest : List KernelCode}

theorem releases
    (code : v.code = .release lock :: rest) : v.locks lock = some h ∧ ∃ traps, popoffHart v.traps = .ok traps ∧
      traps.trapPushoffDep = v.traps.trapPushoffDep - 1 ∧
      (traps.trapPushoffDep ≠ 0 → traps.interrupts = false) := by
  have accepts := sound.code
  rw [code] at accepts
  have member := accepts.release.1
  refine ⟨(sound.locks lock).mp member, ?_⟩
  have some : held ≠ [] := List.ne_nil_of_mem member
  refine popoffHart_ok (sound.masked some) ?_
  rw [sound.depth]
  exact List.length_pos_iff.mpr some

theorem leaves (code : v.code = .leave :: rest) : held = [] := by
  have accepts := sound.code
  rw [code] at accepts
  exact accepts.leave.1

theorem acquire
    (code : v.code = .acquire lock :: rest) (free : v.locks lock = none) : HartView.Sound h (lock :: held) { v with
        code := rest
        traps := pushoffHart v.traps
        locks := Function.update v.locks lock (some h) } := by
  have absent : lock ∉ held := by
    rw [sound.locks, free]
    simp
  have accepts := sound.code
  rw [code] at accepts
  refine ⟨List.nodup_cons.mpr ⟨absent, sound.nodup⟩, fun other => ?_, ?_, fun _ => rfl, accepts.acquire absent⟩
  · by_cases same : other = lock
    · simp [same]
    · simp [same, sound.locks]
  · simp [sound.depth]

theorem release {traps : HartTraps} (code : v.code = .release lock :: rest) (popped : popoffHart v.traps = .ok traps) :
    HartView.Sound h (held.erase lock)
      { v with code := rest, traps, locks := Function.update v.locks lock none } := by
  have accepts := sound.code
  rw [code] at accepts
  obtain ⟨member, accepted⟩ := accepts.release
  obtain ⟨_, traps', popped', depth, masked⟩ := sound.releases code
  cases popped.symm.trans popped'
  have length : traps.trapPushoffDep = (held.erase lock).length := by
    rw [depth, sound.depth, List.length_erase_of_mem member]
  refine ⟨sound.nodup.erase lock, fun other => ?_, length, fun some => masked ?_, accepted⟩
  · by_cases same : other = lock
    · simp [same, sound.nodup.not_mem_erase]
    · simp [same, List.mem_erase_of_ne same, sound.locks]
  · rw [length]
    exact fun empty => some (List.length_eq_zero_iff.mp empty)

theorem shared {locks : KernelLock → Option H} {txHead txTail : Nat}
    (same : ∀ lock, v.locks lock = some h ↔ locks lock = some h) :
    HartView.Sound h held { v with locks, txHead, txTail } :=
  ⟨sound.nodup, fun lock => (sound.locks lock).trans (same lock), sound.depth, sound.masked, sound.code⟩

theorem step [DecidableEq H] {choice : Bool} (roomy : v.roomy = true)
    (stepped : v.step h choice = some after) : (∃ held', after.Sound h held') ∧
      ∀ other, other ≠ h → ∀ lock, (v.locks lock = some other ↔ after.locks lock = some other) := by
  have accepts := sound.code
  cases code : v.code with
  | nil => simp [HartView.step, code] at stepped
  | cons instruction rest =>
    rw [code] at accepts
    cases instruction with
    | skip =>
      simp only [HartView.step, code, Option.some.injEq] at stepped
      subst stepped
      exact ⟨⟨held, sound.withCode accepts.skip⟩, fun _ _ _ => Iff.rfl⟩
    | seq first second =>
      simp only [HartView.step, code, Option.some.injEq] at stepped
      subst stepped
      exact ⟨⟨held, sound.withCode accepts.seq⟩, fun _ _ _ => Iff.rfl⟩
    | either first second =>
      simp only [HartView.step, code, Option.some.injEq] at stepped
      subst stepped
      refine ⟨⟨held, sound.withCode ?_⟩, fun _ _ _ => Iff.rfl⟩
      cases choice
      · exact accepts.either.2
      · exact accepts.either.1
    | whileDo test body =>
      simp only [HartView.step, code, Option.ite_none_right_eq_some, Option.some.injEq] at stepped
      obtain ⟨allowed, rfl⟩ := stepped
      refine ⟨⟨held, sound.withCode ?_⟩, fun _ _ _ => Iff.rfl⟩
      cases choice
      · exact accepts.whileDo.1
      · refine accepts.whileDo.2 ?_
        cases test with
        | txFull =>
          simp only [HartView.roomy, code, Bool.not_eq_true'] at roomy
          simp [KernelTest.allows, roomy] at allowed
        | txReady => rfl
        | any => rfl
    | effect effect =>
      cases effect
      all_goals
        simp only [HartView.step, code, Option.some.injEq] at stepped
        subst stepped
        exact ⟨⟨held, sound.withCode accepts.effect⟩, fun _ _ _ => Iff.rfl⟩
    | interrupts allowed =>
      simp only [HartView.step, code, Option.some.injEq] at stepped
      subst stepped
      obtain ⟨none, accepted⟩ := accepts.interrupts
      refine ⟨⟨held, sound.nodup, sound.locks, sound.depth, fun some => ?_, accepted⟩, fun _ _ _ => Iff.rfl⟩
      cases allowed
      · rfl
      · exact absurd (none rfl) some
    | acquire lock =>
      simp only [HartView.step, code, Option.ite_none_right_eq_some, Option.some.injEq] at stepped
      obtain ⟨free, rfl⟩ := stepped
      refine ⟨⟨lock :: held, sound.acquire code free⟩, fun other different taken => ?_⟩
      by_cases same : taken = lock
      · simp [same, free, Ne.symm different]
      · simp [same]
    | release lock =>
      obtain ⟨holds, traps, popped, _⟩ := sound.releases code
      simp only [HartView.step, code, if_pos holds, popped, Option.some.injEq] at stepped
      subst stepped
      refine ⟨⟨held.erase lock, sound.release code popped⟩, fun other different taken => ?_⟩
      by_cases same : taken = lock
      · simp [same, holds, Ne.symm different]
      · simp [same]
    | leave => simp [HartView.step, code] at stepped

end

end HartView.Sound

structure KernelHart (P : Type) where
  traps : HartTraps
  runningProc : Option P
  /-- What is left of `scheduler`, when it is not a process that runs. -/
  scheduler : List KernelCode

structure KernelProc where
  code : List KernelCode
  /-- The `interrupt_status` of `scheduler_switch`. -/
  interruptStatus : Bool

/-- Harts and processes with what they have left to run. -/
structure Kernel (H P : Type) where
  harts : H → KernelHart P
  procs : P → KernelProc
  locks : KernelLock → Option H
  txHead : Nat
  txTail : Nat

inductive KernelEvent (H P : Type) where
  | run (h : H) (choice : Bool)
  /-- `proc_switch` in `scheduler_switch`. -/
  | leave (h : H)
  /-- `proc_switch` in `scheduler`. -/
  | dispatch (h : H) (p : P)
  | trap (h : H) (cause : Trap)
  | interrupt (h : H) (cause : KernelCode.Interrupt)
deriving DecidableEq, Repr

namespace Kernel

def code (s : Kernel H P) (h : H) : List KernelCode :=
  match (s.harts h).runningProc with
  | none => (s.harts h).scheduler
  | some p => (s.procs p).code

def view (s : Kernel H P) (h : H) : HartView H :=
  ⟨s.code h, (s.harts h).traps, s.locks, s.txHead, s.txTail⟩

variable [DecidableEq H] [DecidableEq P]

def put (s : Kernel H P) (h : H) (v : HartView H) : Kernel H P :=
  match (s.harts h).runningProc with
  | none =>
    { s with
      harts := Function.update s.harts h { s.harts h with traps := v.traps, scheduler := v.code }
      locks := v.locks, txHead := v.txHead, txTail := v.txTail }
  | some p =>
    { harts := Function.update s.harts h { s.harts h with traps := v.traps }
      procs := Function.update s.procs p { s.procs p with code := v.code }
      locks := v.locks, txHead := v.txHead, txTail := v.txTail }

/-- `manager` is the object manager of the process records. -/
def step (manager : Nat) (s : Kernel H P) : KernelEvent H P → Option (Kernel H P)
  | .run h choice => ((s.view h).step h choice).map (s.put h)
  | .leave h =>
    match (s.harts h).runningProc, s.code h with
    | some p, .leave :: rest =>
      some { s with
        harts := Function.update s.harts h { s.harts h with runningProc := none }
        procs := Function.update s.procs p ⟨rest, (s.harts h).traps.trapEnabled⟩ }
    | _, _ => none
  | .dispatch h p =>
    match (s.harts h).runningProc, s.code h with
    | none, .leave :: rest =>
      let traps := { (s.harts h).traps with trapEnabled := (s.procs p).interruptStatus }
      some { s with harts := Function.update s.harts h ⟨traps, some p, rest⟩ }
    | _, _ => none
  | .trap h cause =>
    if (s.harts h).runningProc ≠ none ∧ s.code h = [] then
      some (s.put h { s.view h with code := [KernelCode.utrapHandler manager cause] })
    else none
  | .interrupt h cause =>
    if (s.harts h).traps.interrupts then
      let handler := KernelCode.ktrapHandler (s.harts h).runningProc.isSome cause
      some (s.put h { s.view h with code := handler :: s.code h })
    else none

/-- The harts find room in the transmit ring, and take only processes that no hart runs. -/
def Roomy (s : Kernel H P) : KernelEvent H P → Prop
  | .run h _ => (s.view h).roomy = true
  | .dispatch _ p => ∀ h, (s.harts h).runningProc ≠ some p
  | _ => True

instance Roomy.decidable [Fintype H] (s : Kernel H P) (event : KernelEvent H P) : Decidable (s.Roomy event) := by
  cases event <;> unfold Roomy <;> infer_instance

/-- The depth of every hart counts the locks it holds, and whatever waits holds none. -/
structure Disciplined (s : Kernel H P) : Prop where
  views : ∀ h, ∃ held, (s.view h).Sound h held
  scheduler : ∀ h, (s.harts h).runningProc ≠ none →
    LockCode.Accepts KernelCode.roomy [] (s.harts h).scheduler
  waiting : ∀ p, (∀ h, (s.harts h).runningProc ≠ some p) →
    LockCode.Accepts KernelCode.roomy [] (s.procs p).code
  exclusive : ∀ h h' p, (s.harts h).runningProc = some p → (s.harts h').runningProc = some p →
    h = h'

section
variable {s : Kernel H P} {h other : H} {v : HartView H} {p : P}

@[simp] theorem put_runningProc (s : Kernel H P) (h other : H) (v : HartView H) :
    ((s.put h v).harts other).runningProc = (s.harts other).runningProc := by
  unfold put
  split
  all_goals
    by_cases same : other = h
    · simp [same]
    · simp [same]

theorem put_view_self (s : Kernel H P) (h : H) (v : HartView H) : (s.put h v).view h = v := by
  unfold put
  split
  next idle => simp [view, code, idle]
  next p runs => simp [view, code, runs]

theorem put_view (s : Kernel H P) (h : H) : s.put h (s.view h) = s := by
  unfold put
  split
  next idle =>
    have same : s.code h = (s.harts h).scheduler := by simp [code, idle]
    simp only [view, same, Function.update_eq_self]
  next p runs =>
    have same : s.code h = (s.procs p).code := by simp [code, runs]
    simp only [view, same, Function.update_eq_self]

theorem put_put (s : Kernel H P) (h : H) (v w : HartView H) : (s.put h v).put h w = s.put h w := by
  cases runs : (s.harts h).runningProc with
  | none => simp [put, runs]
  | some p => simp [put, runs]

theorem put_view_other (different : other ≠ h)
    (exclusive : ∀ p, (s.harts h).runningProc = some p → (s.harts other).runningProc ≠ some p) :
    (s.put h v).view other = { s.view other with locks := v.locks, txHead := v.txHead, txTail := v.txTail } := by
  unfold put
  split
  next idle => simp [view, code, different]
  next p runs =>
    have notHere := exclusive p runs
    simp only [view, code, Function.update_of_ne different]
    cases elsewhere : (s.harts other).runningProc with
    | none => rfl
    | some q =>
      have differs : q ≠ p := fun same => notHere (same ▸ elsewhere)
      simp [Function.update_of_ne differs]

theorem put_scheduler (busy : (s.harts other).runningProc ≠ none) :
    ((s.put h v).harts other).scheduler = (s.harts other).scheduler := by
  unfold put
  split
  next idle =>
    have different : other ≠ h := fun same => busy (same ▸ idle)
    simp [different]
  next p runs =>
    by_cases same : other = h
    · simp [same]
    · simp [same]

theorem put_procs (waiting : (s.harts h).runningProc ≠ some p) : (s.put h v).procs p = s.procs p := by
  unfold put
  split
  next idle => rfl
  next q runs =>
    have different : p ≠ q := fun same => waiting (same ▸ runs)
    simp [different]

end

variable {s : Kernel H P}

omit [DecidableEq H] [DecidableEq P] in
theorem view_of_same {harts : H → KernelHart P} {procs : P → KernelProc}
    {other : H} (hart : harts other = s.harts other)
    (process : ∀ p, (s.harts other).runningProc = some p → procs p = s.procs p) :
    ({ s with harts, procs } : Kernel H P).view other = s.view other := by
  simp only [view, code, hart]
  cases isRunning : (s.harts other).runningProc with
  | none => rfl
  | some p => simp [process p isRunning]

namespace Disciplined

variable {s t : Kernel H P} {h : H} {v : HartView H} {held : List KernelLock} {manager : Nat}

section
variable (disciplined : s.Disciplined)
include disciplined

theorem put (sound : v.Sound h held) (others : ∀ other, other ≠ h → ∀ lock,
      (s.locks lock = some other ↔ v.locks lock = some other)) : (s.put h v).Disciplined := by
  refine ⟨fun other => ?_, fun other busy => ?_, fun p waiting => ?_, fun first second p => ?_⟩
  · by_cases same : other = h
    · rw [same, put_view_self]
      exact ⟨held, sound⟩
    · rw [put_view_other same fun p runs again => same (disciplined.exclusive other h p again runs)]
      obtain ⟨held', sound'⟩ := disciplined.views other
      exact ⟨held', sound'.shared (others other same)⟩
  · rw [put_runningProc] at busy
    rw [put_scheduler busy]
    exact disciplined.scheduler other busy
  · simp only [put_runningProc] at waiting
    rw [put_procs (waiting h)]
    exact disciplined.waiting p waiting
  · simp only [put_runningProc]
    exact disciplined.exclusive first second p

theorem run {choice : Bool} (roomy : s.Roomy (.run h choice))
    (stepped : s.step manager (.run h choice) = some t) : t.Disciplined := by
  simp only [Kernel.step, Option.map_eq_some_iff] at stepped
  obtain ⟨after, executed, rfl⟩ := stepped
  obtain ⟨held, sound⟩ := disciplined.views h
  obtain ⟨⟨held', sound'⟩, others⟩ := sound.step roomy executed
  exact disciplined.put sound' others

theorem push {code : KernelCode} (sound : (s.view h).Sound h []) (balanced : code.Balanced []) :
    (s.put h { s.view h with code := code :: s.code h }).Disciplined :=
  disciplined.put (sound.withCode (.of_ends balanced sound.code)) fun _ _ _ => Iff.rfl

theorem trap {cause : Trap} (stepped : s.step manager (.trap h cause) = some t) : t.Disciplined := by
  simp only [Kernel.step, Option.ite_none_right_eq_some, Option.some.injEq] at stepped
  obtain ⟨⟨_, user⟩, rfl⟩ := stepped
  obtain ⟨held, sound⟩ := disciplined.views h
  have none : held = [] := by
    have accepts := sound.code
    rwa [show (s.view h).code = [] from user] at accepts
  subst none
  have pushed := disciplined.push sound (KernelCode.balanced_utrapHandler manager cause)
  rwa [user] at pushed

theorem interrupt {cause : KernelCode.Interrupt}
    (stepped : s.step manager (.interrupt h cause) = some t) : t.Disciplined := by
  simp only [Kernel.step, Option.ite_none_right_eq_some, Option.some.injEq] at stepped
  obtain ⟨allowed, rfl⟩ := stepped
  obtain ⟨held, sound⟩ := disciplined.views h
  have none : held = [] := by
    by_contra some
    have masked : (s.harts h).traps.interrupts = false := sound.masked some
    rw [allowed] at masked
    cases masked
  subst none
  exact disciplined.push sound (KernelCode.balanced_ktrapHandler _ cause)

omit [DecidableEq P] in
theorem exclusive_update {hart : KernelHart P} (fresh : ∀ q other, hart.runningProc = some q → other ≠ h →
      (s.harts other).runningProc ≠ some q) (first second : H) (q : P)
    (firstRuns : (Function.update s.harts h hart first).runningProc = some q)
    (secondRuns : (Function.update s.harts h hart second).runningProc = some q) : first = second := by
  by_cases firstHere : first = h
  · by_cases secondHere : second = h
    · rw [firstHere, secondHere]
    · simp only [firstHere, Function.update_self] at firstRuns
      simp only [Function.update_of_ne secondHere] at secondRuns
      exact absurd secondRuns (fresh q second firstRuns secondHere)
  · simp only [Function.update_of_ne firstHere] at firstRuns
    by_cases secondHere : second = h
    · simp only [secondHere, Function.update_self] at secondRuns
      exact absurd firstRuns (fresh q first secondRuns firstHere)
    · simp only [Function.update_of_ne secondHere] at secondRuns
      exact disciplined.exclusive first second q firstRuns secondRuns

theorem leave (stepped : s.step manager (.leave h) = some t) : t.Disciplined := by
  simp only [Kernel.step] at stepped
  split at stepped
  next p rest runs code =>
    cases stepped
    obtain ⟨held, sound⟩ := disciplined.views h
    have accepts := sound.code
    rw [show (s.view h).code = _ from code] at accepts
    obtain ⟨none, accepted⟩ := accepts.leave
    subst none
    have busy : (s.harts h).runningProc ≠ none := by simp [runs]
    refine ⟨fun other => ?_, fun other busyAfter => ?_, fun q waiting => ?_, fun first second q => ?_⟩
    · by_cases same : other = h
      · -- the hart is back in its scheduler
        rw [same]
        refine ⟨[], sound.nodup, sound.locks, ?_, by simp, ?_⟩
        · simpa [view] using sound.depth
        · simpa [view, Kernel.code] using disciplined.scheduler h busy
      · obtain ⟨held, soundOther⟩ := disciplined.views other
        refine ⟨held, ?_⟩
        have elsewhere : (s.harts other).runningProc ≠ some p :=
          fun again => same (disciplined.exclusive other h p again runs)
        rwa [view_of_same (by simp [same]) fun q isRunning => ?_]
        simp [show q ≠ p from fun equal => elsewhere (equal ▸ isRunning)]
    · have different : other ≠ h := by
        intro same
        simp [same] at busyAfter
      simp only [Function.update_of_ne different] at busyAfter ⊢
      exact disciplined.scheduler other busyAfter
    · by_cases same : q = p
      · simpa [same] using accepted
      · simp only [Function.update_of_ne same]
        refine disciplined.waiting q fun other again => ?_
        by_cases here : other = h
        · rw [here, runs] at again
          exact same (Option.some.inj again).symm
        · have elsewhere := waiting other
          simp only [Function.update_of_ne here] at elsewhere
          exact elsewhere again
    · exact disciplined.exclusive_update (by simp) first second q
  next => cases stepped

theorem dispatch {p : P} (free : s.Roomy (.dispatch h p))
    (stepped : s.step manager (.dispatch h p) = some t) : t.Disciplined := by
  simp only [Kernel.step] at stepped
  split at stepped
  next rest idle code =>
    cases stepped
    obtain ⟨held, sound⟩ := disciplined.views h
    have accepts := sound.code
    rw [show (s.view h).code = _ from code] at accepts
    obtain ⟨none, accepted⟩ := accepts.leave
    subst none
    refine ⟨fun other => ?_, fun other busyAfter => ?_, fun q waiting => ?_, fun first second q => ?_⟩
    · by_cases same : other = h
      · -- the hart runs the process from where it was left
        rw [same]
        refine ⟨[], sound.nodup, sound.locks, ?_, by simp, ?_⟩
        · simpa [view] using sound.depth
        · simpa [view, Kernel.code] using disciplined.waiting p free
      · obtain ⟨held, soundOther⟩ := disciplined.views other
        exact ⟨held, by rwa [view_of_same (by simp [same]) fun _ _ => rfl]⟩
    · by_cases same : other = h
      · simpa [same] using accepted
      · simp only [Function.update_of_ne same] at busyAfter ⊢
        exact disciplined.scheduler other busyAfter
    · refine disciplined.waiting q fun other again => ?_
      by_cases here : other = h
      · rw [here, idle] at again
        cases again
      · have elsewhere := waiting other
        simp only [Function.update_of_ne here] at elsewhere
        exact elsewhere again
    · refine disciplined.exclusive_update ?_ first second q
      intro q other isRunning _
      exact Option.some.inj isRunning ▸ free other
  next => cases stepped

theorem step {event : KernelEvent H P} (roomy : s.Roomy event)
    (stepped : s.step manager event = some t) : t.Disciplined := by
  cases event with
  | run h choice => exact disciplined.run roomy stepped
  | leave h => exact disciplined.leave stepped
  | dispatch h p => exact disciplined.dispatch roomy stepped
  | trap h cause => exact disciplined.trap stepped
  | interrupt h cause => exact disciplined.interrupt stepped

end

end Disciplined

/-- The harts enter `scheduler`, and the processes are new: they start at `utrap_return`. -/
structure Initial (s : Kernel H P) : Prop where
  runningProc : ∀ h, (s.harts h).runningProc = none
  scheduler : ∀ h, (s.harts h).scheduler = [KernelCode.scheduler]
  depth : ∀ h, (s.harts h).traps.trapPushoffDep = 0
  procs : ∀ p, (s.procs p).code = [.interrupts false]
  locks : ∀ lock, s.locks lock = none

omit [DecidableEq H] [DecidableEq P] in
theorem Initial.disciplined (initial : s.Initial) : s.Disciplined := by
  refine ⟨fun h => ⟨[], List.nodup_nil, ?_, ?_, by simp, ?_⟩, ?_, ?_, ?_⟩
  · simp [view, initial.locks]
  · simp [view, initial.depth]
  · simp only [view, code, initial.runningProc, initial.scheduler]
    exact .of_ends KernelCode.balanced_scheduler rfl
  · intro h busy
    exact absurd (initial.runningProc h) busy
  · intro p _
    rw [initial.procs]
    rfl
  · intro h h' p isRunning
    rw [initial.runningProc] at isRunning
    cases isRunning

def RoomyStep (manager : Nat) (before after : Kernel H P) : Prop :=
  ∃ event, before.Roomy event ∧ before.step manager event = some after

section
variable {manager : Nat} {start s : Kernel H P} (initial : start.Initial)
  (run : Relation.ReflTransGen (RoomyStep manager) start s)
include initial run

theorem Initial.disciplined_of_run : s.Disciplined := by
  refine run_preserves Disciplined ?_ initial.disciplined run
  rintro before after disciplined ⟨event, roomy, stepped⟩
  exact disciplined.step roomy stepped

/-- In a run in which the transmit ring is never found full, a hart holds no spinlock where it
calls `proc_switch`, and releases only spinlocks that it is recorded in. -/
theorem switches_without_spinlock (h : H) :
    (∀ rest, s.code h = .leave :: rest → (s.harts h).traps.trapPushoffDep = 0) ∧
      ∀ lock rest, s.code h = .release lock :: rest →
        s.locks lock = some h ∧ ∃ traps, popoffHart (s.harts h).traps = .ok traps := by
  obtain ⟨held, sound⟩ := (initial.disciplined_of_run run).views h
  refine ⟨fun rest code => ?_, fun lock rest code => ?_⟩
  · have none := sound.leaves code
    have depth := sound.depth
    rw [none] at depth
    exact depth
  · obtain ⟨holds, traps, popped, _⟩ := sound.releases code
    exact ⟨holds, traps, popped⟩

end

def oneHart : Kernel Unit Unit where
  harts := fun _ => ⟨⟨false, 0, false⟩, none, [KernelCode.scheduler]⟩
  procs := fun _ => ⟨[.interrupts false], false⟩
  locks := fun _ => none
  txHead := 0
  txTail := 0

theorem oneHart_initial : oneHart.Initial := ⟨fun _ => rfl, fun _ => rfl, fun _ => rfl, fun _ => rfl, fun _ => rfl⟩

def enterKernel (cause : Trap) : List (KernelEvent Unit Unit) :=
  List.replicate 11 (.run () true) ++ [.dispatch () (), .run () false, .trap () cause]

def switches (s : Kernel Unit Unit) : Bool := (s.code ()).head? = some .leave

theorem code_of_switches {s : Kernel Unit Unit} (switching : s.switches = true) :
    ∃ rest, s.code () = .leave :: rest := by
  cases code : s.code () with
  | nil => simp [switches, code] at switching
  | cons instruction rest =>
    simp only [switches, code, List.head?_cons, Option.some.injEq, decide_eq_true_eq] at switching
    exact ⟨rest, by rw [switching]⟩

def roomyStep (s : Kernel Unit Unit) (event : KernelEvent Unit Unit) : Option (Kernel Unit Unit) :=
  if s.Roomy event then s.step 0 event else none

def yieldOnce : List (KernelEvent Unit Unit) :=
  enterKernel (.timer true) ++ List.replicate 30 (.run () false)

theorem switches_without_spinlock_timer : ∃ s, yieldOnce.foldlM roomyStep oneHart = some s ∧ s.switches = true ∧
      (s.harts ()).traps.trapPushoffDep = 0 := by
  have found : (yieldOnce.foldlM roomyStep oneHart).any switches = true := by decide +kernel
  obtain ⟨s, moved, switching⟩ := (Option.any_eq_true _ _).mp found
  have run : Relation.ReflTransGen (RoomyStep 0) oneHart s := by
    refine Relation.ReflTransGen.mono ?_ _ _ (run_of_foldlM moved)
    rintro before after ⟨event, stepped⟩
    simp only [roomyStep, Option.ite_none_right_eq_some] at stepped
    exact ⟨event, stepped⟩
  obtain ⟨rest, code⟩ := code_of_switches switching
  exact ⟨s, moved, switching, (switches_without_spinlock oneHart_initial run ()).1 rest code⟩

theorem run_of_steps {manager : Nat} {h : H} {choices : List Bool}
    {v : HartView H} (moved : choices.foldlM (fun v choice => v.step h choice) (s.view h) = some v) :
    Relation.ReflTransGen (PartialStep (step manager)) s (s.put h v) := by
  induction choices generalizing s with
  | nil =>
    cases moved
    rw [put_view]
  | cons choice rest ih =>
    rw [List.foldlM_cons] at moved
    obtain ⟨between, first, last⟩ := Option.bind_eq_some_iff.mp moved
    have stepped : s.step manager (.run h choice) = some (s.put h between) := by
      simp [step, first]
    have later : Relation.ReflTransGen (PartialStep (step manager)) (s.put h between)
        ((s.put h between).put h v) := ih (by rwa [put_view_self])
    rw [put_put] at later
    exact .head ⟨_, stepped⟩ later

def yell : List (KernelEvent Unit Unit) :=
  enterKernel (.ecall (.debugYell 1 (List.replicate 288 0) (List.replicate 8 0) 97))

/-- The transmitter stays busy: the process fills the ring with 256 characters, the first 43 from
`printf` and the others from `print_buffer`, and sleeps for room for the next one. -/
def yellBusy (s : Kernel Unit Unit) : Option (HartView Unit) :=
  (List.replicate 3620 false ++ List.replicate 8 true).foldlM
    (fun v choice => v.step () choice) (s.view ())

theorem switches_with_console_lock : oneHart.Initial ∧
      ∃ s, Relation.ReflTransGen (PartialStep (step 0)) oneHart s ∧
        (s.harts ()).runningProc = some () ∧ (∃ rest, s.code () = .leave :: rest) ∧
        s.locks .console = some () ∧ (s.harts ()).traps.trapPushoffDep = 1 := by
  have found : (yell.foldlM (step 0) oneHart).any (fun s =>
      (s.harts ()).runningProc = some () && (yellBusy s).any fun v =>
        v.code.head? = some .leave && v.locks .console = some () && v.traps.trapPushoffDep = 1) = true := by
    decide +kernel
  obtain ⟨s, entered, facts⟩ := (Option.any_eq_true _ _).mp found
  simp only [Bool.and_eq_true, decide_eq_true_eq, Option.any_eq_true] at facts
  obtain ⟨isRunning, v, moved, ⟨switching, console⟩, depth⟩ := facts
  have here := put_view_self s () v
  refine ⟨oneHart_initial, s.put () v, (run_of_foldlM entered).trans (run_of_steps moved), ?_, ?_, ?_, ?_⟩
  · rw [put_runningProc, isRunning]
  · obtain ⟨rest, code⟩ := List.head?_eq_some_iff.mp switching
    exact ⟨rest, (congrArg HartView.code here).trans code⟩
  · exact (congrFun (congrArg HartView.locks here) .console).trans console
  · exact (congrArg (fun w : HartView Unit => w.traps.trapPushoffDep) here).trans depth

end Kernel

end Kalorona.Proc
