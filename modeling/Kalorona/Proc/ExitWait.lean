import Kalorona.Proc.Scheduler
import Kalorona.Data.Runs
import Mathlib.Data.List.Nodup

namespace Kalorona.Proc.ExitWait

open Kalorona.Data

/-! # `proc_exit` and `syscall_wait`

A step is one critical section of `proc_manager.lock`, with the switch that follows where a process
goes to sleep, as if every running process had a hart of its own.  A process that exits with
children on the list panics, since `proc_wakeup` acquires the lock that `proc_exit` holds.
-/

inductive Place where
  | outside
  /-- In `syscall_wait`, about to look for a zombie with the lock. -/
  | waiting
  /-- In the `proc_sleep` of `syscall_wait`, switched away. -/
  | asleep
  /-- In the `proc_sleep` of `syscall_wait`, where `scheduler_switch` has returned. -/
  | returned
  /-- In `proc_exit`, marked as a zombie, before the end of `proc_wakeup`. -/
  | exiting
  /-- In `proc_exit`, about to switch away. -/
  | leaving
  | gone
deriving DecidableEq, Repr

def Place.exited : Place → Bool
  | .exiting | .leaving | .gone => true
  | _ => false

/-- A process as far as exit and wait go. -/
structure Member (P : Type) where
  state : ProcState
  sleepingChan : Option (Chan P)
  parent : Option P
  killed : Bool
  exitState : Int
  place : Place
deriving DecidableEq, Repr

/-- The processes, and the calls of `syscall_wait` that returned the pid of a child, as
pairs of the caller and the child. -/
structure Family (P : Type) where
  procs : P → Member P
  procList : List P
  reaped : List (P × P)

inductive Event (P : Type) where
  | call (p : P)
  /-- One round of the loop of `syscall_wait`; the flag says that the address is not null and
  `vm_memcpyout` fails. -/
  | wait (p : P) (copyFails : Bool)
  | resume (p : P)
  | exit (p : P) (statusCode : Int)
  | wakeParent (p : P)
  | switchAway (p : P)
  | kill (p : P)
  | wakeup (chan : Option (Chan P))
  | dispatch (p : P)
  | yield (p : P)
  /-- `proc_sleep` outside `syscall_wait`, and where that call clears `sleeping_chan`. -/
  | sleepOn (p : P) (address : Nat)
  | forget (p : P)
deriving DecidableEq, Repr

variable {P : Type} [DecidableEq P]

namespace Family

def setProc (s : Family P) (p : P) (member : Member P) : Family P :=
  { s with procs := Function.update s.procs p member }

def wakeAll (s : Family P) (chan : Option (Chan P)) : Family P :=
  { s with
    procs := wakeSleepers Member.state Member.sleepingChan (fun p => { p with state := .runnable })
      s.procList chan s.procs }

def children (s : Family P) (p : P) : List P :=
  listedChildren (fun e => (s.procs e).parent) s.procList p

def zombieChild (s : Family P) (p : P) : Option P :=
  zombieAmong (fun e => (s.procs e).state) (s.children p)

def Executes (s : Family P) (p : P) (place : Place) : Prop :=
  (s.procs p).place = place ∧ (s.procs p).state = .running

instance (s : Family P) (p : P) (place : Place) : Decidable (s.Executes p place) :=
  inferInstanceAs (Decidable (_ ∧ _))

def syscallWait (s : Family P) (p : P) (copyFails : Bool) : Family P :=
  let after := s.setProc p { s.procs p with place := .outside }
  waitRound (s.zombieChild p) (s.children p) (s.procs p).killed
    -- sth wrong with the cpy, or reap the proc
    (fun child => if copyFails then after
      else { after with procList := s.procList.erase child, reaped := (p, child) :: s.reaped })
    after
    (s.setProc p { s.procs p with sleepingChan := some (.proc p), state := .sleeping, place := .asleep })

def Enabled (s : Family P) : Event P → Prop
  | .call p => s.Executes p .outside
  | .wait p _ => s.Executes p .waiting
  | .resume p => s.Executes p .returned
  | .exit p _ => s.Executes p .outside ∧ s.children p = []
  | .wakeParent p => (s.procs p).place = .exiting
  | .switchAway p => (s.procs p).place = .leaving
  | .kill p => p ∈ s.procList
  | .wakeup _ => True
  | .dispatch p => p ∈ s.procList ∧ (s.procs p).state = .runnable
  | .yield p => (s.procs p).state = .running
  | .sleepOn p _ => s.Executes p .outside
  | .forget p => s.Executes p .outside

instance Enabled.decidable (s : Family P) (event : Event P) : Decidable (s.Enabled event) := by
  cases event <;> unfold Enabled <;> infer_instance

def next (s : Family P) : Event P → Family P
  | .call p => s.setProc p { s.procs p with place := .waiting }
  | .wait p copyFails => s.syscallWait p copyFails
  | .resume p => s.setProc p { s.procs p with sleepingChan := none, place := .waiting }
  | .exit p statusCode =>
    s.setProc p { s.procs p with state := .zombie, exitState := statusCode, place := .exiting }
  | .wakeParent p =>
    (s.wakeAll ((s.procs p).parent.map .proc)).setProc p { s.procs p with place := .leaving }
  | .switchAway p => s.setProc p { s.procs p with place := .gone }
  | .kill p =>
    s.setProc p { s.procs p with
      killed := true,
      state := if (s.procs p).state = .sleeping then .runnable else (s.procs p).state }
  | .wakeup chan => s.wakeAll chan
  | .dispatch p =>
    s.setProc p { s.procs p with
      state := .running,
      place := if (s.procs p).place = .asleep then .returned else (s.procs p).place }
  | .yield p => s.setProc p { s.procs p with state := .runnable }
  | .sleepOn p address =>
    s.setProc p { s.procs p with sleepingChan := some (.other address), state := .sleeping }
  | .forget p => s.setProc p { s.procs p with sleepingChan := none }

end Family

/-- The state of a process fits its place. -/
structure Member.Fits (listed : Prop) (p : P) (member : Member P) : Prop where
  unlisted : ¬ listed → member.state = .zombie ∨ member.state = .allocated
  zombie : member.state = .zombie ↔ member.place.exited = true
  asleep : member.place = .asleep → member.sleepingChan = some (.proc p)
  spared : member.place = .asleep → member.state = .sleeping → member.killed = false

def Member.Waits (member : Member P) : Prop := member.place = .asleep ∧ member.state = .sleeping

/-- A zombie whose parent sleeps will still wake it, and every child is listed or was reaped once. -/
structure Orderly (start : List P) (s : Family P) : Prop where
  fits : ∀ p, (s.procs p).Fits (p ∈ s.procList) p
  nodup : s.procList.Nodup
  /-- A zombie whose parent waits has not yet woken it up. -/
  zombies : ∀ p c, (s.procs p).Waits → c ∈ s.procList → (s.procs c).parent = some p →
    (s.procs c).state = .zombie → (s.procs c).place = .exiting
  once : (s.reaped.map Prod.snd).Nodup
  parents : ∀ p c, (p, c) ∈ s.reaped →
    (s.procs c).parent = some p ∧ (s.procs c).state = .zombie ∧ c ∉ s.procList
  left : ∀ c ∈ start, c ∈ s.procList ∨ ∃ p, (p, c) ∈ s.reaped

variable {start : List P} {s : Family P} {p q c : P}

variable {member : Member P}

omit [DecidableEq P] in
theorem Member.Fits.listed {listed : Prop} (fits : member.Fits listed p)
    (notZombie : member.state ≠ .zombie) (notAllocated : member.state ≠ .allocated) : listed := by
  by_contra absent
  rcases fits.unlisted absent with zombie | allocated
  · exact notZombie zombie
  · exact notAllocated allocated

omit [DecidableEq P] in
theorem Member.Fits.awake {listed : Prop} (member_of : listed)
    (notZombie : member.state ≠ .zombie) (notExited : member.place.exited = false)
    (notAsleep : member.place ≠ .asleep) : member.Fits listed p where
  unlisted := fun absent => absurd member_of absent
  zombie := iff_of_false notZombie (by simp [notExited])
  asleep := fun asleep => absurd asleep notAsleep
  spared := fun asleep => absurd asleep notAsleep

/-- A step that changes one process: it keeps its parent, stays a zombie if it is one, does
not begin to wait, and does not become a zombie that has woken up its parent. -/
theorem Orderly.setProc (orderly : Orderly start s)
    (fits : member.Fits (p ∈ s.procList) p) (parent : member.parent = (s.procs p).parent)
    (stays : (s.procs p).state = .zombie → member.state = .zombie) (sleeper : member.Waits → (s.procs p).Waits)
    (child : member.state = .zombie → member.place = .exiting ∨
      ((s.procs p).state = .zombie ∧ (s.procs p).place ≠ .exiting) ∨
      ∀ w, (s.procs p).parent = some w → ¬ (s.procs w).Waits) : Orderly start (s.setProc p member) := by
  have waits : ∀ w, ((s.setProc p member).procs w).Waits → (s.procs w).Waits := by
    intro w
    by_cases same : w = p
    · rw [same]
      simp only [Family.setProc, Function.update_self]
      exact sleeper
    · simp only [Family.setProc, Function.update_of_ne same]
      exact id
  refine ⟨fun q => ?_, orderly.nodup, fun w c waiting listed isParent isZombie => ?_,
    orderly.once, fun w c gone => ?_, orderly.left⟩
  · by_cases same : q = p
    · rw [same]
      simp only [Family.setProc, Function.update_self]
      exact fits
    · simp only [Family.setProc, Function.update_of_ne same]
      exact orderly.fits q
  · have waited := waits w waiting
    by_cases same : c = p
    · rw [same] at listed isParent isZombie ⊢
      simp only [Family.setProc, Function.update_self] at isParent isZombie ⊢
      rw [parent] at isParent
      rcases child isZombie with exiting | ⟨wasZombie, notExiting⟩ | alone
      · exact exiting
      · exact absurd (orderly.zombies w p waited listed isParent wasZombie) notExiting
      · exact absurd waited (alone w isParent)
    · simp only [Family.setProc, Function.update_of_ne same] at isParent isZombie ⊢
      exact orderly.zombies w c waited listed isParent isZombie
  · obtain ⟨isParent, isZombie, absent⟩ := orderly.parents w c gone
    by_cases same : c = p
    · rw [same] at isParent isZombie absent ⊢
      simp only [Family.setProc, Function.update_self]
      exact ⟨parent.trans isParent, stays isZombie, absent⟩
    · simp only [Family.setProc, Function.update_of_ne same]
      exact ⟨isParent, isZombie, absent⟩

theorem Orderly.move {place : Place} (orderly : Orderly start s)
    (executes : s.Executes p place) (parent : member.parent = (s.procs p).parent)
    (notZombie : member.state ≠ .zombie) (notExited : member.place.exited = false)
    (notAsleep : member.place ≠ .asleep) : Orderly start (s.setProc p member) := by
  have running := executes.2
  have listed := (orderly.fits p).listed (by simp [running]) (by simp [running])
  refine orderly.setProc (.awake listed notZombie notExited notAsleep) parent ?_ ?_ ?_
  · intro isZombie
    rw [running] at isZombie
    cases isZombie
  · intro waits
    exact absurd waits.1 notAsleep
  · intro isZombie
    exact absurd isZombie notZombie

theorem Orderly.wakeAll (orderly : Orderly start s) (chan : Option (Chan P)) : Orderly start (s.wakeAll chan) := by
  have kept : ∀ q, ((s.wakeAll chan).procs q).parent = (s.procs q).parent ∧
      ((s.wakeAll chan).procs q).place = (s.procs q).place ∧
      (((s.wakeAll chan).procs q).state = .zombie ↔ (s.procs q).state = .zombie) ∧
      (((s.wakeAll chan).procs q).Waits → (s.procs q).Waits) := by
    intro q
    simp only [Family.wakeAll, wakeSleepers, Member.Waits]
    split
    next woken => simp [woken.2.2]
    next => simp
  refine ⟨fun q => ?_, orderly.nodup, fun w c waits listed isParent isZombie => ?_,
    orderly.once, fun w c gone => ?_, orderly.left⟩
  · have fits := orderly.fits q
    simp only [Family.wakeAll, wakeSleepers]
    split
    next woken =>
      refine ⟨fun absent => absurd woken.1 absent, ?_, fits.asleep, by simp⟩
      exact ⟨by simp, fun exited => absurd (fits.zombie.mpr exited) (by simp [woken.2.2])⟩
    next => exact fits
  · obtain ⟨parent, place, zombie, _⟩ := kept c
    rw [place]
    exact orderly.zombies w c ((kept w).2.2.2 waits) listed (parent ▸ isParent) (zombie.mp isZombie)
  · obtain ⟨parent, _, zombie, _⟩ := kept c
    obtain ⟨isParent, isZombie, absent⟩ := orderly.parents w c gone
    exact ⟨parent.trans isParent, zombie.mpr isZombie, absent⟩

theorem Orderly.not_waits_wakeAll (orderly : Orderly start s) (w : P) :
    ¬ ((s.wakeAll (some (.proc w))).procs w).Waits := by
  simp only [Family.wakeAll, wakeSleepers]
  split
  next => simp [Member.Waits]
  next kept =>
    rintro ⟨place, sleeping⟩
    have listed := (orderly.fits w).listed (by simp [sleeping]) (by simp [sleeping])
    exact kept ⟨listed, (orderly.fits w).asleep place, sleeping⟩

theorem Family.zombieChild_some (found : s.zombieChild p = some c) :
    c ∈ s.procList ∧ (s.procs c).parent = some p ∧ (s.procs c).state = .zombie := by
  have isZombie := List.find?_some found
  have member := List.mem_of_find?_eq_some found
  simp only [Family.children, listedChildren, List.mem_filter, decide_eq_true_eq] at member isZombie
  exact ⟨member.1, member.2, isZombie⟩

theorem Family.zombieChild_none (found : s.zombieChild p = none) (listed : c ∈ s.procList)
    (isParent : (s.procs c).parent = some p) : (s.procs c).state ≠ .zombie := by
  have absent := List.find?_eq_none.mp found c
  simp only [Family.children, listedChildren, List.mem_filter, decide_eq_true_eq] at absent
  exact absent ⟨listed, isParent⟩

section
variable (orderly : Orderly start s)
include orderly

theorem Orderly.reap (listed : c ∈ s.procList)
    (isParent : (s.procs c).parent = some p) (isZombie : (s.procs c).state = .zombie) :
    Orderly start { s with procList := s.procList.erase c, reaped := (p, c) :: s.reaped } := by
  have absent : c ∉ s.procList.erase c := orderly.nodup.not_mem_erase
  refine ⟨fun q => ?_, orderly.nodup.erase c, fun w e waits member => ?_, ?_, fun w e gone => ?_, fun e started => ?_⟩
  · have fits := orderly.fits q
    refine ⟨fun unlisted => ?_, fits.zombie, fits.asleep, fits.spared⟩
    by_cases same : q = c
    · rw [same]
      exact .inl isZombie
    · exact fits.unlisted fun member => unlisted ((List.mem_erase_of_ne same).mpr member)
  · exact orderly.zombies w e waits (List.mem_of_mem_erase member)
  · refine List.nodup_cons.mpr ⟨fun again => ?_, orderly.once⟩
    obtain ⟨⟨w, e⟩, gone, same⟩ := List.mem_map.mp again
    dsimp only at same
    exact (orderly.parents w e gone).2.2 (same ▸ listed)
  · rcases List.mem_cons.mp gone with same | before
    · cases same
      exact ⟨isParent, isZombie, absent⟩
    · obtain ⟨isParent, isZombie, unlisted⟩ := orderly.parents w e before
      exact ⟨isParent, isZombie, fun member => unlisted (List.mem_of_mem_erase member)⟩
  · by_cases same : e = c
    · exact .inr ⟨p, by simp [same]⟩
    · rcases orderly.left e started with member | ⟨w, gone⟩
      · exact .inl ((List.mem_erase_of_ne same).mpr member)
      · exact .inr ⟨w, List.mem_cons_of_mem _ gone⟩

theorem Orderly.sleep (executes : s.Executes p .waiting)
    (found : s.zombieChild p = none) (spared : (s.procs p).killed = false) :
    Orderly start (s.setProc p { s.procs p with
      sleepingChan := some (.proc p), state := .sleeping, place := .asleep }) := by
  have running := executes.2
  have listed := (orderly.fits p).listed (by simp [running]) (by simp [running])
  have notZombie : (s.procs p).state ≠ .zombie := by simp [running]
  refine ⟨fun q => ?_, orderly.nodup, fun w c waits member isParent isZombie => ?_,
    orderly.once, fun w c gone => ?_, orderly.left⟩
  · by_cases same : q = p
    · rw [same]
      simp only [Family.setProc, Function.update_self]
      exact ⟨fun absent => absurd listed absent, by simp [Place.exited], fun _ => rfl, fun _ _ => spared⟩
    · simp only [Family.setProc, Function.update_of_ne same]
      exact orderly.fits q
  · have different : c ≠ p := by
      intro same
      simp [Family.setProc, same] at isZombie
    simp only [Family.setProc, Function.update_of_ne different] at isParent isZombie ⊢
    by_cases same : w = p
    · exact absurd isZombie (Family.zombieChild_none found member (same ▸ isParent))
    · simp only [Family.setProc, Function.update_of_ne same] at waits
      exact orderly.zombies w c waits member isParent isZombie
  · obtain ⟨isParent, isZombie, absent⟩ := orderly.parents w c gone
    have different : c ≠ p := by
      intro same
      exact notZombie (same ▸ isZombie)
    simp only [Family.setProc, Function.update_of_ne different]
    exact ⟨isParent, isZombie, absent⟩

theorem Orderly.syscallWait (executes : s.Executes p .waiting)
    (copyFails : Bool) : Orderly start (s.syscallWait p copyFails) := by
  have outside : Orderly start (s.setProc p { s.procs p with place := .outside }) :=
    orderly.move executes rfl (by simp [executes.2]) rfl (by simp)
  unfold Family.syscallWait waitRound
  dsimp only
  split
  next child found =>
    obtain ⟨listed, isParent, isZombie⟩ := Family.zombieChild_some found
    split
    next => exact outside
    next =>
      have different : child ≠ p := by
        intro same
        rw [same, executes.2] at isZombie
        cases isZombie
      refine outside.reap listed ?_ ?_
      · simpa only [Family.setProc, Function.update_of_ne different] using isParent
      · simpa only [Family.setProc, Function.update_of_ne different] using isZombie
  next found =>
    split
    next => exact outside
    next stays =>
      simp only [not_or, Bool.not_eq_true] at stays
      exact orderly.sleep executes found stays.2

theorem Orderly.wakeParent (exiting : (s.procs p).place = .exiting) : Orderly start (s.next (.wakeParent p)) := by
  have isZombie := (orderly.fits p).zombie.mpr (by rw [exiting]; rfl)
  have same : (s.wakeAll ((s.procs p).parent.map .proc)).procs p = s.procs p := by
    simp [Family.wakeAll, wakeSleepers, isZombie]
  have woken := orderly.wakeAll ((s.procs p).parent.map .proc)
  have fits := woken.fits p
  rw [same] at fits
  refine woken.setProc ⟨fits.unlisted, ?_, by simp, by simp⟩ (by rw [same]) (fun _ => isZombie)
    (fun waits => ?_) fun _ => .inr (.inr fun w isParent => ?_)
  · simp [isZombie, Place.exited]
  · cases waits.1
  · rw [same] at isParent
    rw [isParent]
    exact orderly.not_waits_wakeAll w

theorem Orderly.next {event : Event P} (enabled : s.Enabled event) : Orderly start (s.next event) := by
  cases event with
  | call p => exact orderly.move enabled rfl (by simp [enabled.2]) rfl (by simp)
  | wait p copyFails => exact orderly.syscallWait enabled copyFails
  | resume p => exact orderly.move enabled rfl (by simp [enabled.2]) rfl (by simp)
  | exit p statusCode =>
    have running := enabled.1.2
    have listed := (orderly.fits p).listed (by simp [running]) (by simp [running])
    refine orderly.setProc ⟨fun absent => absurd listed absent, by simp [Place.exited],
      by simp, by simp⟩ rfl (fun _ => rfl) (fun waits => ?_) (fun _ => .inl rfl)
    cases waits.1
  | wakeParent p => exact orderly.wakeParent enabled
  | switchAway p =>
    have leaving : (s.procs p).place = .leaving := enabled
    have fits := orderly.fits p
    have isZombie := fits.zombie.mpr (by rw [leaving]; rfl)
    refine orderly.setProc ⟨fits.unlisted, by simp [isZombie, Place.exited], by simp, by simp⟩ rfl
      (fun _ => isZombie) (fun waits => ?_) fun _ => .inr (.inl ⟨isZombie, by simp [leaving]⟩)
    cases waits.1
  | kill p =>
    have fits := orderly.fits p
    by_cases sleeping : (s.procs p).state = .sleeping
    · have notExited : ¬ (s.procs p).place.exited = true := by
        simp [← fits.zombie, sleeping]
      simp only [Family.next, if_pos sleeping]
      exact orderly.setProc ⟨fun absent => absurd enabled absent, iff_of_false (by simp) notExited,
        fits.asleep, by simp⟩ rfl (by simp [sleeping]) (by simp [Member.Waits]) (by simp)
    · simp only [Family.next, if_neg sleeping]
      refine orderly.setProc ⟨fits.unlisted, fits.zombie, fits.asleep,
        fun _ again => absurd again sleeping⟩ rfl id (fun waits => absurd waits.2 sleeping) ?_
      intro isZombie
      by_cases exiting : (s.procs p).place = .exiting
      · exact .inl exiting
      · exact .inr (.inl ⟨isZombie, exiting⟩)
  | wakeup chan => exact orderly.wakeAll chan
  | dispatch p =>
    obtain ⟨listed, runnable⟩ := enabled
    have notExited : (s.procs p).place.exited = false := by
      simpa [runnable] using (orderly.fits p).zombie
    refine orderly.setProc (.awake listed (by simp) ?_ ?_) rfl (by simp [runnable])
      (by simp [Member.Waits]) (by simp)
    · dsimp only
      split
      · rfl
      · exact notExited
    · dsimp only
      split
      next => simp
      next awake => exact awake
  | yield p =>
    have running : (s.procs p).state = .running := enabled
    have fits := orderly.fits p
    have listed := fits.listed (by simp [running]) (by simp [running])
    have notExited : ¬ (s.procs p).place.exited = true := by
      simp [← fits.zombie, running]
    exact orderly.setProc ⟨fun absent => absurd listed absent, iff_of_false (by simp) notExited,
      fits.asleep, by simp⟩ rfl (by simp [running]) (by simp [Member.Waits]) (by simp)
  | sleepOn p address =>
    exact orderly.move enabled rfl (by simp) (by simp [enabled.1, Place.exited]) (by simp [enabled.1])
  | forget p =>
    exact orderly.move enabled rfl (by simp [enabled.2]) (by simp [enabled.1, Place.exited]) (by simp [enabled.1])

end

structure Initial (s : Family P) : Prop where
  places : ∀ p, (s.procs p).place = .outside
  living : ∀ p, (s.procs p).state ≠ .zombie
  unlisted : ∀ p, p ∉ s.procList → (s.procs p).state = .allocated
  nodup : s.procList.Nodup
  reaped : s.reaped = []

omit [DecidableEq P] in
theorem Initial.orderly (initial : Initial s) : Orderly s.procList s := by
  refine ⟨fun p => ?_, initial.nodup, fun p _ waits => ?_, ?_, fun p c gone => ?_, fun c listed => .inl listed⟩
  · have place := initial.places p
    exact ⟨fun absent => .inr (initial.unlisted p absent),
      iff_of_false (initial.living p) (by simp [place, Place.exited]), by simp [place],
      by simp [place]⟩
  · cases (initial.places p).symm.trans waits.1
  · simp [initial.reaped]
  · simp [initial.reaped] at gone

theorem Initial.orderly_of_run {first : Family P} (initial : Initial first)
    (run : Relation.ReflTransGen (EventStep Family.Enabled Family.next) first s) : Orderly first.procList s := by
  refine run_preserves (Orderly first.procList) ?_ initial.orderly run
  rintro before after orderly ⟨event, enabled, rfl⟩
  exact orderly.next enabled

theorem Family.syscallWait_copy_fails (found : s.zombieChild p = some c) :
    (s.syscallWait p true).procList = s.procList ∧
      (s.syscallWait p true).reaped = s.reaped := by
  simp [Family.syscallWait, waitRound, found, Family.setProc]

/-- In every run, each child is returned to its parent once, as a zombie, and leaves the list
then; a failed copy removes nobody; and nobody waits for a zombie that has woken it up, or
after it was killed. -/
theorem exit_wait_protocol {first s : Family P} (initial : Initial first)
    (run : Relation.ReflTransGen (EventStep Family.Enabled Family.next) first s) : (s.reaped.map Prod.snd).Nodup ∧
      (∀ p c, (p, c) ∈ s.reaped → (s.procs c).parent = some p ∧ (s.procs c).state = .zombie) ∧
      (∀ c ∈ first.procList, c ∉ s.procList ↔ ∃ p, (p, c) ∈ s.reaped) ∧
      (∀ p c, s.Enabled (.wait p true) → s.zombieChild p = some c → (s.next (.wait p true)).procList = s.procList ∧
          (s.next (.wait p true)).reaped = s.reaped) ∧
      (∀ p c, (s.procs p).place = .asleep → (s.procs p).state = .sleeping → c ∈ s.procList →
        (s.procs c).parent = some p → (s.procs c).state = .zombie →
        (s.procs c).place = .exiting) ∧
      ∀ p, (s.procs p).place = .asleep → (s.procs p).state = .sleeping →
        (s.procs p).killed = false := by
  have orderly := initial.orderly_of_run run
  refine ⟨orderly.once, fun p c gone => ?_, fun c started => ⟨fun absent => ?_, ?_⟩,
    fun p c _ found => Family.syscallWait_copy_fails found,
    fun p c asleep sleeping => orderly.zombies p c ⟨asleep, sleeping⟩,
    fun p => (orderly.fits p).spared⟩
  · obtain ⟨isParent, isZombie, _⟩ := orderly.parents p c gone
    exact ⟨isParent, isZombie⟩
  · exact (orderly.left c started).resolve_left absent
  · rintro ⟨p, gone⟩
    exact (orderly.parents p c gone).2.2

def Family.parentAndChild : Family Bool where
  procs := fun p => ⟨.running, none, if p then none else some true, false, 0, .outside⟩
  procList := [true, false]
  reaped := []

def waitTwice : List (Event Bool) :=
  [.call true, .wait true false, .exit false 3, .kill true, .dispatch true, .resume true,
    .wait true true, .call true, .wait true false, .wakeParent false, .switchAway false]

theorem exit_wait_protocol_twice : false ∉ (waitTwice.foldl Family.next Family.parentAndChild).procList := by
  have initial : Initial Family.parentAndChild := ⟨fun _ => rfl, by decide, by decide, by decide, rfl⟩
  obtain ⟨_, _, left, _⟩ := exit_wait_protocol initial
    (run_of_allows (show Allows Family.Enabled Family.next _ waitTwice by decide))
  exact (left false (by decide)).mpr ⟨true, by decide⟩

end Kalorona.Proc.ExitWait
