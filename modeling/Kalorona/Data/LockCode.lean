import Mathlib.Data.List.Nodup

namespace Kalorona.Data

/-! # Code that takes locks

What a function does with locks.  `check` rejects code that could release a lock that it does not
hold, or give up the processor or allow interrupts while it holds one.
-/

/-- Code as far as locks go. -/
inductive LockCode (L T E : Type) where
  | skip
  | seq (first second : LockCode L T E)
  | acquire (lock : L)
  | release (lock : L)
  /-- Give up the processor. -/
  | leave
  | interrupts (allowed : Bool)
  | effect (effect : E)
  | whileDo (test : T) (body : LockCode L T E)
  | either (first second : LockCode L T E)
deriving DecidableEq, Repr

namespace LockCode

variable {L T E : Type}

/-- What is known where the code ends: it ends with these locks held, or it does not end,
because it acquires a lock twice. -/
inductive Verdict (L : Type) where
  | stops
  | ends (held : List L)
deriving DecidableEq, Repr

def all : List (LockCode L T E) → LockCode L T E
  | [] => .skip
  | code :: rest => .seq code (all rest)

variable [DecidableEq L]

def Verdict.join : Verdict L → Verdict L → Option (Verdict L)
  | .stops, verdict => some verdict
  | verdict, .stops => some verdict
  | .ends first, .ends second => if first = second then some (.ends first) else none

/-- The locks that are held after the code; tests that are `excluded` fail. -/
def check (excluded : T → Bool) : LockCode L T E → List L → Option (Verdict L)
  | .skip, held => some (.ends held)
  | .seq first second, held =>
    match check excluded first held with
    | some (.ends between) => check excluded second between
    | verdict => verdict
  | .acquire lock, held => some (if lock ∈ held then .stops else .ends (lock :: held))
  | .release lock, held => if lock ∈ held then some (.ends (held.erase lock)) else none
  | .leave, held => if held = [] then some (.ends []) else none
  | .interrupts allowed, held =>
    if allowed = true ∧ held ≠ [] then none else some (.ends held)
  | .effect _, held => some (.ends held)
  | .whileDo test body, held =>
    if excluded test then some (.ends held)
    else
      match check excluded body held with
      | some .stops => some (.ends held)
      | some (.ends again) => if again = held then some (.ends held) else none
      | none => none
  | .either first second, held =>
    match check excluded first held, check excluded second held with
    | some first, some second => first.join second
    | _, _ => none

/-- A stack of code that is still to run, from these locks on, and that holds none at the
end. -/
def Accepts (excluded : T → Bool) : List L → List (LockCode L T E) → Prop
  | held, [] => held = []
  | held, code :: rest =>
    match check excluded code held with
    | some (.ends after) => Accepts excluded after rest
    | some .stops => True
    | none => False

namespace Accepts

variable {excluded : T → Bool} {held : List L} {rest : List (LockCode L T E)}
  {first second body : LockCode L T E} {lock : L} {test : T}

theorem of_ends {code : LockCode L T E} {after : List L} (ends : check excluded code held = some (.ends after))
    (accepted : Accepts excluded after rest) : Accepts excluded held (code :: rest) := by
  simpa only [Accepts, ends] using accepted

theorem skip (accepted : Accepts excluded held (.skip :: rest)) : Accepts excluded held rest := accepted

theorem seq (accepted : Accepts excluded held (.seq first second :: rest)) :
    Accepts excluded held (first :: second :: rest) := by
  simp only [Accepts, check] at accepted ⊢
  cases verdict : check excluded first held with
  | none => simp [verdict] at accepted
  | some verdict' =>
    cases verdict' with
    | stops => simp
    | ends between => simpa [verdict] using accepted

theorem acquire (accepted : Accepts excluded held (.acquire lock :: rest)) (free : lock ∉ held) :
    Accepts excluded (lock :: held) rest := by
  simpa [Accepts, check, free] using accepted

theorem release (accepted : Accepts excluded held (.release lock :: rest)) :
    lock ∈ held ∧ Accepts excluded (held.erase lock) rest := by
  by_cases holds : lock ∈ held
  · exact ⟨holds, by simpa [Accepts, check, holds] using accepted⟩
  · simp [Accepts, check, holds] at accepted

theorem leave (accepted : Accepts excluded held (.leave :: rest)) : held = [] ∧ Accepts excluded [] rest := by
  by_cases none : held = []
  · exact ⟨none, by simpa [Accepts, check, none] using accepted⟩
  · simp [Accepts, check, none] at accepted

theorem interrupts {allowed : Bool} (accepted : Accepts excluded held (.interrupts allowed :: rest)) :
    (allowed = true → held = []) ∧ Accepts excluded held rest := by
  by_cases bad : allowed = true ∧ held ≠ []
  · simp [Accepts, check, bad] at accepted
  · refine ⟨fun isAllowed => ?_, ?_⟩
    · by_contra some
      exact bad ⟨isAllowed, some⟩
    · simpa only [Accepts, check, if_neg bad] using accepted

theorem effect {effect : E} (accepted : Accepts excluded held (.effect effect :: rest)) :
    Accepts excluded held rest := accepted

theorem whileDo (accepted : Accepts excluded held (.whileDo test body :: rest)) : Accepts excluded held rest ∧
      (excluded test = false → Accepts excluded held (body :: .whileDo test body :: rest)) := by
  by_cases out : excluded test = true
  · refine ⟨by simpa [Accepts, check, out] using accepted, ?_⟩
    simp [out]
  · have loop := accepted
    simp only [Accepts, check, if_neg out] at accepted
    cases verdict : check excluded body held with
    | none => simp [verdict] at accepted
    | some verdict' =>
      cases verdict' with
      | stops =>
        simp only [verdict] at accepted
        exact ⟨accepted, fun _ => by simp [Accepts, verdict]⟩
      | ends again =>
        by_cases same : again = held
        · simp only [verdict, if_pos same] at accepted
          exact ⟨accepted, fun _ => of_ends verdict (same ▸ loop)⟩
        · simp [verdict, same] at accepted

theorem either (accepted : Accepts excluded held (.either first second :: rest)) :
    Accepts excluded held (first :: rest) ∧ Accepts excluded held (second :: rest) := by
  simp only [Accepts, check] at accepted ⊢
  cases left : check excluded first held with
  | none => simp [left] at accepted
  | some leftVerdict =>
    cases right : check excluded second held with
    | none => simp [left, right] at accepted
    | some rightVerdict =>
      cases leftVerdict with
      | stops => simpa [left, right, Verdict.join] using accepted
      | ends leftHeld =>
        cases rightVerdict with
        | stops => simpa [left, right, Verdict.join] using accepted
        | ends rightHeld =>
          by_cases same : leftHeld = rightHeld
          · simpa [left, right, Verdict.join, same] using accepted
          · simp [left, right, Verdict.join, same] at accepted

end Accepts

end LockCode

end Kalorona.Data
