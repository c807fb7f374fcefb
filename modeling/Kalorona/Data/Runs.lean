import Mathlib.Logic.Relation
import Mathlib.Data.List.Induction

namespace Kalorona.Data

/-! # Runs

A run is a finite sequence of steps of a transition relation.
-/

variable {σ : Type} {step : σ → σ → Prop} {start finish : σ}

/-- What every step preserves holds at the end of every run. -/
theorem run_preserves (invariant : σ → Prop)
    (preserved : ∀ before after, invariant before → step before after → invariant after)
    (holds : invariant start) (run : Relation.ReflTransGen step start finish) : invariant finish := by
  induction run with
  | refl => exact holds
  | tail _ last ih => exact preserved _ _ ih last

variable {ε : Type} {enabled : σ → ε → Prop} {next : σ → ε → σ}

def EventStep (enabled : σ → ε → Prop) (next : σ → ε → σ) (before after : σ) : Prop :=
  ∃ event, enabled before event ∧ after = next before event

def Allows (enabled : σ → ε → Prop) (next : σ → ε → σ) : σ → List ε → Prop
  | _, [] => True
  | s, event :: rest => enabled s event ∧ Allows enabled next (next s event) rest

instance Allows.decidable [∀ s event, Decidable (enabled s event)] :
    (s : σ) → (events : List ε) → Decidable (Allows enabled next s events)
  | _, [] => isTrue trivial
  | s, event :: rest => @instDecidableAnd _ _ _ (Allows.decidable (next s event) rest)

variable {s : σ} {events : List ε}

theorem run_of_allows (allows : Allows enabled next s events) :
    Relation.ReflTransGen (EventStep enabled next) s (events.foldl next s) := by
  induction events generalizing s with
  | nil => exact .refl
  | cons event rest ih => exact .head ⟨event, allows.1, rfl⟩ (ih allows.2)

theorem Allows.of_append {first second : List ε} (allows : Allows enabled next s (first ++ second)) :
    Allows enabled next s first ∧ Allows enabled next (first.foldl next s) second := by
  induction first generalizing s with
  | nil => exact ⟨trivial, allows⟩
  | cons event rest ih => exact ⟨⟨allows.1, (ih allows.2).1⟩, (ih allows.2).2⟩

theorem beginnings_preserve (invariant : σ → Prop) (condition : σ → ε → Prop)
    (preserved : ∀ s event, invariant s → enabled s event → condition s event → invariant (next s event))
    (allows : Allows enabled next start events) (holds : invariant start)
    (met : ∀ before event, before ++ [event] <+: events →
      condition (before.foldl next start) event) {before : List ε} (beginning : before <+: events) :
    invariant (before.foldl next start) := by
  induction before using List.reverseRecOn with
  | nil => exact holds
  | append_singleton before event ih =>
    rw [List.foldl_append, List.foldl_cons, List.foldl_nil]
    obtain ⟨rest, split⟩ := beginning
    rw [← split] at allows
    have earlier : before <+: events := ⟨event :: rest, by rw [← split]; simp⟩
    exact preserved _ _ (ih earlier) allows.of_append.1.of_append.2.1 (met before event ⟨rest, split⟩)

variable {move : σ → ε → Option σ}

/-- One event of a machine that may not be able to follow it. -/
def PartialStep (move : σ → ε → Option σ) (before after : σ) : Prop :=
  ∃ event, move before event = some after

theorem run_of_foldlM {t : σ} (moved : events.foldlM move s = some t) :
    Relation.ReflTransGen (PartialStep move) s t := by
  induction events generalizing s with
  | nil =>
    cases moved
    exact .refl
  | cons event rest ih =>
    rw [List.foldlM_cons] at moved
    obtain ⟨between, first, last⟩ := Option.bind_eq_some_iff.mp moved
    exact .head ⟨event, first⟩ (ih last)

end Kalorona.Data
