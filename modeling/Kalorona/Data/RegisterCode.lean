import Kalorona.Data.ByteMemory
import Mathlib.Data.List.Pairwise
import Mathlib.Logic.Function.Basic

namespace Kalorona.Data

/-! # Code that saves registers

The table of a save area gives each register the offset of its word.
-/

abbrev Word := BitVec 64

inductive Instruction (R C : Type)
  | sd (source : R) (offset : Nat) (base : R)
  | ld (target : R) (offset : Nat) (base : R)
  | li (target : R) (value : Word)
  | addi (target source : R) (value : Word)
  | csrw (csr : C) (source : R)
  | csrr (target : R) (csr : C)

structure Core (R C : Type) where
  registers : R → Word
  csrs : C → Word
  memory : Memory

variable {R C : Type} [DecidableEq R] [DecidableEq C] {reach : Memory → (C → Word) → Word → Option Nat}

namespace Core

/-- `reach` says where an address leads; an address that leads nowhere is a page fault. -/
def execute (reach : Memory → (C → Word) → Word → Option Nat) (core : Core R C) :
    Instruction R C → Option (Core R C)
  | .sd source offset base => do
      let address ← reach core.memory core.csrs (core.registers base + BitVec.ofNat 64 offset)
      return { core with memory := core.memory.store64 address (core.registers source).toNat }
  | .ld target offset base => do
      let address ← reach core.memory core.csrs (core.registers base + BitVec.ofNat 64 offset)
      let word := BitVec.ofNat 64 (core.memory.load64 address)
      return { core with registers := Function.update core.registers target word }
  | .li target value => some { core with registers := Function.update core.registers target value }
  | .addi target source value =>
    some { core with registers := Function.update core.registers target (core.registers source + value) }
  | .csrw csr source => some { core with csrs := Function.update core.csrs csr (core.registers source) }
  | .csrr target csr => some { core with registers := Function.update core.registers target (core.csrs csr) }

def run (reach : Memory → (C → Word) → Word → Option Nat) (code : List (Instruction R C))
    (core : Core R C) : Option (Core R C) :=
  code.foldlM (execute reach) core

theorem run_cons {first : Instruction R C} {code : List (Instruction R C)} {core next : Core R C}
    (step : core.execute reach first = some next) : core.run reach (first :: code) = next.run reach code := by
  rw [run, List.foldlM_cons, step]
  rfl

theorem run_append {first second : List (Instruction R C)} {core next : Core R C}
    (ran : core.run reach first = some next) : core.run reach (first ++ second) = next.run reach second := by
  rw [run, List.foldlM_append, ← run, ran]
  rfl

variable (core : Core R C) {base : R} {offset address : Nat}
  (reached : reach core.memory core.csrs (core.registers base + BitVec.ofNat 64 offset) = some address)
include reached

theorem execute_sd (source : R) : core.execute reach (.sd source offset base) =
    some { core with memory := core.memory.store64 address (core.registers source).toNat } := by
  rw [execute, reached]
  rfl

theorem execute_ld (target : R) : core.execute reach (.ld target offset base) = some { core with
    registers := Function.update core.registers target (BitVec.ofNat 64 (core.memory.load64 address)) } := by
  rw [execute, reached]
  rfl

end Core

abbrev SaveTable (R : Type) := List (R × Nat)

namespace SaveTable

variable (table : SaveTable R)

/-- The words of the area at `place` are these values. -/
def Holds (values : R → Word) (place : Nat) (memory : Memory) : Prop :=
  ∀ entry ∈ table, memory.load64 (place + entry.2) = (values entry.1).toNat

def store (values : R → Word) (place : Nat) (memory : Memory) : Memory :=
  table.foldl (fun memory entry => memory.store64 (place + entry.2) (values entry.1).toNat) memory

/-- The words are in the first `size` bytes, and no two of them meet. -/
structure Fits (size : Nat) : Prop where
  inside : ∀ entry ∈ table, entry.2 + 8 ≤ size
  apart : table.Pairwise fun first second => first.2 + 8 ≤ second.2 ∨ second.2 + 8 ≤ first.2

/-- The base leads to the area, whatever its bytes are. -/
def Reached (reach : Memory → (C → Word) → Word → Option Nat) (size : Nat) (csrs : C → Word) (base : Word)
    (place : Nat) (memory : Memory) : Prop :=
  ∀ other : Memory, (∀ address, address < place ∨ place + size ≤ address → other address = memory address) →
    ∀ entry ∈ table, reach other csrs (base + BitVec.ofNat 64 entry.2) = some (place + entry.2)

def save (base : R) : List (Instruction R C) := table.map fun entry => .sd entry.1 entry.2 base

def restore (base : R) : List (Instruction R C) := table.map fun entry => .ld entry.1 entry.2 base

variable {table} {size place : Nat} {values : R → Word} {memory : Memory}

omit [DecidableEq R] in
theorem store_outside (inside : ∀ entry ∈ table, entry.2 + 8 ≤ size) {address : Nat}
    (outside : address < place ∨ place + size ≤ address) :
    table.store values place memory address = memory address := by
  induction table generalizing memory with
  | nil => rfl
  | cons entry rest ih =>
    obtain ⟨first, later⟩ := List.forall_mem_cons.mp inside
    rw [store, List.foldl_cons, ← store, ih later]
    exact Memory.store64_outside (by omega)

omit [DecidableEq R] in
theorem load64_store {offset : Nat} (apart : ∀ entry ∈ table, offset + 8 ≤ entry.2 ∨ entry.2 + 8 ≤ offset) :
    (table.store values place memory).load64 (place + offset) = memory.load64 (place + offset) := by
  induction table generalizing memory with
  | nil => rfl
  | cons entry rest ih =>
    obtain ⟨first, later⟩ := List.forall_mem_cons.mp apart
    rw [store, List.foldl_cons, ← store, ih later]
    exact Memory.load64_store64_other (by omega)

omit [DecidableEq R] in
theorem holds_store (fits : table.Fits size) (before : Memory) :
    table.Holds values place (table.store values place before) := by
  have apart := fits.apart
  clear fits
  induction table generalizing before with
  | nil => exact fun _ member => absurd member List.not_mem_nil
  | cons first rest ih =>
    obtain ⟨fromRest, restApart⟩ := List.pairwise_cons.mp apart
    rw [store, List.foldl_cons, ← store]
    refine List.forall_mem_cons.mpr ⟨?_, ih _ restApart⟩
    rw [load64_store fromRest]
    exact Memory.load64_store64_same (BitVec.isLt _)

omit [DecidableEq R] in
theorem Holds.congr {other : Memory} (holds : table.Holds values place memory)
    (same : ∀ entry ∈ table, other.load64 (place + entry.2) = memory.load64 (place + entry.2)) :
    table.Holds values place other :=
  fun entry member => (same entry member).trans (holds entry member)

omit [DecidableEq R] [DecidableEq C] in
theorem Reached.mono {part : SaveTable R} {csrs : C → Word} {base : Word} {other : Memory}
    (reached : table.Reached reach size csrs base place memory) (subset : part ⊆ table)
    (same : ∀ address, address < place ∨ place + size ≤ address → other address = memory address) :
    part.Reached reach size csrs base place other :=
  fun _ changed entry member =>
    reached _ (fun address outside => (changed address outside).trans (same address outside)) entry (subset member)

theorem run_save (core : Core R C) (base : R) (inside : ∀ entry ∈ table, entry.2 + 8 ≤ size)
    (reached : table.Reached reach size core.csrs (core.registers base) place core.memory)
    (agree : ∀ entry ∈ table, core.registers entry.1 = values entry.1) :
    core.run reach (table.save base) = some { core with memory := table.store values place core.memory } := by
  induction table generalizing core with
  | nil => rfl
  | cons entry rest ih =>
    obtain ⟨first, later⟩ := List.forall_mem_cons.mp inside
    obtain ⟨value, values⟩ := List.forall_mem_cons.mp agree
    have step := Core.execute_sd core (reached _ (fun _ _ => rfl) entry List.mem_cons_self) entry.1
    rw [save, List.map_cons, Core.run_cons step, value]
    refine ih _ later (reached.mono (List.subset_cons_self ..) fun address outside => ?_) values
    exact Memory.store64_outside (by omega)

/-- The base is loaded with what it has, or last of all. -/
theorem run_restore (core : Core R C) (base : R) (holds : table.Holds values place core.memory)
    (reached : table.Reached reach size core.csrs (core.registers base) place core.memory)
    (steady : base ∈ table.dropLast.map Prod.fst → values base = core.registers base) :
    core.run reach (table.restore base) = some { core with
      registers := fun r => if r ∈ table.map Prod.fst then values r else core.registers r } := by
  induction table generalizing core with
  | nil => rfl
  | cons entry rest ih =>
    obtain ⟨first, later⟩ := List.forall_mem_cons.mp holds
    have step := Core.execute_ld core (reached _ (fun _ _ => rfl) entry List.mem_cons_self) entry.1
    rw [first, BitVec.ofNat_toNat, BitVec.setWidth_eq] at step
    have loaded : (fun r => if r ∈ rest.map Prod.fst then values r else
        Function.update core.registers entry.1 (values entry.1) r) =
          fun r => if r ∈ (entry :: rest).map Prod.fst then values r else core.registers r := by
      funext r
      by_cases isFirst : r = entry.1
      · simp [isFirst]
      · have listed : (r ∈ (entry :: rest).map Prod.fst) = (r ∈ rest.map Prod.fst) := by simp [isFirst]
        simp only [listed, Function.update_of_ne isFirst]
    rw [restore, List.map_cons, Core.run_cons step, ← restore, ← loaded]
    cases rest with
    | nil => rfl
    | cons next rest =>
      have sameBase : Function.update core.registers entry.1 (values entry.1) base = core.registers base := by
        by_cases isBase : base = entry.1
        · rw [← isBase, Function.update_self]
          exact steady (isBase ▸ List.mem_cons_self)
        · exact Function.update_of_ne isBase ..
      refine ih _ later ?_ fun member => (steady (List.mem_cons_of_mem _ member)).trans sameBase.symm
      dsimp only
      rw [sameBase]
      exact reached.mono (List.subset_cons_self ..) fun _ _ => rfl

variable {O : Type} [DecidableEq O]

/-- The area of one owner is given new words, or none is. -/
inductive AreaStep (table : SaveTable R) (place : O → Nat) (memory : Memory) (saved : O → R → Word) :
    Memory → (O → R → Word) → Prop
  | write {after : Memory} (owner : O) {values : R → Word} (holds : table.Holds values (place owner) after)
      (others : ∀ other, other ≠ owner → ∀ entry ∈ table,
        after.load64 (place other + entry.2) = memory.load64 (place other + entry.2)) :
      AreaStep table place memory saved after (Function.update saved owner values)
  | other {after : Memory} (same : ∀ owner, ∀ entry ∈ table,
        after.load64 (place owner + entry.2) = memory.load64 (place owner + entry.2)) :
      AreaStep table place memory saved after saved

variable {place : O → Nat} {saved new : O → R → Word} {after : Memory}

omit [DecidableEq R] in
theorem AreaStep.holds (step : AreaStep table place memory saved after new)
    (kept : ∀ owner, table.Holds (saved owner) (place owner) memory) (owner : O) :
    table.Holds (new owner) (place owner) after := by
  cases step with
  | write writer holds others =>
    by_cases same : owner = writer
    · subst same
      rwa [Function.update_self]
    · rw [Function.update_of_ne same]
      exact (kept owner).congr (others owner same)
  | other same => exact (kept owner).congr (same owner)

omit [DecidableEq R] in
theorem areaStep_store (fits : table.Fits size)
    (apart : ∀ owner other, owner ≠ other → place owner + size ≤ place other ∨ place other + size ≤ place owner)
    (owner : O) (values : R → Word) : AreaStep table place memory saved
      (table.store values (place owner) memory) (Function.update saved owner values) := by
  refine .write owner (holds_store fits memory) fun other different entry member => ?_
  have inside := fits.inside entry member
  have areas := apart other owner different
  exact Memory.load64_congr fun offset bound => store_outside fits.inside (by omega)

end SaveTable

end Kalorona.Data
