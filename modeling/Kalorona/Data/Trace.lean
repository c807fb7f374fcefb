import Kalorona.Data.ByteMemory
import Mathlib.Data.Set.Basic
import Mathlib.Order.Interval.Set.Defs

namespace Kalorona.Data

/-! # Programs that touch memory byte by byte

A trace is a memory together with the addresses that a program has read and written on the
way to it.
-/

/-- A memory with the addresses that were read and written. -/
structure Trace where
  memory : Memory
  reads : List Nat
  writes : List Nat

/-- A program that returns a value or stops with an error. -/
abbrev Traced (ε α : Type) := StateT Trace (Except ε) α

namespace Trace

def start (memory : Memory) : Trace := ⟨memory, [], []⟩

def read (trace : Trace) (address : Nat) : Trace :=
  { trace with reads := address :: trace.reads }

def write (trace : Trace) (address : Nat) (byte : UInt8) : Trace :=
  { trace with memory := trace.memory.store address byte, writes := address :: trace.writes }

/-- Between two traces only addresses of `readable` were read and of `writable` written. -/
structure Touches (readable writable : Set Nat) (before after : Trace) : Prop where
  reads : ∀ address ∈ after.reads, address ∈ before.reads ∨ address ∈ readable
  writes : ∀ address ∈ after.writes, address ∈ before.writes ∨ address ∈ writable
  memory : ∀ address, address ∉ writable → after.memory address = before.memory address

end Trace

namespace Traced

variable {ε α : Type}

def load (address : Nat) : Traced ε UInt8 :=
  fun trace => .ok (trace.memory address, trace.read address)

def store (address : Nat) (byte : UInt8) : Traced ε Unit :=
  fun trace => .ok ((), trace.write address byte)

@[simp] theorem load_bind (address : Nat) (next : UInt8 → Traced ε α) (trace : Trace) :
    (load address >>= next) trace = next (trace.memory address) (trace.read address) := rfl

@[simp] theorem store_bind (address : Nat) (byte : UInt8) (next : Unit → Traced ε α) (trace : Trace) :
    (store address byte >>= next) trace = next () (trace.write address byte) := rfl

@[simp] theorem pure_apply (value : α) (trace : Trace) : (pure value : Traced ε α) trace = .ok (value, trace) := rfl

theorem bind_of_ok {β : Type} {first : Traced ε α} {next : α → Traced ε β} {trace middle : Trace} {value : α}
    (returned : first trace = .ok (value, middle)) : (first >>= next) trace = next value middle := by
  show (first trace >>= fun pair => next pair.1 pair.2) = next value middle
  rw [returned]
  rfl

end Traced

namespace Trace.Touches

variable {readable writable : Set Nat} {before middle after : Trace}

theorem refl (readable writable : Set Nat) (trace : Trace) : Touches readable writable trace trace :=
  ⟨fun _ => .inl, fun _ => .inl, fun _ _ => rfl⟩

theorem trans (first : Touches readable writable before middle)
    (second : Touches readable writable middle after) : Touches readable writable before after := by
  constructor
  · intro address read
    exact (second.reads address read).elim (first.reads address) .inr
  · intro address written
    exact (second.writes address written).elim (first.writes address) .inr
  · intro address kept
    rw [second.memory address kept, first.memory address kept]

theorem mono {readable' writable' : Set Nat} (touches : Touches readable writable before after)
    (moreReads : readable ⊆ readable') (moreWrites : writable ⊆ writable') :
    Touches readable' writable' before after :=
  ⟨fun address read => (touches.reads address read).imp_right fun inside => moreReads inside,
    fun address written => (touches.writes address written).imp_right fun inside => moreWrites inside,
    fun address kept => touches.memory address fun inside => kept (moreWrites inside)⟩

theorem read {address : Nat} (inside : address ∈ readable) (trace : Trace) :
    Touches readable writable trace (trace.read address) := by
  constructor
  · intro other read
    rcases List.mem_cons.mp read with rfl | earlier
    · exact .inr inside
    · exact .inl earlier
  · exact fun _ => .inl
  · exact fun _ _ => rfl

theorem write {address : Nat} (inside : address ∈ writable) (trace : Trace) (byte : UInt8) :
    Touches readable writable trace (trace.write address byte) := by
  constructor
  · exact fun _ => .inl
  · intro other written
    rcases List.mem_cons.mp written with rfl | earlier
    · exact .inr inside
    · exact .inl earlier
  · intro other kept
    exact Memory.store_other byte fun same => kept (same ▸ inside)

theorem memory_eq (touches : Touches readable ∅ before after) : after.memory = before.memory :=
  funext fun address => touches.memory address (Set.notMem_empty address)

end Trace.Touches

end Kalorona.Data
