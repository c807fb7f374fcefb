import Kalorona.Memory.PageMap

namespace Kalorona.Proc

open Kalorona.Data Kalorona.Utilities Kalorona.Memory

/-! # The address space of a process

The fields of `struct proc_struct` that describe the memory of a process, and the
functions that move them.  The lookup of the record by its pid is left to the caller.
-/

/-- The part of `struct proc_struct` for the address space. -/
structure ProcSpace where
  kstackVaddr : Nat
  stackVaddr : Nat
  heapVaddr : Nat
  programBreak : Nat
  pgtbl : Nat
  trapframe : Nat

/-- `sizeof(struct trapframe_struct)` and the offsets of its fields. -/
def trapframeSize : Nat := 288
def trapframeKernelSp : Nat := 8
def trapframeUserPc : Nat := 24
def trapframeSp : Nat := 48

def vaUserStackAutoExpandThreshold : Nat := 64

def trapframeInit (memory : Memory) (trapframe stackVaddr kstackVaddr : Nat) : Memory :=
  let memory := memset memory trapframe 0 trapframeSize
  let memory := memory.store64 (trapframe + trapframeUserPc) vaUserBegin
  let memory := memory.store64 (trapframe + trapframeSp) stackVaddr
  memory.store64 (trapframe + trapframeKernelSp) (ulong (kstackVaddr + pageSize))

variable {σ : Type} [PageAllocator σ]

/-- The part of `proc_create` after the record was allocated.  It does not set
`program_break`: that is what the record held. -/
def procCreateSpace (userHandlerPa programBreak : Nat) (vm : Vmem σ) : Result (ProcSpace × Vmem σ) := do
  let stackVaddr := vaUserUserHandlerBegin
  let (pgtbl, vm) ← vmUserMakePagetable userHandlerPa vm
  let (kstackVaddr, pages) ← allocPages 0 vm.pages
  let (trapframe, pages) ← allocPages 0 pages
  if trapframe = 0 then throw .stray
  let memory := trapframeInit vm.memory trapframe stackVaddr kstackVaddr
  let (_, vm) ← vmMappages pgtbl vaUserTrapframeBegin (pmaVa2Pa trapframe) trapframeSize
    (pteFlagR ||| pteFlagW) ⟨memory, pages⟩
  return (⟨kstackVaddr, stackVaddr, vaUserBegin, programBreak, pgtbl, trapframe⟩, vm)

theorem procCreateSpace_break {userHandlerPa programBreak : Nat} {vm after : Vmem σ} {space : ProcSpace}
    (run : procCreateSpace userHandlerPa programBreak vm = .ok (space, after)) :
    space.programBreak = programBreak := by
  obtain ⟨⟨pgtbl, handler⟩, _, run⟩ := Result.bind_ok run
  obtain ⟨⟨kstack, kstackPages⟩, _, run⟩ := Result.bind_ok run
  obtain ⟨⟨frame, framePages⟩, _, run⟩ := Result.bind_ok run
  dsimp only at run
  split at run
  · cases run
  · obtain ⟨mapped, _, run⟩ := Result.bind_ok run
    cases run
    rfl

def procExtendStack (pageOrder : Nat) (space : ProcSpace) (vm : Vmem σ) : Result (Nat × ProcSpace × Vmem σ) := do
  let (extendedPages, pages) ← allocPages pageOrder vm.pages
  let size := ulong (1 <<< (pageOrder + pageShift))
  let stackVaddr := ulongSub space.stackVaddr size
  let (_, vm) ← vmMappages space.pgtbl stackVaddr (pmaVa2Pa extendedPages) size
    (pteFlagR ||| pteFlagW ||| pteFlagU) { vm with pages }
  return (extendedPages, { space with stackVaddr }, vm)

def procExtendHeap (pageOrder memFlag : Nat) (space : ProcSpace) (vm : Vmem σ) :
    Result (Nat × ProcSpace × Vmem σ) := do
  let (extendedPages, pages) ← allocPages pageOrder vm.pages
  let size := ulong (1 <<< (pageOrder + pageShift))
  let (_, vm) ← vmMappages space.pgtbl space.heapVaddr (pmaVa2Pa extendedPages) size
    (memFlag ||| pteFlagU) { vm with pages }
  return (extendedPages, { space with heapVaddr := ulong (space.heapVaddr + size) }, vm)

def expandSize (pageOrder : Nat) : Nat := ulong (pageSize <<< pageOrder)

/-- The loop of `syscall_sbrk` that looks for an order; it has no end where no order will do. -/
def expandOrder (target heapVaddr : Nat) : Nat → Nat → Result Nat
  | 0, _ => .error .hang
  | fuel + 1, pageOrder =>
    if target > ulong (heapVaddr + expandSize pageOrder) then
      expandOrder target heapVaddr fuel (pageOrder + 1)
    else .ok pageOrder

/-- `syscall_sbrk` with `a0` in the trapframe; the sign of `delta` is bit 63. -/
def syscallSbrk (a0 : Nat) (space : ProcSpace) (vm : Vmem σ) : Result (Nat × ProcSpace × Vmem σ) := do
  if a0 ≥ 2 ^ 63 ∧ ulongSub space.heapVaddr vaUserBegin < ulongSub 0 a0 then
    return (space.programBreak, space, vm)
  let target := ulong (space.programBreak + a0)
  if target > space.heapVaddr then
    -- expand
    let pageOrder ← expandOrder target space.heapVaddr 64 0
    let (addr, pages) ← allocPages pageOrder vm.pages
    if addr = 0 then return (space.programBreak, space, { vm with pages })
    let (_, vm) ← vmMappages space.pgtbl space.heapVaddr (pmaVa2Pa addr) (expandSize pageOrder)
      (pteFlagR ||| pteFlagW ||| pteFlagU) { vm with pages }
    return (target, { space with
      heapVaddr := ulong (space.heapVaddr + expandSize pageOrder), programBreak := target }, vm)
  else if target ≤ ulongSub space.heapVaddr pageSize then
    -- shrink
    let newEnd := pageRoundUp target
    let currentEnd := pageRoundDown space.heapVaddr
    let cnt := ulongSub currentEnd newEnd >>> pageShift
    let vm ← vmUnmappages space.pgtbl newEnd cnt true vm
    return (target, { space with programBreak := target }, vm)
  else return (space.programBreak, space, vm)

/-- What `syscall_sbrk` returns and leaves in `heap_vaddr` and `program_break` where every page
that it asks for is granted. -/
def sbrkBounds (a0 heapVaddr programBreak : Nat) : Result (Nat × Nat × Nat) := do
  if a0 ≥ 2 ^ 63 ∧ ulongSub heapVaddr vaUserBegin < ulongSub 0 a0 then
    return (programBreak, heapVaddr, programBreak)
  let target := ulong (programBreak + a0)
  if target > heapVaddr then
    let pageOrder ← expandOrder target heapVaddr 64 0
    return (target, ulong (heapVaddr + expandSize pageOrder), target)
  else if target ≤ ulongSub heapVaddr pageSize then return (target, heapVaddr, target)
  else return (programBreak, heapVaddr, programBreak)

def SbrkRefused (a0 : Nat) (space : ProcSpace) (vm : Vmem σ) : Prop :=
  ∃ pageOrder pages,
    expandOrder (ulong (space.programBreak + a0)) space.heapVaddr 64 0 = .ok pageOrder ∧
      allocPages pageOrder vm.pages = .ok (0, pages)

section
variable {a0 ret : Nat} {space moved : ProcSpace} {vm after : Vmem σ}
  (run : syscallSbrk a0 space vm = .ok (ret, moved, after))
include run

theorem syscallSbrk_cases : SbrkRefused a0 space vm ∧ ret = space.programBreak ∧ moved = space ∨
      ∃ heapVaddr programBreak, moved = { space with heapVaddr, programBreak } ∧
        sbrkBounds a0 space.heapVaddr space.programBreak = .ok (ret, heapVaddr, programBreak) := by
  unfold syscallSbrk at run
  unfold sbrkBounds
  split at run
  next below =>
    cases run
    exact .inr ⟨_, _, rfl, if_pos below⟩
  next notBelow =>
    rw [if_neg notBelow]
    dsimp only at run ⊢
    split at run
    next isAbove =>
      rw [if_pos isAbove]
      obtain ⟨pageOrder, found, run⟩ := Result.bind_ok run
      obtain ⟨⟨addr, pages⟩, alloc, run⟩ := Result.bind_ok run
      dsimp only at run
      split at run
      next refused =>
        cases run
        subst refused
        exact .inl ⟨⟨pageOrder, pages, found, alloc⟩, rfl, rfl⟩
      next =>
        obtain ⟨mapped, _, final⟩ := Result.bind_ok run
        cases final
        exact .inr ⟨_, _, rfl, by rw [found]; rfl⟩
    next notAbove =>
      rw [if_neg notAbove]
      split at run
      next isBelow =>
        obtain ⟨unmapped, _, final⟩ := Result.bind_ok run
        cases final
        exact .inr ⟨_, _, rfl, if_pos isBelow⟩
      next notShrunk =>
        cases run
        exact .inr ⟨_, _, rfl, if_neg notShrunk⟩

theorem syscallSbrk_trapframe : moved.trapframe = space.trapframe := by
  obtain ⟨_, _, rfl⟩ | ⟨_, _, rfl, _⟩ := syscallSbrk_cases run
  · rfl
  · rfl

end

/-- A page fault of the program; `none` is the branch that kills the process. -/
def stackPageFault (tval : Nat) (space : ProcSpace) (vm : Vmem σ) : Result (Option (ProcSpace × Vmem σ)) :=
  if tval ≥ ulongSub space.stackVaddr vaUserStackAutoExpandThreshold ∧ tval < vaUserTrapframeBegin then do
    let (_, space, vm) ← procExtendStack 0 space vm
    return some (space, vm)
  else .ok none

def freePagesLoop : Nat → Nat → σ → Result σ
  | 0, _, pages => .ok pages
  | pageCount + 1, vaddr, pages => do
      let pages ← freePage vaddr pages
      freePagesLoop pageCount (ulong (vaddr + pageSize)) pages

def freePages (addr pageCount : Nat) (pages : σ) : Result σ :=
  if addr &&& (pageSize - 1) ≠ 0 then .error (.panic "kmem_free_pages - bad address alignment")
  else freePagesLoop pageCount addr pages

/-- `proc_reap_detached` up to the release of the record. -/
def procReapSpace (space : ProcSpace) (vm : Vmem σ) : Result (Vmem σ) := do
  -- trapframe
  let vm ← vmUnmappages space.pgtbl vaUserTrapframeBegin (pageRoundUp trapframeSize >>> pageShift) true vm
  let vm ← vmUnmapUserHandler space.pgtbl vm
  -- kstack
  let pages ← freePages space.kstackVaddr 1 vm.pages
  -- stack
  let vm ← vmUnmappages space.pgtbl space.stackVaddr
    (ulongSub vaUserUserHandlerBegin space.stackVaddr >>> pageShift) true { vm with pages }
  -- heap
  vmUnmappages space.pgtbl vaUserBegin (ulongSub space.heapVaddr vaUserBegin >>> pageShift) true vm

end Kalorona.Proc
