import Kalorona.Data.RegisterCode
import Kalorona.Memory.UserRoundTrip
import Kalorona.Proc.Fork

namespace Kalorona.Proc

open Kalorona.Data Kalorona.Memory Kalorona.Utilities

/-! # Registers across traps and switches

The assembly code that goes between programs and the kernel and between contexts of the kernel.  The
jump at the end of each piece is left to what follows, and `sfence.vma` does nothing where
addresses are looked up in the tables themselves.
-/

inductive Register
  | ra | sp | gp | tp | t0 | t1 | t2 | s0 | s1 | a0 | a1 | a2 | a3 | a4 | a5 | a6 | a7
  | s2 | s3 | s4 | s5 | s6 | s7 | s8 | s9 | s10 | s11 | t3 | t4 | t5 | t6
  deriving DecidableEq

inductive Csr
  | sscratch | satp
  deriving DecidableEq

/-- The registers in the order in which the frames keep them. -/
def registerOrder : List Register :=
  [.ra, .sp, .gp, .tp, .t0, .t1, .t2, .s0, .s1, .a0, .a1, .a2, .a3, .a4, .a5, .a6, .a7,
    .s2, .s3, .s4, .s5, .s6, .s7, .s8, .s9, .s10, .s11, .t3, .t4, .t5, .t6]

def trapframeVa : Word := BitVec.ofNat 64 vaUserTrapframeBegin

def consecutive (first : Nat) (registers : List Register) : SaveTable Register :=
  registers.zipIdx.map fun entry => (entry.1, first + 8 * entry.2)

def userRegisters : SaveTable Register := (consecutive 40 registerOrder).filter fun entry => entry.1 ≠ .a0

/-- The words of a trapframe, as `user_handler` writes them. -/
def trapframeRegisters : SaveTable Register := userRegisters ++ [(.a0, trapframeA0)]

/-- `kernel_sp`, `kernel_hartid`, `kernel_handler_addr` and `kernel_satp`. -/
def kernelFields : SaveTable Register := [(.sp, trapframeKernelSp), (.tp, 32), (.t0, 16), (.t1, 0)]

def userHandler : List (Instruction Register Csr) :=
  -- temporarily save a0 to sscratch
  .csrw .sscratch .a0 :: .li .a0 trapframeVa :: (userRegisters.save .a0 ++
    .csrr .t0 .sscratch :: .sd .t0 trapframeA0 .a0 :: (kernelFields.restore .a0 ++ [.csrw .satp .t1]))

def userReturn : List (Instruction Register Csr) :=
  .csrw .satp .a0 :: .li .a0 trapframeVa :: trapframeRegisters.restore .a0

def kernelFrame : SaveTable Register := consecutive 0 registerOrder

/-- `kernel_handler` up to the call of `ktrap_handler`. -/
def kernelEntry : List (Instruction Register Csr) := .addi .sp .sp (-256) :: kernelFrame.save .sp

/-- `kernel_handler` from there on; `tp` is not loaded. -/
def kernelExit : List (Instruction Register Csr) :=
  SaveTable.restore (kernelFrame.filter fun entry => entry.1 ≠ .tp) .sp ++ [.addi .sp .sp 256]

def contextRegisters : SaveTable Register :=
  consecutive 0 [.ra, .sp, .s0, .s1, .s2, .s3, .s4, .s5, .s6, .s7, .s8, .s9, .s10, .s11]

/-- `sizeof(struct context_struct)`. -/
def contextSize : Nat := 112

def procSwitchCode : List (Instruction Register Csr) := contextRegisters.save .a0 ++ contextRegisters.restore .a1

theorem trapframeRegisters_fits : trapframeRegisters.Fits trapframeSize := ⟨by decide +kernel, by decide +kernel⟩

theorem kernelFrame_fits : kernelFrame.Fits 256 := ⟨by decide +kernel, by decide +kernel⟩

theorem contextRegisters_fits : contextRegisters.Fits contextSize := ⟨by decide, by decide⟩

theorem loaded_base (registers : Register → Word) : Function.update registers .a0 trapframeVa .a0 = trapframeVa :=
  Function.update_self ..

theorem outside_trapframe {frame address : Nat} (outside : address ∉ frameBytes frame) :
    address < frameVa frame ∨ frameVa frame + trapframeSize ≤ address := by
  have notIn : ¬ (frameVa frame ≤ address ∧ address < frameVa frame + pageSize) := outside
  unfold trapframeSize
  unfold pageSize at notIn
  omega

section
/-- The `satp` of the kernel's table, and the page allocator. -/
structure Paging (σ : Type) where
  kernelSatp : Word
  pages : σ

variable {σ : Type} [PageAllocator σ] {paging : Paging σ} {csrs : Csr → Word} {memory : Memory}

/-- `VA_KERNEL_IMG_BEGIN`. -/
def vaKernelImgBegin : Nat := 0xFFFFFFFF80000000

/-- What `setup_mmu` enters into the kernel's table: the direct map, and one entry of the root, 2^30
bytes, for the kernel image. -/
def KernelMapped (first size : Nat) : Prop :=
  vaKernelBegin ≤ first ∧ first + size ≤ vaKernelBegin + vaKernelPmaSize ∨
    vaKernelImgBegin ≤ first ∧ first + size ≤ vaKernelImgBegin + 2 ^ 30

instance {first size : Nat} : Decidable (KernelMapped first size) := inferInstanceAs (Decidable (_ ∨ _))

/-- Where the eight bytes at an address are: under the kernel's own table as `setup_mmu` has mapped them; in
the table of a process the supervisor may use the pages without U. -/
def Paging.reach (paging : Paging σ) (memory : Memory) (csrs : Csr → Word) (address : Word) : Option Nat :=
  if csrs .satp = paging.kernelSatp then if KernelMapped address.toNat 8 then some address.toNat else none
  else if address.toNat < 2 ^ 38 then do
    let entry ← pageMap (frameVa ((csrs .satp).toNat % 2 ^ 44)) ⟨memory, paging.pages⟩ (address.toNat / pageSize)
    if entry.2 &&& (pteFlagR ||| pteFlagW ||| pteFlagU) = pteFlagR ||| pteFlagW then
      some (frameVa entry.1 + address.toNat % pageSize)
    else none
  else none

/-- A board with sixteen pages, and no table yet. -/
def bootPaging : Paging Kmem := ⟨0, kmemOfBootmem (smallNode 16 0)⟩

/-- `SATP(VMEM_MODE, PMA_VA2PA(pgtbl))`. -/
def satpOf (pgtbl : Nat) : Word := BitVec.ofNat 64 (8 <<< 60 ||| pmaVa2Pa pgtbl >>> pageShift)

theorem satpOf_frameVa {root : Nat} (bounded : root < 2 ^ 26) : (satpOf (frameVa root)).toNat % 2 ^ 44 = root := by
  have shifted : pmaVa2Pa (frameVa root) >>> pageShift = root := by
    rw [pmaVa2Pa_frameVa bounded, Nat.shiftRight_eq_div_pow]
    exact Nat.mul_div_cancel root (by decide)
  rw [satpOf, shifted, BitVec.toNat_ofNat, Nat.mod_mod_of_dvd _ (by decide), Nat.or_mod_two_pow,
    Nat.mod_eq_of_lt (show root < 2 ^ 44 by omega)]
  exact Nat.zero_or root

theorem kernel_reached {table : SaveTable Register} {base : Word} {size : Nat} (inKernel : csrs .satp = paging.kernelSatp)
    (inside : ∀ entry ∈ table, entry.2 + 8 ≤ size) (mapped : KernelMapped base.toNat size) :
    table.Reached paging.reach size csrs base base.toNat memory := by
  intro other _ entry member
  have fits := inside entry member
  unfold KernelMapped vaKernelBegin vaKernelPmaSize vaKernelImgBegin at mapped
  have sum : (base + BitVec.ofNat 64 entry.2).toNat = base.toNat + entry.2 := by
    rw [BitVec.toNat_add, BitVec.toNat_ofNat]
    omega
  rw [Paging.reach, if_pos inKernel, sum, if_pos]
  unfold KernelMapped vaKernelBegin vaKernelPmaSize vaKernelImgBegin
  omega

/-- Whatever `ktrap_handler` does, on this hart or after a switch on another one, a kernel thread that
is interrupted gets its registers back if its stack pointer and its frame are kept; only `tp`
stays that of the hart. -/
theorem kernel_trap_keeps_registers {core : Core Register Csr} (inKernel : core.csrs .satp = paging.kernelSatp)
    (stack : KernelMapped ((core.registers .sp).toNat - 256) 256) :
    ∃ entered, core.run paging.reach kernelEntry = some entered ∧
      (∀ address, address < (core.registers .sp).toNat - 256 ∨ (core.registers .sp).toNat ≤ address →
        entered.memory address = core.memory address) ∧
      ∀ handled : Core Register Csr, handled.csrs .satp = paging.kernelSatp →
        handled.registers .sp = entered.registers .sp →
        (∀ offset < 256, handled.memory ((core.registers .sp).toNat - 256 + offset) =
          entered.memory ((core.registers .sp).toNat - 256 + offset)) →
        ∃ left, handled.run paging.reach kernelExit = some left ∧
          left.memory = handled.memory ∧
          ∀ r, left.registers r = if r = .tp then handled.registers .tp else core.registers r := by
  obtain ⟨values, lowered, place⟩ : ∃ values : Register → Word,
      Function.update core.registers .sp (core.registers .sp + -256) = values ∧
        (values .sp).toNat + 256 = (core.registers .sp).toNat := by
    refine ⟨_, rfl, ?_⟩
    rw [Function.update_self, BitVec.toNat_add, show (-256 : Word).toNat = 2 ^ 64 - 256 by decide]
    have word := (core.registers .sp).isLt
    unfold KernelMapped vaKernelBegin vaKernelImgBegin at stack
    omega
  rw [← place, Nat.add_sub_cancel] at stack ⊢
  have reached (csrs : Csr → Word) (memory : Memory) (kernel : csrs .satp = paging.kernelSatp) :
      kernelFrame.Reached paging.reach 256 csrs (values .sp) (values .sp).toNat memory :=
    kernel_reached kernel kernelFrame_fits.inside stack
  refine ⟨⟨values, core.csrs, kernelFrame.store values (values .sp).toNat core.memory⟩, ?_, ?_, ?_⟩
  · rw [kernelEntry, Core.run_cons rfl, lowered]
    exact SaveTable.run_save _ _ kernelFrame_fits.inside (reached _ _ inKernel) fun _ _ => rfl
  · exact fun address => SaveTable.store_outside kernelFrame_fits.inside
  · intro handled handledKernel sameSp sameFrame
    change handled.registers .sp = values .sp at sameSp
    have holds : kernelFrame.Holds values (values .sp).toNat handled.memory := by
      refine (SaveTable.holds_store kernelFrame_fits core.memory).congr fun entry member => ?_
      have inside := kernelFrame_fits.inside entry member
      refine Memory.load64_congr fun offset bound => ?_
      rw [Nat.add_assoc]
      exact sameFrame _ (by omega)
    have again : SaveTable.Reached (kernelFrame.filter fun entry => entry.1 ≠ .tp) paging.reach 256
        handled.csrs (handled.registers .sp) (values .sp).toNat handled.memory := by
      rw [sameSp]
      exact (reached _ _ handledKernel).mono (List.filter_subset_self _) fun _ _ => rfl
    have loaded := SaveTable.run_restore handled .sp (fun entry member => holds entry (List.mem_of_mem_filter member))
      again fun _ => sameSp.symm
    have listed : ∀ r : Register, r ∈ (kernelFrame.filter fun entry => entry.1 ≠ .tp).map Prod.fst ↔ r ≠ .tp := by
      intro r
      cases r <;> decide
    refine ⟨⟨fun r => if r = .tp then handled.registers .tp else core.registers r, handled.csrs, handled.memory⟩,
      ?_, rfl, fun _ => rfl⟩
    rw [kernelExit, Core.run_append loaded, Core.run_cons rfl]
    simp only [listed]
    refine congrArg (fun registers => some (Core.mk registers handled.csrs handled.memory)) (funext fun r => ?_)
    rw [← lowered]
    by_cases isSp : r = .sp
    · simp [isSp, BitVec.add_assoc]
    · by_cases isTp : r = .tp
      · simp [isTp]
      · simp [isSp, isTp]

theorem kernel_trap_keeps_registers_first_page : ∃ entered left : Core Register Csr, Core.run bootPaging.reach kernelEntry
    ⟨fun _ => BitVec.ofNat 64 (vaKernelBegin + pageSize), fun _ => 0, fun _ => 0⟩ = some entered ∧
      Core.run bootPaging.reach kernelExit ⟨fun r => if r = .sp then entered.registers .sp else 7, fun _ => 0,
        entered.memory⟩ = some left ∧
      left.registers .a0 = BitVec.ofNat 64 (vaKernelBegin + pageSize) ∧ left.registers .tp = 7 := by
  obtain ⟨entered, entry, _, exits⟩ := @kernel_trap_keeps_registers _ _ bootPaging
    ⟨fun _ => BitVec.ofNat 64 (vaKernelBegin + pageSize), fun _ => 0, fun _ => 0⟩ rfl (by decide)
  obtain ⟨left, exit, _, registers⟩ := exits ⟨fun r => if r = .sp then entered.registers .sp else 7, fun _ => 0,
    entered.memory⟩ rfl rfl fun _ _ => rfl
  exact ⟨entered, left, entry, exit, registers .a0, registers .tp⟩

/-- What the harts work on; `saved` are the registers that were last put into each save area. -/
structure Saving (Hart Owner : Type) where
  registers : Hart → Register → Word
  csrs : Hart → Csr → Word
  memory : Memory
  saved : Owner → Register → Word

namespace Saving

variable {Hart Owner : Type} [DecidableEq Hart]

def core (state : Saving Hart Owner) (hart : Hart) : Core Register Csr :=
  ⟨state.registers hart, state.csrs hart, state.memory⟩

def put (state : Saving Hart Owner) (hart : Hart) (core : Core Register Csr) (saved : Owner → Register → Word) :
    Saving Hart Owner :=
  ⟨Function.update state.registers hart core.registers, Function.update state.csrs hart core.csrs, core.memory, saved⟩

end Saving

/-- The contexts of processes and of the schedulers, each with its `struct context_struct`. -/
structure Contexts (Context : Type) where
  frame : Context → Word
  mapped : ∀ context, KernelMapped (frame context).toNat contextSize
  apart : ∀ context other, context ≠ other → (frame context).toNat + contextSize ≤ (frame other).toNat ∨
    (frame other).toNat + contextSize ≤ (frame context).toNat

variable {Hart Context : Type} [DecidableEq Hart] [DecidableEq Context] {contexts : Contexts Context}

/-- A hart calls `proc_switch`, or anything else happens: code runs, and contexts are written one at a
time, as `proc_create` does. -/
inductive SwitchStep (paging : Paging σ) (contexts : Contexts Context) :
    Saving Hart Context → Saving Hart Context → Prop
  | switch {state : Saving Hart Context} {hart : Hart} {old new : Context} {core : Core Register Csr}
      (inKernel : state.csrs hart .satp = paging.kernelSatp) (oldFrame : state.registers hart .a0 = contexts.frame old)
      (newFrame : state.registers hart .a1 = contexts.frame new)
      (run : (state.core hart).run paging.reach procSwitchCode = some core) :
      SwitchStep paging contexts state
        (state.put hart core (Function.update state.saved old (state.registers hart)))
  | other {state after : Saving Hart Context} (area : contextRegisters.AreaStep
        (fun context => (contexts.frame context).toNat) state.memory state.saved after.memory after.saved) :
      SwitchStep paging contexts state after

def Contexts.Kept (contexts : Contexts Context) (state : Saving Hart Context) : Prop :=
  ∀ context, contextRegisters.Holds (state.saved context) (contexts.frame context).toNat state.memory

section
variable {state after : Saving Hart Context} {hart : Hart} {old new : Context}

omit [DecidableEq Hart] in
theorem procSwitch_run (kept : contexts.Kept state) (inKernel : state.csrs hart .satp = paging.kernelSatp)
    (oldFrame : state.registers hart .a0 = contexts.frame old)
    (newFrame : state.registers hart .a1 = contexts.frame new) :
    (state.core hart).run paging.reach procSwitchCode = some ⟨fun r => if r ∈ contextRegisters.map Prod.fst then
          Function.update state.saved old (state.registers hart) new r else state.registers hart r,
        state.csrs hart,
        contextRegisters.store (state.registers hart) (contexts.frame old).toNat state.memory⟩ := by
  have reached {r : Register} {context : Context} (frame : state.registers hart r = contexts.frame context)
      (memory : Memory) : contextRegisters.Reached paging.reach contextSize (state.csrs hart)
        (state.registers hart r) (contexts.frame context).toNat memory := by
    rw [frame]
    exact kernel_reached inKernel contextRegisters_fits.inside (contexts.mapped context)
  have stored := (SaveTable.areaStep_store contextRegisters_fits contexts.apart old (state.registers hart)).holds kept
  have saved := SaveTable.run_save (state.core hart) .a0 contextRegisters_fits.inside (reached oldFrame _)
    fun _ _ => rfl
  rw [procSwitchCode, Core.run_append saved]
  exact SaveTable.run_restore _ _ (stored new) (reached newFrame _) fun member => absurd member (by decide)

theorem SwitchStep.kept (step : SwitchStep paging contexts state after) (kept : contexts.Kept state) :
    contexts.Kept after := by
  cases step with
  | switch inKernel oldFrame newFrame run =>
    cases (procSwitch_run kept inKernel oldFrame newFrame).symm.trans run
    exact (SaveTable.areaStep_store contextRegisters_fits contexts.apart _ _).holds kept
  | other area => exact area.holds kept

end

/-- Whatever the harts have done in whatever order, a hart that switches to a context gets the `ra`,
`sp` and `s0` to `s11` with which this context was left or set up last, and keeps its other
registers. -/
theorem proc_switch_resumes {start state : Saving Hart Context} (kept : contexts.Kept start)
    (run : Relation.ReflTransGen (SwitchStep paging contexts) start state) (hart : Hart) (old new : Context)
    (inKernel : state.csrs hart .satp = paging.kernelSatp) (oldFrame : state.registers hart .a0 = contexts.frame old)
    (newFrame : state.registers hart .a1 = contexts.frame new) :
    ∃ core, (state.core hart).run paging.reach procSwitchCode = some core ∧
      (∀ r, core.registers r = if r ∉ contextRegisters.map Prod.fst ∨ new = old then state.registers hart r
        else state.saved new r) ∧
      ∀ address, address < (contexts.frame old).toNat ∨ (contexts.frame old).toNat + contextSize ≤ address →
        core.memory address = state.memory address := by
  have keptNow : contexts.Kept state := run_preserves contexts.Kept (fun _ _ kept step => step.kept kept) kept run
  refine ⟨_, procSwitch_run keptNow inKernel oldFrame newFrame, fun r => ?_, fun address =>
    SaveTable.store_outside contextRegisters_fits.inside⟩
  by_cases listed : r ∈ contextRegisters.map Prod.fst
  · by_cases same : new = old
    · simp [same]
    · simp [listed, same]
  · simp [listed]

/-- Two contexts, side by side. -/
def twoContexts : Contexts Bool where
  frame second := BitVec.ofNat 64 (vaKernelBegin + if second then contextSize else 0)
  mapped := by decide
  apart := by decide

theorem proc_switch_resumes_second : ∃ core, Core.run bootPaging.reach procSwitchCode
    ⟨fun r => twoContexts.frame (r = .a1), fun _ => 0, fun _ => 0⟩ = some core ∧ core.registers .ra = 0 := by
  have kept : twoContexts.Kept (⟨fun _ r => twoContexts.frame (r = .a1), fun _ _ => 0, fun _ => 0, fun _ _ => 0⟩ :
      Saving Unit Bool) :=
    fun _ _ _ => Memory.load64_zero fun _ _ => rfl
  obtain ⟨core, ran, registers, _⟩ := @proc_switch_resumes _ _ bootPaging _ _ _ _ _ _ _ kept .refl () false true
    rfl rfl rfl
  exact ⟨core, ran, (registers .ra).trans (if_neg (by decide))⟩

/-- What `utrap_return` writes: `kernel_satp`, `kernel_handler_addr` and `kernel_hartid`, each under the
register that `user_handler` loads it into. -/
def utrapReturnFields : SaveTable Register := [(.t1, 0), (.t0, 16), (.tp, 32)]

def newRegisters (r : Register) : Word := if r = .sp then BitVec.ofNat 64 vaUserUserHandlerBegin else 0

theorem trapframeInit_holds (memory : Memory) (trapframe kstackVaddr : Nat) : trapframeRegisters.Holds newRegisters
    trapframe (trapframeInit memory trapframe vaUserUserHandlerBegin kstackVaddr) := by
  intro entry member
  have inside := trapframeRegisters_fits.inside entry member
  have places : ∀ entry ∈ trapframeRegisters, 40 ≤ entry.2 ∧ (entry.1 = .sp ∧ entry.2 = trapframeSp ∨
      entry.1 ≠ .sp ∧ (entry.2 + 8 ≤ trapframeSp ∨ trapframeSp + 8 ≤ entry.2)) := by decide +kernel
  obtain ⟨low, place⟩ := places entry member
  unfold trapframeInit
  dsimp only
  rw [Memory.load64_store64_other (by unfold trapframeKernelSp; omega)]
  rcases place with ⟨isSp, offset⟩ | ⟨notSp, apart⟩
  · rw [offset, Memory.load64_store64_same (by decide), newRegisters, if_pos isSp]
    decide
  · rw [Memory.load64_store64_other (by omega), Memory.load64_store64_other (by unfold trapframeUserPc; omega),
      newRegisters, if_neg notSp]
    refine Memory.load64_zero fun offset bound => ?_
    rw [memset_apply, if_pos (by omega)]

/-- The root table and the trapframe of each process. -/
structure TrapSpaces (paging : Paging σ) (Process : Type) where
  root : Process → Nat
  frame : Process → Nat
  bounded : ∀ p, root p < 2 ^ 26
  distinct : Function.Injective frame
  notKernel : ∀ p, satpOf (frameVa (root p)) ≠ paging.kernelSatp

namespace TrapSpaces

variable {Process : Type} (spaces : TrapSpaces paging Process)

def satp (p : Process) : Word := satpOf (frameVa (spaces.root p))

def place (p : Process) : Nat := frameVa (spaces.frame p)

/-- Every table maps the trapframe of its process, whatever the trapframes hold. -/
def Mapped (memory : Memory) : Prop :=
  ∀ other : Memory, (∀ address, (∀ p, address ∉ frameBytes (spaces.frame p)) → other address = memory address) →
    ∀ p, pageMap (frameVa (spaces.root p)) ⟨other, paging.pages⟩ trapframeVpn =
      some (spaces.frame p, pteFlagV ||| (pteFlagR ||| pteFlagW))

/-- Every trapframe holds the registers that were saved. -/
structure Kept (state : Saving Hart Process) : Prop where
  mapped : spaces.Mapped state.memory
  holds : ∀ p, trapframeRegisters.Holds (state.saved p) (spaces.place p) state.memory

/-- A program traps, a hart calls `user_return`, or anything else happens that keeps the tables; the
words of a trapframe may be changed, as by the result of a system call. -/
inductive Step [DecidableEq Process] : Saving Hart Process → Saving Hart Process → Prop
  | trap {state : Saving Hart Process} {hart : Hart} {p : Process} {core : Core Register Csr}
      (user : state.csrs hart .satp = spaces.satp p)
      (run : (state.core hart).run paging.reach userHandler = some core) :
      Step state (state.put hart core (Function.update state.saved p (state.registers hart)))
  | resume {state : Saving Hart Process} {hart : Hart} {p : Process} {core : Core Register Csr}
      (argument : state.registers hart .a0 = spaces.satp p)
      (run : (state.core hart).run paging.reach userReturn = some core) :
      Step state (state.put hart core state.saved)
  | other {state after : Saving Hart Process} (area : trapframeRegisters.AreaStep
        spaces.place state.memory state.saved after.memory after.saved)
      (mapped : spaces.Mapped after.memory) : Step state after

variable {spaces} {p : Process} (core : Core Register Csr)

theorem Mapped.congr {other : Memory} (mapped : spaces.Mapped memory)
    (same : ∀ address, (∀ p, address ∉ frameBytes (spaces.frame p)) → other address = memory address) :
    spaces.Mapped other :=
  fun _ changed => mapped _ fun address outside => (changed address outside).trans (same address outside)

theorem Mapped.store (mapped : spaces.Mapped memory) {table : SaveTable Register}
    (inside : ∀ entry ∈ table, entry.2 + 8 ≤ trapframeSize) (values : Register → Word) (p : Process) :
    spaces.Mapped (table.store values (spaces.place p) memory) :=
  mapped.congr fun _ outside => SaveTable.store_outside inside (outside_trapframe (outside p))

theorem Mapped.reached (mapped : spaces.Mapped memory)
    (user : csrs .satp = spaces.satp p) {base : Word} (isBase : base = trapframeVa)
    {table : SaveTable Register} (inside : ∀ entry ∈ table, entry.2 + 8 ≤ trapframeSize) :
    table.Reached paging.reach trapframeSize csrs base (spaces.place p) memory := by
  subst isBase
  intro other same entry member
  have fits : entry.2 + 8 ≤ 288 := inside entry member
  have found := mapped other (fun address outside => same address (outside_trapframe (outside p))) p
  have sum : (trapframeVa + BitVec.ofNat 64 entry.2).toNat = trapframeVpn * pageSize + entry.2 := by
    rw [trapframeVa, BitVec.toNat_add, BitVec.toNat_ofNat, BitVec.toNat_ofNat]
    unfold trapframeVpn vaUserTrapframeBegin pageSize
    omega
  have page : (trapframeVpn * pageSize + entry.2) / pageSize = trapframeVpn ∧
      (trapframeVpn * pageSize + entry.2) % pageSize = entry.2 := by
    unfold pageSize
    omega
  have low : trapframeVpn * pageSize + entry.2 < 2 ^ 38 := by
    unfold trapframeVpn vaUserTrapframeBegin pageSize
    omega
  rw [Paging.reach, if_neg (user ▸ spaces.notKernel p), sum, if_pos low, user, satp, satpOf_frameVa (spaces.bounded p),
    page.1, page.2, found]
  exact if_pos (show (pteFlagV ||| (pteFlagR ||| pteFlagW)) &&& (pteFlagR ||| pteFlagW ||| pteFlagU) =
    pteFlagR ||| pteFlagW by decide)

/-- The words that `utrap_return` has left for the registers with which the handler is entered. -/
def kernelWords (place : Nat) (memory : Memory) (r : Register) : Word :=
  BitVec.ofNat 64 (memory.load64 (place + if r = .sp then trapframeKernelSp else if r = .tp then 32 else
    if r = .t0 then 16 else 0))

theorem kernelWords_eq (place : Nat) (memory : Memory) (entry : Register × Nat) (member : entry ∈ kernelFields) :
    kernelWords place memory entry.1 = BitVec.ofNat 64 (memory.load64 (place + entry.2)) := by
  simp only [kernelFields, List.mem_cons, List.not_mem_nil, or_false] at member
  rcases member with rfl | rfl | rfl | rfl <;> rfl

theorem kernelFields_holds (place : Nat) (memory : Memory) :
    kernelFields.Holds (kernelWords place memory) place memory := by
  intro entry member
  rw [kernelWords_eq place memory entry member, BitVec.toNat_ofNat, Nat.mod_eq_of_lt (Memory.load64_lt _)]

theorem kernelWords_of_holds {values : Register → Word} {place : Nat} (holds : kernelFields.Holds values place memory)
    {r : Register} (listed : r ∈ kernelFields.map Prod.fst) : kernelWords place memory r = values r := by
  obtain ⟨entry, member, rfl⟩ := List.mem_map.mp listed
  rw [kernelWords_eq place memory entry member, holds entry member, BitVec.ofNat_toNat, BitVec.setWidth_eq]

theorem userHandler_run (mapped : spaces.Mapped core.memory) (user : core.csrs .satp = spaces.satp p) :
    ∃ after, core.run paging.reach userHandler = some after ∧
      after.memory = trapframeRegisters.store core.registers (spaces.place p) core.memory ∧
      (∀ r ∈ [Register.sp, .tp, .t0], after.registers r = kernelWords (spaces.place p) core.memory r) ∧
      after.csrs .satp = kernelWords (spaces.place p) core.memory .t1 := by
  have inside := trapframeRegisters_fits.inside
  have userInside : ∀ entry ∈ userRegisters, entry.2 + 8 ≤ trapframeSize :=
    fun entry member => inside entry (List.mem_append_left _ member)
  have separate : ∀ entry ∈ kernelFields, ∀ other ∈ trapframeRegisters,
      entry.2 + 8 ≤ other.2 ∨ other.2 + 8 ≤ entry.2 := by decide +kernel
  have fields : kernelFields.Holds (kernelWords (spaces.place p) core.memory) (spaces.place p)
      (trapframeRegisters.store core.registers (spaces.place p) core.memory) :=
    (kernelFields_holds _ core.memory).congr fun entry member => SaveTable.load64_store (separate entry member)
  have stored : trapframeRegisters.store core.registers (spaces.place p) core.memory =
      (userRegisters.store core.registers (spaces.place p) core.memory).store64 (spaces.place p + trapframeA0)
        (core.registers .a0).toNat := List.foldl_append ..
  have userMapped := mapped.store userInside core.registers p
  have allMapped := mapped.store inside core.registers p
  generalize trapframeRegisters.store core.registers (spaces.place p) core.memory = trapped at *
  obtain ⟨csrs, scratched, scratch, stillUser⟩ : ∃ csrs : Csr → Word, Function.update core.csrs .sscratch
    (core.registers .a0) = csrs ∧ csrs .sscratch = core.registers .a0 ∧ csrs .satp = spaces.satp p :=
    ⟨_, rfl, Function.update_self .., (Function.update_of_ne (by decide) ..).trans user⟩
  have saves := SaveTable.run_save
    ⟨Function.update core.registers .a0 trapframeVa, csrs, core.memory⟩ .a0 userInside
    (mapped.reached stillUser (loaded_base core.registers) userInside)
    fun entry member => Function.update_of_ne (by simpa using (List.mem_filter.mp member).2) ..
  dsimp only at saves
  generalize userRegisters.store core.registers (spaces.place p) core.memory = saved at *
  obtain ⟨registers, entered, base, value⟩ : ∃ registers : Register → Word,
    Function.update (Function.update core.registers .a0 trapframeVa) .t0
      (core.registers .a0) = registers ∧ registers .a0 = trapframeVa ∧
      registers .t0 = core.registers .a0 :=
    ⟨_, rfl, (Function.update_of_ne (by decide) ..).trans (loaded_base core.registers), Function.update_self ..⟩
  have slot : SaveTable.Reached [(Register.a0, trapframeA0)] _ _ _ _ _ _ :=
    userMapped.reached stillUser base (by decide)
  have last := Core.execute_sd ⟨registers, csrs, saved⟩ (slot saved (fun _ _ => rfl) _ List.mem_cons_self) Register.t0
  dsimp only at last
  rw [value, ← stored] at last
  have loads := SaveTable.run_restore ⟨registers, csrs, trapped⟩ .a0 fields
    (allMapped.reached stillUser base (by decide))
    fun member => absurd member (by decide)
  rw [userHandler, Core.run_cons rfl, scratched, Core.run_cons rfl, Core.run_append saves, Core.run_cons rfl]
  dsimp only
  rw [scratch, entered, Core.run_cons last, Core.run_append loads, Core.run_cons rfl]
  refine ⟨_, rfl, rfl, ?_, ?_⟩
  · intro r member
    have listed : r ∈ kernelFields.map Prod.fst := by
      simp only [List.mem_cons, List.not_mem_nil, or_false] at member
      rcases member with rfl | rfl | rfl <;> decide
    dsimp only
    rw [if_pos listed]
  · dsimp only
    rw [Function.update_self, if_pos (show Register.t1 ∈ kernelFields.map Prod.fst by decide)]

theorem userReturn_run {values : Register → Word} (mapped : spaces.Mapped core.memory)
    (holds : trapframeRegisters.Holds values (spaces.place p) core.memory)
    (argument : core.registers .a0 = spaces.satp p) : core.run paging.reach userReturn =
      some ⟨values, Function.update core.csrs .satp (spaces.satp p), core.memory⟩ := by
  rw [userReturn, Core.run_cons rfl, argument, Core.run_cons rfl]
  refine (SaveTable.run_restore ⟨Function.update core.registers .a0 trapframeVa,
      Function.update core.csrs .satp (spaces.satp p), core.memory⟩ .a0 holds
    (mapped.reached (Function.update_self ..) (loaded_base core.registers) trapframeRegisters_fits.inside)
    fun member => absurd member (by decide)).trans ?_
  have listed : ∀ r, r ∈ trapframeRegisters.map Prod.fst := by
    intro r
    cases r <;> decide
  simp only [listed, if_true]

omit [PageAllocator σ] in
theorem place_apart (p q : Process) (different : p ≠ q) : spaces.place p + trapframeSize ≤ spaces.place q ∨
    spaces.place q + trapframeSize ≤ spaces.place p := by
  have frames := spaces.distinct.ne different
  unfold place frameVa pageSize trapframeSize
  omega

theorem mapped_of_tables {vm : Vmem σ} (found : ∀ p, pageMap (frameVa (spaces.root p)) vm trapframeVpn =
      some (spaces.frame p, pteFlagV ||| (pteFlagR ||| pteFlagW)))
    (notTable : ∀ p q, spaces.frame q ∉ tables (spaces.root p) vm)
    (same : ∀ p, SameTables (spaces.root p) vm ⟨memory, vm.pages⟩) : spaces.Mapped memory := by
  intro other changed p
  have tables : SameTables (spaces.root p) vm (⟨other, paging.pages⟩ : Vmem σ) :=
    fun table isTable offset inside => (changed _ fun q isFrame =>
      notTable p q (frameBytes_unique (frame_byte_mem table inside) isFrame ▸ isTable)).trans
        (same p table isTable offset inside)
  rw [← found p, tables.pageMap_eq]

section
variable [LawfulPages σ] {userHandlerPa programBreak : Nat} {vm after : Vmem σ} {space : ProcSpace} {kernelSatp : Word}
  (sound : LawfulPages.Sound vm.pages) (bounded : userHandlerPa < 2 ^ 64) (granted : CreateGranted userHandlerPa vm)
  (create : procCreateSpace userHandlerPa programBreak vm = .ok (space, after))
  (notKernel : satpOf space.pgtbl ≠ kernelSatp) (words : Register → Word)
include sound bounded granted create notKernel

/-- What `proc_create` has set up is kept if nobody else writes to the pages that it has taken. -/
theorem create_trapSpaces (own : ∀ frame ∈ taken ∅ vm.pages after.pages, ∀ address ∈ frameBytes frame,
      memory address = utrapReturnFields.store words space.trapframe after.memory address) :
    ∃ spaces : TrapSpaces ⟨kernelSatp, after.pages⟩ Unit, spaces.satp () = satpOf space.pgtbl ∧
      spaces.Mapped memory ∧ trapframeRegisters.Holds newRegisters (spaces.place ()) memory ∧
      kernelFields.Holds (Function.update words .sp (BitVec.ofNat 64 (ulong (space.kstackVaddr + pageSize))))
        (spaces.place ()) memory := by
  obtain ⟨root, kstack, frame, rfl, created⟩ := create_created sound bounded granted create
  dsimp only at own notKernel ⊢
  have found : pageMap (frameVa root) after trapframeVpn = some (frame, _) :=
    (created.map trapframeVpn (by decide)).trans (if_pos rfl)
  obtain ⟨frameTaken, notTable⟩ := created.frame_taken
  obtain ⟨base, unwritten⟩ := created.initial
  have fits : utrapReturnFields.Fits trapframeSize := ⟨by decide, by decide⟩
  have apart : ∀ entry ∈ (.sp, trapframeKernelSp) :: trapframeRegisters, ∀ field ∈ utrapReturnFields,
      entry.2 + 8 ≤ field.2 ∨ field.2 + 8 ≤ entry.2 := by decide +kernel
  have loads {offset : Nat} (inside : offset + 8 ≤ 288) : memory.load64 (frameVa frame + offset) =
      (utrapReturnFields.store words (frameVa frame) after.memory).load64 (frameVa frame + offset) := by
    refine Memory.load64_congr fun byte small => own frame frameTaken _ ?_
    rw [Nat.add_assoc]
    exact frame_byte_mem frame (by omega)
  have initial {entry : Register × Nat} (member : entry ∈ (.sp, trapframeKernelSp) :: trapframeRegisters)
      (inside : entry.2 + 8 ≤ 288) : memory.load64 (frameVa frame + entry.2) =
        (trapframeInit base (frameVa frame) vaUserUserHandlerBegin (frameVa kstack)).load64
          (frameVa frame + entry.2) := by
    rw [loads inside, SaveTable.load64_store (apart entry member)]
    refine Memory.load64_congr fun byte small => ?_
    rw [Nat.add_assoc]
    exact unwritten _ (show entry.2 + byte < 4096 by omega)
  let spaces : TrapSpaces ⟨kernelSatp, after.pages⟩ Unit :=
    ⟨fun _ => root, fun _ => frame, fun _ => created.rootBounded, fun _ _ _ => rfl, fun _ => notKernel⟩
  have mapped : spaces.Mapped memory := by
    refine mapped_of_tables (fun _ => found) (fun _ _ => notTable) fun _ table isTable offset inside => ?_
    have inTable := frame_byte_mem table inside
    refine (own table (created.laid.tablesMine isTable) _ inTable).trans (SaveTable.store_outside fits.inside ?_)
    exact outside_trapframe fun isFrame => notTable (frameBytes_unique inTable isFrame ▸ isTable)
  have holds : trapframeRegisters.Holds newRegisters (frameVa frame) memory :=
    (trapframeInit_holds base (frameVa frame) (frameVa kstack)).congr fun entry member =>
      initial (List.mem_cons_of_mem _ member) (trapframeRegisters_fits.inside entry member)
  refine ⟨spaces, rfl, mapped, holds, List.forall_mem_cons.mpr ⟨?_, fun entry member => ?_⟩⟩
  · change memory.load64 (frameVa frame + trapframeKernelSp) = _
    rw [initial List.mem_cons_self (by decide), trapframeInit, Memory.load64_store64_same (ulong_lt _),
      Function.update_self, BitVec.toNat_ofNat, Nat.mod_eq_of_lt (ulong_lt _)]
  · have listed : ∀ entry ∈ kernelFields.tail, entry ∈ utrapReturnFields ∧ entry.1 ≠ .sp := by decide
    obtain ⟨isField, notSp⟩ := listed entry member
    rw [Function.update_of_ne notSp, ← SaveTable.holds_store fits after.memory entry isField]
    exact loads (fits.inside entry isField)

/-- The first return to a program gives it the stack pointer and zeroes, whatever memory held, and its
first trap enters the kernel on its own kernel stack with the words that `utrap_return` has left,
as long as nobody else has written to the pages that `proc_create` has taken. -/
theorem new_process_enters_program (own : ∀ frame ∈ taken ∅ vm.pages after.pages, ∀ address ∈ frameBytes frame,
      core.memory address = utrapReturnFields.store words space.trapframe after.memory address) :
    (core.registers .a0 = satpOf space.pgtbl → core.run (Paging.reach ⟨kernelSatp, after.pages⟩) userReturn =
      some ⟨newRegisters, Function.update core.csrs .satp (satpOf space.pgtbl), core.memory⟩) ∧
    (core.csrs .satp = satpOf space.pgtbl → ∃ trapped,
      core.run (Paging.reach ⟨kernelSatp, after.pages⟩) userHandler = some trapped ∧
      trapped.registers .sp = BitVec.ofNat 64 (ulong (space.kstackVaddr + pageSize)) ∧
      trapped.registers .tp = words .tp ∧ trapped.registers .t0 = words .t0 ∧ trapped.csrs .satp = words .t1) := by
  obtain ⟨spaces, isSatp, mapped, holds, fields⟩ := create_trapSpaces sound bounded granted create notKernel words own
  rw [← isSatp]
  refine ⟨userReturn_run core mapped holds, fun user => ?_⟩
  obtain ⟨trapped, ran, _, registers, satp⟩ := userHandler_run core mapped user
  have word {r : Register} := kernelWords_of_holds (r := r) fields
  exact ⟨trapped, ran, (registers .sp (by decide)).trans (word (by decide)), (registers .tp (by decide)).trans
    (word (by decide)), (registers .t0 (by decide)).trans (word (by decide)), satp.trans (word (by decide))⟩

end

theorem new_process_enters_program_first : ∃ (vm after : Vmem Kmem) (space : ProcSpace) (core : Core Register Csr),
    procCreateSpace 0x80200000 0 vm = .ok (space, after) ∧
      core.run (Paging.reach ⟨satpOf space.pgtbl + 1, after.pages⟩) userReturn =
        some ⟨newRegisters, Function.update core.csrs .satp (satpOf space.pgtbl), core.memory⟩ := by
  obtain ⟨_, after, space, _, _, sound, granted, create, _⟩ := small_process
  exact ⟨_, after, space, ⟨fun _ => satpOf space.pgtbl, fun _ => 0, _⟩, create, (new_process_enters_program _ sound
    (by decide) granted create (by simp) (fun _ => 0) fun _ _ _ _ => rfl).1 rfl⟩

variable [DecidableEq Process] {start state after : Saving Hart Process}

theorem Step.kept (step : spaces.Step state after) (kept : spaces.Kept state) : spaces.Kept after := by
  cases step with
  | trap user run =>
    obtain ⟨_, ran, memory, _⟩ := userHandler_run (state.core _) kept.mapped user
    obtain rfl := Option.some.inj (ran.symm.trans run)
    refine ⟨?_, fun q => ?_⟩ <;> dsimp only [Saving.put] <;> rw [memory]
    · exact kept.mapped.store trapframeRegisters_fits.inside _ _
    · exact (SaveTable.areaStep_store trapframeRegisters_fits place_apart _ _).holds kept.holds q
  | resume argument run =>
    obtain rfl := Option.some.inj ((userReturn_run (state.core _) kept.mapped (kept.holds _) argument).symm.trans run)
    exact ⟨kept.mapped, kept.holds⟩
  | other area mapped => exact ⟨mapped, area.holds kept.holds⟩

/-- Whatever the harts have done in whatever order, `user_return` gives a program all the registers that
it was left with, as the kernel has changed them since, under its own table.  A trap of the program
enters the kernel with the words that are in the trapframe, and writes to this trapframe only. -/
theorem user_registers_survive_traps (kept : spaces.Kept start)
    (run : Relation.ReflTransGen spaces.Step start state) (hart : Hart) (p : Process) :
    (state.registers hart .a0 = spaces.satp p → (state.core hart).run paging.reach userReturn =
      some ⟨state.saved p, Function.update (state.csrs hart) .satp (spaces.satp p), state.memory⟩) ∧
    (state.csrs hart .satp = spaces.satp p → ∃ core, (state.core hart).run paging.reach userHandler = some core ∧
      (∀ r ∈ [Register.sp, .tp, .t0], core.registers r = kernelWords (spaces.place p) state.memory r) ∧
      core.csrs .satp = kernelWords (spaces.place p) state.memory .t1 ∧
      ∀ address, address < spaces.place p ∨ spaces.place p + trapframeSize ≤ address →
        core.memory address = state.memory address) := by
  have keptNow : spaces.Kept state := run_preserves spaces.Kept (fun _ _ kept step => step.kept kept) kept run
  refine ⟨fun argument => userReturn_run _ keptNow.mapped (keptNow.holds p) argument, fun user => ?_⟩
  obtain ⟨core, ran, memory, registers, satp⟩ := userHandler_run (state.core hart) keptNow.mapped user
  refine ⟨core, ran, registers, satp, fun address outside => ?_⟩
  rw [memory]
  exact SaveTable.store_outside trapframeRegisters_fits.inside outside

theorem user_registers_survive_traps_first_process : ∃ (paging : Paging Kmem) (spaces : TrapSpaces paging Unit)
    (state : Saving Unit Unit), spaces.Kept state ∧ state.registers () .a0 = spaces.satp () ∧
      (state.core ()).run paging.reach userReturn =
        some ⟨state.saved (), Function.update (state.csrs ()) .satp (spaces.satp ()), state.memory⟩ := by
  obtain ⟨_, _, space, _, _, sound, granted, create, _⟩ := small_process
  obtain ⟨spaces, _, mapped, holds, _⟩ := create_trapSpaces sound (by decide) granted create
    (show _ ≠ satpOf space.pgtbl + 1 by simp) (fun _ => 0) fun _ _ _ _ => rfl
  have kept : spaces.Kept (⟨fun _ _ => spaces.satp (), fun _ _ => 0, _, fun _ => newRegisters⟩ : Saving Unit Unit) :=
    ⟨mapped, fun _ => holds⟩
  exact ⟨_, spaces, _, kept, rfl, (user_registers_survive_traps kept .refl () ()).1 rfl⟩

end TrapSpaces

end

end Kalorona.Proc
