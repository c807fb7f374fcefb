import Kalorona.Device.Discovery
import Kalorona.Kernel.Spinlock

namespace Kalorona.Device

open Kalorona.Console Kalorona.Data Kalorona.Utilities

/-! # Initialising the drivers

Each driver obtains the records it needs, reads the properties of its node and registers itself with
the HAL.  Each object that it obtains and each pointer that it passes to `kmem_free` is noted.
-/

/-- `struct ns16550a_internal_struct`. -/
structure Ns16550aInternal where
  devId : Nat
  interruptSrcId : Int
  clockFreq : Int
  regBase : Nat
  regSize : Nat
  txLock : Spinlock
  rxLock : Spinlock
  txBuffer : Nat → UInt8
  rxBuffer : Nat → UInt8
  txBufferHead : Nat
  txBufferTail : Nat
  rxBufferHead : Nat
  rxBufferTail : Nat

structure PlicInternal where
  devId : Nat
  regBase : Nat
  regSize : Nat

/-- A pointer to a function that is registered with the HAL. -/
inductive Callback where
  | null
  | ns16550aInterruptHandler | ns16550aPutcAsync | ns16550aReadc
  | plicInit | plicEnableSrc | plicDisableSrc | plicCheckSrcStatus | plicClaim | plicComplete
deriving DecidableEq, Repr

/-- `struct irq_struct`; the chain through `next` is kept in `HalState`. -/
structure IrqStruct where
  interruptSrcId : Int
  dev : Nat
  handler : Callback

structure InterruptorStruct where
  dev : Nat
  init : Callback
  enableSrc : Callback
  disableSrc : Callback
  checkSrcStatus : Callback
  claim : Callback
  complete : Callback

structure HalUartDevice where
  dev : Nat
  write : Callback
  read : Callback

/-- `hal_trap_manager` and `hal_uart_manager`: the entries that are registered, by address. -/
structure HalState where
  interruptor : Nat
  irqs : List Nat
  uarts : List Nat

/-- What the drivers work on, how often `kmem_alloc` was called, what it has returned, what was
passed to `kmem_free`, and the writes to device registers. -/
structure DriverState where
  internals : Nat → Ns16550aInternal
  plicInternals : Nat → PlicInternal
  devices : Nat → DeviceStruct
  irqs : Nat → IrqStruct
  interruptors : Nat → InterruptorStruct
  uarts : Nat → HalUartDevice
  hal : HalState
  calls : Nat
  obtained : List Nat
  freed : List Nat
  registers : List (Nat × Nat)

namespace DriverState

/-- `kmem_alloc`, where `grants` says what each call returns. -/
def alloc (grants : Nat → Nat) (s : DriverState) : Nat × DriverState :=
  (grants s.calls, { s with
    calls := s.calls + 1
    obtained := if grants s.calls = 0 then s.obtained else s.obtained ++ [grants s.calls] })

/-- `kmem_free`. -/
def free (vaddr : Nat) (s : DriverState) : DriverState := { s with freed := s.freed ++ [vaddr] }

def modifyInternal (u : Nat) (assign : Ns16550aInternal → Ns16550aInternal) (s : DriverState) : DriverState :=
  { s with internals := Function.update s.internals u (assign (s.internals u)) }

def modifyPlicInternal (u : Nat) (assign : PlicInternal → PlicInternal) (s : DriverState) : DriverState :=
  { s with plicInternals := Function.update s.plicInternals u (assign (s.plicInternals u)) }

def setDevice (dev : Nat) (device : DeviceStruct) (s : DriverState) : DriverState :=
  { s with devices := Function.update s.devices dev device }

def setIrq (uIrq : Nat) (irq : IrqStruct) (s : DriverState) : DriverState :=
  { s with irqs := Function.update s.irqs uIrq irq }

def writeRegisters (writes : List (Nat × Nat)) (s : DriverState) : DriverState :=
  { s with registers := s.registers ++ writes }

end DriverState

def int32 (value : Nat) : Int := if value < 2 ^ 31 then value else (value : Int) - 2 ^ 32

def intProperty (node : FdtNode) (name : String) : Option Int :=
  match node.getProperty name with
  | some data => if data.length = 4 then some (int32 (fdt32 data)) else none
  | none => none

def regPair (node : FdtNode) : Option (Nat × Nat) :=
  match node.getProperty "reg" with
  | some data => if data.length = 2 * 8 then some (fdt64 data 0, fdt64 data 1) else none
  | none => none

/-- `hal_trap_register_irq`; nothing for the result -1. -/
def halTrapRegisterIrq (irq : Nat) (s : DriverState) : Option DriverState :=
  if irq = 0 ∨ (s.irqs irq).handler = .null ∨ (s.irqs irq).interruptSrcId ≤ 0 ∨
      (s.irqs irq).interruptSrcId > 1023 then none
  else some { s with hal := { s.hal with irqs := irq :: s.hal.irqs } }

/-- `hal_trap_register_interruptor`; the drivers do not look at its result. -/
def halTrapRegisterInterruptor (entry : Nat) (s : DriverState) : DriverState :=
  if entry = 0 ∨ (s.interruptors entry).claim = .null ∨ (s.interruptors entry).complete = .null then s
  else { s with hal := { s.hal with interruptor := entry } }

def halUartRegisterDevice (entry : Nat) (s : DriverState) : DriverState :=
  if entry = 0 then s else { s with hal := { s.hal with uarts := entry :: s.hal.uarts } }

def ns16550aDriver : Nat := 1
def plicDriver : Nat := 2

def uartReg (base reg : Nat) : Nat := pmaPa2Va (ulong (base + reg))

/-- The label `error_cleanup` of either driver. -/
def errorCleanup (u dev entry : Nat) (s : DriverState) : Nat × DriverState :=
  (0, ((s.free u).free dev).free entry)

/-- `ns16550a_driver_init` from the registration of the interrupt on. -/
def ns16550aActivate (u dev uIrq halU : Nat) (s : DriverState) : Result (Nat × DriverState) :=
  match halTrapRegisterIrq uIrq s with
  | none => .ok (errorCleanup u dev halU (s.free uIrq))
  | some s =>
    let base := (s.internals u).regBase
    let s := s.modifyInternal u fun internal => { internal with txLock := ⟨0, 0⟩, rxLock := ⟨0, 0⟩ }
    let s := s.writeRegisters
      [(uartReg base 1, 0), (uartReg base 3, 1 <<< 7), (uartReg base 0, 0x03), (uartReg base 1, 0x00),
        (uartReg base 3, 3 <<< 0), (uartReg base 2, 1 <<< 0 ||| 3 <<< 1), (uartReg base 1, 1 <<< 1 ||| 1 <<< 0)]
    -- HAL registry: the entry is written through the pointer
    if halU = 0 then .error .stray
    else
      let entry : HalUartDevice := ⟨dev, .ns16550aPutcAsync, .ns16550aReadc⟩
      let s := { s with uarts := Function.update s.uarts halU entry }
      .ok (dev, halUartRegisterDevice halU s)

/-- `ns16550a_driver_init` from the first property on. -/
def ns16550aConfigure (devId : Nat) (node : FdtNode) (u dev uIrq halU : Nat) (s : DriverState) :
    Result (Nat × DriverState) :=
  let s := s.modifyInternal u fun internal => { internal with devId }
  match intProperty node "interrupts" with
  | none => .ok (errorCleanup u dev halU s)
  | some interruptSrcId =>
    let s := s.modifyInternal u fun internal => { internal with interruptSrcId }
    match intProperty node "clock-frequency" with
    | none => .ok (errorCleanup u dev halU s)
    | some clockFreq =>
      let s := s.modifyInternal u fun internal => { internal with clockFreq }
      match regPair node with
      | none => .ok (errorCleanup u dev halU s)
      | some (regBase, regSize) =>
        let s := s.modifyInternal u fun internal => { internal with regBase, regSize }
        let s := s.setDevice dev
          { name := "NS16550A Compatible UART Device", fdtNodeOffset := node.offset, devId,
            driver := ns16550aDriver, driverInternal := u, parent := 0, children := 0, next := 0 }
        let s := s.setIrq uIrq ⟨(s.internals u).interruptSrcId, dev, .ns16550aInterruptHandler⟩
        ns16550aActivate u dev uIrq halU s

/-- The three allocations with which either driver starts; one that fails frees those before it. -/
def DriverState.allocThree (grants : Nat → Nat) (s : DriverState)
    (rest : Nat → Nat → Nat → DriverState → Result (Nat × DriverState)) : Result (Nat × DriverState) :=
  let (u, s) := s.alloc grants
  if u = 0 then .ok (0, s)
  else
    let (dev, s) := s.alloc grants
    if dev = 0 then .ok (0, s.free u)
    else
      let (entry, s) := s.alloc grants
      if entry = 0 then .ok (0, (s.free u).free dev)
      else rest u dev entry s

def ns16550aDriverInit (grants : Nat → Nat) (devId : Nat) (node : FdtNode) (s : DriverState) :
    Result (Nat × DriverState) :=
  s.allocThree grants fun u dev uIrq s =>
    let (halU, s) := s.alloc grants
    -- the pointer that is tested is not the new one
    if uIrq = 0 then .ok (errorCleanup u dev halU s)
    else ns16550aConfigure devId node u dev uIrq halU s

def maxCpu : Nat := 16

def plicSpriority (base hart : Nat) : Nat := pmaPa2Va (ulong (base + (0x201000 + hart * 0x2000)))

/-- `plic_driver_init` from the first property on. -/
def plicConfigure (enabled : Nat → Bool) (devId : Nat) (node : FdtNode) (u dev halEntry : Nat)
    (s : DriverState) : Result (Nat × DriverState) :=
  let s := s.modifyPlicInternal u fun internal => { internal with devId }
  match regPair node with
  | none => .ok (errorCleanup u dev halEntry s)
  | some (regBase, regSize) =>
    let s := s.modifyPlicInternal u fun internal => { internal with regBase, regSize }
    let s := s.writeRegisters
      (((List.range maxCpu).filter enabled).map fun hart => (plicSpriority regBase hart, 0))
    let s := s.setDevice dev
      { name := "RISC-V Platform Level Interrupt Controller", fdtNodeOffset := node.offset, devId,
        driver := plicDriver, driverInternal := u, parent := 0, children := 0, next := 0 }
    let entry : InterruptorStruct :=
      ⟨dev, .plicInit, .plicEnableSrc, .plicDisableSrc, .plicCheckSrcStatus, .plicClaim, .plicComplete⟩
    let s := { s with interruptors := Function.update s.interruptors halEntry entry }
    .ok (dev, halTrapRegisterInterruptor halEntry s)

def plicDriverInit (enabled : Nat → Bool) (grants : Nat → Nat) (devId : Nat) (node : FdtNode)
    (s : DriverState) : Result (Nat × DriverState) :=
  s.allocThree grants (plicConfigure enabled devId node)

def DriverState.halPointers (s : DriverState) : List Nat :=
  s.hal.irqs ++ s.hal.irqs.map (fun irq => (s.irqs irq).dev) ++
    (if s.hal.interruptor = 0 then [] else [s.hal.interruptor, (s.interruptors s.hal.interruptor).dev]) ++
    (s.hal.uarts ++ s.hal.uarts.map fun entry => (s.uarts entry).dev)

/-- Every object that was obtained has been freed once and nothing else has, and the HAL does
not point to any of them. -/
structure DriverState.Released (s : DriverState) : Prop where
  freed : s.freed.Perm s.obtained
  unregistered : ∀ pointer ∈ s.halPointers, pointer ∉ s.freed

/-- Nothing has been obtained or freed yet, and what `kmem_alloc` will return is not in use. -/
structure DriverState.Fresh (grants : Nat → Nat) (s : DriverState) : Prop where
  calls : s.calls = 0
  obtained : s.obtained = []
  freed : s.freed = []
  unused : ∀ call, grants call ≠ 0 → grants call ∉ s.halPointers

structure DriverState.Kept (s s' : DriverState) : Prop where
  obtained : s'.obtained = s.obtained
  freed : s'.freed = s.freed
  pointers : s'.halPointers = s.halPointers

theorem DriverState.Kept.trans {first second third : DriverState} (left : first.Kept second)
    (right : second.Kept third) : first.Kept third where
  obtained := right.obtained.trans left.obtained
  freed := right.freed.trans left.freed
  pointers := right.pointers.trans left.pointers

section
variable {s : DriverState}

theorem DriverState.kept_modifyInternal (u : Nat) (assign : Ns16550aInternal → Ns16550aInternal) :
    s.Kept (s.modifyInternal u assign) := ⟨rfl, rfl, rfl⟩

@[simp] theorem DriverState.internals_modifyInternal (u : Nat) (assign : Ns16550aInternal → Ns16550aInternal) :
    (s.modifyInternal u assign).internals u = assign (s.internals u) := Function.update_self _ _ _

theorem DriverState.kept_setIrq {uIrq : Nat} (irq : IrqStruct) (unused : uIrq ∉ s.halPointers) :
    s.Kept (s.setIrq uIrq irq) := by
  refine ⟨rfl, rfl, ?_⟩
  have unregistered : uIrq ∉ s.hal.irqs := by
    intro registered
    exact unused (List.mem_append_left _ (List.mem_append_left _ (List.mem_append_left _ registered)))
  have same : s.hal.irqs.map (fun entry => (Function.update s.irqs uIrq irq entry).dev) =
      s.hal.irqs.map fun entry => (s.irqs entry).dev := by
    apply List.map_congr_left
    intro entry registered
    rw [Function.update_of_ne (ne_of_mem_of_not_mem registered unregistered)]
  simp only [halPointers, setIrq, same]
  rfl

variable {node : FdtNode} {u dev uIrq halU : Nat}

theorem ns16550aConfigure_missing (devId : Nat)
    (missing : intProperty node "interrupts" = none ∨ intProperty node "clock-frequency" = none ∨
      regPair node = none) :
    ∃ s', s.Kept s' ∧ ns16550aConfigure devId node u dev uIrq halU s = .ok (errorCleanup u dev halU s') := by
  unfold ns16550aConfigure
  split
  next => exact ⟨_, DriverState.kept_modifyInternal u _, rfl⟩
  next found =>
    split
    next => exact ⟨_, (DriverState.kept_modifyInternal u _).trans (DriverState.kept_modifyInternal u _), rfl⟩
    next frequency =>
      have absent : regPair node = none := by simpa [found, frequency] using missing
      rw [absent]
      exact ⟨_, ((DriverState.kept_modifyInternal u _).trans (DriverState.kept_modifyInternal u _)).trans
        (DriverState.kept_modifyInternal u _), rfl⟩

theorem ns16550aConfigure_present {source frequency : Int} {reg : Nat × Nat} (devId : Nat)
    (unused : uIrq ∉ s.halPointers) (interrupts : intProperty node "interrupts" = some source)
    (clock : intProperty node "clock-frequency" = some frequency) (region : regPair node = some reg) :
    ∃ s', s.Kept s' ∧ s'.irqs uIrq = ⟨source, dev, .ns16550aInterruptHandler⟩ ∧
      s'.internals u = { s.internals u with
        devId, interruptSrcId := source, clockFreq := frequency, regBase := reg.1, regSize := reg.2 } ∧
      ns16550aConfigure devId node u dev uIrq halU s = ns16550aActivate u dev uIrq halU s' := by
  simp only [ns16550aConfigure, interrupts, clock, region]
  refine ⟨_, DriverState.Kept.trans ?_ (DriverState.kept_setIrq _ ?_), ?_, ?_, rfl⟩
  · exact ⟨rfl, rfl, rfl⟩
  · exact unused
  · simp [DriverState.setIrq, DriverState.setDevice]
  · simp [DriverState.setIrq, DriverState.setDevice]

theorem ns16550aActivate_invalid
    (invalid : (s.irqs uIrq).interruptSrcId ≤ 0 ∨ (s.irqs uIrq).interruptSrcId > 1023) :
    ns16550aActivate u dev uIrq halU s = .ok (errorCleanup u dev halU (s.free uIrq)) := by
  have refused : halTrapRegisterIrq uIrq s = none := if_pos (.inr (.inr invalid))
  rw [ns16550aActivate, refused]

theorem ns16550aActivate_valid (nonnull : uIrq ≠ 0) (handler : (s.irqs uIrq).handler ≠ .null)
    (valid : 0 < (s.irqs uIrq).interruptSrcId ∧ (s.irqs uIrq).interruptSrcId ≤ 1023) (device : dev ≠ 0)
    (after : DriverState) : ns16550aActivate u dev uIrq halU s ≠ .ok (0, after) := by
  have accepted : halTrapRegisterIrq uIrq s = some { s with hal := { s.hal with irqs := uIrq :: s.hal.irqs } } := by
    apply if_neg
    rintro (null | null | low | high)
    · exact nonnull null
    · exact handler null
    · omega
    · omega
  simp only [ns16550aActivate, accepted]
  split
  · intro returned
    cases returned
  · intro returned
    injection returned with pair
    exact device (congrArg Prod.fst pair)

end

def DriverState.granted (grants : Nat → Nat) (count : Nat) (s : DriverState) : DriverState :=
  { s with
    calls := count
    obtained := ((List.range count).map grants).filter (· ≠ 0) }

section
variable {grants : Nat → Nat} {s : DriverState} {node : FdtNode}

theorem DriverState.Fresh.granted_zero (fresh : s.Fresh grants) : s.granted grants 0 = s := by
  obtain ⟨calls, obtained, _, _⟩ := fresh
  cases s
  cases calls
  cases obtained
  rfl

theorem DriverState.alloc_granted (count : Nat) :
    (s.granted grants count).alloc grants = (grants count, s.granted grants (count + 1)) := by
  simp only [alloc, granted, List.range_succ, List.map_append, List.filter_append, List.map_cons, List.map_nil]
  by_cases null : grants count = 0
  · simp [null]
  · simp [null]

theorem DriverState.Fresh.allocThree_eq (fresh : s.Fresh grants)
    (rest : Nat → Nat → Nat → DriverState → Result (Nat × DriverState)) : s.allocThree grants rest =
      if grants 0 = 0 then .ok (0, s.granted grants 1)
      else if grants 1 = 0 then .ok (0, (s.granted grants 2).free (grants 0))
      else if grants 2 = 0 then .ok (0, ((s.granted grants 3).free (grants 0)).free (grants 1))
      else rest (grants 0) (grants 1) (grants 2) (s.granted grants 3) := by
  have start : s.allocThree grants rest = (s.granted grants 0).allocThree grants rest := by
    rw [fresh.granted_zero]
  rw [start]
  simp only [allocThree, alloc_granted]

theorem ns16550aDriverInit_eq (fresh : s.Fresh grants) (devId : Nat) (first : grants 0 ≠ 0)
    (second : grants 1 ≠ 0) (third : grants 2 ≠ 0) : ns16550aDriverInit grants devId node s =
      ns16550aConfigure devId node (grants 0) (grants 1) (grants 2) (grants 3) (s.granted grants 4) := by
  rw [ns16550aDriverInit, fresh.allocThree_eq, if_neg first, if_neg second, if_neg third]
  dsimp only
  rw [DriverState.alloc_granted, if_neg third]

theorem DriverState.Fresh.released {s' : DriverState} (fresh : s.Fresh grants) (count : Nat)
    (pointers : s'.halPointers = s.halPointers) (obtained : s'.obtained = (s.granted grants count).obtained)
    (freed : s'.freed.Perm s'.obtained) : s'.Released := by
  refine ⟨freed, fun pointer held released => ?_⟩
  rw [freed.mem_iff, obtained, granted] at released
  obtain ⟨member, nonnull⟩ := List.mem_filter.mp released
  obtain ⟨call, _, rfl⟩ := List.mem_map.mp member
  exact fresh.unused call (of_decide_eq_true nonnull) (pointers ▸ held)

theorem DriverState.Fresh.released_early {after : DriverState}
    {rest : Nat → Nat → Nat → DriverState → Result (Nat × DriverState)}
    (fresh : s.Fresh grants) (failed : grants 0 = 0 ∨ grants 1 = 0 ∨ grants 2 = 0)
    (returned : s.allocThree grants rest = .ok (0, after)) : after.Released := by
  rw [fresh.allocThree_eq] at returned
  split at returned
  next first =>
    cases returned
    refine fresh.released 1 rfl rfl ?_
    simp [granted, fresh.freed, List.range_succ, first]
  next first =>
    split at returned
    next second =>
      cases returned
      refine fresh.released 2 rfl rfl ?_
      simp [granted, free, fresh.freed, List.range_succ, first, second]
    next second =>
      have third : grants 2 = 0 := by tauto
      rw [if_pos third] at returned
      cases returned
      refine fresh.released 3 rfl rfl ?_
      simp [granted, free, fresh.freed, List.range_succ, first, second, third]

theorem plicDriverInit_released {after : DriverState} {enabled : Nat → Bool} {devId : Nat}
    (fresh : s.Fresh grants) (returned : plicDriverInit enabled grants devId node s = .ok (0, after)) :
    after.Released := by
  by_cases failed : grants 0 = 0 ∨ grants 1 = 0 ∨ grants 2 = 0
  · exact fresh.released_early failed returned
  · simp only [not_or] at failed
    obtain ⟨first, second, third⟩ := failed
    rw [plicDriverInit, fresh.allocThree_eq, if_neg first, if_neg second, if_neg third, plicConfigure] at returned
    split at returned
    next =>
      cases returned
      refine fresh.released 3 rfl rfl ?_
      simp [DriverState.free, DriverState.modifyPlicInternal, DriverState.granted, fresh.freed, List.range_succ,
        first, second, third]
    next =>
      injection returned with pair
      exact absurd (congrArg Prod.fst pair) second

/-- With the first three allocations granted, `ns16550a_driver_init` needs every property, and an
interrupt number that the HAL accepts or a fourth allocation that is granted. -/
def CleanExit (grants : Nat → Nat) (node : FdtNode) : Prop :=
  grants 0 = 0 ∨ grants 1 = 0 ∨ grants 2 = 0 ∨
    ∃ source frequency reg, intProperty node "interrupts" = some source ∧
      intProperty node "clock-frequency" = some frequency ∧ regPair node = some reg ∧
      (0 < source ∧ source ≤ 1023 ∨ grants 3 ≠ 0)

theorem DriverState.Released.not_null {s' : DriverState} {count : Nat} (released : s'.Released)
    (obtained : s'.obtained = (s.granted grants count).obtained) : 0 ∉ s'.freed := by
  rw [released.freed.mem_iff, obtained, granted]
  simp

section
variable (fresh : s.Fresh grants) (first : grants 0 ≠ 0) (second : grants 1 ≠ 0) (third : grants 2 ≠ 0)
include fresh first second third

omit fresh in
theorem granted_four_obtained : (s.granted grants 4).obtained =
    [grants 0, grants 1, grants 2] ++ if grants 3 = 0 then [] else [grants 3] := by
  by_cases fourth : grants 3 = 0
  · simp [DriverState.granted, List.range_succ, first, second, third, fourth]
  · simp [DriverState.granted, List.range_succ, first, second, third, fourth]

theorem ns16550aDriverInit_leaks (devId : Nat)
    (missing : intProperty node "interrupts" = none ∨ intProperty node "clock-frequency" = none ∨
      regPair node = none) :
    ∃ after, ns16550aDriverInit grants devId node s = .ok (0, after) ∧ ¬ after.Released := by
  obtain ⟨s', kept, configured⟩ := @ns16550aConfigure_missing (s.granted grants 4) node (grants 0) (grants 1)
    (grants 2) (grants 3) devId missing
  refine ⟨((s'.free (grants 0)).free (grants 1)).free (grants 3), ?_, fun released => ?_⟩
  · rw [ns16550aDriverInit_eq fresh devId first second third, configured]
    rfl
  · have same : s'.obtained = _ := kept.obtained.trans (granted_four_obtained first second third)
    have freed : s'.freed = [] := kept.freed.trans fresh.freed
    have nonnull := released.not_null (s := s) kept.obtained
    have lengths := released.freed.length_eq
    simp only [DriverState.free, same, freed] at nonnull lengths
    by_cases fourth : grants 3 = 0
    · simp [fourth] at nonnull
    · simp [fourth] at lengths

theorem ns16550aDriverInit_released_iff {source frequency : Int} {reg : Nat × Nat} (devId : Nat)
    (interrupts : intProperty node "interrupts" = some source)
    (clock : intProperty node "clock-frequency" = some frequency) (region : regPair node = some reg) :
    (∀ after, ns16550aDriverInit grants devId node s = .ok (0, after) → after.Released) ↔
      0 < source ∧ source ≤ 1023 ∨ grants 3 ≠ 0 := by
  obtain ⟨s', kept, irq, _, configured⟩ := @ns16550aConfigure_present (s.granted grants 4) node (grants 0)
    (grants 1) (grants 2) (grants 3) source frequency reg devId (fresh.unused 2 third) interrupts clock region
  rw [ns16550aDriverInit_eq fresh devId first second third, configured]
  by_cases valid : 0 < source ∧ source ≤ 1023
  · have active := @ns16550aActivate_valid s' (grants 0) (grants 1) (grants 2) (grants 3) third (by simp [irq])
      (by rw [irq]; exact valid) second
    exact ⟨fun _ => .inl valid, fun _ after returned => absurd returned (active after)⟩
  · rw [ns16550aActivate_invalid (by rw [irq]; show source ≤ 0 ∨ source > 1023; omega)]
    have same : s'.obtained = _ := kept.obtained.trans (granted_four_obtained first second third)
    have freed : s'.freed = [] := kept.freed.trans fresh.freed
    constructor
    · intro clean
      right
      intro fourth
      have nonnull := (clean _ rfl).not_null (s := s) kept.obtained
      simp [DriverState.free, fourth] at nonnull
    · intro condition after returned
      cases returned
      have fourth : grants 3 ≠ 0 := condition.resolve_left valid
      refine fresh.released 4 kept.pointers kept.obtained ?_
      simp only [DriverState.free, same, freed, fourth, if_false, List.nil_append, List.cons_append]
      exact (List.Perm.swap _ _ _).trans ((List.Perm.swap _ _ _).cons _)

end

/-- A driver that returns null has freed exactly what it had obtained, and the HAL does not point
to it, if and only if `ns16550a_driver_init` takes one of its clean exits. -/
theorem failed_init_releases_iff (enabled : Nat → Bool) (devId : Nat) (fresh : s.Fresh grants) :
    ((∀ after, ns16550aDriverInit grants devId node s = .ok (0, after) → after.Released) ∧
      ∀ after, plicDriverInit enabled grants devId node s = .ok (0, after) → after.Released) ↔
    CleanExit grants node := by
  have plic : ∀ after, plicDriverInit enabled grants devId node s = .ok (0, after) → after.Released :=
    fun after returned => plicDriverInit_released fresh returned
  rw [and_iff_left plic]
  by_cases failed : grants 0 = 0 ∨ grants 1 = 0 ∨ grants 2 = 0
  · exact ⟨fun _ => by unfold CleanExit; tauto, fun _ _ returned => fresh.released_early failed returned⟩
  · simp only [not_or] at failed
    obtain ⟨first, second, third⟩ := failed
    simp only [CleanExit, first, second, third, false_or]
    constructor
    · intro clean
      have present : ¬ (intProperty node "interrupts" = none ∨ intProperty node "clock-frequency" = none ∨
          regPair node = none) := by
        intro missing
        obtain ⟨after, returned, leaks⟩ := ns16550aDriverInit_leaks fresh first second third devId missing
        exact leaks (clean after returned)
      simp only [not_or, ← ne_eq, Option.ne_none_iff_exists'] at present
      obtain ⟨⟨source, interrupts⟩, ⟨frequency, clock⟩, ⟨reg, region⟩⟩ := present
      exact ⟨source, frequency, reg, interrupts, clock, region, (ns16550aDriverInit_released_iff fresh first
        second third devId interrupts clock region).mp clean⟩
    · rintro ⟨source, frequency, reg, interrupts, clock, region, accepted⟩
      exact (ns16550aDriverInit_released_iff fresh first second third devId interrupts clock region).mpr accepted

end

def blankInternal : Ns16550aInternal where
  devId := 0
  interruptSrcId := 0
  clockFreq := 0
  regBase := 0
  regSize := 0
  txLock := ⟨0, 0⟩
  rxLock := ⟨0, 0⟩
  txBuffer := fun _ => 0
  rxBuffer := fun _ => 0
  txBufferHead := 0
  txBufferTail := 0
  rxBufferHead := 0
  rxBufferTail := 0

def idleDrivers : DriverState where
  internals := fun _ => blankInternal
  plicInternals := fun _ => ⟨0, 0, 0⟩
  devices := fun _ => ⟨"", 0, 0, 0, 0, 0, 0, 0⟩
  irqs := fun _ => ⟨0, 0, .null⟩
  interruptors := fun _ => ⟨0, .null, .null, .null, .null, .null, .null⟩
  uarts := fun _ => ⟨0, .null, .null⟩
  hal := ⟨0, [], []⟩
  calls := 0
  obtained := []
  freed := []
  registers := []

theorem idleDrivers_fresh (grants : Nat → Nat) : idleDrivers.Fresh grants :=
  ⟨rfl, rfl, rfl, fun _ _ => List.not_mem_nil⟩

def serialNode (source : UInt8) : FdtNode :=
  { uartNode with
    properties :=
      [(textBytes "interrupts", [0, 0, 0, source]), (textBytes "clock-frequency", [0, 0x38, 0x40, 0]),
        (textBytes "reg", [0, 0, 0, 0, 0x10, 0, 0, 0, 0, 0, 0, 0, 0, 0, 1, 0])] }

/-- An interrupt number that the HAL refuses, while memory lasts. -/
theorem failed_init_releases_refused :
    (∀ after, ns16550aDriverInit (· + 1) 1 (serialNode 0) idleDrivers = .ok (0, after) → after.Released) ∧
      ∀ after, plicDriverInit (· = 0) (· + 1) 1 (serialNode 0) idleDrivers = .ok (0, after) → after.Released :=
  (failed_init_releases_iff (fun hart => hart = 0) 1 (idleDrivers_fresh _)).mpr
    (.inr (.inr (.inr ⟨0, 3686400, (0x10000000, 0x100), by decide, by decide, by decide, .inr (by decide)⟩)))

def clocklessNode : FdtNode := { uartNode with properties := [(textBytes "interrupts", [0, 0, 0, 10])] }

/-- Four objects are obtained, and the third of them is not freed. -/
theorem failed_init_leaks_irq : idleDrivers.Fresh (fun call => 4096 * (call + 1)) ∧
    ∃ after, ns16550aDriverInit (fun call => 4096 * (call + 1)) 1 clocklessNode idleDrivers = .ok (0, after) ∧
      after.obtained = [4096, 8192, 12288, 16384] ∧ after.freed = [4096, 8192, 16384] ∧ ¬ after.Released := by
  have interrupts : intProperty clocklessNode "interrupts" = some 10 := by decide
  have clock : intProperty clocklessNode "clock-frequency" = none := by decide
  rw [ns16550aDriverInit_eq (idleDrivers_fresh _) 1 (by decide) (by decide) (by decide)]
  simp only [ns16550aConfigure, interrupts, clock]
  refine ⟨idleDrivers_fresh _, _, rfl, rfl, rfl, fun released => ?_⟩
  exact absurd released.freed (by decide)

end Kalorona.Device
