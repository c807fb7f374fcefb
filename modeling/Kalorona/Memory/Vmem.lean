import Kalorona.Utilities.String

namespace Kalorona.Memory

open Kalorona.Data Kalorona.Utilities

/-! # Page tables

A page table is a page of 512 words in the memory that the kernel reaches
through the direct map.  Where the code asks for pages, any allocator can stand
behind it.
-/

def vaUserBegin : Nat := 0x200000
def vaUserUserHandlerBegin : Nat := 0x3FFFFF0000
def vaUserUserHandlerSize : Nat := 0x8000
def vaUserTrapframeBegin : Nat := 0x3FFFFF8000

def vaNVpn : Nat := 3
def pnWidth : Nat := 9
def pteFlagsWidth : Nat := 10

def pteFlagV : Nat := 1 <<< 0
def pteFlagR : Nat := 1 <<< 1
def pteFlagW : Nat := 1 <<< 2
def pteFlagX : Nat := 1 <<< 3
def pteFlagU : Nat := 1 <<< 4

def vaGetPn (lv va : Nat) : Nat := va >>> (pnWidth * lv + pageShift) &&& 0x1FF
def paPte (pa : Nat) : Nat := (pa >>> pageShift) <<< pteFlagsWidth
def ptePa (pte : Nat) : Nat := ulong ((pte >>> pteFlagsWidth) <<< pageShift)

def pteFlags (pte : Nat) : Nat := pte &&& (1 <<< pteFlagsWidth - 1)

/-- The address of `pgtbl[pn]`. -/
def entryAddr (pgtbl pn : Nat) : Nat := pgtbl + 8 * pn

/-- `kmem_alloc_pages`, which returns 0 for the null pointer, and `kmem_free_page`. -/
class PageAllocator (σ : Type) where
  allocPages : Nat → σ → Result (Nat × σ)
  freePage : Nat → σ → Result σ

export PageAllocator (allocPages freePage)

/-- The memory, and the state of the page allocator. -/
structure Vmem (σ : Type) where
  memory : Memory
  pages : σ

variable {σ : Type} [PageAllocator σ]

/-- The loop of `vm_walk` from level `lv` down. -/
def walkFrom (va : Nat) (alloc : Bool) : Nat → Nat → Vmem σ → Result (Nat × Vmem σ)
  | 0, pgtbl, vm => .ok (entryAddr pgtbl (vaGetPn 0 va), vm)
  | lv + 1, pgtbl, vm =>
    let e := entryAddr pgtbl (vaGetPn (lv + 1) va)
    if vm.memory.load64 e &&& pteFlagV ≠ 0 then
      walkFrom va alloc lv (pmaPa2Va (ptePa (vm.memory.load64 e))) vm
    else if !alloc then .ok (0, vm)
    else do
      let (table, pages) ← allocPages 0 vm.pages
      if table = 0 then return (0, { vm with pages })
      let memory := memset vm.memory table 0 pageSize
      let memory := memory.store64 e (paPte (pmaVa2Pa table) ||| pteFlagV)
      walkFrom va alloc lv table ⟨memory, pages⟩

/-- Returns the address of the entry, or 0 for the null pointer. -/
def vmWalk (pgtbl va : Nat) (alloc : Bool) (vm : Vmem σ) : Result (Nat × Vmem σ) :=
  walkFrom va alloc (vaNVpn - 1) pgtbl vm

/-- The loop of `vm_mappages`. -/
def mapFrom (pgtbl flags : Nat) : Nat → Nat → Nat → Vmem σ → Result (Int × Vmem σ)
  | 0, _, _, vm => .ok (0, vm)
  | count + 1, currentPg, pa, vm => do
      let (entry, vm) ← vmWalk pgtbl currentPg true vm
      if entry = 0 then return (-1, vm)
      if vm.memory.load64 entry &&& pteFlagV ≠ 0 then
        throw (.panic "vm_mappages - overlapped")
      let memory := vm.memory.store64 entry (paPte pa ||| pteFlagV ||| flags)
      mapFrom pgtbl flags count (ulong (currentPg + pageSize)) (ulong (pa + pageSize))
        { vm with memory }

/-- The loop stops where `current_pg` meets the rounded end, both multiples of the page
size, so the number of rounds is their distance. -/
def vmMappages (pgtbl va pa siz flags : Nat) (vm : Vmem σ) : Result (Int × Vmem σ) :=
  if siz = 0 then .ok (-1, vm)
  else
    let distance := ulongSub (pageRoundUp (ulong (va + siz))) (pageRoundDown va)
    mapFrom pgtbl flags (distance >>> pageShift) (pageRoundDown va) pa vm

/-- The loop of `vm_unmappages`. -/
def unmapFrom (pgtbl : Nat) (doFree : Bool) : Nat → Nat → Vmem σ → Result (Vmem σ)
  | 0, _, vm => .ok vm
  | count + 1, vAddr, vm => do
      let (entry, vm) ← vmWalk pgtbl vAddr false vm
      let pte := vm.memory.load64 entry
      if entry = 0 ∨ pte &&& pteFlagV = 0 ∨ pteFlags pte = pteFlagV then
        throw (.panic "vm_unmappages - broken entry")
      let pages ← if doFree then freePage (pmaPa2Va (ptePa pte)) vm.pages else pure vm.pages
      unmapFrom pgtbl doFree count (ulong (vAddr + pageSize)) ⟨vm.memory.store64 entry 0, pages⟩

/-- `bound` differs from `va` by a multiple of the page size, so the loop meets it
exactly, unless it does not start. -/
def vmUnmappages (pgtbl va pageCount : Nat) (doFree : Bool) (vm : Vmem σ) : Result (Vmem σ) :=
  if va &&& (1 <<< pnWidth - 1) ≠ 0 then .error (.panic "vm_unmappages - broken alignment")
  else
    let bound := ulong (va + ulong (pageSize * pageCount))
    unmapFrom pgtbl doFree ((bound - va) >>> pageShift) va vm

/-- The loop of `vm_reap_pagetable` from entry `i` on; `descend` is the recursive call. -/
def reapEntries (descend : Nat → Vmem σ → Result (Vmem σ)) (pgtbl : Nat) : Nat → Nat → Vmem σ → Result (Vmem σ)
  | 0, _, vm => .ok vm
  | count + 1, i, vm => do
      let pte := vm.memory.load64 (entryAddr pgtbl i)
      if pte &&& pteFlagV ≠ 0 ∧ pte &&& (pteFlagR ||| pteFlagW ||| pteFlagX) = 0 then
        -- non-leaf
        let vm ← descend (pmaPa2Va (ptePa pte)) vm
        reapEntries descend pgtbl count (i + 1)
          { vm with memory := vm.memory.store64 (entryAddr pgtbl i) 0 }
      else if pte &&& pteFlagV ≠ 0 then
        -- no binding pages are allowed
        throw (.panic "vm_reap_pagetable - leaves")
      else reapEntries descend pgtbl count (i + 1) vm

/-- The recursion follows whatever the entries say, so its depth is bounded by fuel. -/
def vmReapPagetable : Nat → Nat → Vmem σ → Result (Vmem σ)
  | 0, _, _ => .error .hang
  | fuel + 1, pgtbl, vm => do
      let vm ← reapEntries (vmReapPagetable fuel) pgtbl (1 <<< pnWidth) 0 vm
      let pages ← freePage pgtbl vm.pages
      return { vm with pages }

/-- `userHandlerPa` is `KERNEL_USER_HANDLER_PA_BEGIN`, which the linker defines. -/
def vmMapUserHandler (userHandlerPa pgtbl : Nat) (vm : Vmem σ) : Result (Int × Vmem σ) :=
  vmMappages pgtbl vaUserUserHandlerBegin userHandlerPa vaUserUserHandlerSize
    (pteFlagR ||| pteFlagX) vm

def vmUnmapUserHandler (pgtbl : Nat) (vm : Vmem σ) : Result (Vmem σ) :=
  vmUnmappages pgtbl vaUserUserHandlerBegin (vaUserUserHandlerSize >>> pageShift) false vm

/-- The table is cleared before it is compared with the null pointer. -/
def vmUserMakePagetable (userHandlerPa : Nat) (vm : Vmem σ) : Result (Nat × Vmem σ) := do
  let (ret, pages) ← allocPages 0 vm.pages
  if ret = 0 then throw .stray
  let (_, vm) ← vmMapUserHandler userHandlerPa ret ⟨memset vm.memory ret 0 pageSize, pages⟩
  return (ret, vm)

def vmTranslate (pgtbl addr : Nat) (vm : Vmem σ) : Result Nat := do
  let (entry, vm) ← vmWalk pgtbl addr false vm
  if entry = 0 then return 0
  return pmaPa2Va (ptePa (vm.memory.load64 entry) ||| (addr &&& (pageSize - 1)))

/-- A page as `kmem_alloc_pages` hands it out: `list_detach` has cleared its two links, which are its
first words.  The rest is what the page held before. -/
def handedOut (memory : Memory) (page : Nat) : Memory :=
  if page = 0 then memory else (memory.store64 page 0).store64 (page + 8) 0

/-- One round of the loop of `vm_uvmcpy_recursive`; `descend` is the recursive call, which
is not made on the last level. -/
def uvmcpyEntry (descend : Option (Nat → Nat → Vmem σ → Result (Vmem σ)))
    (overwrite : Bool) (pgtbl newPgtbl pn : Nat) (vm : Vmem σ) : Result (Vmem σ) := do
  let pte := vm.memory.load64 (entryAddr pgtbl pn)
  let newEntry := entryAddr newPgtbl pn
  if pte &&& pteFlagV = 0 then return vm
  if pte &&& (pteFlagR ||| pteFlagX) ≠ 0 then
    if !overwrite ∧ vm.memory.load64 newEntry ≠ 0 then return vm
    -- copy the content inside and re-pointing at the new page
    let (newPage, pages) ← allocPages 0 vm.pages
    if newPage = 0 then throw .stray
    let memory := memcpy vm.memory newPage (pmaPa2Va (ptePa pte)) pageSize
    return ⟨memory.store64 newEntry (paPte (pmaVa2Pa newPage) ||| pteFlags pte), pages⟩
  match descend with
  | none => return vm
  | some descend =>
    let vm ← if vm.memory.load64 newEntry = 0 then do
        -- make a new sub pagetable
        let (newSubpgtble, pages) ← allocPages 0 vm.pages
        pure ⟨(handedOut vm.memory newSubpgtble).store64 newEntry
          (paPte (pmaVa2Pa newSubpgtble) ||| pteFlags pte), pages⟩
      else pure vm
    descend (pmaPa2Va (ptePa (vm.memory.load64 (entryAddr pgtbl pn))))
      (pmaPa2Va (ptePa (vm.memory.load64 newEntry))) vm

def uvmcpyEntries (descend : Option (Nat → Nat → Vmem σ → Result (Vmem σ)))
    (overwrite : Bool) (pgtbl newPgtbl : Nat) : Nat → Nat → Vmem σ → Result (Vmem σ)
  | 0, _, vm => .ok vm
  | count + 1, pn, vm => do
      let vm ← uvmcpyEntry descend overwrite pgtbl newPgtbl pn vm
      uvmcpyEntries descend overwrite pgtbl newPgtbl count (pn + 1) vm

def vmUvmcpyRecursive (overwrite : Bool) : Nat → Nat → Nat → Vmem σ → Result (Vmem σ)
  | 0, pgtbl, newPgtbl, vm => uvmcpyEntries none overwrite pgtbl newPgtbl (1 <<< pnWidth) 0 vm
  | level + 1, pgtbl, newPgtbl, vm =>
    uvmcpyEntries (some (vmUvmcpyRecursive overwrite level)) overwrite pgtbl newPgtbl
      (1 <<< pnWidth) 0 vm

def vmUvmcpy (pgtbl newPgtbl : Nat) (overwrite : Bool) (vm : Vmem σ) : Result (Vmem σ) :=
  vmUvmcpyRecursive overwrite (vaNVpn - 1) pgtbl newPgtbl vm

def vmMemcpyin (pgtbl dst vsrc : Nat) : Nat → Vmem σ → Result (Int × Vmem σ)
  | 0, vm => .ok (0, vm)
  | size + 1, vm => do
      let tmpPtr ← vmTranslate pgtbl vsrc vm
      if tmpPtr = 0 then return (-1, vm)
      vmMemcpyin pgtbl (ulong (dst + 1)) (ulong (vsrc + 1)) size
        { vm with memory := vm.memory.store dst (vm.memory tmpPtr) }

def vmMemcpyout (pgtbl vdst src : Nat) : Nat → Vmem σ → Result (Int × Vmem σ)
  | 0, vm => .ok (0, vm)
  | size + 1, vm => do
      let tmpPtr ← vmTranslate pgtbl vdst vm
      if tmpPtr = 0 then return (-1, vm)
      vmMemcpyout pgtbl (ulong (vdst + 1)) (ulong (src + 1)) size
        { vm with memory := vm.memory.store tmpPtr (vm.memory src) }

end Kalorona.Memory
