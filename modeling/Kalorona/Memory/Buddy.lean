import Kalorona.Memory.Bootmem
import Mathlib.Logic.Function.Basic

namespace Kalorona.Memory

open Kalorona.Data Kalorona.Utilities

/-! # The buddy page allocator

Free memory is kept as blocks of `2 ^ ord` pages, for each order in a list.
-/

/-- `struct kmem_free_area_struct`.  The list is kept as the addresses of its
nodes, the successor of the head first; the pointer to the map is split into its
address and the bytes behind it. -/
structure FreeArea where
  freePageList : List Nat
  freeAreaMapAddr : Nat
  freeAreaMap : Bitmap
  freeAreaMapSize : Nat

/-- The page manager's part of `struct kmem_node_struct`.  The array `free_areas`
is read below `MAX_MEM_ORDER` only. -/
structure Kmem where
  beginPpn : Nat
  numPpn : Nat
  memMapAddr : Nat
  memMap : Bitmap
  memMapSize : Nat
  freeAreas : Nat → FreeArea

def pageVaddr (kmem : Kmem) (pn : Nat) : Nat :=
  pmaPa2Va (ulong (ulong (pn + kmem.beginPpn) <<< pageShift))

def vaddrPn (kmem : Kmem) (vaddr : Nat) : Nat :=
  ulongSub (pmaVa2Pa vaddr >>> pageShift) kmem.beginPpn

namespace Kmem

def setArea (kmem : Kmem) (ord : Nat) (area : FreeArea) : Kmem :=
  { kmem with freeAreas := Function.update kmem.freeAreas ord area }

def toggle (kmem : Kmem) (ord index : Nat) : Kmem :=
  kmem.setArea ord { kmem.freeAreas ord with
    freeAreaMap := (toggleBit (kmem.freeAreas ord).freeAreaMap index).2 }

def push (kmem : Kmem) (ord node : Nat) : Kmem :=
  kmem.setArea ord { kmem.freeAreas ord with
    freePageList := node :: (kmem.freeAreas ord).freePageList }

def drop (kmem : Kmem) (node : Nat) : Kmem :=
  { kmem with freeAreas := fun ord => { kmem.freeAreas ord with
    freePageList := (kmem.freeAreas ord).freePageList.erase node } }

def isListed (kmem : Kmem) (node : Nat) : Bool :=
  (List.range maxMemOrder).any fun ord => (kmem.freeAreas ord).freePageList.contains node

end Kmem

def listInsert (ord node : Nat) (kmem : Kmem) : Result Kmem :=
  if node = 0 then .error (.panic "list_insert - null parameters")
  else .ok (kmem.push ord node)

/-- A node that is in no list has no links: following them is a stray access. -/
def listDetach (node : Nat) (kmem : Kmem) : Result Kmem :=
  if node = 0 then .error (.panic "list_detach - null parameters")
  else if kmem.isListed node then .ok (kmem.drop node)
  else .error .stray

/-- The loop of `kmem_free_page` from order `dep` on, for `remaining` orders. -/
def freeFrom (pn : Nat) : Nat → Nat → Kmem → Result Kmem
  | 0, _, kmem => .ok kmem
  | remaining + 1, dep, kmem => do
      let currentPn := pn &&& ulongNot (ulongSub (1 <<< dep) 1)
      let buddyPn := currentPn ^^^ 1 <<< dep
      let mapPos := currentPn >>> (dep + 1)
      let toggled := (toggleBit (kmem.freeAreas dep).freeAreaMap mapPos).1
      let kmem := kmem.toggle dep mapPos
      if !toggled ∧ dep ≠ maxMemOrder - 1 then
        -- buddy was freed; must detach the buddy node
        let kmem ← listDetach (pageVaddr kmem buddyPn) kmem
        freeFrom pn remaining (dep + 1) kmem
      else
        -- current_ppn freed for size of 2^dep
        listInsert dep (pageVaddr kmem currentPn) kmem

def kmemFreePage (addr : Nat) (kmem : Kmem) : Result Kmem := do
  if addr &&& (pageSize - 1) ≠ 0 then
    throw (.panic "kmem_free_page - bad address alignment")
  let pn := vaddrPn kmem addr
  let cleared := testAndClearBit kmem.memMap pn
  if !cleared.1 then throw (.panic "kmem_free_page - freed twice")
  freeFrom pn maxMemOrder 0 { kmem with memMap := cleared.2 }

def freePagesFrom : Nat → Nat → Kmem → Result Kmem
  | 0, _, kmem => .ok kmem
  | count + 1, vaddr, kmem => do
      let kmem ← kmemFreePage vaddr kmem
      freePagesFrom count (ulong (vaddr + pageSize)) kmem

def kmemFreePages (addr pageCount : Nat) (kmem : Kmem) : Result Kmem := do
  if addr &&& (pageSize - 1) ≠ 0 then
    throw (.panic "kmem_free_pages - bad address alignment")
  freePagesFrom pageCount addr kmem

/-- The first order from `order` on with a block in its list. -/
def findOrder (kmem : Kmem) : Nat → Nat → Option (Nat × Nat)
  | 0, _ => none
  | remaining + 1, currentOrder =>
    match (kmem.freeAreas currentOrder).freePageList with
    | node :: _ => some (currentOrder, node)
    | [] => findOrder kmem remaining (currentOrder + 1)

/-- The loop that halves a block of order `order + count` until `order` is reached;
the left part keeps the address. -/
def splitBlock (order blockVaddr : Nat) : Nat → Kmem → Result Kmem
  | 0, kmem => .ok kmem
  | count + 1, kmem => do
      let ord := order + count + 1
      let blockPn := vaddrPn kmem blockVaddr
      let rightPart := ulong (blockVaddr + ulong ((1 <<< (ord - 1)) <<< pageShift))
      -- remove the large block
      let kmem ← listDetach blockVaddr kmem
      let kmem := kmem.toggle ord (blockPn >>> (ord + 1))
      -- left part splitted
      let kmem ← listInsert (ord - 1) blockVaddr kmem
      -- right part splitted
      let kmem ← listInsert (ord - 1) rightPart kmem
      splitBlock order blockVaddr count kmem

/-- Returns 0 for the null pointer. -/
def kmemAllocPages (order : Nat) (kmem : Kmem) : Result (Nat × Kmem) := do
  if order ≥ maxMemOrder then throw (.panic "kmem_alloc_pages - too large")
  match findOrder kmem (maxMemOrder - order) order with
  | none => return (0, kmem)
  | some (currentOrder, pageVaddr) =>
    if currentOrder < order then throw (.panic "kmem_alloc_pages - wrong direction")
    let kmem ← splitBlock order pageVaddr (currentOrder - order) kmem
    -- register
    let pagePn := vaddrPn kmem pageVaddr
    let kmem ← listDetach pageVaddr kmem
    let kmem := kmem.toggle order (pagePn >>> (order + 1))
    let memMap ← setBits "kmem_alloc_pages - allocated" (1 <<< order) pagePn kmem.memMap
    return (pageVaddr, { kmem with memMap })

/-- What `kmem_init` copies from the boot memory node, over zeroed storage. -/
def kmemOfBootmem (node : BootmemNode) : Kmem :=
  { beginPpn := node.beginPpn, numPpn := node.numPpn, memMapAddr := node.memMapAddr, memMap := node.memMap,
    memMapSize := node.memMapSize,
    freeAreas := fun _ => ⟨[], 0, fun _ => 0, 0⟩ }

def freeAreaMapSize (numPpn ord : Nat) : Nat :=
  ulong (numPpn >>> (ord + 1) + 8 - 1) >>> 3

/-- The first loop of `kmem_page_manager_init`.  Both structures point to one
`mem_map`; the map of an order is read as zeros from its address on. -/
def allocFreeAreaMaps : Nat → Nat → Kmem → BootmemNode → Memory →
    Result (Kmem × BootmemNode × Memory)
  | 0, _, kmem, node, memory => .ok (kmem, node, memory)
  | remaining + 1, ord, kmem, node, memory => do
      let size := freeAreaMapSize kmem.numPpn ord
      let (address, node, memory) ← bootmemAlloc size 1 0 node memory
      let area := { kmem.freeAreas ord with
        freeAreaMapAddr := address, freeAreaMap := fun _ => 0, freeAreaMapSize := size }
      allocFreeAreaMaps remaining (ord + 1) { kmem.setArea ord area with memMap := node.memMap }
        node memory

def freeUnreserved : Nat → Nat → Kmem → Result Kmem
  | 0, _, kmem => .ok kmem
  | count + 1, pn, kmem =>
    if testBit kmem.memMap pn then freeUnreserved count (pn + 1) kmem
    else do
      let kmem ← kmemFreePage (pageVaddr kmem pn)
        { kmem with memMap := (testAndSetBit kmem.memMap pn).2 }
      freeUnreserved count (pn + 1) kmem

def kmemPageManagerInit (node : BootmemNode) (memory : Memory) : Result (Kmem × BootmemNode × Memory) := do
  let (kmem, node, memory) ← allocFreeAreaMaps maxMemOrder 0 (kmemOfBootmem node) node memory
  let kmem ← freeUnreserved kmem.numPpn 0 kmem
  return (kmem, { node with memMap := kmem.memMap }, memory)

end Kalorona.Memory
