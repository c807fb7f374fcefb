import Kalorona.Device.Fdt
import Kalorona.Device.Memory

namespace Kalorona.Device

open Kalorona.Console Kalorona.Data Kalorona.Utilities

/-! # Looking for memory in the device tree

`device_walk_fdt_for_memory` goes over the tree and fills two global variables: the range of
the RAM, and the reserved regions.
-/

def maxRamSegment : Nat := 1024

/-- `ram_descriptor.ram`, and the first `__sort_seg_num` entries of `__sort_seg_begin` and
`__sort_seg_end`. -/
structure MemoryScan where
  ram : RamSegment
  sortSeg : List (Nat × Nat)
deriving DecidableEq, Repr

section
variable (behind : FdtNode → Nat → UInt8)

/-- A property that is absent is read through a null pointer.  The bytes of the blob `behind` the
property complete a short one. -/
def deviceFdtGetReg (node : FdtNode) : Result (Nat × Nat) :=
  match node.getProperty "reg" with
  | none => .error .stray
  | some data =>
    let bytes := data ++ (List.range 16).map (behind node)
    .ok (fdt64 bytes 0, fdt64 bytes 1)

/-- The loop over the subnodes of a node that looks like `reserved-memory`. -/
def reserveRegions : List FdtNode → MemoryScan → Result MemoryScan
  | [], scan => .ok scan
  | node :: nodes, scan => do
      let (resBeg, resLen) ← deviceFdtGetReg behind node
      if scan.sortSeg.length < maxRamSegment then
        reserveRegions nodes { scan with sortSeg := scan.sortSeg ++ [(resBeg, ulong (resBeg + resLen))] }
      else throw .stray

/-- Both names are compared without their last character. -/
def looksLikeMemory (node : FdtNode) : Bool :=
  strncmp node.name (textBytes "memory") ((textBytes "memory").length - 1) = 0

def looksLikeReserved (node : FdtNode) : Bool :=
  strncmp node.name (textBytes "reserved-memory") ((textBytes "reserved-memory").length - 1) = 0

/-- `device_walk_fdt_for_memory` for one node after the other. -/
def walkForMemory : Forest FdtNode → MemoryScan → Result MemoryScan
  | .nil, scan => .ok scan
  | .cons node subnodes next, scan =>
    let visited : Result MemoryScan :=
      if looksLikeMemory node then do
        let (paBegin, paLen) ← deviceFdtGetReg behind node
        walkForMemory subnodes { scan with ram := ⟨paBegin, paLen⟩ }
      else if looksLikeReserved node then
        reserveRegions behind subnodes.roots scan
      else
        walkForMemory subnodes scan
    visited >>= walkForMemory next

def deviceWalkFdtForMemory (root : FdtNode) (subnodes : Forest FdtNode) (scan : MemoryScan) : Result MemoryScan :=
  walkForMemory behind (.cons root subnodes .nil) scan

end

def regRange (reg : RamSegment) : Nat × Nat := (reg.paBegin, ulong (reg.paBegin + reg.paLen))

def FdtNode.reg (node : FdtNode) : RamSegment :=
  let data := (node.getProperty "reg").getD []
  ⟨fdt64 data 0, fdt64 data 1⟩

def FdtNode.region (node : FdtNode) : Nat × Nat := regRange node.reg

def FdtNode.readable (node : FdtNode) : Bool := (node.getProperty "reg").isSome

variable {behind : FdtNode → Nat → UInt8}

/-- The `reg` of a node as it is read, with the bytes behind it. -/
def readReg (behind : FdtNode → Nat → UInt8) (node : FdtNode) : RamSegment :=
  let bytes := (node.getProperty "reg").getD [] ++ (List.range 16).map (behind node)
  ⟨fdt64 bytes 0, fdt64 bytes 1⟩

/-- The nodes whose `reg` the walk takes for the RAM, in the order of the walk. -/
def taken : Forest FdtNode → List FdtNode
  | .nil => []
  | .cons node subnodes next =>
    (if looksLikeMemory node then node :: taken subnodes
      else if looksLikeReserved node then [] else taken subnodes) ++ taken next

/-- The nodes whose `reg` the walk takes for a reserved region. -/
def collected : Forest FdtNode → List FdtNode
  | .nil => []
  | .cons node subnodes next =>
    (if looksLikeMemory node then collected subnodes
      else if looksLikeReserved node then subnodes.roots else collected subnodes) ++ collected next

def scanned (behind : FdtNode → Nat → UInt8) (memoryNodes regions : List FdtNode) (scan : MemoryScan) :
    MemoryScan :=
  { ram := memoryNodes.foldl (fun _ node => readReg behind node) scan.ram
    sortSeg := scan.sortSeg ++ regions.map fun node => regRange (readReg behind node) }

theorem scanned_append (first second third fourth : List FdtNode) (scan : MemoryScan) :
    scanned behind second fourth (scanned behind first third scan) =
      scanned behind (first ++ second) (third ++ fourth) scan := by
  simp [scanned]

variable {node : FdtNode} {scan : MemoryScan} {forest : Forest FdtNode}

theorem deviceFdtGetReg_readable (readable : node.readable = true) :
    deviceFdtGetReg behind node = .ok ((readReg behind node).paBegin, (readReg behind node).paLen) := by
  obtain ⟨data, found⟩ := Option.isSome_iff_exists.mp readable
  simp only [deviceFdtGetReg, readReg, found, Option.getD_some]

theorem readable_of_getReg {range : Nat × Nat}
    (run : deviceFdtGetReg behind node = .ok range) : node.readable = true := by
  unfold deviceFdtGetReg at run
  unfold FdtNode.readable
  cases found : node.getProperty "reg" with
  | none => simp [found] at run
  | some data => rfl

theorem reserveRegions_returns {nodes : List FdtNode}
    (readable : ∀ node ∈ nodes, node.readable = true) (fits : scan.sortSeg.length + nodes.length ≤ maxRamSegment) :
    reserveRegions behind nodes scan = .ok (scanned behind [] nodes scan) := by
  induction nodes generalizing scan with
  | nil => simp [reserveRegions, scanned]
  | cons node nodes ih =>
    rw [List.length_cons] at fits
    rw [reserveRegions, deviceFdtGetReg_readable (readable node List.mem_cons_self), Result.ok_bind]
    dsimp only
    rw [if_pos (by omega), ih (fun other member => readable other (List.mem_cons_of_mem _ member))
      (by simp only [List.length_append, List.length_singleton]; omega)]
    simp [scanned, regRange]

theorem reserveRegions_returned {nodes : List FdtNode} {after : MemoryScan}
    (run : reserveRegions behind nodes scan = .ok after) (started : scan.sortSeg.length ≤ maxRamSegment) :
    (∀ node ∈ nodes, node.readable = true) ∧ scan.sortSeg.length + nodes.length ≤ maxRamSegment := by
  induction nodes generalizing scan with
  | nil => exact ⟨by simp, started⟩
  | cons node nodes ih =>
    obtain ⟨⟨resBeg, resLen⟩, read, rest⟩ := Result.bind_ok run
    dsimp only at rest
    split at rest
    next room =>
      obtain ⟨others, fits⟩ := ih rest (by simp only [List.length_append, List.length_singleton]; omega)
      simp only [List.length_append, List.length_singleton] at fits
      refine ⟨?_, by rw [List.length_cons]; omega⟩
      intro other member
      rcases List.mem_cons.mp member with same | later
      · rw [same]
        exact readable_of_getReg read
      · exact others other later
    next => cases rest

/-- All that the walk reads has a `reg`, and the table has room. -/
structure Readable (visited reserved : List FdtNode) (scan : MemoryScan) : Prop where
  memoryNodes : ∀ node ∈ visited, node.readable = true
  regions : ∀ node ∈ reserved, node.readable = true
  fits : scan.sortSeg.length + reserved.length ≤ maxRamSegment

theorem readable_append_iff {first second third fourth : List FdtNode} :
    Readable (first ++ second) (third ++ fourth) scan ↔
      Readable first third scan ∧ Readable second fourth (scanned behind first third scan) := by
  constructor
  · rintro ⟨memoryNodes, regions, fits⟩
    rw [List.length_append] at fits
    refine ⟨⟨?_, ?_, by omega⟩, ?_, ?_, ?_⟩
    · exact fun node member => memoryNodes node (List.mem_append_left _ member)
    · exact fun node member => regions node (List.mem_append_left _ member)
    · exact fun node member => memoryNodes node (List.mem_append_right _ member)
    · exact fun node member => regions node (List.mem_append_right _ member)
    · simp only [scanned, List.length_append, List.length_map]
      omega
  · rintro ⟨here, later⟩
    have fits := later.fits
    simp only [scanned, List.length_append, List.length_map] at fits
    refine ⟨?_, ?_, by rw [List.length_append]; omega⟩
    · intro node member
      exact (List.mem_append.mp member).elim (here.memoryNodes node) (later.memoryNodes node)
    · intro node member
      exact (List.mem_append.mp member).elim (here.regions node) (later.regions node)

theorem walkForMemory_returns (readable : Readable (taken forest) (collected forest) scan) :
    walkForMemory behind forest scan = .ok (scanned behind (taken forest) (collected forest) scan) := by
  induction forest generalizing scan with
  | nil => simp [walkForMemory, taken, collected, scanned]
  | cons node subnodes next below after =>
    unfold taken collected at readable ⊢
    obtain ⟨here, later⟩ := readable_append_iff.mp readable
    rw [← scanned_append, walkForMemory, ← after later]
    cases memory : looksLikeMemory node with
    | true =>
      simp only [memory, if_true] at here ⊢
      have rest : Readable (taken subnodes) (collected subnodes) { scan with ram := readReg behind node } :=
        ⟨fun other member => here.memoryNodes other (List.mem_cons_of_mem _ member), here.regions, here.fits⟩
      rw [deviceFdtGetReg_readable (here.memoryNodes node List.mem_cons_self), Result.ok_bind]
      dsimp only
      rw [below rest]
      rfl
    | false =>
      cases reserved : looksLikeReserved node with
      | true =>
        simp only [memory, reserved, Bool.false_eq_true, if_false, if_true] at here ⊢
        rw [reserveRegions_returns here.regions here.fits]
        rfl
      | false =>
        simp only [memory, reserved, Bool.false_eq_true, if_false] at here ⊢
        rw [below here]
        rfl

theorem walkForMemory_returned {after : MemoryScan}
    (run : walkForMemory behind forest scan = .ok after) (started : scan.sortSeg.length ≤ maxRamSegment) :
    Readable (taken forest) (collected forest) scan := by
  induction forest generalizing scan after with
  | nil => exact ⟨by simp [taken], by simp [collected], by simpa [collected] using started⟩
  | cons node subnodes next below later =>
    unfold taken collected
    rw [walkForMemory] at run
    obtain ⟨middle, first, rest⟩ := Result.bind_ok run
    -- The part below the node comes first; what it leaves is where the siblings start.
    have here : ∀ {memoryNodes regions : List FdtNode}, Readable memoryNodes regions scan →
        middle = scanned behind memoryNodes regions scan →
        Readable (memoryNodes ++ taken next) (regions ++ collected next) scan := by
      intro memoryNodes regions readable same
      subst same
      refine readable_append_iff.mpr ⟨readable, later rest ?_⟩
      have fits := readable.fits
      simpa [scanned] using fits
    cases memory : looksLikeMemory node with
    | true =>
      simp only [memory, if_true] at first ⊢
      obtain ⟨⟨paBegin, paLen⟩, read, walk⟩ := Result.bind_ok first
      have readable := readable_of_getReg read
      rw [deviceFdtGetReg_readable readable] at read
      cases read
      have inner : Readable (taken subnodes) (collected subnodes) { scan with ram := readReg behind node } :=
        below walk started
      refine here ⟨?_, inner.regions, inner.fits⟩ ?_
      · intro other member
        rcases List.mem_cons.mp member with same | deeper
        · rw [same]
          exact readable
        · exact inner.memoryNodes other deeper
      · have value := (walkForMemory_returns inner).symm.trans walk
        exact (Except.ok.inj value).symm
    | false =>
      cases reserved : looksLikeReserved node with
      | true =>
        simp only [memory, reserved, Bool.false_eq_true, if_false, if_true] at first ⊢
        obtain ⟨readable, fits⟩ := reserveRegions_returned first started
        have value := (reserveRegions_returns readable fits).symm.trans first
        exact here ⟨by simp, readable, fits⟩ (Except.ok.inj value).symm
      | false =>
        simp only [memory, reserved, Bool.false_eq_true, if_false] at first ⊢
        have inner := below first started
        have value := (walkForMemory_returns inner).symm.trans first
        exact here inner (Except.ok.inj value).symm

def isMemory (node : FdtNode) : Bool :=
  node.name = textBytes "memory" ∨ node.name.take 7 = textBytes "memory@"

def isReservedMemory (node : FdtNode) : Bool := node.name = textBytes "reserved-memory"

/-- The memory nodes that are not below a `reserved-memory` node. -/
def memoryNodes : Forest FdtNode → List FdtNode
  | .nil => []
  | .cons node subnodes next =>
    (if isMemory node then [node] else []) ++
      (if isReservedMemory node then [] else memoryNodes subnodes) ++ memoryNodes next

/-- The children of the `reserved-memory` nodes, in pre-order; the flag says whether the trees
of the forest are such children. -/
def reservedNodes (reserved : Bool) : Forest FdtNode → List FdtNode
  | .nil => []
  | .cons node subnodes next =>
    (if reserved then [node] else []) ++ reservedNodes (isReservedMemory node) subnodes ++
      reservedNodes reserved next

def FdtNode.hasReg (node : FdtNode) : Bool := (node.getProperty "reg").any (·.length = 16)

/-- The memory nodes and the children of `reserved-memory` nodes have a `reg` of 16 bytes. -/
structure RegsPresent (forest : Forest FdtNode) : Prop where
  memory : ∀ node ∈ forest.labels, isMemory node = true → node.hasReg = true
  reserved : ∀ node ∈ reservedNodes false forest, node.hasReg = true

theorem readReg_of_hasReg {node : FdtNode} (has : node.hasReg = true) :
    node.readable = true ∧ readReg behind node = node.reg := by
  unfold FdtNode.hasReg at has
  cases found : node.getProperty "reg" with
  | none => simp [found] at has
  | some data =>
    have length : data.length = 16 := by simpa [found] using has
    refine ⟨by rw [FdtNode.readable, found]; rfl, ?_⟩
    simp only [readReg, FdtNode.reg, found, Option.getD_some, fdt64]
    rw [List.drop_append_of_le_length (by omega), List.drop_append_of_le_length (by omega),
      List.take_append_of_le_length (by rw [List.length_drop]; omega),
      List.take_append_of_le_length (by rw [List.length_drop]; omega)]

theorem mem_memoryNodes (member : node ∈ memoryNodes forest) : node ∈ forest.labels ∧ isMemory node = true := by
  induction forest with
  | nil => cases member
  | cons first subnodes next below later =>
    rw [memoryNodes, List.mem_append, List.mem_append] at member
    rw [Forest.labels, List.mem_cons, List.mem_append]
    rcases member with (here | inside) | after
    · split at here
      next isMemory =>
        rw [List.mem_singleton.mp here]
        exact ⟨.inl rfl, isMemory⟩
      next => cases here
    · split at inside
      · cases inside
      · exact ⟨.inr (.inl (below inside).1), (below inside).2⟩
    · exact ⟨.inr (.inr (later after).1), (later after).2⟩

/-- Nothing that merely begins like `memory` or `reserved-memory` leads the walk over `tree` astray. -/
structure Unmistaken (behind : FdtNode → Nat → UInt8) (tree : Forest FdtNode) (memory : FdtNode) (ram : RamSegment) :
    Prop where
  alike : ∀ node ∈ taken tree, node ≠ memory → node.readable = true
  others : ∀ node ∈ collected tree, node ∉ reservedNodes false tree → node.readable = true
  fits : (collected tree).length ≤ maxRamSegment
  ram : (taken tree).foldl (fun _ node => readReg behind node) ram = memory.reg
  regions : (collected tree).map (fun node => regRange (readReg behind node)) =
    (reservedNodes false tree).map FdtNode.region

/-- The walk finds the only memory node of the tree and all reserved regions exactly if it is not
mistaken about a node. -/
theorem walk_finds_memory_iff {root memory : FdtNode} {subnodes : Forest FdtNode} {scan : MemoryScan}
    (only : memoryNodes (.cons root subnodes .nil) = [memory])
    (regs : RegsPresent (.cons root subnodes .nil)) (empty : scan.sortSeg = []) :
    deviceWalkFdtForMemory behind root subnodes scan =
        .ok ⟨memory.reg, (reservedNodes false (.cons root subnodes .nil)).map FdtNode.region⟩ ↔
      Unmistaken behind (.cons root subnodes .nil) memory scan.ram := by
  unfold deviceWalkFdtForMemory
  generalize Forest.cons root subnodes .nil = tree at only regs ⊢
  have isMemory : memory ∈ tree.labels ∧ Device.isMemory memory = true :=
    mem_memoryNodes (only ▸ List.mem_singleton_self memory)
  have memoryReadable : memory.readable = true :=
    (@readReg_of_hasReg behind _ (regs.memory memory isMemory.1 isMemory.2)).1
  constructor
  · intro run
    have readable := walkForMemory_returned run (by simp [empty])
    have value := Except.ok.inj ((walkForMemory_returns readable).symm.trans run)
    have fits := readable.fits
    have ram := congrArg MemoryScan.ram value
    have regions := congrArg MemoryScan.sortSeg value
    simp only [scanned, empty, List.nil_append, List.length_nil, Nat.zero_add] at fits ram regions
    exact ⟨fun node member _ => readable.memoryNodes node member,
      fun node member _ => readable.regions node member, fits, ram, regions⟩
  · rintro ⟨alikeReadable, othersReadable, fits, ram, regions⟩
    have readable : Readable (taken tree) (collected tree) scan := by
      refine ⟨?_, ?_, by simpa [empty] using fits⟩
      · intro node member
        by_cases same : node = memory
        · rw [same]
          exact memoryReadable
        · exact alikeReadable node member same
      · intro node member
        by_cases listed : node ∈ reservedNodes false tree
        · exact (@readReg_of_hasReg behind _ (regs.reserved node listed)).1
        · exact othersReadable node member listed
    rw [walkForMemory_returns readable, scanned, ram, regions, empty, List.nil_append]

def regProperty (start length : Nat) : List UInt8 × List UInt8 :=
  (textBytes "reg", ((List.range 8).map fun index => UInt8.ofNat (start / 256 ^ (7 - index))) ++
    (List.range 8).map fun index => UInt8.ofNat (length / 256 ^ (7 - index)))

def ramNode : FdtNode := ⟨16, textBytes "memory@80000000", [regProperty 0x80000000 0x8000000], by decide⟩
def controllerNode : FdtNode :=
  ⟨80, textBytes "memory-controller@10000000", [regProperty 0x10000000 0x1000], by decide⟩
def reservedMemoryNode : FdtNode := ⟨160, textBytes "reserved-memory", [], by decide⟩
def firmwareNode : FdtNode := ⟨192, textBytes "mmode_resv0@80000000", [regProperty 0x80000000 0x40000], by decide⟩

def controllerFirst : Forest FdtNode :=
  .cons controllerNode .nil (.cons ramNode .nil (.cons reservedMemoryNode (.cons firmwareNode .nil .nil) .nil))

theorem walk_finds_memory_iff_controller_first :
    deviceWalkFdtForMemory (fun _ _ => 0) rootNode controllerFirst ⟨⟨0, 0⟩, []⟩ =
        .ok ⟨⟨0x80000000, 0x8000000⟩, [(0x80000000, 0x80040000)]⟩ ∧
      (deviceWalkFdtForMemory (fun _ _ => 0) rootNode controllerFirst ⟨⟨0, 0⟩, []⟩ =
          .ok ⟨ramNode.reg, (reservedNodes false (.cons rootNode controllerFirst .nil)).map FdtNode.region⟩ ↔
        Unmistaken (fun _ _ => 0) (.cons rootNode controllerFirst .nil) ramNode ⟨0, 0⟩) :=
  ⟨by decide +kernel, walk_finds_memory_iff (by decide +kernel) ⟨by decide +kernel, by decide +kernel⟩ rfl⟩

/-- The same nodes in the other order: the registers of the memory controller pass for the RAM. -/
theorem walk_takes_memory_controller :
    memoryNodes (.cons rootNode (.cons ramNode .nil (.cons controllerNode .nil .nil)) .nil) = [ramNode] ∧
      RegsPresent (.cons rootNode (.cons ramNode .nil (.cons controllerNode .nil .nil)) .nil) ∧
      ramNode.reg = ⟨0x80000000, 0x8000000⟩ ∧
      deviceWalkFdtForMemory (fun _ _ => 0) rootNode (.cons ramNode .nil (.cons controllerNode .nil .nil)) ⟨⟨0, 0⟩, []⟩ =
        .ok ⟨⟨0x10000000, 0x1000⟩, []⟩ :=
  ⟨by decide +kernel, ⟨by decide +kernel, by decide +kernel⟩, by decide +kernel, by decide +kernel⟩

end Kalorona.Device
