import Kalorona.Device.Fdt
import Mathlib.Logic.Function.Basic
import Mathlib.Order.Interval.Finset.Nat
import Mathlib.Data.Int.Interval

namespace Kalorona.Device

open Kalorona.Console Kalorona.Data Kalorona.Utilities

/-! # Device discovery

`device_walk_fdt` makes a device for every node of the device tree and links the devices as the
nodes are.  Devices are named by their addresses, and 0 is the null pointer.
-/

/-- `struct device_struct`. -/
structure DeviceStruct where
  name : String
  fdtNodeOffset : Int
  devId : Nat
  driver : Nat
  driverInternal : Nat
  parent : Nat
  children : Nat
  next : Nat
deriving DecidableEq, Repr

/-- `struct driver_struct`, as far as discovery calls it.  `init` gives the contents of the device
that it has made, or nothing for the null pointer. -/
structure DriverStruct where
  recognizeDevice : FdtNode → Bool
  init : Nat → FdtNode → Option DeviceStruct

/-- `device_init_node`, with the next device id. -/
def deviceInitNode (drivers : List DriverStruct) (devId : Nat) (node : FdtNode) : Option DeviceStruct :=
  match drivers.find? (·.recognizeDevice node) with
  | some drv => drv.init devId node
  | none => none

/-- The devices, `device_counter` and `fdt_chosen_node_offset`, and how many devices have been
allocated. -/
structure Discovery where
  devices : Nat → DeviceStruct
  allocated : Nat
  deviceCounter : Nat
  fdtChosenNodeOffset : Int

/-- A `dev_t` has 32 bits. -/
def nextDevId (deviceCounter : Nat) : Nat := (deviceCounter + 1) % 2 ^ 32

section
variable (drivers : List DriverStruct) (slots : Nat → Nat)

/-- The first half of `device_walk_fdt`.  The devices get the addresses of `slots` one after the
other; the fields that are not written keep what the memory held. -/
def makeDevice (node : FdtNode) (s : Discovery) : Discovery :=
  let dev := slots s.allocated
  let devId := nextDevId s.deviceCounter
  let device := (deviceInitNode drivers devId node).getD { s.devices dev with
    devId, driver := 0, driverInternal := 0, name := "Unknown Device", children := 0, next := 0, parent := 0 }
  { s with
    devices := Function.update s.devices dev device
    allocated := s.allocated + 1
    deviceCounter := devId }

def linkChild (dev child : Nat) (s : Discovery) : Discovery :=
  let devices := Function.update s.devices child
    { s.devices child with parent := dev, next := (s.devices dev).children }
  { s with devices := Function.update devices dev { devices dev with children := child } }

def isChosen (node : FdtNode) : Bool := strcmp node.name (textBytes "chosen") = 0

/-- The loop of `device_walk_fdt` over the subnodes of the node of `dev`. -/
def walkSubnodes (dev : Nat) : Forest FdtNode → Discovery → Discovery
  | .nil, s => s
  | .cons node subnodes next, s =>
    if isChosen node then walkSubnodes dev next { s with fdtChosenNodeOffset := node.offset }
    else
      let child := slots s.allocated
      let s := walkSubnodes child subnodes (makeDevice drivers slots node s)
      walkSubnodes dev next (linkChild dev child s)

/-- `device_walk_fdt` of a node with these subnodes: the device, and what it leaves behind. -/
def deviceWalkFdt (node : FdtNode) (subnodes : Forest FdtNode) (s : Discovery) : Nat × Discovery :=
  if isChosen node then (0, { s with fdtChosenNodeOffset := node.offset })
  else
    (slots s.allocated, walkSubnodes drivers slots (slots s.allocated) subnodes (makeDevice drivers slots node s))

end

theorem isChosen_iff {node : FdtNode} : isChosen node = true ↔ node.name = textBytes "chosen" :=
  decide_eq_true_iff.trans (strcmp_eq_zero_iff node.noTerminator (by decide))

/-- The devices from `head` on, linked through `next`, and their children stand for the trees of
the forest; `parent` is where they all hang. -/
def Linked (slots : Nat → Nat) (devices : Nat → DeviceStruct) : Nat → Nat → Forest (FdtNode × Nat) → Prop
  | _, head, .nil => head = 0
  | parent, head, .cons entry children next =>
    head = slots entry.2 ∧ (devices head).parent = parent ∧
      Linked slots devices head (devices head).children children ∧
      Linked slots devices parent (devices head).next next

variable {slots : Nat → Nat}

theorem Linked.congr {devices devices' : Nat → DeviceStruct} {parent head : Nat}
    {forest : Forest (FdtNode × Nat)} (linked : Linked slots devices parent head forest)
    (same : ∀ entry ∈ forest.labels, devices' (slots entry.2) = devices (slots entry.2)) :
    Linked slots devices' parent head forest := by
  induction forest generalizing parent head with
  | nil => exact linked
  | cons entry children next below later =>
    obtain ⟨here, hangs, inner, rest⟩ := linked
    have unchanged : devices' head = devices head := here ▸ same entry List.mem_cons_self
    refine ⟨here, unchanged ▸ hangs, ?_, ?_⟩
    · rw [unchanged]
      exact below inner fun other member =>
        same other (List.mem_cons_of_mem _ (List.mem_append_left _ member))
    · rw [unchanged]
      exact later rest fun other member =>
        same other (List.mem_cons_of_mem _ (List.mem_append_right _ member))

/-- `kmem_alloc` gives every record an address of its own. -/
structure FreshSlots (slots : Nat → Nat) : Prop where
  injective : Function.Injective slots
  nonnull : ∀ index, slots index ≠ 0

/-- `init` returns a fresh device, which nothing is linked to, with the id that it was given. -/
def DriverStruct.Fresh (driver : DriverStruct) : Prop :=
  ∀ devId node device, driver.init devId node = some device →
    device.devId = devId ∧ device.parent = 0 ∧ device.children = 0 ∧ device.next = 0

/-- The offset in the device that is made for a numbered node, where memory held `stale`. -/
def recordedOffset (drivers : List DriverStruct) (slots : Nat → Nat) (stale : Nat → DeviceStruct)
    (entry : FdtNode × Nat) : Int :=
  ((deviceInitNode drivers (entry.2 + 1) entry.1).map DeviceStruct.fdtNodeOffset).getD
    (stale (slots entry.2)).fdtNodeOffset

/-- The record that is made for a node. -/
structure Made (drivers : List DriverStruct) (slots : Nat → Nat) (stale : Nat → DeviceStruct)
    (entry : FdtNode × Nat) (device : DeviceStruct) : Prop where
  devId : device.devId = entry.2 + 1
  offset : device.fdtNodeOffset = recordedOffset drivers slots stale entry

/-- Besides new records, only the children of `dev` have changed. -/
structure Untouched (slots : Nat → Nat) (dev : Nat) (s s' : Discovery) : Prop where
  other : ∀ address, address ≠ dev →
    (∀ index, s.allocated ≤ index → index < s'.allocated → address ≠ slots index) →
    s'.devices address = s.devices address
  own : s'.devices dev = { s.devices dev with children := (s'.devices dev).children }
  grows : s.allocated ≤ s'.allocated

theorem Untouched.trans {dev : Nat} {first second third : Discovery}
    (left : Untouched slots dev first second) (right : Untouched slots dev second third) :
    Untouched slots dev first third where
  other address different old := by
    have grows := left.grows
    have more := right.grows
    rw [right.other address different fun index lower upper => old index (by omega) upper,
      left.other address different fun index lower upper => old index lower (by omega)]
  own := by rw [right.own, left.own]
  grows := Nat.le_trans left.grows right.grows

theorem Made.congr {drivers : List DriverStruct} {stale stale' : Nat → DeviceStruct}
    {entry : FdtNode × Nat} {device device' : DeviceStruct} (made : Made drivers slots stale entry device)
    (same : stale' (slots entry.2) = stale (slots entry.2)) (id : device'.devId = device.devId)
    (offset : device'.fdtNodeOffset = device.fdtNodeOffset) : Made drivers slots stale' entry device' where
  devId := id.trans made.devId
  offset := by rw [offset, made.offset, recordedOffset, recordedOffset, same]

section
variable {drivers : List DriverStruct} {slots : Nat → Nat} {node : FdtNode} {s : Discovery}

theorem makeDevice_other {address : Nat} (different : address ≠ slots s.allocated) :
    (makeDevice drivers slots node s).devices address = s.devices address :=
  Function.update_of_ne different _ _

variable (fresh : ∀ driver ∈ drivers, driver.Fresh) (count : s.deviceCounter = s.allocated)
  (room : s.allocated + 1 < 2 ^ 32)
include count room

theorem nextDevId_eq : nextDevId s.deviceCounter = s.allocated + 1 := by
  rw [nextDevId, count, Nat.mod_eq_of_lt room]

include fresh

theorem makeDevice_device :
    let device := (makeDevice drivers slots node s).devices (slots s.allocated)
    Made drivers slots s.devices (node, s.allocated) device ∧ device.parent = 0 ∧ device.children = 0 ∧
      device.next = 0 := by
  simp only [makeDevice, Function.update_self, nextDevId_eq count room]
  cases made : deviceInitNode drivers (s.allocated + 1) node with
  | none => exact ⟨⟨rfl, by simp [recordedOffset, made]⟩, rfl, rfl, rfl⟩
  | some device =>
    have recognized := made
    unfold deviceInitNode at recognized
    split at recognized
    next driver found =>
      obtain ⟨given, unlinked⟩ := fresh driver (List.mem_of_find?_eq_some found) _ _ _ recognized
      exact ⟨⟨given, by simp [recordedOffset, made]⟩, unlinked⟩
    next => cases recognized

end

section
variable {s : Discovery} {dev child : Nat} (different : child ≠ dev)
include different

theorem linkChild_dev : (linkChild dev child s).devices dev = { s.devices dev with children := child } := by
  simp only [linkChild, Function.update_self, Function.update_of_ne different.symm]

theorem linkChild_child : (linkChild dev child s).devices child =
      { s.devices child with parent := dev, next := (s.devices dev).children } := by
  simp only [linkChild, Function.update_of_ne different, Function.update_self]

omit different in
theorem linkChild_other {address : Nat} (notDev : address ≠ dev) (notChild : address ≠ child) :
    (linkChild dev child s).devices address = s.devices address := by
  simp only [linkChild, Function.update_of_ne notDev, Function.update_of_ne notChild]

end

/-- The walk has put devices for the nodes of `kept` in front of the children `before`. -/
structure Walked (drivers : List DriverStruct) (slots : Nat → Nat) (kept : Forest FdtNode) (dev : Nat)
    (before : Forest (FdtNode × Nat)) (s s' : Discovery) : Prop where
  allocated : s'.allocated = s.allocated + kept.size
  counter : s'.deviceCounter = s'.allocated
  untouched : Untouched slots dev s s'
  linked : Linked slots s'.devices dev (s'.devices dev).children ((kept.number s.allocated).mirrorOnto before)
  made : ∀ entry ∈ (kept.number s.allocated).labels,
    Made drivers slots s.devices entry (s'.devices (slots entry.2))

section
variable {drivers : List DriverStruct} {slots : Nat → Nat} {s s' middle : Discovery} {node : FdtNode}
  {subnodes next : Forest FdtNode} {dev index : Nat} {before : Forest (FdtNode × Nat)} (supply : FreshSlots slots)
include supply

theorem Untouched.slot {other : Nat} (untouched : Untouched slots (slots index) s s') (notDev : other ≠ index)
    (outside : other < s.allocated ∨ s'.allocated ≤ other) :
    s'.devices (slots other) = s.devices (slots other) := by
  refine untouched.other _ (fun same => notDev (supply.injective same)) fun position lower upper same => ?_
  have equal := supply.injective same
  omega

omit supply in
theorem Walked.allocated_subtree (first : Walked drivers slots (.cons node subnodes .nil) dev before s s') :
    s'.allocated = s.allocated + 1 + subnodes.size := by
  rw [first.allocated, Forest.size_cons, Forest.size_nil]
  omega

theorem Walked.append (atDev : dev = slots index) (earlier : index < s.allocated)
    (first : Walked drivers slots (.cons node subnodes .nil) dev before s middle)
    (rest : Walked drivers slots next dev
      (((Forest.cons node subnodes .nil).number s.allocated).mirrorOnto before) middle s') :
    Walked drivers slots (.cons node subnodes next) dev before s s' where
  allocated := by
    have left := first.allocated_subtree
    have right := rest.allocated
    rw [Forest.size_cons]
    omega
  counter := rest.counter
  untouched := first.untouched.trans rest.untouched
  linked := by
    have linked := rest.linked
    rw [first.allocated_subtree] at linked
    exact linked
  made entry member := by
    subst atDev
    have start := first.allocated_subtree
    rw [Forest.number, Forest.labels, ← List.cons_append, List.mem_append] at member
    rcases member with inFirst | inRest
    · have listed : entry ∈ ((Forest.cons node subnodes .nil).number s.allocated).labels := by
        simpa [Forest.number, Forest.labels] using inFirst
      have bounds := Forest.number_bounds listed
      simp only [Forest.size_cons, Forest.size_nil] at bounds
      have same := rest.untouched.slot supply (show entry.2 ≠ index by omega) (.inl (by omega))
      have made := first.made entry listed
      exact made.congr rfl (by rw [same]) (by rw [same])
    · rw [← start] at inRest
      have bounds := Forest.number_bounds inRest
      have same := first.untouched.slot supply (show entry.2 ≠ index by omega) (.inr (by omega))
      exact (rest.made entry inRest).congr same.symm rfl rfl

theorem Walked.subtree (fresh : ∀ driver ∈ drivers, driver.Fresh) (count : s.deviceCounter = s.allocated)
    (room : s.allocated + 1 < 2 ^ 32) (atDev : dev = slots index) (earlier : index < s.allocated)
    (linked : Linked slots s.devices dev (s.devices dev).children before)
    (old : ∀ entry ∈ before.labels, entry.2 < s.allocated ∧ entry.2 ≠ index)
    (inner : Walked drivers slots subnodes (slots s.allocated) .nil (makeDevice drivers slots node s) middle) :
    Walked drivers slots (.cons node subnodes .nil) dev before s (linkChild dev (slots s.allocated) middle) := by
  subst atDev
  have different : slots s.allocated ≠ slots index := fun same => by
    have equal := supply.injective same
    omega
  have total : middle.allocated = s.allocated + 1 + subnodes.size := inner.allocated
  have created : ∀ other, other ≠ s.allocated →
      (makeDevice drivers slots node s).devices (slots other) = s.devices (slots other) :=
    fun other notChild => makeDevice_other fun same => notChild (supply.injective same)
  have dev : middle.devices (slots index) = s.devices (slots index) :=
    (inner.untouched.slot supply (by omega) (.inl (Nat.lt_succ_of_lt earlier))).trans (created index (by omega))
  -- Linking changes nothing but the device and its new child.
  have after : ∀ other, other ≠ index → other ≠ s.allocated →
      (linkChild (slots index) (slots s.allocated) middle).devices (slots other) = middle.devices (slots other) :=
    fun other notDev notChild => linkChild_other (fun same => notDev (supply.injective same))
      fun same => notChild (supply.injective same)
  have deviceAfter := linkChild_dev (s := middle) different
  have childAfter := linkChild_child (s := middle) different
  rw [dev] at deviceAfter childAfter
  have childOwn := inner.untouched.own
  refine ⟨?_, inner.counter, ⟨?_, ?_, ?_⟩, ⟨?_, ?_, ?_, ?_⟩, ?_⟩
  · show middle.allocated = _
    simp only [Forest.size_cons, Forest.size_nil]
    omega
  · intro address notDev old
    have notChild : address ≠ slots s.allocated :=
      old s.allocated (Nat.le_refl _) (show s.allocated < middle.allocated by omega)
    have upto : ∀ position, s.allocated + 1 ≤ position → position < middle.allocated →
        address ≠ slots position := fun position lower upper => old position (by omega) upper
    rw [linkChild_other notDev notChild, inner.untouched.other address notChild upto, makeDevice_other notChild]
  · rw [deviceAfter]
  · show s.allocated ≤ middle.allocated
    omega
  · rw [deviceAfter]
  · rw [deviceAfter, childAfter]
  · rw [deviceAfter, childAfter]
    refine inner.linked.congr fun entry member => ?_
    have listed := (Forest.mirrorOnto_perm _ _).mem_iff.mp member
    rw [Forest.labels, List.append_nil] at listed
    have bounds : s.allocated + 1 ≤ entry.2 := (Forest.number_bounds listed).1
    exact after entry.2 (by omega) (by omega)
  · rw [deviceAfter, childAfter]
    refine linked.congr fun entry member => ?_
    obtain ⟨lower, notDev⟩ := old entry member
    rw [after entry.2 notDev (by omega),
      inner.untouched.slot supply (by omega) (.inl (Nat.lt_succ_of_lt lower)), created entry.2 (by omega)]
  · intro entry member
    rw [Forest.number, Forest.labels, List.mem_cons] at member
    rcases member with same | below
    · subst same
      have made := (@makeDevice_device drivers slots node s fresh count room).1
      exact made.congr rfl (by rw [childAfter, childOwn]) (by rw [childAfter, childOwn])
    · rw [Forest.number, Forest.labels, List.append_nil] at below
      have bounds : s.allocated + 1 ≤ entry.2 := (Forest.number_bounds below).1
      have same := after entry.2 (by omega) (by omega)
      exact (inner.made entry below).congr (created entry.2 (by omega)).symm (by rw [same]) (by rw [same])

theorem walkSubnodes_walked {forest : Forest FdtNode} (fresh : ∀ driver ∈ drivers, driver.Fresh)
    (count : s.deviceCounter = s.allocated) (room : s.allocated + (forest.prune isChosen).size < 2 ^ 32)
    (atDev : dev = slots index) (earlier : index < s.allocated)
    (linked : Linked slots s.devices dev (s.devices dev).children before)
    (old : ∀ entry ∈ before.labels, entry.2 < s.allocated ∧ entry.2 ≠ index) :
    Walked drivers slots (forest.prune isChosen) dev before s (walkSubnodes drivers slots dev forest s) := by
  induction forest generalizing s dev index before with
  | nil =>
    refine ⟨rfl, count, ⟨fun _ _ _ => rfl, rfl, Nat.le_refl _⟩, linked, ?_⟩
    simp [Forest.prune, Forest.number, Forest.labels]
  | cons node subnodes next below later =>
    unfold walkSubnodes Forest.prune
    unfold Forest.prune at room
    split
    next chosen =>
      rw [if_pos chosen] at room
      obtain ⟨allocated, counter, untouched, links, made⟩ :=
        @later { s with fdtChosenNodeOffset := node.offset } dev index before count room atDev earlier linked old
      exact ⟨allocated, counter, ⟨untouched.other, untouched.own, untouched.grows⟩, links, made⟩
    next other =>
      rw [if_neg other, Forest.size_cons] at room
      have children := (@makeDevice_device drivers slots node s fresh count (by omega)).2.2.1
      have inner := @below (makeDevice drivers slots node s) (slots s.allocated) s.allocated .nil
        (nextDevId_eq count (by omega)) (by show s.allocated + 1 + _ < _; omega) rfl
        (Nat.lt_succ_self s.allocated) children (by simp [Forest.labels])
      have first := Walked.subtree supply fresh count (by omega) atDev earlier linked old inner
      have total := first.allocated_subtree
      refine first.append supply atDev earlier (later first.counter (by omega) atDev (by omega) first.linked ?_)
      intro entry member
      rcases List.mem_append.mp ((Forest.mirrorOnto_perm _ _).mem_iff.mp member) with new | kept
      · have bounds := Forest.number_bounds new
        simp only [Forest.size_cons, Forest.size_nil] at bounds
        omega
      · have bounds := old entry kept
        omega

end

/-- Nodes are told apart by their offsets, and an offset is an `int`. -/
structure Presented (forest : Forest FdtNode) : Prop where
  distinct : (forest.labels.map FdtNode.offset).Nodup
  range : ∀ node ∈ forest.labels, 0 ≤ node.offset ∧ node.offset < 2 ^ 31

theorem Presented.size_le {forest : Forest FdtNode} (presented : Presented forest) : forest.size ≤ 2 ^ 31 := by
  have inside : (forest.labels.map FdtNode.offset).toFinset ⊆ Finset.Ico 0 (2 ^ 31) := by
    intro offset member
    obtain ⟨node, listed, rfl⟩ := List.mem_map.mp (List.mem_toFinset.mp member)
    exact Finset.mem_Ico.mpr (presented.range node listed)
  have card := Finset.card_le_card inside
  rw [List.toFinset_card_of_nodup presented.distinct, List.length_map, Int.card_Ico] at card
  exact card

def deviceNodes (root : FdtNode) (subnodes : Forest FdtNode) : Forest FdtNode :=
  (Forest.cons root subnodes .nil).prune fun node => node.name = textBytes "chosen"

theorem deviceNodes_eq (root : FdtNode) (subnodes : Forest FdtNode) :
    deviceNodes root subnodes = (Forest.cons root subnodes .nil).prune isChosen := by
  have same : (fun node : FdtNode => decide (node.name = textBytes "chosen")) = isChosen := by
    funext node
    rw [Bool.eq_iff_iff, decide_eq_true_iff, isChosen_iff]
  rw [deviceNodes, same]

theorem deviceNodes_size_le {root : FdtNode} {subnodes : Forest FdtNode}
    (presented : Presented (.cons root subnodes .nil)) : (deviceNodes root subnodes).size ≤ 2 ^ 31 :=
  Nat.le_trans (Forest.prune_sublist _ _).length_le presented.size_le

/-- The records form the tree of the nodes. -/
structure Discovered (drivers : List DriverStruct) (slots : Nat → Nat) (nodes : Forest FdtNode)
    (stale : Nat → DeviceStruct) (root : Nat) (s : Discovery) : Prop where
  allocated : s.allocated = nodes.size
  counter : s.deviceCounter = nodes.size
  linked : Linked slots s.devices 0 root (nodes.number 0).mirror
  made : ∀ entry ∈ (nodes.number 0).labels, Made drivers slots stale entry (s.devices (slots entry.2))

section
variable {drivers : List DriverStruct} {slots : Nat → Nat} {s : Discovery} {root : FdtNode}
  {subnodes : Forest FdtNode} (supply : FreshSlots slots) (fresh : ∀ driver ∈ drivers, driver.Fresh)
  (presented : Presented (.cons root subnodes .nil)) (first : s.allocated = 0) (zero : s.deviceCounter = 0)
include supply fresh presented first zero

theorem deviceWalkFdt_discovered : Discovered drivers slots (deviceNodes root subnodes) s.devices
      (deviceWalkFdt drivers slots root subnodes s).1 (deviceWalkFdt drivers slots root subnodes s).2 := by
  have bound := deviceNodes_size_le presented
  rw [deviceNodes_eq] at bound ⊢
  obtain ⟨devices, allocated, deviceCounter, chosenOffset⟩ := s
  subst first zero
  unfold deviceWalkFdt Forest.prune
  unfold Forest.prune at bound
  split
  next chosen =>
    exact ⟨rfl, rfl, rfl, by simp [Forest.prune, Forest.number, Forest.labels]⟩
  next other =>
    rw [if_neg other, Forest.size_cons] at bound
    obtain ⟨made, parent, children, next⟩ :=
      @makeDevice_device drivers slots root ⟨devices, 0, 0, chosenOffset⟩ fresh rfl (show 0 + 1 < 2 ^ 32 by decide)
    have below := @walkSubnodes_walked drivers slots (makeDevice drivers slots root ⟨devices, 0, 0, chosenOffset⟩)
      (slots 0) 0 .nil supply subnodes fresh (nextDevId_eq rfl (show 0 + 1 < 2 ^ 32 by decide))
      (by show 0 + 1 + _ < _; omega) rfl
      (Nat.lt_succ_self 0) children (by simp [Forest.labels])
    have own := below.untouched.own
    have allocated := below.allocated
    refine ⟨?_, ?_, ⟨rfl, ?_, ?_, ?_⟩, ?_⟩
    · rw [allocated]
      simp [Forest.prune, makeDevice]
    · rw [below.counter, allocated]
      simp [Forest.prune, makeDevice]
    · rw [own]
      exact parent
    · exact below.linked
    · rw [own]
      exact next
    · intro entry member
      rw [Forest.number, Forest.labels, List.mem_cons] at member
      rcases member with same | inside
      · subst same
        exact made.congr rfl (by rw [own]) (by rw [own])
      · rw [Forest.prune, Forest.number, Forest.labels, List.append_nil] at inside
        have bounds : 0 + 1 ≤ entry.2 := (Forest.number_bounds inside).1
        have stale : (makeDevice drivers slots root ⟨devices, 0, 0, chosenOffset⟩).devices (slots entry.2) =
            devices (slots entry.2) := makeDevice_other fun same => by
          have equal := supply.injective same
          dsimp only at equal
          omega
        exact (below.made entry inside).congr stale.symm rfl rfl

/-- Discovery makes one device for each node outside the `chosen` nodes, numbers them in
pre-order from 1 on and links them as the nodes are, each list of children in reverse order. -/
theorem discovery_mirrors_tree :
    let nodes := deviceNodes root subnodes
    let walked := deviceWalkFdt drivers slots root subnodes s
    walked.2.allocated = nodes.size ∧ walked.2.deviceCounter = nodes.size ∧
      (nodes.number 0).labels.map Prod.fst = nodes.labels ∧
      ((nodes.number 0).labels.map fun entry => (walked.2.devices (slots entry.2)).devId) =
        List.range' 1 nodes.size ∧
      Linked slots walked.2.devices 0 walked.1 (nodes.number 0).mirror := by
  have found := deviceWalkFdt_discovered supply fresh presented first zero
  refine ⟨found.allocated, found.counter, Forest.number_fst 0 _, ?_, found.linked⟩
  have ids := List.map_congr_left fun entry member => (found.made entry member).devId
  rw [ids]
  have numbers := congrArg (List.map (1 + ·)) (Forest.number_snd 0 (deviceNodes root subnodes))
  rw [List.map_map, List.map_add_range'] at numbers
  simpa [Function.comp_def, Nat.add_comm] using numbers

end

def uartDriver : DriverStruct where
  recognizeDevice node := strncmp node.name (textBytes "uart@") 5 = 0
  init devId node := some ⟨"NS16550A Compatible UART Device", node.offset, devId, 1, 1, 0, 0, 0⟩

def idleDriver : DriverStruct where
  recognizeDevice _ := true
  init _ _ := none

theorem drivers_fresh : ∀ driver ∈ [uartDriver, idleDriver], driver.Fresh := by
  intro driver member devId node device made
  simp only [List.mem_cons, List.not_mem_nil, or_false] at member
  rcases member with rfl | rfl
  · cases made
    exact ⟨rfl, rfl, rfl, rfl⟩
  · cases made

theorem freshSlots_succ : FreshSlots (· + 1) := ⟨fun _ _ same => Nat.succ.inj same, Nat.succ_ne_zero⟩

def chosenNode : FdtNode := ⟨16, textBytes "chosen", [], by decide⟩
def bootNode : FdtNode := ⟨32, textBytes "boot", [], by decide⟩
def socNode : FdtNode := ⟨48, textBytes "soc", [], by decide⟩
def uartNode : FdtNode := ⟨64, textBytes "uart@10000000", [], by decide⟩
def plicNode : FdtNode := ⟨96, textBytes "plic@c000000", [], by decide⟩

/-- A `chosen` node with a subnode, and a node with two. -/
def boardNodes : Forest FdtNode :=
  .cons chosenNode (.cons bootNode .nil .nil)
    (.cons socNode (.cons uartNode .nil (.cons plicNode .nil .nil)) .nil)

theorem boardNodes_presented : Presented (.cons rootNode boardNodes .nil) := ⟨by decide, by decide⟩

def undiscovered (fdtNodeOffset : Int) : Discovery := ⟨fun _ => ⟨"", fdtNodeOffset, 7, 7, 7, 7, 7, 7⟩, 0, 0, 0⟩

theorem discovery_mirrors_tree_board :
    let nodes := deviceNodes rootNode boardNodes
    let walked := deviceWalkFdt [uartDriver, idleDriver] (· + 1) rootNode boardNodes (undiscovered 0)
    nodes.size = 4 ∧ walked.2.allocated = nodes.size ∧ walked.2.deviceCounter = nodes.size ∧
      (nodes.number 0).labels.map Prod.fst = nodes.labels ∧
      ((nodes.number 0).labels.map fun entry => (walked.2.devices (entry.2 + 1)).devId) =
        List.range' 1 nodes.size ∧
      Linked (· + 1) walked.2.devices 0 walked.1 (nodes.number 0).mirror :=
  ⟨by decide, discovery_mirrors_tree freshSlots_succ drivers_fresh boardNodes_presented rfl rfl⟩

end Kalorona.Device
