import Kalorona.Device.Discovery
import Mathlib.Data.List.Nodup

namespace Kalorona.Device

open Kalorona.Console Kalorona.Data Kalorona.Utilities

/-! # Finding the device of a node

`device_find_dev_by_fdt_offset` searches the devices below `root_dev` for the recorded offset.
Drivers record it; `device_walk_fdt` does not for a device of unknown kind.
-/

/-- The loop of `device_find_dev_by_fdt_offset_walk` over `v` and the siblings after it.  The fuel
bounds the rounds and the depth. -/
def findAmong (devices : Nat → DeviceStruct) (nodeOffset : Int) : Nat → Nat → Result Nat
  | 0, _ => .error .hang
  | fuel + 1, v =>
    if v = 0 then .ok 0
    else
      let walked : Result Nat :=
        if (devices v).fdtNodeOffset = nodeOffset then .ok v
        else findAmong devices nodeOffset fuel (devices v).children
      walked >>= fun w => if w ≠ 0 then .ok w else findAmong devices nodeOffset fuel (devices v).next

/-- `device_find_dev_by_fdt_offset`, where `root` is what `device_discover` has put into
`device_manager.root_dev.children`. -/
def deviceFindDevByFdtOffset (fuel : Nat) (devices : Nat → DeviceStruct) (root : Nat) (nodeOffset : Int) :
    Result Nat :=
  if root = 0 then .error .stray
  else if (devices root).fdtNodeOffset = nodeOffset then .ok root
  else findAmong devices nodeOffset fuel (devices root).children

def addressOf (slots : Nat → Nat) (entries : List (FdtNode × Nat)) (found : FdtNode × Nat → Bool) : Nat :=
  ((entries.find? found).map fun entry => slots entry.2).getD 0

def deviceOf (slots : Nat → Nat) (nodes : Forest FdtNode) (nodeOffset : Int) : Nat :=
  addressOf slots (nodes.number 0).labels fun entry => entry.1.offset = nodeOffset

def DriverStruct.RecordsOffset (driver : DriverStruct) : Prop :=
  ∀ devId node device, driver.init devId node = some device → device.fdtNodeOffset = node.offset

section
variable {slots : Nat → Nat} (supply : FreshSlots slots) {found : FdtNode × Nat → Bool}
include supply

theorem addressOf_append (left right : List (FdtNode × Nat)) : addressOf slots (left ++ right) found =
      if addressOf slots left found ≠ 0 then addressOf slots left found else addressOf slots right found := by
  unfold addressOf
  rw [List.find?_append]
  cases left.find? found with
  | none => simp
  | some entry => simp [supply.nonnull]

omit supply in
theorem addressOf_cons (entry : FdtNode × Nat) (rest : List (FdtNode × Nat)) :
    addressOf slots (entry :: rest) found = if found entry then slots entry.2 else addressOf slots rest found := by
  unfold addressOf
  rw [List.find?_cons]
  cases found entry <;> rfl

variable {devices : Nat → DeviceStruct} {recorded : FdtNode × Nat → Int} {nodeOffset : Int}

theorem findAmong_linked {forest : Forest (FdtNode × Nat)} {parent head fuel : Nat}
    (linked : Linked slots devices parent head forest)
    (records : ∀ entry ∈ forest.labels, (devices (slots entry.2)).fdtNodeOffset = recorded entry)
    (enough : forest.size < fuel) : findAmong devices nodeOffset fuel head =
      .ok (addressOf slots forest.labels fun entry => recorded entry = nodeOffset) := by
  induction forest generalizing parent head fuel with
  | nil =>
    obtain ⟨fuel, rfl⟩ := Nat.exists_eq_add_one.mpr (Nat.zero_lt_of_lt enough)
    have null : head = 0 := linked
    rw [findAmong, if_pos null]
    rfl
  | cons entry children next below later =>
    obtain ⟨fuel, rfl⟩ := Nat.exists_eq_add_one.mpr (Nat.zero_lt_of_lt enough)
    obtain ⟨here, _, inner, rest⟩ := linked
    rw [Forest.size_cons] at enough
    have own : (devices head).fdtNodeOffset = recorded entry := here ▸ records entry List.mem_cons_self
    have nonnull : head ≠ 0 := here ▸ supply.nonnull entry.2
    have inside := below inner (fun other member =>
      records other (List.mem_cons_of_mem _ (List.mem_append_left _ member))) (show children.size < fuel by omega)
    have after := later rest (fun other member =>
      records other (List.mem_cons_of_mem _ (List.mem_append_right _ member))) (show next.size < fuel by omega)
    rw [findAmong, if_neg nonnull, Forest.labels, addressOf_cons, own, inside]
    simp only [decide_eq_true_eq]
    split
    next =>
      rw [Result.ok_bind, if_pos nonnull, here]
    next =>
      rw [Result.ok_bind, after, addressOf_append supply]
      split <;> rfl

theorem deviceFind_linked {entry : FdtNode × Nat} {children : Forest (FdtNode × Nat)} {root fuel : Nat}
    (linked : Linked slots devices 0 root (.cons entry children .nil))
    (records : ∀ entry' ∈ (Forest.cons entry children .nil).labels,
      (devices (slots entry'.2)).fdtNodeOffset = recorded entry') (enough : children.size < fuel) :
    deviceFindDevByFdtOffset fuel devices root nodeOffset =
      .ok (addressOf slots (Forest.cons entry children .nil).labels fun entry => recorded entry = nodeOffset) := by
  obtain ⟨here, _, inner, _⟩ := linked
  have own : (devices root).fdtNodeOffset = recorded entry := here ▸ records entry List.mem_cons_self
  have nonnull : root ≠ 0 := here ▸ supply.nonnull entry.2
  have inside := @findAmong_linked slots supply devices recorded nodeOffset children _ _ fuel inner (fun other member =>
    records other (List.mem_cons_of_mem _ (List.mem_append_left _ member))) enough
  rw [deviceFindDevByFdtOffset, if_neg nonnull, own, inside, Forest.labels, addressOf_cons, Forest.labels,
    List.append_nil]
  simp only [decide_eq_true_eq]
  split
  next => rw [here]
  next => rfl

end

section
variable {α κ : Type} [DecidableEq κ] {list : List α} {key : α → κ}

theorem find?_congr_mem {test test' : α → Bool} (same : ∀ element ∈ list, test element = test' element) :
    list.find? test = list.find? test' := by
  induction list with
  | nil => rfl
  | cons first rest ih =>
    rw [List.find?_cons, List.find?_cons, same first List.mem_cons_self,
      ih fun element member => same element (List.mem_cons_of_mem _ member)]

theorem find?_key (distinct : (list.map key).Nodup) {element : α} (member : element ∈ list) :
    list.find? (fun other => key other = key element) = some element := by
  obtain ⟨other, found⟩ : ∃ other, list.find? (fun other => key other = key element) = some other :=
    Option.isSome_iff_exists.mp (List.find?_isSome.mpr ⟨element, member, by simp⟩)
  have same : key other = key element := by simpa using List.find?_some found
  rw [found, List.inj_on_of_nodup_map distinct (List.mem_of_find?_eq_some found) member same]

theorem find?_perm {list' : List α} (perm : list'.Perm list) (distinct : (list.map key).Nodup) (sought : κ) :
    list'.find? (fun element => key element = sought) = list.find? (fun element => key element = sought) := by
  by_cases present : ∃ element ∈ list, key element = sought
  · obtain ⟨element, member, rfl⟩ := present
    rw [find?_key distinct member, find?_key ((perm.map key).nodup_iff.mpr distinct) (perm.mem_iff.mpr member)]
  · have absent : ∀ element ∈ list, ¬ key element = sought :=
      fun element member matched => present ⟨element, member, matched⟩
    have none : list.find? (fun element => key element = sought) = none :=
      List.find?_eq_none.mpr (by simpa using absent)
    rw [none, List.find?_eq_none]
    intro element member
    simpa using absent element (perm.mem_iff.mp member)

end

section
variable {drivers : List DriverStruct} {slots : Nat → Nat} {stale : Nat → DeviceStruct} {nodes : Forest FdtNode}

theorem recordedOffset_iff (records : ∀ driver ∈ drivers, driver.RecordsOffset) (entry : FdtNode × Nat) :
    recordedOffset drivers slots stale entry = entry.1.offset ↔
      (deviceInitNode drivers (entry.2 + 1) entry.1 = none →
        (stale (slots entry.2)).fdtNodeOffset = entry.1.offset) := by
  unfold recordedOffset
  cases made : deviceInitNode drivers (entry.2 + 1) entry.1 with
  | none => simp
  | some device =>
    unfold deviceInitNode at made
    split at made
    next driver found => simp [records driver (List.mem_of_find?_eq_some found) _ _ _ made]
    next => cases made

theorem addressOf_mirror_iff (supply : FreshSlots slots) (recorded : FdtNode × Nat → Int)
    (distinct : ((nodes.number 0).labels.map fun entry => entry.1.offset).Nodup) :
    (∀ nodeOffset, addressOf slots (nodes.number 0).mirror.labels (fun entry => recorded entry = nodeOffset) =
        deviceOf slots nodes nodeOffset) ↔
      ∀ entry ∈ (nodes.number 0).labels, recorded entry = entry.1.offset := by
  have perm := Forest.mirror_perm (nodes.number 0)
  constructor
  · intro finds entry member
    have sought : (nodes.number 0).labels.find? (fun other => other.1.offset = entry.1.offset) = some entry :=
      find?_key distinct member
    have here := finds entry.1.offset
    rw [deviceOf, addressOf, addressOf, sought] at here
    cases result : (nodes.number 0).mirror.labels.find? (fun other => recorded other = entry.1.offset) with
    | none =>
      rw [result] at here
      exact absurd here.symm (supply.nonnull entry.2)
    | some other =>
      rw [result] at here
      have numbered : ((nodes.number 0).labels.map Prod.snd).Nodup := by
        rw [Forest.number_snd]
        exact List.nodup_range' 1
      have listed := perm.mem_iff.mp (List.mem_of_find?_eq_some result)
      have same : other = entry := List.inj_on_of_nodup_map numbered listed member (supply.injective here)
      rw [← same]
      simpa [same] using List.find?_some result
  · intro own nodeOffset
    have same : (nodes.number 0).mirror.labels.find? (fun entry => recorded entry = nodeOffset) =
        (nodes.number 0).mirror.labels.find? (fun entry => entry.1.offset = nodeOffset) :=
      find?_congr_mem fun entry member => by rw [own entry (perm.mem_iff.mp member)]
    rw [addressOf, same, @find?_perm _ _ _ _ (fun entry : FdtNode × Nat => entry.1.offset) _ perm distinct]
    rfl

end

section
variable {drivers : List DriverStruct} {slots : Nat → Nat} {s : Discovery} {root : FdtNode}
  {subnodes : Forest FdtNode} {fuel : Nat} (supply : FreshSlots slots)
  (fresh : ∀ driver ∈ drivers, driver.Fresh) (records : ∀ driver ∈ drivers, driver.RecordsOffset)
  (presented : Presented (.cons root subnodes .nil)) (first : s.allocated = 0) (zero : s.deviceCounter = 0)
  (enough : (deviceNodes root subnodes).size ≤ fuel)
include supply fresh presented first zero enough

theorem deviceFind_discovered (named : root.name ≠ textBytes "chosen") (nodeOffset : Int) :
    deviceFindDevByFdtOffset fuel (deviceWalkFdt drivers slots root subnodes s).2.devices
        (deviceWalkFdt drivers slots root subnodes s).1 nodeOffset =
      .ok (addressOf slots ((deviceNodes root subnodes).number 0).mirror.labels fun entry =>
        recordedOffset drivers slots s.devices entry = nodeOffset) := by
  have found := deviceWalkFdt_discovered supply fresh presented first zero
  have shape : deviceNodes root subnodes =
      .cons root (subnodes.prune fun node => node.name = textBytes "chosen") .nil := by
    rw [deviceNodes, Forest.prune, if_neg (by simpa using named)]
    rfl
  rw [shape, Forest.size_cons] at enough
  rw [shape] at found ⊢
  refine deviceFind_linked supply found.linked (fun entry member => ?_) ?_
  · exact (found.made entry ((Forest.mirror_perm _).mem_iff.mp member)).offset
  · show ((Forest.number (0 + 1) _).mirror).size < fuel
    rw [Forest.size_mirror, Forest.size_number]
    omega

include records

/-- The device of every node is found, and null for every other offset, exactly if there is a
device for the root and each device of unknown kind was made where memory held its offset. -/
theorem lookup_finds_device_iff :
    (∀ nodeOffset, deviceFindDevByFdtOffset fuel (deviceWalkFdt drivers slots root subnodes s).2.devices
          (deviceWalkFdt drivers slots root subnodes s).1 nodeOffset =
            .ok (deviceOf slots (deviceNodes root subnodes) nodeOffset)) ↔
      root.name ≠ textBytes "chosen" ∧
        ∀ entry ∈ ((deviceNodes root subnodes).number 0).labels,
          deviceInitNode drivers (entry.2 + 1) entry.1 = none →
            (s.devices (slots entry.2)).fdtNodeOffset = entry.1.offset := by
  have distinct : (((deviceNodes root subnodes).number 0).labels.map fun entry => entry.1.offset).Nodup := by
    have offsets := congrArg (List.map FdtNode.offset) (Forest.number_fst 0 (deviceNodes root subnodes))
    rw [List.map_map] at offsets
    exact offsets ▸ ((Forest.prune_sublist _ _).map _).nodup presented.distinct
  have recorded : (∀ entry ∈ ((deviceNodes root subnodes).number 0).labels,
      deviceInitNode drivers (entry.2 + 1) entry.1 = none →
        (s.devices (slots entry.2)).fdtNodeOffset = entry.1.offset) ↔
      ∀ entry ∈ ((deviceNodes root subnodes).number 0).labels,
        recordedOffset drivers slots s.devices entry = entry.1.offset :=
    forall₂_congr fun entry _ => (recordedOffset_iff records entry).symm
  rw [recorded, ← addressOf_mirror_iff supply _ distinct]
  by_cases named : root.name = textBytes "chosen"
  · -- The root has no device, and the search starts from a null pointer.
    have null : (deviceWalkFdt drivers slots root subnodes s).1 = 0 := by
      rw [deviceWalkFdt, if_pos (isChosen_iff.mpr named)]
    constructor
    · intro finds
      have here := finds 0
      rw [null, deviceFindDevByFdtOffset, if_pos rfl] at here
      cases here
    · intro both
      exact absurd named both.1
  · have search := deviceFind_discovered supply fresh presented first zero enough named
    constructor
    · intro finds
      exact ⟨named, fun nodeOffset => Except.ok.inj ((search nodeOffset).symm.trans (finds nodeOffset))⟩
    · intro both nodeOffset
      rw [search nodeOffset, both.2 nodeOffset]

end

theorem drivers_record : ∀ driver ∈ [uartDriver, idleDriver], driver.RecordsOffset := by
  intro driver member devId node device made
  simp only [List.mem_cons, List.not_mem_nil, or_false] at member
  rcases member with rfl | rfl <;> cases made
  rfl

/-- Memory that happens to hold the offsets of the nodes whose devices end up there. -/
def foreseen : Discovery := ⟨fun address => ⟨"", [0, 0, 48, 7, 96].getD address 0, 7, 7, 7, 7, 7, 7⟩, 0, 0, 0⟩

theorem lookup_finds_device_iff_foreseen :
    deviceFindDevByFdtOffset 4 (deviceWalkFdt [uartDriver, idleDriver] (· + 1) rootNode boardNodes foreseen).2.devices
        (deviceWalkFdt [uartDriver, idleDriver] (· + 1) rootNode boardNodes foreseen).1 64 = .ok 3 ∧
      ((∀ nodeOffset, deviceFindDevByFdtOffset 4
            (deviceWalkFdt [uartDriver, idleDriver] (· + 1) rootNode boardNodes foreseen).2.devices
            (deviceWalkFdt [uartDriver, idleDriver] (· + 1) rootNode boardNodes foreseen).1 nodeOffset =
              .ok (deviceOf (· + 1) (deviceNodes rootNode boardNodes) nodeOffset)) ↔
        rootNode.name ≠ textBytes "chosen" ∧
          ∀ entry ∈ ((deviceNodes rootNode boardNodes).number 0).labels,
            deviceInitNode [uartDriver, idleDriver] (entry.2 + 1) entry.1 = none →
              (foreseen.devices (entry.2 + 1)).fdtNodeOffset = entry.1.offset) :=
  ⟨by decide +kernel, lookup_finds_device_iff freshSlots_succ drivers_fresh drivers_record boardNodes_presented rfl rfl
    (by decide)⟩

/-- Where memory holds the offset of the UART, the root of the devices passes for the UART. -/
theorem lookup_finds_stale_offset : deviceFindDevByFdtOffset 4
        (deviceWalkFdt [uartDriver, idleDriver] (· + 1) rootNode boardNodes (undiscovered 64)).2.devices
        (deviceWalkFdt [uartDriver, idleDriver] (· + 1) rootNode boardNodes (undiscovered 64)).1 64 = .ok 1 ∧
      deviceOf (· + 1) (deviceNodes rootNode boardNodes) 64 = 3 ∧
      deviceOf (· + 1) (deviceNodes rootNode boardNodes) 0 = 1 :=
  ⟨by decide +kernel, by decide, by decide⟩

end Kalorona.Device
