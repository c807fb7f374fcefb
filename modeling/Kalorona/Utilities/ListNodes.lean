import Kalorona.Data.IntrusiveList
import Kalorona.Kernel.Machine

namespace Kalorona.Utilities

open Kalorona.Data

/-! # The functions on intrusive lists

Functions that differ in the type of the node and in what they say when they panic.
-/

section
variable {α : Type} [DecidableEq α]

/-- The common text of the functions that put a node behind a head. -/
def insertNode (message : String) (head node : Option α) (links : Links α) : Result (Links α) :=
  match head, node with
  | some head, some node => .ok (links.insert head node)
  | _, _ => .error (.panic message)

def detachNode (message : String) (node : Option α) (links : Links α) : Result (Links α) :=
  match node with
  | some node => .ok (links.detach node)
  | none => .error (.panic message)

/-- One list has changed and no other. -/
structure ListChanged (links after : Links α) (heads : Set α) (members : α → List α) (head : α)
    (nodes : List α) : Prop where
  represents : after.Represents head nodes
  others : ∀ other ∈ heads, other ≠ head → after.Represents other (members other)
  unchanged : ∀ other ∈ heads, other ≠ head → links.SameOn after (other :: members other)
  holds : after.HoldsLists heads (Function.update members head nodes)

theorem ListChanged.of_holds {links after : Links α} {heads : Set α} {members : α → List α} {head : α}
    {nodes : List α} (listed : head ∈ heads) (holds : after.HoldsLists heads (Function.update members head nodes))
    (unchanged : ∀ other ∈ heads, other ≠ head → links.SameOn after (other :: members other)) :
    ListChanged links after heads members head nodes := by
  refine ⟨?_, fun other otherListed different => ?_, unchanged, holds⟩
  · have represents := holds.represents head listed
    rwa [Function.update_self] at represents
  · have represents := holds.represents other otherListed
    rwa [Function.update_of_ne different] at represents

/-- In every memory with disjoint lists, a node that is in none becomes the first of the list. -/
def RefinesCons (insert : Option α → Option α → Links α → Result (Links α)) : Prop :=
  ∀ (links : Links α) (heads : Set α) (members : α → List α), links.HoldsLists heads members →
    ∀ head ∈ heads, ∀ node, Links.Unlinked heads members node →
      ∃ after, insert (some head) (some node) links = .ok after ∧
        ListChanged links after heads members head (node :: members head)

def RefinesErase (detach : Option α → Links α → Result (Links α)) : Prop :=
  ∀ (links : Links α) (heads : Set α) (members : α → List α), links.HoldsLists heads members →
    ∀ head ∈ heads, ∀ node ∈ members head,
      ∃ after, detach (some node) links = .ok after ∧
        ListChanged links after heads members head ((members head).erase node) ∧
        after.nxt node = none ∧ after.prv node = none

theorem insertNode_refines (message : String) : RefinesCons (@insertNode α _ message) := by
  intro links heads members holds head listed node unlinked
  exact ⟨links.insert head node, rfl,
    .of_holds listed (holds.insert listed unlinked) (holds.insert_same listed unlinked)⟩

theorem detachNode_refines (message : String) : RefinesErase (@detachNode α _ message) := by
  intro links heads members holds head listed node member
  exact ⟨links.detach node, rfl, .of_holds listed (holds.detach listed member) (holds.detach_same listed member),
    Links.detach_null⟩

end

namespace Algorithm

variable {α : Type} [DecidableEq α]

def listInsert : Option α → Option α → Links α → Result (Links α) :=
  insertNode "list_insert - null parameters"

def listDetach : Option α → Links α → Result (Links α) :=
  detachNode "list_detach - null parameters"

end Algorithm

end Kalorona.Utilities
