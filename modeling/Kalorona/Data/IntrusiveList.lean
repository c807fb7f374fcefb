import Mathlib.Data.List.Nodup
import Mathlib.Logic.Function.Basic
import Mathlib.Logic.Function.Iterate

namespace Kalorona.Data

/-! # Doubly linked lists whose links are in their nodes

A head leads to a first node, every node to the next one and back to the one before it.
-/

/-- The two links of every node; `none` is the null pointer. -/
structure Links (α : Type) where
  prv : α → Option α
  nxt : α → Option α

namespace Links

variable {α : Type}

section
variable [DecidableEq α]

def setPrv (links : Links α) (node : α) (target : Option α) : Links α :=
  { links with prv := Function.update links.prv node target }

def setNxt (links : Links α) (node : α) (target : Option α) : Links α :=
  { links with nxt := Function.update links.nxt node target }

@[simp] theorem setPrv_prv (links : Links α) (node other : α) (target : Option α) :
    (links.setPrv node target).prv other = if other = node then target else links.prv other :=
  Function.update_apply ..

@[simp] theorem setPrv_nxt (links : Links α) (node : α) (target : Option α) :
    (links.setPrv node target).nxt = links.nxt := rfl

@[simp] theorem setNxt_nxt (links : Links α) (node other : α) (target : Option α) :
    (links.setNxt node target).nxt other = if other = node then target else links.nxt other :=
  Function.update_apply ..

@[simp] theorem setNxt_prv (links : Links α) (node : α) (target : Option α) :
    (links.setNxt node target).prv = links.prv := rfl

/-- A write through a pointer that may be null. -/
def setPrvOf (links : Links α) (pointer target : Option α) : Links α :=
  match pointer with
  | some node => links.setPrv node target
  | none => links

def setNxtOf (links : Links α) (pointer target : Option α) : Links α :=
  match pointer with
  | some node => links.setNxt node target
  | none => links

section
variable (links : Links α) (pointer target : Option α)
include links pointer target

@[simp] theorem setPrvOf_prv (other : α) :
    (links.setPrvOf pointer target).prv other = if pointer = some other then target else links.prv other := by
  cases pointer with
  | none => rfl
  | some node => simp [setPrvOf, eq_comm]

@[simp] theorem setPrvOf_nxt : (links.setPrvOf pointer target).nxt = links.nxt := by
  cases pointer <;> rfl

@[simp] theorem setNxtOf_nxt (other : α) :
    (links.setNxtOf pointer target).nxt other = if pointer = some other then target else links.nxt other := by
  cases pointer with
  | none => rfl
  | some node => simp [setNxtOf, eq_comm]

@[simp] theorem setNxtOf_prv : (links.setNxtOf pointer target).prv = links.prv := by
  cases pointer <;> rfl

end

/-- Puts `node` right behind `head`, write by write. -/
def insert (links : Links α) (head node : α) : Links α :=
  let links := links.setPrv node (some head)
  let links := links.setNxt node (links.nxt head)
  let links := links.setPrvOf (links.nxt node) (some node)
  links.setNxt head (some node)

/-- Takes `node` out from between its neighbours, write by write. -/
def detach (links : Links α) (node : α) : Links α :=
  let links := links.setNxtOf (links.prv node) (links.nxt node)
  let links := links.setPrvOf (links.nxt node) (links.prv node)
  (links.setPrv node none).setNxt node none

section
variable (links : Links α) (head node other : α)

theorem insert_nxt : (links.insert head node).nxt other =
    if other = head then some node else if other = node then links.nxt head else links.nxt other := by
  simp [insert]

theorem insert_prv : (links.insert head node).prv other = if links.nxt head = some other then some node
    else if other = node then some head else links.prv other := by
  simp [insert]

theorem detach_nxt : (links.detach node).nxt other = if other = node then none
    else if links.prv node = some other then links.nxt node else links.nxt other := by
  simp [detach]

theorem detach_prv : (links.detach node).prv other = if other = node then none
    else if links.nxt node = some other then links.prv node else links.prv other := by
  simp [detach]

end

end

/-- Following `nxt` from `head` visits the nodes in order and ends in null, and `prv` leads back. -/
def Represents (links : Links α) : α → List α → Prop
  | head, [] => links.nxt head = none
  | head, node :: nodes =>
    links.nxt head = some node ∧ links.prv node = some head ∧ Represents links node nodes

def follow (links : Links α) (pointer : Option α) : Option α := pointer.bind links.nxt

def Visits (links : Links α) (head node : α) : Prop :=
  ∃ steps, links.follow^[steps] (some head) = some node

/-- Following the list comes to an end. -/
def Terminates (links : Links α) (head : α) : Prop :=
  ∃ steps, links.follow^[steps] (some head) = none

section
variable {links after : Links α} {head node : α} {nodes : List α}

theorem Represents.nxt_eq (represents : links.Represents head nodes) : links.nxt head = nodes.head? := by
  cases nodes with
  | nil => exact represents
  | cons node nodes => exact represents.1

theorem Represents.unique {others : List α} (represents : links.Represents head nodes)
    (again : links.Represents head others) : nodes = others := by
  induction nodes generalizing head others with
  | nil =>
    cases others with
    | nil => rfl
    | cons other others => cases represents.symm.trans again.1
  | cons node nodes ih =>
    cases others with
    | nil => cases represents.1.symm.trans again
    | cons other others =>
      cases represents.1.symm.trans again.1
      rw [ih represents.2.2 again.2.2]

theorem Represents.drop {before : List α} (represents : links.Represents head (before ++ node :: nodes)) :
    links.Represents node nodes := by
  induction before generalizing head with
  | nil => exact represents.2.2
  | cons first before ih => exact ih represents.2.2

section
variable (represents : links.Represents head nodes)
include represents

theorem Represents.not_mem : head ∉ nodes := by
  intro member
  obtain ⟨before, rest, rfl⟩ := List.append_of_mem member
  have same := congrArg List.length (represents.unique represents.drop)
  simp only [List.length_append, List.length_cons] at same
  omega

theorem Represents.nodup : nodes.Nodup := by
  induction nodes generalizing head with
  | nil => exact List.nodup_nil
  | cons node nodes ih =>
    exact List.nodup_cons.mpr ⟨represents.2.2.not_mem, ih represents.2.2⟩

theorem Represents.congr (sameNxt : ∀ other ∈ head :: nodes, after.nxt other = links.nxt other)
    (samePrv : ∀ other ∈ nodes, after.prv other = links.prv other) : after.Represents head nodes := by
  induction nodes generalizing head with
  | nil => exact (sameNxt head List.mem_cons_self).trans represents
  | cons node nodes ih =>
    obtain ⟨first, back, rest⟩ := represents
    exact ⟨(sameNxt head List.mem_cons_self).trans first, (samePrv node List.mem_cons_self).trans back,
      ih rest (fun other member => sameNxt other (List.mem_cons_of_mem _ member))
        (fun other member => samePrv other (List.mem_cons_of_mem _ member))⟩

theorem Represents.follow (steps : Nat) : links.follow^[steps + 1] (some head) = nodes[steps]? := by
  induction steps generalizing head nodes with
  | zero => exact represents.nxt_eq.trans List.head?_eq_getElem?
  | succ steps ih =>
    rw [Function.iterate_succ_apply]
    cases nodes with
    | nil =>
      have null : links.follow (some head) = none := represents
      rw [null, Function.iterate_fixed rfl]
      rfl
    | cons node nodes =>
      have first : links.follow (some head) = some node := represents.1
      rw [first, ih represents.2.2]
      rfl

theorem Represents.terminates : links.Terminates head := by
  refine ⟨nodes.length + 1, ?_⟩
  rw [represents.follow]
  exact List.getElem?_eq_none (Nat.le_refl _)

end

theorem not_terminates_of_self (start : links.nxt head = some node) (self : links.nxt node = some node) :
    ¬ links.Terminates head := by
  have stays (steps : Nat) : links.follow^[steps] (some node) = some node :=
    Function.iterate_fixed (show links.follow (some node) = some node from self) steps
  rintro ⟨steps, ends⟩
  cases steps with
  | zero => cases ends
  | succ steps =>
    rw [Function.iterate_succ_apply, show links.follow (some head) = some node from start, stays] at ends
    cases ends

theorem Represents.visits_iff (represents : links.Represents head nodes) :
    links.Visits head node ↔ node ∈ head :: nodes := by
  constructor
  · rintro ⟨steps, visited⟩
    cases steps with
    | zero =>
      cases visited
      exact List.mem_cons_self
    | succ steps =>
      rw [represents.follow] at visited
      exact List.mem_cons_of_mem _ (List.mem_of_getElem? visited)
  · intro member
    rcases List.mem_cons.mp member with rfl | listed
    · exact ⟨0, rfl⟩
    · obtain ⟨steps, here⟩ := List.getElem?_of_mem listed
      exact ⟨steps + 1, (represents.follow steps).trans here⟩

theorem Represents.prv_mem (represents : links.Represents head nodes) (member : node ∈ nodes) :
    ∃ back ∈ head :: nodes, links.prv node = some back := by
  induction nodes generalizing head with
  | nil => cases member
  | cons first nodes ih =>
    rcases List.mem_cons.mp member with rfl | member
    · exact ⟨head, List.mem_cons_self, represents.2.1⟩
    · obtain ⟨back, inside, found⟩ := ih represents.2.2 member
      exact ⟨back, List.mem_cons_of_mem _ inside, found⟩

theorem Represents.nxt_mem {next : α} (represents : links.Represents head nodes)
    (member : node ∈ head :: nodes) (found : links.nxt node = some next) : next ∈ nodes := by
  induction nodes generalizing head with
  | nil =>
    cases List.mem_singleton.mp member
    cases represents.symm.trans found
  | cons first nodes ih =>
    rcases List.mem_cons.mp member with rfl | member
    · cases represents.1.symm.trans found
      exact List.mem_cons_self
    · exact List.mem_cons_of_mem _ (ih represents.2.2 member)

end

def SameOn (links after : Links α) (nodes : List α) : Prop :=
  ∀ node ∈ nodes, after.nxt node = links.nxt node ∧ after.prv node = links.prv node

variable {nodes : List α}

theorem Represents.sameOn {links after : Links α} {head : α}
    (represents : links.Represents head nodes) (same : links.SameOn after (head :: nodes)) :
    after.Represents head nodes :=
  represents.congr (fun other member => (same other member).1)
    (fun other member => (same other (List.mem_cons_of_mem _ member)).2)

section
variable [DecidableEq α] {links : Links α} {head node other : α} {nodes before rest : List α}

theorem insert_other (represents : links.Represents head nodes) (outside : other ∉ head :: nodes)
    (different : other ≠ node) : (links.insert head node).nxt other = links.nxt other ∧
      (links.insert head node).prv other = links.prv other := by
  have notHead : other ≠ head := fun same => outside (same ▸ List.mem_cons_self)
  have notFirst : links.nxt head ≠ some other := fun found =>
    outside (List.mem_cons_of_mem _ (represents.nxt_mem List.mem_cons_self found))
  rw [insert_nxt, insert_prv, if_neg notHead, if_neg different, if_neg notFirst, if_neg different]
  exact ⟨rfl, rfl⟩

theorem Represents.insert (represents : links.Represents head nodes) (fresh : node ∉ head :: nodes) :
    (links.insert head node).Represents head (node :: nodes) := by
  have notHead : node ≠ head := fun same => fresh (same ▸ List.mem_cons_self)
  have notFirst : links.nxt head ≠ some node := fun found =>
    fresh (List.mem_cons_of_mem _ (represents.nxt_mem List.mem_cons_self found))
  refine ⟨by rw [insert_nxt, if_pos rfl], by rw [insert_prv, if_neg notFirst, if_pos rfl], ?_⟩
  have second : (links.insert head node).nxt node = links.nxt head := by
    rw [insert_nxt, if_neg notHead, if_pos rfl]
  cases nodes with
  | nil => exact second.trans represents
  | cons first nodes =>
    have distinct := represents.not_mem
    obtain ⟨found, _, behind⟩ := represents
    refine ⟨second.trans found, by rw [insert_prv, if_pos found], behind.congr ?_ ?_⟩
    · intro other member
      have different : other ≠ node := fun same => fresh (List.mem_cons_of_mem _ (same ▸ member))
      have otherHead : other ≠ head := fun same => distinct (same ▸ member)
      rw [insert_nxt, if_neg otherHead, if_neg different]
    · intro other member
      have different : other ≠ node := fun same =>
        fresh (List.mem_cons_of_mem _ (List.mem_cons_of_mem _ (same ▸ member)))
      have otherFirst : links.nxt head ≠ some other := by
        rw [found]
        rintro ⟨⟩
        exact behind.not_mem member
      rw [insert_prv, if_neg otherFirst, if_neg different]

theorem detach_other (represents : links.Represents head nodes) (member : node ∈ nodes)
    (outside : other ∉ head :: nodes) : (links.detach node).nxt other = links.nxt other ∧
      (links.detach node).prv other = links.prv other := by
  have different : other ≠ node := fun same => outside (same ▸ List.mem_cons_of_mem _ member)
  have notBack : links.prv node ≠ some other := by
    obtain ⟨back, inside, found⟩ := represents.prv_mem member
    rw [found]
    rintro ⟨⟩
    exact outside inside
  have notNext : links.nxt node ≠ some other := fun found =>
    outside (List.mem_cons_of_mem _ (represents.nxt_mem (List.mem_cons_of_mem _ member) found))
  rw [detach_nxt, detach_prv, if_neg different, if_neg notBack, if_neg different, if_neg notNext]
  exact ⟨rfl, rfl⟩

theorem Represents.detach_first (represents : links.Represents head (node :: nodes)) :
    (links.detach node).Represents head nodes := by
  have notHead : head ≠ node := fun same => represents.not_mem (same ▸ List.mem_cons_self)
  have distinct := represents.not_mem
  obtain ⟨_, back, behind⟩ := represents
  have first : (links.detach node).nxt head = links.nxt node := by
    rw [detach_nxt, if_neg notHead, if_pos back]
  cases nodes with
  | nil => exact first.trans behind
  | cons next nodes =>
    have nodup := behind.nodup
    have notNode := behind.not_mem
    obtain ⟨found, _, rest⟩ := behind
    have notNext : next ≠ node := fun same => notNode (same ▸ List.mem_cons_self)
    refine ⟨first.trans found, by rw [detach_prv, if_neg notNext, if_pos found, back], rest.congr ?_ ?_⟩
    · intro other member
      have different : other ≠ node := fun same => notNode (same ▸ member)
      have otherBack : links.prv node ≠ some other := by
        rw [back]
        rintro ⟨⟩
        exact distinct (List.mem_cons_of_mem _ member)
      rw [detach_nxt, if_neg different, if_neg otherBack]
    · intro other member
      have different : other ≠ node := fun same => notNode (List.mem_cons_of_mem _ (same ▸ member))
      have otherNext : links.nxt node ≠ some other := by
        rw [found]
        rintro ⟨⟩
        exact (List.nodup_cons.mp nodup).1 member
      rw [detach_prv, if_neg different, if_neg otherNext]

theorem Represents.detach_split (represents : links.Represents head (before ++ node :: rest)) :
    (links.detach node).Represents head (before ++ rest) := by
  induction before generalizing head with
  | nil => exact represents.detach_first
  | cons first before ih =>
    have member : node ∈ before ++ node :: rest := List.mem_append_right _ List.mem_cons_self
    have distinct := represents.not_mem
    obtain ⟨found, back, behind⟩ := represents
    have notHead : head ≠ node := fun same => distinct (List.mem_cons_of_mem _ (same ▸ member))
    have notFirst : first ≠ node := fun same => behind.not_mem (same ▸ member)
    have headBack : links.prv node ≠ some head := by
      obtain ⟨other, inside, backOf⟩ := behind.prv_mem member
      rw [backOf]
      rintro ⟨⟩
      exact distinct inside
    have firstNext : links.nxt node ≠ some first := fun next =>
      behind.not_mem (behind.nxt_mem (List.mem_cons_of_mem _ member) next)
    refine ⟨?_, ?_, ih behind⟩
    · rw [detach_nxt, if_neg notHead, if_neg headBack, found]
    · rw [detach_prv, if_neg notFirst, if_neg firstNext, back]

theorem Represents.detach (represents : links.Represents head nodes) (member : node ∈ nodes) :
    (links.detach node).Represents head (nodes.erase node) := by
  obtain ⟨before, rest, _, rfl, erased⟩ := List.exists_erase_eq member
  rw [erased]
  exact represents.detach_split

theorem detach_null : (links.detach node).nxt node = none ∧ (links.detach node).prv node = none := by
  rw [detach_nxt, detach_prv, if_pos rfl, if_pos rfl]
  exact ⟨rfl, rfl⟩

end

/-- Every head represents its members, and no node is in two lists. -/
structure HoldsLists (links : Links α) (heads : Set α) (members : α → List α) : Prop where
  represents : ∀ head ∈ heads, links.Represents head (members head)
  apart : ∀ head ∈ heads, ∀ other ∈ heads, head ≠ other →
    (head :: members head).Disjoint (other :: members other)

def Unlinked (heads : Set α) (members : α → List α) (node : α) : Prop :=
  ∀ head ∈ heads, node ∉ head :: members head

section
variable {links after : Links α} {heads : Set α} {members : α → List α} {head node : α}

theorem Represents.holds (represents : links.Represents head nodes) : links.HoldsLists {head} (fun _ => nodes) := by
  refine ⟨?_, ?_⟩
  · rintro _ rfl
    exact represents
  · rintro _ rfl _ rfl different
    exact absurd rfl different

section
variable (holds : links.HoldsLists heads members)
include holds

theorem HoldsLists.terminates (listed : head ∈ heads) : links.Terminates head :=
  (holds.represents head listed).terminates

theorem HoldsLists.sameOn
    (same : ∀ head ∈ heads, links.SameOn after (head :: members head)) : after.HoldsLists heads members :=
  ⟨fun head listed => (holds.represents head listed).sameOn (same head listed), holds.apart⟩

theorem HoldsLists.congr {others : α → List α}
    (same : ∀ head ∈ heads, others head = members head) : links.HoldsLists heads others := by
  refine ⟨fun head listed => ?_, fun head listed other otherListed different => ?_⟩
  · rw [same head listed]
    exact holds.represents head listed
  · rw [same head listed, same other otherListed]
    exact holds.apart head listed other otherListed different

theorem HoldsLists.mono {fewer : Set α} (subset : fewer ⊆ heads) : links.HoldsLists fewer members :=
  ⟨fun head listed => holds.represents head (subset listed),
    fun head listed other otherListed => holds.apart head (subset listed) other (subset otherListed)⟩

end

variable [DecidableEq α]

section
variable (holds : links.HoldsLists heads members)
include holds

section
variable (listed : head ∈ heads)
include listed

theorem HoldsLists.change (represents : after.Represents head nodes)
    (own : ∀ node ∈ nodes, node ∈ members head ∨ Unlinked heads members node)
    (same : ∀ other ∈ heads, other ≠ head → links.SameOn after (other :: members other)) :
    after.HoldsLists heads (Function.update members head nodes) := by
  have apart : ∀ other ∈ heads, other ≠ head → (head :: nodes).Disjoint (other :: members other) := by
    intro other otherListed different node member otherMember
    have old := holds.apart head listed other otherListed different.symm
    rcases List.mem_cons.mp member with rfl | member
    · exact old List.mem_cons_self otherMember
    · rcases own node member with ofHead | unlinked
      · exact old (List.mem_cons_of_mem _ ofHead) otherMember
      · exact unlinked other otherListed otherMember
  constructor
  · intro other otherListed
    by_cases isHead : other = head
    · subst isHead
      rwa [Function.update_self]
    · rw [Function.update_of_ne isHead]
      exact (holds.represents other otherListed).sameOn (same other otherListed isHead)
  · intro left leftListed right rightListed different
    by_cases leftHead : left = head
    · subst leftHead
      rw [Function.update_self, Function.update_of_ne different.symm]
      exact apart right rightListed different.symm
    · rw [Function.update_of_ne leftHead]
      by_cases rightHead : right = head
      · subst rightHead
        rw [Function.update_self]
        exact fun node ofLeft ofHead => apart left leftListed leftHead ofHead ofLeft
      · rw [Function.update_of_ne rightHead]
        exact holds.apart left leftListed right rightListed different

theorem HoldsLists.insert_same (unlinked : Unlinked heads members node) :
    ∀ other ∈ heads, other ≠ head → links.SameOn (links.insert head node) (other :: members other) := by
  intro other otherListed different place member
  refine insert_other (holds.represents head listed) ?_ ?_
  · exact fun ofHead => holds.apart head listed other otherListed different.symm ofHead member
  · rintro rfl
    exact unlinked other otherListed member

theorem HoldsLists.insert (unlinked : Unlinked heads members node) : (links.insert head node).HoldsLists heads
      (Function.update members head (node :: members head)) := by
  refine holds.change listed ((holds.represents head listed).insert (unlinked head listed)) ?_
    (holds.insert_same listed unlinked)
  intro other member
  rcases List.mem_cons.mp member with rfl | old
  · exact .inr unlinked
  · exact .inl old

theorem HoldsLists.detach_same (member : node ∈ members head) :
    ∀ other ∈ heads, other ≠ head → links.SameOn (links.detach node) (other :: members other) :=
  fun other otherListed different _ inOther => detach_other (holds.represents head listed) member
    fun ofHead => holds.apart head listed other otherListed different.symm ofHead inOther

theorem HoldsLists.detach (member : node ∈ members head) : (links.detach node).HoldsLists heads
      (Function.update members head ((members head).erase node)) :=
  holds.change listed ((holds.represents head listed).detach member)
    (fun _ kept => .inl (List.mem_of_mem_erase kept)) (holds.detach_same listed member)

theorem HoldsLists.detach_unlinked (member : node ∈ members head) :
    Unlinked heads (Function.update members head ((members head).erase node)) node := by
  intro other otherListed inOther
  by_cases isHead : other = head
  · subst isHead
    rw [Function.update_self] at inOther
    have represents := holds.represents other listed
    rcases List.mem_cons.mp inOther with rfl | kept
    · exact represents.not_mem member
    · exact (represents.nodup.mem_erase_iff.mp kept).1 rfl
  · rw [Function.update_of_ne isHead] at inOther
    exact holds.apart head listed other otherListed (Ne.symm isHead) (List.mem_cons_of_mem _ member) inOther

end

theorem HoldsLists.move {source target : α} {others : α → List α}
    (sourceListed : source ∈ heads) (targetListed : target ∈ heads) (different : target ≠ source)
    (member : node ∈ members source) (fromSource : others source = (members source).erase node)
    (toTarget : others target = node :: members target)
    (same : ∀ head ∈ heads, head ≠ source → head ≠ target → others head = members head) :
    ((links.detach node).insert target node).HoldsLists heads others := by
  have inserted := (holds.detach sourceListed member).insert targetListed
    (holds.detach_unlinked sourceListed member)
  rw [Function.update_of_ne different] at inserted
  refine inserted.congr ?_
  intro head listed
  rw [Function.update_apply, Function.update_apply]
  split
  next isTarget => rw [isTarget, toTarget]
  next notTarget =>
    split
    next isSource => rw [isSource, fromSource]
    next notSource => exact same head listed notSource notTarget

theorem HoldsLists.add
    (represents : after.Represents head nodes) (unlinked : ∀ node ∈ head :: nodes, Unlinked heads members node)
    (same : ∀ other ∈ heads, links.SameOn after (other :: members other)) :
    after.HoldsLists (Insert.insert head heads) (Function.update members head nodes) := by
  have notHead : ∀ other ∈ heads, other ≠ head := by
    rintro other otherListed rfl
    exact unlinked other List.mem_cons_self other otherListed List.mem_cons_self
  constructor
  · rintro other (rfl | otherListed)
    · rwa [Function.update_self]
    · rw [Function.update_of_ne (notHead other otherListed)]
      exact (holds.represents other otherListed).sameOn (same other otherListed)
  · rintro left (rfl | leftListed) right (rfl | rightListed) different
    · exact absurd rfl different
    · rw [Function.update_self, Function.update_of_ne different.symm]
      exact fun node member other => unlinked node member right rightListed other
    · rw [Function.update_self, Function.update_of_ne different]
      exact fun node member other => unlinked node other left leftListed member
    · rw [Function.update_of_ne (notHead left leftListed), Function.update_of_ne (notHead right rightListed)]
      exact holds.apart left leftListed right rightListed different

end

theorem Unlinked.add (unlinked : Unlinked heads members node) (isNew : head ∉ heads)
    (outside : node ∉ head :: nodes) :
    Unlinked (Insert.insert head heads) (Function.update members head nodes) node := by
  rintro other (rfl | listed) member
  · rw [Function.update_self] at member
    exact outside member
  · have different : other ≠ head := fun same => isNew (same ▸ listed)
    rw [Function.update_of_ne different] at member
    exact unlinked other listed member

end

section
variable [DecidableEq α]

def appendNodes (previous : α) : List α → Links α → Links α
  | [], links => links
  | node :: nodes, links =>
    appendNodes node nodes
      (((links.setNxt previous (some node)).setPrv node (some previous)).setNxt node none)

variable {links : Links α} {previous other : α} {nodes : List α}

theorem appendNodes_nxt_other (outside : other ∉ previous :: nodes) :
    (appendNodes previous nodes links).nxt other = links.nxt other := by
  induction nodes generalizing previous links with
  | nil => rfl
  | cons node nodes ih =>
    rw [List.mem_cons, not_or] at outside
    have notNode : other ≠ node := fun same => outside.2 (same ▸ List.mem_cons_self)
    rw [appendNodes, ih outside.2]
    simp [notNode, outside.1]

theorem appendNodes_prv_other (outside : other ∉ nodes) :
    (appendNodes previous nodes links).prv other = links.prv other := by
  induction nodes generalizing previous links with
  | nil => rfl
  | cons node nodes ih =>
    rw [List.mem_cons, not_or] at outside
    rw [appendNodes, ih outside.2]
    simp [outside.1]

theorem appendNodes_represents (last : links.nxt previous = none) (nodup : (previous :: nodes).Nodup) :
    (appendNodes previous nodes links).Represents previous nodes := by
  induction nodes generalizing previous links with
  | nil => exact last
  | cons node nodes ih =>
    obtain ⟨outside, rest⟩ := List.nodup_cons.mp nodup
    have different : previous ≠ node := fun same => outside (same ▸ List.mem_cons_self)
    rw [appendNodes]
    refine ⟨?_, ?_, ih (by simp) rest⟩
    · rw [appendNodes_nxt_other outside]
      simp [different]
    · rw [appendNodes_prv_other (List.nodup_cons.mp rest).1]
      simp

end

end Links

end Kalorona.Data
