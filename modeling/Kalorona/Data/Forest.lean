import Mathlib.Data.List.Basic

namespace Kalorona.Data

/-! # Ordered forests

A forest is a list of trees, given by its first tree, the forest below the root of that
tree, and the trees after it.
-/

/-- Trees by first child and next sibling. -/
inductive Forest (α : Type) where
  | nil
  | cons (label : α) (children next : Forest α)
deriving DecidableEq, Repr

namespace Forest

variable {α β : Type}

def roots : Forest α → List α
  | .nil => []
  | .cons label _ next => label :: next.roots

def labels : Forest α → List α
  | .nil => []
  | .cons label children next => label :: (children.labels ++ next.labels)

def size (forest : Forest α) : Nat := forest.labels.length

def prune (drops : α → Bool) : Forest α → Forest α
  | .nil => .nil
  | .cons label children next =>
    if drops label then next.prune drops else .cons label (children.prune drops) (next.prune drops)

def number (start : Nat) : Forest α → Forest (α × Nat)
  | .nil => .nil
  | .cons label children next =>
    .cons (label, start) (children.number (start + 1)) (next.number (start + 1 + children.size))

/-- Puts the trees one after the other in front of others, each turned around in the same way
below its root. -/
def mirrorOnto : Forest α → Forest α → Forest α
  | .nil, after => after
  | .cons label children next, after => next.mirrorOnto (.cons label (children.mirrorOnto .nil) after)

/-- Every list of siblings in reverse order. -/
def mirror (forest : Forest α) : Forest α := forest.mirrorOnto .nil

@[simp] theorem size_nil : (nil : Forest α).size = 0 := rfl

@[simp] theorem size_cons (label : α) (children next : Forest α) :
    (cons label children next).size = 1 + children.size + next.size := by
  simp [size, labels]
  omega

theorem number_fst (start : Nat) (forest : Forest α) :
    (forest.number start).labels.map Prod.fst = forest.labels := by
  induction forest generalizing start with
  | nil => rfl
  | cons label children next below later => simp [number, labels, below, later]

@[simp] theorem size_number (start : Nat) (forest : Forest α) : (forest.number start).size = forest.size := by
  rw [size, size, ← number_fst start forest, List.length_map]

theorem number_snd (start : Nat) (forest : Forest α) :
    (forest.number start).labels.map Prod.snd = List.range' start forest.size := by
  induction forest generalizing start with
  | nil => rfl
  | cons label children next below later =>
    have split : 1 + children.size + next.size = children.size + next.size + 1 := by omega
    simp only [number, labels, List.map_cons, List.map_append, below, later, size_cons, split,
      List.range'_succ, List.cons.injEq, true_and]
    rw [← List.range'_append, Nat.one_mul]

theorem number_bounds {start : Nat} {forest : Forest α} {entry : α × Nat}
    (member : entry ∈ (forest.number start).labels) : start ≤ entry.2 ∧ entry.2 < start + forest.size := by
  have inside : entry.2 ∈ List.range' start forest.size := by
    rw [← number_snd]
    exact List.mem_map_of_mem member
  rw [List.mem_range'_1] at inside
  exact inside

theorem prune_sublist (drops : α → Bool) (forest : Forest α) :
    (forest.prune drops).labels.Sublist forest.labels := by
  induction forest with
  | nil => exact .slnil
  | cons label children next below later =>
    unfold prune
    split
    · exact (later.trans (List.sublist_append_right _ _)).cons _
    · exact (below.append later).cons_cons _

theorem mirrorOnto_perm (forest after : Forest α) :
    (forest.mirrorOnto after).labels.Perm (forest.labels ++ after.labels) := by
  induction forest generalizing after with
  | nil => exact .refl _
  | cons label children next below later =>
    have moved := later (.cons label (children.mirrorOnto .nil) after)
    have inner : (children.mirrorOnto .nil).labels.Perm children.labels := by
      simpa [labels] using below .nil
    refine moved.trans ?_
    simp only [labels, List.cons_append, List.append_assoc]
    refine List.perm_middle.trans (.cons label ?_)
    calc next.labels ++ ((children.mirrorOnto .nil).labels ++ after.labels)
        |>.Perm (next.labels ++ (children.labels ++ after.labels)) := (inner.append_right _).append_left _
      _ |>.Perm (children.labels ++ (next.labels ++ after.labels)) := by
          rw [← List.append_assoc, ← List.append_assoc]
          exact List.perm_append_comm.append_right _

theorem mirror_perm (forest : Forest α) : forest.mirror.labels.Perm forest.labels := by
  simpa [mirror, labels] using mirrorOnto_perm forest .nil

@[simp] theorem size_mirror (forest : Forest α) : forest.mirror.size = forest.size := (mirror_perm forest).length_eq

end Forest

end Kalorona.Data
