import Mathlib.Data.Set.Lattice
import Mathlib.Order.CompletePartialOrder

namespace Kalorona.Data

/-! # Radix trees in a store of cells

Each node has one cell for each digit.  A cell may point to a node of the next level or, at the
bottom, hold a value.  A path lists the digits from the last one taken to the first.
-/

/-- Nodes `N` hold a word for each digit, which points to a node, is a value or neither. -/
structure Radix (N ι W V : Type) where
  depth : Nat
  child : W → Option N
  leaf : W → Option V
  /-- The pointers that are allowed above the bottom level. -/
  inner : W → Prop

namespace Radix

variable {N ι W V : Type} (scheme : Radix N ι W V) (cells : N → ι → W) (root : N)

def follow : List ι → Option N
  | [] => some root
  | digit :: path => (follow path).bind fun node => scheme.child (cells node digit)

def value : List ι → Option V
  | [] => none
  | digit :: path => (scheme.follow cells root path).bind fun node => scheme.leaf (cells node digit)

/-- The nodes that the root leads to. -/
def nodes : Set N :=
  { node | ∃ path, path.length ≤ scheme.depth ∧ scheme.follow cells root path = some node }

/-- No two paths share a node, and all pointers above the bottom level are allowed. -/
structure Tree : Prop where
  distinct : ∀ {path other node}, path.length ≤ scheme.depth → other.length ≤ scheme.depth →
    scheme.follow cells root path = some node → scheme.follow cells root other = some node →
    path = other
  inner : ∀ {path node} digit, path.length < scheme.depth →
    scheme.follow cells root path = some node → (scheme.child (cells node digit)).isSome →
    scheme.inner (cells node digit)

variable {scheme cells root} {cells' : N → ι → W} {node fresh : N} {digit : ι} {path other : List ι}

theorem root_mem_nodes : root ∈ scheme.nodes cells root := ⟨[], Nat.zero_le _, rfl⟩

theorem follow_cons_some (reached : scheme.follow cells root (digit :: path) = some node) :
    ∃ parent, scheme.follow cells root path = some parent ∧
      scheme.child (cells parent digit) = some node :=
  Option.bind_eq_some_iff.mp reached

theorem follow_cons (reached : scheme.follow cells root path = some node) (digit : ι) :
    scheme.follow cells root (digit :: path) = scheme.child (cells node digit) := by
  rw [follow, reached, Option.bind_some]

theorem value_cons (reached : scheme.follow cells root path = some node) (digit : ι) :
    scheme.value cells root (digit :: path) = scheme.leaf (cells node digit) := by
  rw [value, reached, Option.bind_some]

theorem follow_congr (same : ∀ {path node}, path.length < scheme.depth →
      scheme.follow cells root path = some node → ∀ digit, cells' node digit = cells node digit)
    (short : path.length ≤ scheme.depth) : scheme.follow cells' root path = scheme.follow cells root path := by
  induction path with
  | nil => rfl
  | cons digit path ih =>
    have above : path.length < scheme.depth := short
    rw [follow, ih (Nat.le_of_lt above)]
    cases reached : scheme.follow cells root path with
    | none => simp [follow, reached]
    | some node =>
      rw [follow_cons reached, Option.bind_some, same above reached]

theorem nodes_congr
    (same : ∀ {path}, path.length ≤ scheme.depth → scheme.follow cells' root path = scheme.follow cells root path) :
    scheme.nodes cells' root = scheme.nodes cells root := by
  ext node
  constructor
  · rintro ⟨path, short, reached⟩
    exact ⟨path, short, same short ▸ reached⟩
  · rintro ⟨path, short, reached⟩
    exact ⟨path, short, (same short).trans reached⟩

variable {key : List ι}

theorem value_congr (same : ∀ {path node}, path.length ≤ scheme.depth →
      scheme.follow cells root path = some node → ∀ digit, cells' node digit = cells node digit)
    (long : key.length = scheme.depth + 1) :
    scheme.value cells' root key = scheme.value cells root key := by
  cases key with
  | nil => rfl
  | cons digit path =>
    have bottom : path.length ≤ scheme.depth := Nat.le_of_eq (Nat.succ.inj long)
    rw [value, value, follow_congr (fun above reached => same (Nat.le_of_lt above) reached) bottom]
    cases reached : scheme.follow cells root path with
    | none => rfl
    | some node =>
      simp only [Option.bind_some]
      rw [same bottom reached]

theorem Tree.congr (tree : scheme.Tree cells root) (same : ∀ {path node}, path.length ≤ scheme.depth →
      scheme.follow cells root path = some node → ∀ digit, cells' node digit = cells node digit) :
    scheme.Tree cells' root where
  distinct short otherShort reached otherReached := by
    have above : ∀ {path node}, path.length < scheme.depth →
        scheme.follow cells root path = some node → ∀ digit, cells' node digit = cells node digit :=
      fun above reached => same (Nat.le_of_lt above) reached
    rw [follow_congr above short] at reached
    rw [follow_congr above otherShort] at otherReached
    exact tree.distinct short otherShort reached otherReached
  inner digit short reached isSome := by
    rw [follow_congr (fun above reached => same (Nat.le_of_lt above) reached) (Nat.le_of_lt short)] at reached
    rw [same (Nat.le_of_lt short) reached] at isSome ⊢
    exact tree.inner digit short reached isSome

section
variable (tree : scheme.Tree cells root) (short : path.length ≤ scheme.depth)
  (reached : scheme.follow cells root path = some node)
include tree short reached

theorem Tree.ne_of_path_ne (otherShort : other.length ≤ scheme.depth) {otherNode : N}
    (otherReached : scheme.follow cells root other = some otherNode) (different : other ≠ path) :
    otherNode ≠ node := by
  rintro rfl
  exact different (tree.distinct otherShort short otherReached reached)

end

section
variable (tree : scheme.Tree cells root) (bottom : path.length = scheme.depth)
  (reached : scheme.follow cells root path = some node)
  (kept : ∀ other ≠ node, ∀ digit, cells' other digit = cells other digit)
include tree bottom reached kept

theorem Tree.write_above {path} {above : N} (short : path.length < scheme.depth)
    (aboveReached : scheme.follow cells root path = some above) (digit : ι) :
    cells' above digit = cells above digit := by
  refine kept above ?_ digit
  refine tree.ne_of_path_ne (Nat.le_of_eq bottom) reached (Nat.le_of_lt short) aboveReached ?_
  rintro rfl
  exact absurd bottom (Nat.ne_of_lt short)

theorem Tree.follow_write (short : other.length ≤ scheme.depth) :
    scheme.follow cells' root other = scheme.follow cells root other :=
  follow_congr (tree.write_above bottom reached kept) short

theorem Tree.nodes_write : scheme.nodes cells' root = scheme.nodes cells root :=
  nodes_congr (tree.follow_write bottom reached kept)

theorem Tree.write : scheme.Tree cells' root where
  distinct short otherShort reached' otherReached := by
    rw [tree.follow_write bottom reached kept short] at reached'
    rw [tree.follow_write bottom reached kept otherShort] at otherReached
    exact tree.distinct short otherShort reached' otherReached
  inner digit short reached' isSome := by
    rw [tree.follow_write bottom reached kept (Nat.le_of_lt short)] at reached'
    rw [tree.write_above bottom reached kept short reached' digit] at isSome ⊢
    exact tree.inner digit short reached' isSome

theorem Tree.value_write_same : scheme.value cells' root (digit :: path) = scheme.leaf (cells' node digit) :=
  value_cons ((tree.follow_write bottom reached kept (Nat.le_of_eq bottom)).trans reached) digit

theorem Tree.value_write_other {written : ι} (siblings : ∀ digit ≠ written, cells' node digit = cells node digit)
    (long : key.length = scheme.depth + 1) (different : key ≠ written :: path) :
    scheme.value cells' root key = scheme.value cells root key := by
  cases key with
  | nil => rfl
  | cons digit other =>
    have otherBottom : other.length = scheme.depth := Nat.succ.inj long
    rw [value, value, tree.follow_write bottom reached kept (Nat.le_of_eq otherBottom)]
    cases otherReached : scheme.follow cells root other with
    | none => rfl
    | some otherNode =>
      simp only [Option.bind_some]
      by_cases samePath : other = path
      · subst samePath
        obtain rfl : otherNode = node := Option.some.inj (otherReached.symm.trans reached)
        rw [siblings digit (fun same => different (by rw [same]))]
      · rw [kept otherNode (tree.ne_of_path_ne (Nat.le_of_eq bottom) reached
          (Nat.le_of_eq otherBottom) otherReached samePath)]

end

/-- `cells'` is `cells` with the blank node `fresh` under one cell of `node`. -/
structure Grafted (scheme : Radix N ι W V) (cells cells' : N → ι → W) (node fresh : N) (digit : ι) :
    Prop where
  kept : ∀ other ≠ fresh, ∀ d, ¬ (other = node ∧ d = digit) → cells' other d = cells other d
  child : scheme.child (cells' node digit) = some fresh
  inner : scheme.inner (cells' node digit)
  noChild : ∀ d, scheme.child (cells' fresh d) = none
  noLeaf : ∀ d, scheme.leaf (cells' fresh d) = none

section
variable (tree : scheme.Tree cells root) (above : path.length < scheme.depth)
  (reached : scheme.follow cells root path = some node) (empty : scheme.child (cells node digit) = none)
  (unused : fresh ∉ scheme.nodes cells root) (grafted : Grafted scheme cells cells' node fresh digit)
include tree above reached empty unused grafted

theorem Tree.follow_graft_cases (short : other.length ≤ scheme.depth) :
    (other = digit :: path ∧ scheme.follow cells' root other = some fresh) ∨
      (other ≠ digit :: path ∧ scheme.follow cells' root other = scheme.follow cells root other) := by
  induction other with
  | nil => exact .inr ⟨by simp, rfl⟩
  | cons d other ih =>
    have otherShort : other.length ≤ scheme.depth := Nat.le_of_succ_le short
    rcases ih otherShort with ⟨atFresh, reached'⟩ | ⟨elsewhere, same⟩
    · refine .inr ⟨?_, ?_⟩
      · intro samePath
        have lengths := congrArg List.length (atFresh.symm.trans (List.cons.inj samePath).2)
        simp at lengths
      · rw [follow_cons reached', grafted.noChild, follow, atFresh, follow_cons reached, empty]
        rfl
    · cases otherReached : scheme.follow cells root other with
      | none =>
        refine .inr ⟨?_, by simp [follow, same, otherReached]⟩
        intro samePath
        rw [(List.cons.inj samePath).2, reached] at otherReached
        cases otherReached
      | some parent =>
        have notFresh : parent ≠ fresh := by
          rintro rfl
          exact unused ⟨other, otherShort, otherReached⟩
        rw [otherReached] at same
        rw [follow_cons same, follow_cons otherReached]
        by_cases target : parent = node ∧ d = digit
        · obtain ⟨rfl, rfl⟩ := target
          have samePath := tree.distinct otherShort (Nat.le_of_lt above) otherReached reached
          exact .inl ⟨by rw [samePath], grafted.child⟩
        · refine .inr ⟨?_, by rw [grafted.kept parent notFresh d target]⟩
          intro samePath
          obtain ⟨rfl, rfl⟩ := List.cons.inj samePath
          exact target ⟨Option.some.inj (otherReached.symm.trans reached), rfl⟩

theorem Tree.follow_graft_other (short : other.length ≤ scheme.depth) (different : other ≠ digit :: path) :
    scheme.follow cells' root other = scheme.follow cells root other := by
  rcases tree.follow_graft_cases above reached empty unused grafted short with same | kept
  · exact absurd same.1 different
  · exact kept.2

theorem Tree.follow_graft_fresh : scheme.follow cells' root (digit :: path) = some fresh := by
  rcases tree.follow_graft_cases above reached empty unused grafted
    (show (digit :: path).length ≤ scheme.depth from above) with same | kept
  · exact same.2
  · exact absurd rfl kept.1

theorem Tree.nodes_graft : scheme.nodes cells' root = insert fresh (scheme.nodes cells root) := by
  ext other
  constructor
  · rintro ⟨p, short, reached'⟩
    rcases tree.follow_graft_cases above reached empty unused grafted short with ⟨_, same⟩ | ⟨_, same⟩
    · exact .inl (Option.some.inj (reached'.symm.trans same))
    · exact .inr ⟨p, short, same ▸ reached'⟩
  · rintro (rfl | ⟨p, short, reached'⟩)
    · exact ⟨digit :: path, above, tree.follow_graft_fresh above reached empty unused grafted⟩
    · refine ⟨p, short, ?_⟩
      rw [tree.follow_graft_other above reached empty unused grafted short, reached']
      rintro rfl
      rw [follow_cons reached, empty] at reached'
      cases reached'

theorem Tree.graft : scheme.Tree cells' root where
  distinct {p q n} short otherShort reached' otherReached := by
    rcases tree.follow_graft_cases above reached empty unused grafted short with
      ⟨atFresh, same⟩ | ⟨_, same⟩ <;>
    rcases tree.follow_graft_cases above reached empty unused grafted otherShort with
      ⟨otherFresh, otherSame⟩ | ⟨_, otherSame⟩
    · rw [atFresh, otherFresh]
    · obtain rfl : n = fresh := Option.some.inj (reached'.symm.trans same)
      exact absurd ⟨q, otherShort, otherSame ▸ otherReached⟩ unused
    · obtain rfl : n = fresh := Option.some.inj (otherReached.symm.trans otherSame)
      exact absurd ⟨p, short, same ▸ reached'⟩ unused
    · exact tree.distinct short otherShort (same ▸ reached') (otherSame ▸ otherReached)
  inner {p n} d short reached' isSome := by
    rcases tree.follow_graft_cases above reached empty unused grafted (Nat.le_of_lt short) with
      ⟨_, same⟩ | ⟨_, same⟩
    · obtain rfl : n = fresh := Option.some.inj (reached'.symm.trans same)
      rw [grafted.noChild d] at isSome
      cases isSome
    · rw [same] at reached'
      by_cases target : n = node ∧ d = digit
      · rw [target.1, target.2]
        exact grafted.inner
      · have notFresh : n ≠ fresh := by
          rintro rfl
          exact unused ⟨p, Nat.le_of_lt short, reached'⟩
        rw [grafted.kept n notFresh d target] at isSome ⊢
        exact tree.inner d short reached' isSome

theorem Tree.value_graft (long : key.length = scheme.depth + 1) :
    scheme.value cells' root key = scheme.value cells root key := by
  cases key with
  | nil => rfl
  | cons d other =>
    have bottom : other.length = scheme.depth := Nat.succ.inj long
    rcases tree.follow_graft_cases above reached empty unused grafted (Nat.le_of_eq bottom) with
      ⟨atFresh, same⟩ | ⟨_, same⟩
    · rw [value_cons same, grafted.noLeaf, value, atFresh, follow_cons reached, empty]
      rfl
    · rw [value, value, same]
      cases otherReached : scheme.follow cells root other with
      | none => rfl
      | some bottomNode =>
        have notFresh : bottomNode ≠ fresh := by
          rintro rfl
          exact unused ⟨other, Nat.le_of_eq bottom, otherReached⟩
        have notAbove : bottomNode ≠ node := by
          refine tree.ne_of_path_ne (Nat.le_of_lt above) reached (Nat.le_of_eq bottom) otherReached ?_
          rintro rfl
          exact absurd bottom (Nat.ne_of_lt above)
        simp only [Option.bind_some]
        rw [grafted.kept bottomNode notFresh d (fun target => notAbove target.1)]

end

/-- The nodes at `path` and under it. -/
def below (scheme : Radix N ι W V) (cells : N → ι → W) (root : N) (path : List ι) : Set N :=
  { node | ∃ rest : List ι, (rest ++ path).length ≤ scheme.depth ∧
    scheme.follow cells root (rest ++ path) = some node }

theorem below_root : scheme.below cells root [] = scheme.nodes cells root := by
  ext node
  simp [below, nodes]

theorem mem_below_iff (reached : scheme.follow cells root path = some node)
    (short : path.length ≤ scheme.depth) (other : N) : other ∈ scheme.below cells root path ↔
      other = node ∨ ∃ digit, other ∈ scheme.below cells root (digit :: path) := by
  constructor
  · rintro ⟨rest, restShort, restReached⟩
    rcases List.eq_nil_or_concat rest with rfl | ⟨front, digit, rfl⟩
    · exact .inl (Option.some.inj (restReached.symm.trans reached))
    · exact .inr ⟨digit, front, by simpa using restShort, by simpa using restReached⟩
  · rintro (rfl | ⟨digit, rest, restShort, restReached⟩)
    · exact ⟨[], short, reached⟩
    · exact ⟨rest ++ [digit], by simpa using restShort, by simpa using restReached⟩

theorem follow_append_none (missing : scheme.follow cells root path = none) (rest : List ι) :
    scheme.follow cells root (rest ++ path) = none := by
  induction rest with
  | nil => exact missing
  | cons digit rest ih => rw [List.cons_append, follow, ih, Option.bind_none]

theorem below_none (missing : scheme.follow cells root path = none) : scheme.below cells root path = ∅ := by
  ext node
  simp [below, follow_append_none missing]

theorem Tree.below_disjoint (tree : scheme.Tree cells root) {first second : ι} (different : first ≠ second) :
    Disjoint (scheme.below cells root (first :: path)) (scheme.below cells root (second :: path)) := by
  rw [Set.disjoint_left]
  rintro node ⟨rest, short, reached⟩ ⟨other, otherShort, otherReached⟩
  have same := tree.distinct short otherShort reached otherReached
  have ends := List.append_inj_right' same (by simp)
  exact different (List.cons.inj ends).1

theorem Tree.not_mem_below (tree : scheme.Tree cells root)
    (reached : scheme.follow cells root path = some node) (short : path.length ≤ scheme.depth)
    (digit : ι) : node ∉ scheme.below cells root (digit :: path) := by
  rintro ⟨rest, restShort, restReached⟩
  have lengths := congrArg List.length (tree.distinct restShort short restReached reached)
  simp at lengths
  omega

end Radix

end Kalorona.Data
