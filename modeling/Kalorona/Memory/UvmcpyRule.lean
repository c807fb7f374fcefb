import Kalorona.Memory.PageMap
import Mathlib.Data.List.Infix
import Mathlib.Data.List.Nodup
import Mathlib.Data.List.Perm.Subperm

namespace Kalorona.Memory

open Kalorona.Data Kalorona.Utilities

/-! # A rule for the recursion of `vm_uvmcpy`

The rule is about two runs in step: a relation between their states that the steps at single
entries maintain holds when both return.
-/

open LawfulPages (Sound)

def SameBytes (memory other : Memory) (frame otherFrame : Nat) : Prop :=
  ∀ offset < 4096, memory (frameVa frame + offset) = other (frameVa otherFrame + offset)

theorem suffix_head_eq {d e : Fin 512} {path other : Route} (under : d :: path <:+ other)
    (alsoUnder : e :: path <:+ other) : d = e := by
  have same := (List.suffix_of_suffix_length_le under alsoUnder (by simp)).eq_of_length (by simp)
  exact (List.cons.inj same).1

/-- The requests for the entry `pn` of the table at `path`; `below` are those of the table under it. -/
def entryRequests (met : Route → Bool) (below : Route → Nat → List Route)
    (path : Route) (pte : Nat) (pn : Fin 512) : List Route :=
  if pte &&& pteFlagV ≠ 0 ∧ (path.length = 2 → pte &&& (pteFlagR ||| pteFlagX) ≠ 0) then
    (if met (pn :: path) then [] else [pn :: path]) ++ below (pn :: path) (pteFrame pte)
  else []

/-- The pages that a copy asks for, in order, by the entries they are for: each table of the source
and each leaf that is copied, except where the destination has an entry (`met`). -/
def requests (memory : Memory) (met : Route → Bool) : Nat → Route → Nat → List Route
  | 0, path, table => (List.finRange 512).flatMap fun pn =>
    entryRequests met (fun _ _ => []) path (cells memory table pn) pn
  | level + 1, path, table => (List.finRange 512).flatMap fun pn =>
    entryRequests met (requests memory met level) path (cells memory table pn) pn

/-- The number of pages that a copy to a blank table asks for. -/
def demand (memory : Memory) (src : Nat) : Nat := (requests memory (fun _ => false) 2 [] src).length

def requestsBelow (memory : Memory) (met : Route → Bool) :
    Nat → Route → Nat → List Route
  | 0 => fun _ _ => []
  | level + 1 => requests memory met level

theorem requests_eq (memory : Memory) (met : Route → Bool) (level : Nat)
    (path : Route) (table : Nat) :
    requests memory met level path table = (List.finRange 512).flatMap fun pn =>
      entryRequests met (requestsBelow memory met level) path (cells memory table pn) pn := by
  cases level <;> rfl

theorem mem_entryRequests {met : Route → Bool}
    {deeper : Route → Nat → List Route} {path key : Route} {pte : Nat}
    {pn : Fin 512} (member : key ∈ entryRequests met deeper path pte pn) :
    pte &&& pteFlagV ≠ 0 ∧ ((key = pn :: path ∧ met key = false) ∨ key ∈ deeper (pn :: path) (pteFrame pte)) := by
  rw [entryRequests] at member
  split at member
  next wanted =>
    refine ⟨wanted.1, (List.mem_append.mp member).imp_left fun here => ?_⟩
    split at here
    · cases here
    next unmet =>
      cases List.mem_singleton.mp here
      exact ⟨rfl, eq_false_of_ne_true unmet⟩
  next => cases member

section
variable {memory memory' : Memory} {met met' : Route → Bool} {src level table : Nat}
  {path : Route}

theorem requests_congr (depth : path.length + level = 2)
    (reached : sv39.follow (cells memory) src path = some table)
    (same : ∀ {path table}, path.length ≤ 2 → sv39.follow (cells memory) src path = some table →
      ∀ pn, cells memory' table pn = cells memory table pn)
    (sameMet : ∀ path (pn : Fin 512), path.length ≤ 2 → met' (pn :: path) = met (pn :: path)) :
    requests memory' met' level path table = requests memory met level path table := by
  induction level generalizing path table with
  | zero =>
    refine congrArg (List.flatMap · _) (funext fun pn => ?_)
    rw [same (by omega) reached, entryRequests, entryRequests, sameMet path pn (by omega)]
  | succ level ih =>
    refine congrArg (List.flatMap · _) (funext fun pn => ?_)
    rw [same (by omega) reached, entryRequests, entryRequests, sameMet path pn (by omega)]
    refine if_ctx_congr Iff.rfl (fun wanted => congrArg _ (ih ?_ ?_)) fun _ => rfl
    · rw [List.length_cons]
      omega
    · exact (Radix.follow_cons reached pn).trans (if_pos wanted.1)

theorem requests_filter : requests memory met level path table =
    (requests memory (fun _ => false) level path table).filter fun key => !met key := by
  have entry : ∀ (deeper deeper' : Route → Nat → List Route) path pte (pn : Fin 512),
      (deeper' (pn :: path) (pteFrame pte)).filter (fun key => !met key) = deeper (pn :: path) (pteFrame pte) →
      (entryRequests (fun _ => false) deeper' path pte pn).filter (fun key => !met key) =
        entryRequests met deeper path pte pn := by
    intro deeper deeper' path pte pn filtered
    rw [entryRequests, entryRequests]
    split
    · cases here : met (pn :: path) <;> simp [here, filtered]
    · rfl
  induction level generalizing path table with
  | zero =>
    rw [requests, requests, List.filter_flatMap]
    exact congrArg (List.flatMap · _) (funext fun pn => (entry _ _ path _ pn rfl).symm)
  | succ level ih =>
    rw [requests, requests, List.filter_flatMap]
    exact congrArg (List.flatMap · _) (funext fun pn => (entry _ _ path _ pn ih.symm).symm)

theorem requests_le_demand : (requests memory met 2 [] src).length ≤ demand memory src := by
  rw [requests_filter]
  exact List.length_filter_le _ _

section
variable (depth : path.length + level = 2) (reached : sv39.follow (cells memory) src path = some table)
include depth reached

theorem mem_requests {key : Route} (member : key ∈ requests memory met level path table) :
    ∃ pn other node, key = pn :: other ∧ path <:+ other ∧ other.length ≤ 2 ∧ met key = false ∧
      sv39.follow (cells memory) src other = some node ∧ cells memory node pn &&& pteFlagV ≠ 0 := by
  induction level generalizing path table with
  | zero =>
    obtain ⟨pn, _, member⟩ := List.mem_flatMap.mp member
    obtain ⟨valid, ⟨rfl, unmet⟩ | nothing⟩ := mem_entryRequests member
    · exact ⟨pn, path, table, rfl, List.suffix_refl _, by omega, unmet, reached, valid⟩
    · cases nothing
  | succ level ih =>
    obtain ⟨pn, _, member⟩ := List.mem_flatMap.mp member
    obtain ⟨valid, ⟨rfl, unmet⟩ | deeper⟩ := mem_entryRequests member
    · exact ⟨pn, path, table, rfl, List.suffix_refl _, by omega, unmet, reached, valid⟩
    · obtain ⟨d, other, node, same, under, rest⟩ :=
        ih (by rw [List.length_cons]; omega) ((Radix.follow_cons reached pn).trans (if_pos valid)) deeper
      exact ⟨d, other, node, same, (List.suffix_cons pn path).trans under, rest⟩

theorem table_nodup (deeper : ∀ pn, cells memory table pn &&& pteFlagV ≠ 0 →
      (requestsBelow memory met level (pn :: path) (pteFrame (cells memory table pn))).Nodup) :
    (requests memory met level path table).Nodup := by
  -- what is asked for below an entry is asked for by longer keys
  have longer : ∀ pn, cells memory table pn &&& pteFlagV ≠ 0 →
      ∀ key ∈ requestsBelow memory met level (pn :: path) (pteFrame (cells memory table pn)),
        pn :: path <:+ key ∧ key ≠ pn :: path := by
    intro pn valid key member
    cases level with
    | zero => cases member
    | succ level =>
      obtain ⟨d, other, _, rfl, under, _⟩ := mem_requests (by rw [List.length_cons]; omega)
        ((Radix.follow_cons reached pn).trans (if_pos valid)) member
      refine ⟨under.trans (List.suffix_cons d other), fun same => ?_⟩
      have shorter := under.length_le
      rw [(List.cons.inj same).2, List.length_cons] at shorter
      omega
  have under : ∀ pn key, key ∈ entryRequests met (requestsBelow memory met level) path
      (cells memory table pn) pn → pn :: path <:+ key := by
    intro pn key member
    obtain ⟨valid, here | below⟩ := mem_entryRequests member
    · rw [here.1]
    · exact (longer pn valid key below).1
  rw [requests_eq, List.nodup_flatMap]
  refine ⟨fun pn _ => ?_, (List.nodup_finRange 512).imp fun different key inOne inOther =>
    different (suffix_head_eq (under _ key inOne) (under _ key inOther))⟩
  rw [entryRequests]
  split
  next wanted =>
    refine List.nodup_append'.mpr ⟨by split <;> simp, deeper pn wanted.1, fun key here below => ?_⟩
    refine (longer pn wanted.1 key below).2 ?_
    split at here
    · cases here
    · exact List.mem_singleton.mp here
  next => exact List.nodup_nil

theorem requests_nodup : (requests memory met level path table).Nodup := by
  induction level generalizing path table with
  | zero => exact table_nodup depth reached fun _ _ => List.nodup_nil
  | succ level ih =>
    exact table_nodup depth reached fun pn valid => ih (by rw [List.length_cons]; omega)
      ((Radix.follow_cons reached pn).trans (if_pos valid))

end

/-- A copy of what lies on the way to one page asks for a page and its tables. -/
theorem requests_length_le {toward : Route} (all : ∀ path table (pn : Fin 512), path.length ≤ 2 →
      sv39.follow (cells memory) src path = some table → cells memory table pn &&& pteFlagV ≠ 0 →
      met (pn :: path) = false → pn :: path <:+ toward) :
    (requests memory met 2 [] src).length ≤ toward.length + 1 := by
  have inside : requests memory met 2 [] src ⊆ toward.tails := by
    intro key member
    obtain ⟨pn, path, table, rfl, _, short, unmet, reached, valid⟩ := mem_requests rfl rfl member
    exact (List.mem_tails _ _).mpr (all path table pn short reached valid unmet)
  rw [← List.length_tails]
  exact ((requests_nodup rfl rfl).subperm inside).length_le

end

def below (path : Route) : Set Route := { other | path <:+ other }

theorem later_entries {path : Route} {first : Nat} (inside : first < 512) :
    below (⟨first, inside⟩ :: path) ∪ { other | ∃ d : Fin 512, first + 1 ≤ d ∧ d :: path <:+ other } =
      { other | ∃ d : Fin 512, first ≤ d ∧ d :: path <:+ other } := by
  ext other
  constructor
  · rintro (under | ⟨d, late, under⟩)
    · exact ⟨_, Nat.le_refl _, under⟩
    · exact ⟨d, by omega, under⟩
  · rintro ⟨d, late, under⟩
    by_cases here : (d : Nat) = first
    · have same : d = ⟨first, inside⟩ := Fin.ext here
      rw [same] at under
      exact .inl under
    · exact .inr ⟨d, by omega, under⟩

theorem first_entries (path : Route) : { other | ∃ d : Fin 512, 0 ≤ (d : Nat) ∧ d :: path <:+ other } =
      { other | path <:+ other ∧ other ≠ path } := by
  ext other
  constructor
  · rintro ⟨d, _, under⟩
    refine ⟨(List.suffix_cons d path).trans under, ?_⟩
    rintro rfl
    exact absurd under.length_le (by simp)
  · rintro ⟨⟨front, rfl⟩, longer⟩
    have nonempty : front ≠ [] := by
      rintro rfl
      exact longer rfl
    refine ⟨front.getLast nonempty, Nat.zero_le _, front.dropLast, ?_⟩
    rw [List.append_cons, List.dropLast_concat_getLast]

variable {σ : Type} [PageAllocator σ]

def descendOf : Nat → Option (Nat → Nat → Vmem σ → Result (Vmem σ))
  | 0 => none
  | level + 1 => some (vmUvmcpyRecursive false level)

theorem vmUvmcpyRecursive_eq (level pgtbl newPgtbl : Nat) (vm : Vmem σ) :
    vmUvmcpyRecursive false level pgtbl newPgtbl vm =
      uvmcpyEntries (descendOf level) false pgtbl newPgtbl 512 0 vm := by
  cases level <;> rfl

/-- The entry leads to the fresh page, with the flags of the source's entry. -/
def entryMade (content : Memory) (pte dstTable : Nat) (pn : Fin 512) (fresh : Nat) (pages : σ) : Vmem σ :=
  ⟨content.store64 (entryAddr (frameVa dstTable) pn) (paPte (pmaVa2Pa (frameVa fresh)) ||| pteFlags pte), pages⟩

abbrev leafCopied (memory : Memory) (pte dstTable : Nat) (pn : Fin 512) (fresh : Nat) (pages : σ) : Vmem σ :=
  entryMade (memcpy memory (frameVa fresh) (frameVa (pteFrame pte)) pageSize) pte dstTable pn fresh pages

abbrev tableMade (memory : Memory) (pte dstTable : Nat) (pn : Fin 512) (fresh : Nat) (pages : σ) : Vmem σ :=
  entryMade (handedOut memory (frameVa fresh)) pte dstTable pn fresh pages

theorem handedOut_outside {memory : Memory} {fresh frame : Nat} (different : frame ≠ fresh) :
    SameBytes (handedOut memory (frameVa fresh)) memory frame frame := by
  intro offset inside
  rw [handedOut, if_neg (frameVa_ne_zero fresh), Memory.store64_outside, Memory.store64_outside]
  all_goals
    unfold frameVa pageSize
    omega

theorem cells_handedOut (memory : Memory) (fresh : Nat) (pn : Fin 512) :
    cells (handedOut memory (frameVa fresh)) fresh pn = if pn.val < 2 then 0 else cells memory fresh pn := by
  have first : frameVa fresh = entryAddr (frameVa fresh) (0 : Fin 512) := rfl
  have second : frameVa fresh + 8 = entryAddr (frameVa fresh) (1 : Fin 512) := rfl
  rw [handedOut, if_neg (frameVa_ne_zero fresh), second]
  by_cases isSecond : pn = 1
  · rw [isSecond, cells_store_same (by decide), if_pos (by decide)]
  rw [cells_store_other fun target => isSecond target.2]
  by_cases isFirst : pn = 0
  · rw [isFirst, first, cells_store_same (by decide), if_pos (by decide)]
  rw [first, cells_store_other fun target => isFirst target.2, if_neg (by omega)]

section
variable {content memory : Memory} {pte dstTable fresh frame : Nat} {pn d : Fin 512} {pages : σ}

omit [PageAllocator σ] in
theorem cells_entryMade (bounded : fresh < 2 ^ 26) :
    cells (entryMade content pte dstTable pn fresh pages).memory dstTable pn = fresh * 1024 + pteFlags pte := by
  have small := pteFlags_lt pte
  rw [entryMade, paPte_frame bounded small]
  exact cells_store_same (by omega)

omit [PageAllocator σ] in
theorem entryMade_outside (notTable : frame ≠ dstTable) (same : SameBytes content memory frame frame) :
    SameBytes (entryMade content pte dstTable pn fresh pages).memory memory frame frame :=
  fun offset inside => (store64_outside_frame notTable inside).trans (same offset inside)

omit [PageAllocator σ] in
theorem cells_entryMade_other (target : ¬ (frame = dstTable ∧ d = pn)) (same : SameBytes content memory frame frame) :
    cells (entryMade content pte dstTable pn fresh pages).memory frame d = cells memory frame d :=
  (cells_store_other target).trans (cells_congr same d)

omit [PageAllocator σ] in
theorem cells_tableMade_fresh (different : fresh ≠ dstTable) :
    cells (tableMade memory pte dstTable pn fresh pages).memory fresh d =
      if d.val < 2 then 0 else cells memory fresh d :=
  (cells_store_other fun target => different target.1).trans (cells_handedOut memory fresh d)

theorem memcpy_page (address : Nat) : memcpy memory (frameVa fresh) (frameVa (pteFrame pte)) pageSize address =
      if frameVa fresh ≤ address ∧ address < frameVa fresh + pageSize then
        memory (frameVa (pteFrame pte) + (address - frameVa fresh)) else memory address := by
  refine memcpy_apply ?_ address
  unfold frameVa pageSize
  omega

theorem memcpy_page_outside (different : frame ≠ fresh) :
    SameBytes (memcpy memory (frameVa fresh) (frameVa (pteFrame pte)) pageSize) memory frame frame := by
  intro offset inside
  rw [memcpy_page, if_neg]
  unfold frameVa pageSize
  omega

omit [PageAllocator σ] in
theorem leafCopied_fresh (notTable : fresh ≠ dstTable) :
    SameBytes (leafCopied memory pte dstTable pn fresh pages).memory memory fresh (pteFrame pte) := by
  intro offset inside
  refine (store64_outside_frame notTable inside).trans ?_
  rw [memcpy_page, if_pos (by unfold pageSize; omega), Nat.add_sub_cancel_left]

end

section
variable {descend : Option (Nat → Nat → Vmem σ → Result (Vmem σ))}
  {run : Nat → Nat → Vmem σ → Result (Vmem σ)} {vm : Vmem σ} {pages : σ}
  {srcTable dstTable fresh pte new : Nat} {pn : Fin 512}
  (word : vm.memory.load64 (entryAddr (frameVa srcTable) pn) = pte)

include word

theorem uvmcpyEntry_invalid (invalid : pte &&& pteFlagV = 0) :
    uvmcpyEntry descend false (frameVa srcTable) (frameVa dstTable) pn vm = .ok vm := by
  unfold uvmcpyEntry
  simp only [word, invalid, if_true]
  rfl

section
variable (valid : pte &&& pteFlagV ≠ 0)
include valid

theorem uvmcpyEntry_bottom (pointer : pte &&& (pteFlagR ||| pteFlagX) = 0) :
    uvmcpyEntry none false (frameVa srcTable) (frameVa dstTable) pn vm = .ok vm := by
  unfold uvmcpyEntry
  simp only [word, valid, pointer, if_false, ne_eq, not_true_eq_false]
  rfl

theorem uvmcpyEntry_full (leaf : pte &&& (pteFlagR ||| pteFlagX) ≠ 0)
    (newWord : vm.memory.load64 (entryAddr (frameVa dstTable) pn) = new) (full : new ≠ 0) :
    uvmcpyEntry descend false (frameVa srcTable) (frameVa dstTable) pn vm = .ok vm := by
  unfold uvmcpyEntry
  simp only [word, newWord, valid, leaf, full, if_false, if_true, ne_eq, not_false_eq_true, Bool.not_false, and_self]
  rfl

theorem uvmcpyEntry_copy (leaf : pte &&& (pteFlagR ||| pteFlagX) ≠ 0)
    (empty : cells vm.memory dstTable pn = 0) (granted : allocPages 0 vm.pages = .ok (frameVa fresh, pages)) :
    uvmcpyEntry descend false (frameVa srcTable) (frameVa dstTable) pn vm =
      .ok (leafCopied vm.memory pte dstTable pn fresh pages) := by
  have newWord : vm.memory.load64 (entryAddr (frameVa dstTable) pn) = 0 := empty
  unfold uvmcpyEntry
  simp only [word, newWord, valid, leaf, granted, if_false, if_true, ne_eq, not_false_eq_true,
    not_true_eq_false, Bool.not_false, and_false, Result.ok_bind, frameVa_ne_zero, pmaPa2Va_ptePa]
  rfl

theorem uvmcpyEntry_make (pointer : pte &&& (pteFlagR ||| pteFlagX) = 0) (empty : cells vm.memory dstTable pn = 0)
    (granted : allocPages 0 vm.pages = .ok (frameVa fresh, pages)) (bounded : fresh < 2 ^ 26)
    (srcSame : cells (tableMade vm.memory pte dstTable pn fresh pages).memory srcTable pn = pte) :
    uvmcpyEntry (some run) false (frameVa srcTable) (frameVa dstTable) pn vm =
      run (frameVa (pteFrame pte)) (frameVa fresh) (tableMade vm.memory pte dstTable pn fresh pages) := by
  have newWord : vm.memory.load64 (entryAddr (frameVa dstTable) pn) = 0 := empty
  have sameWord : ((handedOut vm.memory (frameVa fresh)).store64 (entryAddr (frameVa dstTable) pn)
      (paPte (pmaVa2Pa (frameVa fresh)) ||| pteFlags pte)).load64 (entryAddr (frameVa srcTable) pn) = pte := srcSame
  have madeWord : ((handedOut vm.memory (frameVa fresh)).store64 (entryAddr (frameVa dstTable) pn)
      (paPte (pmaVa2Pa (frameVa fresh)) ||| pteFlags pte)).load64 (entryAddr (frameVa dstTable) pn) =
        fresh * 1024 + pteFlags pte := @cells_entryMade σ _ _ _ _ _ pages bounded
  unfold uvmcpyEntry
  simp only [word, newWord, valid, pointer, granted, if_false, if_true, ne_eq, not_true_eq_false,
    Result.ok_bind, pure_bind, pmaPa2Va_ptePa, sameWord, madeWord,
    pteFrame_entry fresh (pteFlags_lt pte), Nat.mod_eq_of_lt bounded]
  rfl

theorem uvmcpyEntry_descend (pointer : pte &&& (pteFlagR ||| pteFlagX) = 0)
    (newWord : vm.memory.load64 (entryAddr (frameVa dstTable) pn) = new) (full : new ≠ 0) :
    uvmcpyEntry (some run) false (frameVa srcTable) (frameVa dstTable) pn vm =
      run (frameVa (pteFrame pte)) (frameVa (pteFrame new)) vm := by
  unfold uvmcpyEntry
  simp only [word, newWord, valid, pointer, full, if_false, ne_eq, not_true_eq_false, pure_bind, pmaPa2Va_ptePa]

end

end

def CopySource (src : Nat) (start : Vmem σ) : Prop :=
  ∀ {path table} pn, path.length < 2 → sv39.follow (cells start.memory) src path = some table →
    cells start.memory table pn &&& pteFlagV ≠ 0 →
    cells start.memory table pn &&& (pteFlagR ||| pteFlagX) = 0

def Skipped (pte : Nat) (path : Route) (new : Nat) : Prop :=
  ¬ pte &&& pteFlagV ≠ 0 ∨
    (path.length = 2 ∧ (pte &&& (pteFlagR ||| pteFlagX) = 0 ∨ new ≠ 0))

/-- The next `n` requests for a page are granted, and after them those for the entries `keys`, where a
page that becomes a table fits. -/
inductive Serves (fit : Nat → Prop) : Nat → List Route → σ → Prop
  | none {pages : σ} : Serves fit 0 [] pages
  | page {n frame : Nat} {keys : List Route} {pages after : σ}
      (granted : allocPages 0 pages = .ok (frameVa frame, after)) (rest : Serves fit n keys after) :
      Serves fit (n + 1) keys pages
  | entry {fresh : Nat} {key : Route} {keys : List Route} {pages after : σ}
      (granted : allocPages 0 pages = .ok (frameVa fresh, after)) (fits : key.length < 3 → fit fresh)
      (rest : Serves fit 0 keys after) : Serves fit 0 (key :: keys) pages

section
variable {fit : Nat → Prop} {key : Route} {keys : List Route} {pages : σ}

theorem Serves.next (serves : Serves fit 0 (key :: keys) pages) :
    ∃ fresh after, allocPages 0 pages = .ok (frameVa fresh, after) ∧ (key.length < 3 → fit fresh) ∧
      Serves fit 0 keys after := by
  cases serves with
  | entry granted fits rest => exact ⟨_, _, granted, fits, rest⟩

theorem Serves.draw {n vaddr : Nat} {after : σ} (serves : Serves fit (n + 1) keys pages)
    (granted : allocPages 0 pages = .ok (vaddr, after)) : vaddr ≠ 0 ∧ Serves fit n keys after := by
  cases serves with
  | page here rest =>
    cases here.symm.trans granted
    exact ⟨frameVa_ne_zero _, rest⟩

theorem Serves.skip (all : ∀ frame, fit frame) (serves : Serves fit 0 (key :: keys) pages) :
    Serves fit 0 keys pages := by
  induction keys generalizing key pages with
  | nil => exact .none
  | cons next keys ih =>
    obtain ⟨fresh, after, granted, _, rest⟩ := serves.next
    exact .entry granted (fun _ => all fresh) (ih rest)

theorem Grants.serves [LawfulPages σ] {n m : Nat} (grants : Grants m pages) (enough : keys.length + n ≤ m)
    (sound : Sound pages) (fits : ∀ frame ∉ LawfulPages.inUse pages, fit frame) : Serves fit n keys pages := by
  replace grants := grants.mono enough
  clear enough
  induction n generalizing pages with
  | zero =>
    induction keys generalizing pages with
    | nil => exact .none
    | cons key keys ih =>
      obtain ⟨fresh, after, granted, rest⟩ := grants.next
      have page := granted_page sound granted
      exact .entry granted (fun _ => fits fresh page.unused)
        (ih page.sound (fun frame unused => fits frame fun used => unused (page.grows used)) rest)
  | succ n ih =>
    obtain ⟨fresh, after, granted, rest⟩ := grants.next
    have page := granted_page sound granted
    exact .page granted (ih page.sound (fun frame unused => fits frame fun used => unused (page.grows used)) rest)

end

/-- What the steps at an entry have to maintain; `At path table vm` says that `table` is the
table of the destination at the path.  Entries are found as `met` says, or it does not matter which
page a request gets. -/
structure CopyRule [LawfulPages σ] (src : Nat) (start : Vmem σ) (met : Route → Bool)
    (fit : Nat → Prop) (Inv : Set Route → Vmem σ → Vmem σ → Prop)
    (At : Route → Nat → Vmem σ → Prop) : Prop where
  sound : ∀ {done vm vm'}, Inv done vm vm' → Sound vm.pages
  samePages : ∀ {done vm vm'}, Inv done vm vm' → vm'.pages = vm.pages
  source : ∀ {done vm vm' path table}, Inv done vm vm' → path.length ≤ 2 →
    sv39.follow (cells start.memory) src path = some table → ∀ pn,
    cells vm.memory table pn = cells start.memory table pn ∧
      cells vm'.memory table pn = cells start.memory table pn
  target : ∀ {done vm vm' path table}, Inv done vm vm' → At path table vm → path.length ≤ 2 →
    ∀ pn, cells vm'.memory table pn = cells vm.memory table pn
  expected : ∀ {done vm vm' path dstTable} {pn : Fin 512}, Inv done vm vm' → At path dstTable vm →
    path.length ≤ 2 → pn :: path ∉ done →
    (cells vm.memory dstTable pn = 0 ↔ met (pn :: path) = false) ∨
      (met (pn :: path) = false ∧ ∀ frame, fit frame)
  skip : ∀ {done vm vm' path srcTable dstTable} {pn : Fin 512}, Inv done vm vm' →
    At path dstTable vm → path.length ≤ 2 →
    sv39.follow (cells start.memory) src path = some srcTable → pn :: path ∉ done →
    Skipped (cells start.memory srcTable pn) path (cells vm.memory dstTable pn) →
    Inv (done ∪ below (pn :: path)) vm vm'
  leaf : ∀ {done vm vm' after after' path srcTable dstTable fresh pages} {pn : Fin 512}, Inv done vm vm' →
    At path dstTable vm → path.length = 2 →
    sv39.follow (cells start.memory) src path = some srcTable → pn :: path ∉ done →
    cells start.memory srcTable pn &&& pteFlagV ≠ 0 →
    cells start.memory srcTable pn &&& (pteFlagR ||| pteFlagX) ≠ 0 →
    cells vm.memory dstTable pn = 0 → Granted fresh vm.pages pages →
    after = leafCopied vm.memory (cells start.memory srcTable pn) dstTable pn fresh pages →
    after' = leafCopied vm'.memory (cells start.memory srcTable pn) dstTable pn fresh pages →
    Inv (done ∪ below (pn :: path)) after after' ∧ ∀ other table, At other table vm → At other table after
  table : ∀ {done vm vm' after after' path srcTable dstTable fresh pages} {pn : Fin 512}, Inv done vm vm' →
    At path dstTable vm → path.length < 2 →
    sv39.follow (cells start.memory) src path = some srcTable → pn :: path ∉ done →
    cells start.memory srcTable pn &&& pteFlagV ≠ 0 → cells vm.memory dstTable pn = 0 →
    Granted fresh vm.pages pages → fit fresh →
    after = tableMade vm.memory (cells start.memory srcTable pn) dstTable pn fresh pages →
    after' = tableMade vm'.memory (cells start.memory srcTable pn) dstTable pn fresh pages →
    Inv (insert (pn :: path) done) after after' ∧ At (pn :: path) fresh after ∧
      ∀ other table, At other table vm → At other table after
  pointer : ∀ {done vm vm' path srcTable dstTable} {pn : Fin 512}, Inv done vm vm' →
    At path dstTable vm → path.length < 2 →
    sv39.follow (cells start.memory) src path = some srcTable → pn :: path ∉ done →
    cells start.memory srcTable pn &&& pteFlagV ≠ 0 → cells vm.memory dstTable pn ≠ 0 →
    Inv (insert (pn :: path) done) vm vm' ∧
      At (pn :: path) (pteFrame (cells vm.memory dstTable pn)) vm

variable [LawfulPages σ] {src : Nat} {start vm vm' : Vmem σ} {met : Route → Bool}
  {fit : Nat → Prop} {Inv : Set Route → Vmem σ → Vmem σ → Prop}
  {At : Route → Nat → Vmem σ → Prop}

def Maintains (fit : Nat → Prop) (Inv : Set Route → Vmem σ → Vmem σ → Prop)
    (At : Route → Nat → Vmem σ → Prop) (done : Set Route)
    (rest : List Route) (run : Vmem σ → Result (Vmem σ)) (vm vm' : Vmem σ) : Prop :=
  ∃ after after', run vm = .ok after ∧ run vm' = .ok after' ∧ Inv done after after' ∧
    (∀ path table, At path table vm → At path table after) ∧ Serves fit 0 rest after.pages

section
variable (rule : CopyRule src start met fit Inv At) (source : CopySource src start)
  {level : Nat} {rest : List Route} {path : Route} {done : Set Route}
  {srcTable dstTable : Nat} {pn : Fin 512}
include rule

section
variable (holds : Inv done vm vm') (place : At path dstTable vm)
include holds place

theorem CopyRule.requested
    (short : path.length ≤ 2) (new : pn :: path ∉ done) (empty : cells vm.memory dstTable pn = 0)
    (serves : Serves fit 0 ((if met (pn :: path) then [] else [pn :: path]) ++ rest) vm.pages) :
    Serves fit 0 ((pn :: path) :: rest) vm.pages := by
  have unmet : met (pn :: path) = false := by
    rcases rule.expected holds place short new with exact | ⟨unmet, _⟩
    · exact exact.mp empty
    · exact unmet
  rwa [unmet] at serves

theorem CopyRule.unrequested
    (short : path.length ≤ 2) (new : pn :: path ∉ done) (full : cells vm.memory dstTable pn ≠ 0)
    (serves : Serves fit 0 ((if met (pn :: path) then [] else [pn :: path]) ++ rest) vm.pages) :
    Serves fit 0 rest vm.pages := by
  rcases rule.expected holds place short new with exact | ⟨unmet, all⟩
  · rwa [if_pos (eq_true_of_ne_false (mt exact.mpr full))] at serves
  · rw [unmet] at serves
    exact serves.skip all

theorem CopyRule.entry_leaf (bottom : path.length = 2)
    (reached : sv39.follow (cells start.memory) src path = some srcTable)
    (new : pn :: path ∉ done) (valid : cells start.memory srcTable pn &&& pteFlagV ≠ 0)
    (serves : Serves fit 0 (entryRequests met (fun _ _ => []) path (cells start.memory srcTable pn) pn ++
      rest) vm.pages) : Maintains fit Inv At (done ∪ below (pn :: path)) rest
      (uvmcpyEntry none false (frameVa srcTable) (frameVa dstTable) pn) vm vm' := by
  have short := Nat.le_of_eq bottom
  obtain ⟨srcWord, srcWord'⟩ := rule.source holds short reached pn
  have dstWord' := rule.target holds place short pn
  have skip := rule.skip holds place short reached new
  by_cases leaf : cells start.memory srcTable pn &&& (pteFlagR ||| pteFlagX) = 0
  · rw [entryRequests, if_neg fun wanted => wanted.2 bottom leaf] at serves
    exact ⟨vm, vm', uvmcpyEntry_bottom srcWord valid leaf, uvmcpyEntry_bottom srcWord' valid leaf,
      skip (.inr ⟨bottom, .inl leaf⟩), fun _ _ place => place, serves⟩
  rw [entryRequests, if_pos ⟨valid, fun _ => leaf⟩, List.append_nil] at serves
  by_cases empty : cells vm.memory dstTable pn = 0
  · obtain ⟨fresh, pages, granted, _, left⟩ := (rule.requested holds place short new empty serves).next
    obtain ⟨after, mono⟩ := rule.leaf holds place bottom reached new valid leaf empty
      (granted_page (rule.sound holds) granted) rfl rfl
    exact ⟨_, _, uvmcpyEntry_copy srcWord valid leaf empty granted,
      uvmcpyEntry_copy srcWord' valid leaf (dstWord'.trans empty) (rule.samePages holds ▸ granted),
      after, mono, left⟩
  · exact ⟨vm, vm', uvmcpyEntry_full srcWord valid leaf rfl empty,
      uvmcpyEntry_full srcWord' valid leaf dstWord' empty, skip (.inr ⟨bottom, .inr empty⟩),
      fun _ _ place => place, rule.unrequested holds place short new empty serves⟩

end

theorem CopyRule.entry_pointer {lower : Nat} {run : Nat → Nat → Vmem σ → Result (Vmem σ)}
    (deeper : ∀ {done vm vm' dstChild}, Inv done vm vm' → At (pn :: path) dstChild vm →
      (∀ other ∈ done, pn :: path <:+ other → other = pn :: path) →
      Serves fit 0 (requests start.memory met lower (pn :: path)
        (pteFrame (cells start.memory srcTable pn)) ++ rest) vm.pages →
      Maintains fit Inv At (done ∪ { other | pn :: path <:+ other ∧ other ≠ pn :: path }) rest
        (run (frameVa (pteFrame (cells start.memory srcTable pn))) (frameVa dstChild)) vm vm')
    (holds : Inv done vm vm') (place : At path dstTable vm) (above : path.length < 2)
    (reached : sv39.follow (cells start.memory) src path = some srcTable)
    (new : ∀ other ∈ done, ¬ pn :: path <:+ other) (valid : cells start.memory srcTable pn &&& pteFlagV ≠ 0)
    (pointer : cells start.memory srcTable pn &&& (pteFlagR ||| pteFlagX) = 0)
    (serves : Serves fit 0 (entryRequests met (requests start.memory met lower) path
      (cells start.memory srcTable pn) pn ++ rest) vm.pages) : Maintains fit Inv At (done ∪ below (pn :: path)) rest
      (uvmcpyEntry (some run) false (frameVa srcTable) (frameVa dstTable) pn) vm vm' := by
  have short := Nat.le_of_lt above
  obtain ⟨srcWord, srcWord'⟩ := rule.source holds short reached pn
  have dstWord' := rule.target holds place short pn
  have here : pn :: path ∉ done := fun member => new _ member (List.suffix_refl _)
  have later : ∀ other ∈ insert (pn :: path) done, pn :: path <:+ other → other = pn :: path := by
    rintro other (rfl | old) under
    · rfl
    · exact absurd under (new other old)
  have union : insert (pn :: path) done ∪ { other | pn :: path <:+ other ∧ other ≠ pn :: path } =
      done ∪ below (pn :: path) := by
    ext other
    by_cases same : other = pn :: path
    · simp [same, below]
    · simp [same, below]
  rw [entryRequests, if_pos ⟨valid, fun bottom => by omega⟩, List.append_assoc] at serves
  by_cases empty : cells vm.memory dstTable pn = 0
  · obtain ⟨fresh, pages, granted, fits, left⟩ := (rule.requested holds place short here empty serves).next
    have page := granted_page (rule.sound holds) granted
    obtain ⟨made, child, kept⟩ := rule.table holds place above reached here valid empty page
      (fits (by rw [List.length_cons]; omega)) rfl rfl
    obtain ⟨srcSame, srcSame'⟩ := rule.source made short reached pn
    obtain ⟨after, after', returned, returned', holdsAfter, keptAfter, restAfter⟩ := deeper made child later left
    rw [union] at holdsAfter
    refine ⟨after, after', ?_, ?_, holdsAfter,
      fun other table at_ => keptAfter other table (kept other table at_), restAfter⟩
    · exact (uvmcpyEntry_make srcWord valid pointer empty granted page.bounded srcSame).trans returned
    · exact (uvmcpyEntry_make srcWord' valid pointer (dstWord'.trans empty)
        (rule.samePages holds ▸ granted) page.bounded srcSame').trans returned'
  · obtain ⟨holds', child⟩ := rule.pointer holds place above reached here valid empty
    obtain ⟨after, after', returned, returned', holdsAfter, kept, restAfter⟩ :=
      deeper holds' child later (rule.unrequested holds place short here empty serves)
    rw [union] at holdsAfter
    exact ⟨after, after', (uvmcpyEntry_descend srcWord valid pointer rfl empty).trans returned,
      (uvmcpyEntry_descend srcWord' valid pointer dstWord' empty).trans returned', holdsAfter, kept,
      restAfter⟩

def Recursion (src : Nat) (start : Vmem σ) (met : Route → Bool) (fit : Nat → Prop)
    (Inv : Set Route → Vmem σ → Vmem σ → Prop)
    (At : Route → Nat → Vmem σ → Prop) (level : Nat) : Prop :=
  ∀ (path : Route) (srcTable dstTable : Nat) (rest : List Route)
    (done : Set Route) (vm vm' : Vmem σ), path.length + level = 2 → Inv done vm vm' →
    At path dstTable vm → sv39.follow (cells start.memory) src path = some srcTable →
    (∀ other ∈ done, path <:+ other → other = path) →
    Serves fit 0 (requests start.memory met level path srcTable ++ rest) vm.pages →
    Maintains fit Inv At (done ∪ { other | path <:+ other ∧ other ≠ path }) rest
      (vmUvmcpyRecursive false level (frameVa srcTable) (frameVa dstTable)) vm vm'

include source

section
variable (deeper : ∀ lower, level = lower + 1 → Recursion src start met fit Inv At lower)
  (depth : path.length + level = 2)
include deeper depth

theorem CopyRule.entry (holds : Inv done vm vm') (place : At path dstTable vm)
    (reached : sv39.follow (cells start.memory) src path = some srcTable)
    (new : ∀ other ∈ done, ¬ pn :: path <:+ other)
    (serves : Serves fit 0 (entryRequests met (requestsBelow start.memory met level) path
      (cells start.memory srcTable pn) pn ++ rest) vm.pages) : Maintains fit Inv At (done ∪ below (pn :: path)) rest
      (uvmcpyEntry (descendOf level) false (frameVa srcTable) (frameVa dstTable) pn) vm vm' := by
  have here : pn :: path ∉ done := fun member => new _ member (List.suffix_refl _)
  by_cases valid : cells start.memory srcTable pn &&& pteFlagV ≠ 0
  · cases level with
    | zero => exact rule.entry_leaf holds place depth reached here valid serves
    | succ lower =>
      have above : path.length < 2 := by omega
      have child : sv39.follow (cells start.memory) src (pn :: path) = some _ :=
        (Radix.follow_cons reached pn).trans (if_pos valid)
      have depth' : (pn :: path).length + lower = 2 := by
        rw [List.length_cons]
        omega
      exact rule.entry_pointer (fun holds place new serves =>
          deeper lower rfl _ _ _ _ _ _ _ depth' holds place child new serves)
        holds place above reached new valid (source pn above reached valid) serves
  · obtain ⟨srcWord, srcWord'⟩ := rule.source holds (by omega) reached pn
    rw [entryRequests, if_neg fun wanted => valid wanted.1] at serves
    exact ⟨vm, vm', uvmcpyEntry_invalid srcWord (not_not.mp valid), uvmcpyEntry_invalid srcWord' (not_not.mp valid),
      rule.skip holds place (by omega) reached here (.inl valid), fun _ _ at_ => at_, serves⟩

theorem CopyRule.entries {count first : Nat} (room : first + count = 512) (holds : Inv done vm vm')
    (place : At path dstTable vm) (reached : sv39.follow (cells start.memory) src path = some srcTable)
    (new : ∀ other ∈ done, ∀ d : Fin 512, first ≤ d → ¬ d :: path <:+ other)
    (serves : Serves fit 0 (((List.finRange 512).drop first).flatMap (fun pn =>
      entryRequests met (requestsBelow start.memory met level) path (cells start.memory srcTable pn) pn) ++
        rest) vm.pages) :
    Maintains fit Inv At (done ∪ { other | ∃ d : Fin 512, first ≤ d ∧ d :: path <:+ other }) rest
      (uvmcpyEntries (descendOf level) false (frameVa srcTable) (frameVa dstTable) count first) vm vm' := by
  induction count generalizing first vm vm' done with
  | zero =>
    have nothing : done ∪ { other | ∃ d : Fin 512, first ≤ d ∧ d :: path <:+ other } = done := by
      refine Set.union_eq_self_of_subset_right ?_
      rintro other ⟨d, late, _⟩
      omega
    rw [List.drop_eq_nil_of_le (by rw [List.length_finRange]; omega)] at serves
    rw [nothing]
    exact ⟨vm, vm', rfl, rfl, holds, fun _ _ at_ => at_, serves⟩
  | succ count ih =>
    have inside : first < 512 := by omega
    rw [List.drop_eq_getElem_cons (by rwa [List.length_finRange]), List.getElem_finRange,
      List.flatMap_cons, List.append_assoc] at serves
    obtain ⟨middle, middle', entry, entry', holdsMiddle, kept, left⟩ :=
      @CopyRule.entry _ _ _ _ _ _ _ _ _ _ _ rule source _ _ path done srcTable dstTable ⟨first, inside⟩
        deeper depth holds place reached (fun other old => new other old _ (Nat.le_refl _)) serves
    have later : ∀ other ∈ done ∪ below (⟨first, inside⟩ :: path), ∀ d : Fin 512,
        first + 1 ≤ d → ¬ d :: path <:+ other := by
      rintro other (old | under) d late deeperUnder
      · exact new other old d (by omega) deeperUnder
      · rw [← suffix_head_eq under deeperUnder] at late
        exact absurd late (Nat.not_succ_le_self first)
    obtain ⟨after, after', run, run', holdsAfter, keptAfter, restAfter⟩ :=
      ih (by omega) holdsMiddle (kept _ _ place) later left
    rw [Set.union_assoc, later_entries] at holdsAfter
    refine ⟨after, after', ?_, ?_, holdsAfter, fun other table at_ => keptAfter _ _ (kept _ _ at_), restAfter⟩
    · rw [uvmcpyEntries, entry]
      exact run
    · rw [uvmcpyEntries, entry']
      exact run'

end

theorem CopyRule.recursion (level : Nat) : Recursion src start met fit Inv At level := by
  have step : ∀ level, (∀ lower, level = lower + 1 → Recursion src start met fit Inv At lower) →
      Recursion src start met fit Inv At level := by
    intro level deeper path srcTable dstTable rest done vm vm' depth holds place reached new serves
    rw [requests_eq, ← @List.drop_zero _ (List.finRange 512)] at serves
    have fresh : ∀ other ∈ done, ∀ d : Fin 512, 0 ≤ (d : Nat) → ¬ d :: path <:+ other := by
      intro other old d _ under
      have same := new other old ((List.suffix_cons d path).trans under)
      rw [same] at under
      exact absurd under.length_le (by simp)
    have entries := rule.entries source deeper depth (Nat.zero_add 512) holds place reached fresh serves
    rw [first_entries] at entries
    rwa [show vmUvmcpyRecursive false level (frameVa srcTable) (frameVa dstTable) = _ from
      funext (vmUvmcpyRecursive_eq level _ _)]
  induction level with
  | zero => exact step 0 nofun
  | succ level ih =>
    refine step (level + 1) (fun lower same => ?_)
    obtain rfl : level = lower := Nat.succ.inj same
    exact ih

theorem CopyRule.vmUvmcpy {dst : Nat} (holds : Inv ∅ vm vm') (place : At [] dst vm)
    (serves : Serves fit 0 (requests start.memory met 2 [] src) vm.pages) :
    ∃ after after', vmUvmcpy (frameVa src) (frameVa dst) false vm = .ok after ∧
      vmUvmcpy (frameVa src) (frameVa dst) false vm' = .ok after' ∧
      Inv { path | path ≠ [] } after after' := by
  rw [← List.append_nil (requests start.memory met 2 [] src)] at serves
  obtain ⟨after, after', run, run', holdsAfter, _⟩ :=
    rule.recursion source 2 [] src dst [] ∅ vm vm' rfl holds place rfl nofun serves
  refine ⟨after, after', run, run', ?_⟩
  simpa using holdsAfter

end

end Kalorona.Memory
