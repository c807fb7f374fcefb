import Kalorona.Data.Sweep
import Kalorona.Utilities.Qsort

namespace Kalorona.Device

open Kalorona.Data Kalorona.Utilities

/-! # Available RAM

`device_calc_available_ram` rounds the reserved regions outward to pages, sorts begins and ends
separately and sweeps over both arrays, which are lists here, consumed from the front where the
source advances an index.
-/

structure RamSegment where
  paBegin : Nat
  paLen : Nat
deriving DecidableEq, Repr

/-- What one round of the sweep does: the position, the change of the nesting
depth and the endpoints that are left. -/
structure SweepEvent where
  pos : Nat
  val : Int
  begins : List Nat
  ends : List Nat

def sweepEvent : List Nat → List Nat → Option SweepEvent
  | [], [] => none
  | [], pos :: ends => some { pos, val := -1, begins := [], ends }
  | pos :: begins, [] => some { pos, val := 1, begins, ends := [] }
  | nextBegin :: begins, nextEnd :: ends =>
    if nextBegin = nextEnd then
      -- All endpoints at this position are taken in one round.
      let restBegins := (nextBegin :: begins).dropWhile (· = nextBegin)
      let restEnds := (nextEnd :: ends).dropWhile (· = nextBegin)
      some {
        pos := nextBegin
        val := (((nextBegin :: begins).length - restBegins.length : Nat) : Int) -
          (((nextEnd :: ends).length - restEnds.length : Nat) : Int)
        begins := restBegins
        ends := restEnds }
    else if nextBegin < nextEnd then
      some { pos := nextBegin, val := 1, begins, ends := nextEnd :: ends }
    else
      some { pos := nextEnd, val := -1, begins := nextBegin :: begins, ends }

/-- The sweep loop.  Each round consumes an endpoint, so the number of endpoints
is enough fuel. -/
def sweepLoop : Nat → List Nat → List Nat → Int → Nat → List RamSegment → List RamSegment
  | 0, _, _, _, _, segments => segments
  | fuel + 1, begins, ends, acc, lastPtr, segments =>
    match sweepEvent begins ends with
    | none => segments
    | some event =>
      let newAcc := acc + event.val
      if newAcc = 0 ∧ acc > 0 then
        sweepLoop fuel event.begins event.ends newAcc event.pos segments
      else if newAcc > 0 ∧ acc = 0 ∧ event.pos > lastPtr then
        sweepLoop fuel event.begins event.ends newAcc lastPtr
          (segments ++ [{ paBegin := lastPtr, paLen := event.pos - lastPtr }])
      else
        sweepLoop fuel event.begins event.ends newAcc lastPtr segments

/-- `reserved` holds the begin and end that the device tree walk has recorded
for each reserved region. -/
def deviceCalcAvailableRam (ram : RamSegment) (kernelImgPaEnd : Nat)
    (reserved : List (Nat × Nat)) : Result (List RamSegment) := do
  -- to avoid the kernel image
  let regions := reserved ++ [(ram.paBegin, kernelImgPaEnd)]
  -- align the memory page
  let aligned := regions.map fun region => (pageRoundDown region.1, pageRoundUp region.2)
  -- boundary
  let bounded := aligned ++ [(pageRoundDown (ulong (ram.paBegin + ram.paLen)), 2 ^ 64 - 1)]
  let begins ← qsort (bounded.map Prod.fst) bounded.length
  let ends ← qsort (bounded.map Prod.snd) bounded.length
  return sweepLoop (begins.length + ends.length) begins ends 0 ram.paBegin []

/-- The sweep has consumed `doneBegins` and `doneEnds`.  While the depth is zero,
the consumed endpoints balance at every point from `lastPtr` on. -/
structure Sweeping (allBegins allEnds begins ends : List Nat) (acc : Int) (lastPtr : Nat)
    (doneBegins doneEnds : List Nat) : Prop where
  beginsSplit : allBegins = doneBegins ++ begins
  endsSplit : allEnds = doneEnds ++ ends
  depth : acc = (doneBegins.length : Int) - doneEnds.length
  nonnegative : 0 ≤ acc
  ahead : ∀ done ∈ doneBegins ++ doneEnds, ∀ rest ∈ begins ++ ends, done ≤ rest
  balanced : acc = 0 → ∀ point ≥ lastPtr, upTo doneBegins point = upTo doneEnds point

/-- A stretch without reservations, from the end of one to the begin of another. -/
structure Emitted (allBegins allEnds : List Nat) (start : Nat) (segment : RamSegment) : Prop where
  nonempty : 0 < segment.paLen
  fromEnd : segment.paBegin = start ∨ segment.paBegin ∈ allEnds
  toBegin : segment.paBegin + segment.paLen ∈ allBegins
  free : ∀ point, segment.paBegin ≤ point → point < segment.paBegin + segment.paLen →
    upTo allBegins point = upTo allEnds point

/-- One round takes equal endpoints off the front of the two lists, at the
smallest remaining position, and begins before ends. -/
structure SweepRound (begins ends : List Nat) (event : SweepEvent)
    (usedBegins usedEnds : List Nat) : Prop where
  begins : begins = usedBegins ++ event.begins
  ends : ends = usedEnds ++ event.ends
  atPos : ∀ used ∈ usedBegins ++ usedEnds, used = event.pos
  val : event.val = (usedBegins.length : Int) - usedEnds.length
  minimal : ∀ rest ∈ event.begins ++ event.ends, event.pos ≤ rest
  endsLast : usedEnds ≠ [] → ∀ rest ∈ event.begins, event.pos < rest

theorem dropWhile_equal (pos : Nat) {values : List Nat}
    (sorted : values.Pairwise (· ≤ ·)) (least : ∀ value ∈ values, pos ≤ value) :
    ∃ used, values = used ++ values.dropWhile (· = pos) ∧ (∀ value ∈ used, value = pos) ∧
      ∀ rest ∈ values.dropWhile (· = pos), pos < rest := by
  induction values with
  | nil => exact ⟨[], rfl, by simp, by simp⟩
  | cons first rest ih =>
    obtain ⟨firstLe, sortedRest⟩ := List.pairwise_cons.mp sorted
    by_cases same : first = pos
    · obtain ⟨used, split, equal, beyond⟩ :=
        ih sortedRest (fun value member => least value (List.mem_cons_of_mem _ member))
      rw [List.dropWhile_cons_of_pos (by simpa using same)]
      refine ⟨first :: used, by rw [List.cons_append, ← split], ?_, beyond⟩
      intro value member
      rcases List.mem_cons.mp member with head | tail
      · exact head.trans same
      · exact equal value tail
    · rw [List.dropWhile_cons_of_neg (by simpa using same)]
      refine ⟨[], rfl, by simp, ?_⟩
      have firstBeyond : pos < first := Nat.lt_of_le_of_ne (least first List.mem_cons_self) (Ne.symm same)
      intro value member
      rcases List.mem_cons.mp member with head | tail
      · rw [head]
        exact firstBeyond
      · exact Nat.lt_of_lt_of_le firstBeyond (firstLe value tail)

variable {begins ends : List Nat}

theorem sweepEvent_round {event : SweepEvent}
    (sortedBegins : begins.Pairwise (· ≤ ·)) (sortedEnds : ends.Pairwise (· ≤ ·))
    (next : sweepEvent begins ends = some event) :
    ∃ usedBegins usedEnds, SweepRound begins ends event usedBegins usedEnds ∧
      usedBegins ++ usedEnds ≠ [] ∧ (usedBegins ≠ [] → ∀ rest ∈ event.ends, event.pos < rest) := by
  match begins, ends with
  | [], [] => simp [sweepEvent] at next
  | [], pos :: ends =>
    simp only [sweepEvent, Option.some.injEq] at next
    subst event
    obtain ⟨leastEnd, _⟩ := List.pairwise_cons.mp sortedEnds
    exact ⟨[], [pos], ⟨rfl, rfl, by simp, by simp, by simpa using leastEnd, by simp⟩, by simp, by simp⟩
  | pos :: begins, [] =>
    simp only [sweepEvent, Option.some.injEq] at next
    subst event
    obtain ⟨leastBegin, _⟩ := List.pairwise_cons.mp sortedBegins
    exact ⟨[pos], [], ⟨rfl, rfl, by simp, by simp, by simpa using leastBegin, by simp⟩, by simp, by simp⟩
  | nextBegin :: begins, nextEnd :: ends =>
    obtain ⟨leastBegin, _⟩ := List.pairwise_cons.mp sortedBegins
    obtain ⟨leastEnd, _⟩ := List.pairwise_cons.mp sortedEnds
    simp only [sweepEvent] at next
    by_cases tie : nextBegin = nextEnd
    · rw [if_pos tie, Option.some.injEq] at next
      subst event nextEnd
      obtain ⟨usedBegins, splitBegins, equalBegins, beyondBegins⟩ :=
        dropWhile_equal nextBegin sortedBegins (by simpa using leastBegin)
      obtain ⟨usedEnds, splitEnds, equalEnds, beyondEnds⟩ :=
        dropWhile_equal nextBegin sortedEnds (by simpa using leastEnd)
      refine ⟨usedBegins, usedEnds, ⟨splitBegins, splitEnds, ?_, ?_, ?_, fun _ => beyondBegins⟩, ?_,
        fun _ => beyondEnds⟩
      · intro used member
        rcases List.mem_append.mp member with inBegins | inEnds
        · exact equalBegins used inBegins
        · exact equalEnds used inEnds
      · have countBegins := congrArg List.length splitBegins
        have countEnds := congrArg List.length splitEnds
        simp only [List.length_append] at countBegins countEnds
        simp only
        omega
      · intro rest member
        rcases List.mem_append.mp member with inBegins | inEnds
        · exact Nat.le_of_lt (beyondBegins rest inBegins)
        · exact Nat.le_of_lt (beyondEnds rest inEnds)
      · intro none
        rw [(List.append_eq_nil_iff.mp none).1, List.nil_append] at splitBegins
        exact Nat.lt_irrefl _ (beyondBegins nextBegin (splitBegins ▸ List.mem_cons_self))
    · rw [if_neg tie] at next
      by_cases earlier : nextBegin < nextEnd
      · rw [if_pos earlier, Option.some.injEq] at next
        subst event
        have beyond : ∀ rest ∈ nextEnd :: ends, nextBegin < rest := by
          intro rest member
          rcases List.mem_cons.mp member with head | tail
          · rw [head]
            exact earlier
          · exact Nat.lt_of_lt_of_le earlier (leastEnd rest tail)
        refine ⟨[nextBegin], [], ⟨rfl, rfl, by simp, by simp, ?_, by simp⟩, by simp, fun _ => beyond⟩
        intro rest member
        rcases List.mem_append.mp member with inBegins | inEnds
        · exact leastBegin rest inBegins
        · exact Nat.le_of_lt (beyond rest inEnds)
      · rw [if_neg earlier, Option.some.injEq] at next
        subst event
        have later : nextEnd < nextBegin := by omega
        have beyond : ∀ rest ∈ nextBegin :: begins, nextEnd < rest := by
          intro rest member
          rcases List.mem_cons.mp member with head | tail
          · rw [head]
            exact later
          · exact Nat.lt_of_lt_of_le later (leastBegin rest tail)
        refine ⟨[], [nextEnd], ⟨rfl, rfl, by simp, by simp, ?_, fun _ => beyond⟩, by simp, by simp⟩
        intro rest member
        rcases List.mem_append.mp member with inBegins | inEnds
        · exact Nat.le_of_lt (beyond rest inBegins)
        · exact leastEnd rest inEnds

section
variable {allBegins allEnds begins ends doneBegins doneEnds usedBegins usedEnds : List Nat}
  {acc : Int} {lastPtr : Nat} {event : SweepEvent}

theorem Sweeping.round (sweeping : Sweeping allBegins allEnds begins ends acc lastPtr doneBegins doneEnds)
    (sortedBegins : allBegins.Pairwise (· ≤ ·)) (sortedEnds : allEnds.Pairwise (· ≤ ·))
    (next : sweepEvent begins ends = some event) :
    ∃ usedBegins usedEnds, SweepRound begins ends event usedBegins usedEnds ∧
      usedBegins ++ usedEnds ≠ [] ∧ (usedBegins ≠ [] → ∀ rest ∈ event.ends, event.pos < rest) := by
  rw [sweeping.beginsSplit] at sortedBegins
  rw [sweeping.endsSplit] at sortedEnds
  exact sweepEvent_round (List.pairwise_append.mp sortedBegins).2.1 (List.pairwise_append.mp sortedEnds).2.1 next

theorem SweepRound.begins_used (round : SweepRound begins ends event usedBegins usedEnds)
    (rises : 0 < event.val) : usedBegins ≠ [] := by
  have val := round.val
  intro none
  simp only [none, List.length_nil] at val
  omega

theorem SweepRound.ends_used (round : SweepRound begins ends event usedBegins usedEnds)
    (falls : event.val < 0) : usedEnds ≠ [] := by
  have val := round.val
  intro none
  simp only [none, List.length_nil] at val
  omega

private theorem upTo_equal {pos : Nat} {left right : List Nat} (sameLength : left.length = right.length)
    (atPos : ∀ value ∈ left ++ right, value = pos) (point : Nat) :
    upTo left point = upTo right point := by
  have atLeft := fun value (member : value ∈ left) => atPos value (List.mem_append_left _ member)
  have atRight := fun value (member : value ∈ right) => atPos value (List.mem_append_right _ member)
  by_cases reached : pos ≤ point
  · rw [upTo_eq_length (fun value member => by rw [atLeft value member]; exact reached),
      upTo_eq_length (fun value member => by rw [atRight value member]; exact reached), sameLength]
  · rw [upTo_eq_zero (fun value member => by rw [atLeft value member]; omega),
      upTo_eq_zero (fun value member => by rw [atRight value member]; omega)]

section
variable (sweeping : Sweeping allBegins allEnds begins ends acc lastPtr doneBegins doneEnds)
include sweeping

theorem Sweeping.done_le
    (round : SweepRound begins ends event usedBegins usedEnds) (used : usedBegins ++ usedEnds ≠ []) :
    (∀ done ∈ doneBegins ++ usedBegins, done ≤ event.pos) ∧
      ∀ done ∈ doneEnds ++ usedEnds, done ≤ event.pos := by
  obtain ⟨witness, isUsed⟩ := List.exists_mem_of_ne_nil _ used
  have isNext : witness ∈ begins ++ ends := by
    rw [round.begins, round.ends]
    rcases List.mem_append.mp isUsed with inBegins | inEnds
    · exact List.mem_append_left _ (List.mem_append_left _ inBegins)
    · exact List.mem_append_right _ (List.mem_append_left _ inEnds)
  have old : ∀ done ∈ doneBegins ++ doneEnds, done ≤ event.pos := by
    intro done member
    rw [← round.atPos witness isUsed]
    exact sweeping.ahead done member witness isNext
  constructor
  · intro done member
    rcases List.mem_append.mp member with before | now
    · exact old done (List.mem_append_left _ before)
    · exact Nat.le_of_eq (round.atPos done (List.mem_append_left _ now))
  · intro done member
    rcases List.mem_append.mp member with before | now
    · exact old done (List.mem_append_right _ before)
    · exact Nat.le_of_eq (round.atPos done (List.mem_append_right _ now))

section
variable (dominated : ∀ point, upTo allEnds point ≤ upTo allBegins point)
  (round : SweepRound begins ends event usedBegins usedEnds)
include dominated round

theorem Sweeping.next_nonnegative : 0 ≤ acc + event.val := by
  have nonnegative := sweeping.nonnegative
  have depth := sweeping.depth
  have val := round.val
  by_cases noEnds : usedEnds = []
  · simp only [noEnds, List.length_nil] at val
    omega
  · have used : usedBegins ++ usedEnds ≠ [] := by simp [noEnds]
    obtain ⟨beginsDone, endsDone⟩ := sweeping.done_le round used
    have begun : upTo allBegins event.pos = (doneBegins ++ usedBegins).length := by
      rw [sweeping.beginsSplit, round.begins, ← List.append_assoc, upTo_append,
        upTo_eq_length beginsDone, upTo_eq_zero (round.endsLast noEnds), Nat.add_zero]
    have ended : (doneEnds ++ usedEnds).length ≤ upTo allEnds event.pos := by
      rw [sweeping.endsSplit, round.ends, ← List.append_assoc, upTo_append, upTo_eq_length endsDone]
      exact Nat.le_add_right _ _
    have bound := dominated event.pos
    rw [begun] at bound
    have total := Nat.le_trans ended bound
    simp only [List.length_append] at total
    omega

theorem Sweeping.next {nextPtr : Nat} (moved : (acc + event.val = 0 ∧ acc > 0 ∧ nextPtr = event.pos) ∨
      (¬ (acc + event.val = 0 ∧ acc > 0) ∧ nextPtr = lastPtr)) :
    Sweeping allBegins allEnds event.begins event.ends (acc + event.val) nextPtr
      (doneBegins ++ usedBegins) (doneEnds ++ usedEnds) := by
  have depth := sweeping.depth
  have val := round.val
  refine ⟨?_, ?_, ?_, sweeping.next_nonnegative dominated round, ?_, ?_⟩
  · rw [sweeping.beginsSplit, round.begins, List.append_assoc]
  · rw [sweeping.endsSplit, round.ends, List.append_assoc]
  · simp only [List.length_append]
    omega
  · intro done member rest isRest
    by_cases used : usedBegins ++ usedEnds = []
    · obtain ⟨noBegins, noEnds⟩ := List.append_eq_nil_iff.mp used
      rw [noBegins, noEnds, List.append_nil, List.append_nil] at member
      apply sweeping.ahead done member
      rwa [round.begins, round.ends, noBegins, noEnds]
    · obtain ⟨beginsDone, endsDone⟩ := sweeping.done_le round used
      refine Nat.le_trans ?_ (round.minimal rest isRest)
      rcases List.mem_append.mp member with inBegins | inEnds
      · exact beginsDone done inBegins
      · exact endsDone done inEnds
  · intro level point beyond
    rcases moved with ⟨_, positive, rfl⟩ | ⟨stays, rfl⟩
    · -- Every consumed endpoint is behind the new position, so lengths decide.
      have used : usedBegins ++ usedEnds ≠ [] := List.append_ne_nil_of_right_ne_nil _ (round.ends_used (by omega))
      obtain ⟨beginsDone, endsDone⟩ := sweeping.done_le round used
      rw [upTo_eq_length (fun value member => Nat.le_trans (beginsDone value member) beyond),
        upTo_eq_length (fun value member => Nat.le_trans (endsDone value member) beyond)]
      simp only [List.length_append]
      omega
    · -- The depth was zero before: equally many begins and ends meet at one point.
      have nonnegative := sweeping.nonnegative
      have before : acc = 0 := by
        by_contra nonzero
        exact stays ⟨level, by omega⟩
      have sameLength : usedBegins.length = usedEnds.length := by omega
      rw [upTo_append, upTo_append, sweeping.balanced before point beyond, upTo_equal sameLength round.atPos point]

end

end

theorem SweepRound.pos_le (round : SweepRound begins ends event usedBegins usedEnds) :
    ∀ rest ∈ begins ++ ends, event.pos ≤ rest := by
  intro rest member
  rw [round.begins, round.ends] at member
  simp only [List.mem_append] at member
  rcases member with (used | later) | (used | later)
  · exact Nat.le_of_eq (round.atPos rest (List.mem_append_left _ used)).symm
  · exact round.minimal rest (List.mem_append_left _ later)
  · exact Nat.le_of_eq (round.atPos rest (List.mem_append_right _ used)).symm
  · exact round.minimal rest (List.mem_append_right _ later)

theorem Sweeping.emits (sweeping : Sweeping allBegins allEnds begins ends acc lastPtr doneBegins doneEnds)
    (round : SweepRound begins ends event usedBegins usedEnds) {start : Nat}
    (known : lastPtr = start ∨ lastPtr ∈ allEnds)
    (rises : acc + event.val > 0) (level : acc = 0) (beyond : event.pos > lastPtr) :
    Emitted allBegins allEnds start { paBegin := lastPtr, paLen := event.pos - lastPtr } := by
  have sum : lastPtr + (event.pos - lastPtr) = event.pos := by omega
  obtain ⟨first, isFirst⟩ := List.exists_mem_of_ne_nil _ (round.begins_used (by omega))
  have atPos := round.atPos first (List.mem_append_left _ isFirst)
  refine ⟨by simpa using beyond, known, ?_, ?_⟩
  · simp only [sum, sweeping.beginsSplit, round.begins]
    rw [← atPos]
    simp [isFirst]
  · intro point from_ to_
    simp only [sum] at to_
    have restAhead : ∀ rest ∈ begins ++ ends, point < rest := fun rest member =>
      Nat.lt_of_lt_of_le to_ (round.pos_le rest member)
    rw [sweeping.beginsSplit, sweeping.endsSplit, upTo_append, upTo_append,
      upTo_eq_zero (fun rest member => restAhead rest (List.mem_append_left _ member)),
      upTo_eq_zero (fun rest member => restAhead rest (List.mem_append_right _ member)),
      sweeping.balanced level point from_]

end

theorem sweepLoop_emitted {allBegins allEnds : List Nat} {start : Nat}
    (sortedBegins : allBegins.Pairwise (· ≤ ·)) (sortedEnds : allEnds.Pairwise (· ≤ ·))
    (dominated : ∀ point, upTo allEnds point ≤ upTo allBegins point) (fuel : Nat) :
    ∀ {begins ends doneBegins doneEnds : List Nat} {acc : Int} {lastPtr : Nat} {segments : List RamSegment},
      Sweeping allBegins allEnds begins ends acc lastPtr doneBegins doneEnds →
      (lastPtr = start ∨ lastPtr ∈ allEnds) →
      (∀ segment ∈ segments, Emitted allBegins allEnds start segment) →
      ∀ segment ∈ sweepLoop fuel begins ends acc lastPtr segments,
        Emitted allBegins allEnds start segment := by
  induction fuel with
  | zero =>
    intro begins ends doneBegins doneEnds acc lastPtr segments _ _ emitted
    exact emitted
  | succ fuel ih =>
    intro begins ends doneBegins doneEnds acc lastPtr segments sweeping known emitted
    unfold sweepLoop
    cases next : sweepEvent begins ends with
    | none => exact emitted
    | some event =>
      obtain ⟨usedBegins, usedEnds, round, _⟩ := sweeping.round sortedBegins sortedEnds next
      simp only
      split
      next closes =>
        have moved := sweeping.next dominated round (.inl ⟨closes.1, closes.2, rfl⟩)
        refine ih moved (.inr ?_) emitted
        -- The depth fell, so an end was consumed at this position.
        obtain ⟨last, isLast⟩ := List.exists_mem_of_ne_nil _ (round.ends_used (by omega))
        rw [← round.atPos last (List.mem_append_right _ isLast), sweeping.endsSplit, round.ends]
        simp [isLast]
      next stays =>
        have kept := sweeping.next dominated round (.inr ⟨stays, rfl⟩)
        split
        next opens =>
          refine ih kept known ?_
          intro segment member
          rcases List.mem_append.mp member with old | new
          · exact emitted segment old
          · rw [List.mem_singleton.mp new]
            exact sweeping.emits round known opens.1 opens.2.1 opens.2.2
        next => exact ih kept known emitted

def boundedRegions (ram : RamSegment) (kernelImgPaEnd : Nat) (reserved : List (Nat × Nat)) : List (Nat × Nat) :=
  (reserved ++ [(ram.paBegin, kernelImgPaEnd)]).map
      (fun region => (pageRoundDown region.1, pageRoundUp region.2)) ++
    [(pageRoundDown (ulong (ram.paBegin + ram.paLen)), 2 ^ 64 - 1)]

/-- The begins and the ends of the intervals, each sorted. -/
structure Endpoints (intervals : List (Nat × Nat)) (begins ends : List Nat) : Prop where
  beginsPerm : begins.Perm (intervals.map Prod.fst)
  endsPerm : ends.Perm (intervals.map Prod.snd)
  beginsSorted : begins.Pairwise (· ≤ ·)
  endsSorted : ends.Pairwise (· ≤ ·)

theorem Endpoints.dominated {intervals : List (Nat × Nat)} (endpoints : Endpoints intervals begins ends)
    (ordered : ∀ interval ∈ intervals, interval.1 ≤ interval.2) (point : Nat) :
    upTo ends point ≤ upTo begins point := by
  rw [upTo_perm endpoints.endsPerm, upTo_perm endpoints.beginsPerm]
  exact upTo_snd_le_upTo_fst ordered point

theorem deviceCalcAvailableRam_eq (ram : RamSegment) (kernelImgPaEnd : Nat) (reserved : List (Nat × Nat)) :
    ∃ begins ends, Endpoints (boundedRegions ram kernelImgPaEnd reserved) begins ends ∧
      deviceCalcAvailableRam ram kernelImgPaEnd reserved =
        .ok (sweepLoop (begins.length + ends.length) begins ends 0 ram.paBegin []) := by
  let bounded := boundedRegions ram kernelImgPaEnd reserved
  obtain ⟨begins, beginsRun, beginsPerm, beginsSorted⟩ := qsort_sorts (bounded.map Prod.fst) []
  obtain ⟨ends, endsRun, endsPerm, endsSorted⟩ := qsort_sorts (bounded.map Prod.snd) []
  simp only [List.append_nil, List.length_map] at beginsRun endsRun
  refine ⟨begins, ends, ⟨beginsPerm, endsPerm, beginsSorted, endsSorted⟩, ?_⟩
  change (qsort (bounded.map Prod.fst) bounded.length >>= fun begins =>
    qsort (bounded.map Prod.snd) bounded.length >>= fun ends =>
      Except.ok (sweepLoop (begins.length + ends.length) begins ends 0 ram.paBegin [])) = _
  rw [beginsRun, Result.ok_bind, endsRun, Result.ok_bind]

theorem Sweeping.start (begins ends : List Nat) (lastPtr : Nat) :
    Sweeping begins ends begins ends 0 lastPtr [] [] :=
  ⟨rfl, rfl, rfl, le_refl _, by simp, fun _ _ _ => rfl⟩

/-- No region wraps around, not even when it is rounded, and the kernel image ends inside
RAM. -/
structure RamRanges (ram : RamSegment) (kernelImgPaEnd : Nat) (reserved : List (Nat × Nat)) :
    Prop where
  kernelAfterBegin : ram.paBegin ≤ kernelImgPaEnd
  kernelBeforeEnd : kernelImgPaEnd ≤ ram.paBegin + ram.paLen
  ramEnd : ram.paBegin + ram.paLen < 2 ^ 64
  kernelRounds : kernelImgPaEnd + 4095 < 2 ^ 64
  regionsOrdered : ∀ region ∈ reserved, region.1 ≤ region.2
  regionsRound : ∀ region ∈ reserved, region.2 + 4095 < 2 ^ 64

def Outside (ram : RamSegment) (kernelImgPaEnd : Nat) (reserved : List (Nat × Nat)) (point : Nat) : Prop :=
  ∀ pair ∈ boundedRegions ram kernelImgPaEnd reserved, ¬ (pair.1 ≤ point ∧ point < pair.2)

section
variable {ram : RamSegment} {kernelImgPaEnd : Nat} {reserved : List (Nat × Nat)}

namespace RamRanges

section
variable (ranges : RamRanges ram kernelImgPaEnd reserved)
include ranges

theorem boundary : pageRoundDown (ulong (ram.paBegin + ram.paLen)) = (ram.paBegin + ram.paLen) / 4096 * 4096 := by
  rw [ulong_of_lt ranges.ramEnd, pageRoundDown_eq ranges.ramEnd]

theorem regions : ∀ region ∈ reserved ++ [(ram.paBegin, kernelImgPaEnd)],
      region.1 ≤ region.2 ∧ region.2 + 4095 < 2 ^ 64 := by
  intro region member
  rcases List.mem_append.mp member with isReserved | isKernel
  · exact ⟨ranges.regionsOrdered region isReserved, ranges.regionsRound region isReserved⟩
  · rw [List.mem_singleton.mp isKernel]
    exact ⟨ranges.kernelAfterBegin, ranges.kernelRounds⟩

theorem bounded : ∀ pair ∈ boundedRegions ram kernelImgPaEnd reserved,
      pair = ((ram.paBegin + ram.paLen) / 4096 * 4096, 2 ^ 64 - 1) ∨
        ∃ region ∈ reserved ++ [(ram.paBegin, kernelImgPaEnd)],
          pair = (region.1 / 4096 * 4096, (region.2 + 4095) / 4096 * 4096) := by
  intro pair member
  rcases List.mem_append.mp member with inAligned | isBoundary
  · obtain ⟨region, isRegion, rfl⟩ := List.mem_map.mp inAligned
    obtain ⟨ordered, rounds⟩ := ranges.regions region isRegion
    right
    refine ⟨region, isRegion, ?_⟩
    rw [pageRoundDown_eq (by omega), pageRoundUp_eq rounds]
  · left
    rw [List.mem_singleton.mp isBoundary, ranges.boundary]

theorem ordered : ∀ pair ∈ boundedRegions ram kernelImgPaEnd reserved, pair.1 ≤ pair.2 := by
  intro pair member
  rcases ranges.bounded pair member with rfl | ⟨region, isRegion, rfl⟩
  · have ramEnd := ranges.ramEnd
    dsimp only
    omega
  · obtain ⟨ordered, _⟩ := ranges.regions region isRegion
    dsimp only
    omega

theorem kernelPair : (ram.paBegin / 4096 * 4096, (kernelImgPaEnd + 4095) / 4096 * 4096) ∈
      boundedRegions ram kernelImgPaEnd reserved := by
  have rounds := ranges.kernelRounds
  have after := ranges.kernelAfterBegin
  rw [← pageRoundDown_eq (show ram.paBegin < 2 ^ 64 by omega), ← pageRoundUp_eq rounds]
  exact List.mem_append_left _ (List.mem_map.mpr
    ⟨(ram.paBegin, kernelImgPaEnd), List.mem_append_right _ (List.mem_singleton.mpr rfl), rfl⟩)

theorem boundaryPair :
    ((ram.paBegin + ram.paLen) / 4096 * 4096, 2 ^ 64 - 1) ∈ boundedRegions ram kernelImgPaEnd reserved := by
  rw [← ranges.boundary]
  exact List.mem_append_right _ (List.mem_singleton.mpr rfl)

end

end RamRanges

/-- Whole pages of the RAM, clear of the kernel and of all reservations. -/
structure SweptSegment (ram : RamSegment) (kernelImgPaEnd : Nat) (reserved : List (Nat × Nat))
    (segment : RamSegment) : Prop where
  nonempty : 0 < segment.paLen
  beginAligned : 4096 ∣ segment.paBegin
  endAligned : 4096 ∣ segment.paBegin + segment.paLen
  inRam : segment.paBegin + segment.paLen ≤ ram.paBegin + ram.paLen
  free : ∀ point, segment.paBegin ≤ point → point < segment.paBegin + segment.paLen →
    Outside ram kernelImgPaEnd reserved point

theorem Emitted.swept {segment : RamSegment} (ranges : RamRanges ram kernelImgPaEnd reserved)
    (endpoints : Endpoints (boundedRegions ram kernelImgPaEnd reserved) begins ends)
    (emitted : Emitted begins ends ram.paBegin segment) : SweptSegment ram kernelImgPaEnd reserved segment := by
  have nonempty := emitted.nonempty
  have ramEnd := ranges.ramEnd
  have kernelAfterBegin := ranges.kernelAfterBegin
  have free : ∀ point, segment.paBegin ≤ point → point < segment.paBegin + segment.paLen →
      Outside ram kernelImgPaEnd reserved point := by
    intro point lower upper
    have balanced := emitted.free point lower upper
    rw [upTo_perm endpoints.endsPerm, upTo_perm endpoints.beginsPerm] at balanced
    exact not_mem_of_balanced ranges.ordered balanced
  have finish : 4096 ∣ segment.paBegin + segment.paLen ∧ segment.paBegin + segment.paLen < 2 ^ 64 - 1 := by
    obtain ⟨pair, isPair, same⟩ := List.mem_map.mp (endpoints.beginsPerm.mem_iff.mp emitted.toBegin)
    rcases ranges.bounded pair isPair with rfl | ⟨region, isRegion, rfl⟩
    · dsimp only at same
      omega
    · obtain ⟨ordered, rounds⟩ := ranges.regions region isRegion
      dsimp only at same
      omega
  have start : 4096 ∣ segment.paBegin := by
    rcases emitted.fromEnd with isStart | isEnd
    · -- An unaligned start of RAM would lie in the rounded kernel range.
      by_contra unaligned
      refine free segment.paBegin (Nat.le_refl _) (by omega) _ ranges.kernelPair ?_
      dsimp only
      omega
    · obtain ⟨pair, isPair, same⟩ := List.mem_map.mp (endpoints.endsPerm.mem_iff.mp isEnd)
      rcases ranges.bounded pair isPair with rfl | ⟨region, isRegion, rfl⟩
      · dsimp only at same
        omega
      · dsimp only at same
        omega
  refine ⟨nonempty, start, finish.1, ?_, free⟩
  -- Its last point is below the boundary.
  by_contra above
  refine free (segment.paBegin + segment.paLen - 1) (by omega) (by omega) _ ranges.boundaryPair ?_
  dsimp only
  omega

theorem deviceCalcAvailableRam_swept {segments : List RamSegment} (ranges : RamRanges ram kernelImgPaEnd reserved)
    (computed : deviceCalcAvailableRam ram kernelImgPaEnd reserved = .ok segments) :
    ∀ segment ∈ segments, SweptSegment ram kernelImgPaEnd reserved segment := by
  obtain ⟨begins, ends, endpoints, outcome⟩ := deviceCalcAvailableRam_eq ram kernelImgPaEnd reserved
  intro segment member
  rw [Except.ok.inj (computed.symm.trans outcome)] at member
  exact (sweepLoop_emitted endpoints.beginsSorted endpoints.endsSorted
    (endpoints.dominated ranges.ordered) _ (.start ..) (.inl rfl) (by simp) segment member).swept
    ranges endpoints

end

/-- The ranges that boot memory hands over: no region wraps around, the kernel
image ends inside RAM, and the direct map reaches every address. -/
structure BootRanges (ram : RamSegment) (kernelImgPaEnd : Nat) (reserved : List (Nat × Nat)) :
    Prop where
  kernelAfterBegin : ram.paBegin ≤ kernelImgPaEnd
  kernelBeforeEnd : kernelImgPaEnd ≤ ram.paBegin + ram.paLen
  ramReachable : ram.paBegin + ram.paLen ≤ vaKernelPmaSize
  regionsOrdered : ∀ region ∈ reserved, region.1 ≤ region.2
  regionsReachable : ∀ region ∈ reserved, region.2 ≤ vaKernelPmaSize

theorem BootRanges.ramRanges {ram : RamSegment} {kernelImgPaEnd : Nat}
    {reserved : List (Nat × Nat)} (ranges : BootRanges ram kernelImgPaEnd reserved) :
    RamRanges ram kernelImgPaEnd reserved := by
  have kernelBeforeEnd := ranges.kernelBeforeEnd
  have ramReachable := ranges.ramReachable
  unfold vaKernelPmaSize at ramReachable
  refine ⟨ranges.kernelAfterBegin, kernelBeforeEnd, by omega, by omega, ranges.regionsOrdered, ?_⟩
  intro region member
  have reachable := ranges.regionsReachable region member
  unfold vaKernelPmaSize at reachable
  omega

/-- Whole pages of the direct map that meet no region. -/
structure AvailableSegment (regions : List (Nat × Nat)) (segment : RamSegment) : Prop where
  nonempty : 0 < segment.paLen
  beginAligned : 4096 ∣ segment.paBegin
  endAligned : 4096 ∣ segment.paBegin + segment.paLen
  reachable : segment.paBegin + segment.paLen ≤ vaKernelPmaSize
  free : ∀ point, segment.paBegin ≤ point → point < segment.paBegin + segment.paLen →
    ∀ region ∈ regions, ¬ (pageRoundDown region.1 ≤ point ∧ point < pageRoundUp region.2)

theorem deviceCalcAvailableRam_available {ram : RamSegment} {kernelImgPaEnd : Nat}
    {reserved : List (Nat × Nat)} {segments : List RamSegment} (ranges : BootRanges ram kernelImgPaEnd reserved)
    (computed : deviceCalcAvailableRam ram kernelImgPaEnd reserved = .ok segments) : ∀ segment ∈ segments,
      AvailableSegment (reserved ++ [(ram.paBegin, kernelImgPaEnd)]) segment := by
  intro segment member
  have swept := deviceCalcAvailableRam_swept ranges.ramRanges computed segment member
  refine ⟨swept.nonempty, swept.beginAligned, swept.endAligned, swept.inRam.trans ranges.ramReachable, ?_⟩
  intro point lower upper region isRegion
  exact swept.free point lower upper _ (List.mem_append_left _ (List.mem_map.mpr ⟨region, isRegion, rfl⟩))

end Kalorona.Device
