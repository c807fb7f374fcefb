import Kalorona.Device.Memory

namespace Kalorona.Device

open Kalorona.Data Kalorona.Utilities

/-! # The sweep is exact

Which points end up in the recorded segments: those that no interval covers, from the
start of RAM or from the first covered point on, whichever comes first.
-/

def RamSegment.Contains (segment : RamSegment) (point : Nat) : Prop :=
  segment.paBegin ≤ point ∧ point < segment.paBegin + segment.paLen

def Free (begins ends : List Nat) (point : Nat) : Prop := upTo begins point = upTo ends point

section
variable {allBegins allEnds begins ends doneBegins doneEnds usedBegins usedEnds : List Nat}
  {acc : Int} {lastPtr point : Nat} {event : SweepEvent}

section
variable (sweeping : Sweeping allBegins allEnds begins ends acc lastPtr doneBegins doneEnds)
  (behind : ∀ done ∈ doneBegins ++ doneEnds, done ≤ point)
include sweeping behind

theorem Sweeping.free_iff
    (ahead : ∀ rest ∈ begins ++ ends, point < rest) : Free allBegins allEnds point ↔ acc = 0 := by
  have begun : upTo allBegins point = doneBegins.length := by
    rw [sweeping.beginsSplit, upTo_append,
      upTo_eq_length (fun done member => behind done (List.mem_append_left _ member)),
      upTo_eq_zero (fun rest member => ahead rest (List.mem_append_left _ member)), Nat.add_zero]
  have ended : upTo allEnds point = doneEnds.length := by
    rw [sweeping.endsSplit, upTo_append,
      upTo_eq_length (fun done member => behind done (List.mem_append_right _ member)),
      upTo_eq_zero (fun rest member => ahead rest (List.mem_append_right _ member)), Nat.add_zero]
  have depth := sweeping.depth
  rw [Free, begun, ended]
  omega

theorem Sweeping.covers (ahead : ∀ rest ∈ ends, point < rest)
    (positive : 0 < acc) : ¬ Free allBegins allEnds point := by
  have begun : doneBegins.length ≤ upTo allBegins point := by
    rw [sweeping.beginsSplit, upTo_append,
      upTo_eq_length (fun done member => behind done (List.mem_append_left _ member))]
    exact Nat.le_add_right _ _
  have ended : upTo allEnds point = doneEnds.length := by
    rw [sweeping.endsSplit, upTo_append,
      upTo_eq_length (fun done member => behind done (List.mem_append_right _ member)),
      upTo_eq_zero ahead, Nat.add_zero]
  have depth := sweeping.depth
  rw [Free, ended]
  omega

end

theorem Sweeping.finished (sweeping : Sweeping allBegins allEnds [] [] acc lastPtr doneBegins doneEnds) :
    Sweeping allBegins allEnds [] [] acc lastPtr allBegins allEnds := by
  have begun := sweeping.beginsSplit
  have ended := sweeping.endsSplit
  rw [List.append_nil] at begun ended
  rwa [← begun, ← ended] at sweeping

section
variable (round : SweepRound begins ends event usedBegins usedEnds)
include round

theorem SweepRound.later : ∀ rest ∈ event.begins ++ event.ends, rest ∈ begins ++ ends := by
  intro rest member
  rw [round.begins, round.ends]
  rcases List.mem_append.mp member with inBegins | inEnds
  · exact List.mem_append_left _ (List.mem_append_right _ inBegins)
  · exact List.mem_append_right _ (List.mem_append_right _ inEnds)

theorem SweepRound.taken {rest : Nat} (member : rest ∈ begins ++ ends) :
    rest ∈ event.begins ++ event.ends ∨ (rest = event.pos ∧ usedBegins ++ usedEnds ≠ []) := by
  rw [round.begins, round.ends] at member
  simp only [List.mem_append] at member ⊢
  rcases member with (used | later) | (used | later)
  · exact .inr ⟨round.atPos rest (List.mem_append_left _ used), List.ne_nil_of_mem (List.mem_append_left _ used)⟩
  · exact .inl (.inl later)
  · exact .inr ⟨round.atPos rest (List.mem_append_right _ used), List.ne_nil_of_mem (List.mem_append_right _ used)⟩
  · exact .inl (.inr later)

theorem SweepRound.pos_mem (changes : event.val ≠ 0) : event.pos ∈ begins ++ ends := by
  have used : usedBegins ++ usedEnds ≠ [] := by
    rcases Int.lt_or_gt_of_ne changes with falls | rises
    · exact List.append_ne_nil_of_right_ne_nil _ (round.ends_used falls)
    · exact List.append_ne_nil_of_left_ne_nil (round.begins_used rises) _
  obtain ⟨first, isFirst⟩ := List.exists_mem_of_ne_nil _ used
  rw [← round.atPos first isFirst, round.begins, round.ends]
  rcases List.mem_append.mp isFirst with inBegins | inEnds
  · exact List.mem_append_left _ (List.mem_append_left _ inBegins)
  · exact List.mem_append_right _ (List.mem_append_left _ inEnds)

end

theorem Sweeping.passes {nextPtr : Nat}
    (sweeping : Sweeping allBegins allEnds begins ends acc lastPtr doneBegins doneEnds)
    (moved : Sweeping allBegins allEnds event.begins event.ends (acc + event.val) nextPtr
      (doneBegins ++ usedBegins) (doneEnds ++ usedEnds)) (round : SweepRound begins ends event usedBegins usedEnds)
    (ahead : ∀ rest ∈ event.begins ++ event.ends, point < rest) : (∀ rest ∈ begins ++ ends, point < rest) ∨
      (Free allBegins allEnds point ↔ acc + event.val = 0) := by
  by_cases before : ∀ rest ∈ begins ++ ends, point < rest
  · exact .inl before
  · right
    push Not at before
    obtain ⟨rest, member, reached⟩ := before
    rcases round.taken member with later | ⟨atPos, used⟩
    · exact absurd (ahead rest later) (by omega)
    · obtain ⟨beginsDone, endsDone⟩ := sweeping.done_le round used
      refine moved.free_iff (fun done member => ?_) ahead
      rcases List.mem_append.mp member with inBegins | inEnds
      · exact (beginsDone done inBegins).trans (atPos ▸ reached)
      · exact (endsDone done inEnds).trans (atPos ▸ reached)

end

def Reached (begins ends : List Nat) (start point : Nat) : Prop :=
  start ≤ point ∨ ∃ early ≤ point, ¬ Free begins ends early

/-- What the segments recorded so far say about the points that the sweep has passed. -/
structure Recorded (allBegins allEnds begins ends : List Nat) (start : Nat) (acc : Int)
    (lastPtr : Nat) (segments : List RamSegment) : Prop where
  ordered : segments.Pairwise fun left right => left.paBegin + left.paLen ≤ right.paBegin
  behindPtr : acc = 0 → ∀ segment ∈ segments, segment.paBegin + segment.paLen ≤ lastPtr
  behindRest : ∀ segment ∈ segments, ∀ rest ∈ begins ++ ends,
    segment.paBegin + segment.paLen ≤ rest
  covered : 0 < acc → ∃ point, ¬ Free allBegins allEnds point ∧ ∀ rest ∈ begins ++ ends, point ≤ rest
  ptr : Reached allBegins allEnds start lastPtr
  reached : ∀ segment ∈ segments, Reached allBegins allEnds start segment.paBegin
  /-- At depth zero the points before `lastPtr` are dealt with. -/
  levelComplete : acc = 0 → ∀ point < lastPtr, Free allBegins allEnds point →
    (start ≤ point ∨ ∃ early ≤ point, ¬ Free allBegins allEnds early ∧ ∀ rest ∈ begins ++ ends, early < rest) →
    ∃ segment ∈ segments, segment.Contains point
  /-- Above it those before the next endpoint are. -/
  coveredComplete : 0 < acc → ∀ point, Free allBegins allEnds point →
    Reached allBegins allEnds start point → (∀ rest ∈ begins ++ ends, point < rest) →
    ∃ segment ∈ segments, segment.Contains point

namespace Recorded

variable {allBegins allEnds begins ends doneBegins doneEnds usedBegins usedEnds : List Nat}
  {acc : Int} {start lastPtr : Nat} {event : SweepEvent} {segments : List RamSegment}

theorem closes (recorded : Recorded allBegins allEnds begins ends start acc lastPtr segments)
    (round : SweepRound begins ends event usedBegins usedEnds) (positive : 0 < acc) (level : acc + event.val = 0) :
    Recorded allBegins allEnds event.begins event.ends start (acc + event.val) event.pos segments where
  ordered := recorded.ordered
  behindPtr _ segment member := recorded.behindRest segment member _ (round.pos_mem (by omega))
  behindRest segment member rest later := recorded.behindRest segment member rest (round.later rest later)
  covered positive := by omega
  ptr := by
    obtain ⟨point, covered, before⟩ := recorded.covered positive
    exact .inr ⟨point, before _ (round.pos_mem (by omega)), covered⟩
  reached := recorded.reached
  levelComplete _ point before free early := by
    refine recorded.coveredComplete positive point free ?_ fun rest member =>
      Nat.lt_of_lt_of_le before (round.pos_le rest member)
    rcases early with late | ⟨early, earlier, covered, _⟩
    · exact .inl late
    · exact .inr ⟨early, earlier, covered⟩
  coveredComplete positive := by omega

section
variable (recorded : Recorded allBegins allEnds begins ends start acc lastPtr segments)
  (sweeping : Sweeping allBegins allEnds begins ends acc lastPtr doneBegins doneEnds)
  (moved : Sweeping allBegins allEnds event.begins event.ends (acc + event.val) lastPtr
    (doneBegins ++ usedBegins) (doneEnds ++ usedEnds)) (round : SweepRound begins ends event usedBegins usedEnds)
include recorded sweeping moved round

theorem continues (positive : 0 < acc) (above : 0 < acc + event.val) :
    Recorded allBegins allEnds event.begins event.ends start (acc + event.val) lastPtr segments where
  ordered := recorded.ordered
  behindPtr level := by omega
  behindRest segment member rest later := recorded.behindRest segment member rest (round.later rest later)
  covered _ := by
    obtain ⟨point, covered, before⟩ := recorded.covered positive
    exact ⟨point, covered, fun rest later => before rest (round.later rest later)⟩
  ptr := recorded.ptr
  reached := recorded.reached
  levelComplete level := by omega
  coveredComplete _ point free reached ahead := by
    rcases sweeping.passes moved round ahead with before | counts
    · exact recorded.coveredComplete positive point free reached before
    · exact absurd (counts.mp free) (by omega)

theorem rests (zero : acc = 0) (level : acc + event.val = 0) :
    Recorded allBegins allEnds event.begins event.ends start (acc + event.val) lastPtr segments where
  ordered := recorded.ordered
  behindPtr _ := recorded.behindPtr zero
  behindRest segment member rest later := recorded.behindRest segment member rest (round.later rest later)
  covered positive := by omega
  ptr := recorded.ptr
  reached := recorded.reached
  levelComplete _ point before free early := by
    refine recorded.levelComplete zero point before free ?_
    rcases early with late | ⟨early, earlier, covered, ahead⟩
    · exact .inl late
    · rcases sweeping.passes moved round ahead with passed | counts
      · exact .inr ⟨early, earlier, covered, passed⟩
      · exact absurd (counts.mpr level) covered
  coveredComplete positive := by omega

theorem opens (noEnd : ∀ rest ∈ event.ends, event.pos < rest) (zero : acc = 0)
    (above : 0 < acc + event.val) {grown : List RamSegment} (grows : grown = if event.pos > lastPtr then
      segments ++ [{ paBegin := lastPtr, paLen := event.pos - lastPtr }] else segments) :
    Recorded allBegins allEnds event.begins event.ends start (acc + event.val) lastPtr grown := by
  have atPos := round.pos_mem (show event.val ≠ 0 by omega)
  have members : ∀ segment ∈ grown, segment ∈ segments ∨
      (lastPtr < event.pos ∧ segment = { paBegin := lastPtr, paLen := event.pos - lastPtr }) := by
    intro segment member
    rw [grows] at member
    split at member
    next beyond =>
      rcases List.mem_append.mp member with old | new
      · exact .inl old
      · exact .inr ⟨beyond, List.mem_singleton.mp new⟩
    next => exact .inl member
  constructor
  case ordered =>
    rw [grows]
    split
    · refine List.pairwise_append.mpr ⟨recorded.ordered, List.pairwise_singleton _ _, ?_⟩
      intro segment member new isNew
      rw [List.mem_singleton.mp isNew]
      exact recorded.behindPtr zero segment member
    · exact recorded.ordered
  case behindPtr => omega
  case behindRest =>
    intro segment member rest later
    rcases members segment member with old | ⟨beyond, rfl⟩
    · exact recorded.behindRest segment old rest (round.later rest later)
    · have least := round.minimal rest later
      dsimp only
      omega
  case covered =>
    intro _
    refine ⟨event.pos, ?_, round.minimal⟩
    have used : usedBegins ++ usedEnds ≠ [] := List.append_ne_nil_of_left_ne_nil (round.begins_used (by omega)) _
    obtain ⟨beginsDone, endsDone⟩ := sweeping.done_le round used
    refine moved.covers (fun done member => ?_) noEnd above
    rcases List.mem_append.mp member with inBegins | inEnds
    · exact beginsDone done inBegins
    · exact endsDone done inEnds
  case ptr => exact recorded.ptr
  case reached =>
    intro segment member
    rcases members segment member with old | ⟨_, rfl⟩
    · exact recorded.reached segment old
    · exact recorded.ptr
  case levelComplete => omega
  case coveredComplete =>
    intro _ point free reached ahead
    rcases sweeping.passes moved round ahead with before | counts
    · by_cases passed : point < lastPtr
      · obtain ⟨segment, member, contains⟩ := recorded.levelComplete zero point passed free <| by
          rcases reached with late | ⟨early, earlier, covered⟩
          · exact .inl late
          · exact .inr ⟨early, earlier, covered, fun rest member =>
              Nat.lt_of_le_of_lt earlier (before rest member)⟩
        refine ⟨segment, ?_, contains⟩
        rw [grows]
        split
        · exact List.mem_append_left _ member
        · exact member
      · have upper := before _ atPos
        refine ⟨{ paBegin := lastPtr, paLen := event.pos - lastPtr }, ?_, ?_⟩
        · rw [grows, if_pos (by omega)]
          simp
        · unfold RamSegment.Contains
          dsimp only
          omega
    · exact absurd (counts.mp free) (by omega)

end

end Recorded

theorem SweepRound.shortens {begins ends usedBegins usedEnds : List Nat} {event : SweepEvent}
    (round : SweepRound begins ends event usedBegins usedEnds) (used : usedBegins ++ usedEnds ≠ []) :
    event.begins.length + event.ends.length < begins.length + ends.length := by
  have positive := List.length_pos_iff.mpr used
  have begun := congrArg List.length round.begins
  have ended := congrArg List.length round.ends
  rw [List.length_append] at positive begun ended
  omega

theorem sweepEvent_none {begins ends : List Nat} (stops : sweepEvent begins ends = none) :
    begins = [] ∧ ends = [] := by
  match begins, ends with
  | [], [] => exact ⟨rfl, rfl⟩
  | [], pos :: ends => simp [sweepEvent] at stops
  | pos :: begins, [] => simp [sweepEvent] at stops
  | nextBegin :: begins, nextEnd :: ends =>
    simp only [sweepEvent] at stops
    split at stops
    · simp at stops
    · split at stops <;> simp at stops

theorem sweepLoop_recorded {allBegins allEnds : List Nat} {start : Nat}
    (sortedBegins : allBegins.Pairwise (· ≤ ·)) (sortedEnds : allEnds.Pairwise (· ≤ ·))
    (dominated : ∀ point, upTo allEnds point ≤ upTo allBegins point) (fuel : Nat) :
    ∀ {begins ends doneBegins doneEnds : List Nat} {acc : Int} {lastPtr : Nat}
      {segments : List RamSegment}, begins.length + ends.length ≤ fuel →
      Sweeping allBegins allEnds begins ends acc lastPtr doneBegins doneEnds →
      Recorded allBegins allEnds begins ends start acc lastPtr segments →
      ∃ acc' lastPtr', Sweeping allBegins allEnds [] [] acc' lastPtr' allBegins allEnds ∧
        Recorded allBegins allEnds [] [] start acc' lastPtr' (sweepLoop fuel begins ends acc lastPtr segments) := by
  induction fuel with
  | zero =>
    intro begins ends doneBegins doneEnds acc lastPtr segments enough sweeping recorded
    obtain rfl := List.eq_nil_of_length_eq_zero (show begins.length = 0 by omega)
    obtain rfl := List.eq_nil_of_length_eq_zero (show ends.length = 0 by omega)
    exact ⟨acc, lastPtr, sweeping.finished, recorded⟩
  | succ fuel ih =>
    intro begins ends doneBegins doneEnds acc lastPtr segments enough sweeping recorded
    unfold sweepLoop
    cases next : sweepEvent begins ends with
    | none =>
      obtain ⟨rfl, rfl⟩ := sweepEvent_none next
      exact ⟨acc, lastPtr, sweeping.finished, recorded⟩
    | some event =>
      obtain ⟨usedBegins, usedEnds, round, used, noEnd⟩ := sweeping.round sortedBegins sortedEnds next
      have shorter := round.shortens used
      have nonnegative := sweeping.next_nonnegative dominated round
      have before := sweeping.nonnegative
      simp only
      split
      next closes =>
        exact ih (by omega) (sweeping.next dominated round (.inl ⟨closes.1, closes.2, rfl⟩))
          (recorded.closes round closes.2 closes.1)
      next stays =>
        have kept := sweeping.next dominated round (.inr ⟨stays, rfl⟩)
        split
        next opens =>
          exact ih (by omega) kept (recorded.opens sweeping kept round
            (noEnd (round.begins_used (by omega))) opens.2.1 opens.1 (if_pos opens.2.2).symm)
        next quiet =>
          refine ih (by omega) kept ?_
          by_cases zero : acc = 0
          · by_cases level : acc + event.val = 0
            · exact recorded.rests sweeping kept round zero level
            · exact recorded.opens sweeping kept round (noEnd (round.begins_used (by omega))) zero (by omega)
                (if_neg fun beyond => quiet ⟨by omega, zero, beyond⟩).symm
          · exact recorded.continues sweeping kept round (by omega) (by omega)

theorem Recorded.start (begins ends : List Nat) (start : Nat) :
    Recorded begins ends begins ends start 0 start [] := by
  refine ⟨.nil, by simp, by simp, by simp, .inl (Nat.le_refl _), by simp, ?_, by simp⟩
  rintro _ point before _ (late | ⟨early, _, covered, ahead⟩)
  · omega
  · exact absurd (((Sweeping.start begins ends start).free_iff (by simp) ahead).mpr rfl) covered

section
variable {ram : RamSegment} {kernelImgPaEnd : Nat} {reserved : List (Nat × Nat)}
  {begins ends : List Nat} {segments : List RamSegment}

section
variable (ranges : RamRanges ram kernelImgPaEnd reserved)
include ranges

theorem Endpoints.free_iff
    (endpoints : Endpoints (boundedRegions ram kernelImgPaEnd reserved) begins ends) (point : Nat) :
    Free begins ends point ↔ Outside ram kernelImgPaEnd reserved point := by
  rw [Free, upTo_perm endpoints.endsPerm, upTo_perm endpoints.beginsPerm]
  exact ⟨not_mem_of_balanced ranges.ordered, balanced_of_not_mem ranges.ordered⟩

theorem deviceCalcAvailableRam_recorded
    (computed : deviceCalcAvailableRam ram kernelImgPaEnd reserved = .ok segments) :
    ∃ begins ends lastPtr, Endpoints (boundedRegions ram kernelImgPaEnd reserved) begins ends ∧
      Sweeping begins ends [] [] 0 lastPtr begins ends ∧
      Recorded begins ends [] [] ram.paBegin 0 lastPtr segments := by
  obtain ⟨begins, ends, endpoints, outcome⟩ := deviceCalcAvailableRam_eq ram kernelImgPaEnd reserved
  obtain ⟨acc, lastPtr, sweeping, recorded⟩ := sweepLoop_recorded endpoints.beginsSorted endpoints.endsSorted
      (endpoints.dominated ranges.ordered) _ (Nat.le_refl _) (.start begins ends ram.paBegin)
      (.start begins ends ram.paBegin)
  have sameLength : begins.length = ends.length := by
    rw [endpoints.beginsPerm.length_eq, endpoints.endsPerm.length_eq, List.length_map, List.length_map]
  have depth := sweeping.depth
  obtain rfl : acc = 0 := by omega
  rw [Except.ok.inj (computed.symm.trans outcome)]
  exact ⟨begins, ends, lastPtr, endpoints, sweeping, recorded⟩

theorem deviceCalcAvailableRam_exact
    (computed : deviceCalcAvailableRam ram kernelImgPaEnd reserved = .ok segments) {point : Nat}
    (address : point < 2 ^ 64 - 1) : (∃ segment ∈ segments, segment.Contains point) ↔
      Outside ram kernelImgPaEnd reserved point ∧
        (ram.paBegin ≤ point ∨ ∃ early ≤ point, ¬ Outside ram kernelImgPaEnd reserved early) := by
  obtain ⟨begins, ends, lastPtr, endpoints, sweeping, recorded⟩ := deviceCalcAvailableRam_recorded ranges computed
  constructor
  · rintro ⟨segment, member, lower, upper⟩
    have swept := deviceCalcAvailableRam_swept ranges computed segment member
    refine ⟨swept.free point lower upper, ?_⟩
    rcases recorded.reached segment member with late | ⟨early, earlier, covered⟩
    · exact .inl (late.trans lower)
    · exact .inr ⟨early, earlier.trans lower, fun outside =>
        covered ((endpoints.free_iff ranges early).mpr outside)⟩
  · rintro ⟨outside, reached⟩
    refine recorded.levelComplete rfl point ?_ ((endpoints.free_iff ranges point).mpr outside) ?_
    · -- The boundary covers a later point, and from `lastPtr` on no point is covered.
      by_contra late
      have ramEnd := ranges.ramEnd
      have free := sweeping.balanced rfl (2 ^ 64 - 2) (by omega)
      refine (endpoints.free_iff ranges _).mp free _ ranges.boundaryPair ?_
      dsimp only
      omega
    · rcases reached with late | ⟨early, earlier, covered⟩
      · exact .inl late
      · exact .inr ⟨early, earlier, fun free => covered ((endpoints.free_iff ranges early).mp free), by simp⟩

end

theorem Outside.region {region : Nat × Nat} {point : Nat} (member : region ∈ reserved)
    (outside : Outside ram kernelImgPaEnd reserved point) :
    ¬ (pageRoundDown region.1 ≤ point ∧ point < pageRoundUp region.2) :=
  outside _ (List.mem_append_left _ (List.mem_map.mpr ⟨region, List.mem_append_left _ member, rfl⟩))

def PageMeets (page : Nat) (range : Nat × Nat) : Prop :=
  ∃ address, page * 4096 ≤ address ∧ address < (page + 1) * 4096 ∧
    range.1 ≤ address ∧ address < range.2

def PageEmitted (segments : List RamSegment) (page : Nat) : Prop :=
  ∃ segment ∈ segments, segment.paBegin ≤ page * 4096 ∧
    (page + 1) * 4096 ≤ segment.paBegin + segment.paLen

theorem outside_of_page (ranges : RamRanges ram kernelImgPaEnd reserved) {page : Nat}
    (lower : ram.paBegin ≤ page * 4096) (upper : (page + 1) * 4096 ≤ ram.paBegin + ram.paLen)
    (offKernel : ¬ PageMeets page (ram.paBegin, kernelImgPaEnd))
    (offRegions : ∀ region ∈ reserved, ¬ PageMeets page (pageRoundDown region.1, pageRoundUp region.2)) :
    Outside ram kernelImgPaEnd reserved (page * 4096) := by
  have inPage : page * 4096 < (page + 1) * 4096 := by omega
  have kernelAfter : kernelImgPaEnd ≤ page * 4096 := by
    by_contra inside
    exact offKernel ⟨page * 4096, Nat.le_refl _, inPage, lower, Nat.lt_of_not_le inside⟩
  intro pair member
  rcases ranges.bounded pair member with rfl | ⟨region, isRegion, rfl⟩
  · dsimp only
    omega
  · rcases List.mem_append.mp isRegion with isReserved | isKernel
    · rintro ⟨begun, running⟩
      obtain ⟨ordered, rounds⟩ := ranges.regions region isRegion
      refine offRegions region isReserved ⟨page * 4096, Nat.le_refl _, inPage, ?_, ?_⟩
      · rwa [pageRoundDown_eq (by omega)]
      · rwa [pageRoundUp_eq rounds]
    · rw [List.mem_singleton.mp isKernel]
      dsimp only
      omega

/-- The segments are non-empty runs of whole pages in ascending order.  They hold no page of a
rounded region or of the kernel image, and every other whole page of RAM. -/
theorem available_ram_exact (ranges : RamRanges ram kernelImgPaEnd reserved) :
    ∃ segments, deviceCalcAvailableRam ram kernelImgPaEnd reserved = .ok segments ∧
      (∀ segment ∈ segments, 0 < segment.paLen ∧ 4096 ∣ segment.paBegin ∧ 4096 ∣ segment.paBegin + segment.paLen) ∧
      (segments.Pairwise fun left right => left.paBegin < right.paBegin ∧ left.paBegin + left.paLen ≤ right.paBegin) ∧
      (∀ page, PageEmitted segments page → ¬ PageMeets page (ram.paBegin, kernelImgPaEnd) ∧
        ∀ region ∈ reserved, ¬ PageMeets page (pageRoundDown region.1, pageRoundUp region.2)) ∧
      ∀ page, ram.paBegin ≤ page * 4096 → (page + 1) * 4096 ≤ ram.paBegin + ram.paLen →
        ¬ PageMeets page (ram.paBegin, kernelImgPaEnd) →
        (∀ region ∈ reserved, ¬ PageMeets page (pageRoundDown region.1, pageRoundUp region.2)) →
        PageEmitted segments page := by
  obtain ⟨begins, ends, _, computed⟩ := deviceCalcAvailableRam_eq ram kernelImgPaEnd reserved
  have swept := deviceCalcAvailableRam_swept ranges computed
  refine ⟨_, computed, ?_, ?_, ?_, ?_⟩
  · intro segment member
    exact ⟨(swept segment member).nonempty, (swept segment member).beginAligned, (swept segment member).endAligned⟩
  · obtain ⟨_, _, _, _, _, recorded⟩ := deviceCalcAvailableRam_recorded ranges computed
    refine recorded.ordered.imp_of_mem ?_
    intro left right isLeft _ apart
    have nonempty := (swept left isLeft).nonempty
    exact ⟨by omega, apart⟩
  · rintro page ⟨segment, member, lower, upper⟩
    constructor
    · rintro ⟨address, fromPage, toPage, fromKernel, toKernel⟩
      have outside := (swept segment member).free address (by omega) (by omega)
      refine outside _ ranges.kernelPair ?_
      dsimp only at fromKernel toKernel ⊢
      omega
    · rintro region isReserved ⟨address, fromPage, toPage, inRegion⟩
      exact ((swept segment member).free address (by omega) (by omega)).region isReserved inRegion
  · intro page lower upper offKernel offRegions
    have ramEnd := ranges.ramEnd
    have outside := outside_of_page ranges lower upper offKernel offRegions
    obtain ⟨segment, member, fromSegment, toSegment⟩ :=
      (deviceCalcAvailableRam_exact ranges computed (by omega)).mpr ⟨outside, .inl lower⟩
    have aligned := (swept segment member).endAligned
    exact ⟨segment, member, fromSegment, by omega⟩

/-- Adjacent, nested and empty regions in no order, one of them below RAM. -/
def mixedRegions : List (Nat × Nat) :=
  [(0x80208000, 0x8020a000), (0x80209000, 0x80209000), (0x8020a000, 0x8020b001), (0x80100000, 0x80200000)]

theorem available_ram_exact_overlapping : RamRanges ⟨0x80200000, 0x10000⟩ 0x80202345 mixedRegions ∧
      ∃ segments, deviceCalcAvailableRam ⟨0x80200000, 0x10000⟩ 0x80202345 mixedRegions = .ok segments ∧
        segments = [⟨0x80203000, 0x5000⟩, ⟨0x8020c000, 0x4000⟩] ∧
        segments.Pairwise fun left right => left.paBegin < right.paBegin ∧
          left.paBegin + left.paLen ≤ right.paBegin := by
  have ranges : RamRanges ⟨0x80200000, 0x10000⟩ 0x80202345 mixedRegions :=
    ⟨by decide, by decide, by decide, by decide, by decide, by decide⟩
  obtain ⟨segments, computed, _, ordered, _⟩ := available_ram_exact ranges
  obtain ⟨_, again, rfl⟩ : ∃ segments,
      deviceCalcAvailableRam ⟨0x80200000, 0x10000⟩ 0x80202345 mixedRegions = .ok segments ∧
        segments = [⟨0x80203000, 0x5000⟩, ⟨0x8020c000, 0x4000⟩] := by decide +kernel
  cases computed.symm.trans again
  exact ⟨ranges, _, computed, rfl, ordered⟩

def NoGapBelow (ram : RamSegment) (reserved : List (Nat × Nat)) : Prop :=
  ∀ point < pageRoundDown ram.paBegin,
    (∃ region ∈ reserved, pageRoundDown region.1 < pageRoundUp region.2 ∧ pageRoundDown region.1 ≤ point) →
    ∃ region ∈ reserved, pageRoundDown region.1 ≤ point ∧ point < pageRoundUp region.2

theorem region_of_below (ranges : RamRanges ram kernelImgPaEnd reserved) {pair : Nat × Nat}
    (member : pair ∈ boundedRegions ram kernelImgPaEnd reserved) (below : pair.1 < ram.paBegin / 4096 * 4096) :
    ∃ region ∈ reserved, pair = (pageRoundDown region.1, pageRoundUp region.2) := by
  rcases ranges.bounded pair member with rfl | ⟨region, isRegion, rfl⟩
  · dsimp only at below
    omega
  · obtain ⟨ordered, rounds⟩ := ranges.regions region isRegion
    rcases List.mem_append.mp isRegion with isReserved | isKernel
    · refine ⟨region, isReserved, ?_⟩
      rw [pageRoundDown_eq (by omega), pageRoundUp_eq rounds]
    · rw [List.mem_singleton.mp isKernel] at below
      dsimp only at below
      omega

/-- No segment leaves RAM exactly when the reserved regions leave no gap below it: the sweep
moves its last position to the end of such a region and records the gap that follows. -/
theorem segments_in_ram_iff (ranges : RamRanges ram kernelImgPaEnd reserved) :
    ∃ segments, deviceCalcAvailableRam ram kernelImgPaEnd reserved = .ok segments ∧
      ((∀ segment ∈ segments, ram.paBegin ≤ segment.paBegin ∧
        segment.paBegin + segment.paLen ≤ ram.paBegin + ram.paLen) ↔ NoGapBelow ram reserved) := by
  obtain ⟨begins, ends, _, computed⟩ := deviceCalcAvailableRam_eq ram kernelImgPaEnd reserved
  have swept := deviceCalcAvailableRam_swept ranges computed
  have ramEnd := ranges.ramEnd
  have firstPage := pageRoundDown_eq (show ram.paBegin < 2 ^ 64 by omega)
  refine ⟨_, computed, ?_, ?_⟩
  · rintro inRam point below ⟨region, isReserved, nonempty, begun⟩
    rw [firstPage] at below
    by_contra uncovered
    have outside : Outside ram kernelImgPaEnd reserved point := by
      rintro pair member ⟨pairBegun, running⟩
      obtain ⟨other, isOther, rfl⟩ := region_of_below ranges member (by omega)
      exact uncovered ⟨other, isOther, pairBegun, running⟩
    obtain ⟨segment, member, fromSegment, _⟩ := (deviceCalcAvailableRam_exact ranges computed (by omega)).mpr
        ⟨outside, .inr ⟨pageRoundDown region.1, begun, fun free =>
          free.region isReserved ⟨Nat.le_refl _, nonempty⟩⟩⟩
    have lower := (inRam segment member).1
    omega
  · intro noGap segment member
    refine ⟨?_, (swept segment member).inRam⟩
    by_contra below
    have nonempty := (swept segment member).nonempty
    have inRam := (swept segment member).inRam
    have outside := (swept segment member).free segment.paBegin (Nat.le_refl _) (by omega)
    have after := ranges.kernelAfterBegin
    have beforeFirst : segment.paBegin < ram.paBegin / 4096 * 4096 := by
      by_contra inFirst
      refine outside _ ranges.kernelPair ?_
      dsimp only
      omega
    obtain ⟨_, late | ⟨early, earlier, covered⟩⟩ := (deviceCalcAvailableRam_exact ranges computed (by omega)).mp
        ⟨segment, member, Nat.le_refl _, by omega⟩
    · omega
    · unfold Outside at covered
      push Not at covered
      obtain ⟨pair, isPair, begun, running⟩ := covered
      obtain ⟨region, isReserved, rfl⟩ := region_of_below ranges isPair (by omega)
      dsimp only at begun running
      obtain ⟨other, isOther, inOther⟩ := noGap segment.paBegin (firstPage ▸ beforeFirst)
        ⟨region, isReserved, by omega, by omega⟩
      exact outside.region isOther inOther

/-- A region that ends right below RAM. -/
theorem segments_in_ram_iff_adjacent : NoGapBelow ⟨0x80200000, 0x100000⟩ [(0x80000000, 0x80200000)] ∧
      ∃ segments, deviceCalcAvailableRam ⟨0x80200000, 0x100000⟩ 0x80210000
          [(0x80000000, 0x80200000)] = .ok segments ∧
        ∀ segment ∈ segments, 0x80200000 ≤ segment.paBegin ∧
          segment.paBegin + segment.paLen ≤ 0x80300000 := by
  have noGap : NoGapBelow ⟨0x80200000, 0x100000⟩ [(0x80000000, 0x80200000)] := by
    rintro point below ⟨region, member, _, begun⟩
    obtain rfl := List.mem_singleton.mp member
    exact ⟨_, List.mem_singleton.mpr rfl, begun, below⟩
  have ranges : RamRanges ⟨0x80200000, 0x100000⟩ 0x80210000 [(0x80000000, 0x80200000)] :=
    ⟨by decide, by decide, by decide, by decide, by decide, by decide⟩
  obtain ⟨segments, computed, inRam⟩ := segments_in_ram_iff ranges
  exact ⟨noGap, segments, computed, inRam.mpr noGap⟩

/-- A region that ends 64 KiB below RAM: the pages between are recorded as available RAM. -/
theorem segments_leave_ram : RamRanges ⟨0x80200000, 0x100000⟩ 0x80210000 [(0x80000000, 0x801f0000)] ∧
      ∃ segments, deviceCalcAvailableRam ⟨0x80200000, 0x100000⟩ 0x80210000
          [(0x80000000, 0x801f0000)] = .ok segments ∧
        ¬ ∀ segment ∈ segments, 0x80200000 ≤ segment.paBegin ∧
          segment.paBegin + segment.paLen ≤ 0x80300000 :=
  ⟨⟨by decide, by decide, by decide, by decide, by decide, by decide⟩, by decide +kernel⟩

end

end Kalorona.Device
