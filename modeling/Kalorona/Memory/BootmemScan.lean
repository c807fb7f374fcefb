import Kalorona.Memory.BootmemRuns

namespace Kalorona.Memory

open Kalorona.Data Kalorona.Utilities

/-! # Where a request is placed

`bootmem_alloc` looks for the first run of free pages from the goal on, and then from the
first aligned page on.
-/

/-- From page `index` on `area` pages of the node are free. -/
structure RunAt (node : BootmemNode) (area index : Nat) : Prop where
  inside : index < node.numPpn
  first : testBit node.memMap index = false
  rest : ∀ page, index < page → page < ulong (index + area) →
    page < node.numPpn ∧ testBit node.memMap page = false

/-- The lowest run of clear pages from `start` on. -/
structure FirstRun (node : BootmemNode) (area start spot : Nat) : Prop where
  lower : start ≤ spot
  run : RunAt node area spot
  least : ∀ earlier, start ≤ earlier → earlier < spot → ¬ RunAt node area earlier

variable {spot : Nat}

section
variable {node : BootmemNode} {area : Nat}

theorem pagesAvailable_iff {count index : Nat} : pagesAvailable node count index = true ↔
    ∀ page, index ≤ page → page < index + count →
      page < node.numPpn ∧ testBit node.memMap page = false := by
  refine ⟨pagesAvailable_clear, ?_⟩
  induction count generalizing index with
  | zero => exact fun _ => rfl
  | succ count ih =>
    intro free
    obtain ⟨inside, clear⟩ := free index (Nat.le_refl _) (by omega)
    have present : (decide (index ≥ node.numPpn) || testBit node.memMap index) = false := by
      rw [clear, Bool.or_false, decide_eq_false (by omega)]
    rw [pagesAvailable, present]
    apply ih
    intro page lower upper
    exact free page (by omega) (by omega)

theorem findSpot_succ {remaining index : Nat} [Decidable (RunAt node area index)] (inside : index < node.numPpn) :
    findSpot node area (remaining + 1) index =
      if RunAt node area index then some index else findSpot node area remaining (index + 1) := by
  have tests : RunAt node area index ↔ testBit node.memMap index = false ∧
      pagesAvailable node (ulong (index + area) - (index + 1)) (index + 1) = true := by
    rw [pagesAvailable_iff]
    constructor
    · rintro ⟨_, first, rest⟩
      exact ⟨first, fun page lower upper => rest page (by omega) (by omega)⟩
    · rintro ⟨first, rest⟩
      exact ⟨inside, first, fun page lower upper => rest page (by omega) (by omega)⟩
  rw [findSpot]
  simp only [tests]
  cases testBit node.memMap index with
  | true => simp
  | false => simp

variable {start : Nat}

theorem findSpot_eq_some {remaining : Nat} (whole : start + remaining = node.numPpn) :
    findSpot node area remaining start = some spot ↔ FirstRun node area start spot := by
  classical
  induction remaining generalizing start with
  | zero =>
    constructor
    · intro found
      cases found
    intro first
    have inside := first.run.inside
    have lower := first.lower
    omega
  | succ remaining ih =>
    rw [findSpot_succ (by omega)]
    split
    next here =>
      rw [Option.some.injEq]
      constructor
      · rintro rfl
        exact ⟨Nat.le_refl _, here, fun earlier lower upper => by omega⟩
      · intro first
        by_contra apart
        exact first.least start (Nat.le_refl _) (Nat.lt_of_le_of_ne first.lower apart) here
    next notHere =>
      rw [ih (by omega)]
      constructor
      · rintro ⟨lower, run, least⟩
        refine ⟨by omega, run, fun earlier from_ upper => ?_⟩
        by_cases atStart : earlier = start
        · rw [atStart]
          exact notHere
        · exact least earlier (by omega) upper
      · rintro ⟨lower, run, least⟩
        have apart : spot ≠ start := fun same => notHere (same ▸ run)
        exact ⟨by omega, run, fun earlier from_ upper => least earlier (by omega) upper⟩

theorem findSpot_iff :
    findSpot node area (node.numPpn - start) start = some spot ↔ FirstRun node area start spot := by
  by_cases inside : start ≤ node.numPpn
  · exact findSpot_eq_some (by omega)
  · rw [Nat.sub_eq_zero_of_le (by omega)]
    constructor
    · intro found
      cases found
    · intro first
      have inNode := first.run.inside
      have lower := first.lower
      omega

theorem FirstRun.unique {other : Nat} (first : FirstRun node area start spot)
    (second : FirstRun node area start other) : spot = other :=
  Option.some.inj ((findSpot_iff.mpr first).symm.trans (findSpot_iff.mpr second))

def NoRun (node : BootmemNode) (area start : Nat) : Prop :=
  ∀ spot, start ≤ spot → ¬ RunAt node area spot

theorem noRun_or_firstRun (node : BootmemNode) (area start : Nat) :
    NoRun node area start ∨ ∃ spot, FirstRun node area start spot := by
  classical
  by_cases some : ∃ spot, start ≤ spot ∧ RunAt node area spot
  · obtain ⟨lower, run⟩ := Nat.find_spec some
    exact .inr ⟨Nat.find some, lower, run, fun earlier from_ upper found =>
      Nat.find_min some upper ⟨from_, found⟩⟩
  · exact .inl fun spot lower run => some ⟨spot, lower, run⟩

theorem NoRun.findSpot (none : NoRun node area start) :
    Memory.findSpot node area (node.numPpn - start) start = Option.none := by
  cases found : Memory.findSpot node area (node.numPpn - start) start with
  | none => rfl
  | some spot =>
    have first := findSpot_iff.mp found
    exact absurd first.run (none spot first.lower)

def ScanFrom (node : BootmemNode) (area : Nat) (starts : Nat × Nat) (start : Nat) : Prop :=
  (start = starts.1 ∧ ¬ NoRun node area starts.1) ∨ (start = starts.2 ∧ NoRun node area starts.1)

theorem ScanFrom.unique {starts : Nat × Nat} {other : Nat}
    (scan : ScanFrom node area starts start) (second : ScanFrom node area starts other) : start = other := by
  rcases scan with ⟨rfl, some⟩ | ⟨rfl, none⟩
  · rcases second with ⟨rfl, _⟩ | ⟨_, none⟩
    · rfl
    · exact absurd none some
  · rcases second with ⟨_, some⟩ | ⟨rfl, _⟩
    · exact absurd none some
    · rfl

theorem findSpotFrom_iff {starts : Nat × Nat} : findSpotFrom node area starts = some spot ↔
      ∃ start, ScanFrom node area starts start ∧ FirstRun node area start spot := by
  rw [findSpotFrom]
  rcases noRun_or_firstRun node area starts.1 with none | ⟨found, first⟩
  · rw [none.findSpot]
    dsimp only
    rw [findSpot_iff]
    constructor
    · intro second
      exact ⟨starts.2, .inr ⟨rfl, none⟩, second⟩
    · rintro ⟨start, ⟨_, some⟩ | ⟨rfl, _⟩, second⟩
      · exact absurd none some
      · exact second
  · rw [findSpot_iff.mpr first]
    have some : ¬ NoRun node area starts.1 := fun none => none found first.lower first.run
    dsimp only
    rw [Option.some.injEq]
    constructor
    · rintro rfl
      exact ⟨starts.1, .inl ⟨rfl, some⟩, first⟩
    · rintro ⟨start, ⟨rfl, _⟩ | ⟨_, none⟩, second⟩
      · exact first.unique second
      · exact absurd none some

end

def goalOffset (node : BootmemNode) (goal : Nat) : Nat :=
  if goal ≠ 0 ∧ goal >>> pageShift ≥ node.beginPpn ∧
      goal >>> pageShift < ulong (node.beginPpn + node.numPpn) then
    ulongSub goal (ulong (node.beginPpn <<< pageShift))
  else 0

section
variable {node : BootmemNode} {power : Nat}

theorem two_pow_lt (small : power < 64) : 2 ^ power < 2 ^ 64 := Nat.pow_lt_pow_right (by decide) small

theorem two_pow_split (large : 12 ≤ power) : 2 ^ power = 2 ^ (power - 12) * 4096 := by
  rw [show 4096 = 2 ^ 12 from rfl, ← Nat.pow_add, Nat.sub_add_cancel large]

theorem ulongSub_two_pow_one (small : power < 64) : ulongSub (2 ^ power) 1 = 2 ^ power - 1 :=
  ulongSub_of_le (Nat.two_pow_pos power) (two_pow_lt small)

theorem ulong_roundUp_wraps (value : Nat) (small : power < 64) :
    ∃ quotient, ulongSub (ulong (value + 2 ^ power)) 1 &&& ulongNot (ulongSub (2 ^ power) 1) =
      quotient * 2 ^ power ∧ quotient * 2 ^ power < 2 ^ 64 := by
  have bound : ulongSub (ulong (value + 2 ^ power)) 1 < 2 ^ 64 := Nat.mod_lt _ (by decide)
  rw [ulongSub_two_pow_one small, and_ulongNot_mask bound (by omega)]
  exact ⟨_, rfl, Nat.lt_of_le_of_lt (Nat.div_mul_le_self _ _) bound⟩

theorem base_aligned (begins : Nat) (large : 12 ≤ power) (small : power < 64) :
    (ulongSub (2 ^ power) (ulong (begins <<< pageShift) &&& ulongSub (2 ^ power) 1) &&&
        ulongSub (2 ^ power) 1) >>> pageShift =
      (2 ^ (power - 12) - begins % 2 ^ (power - 12)) % 2 ^ (power - 12) := by
  have bound := two_pow_lt small
  have divides : 2 ^ power ∣ 2 ^ 64 := Nat.pow_dvd_pow 2 (by omega)
  have remainder := Nat.mod_lt begins (Nat.two_pow_pos (power - 12))
  rw [ulongSub_two_pow_one small, Nat.and_two_pow_sub_one_eq_mod, Nat.and_two_pow_sub_one_eq_mod,
    shiftLeft_pageShift, shiftRight_pageShift, ulong, Nat.mod_mod_of_dvd _ divides]
  rw [two_pow_split large] at bound ⊢
  rw [Nat.mul_mod_mul_right, ulongSub_of_le (Nat.mul_le_mul_right _ (Nat.le_of_lt remainder)) bound,
    ← Nat.sub_mul, Nat.mul_mod_mul_right, Nat.mul_div_cancel _ (by decide)]

theorem dvd_complement_add (value : Nat) {unit : Nat} (positive : 0 < unit) :
    unit ∣ (unit - value % unit) % unit + value := by
  have split := Nat.div_add_mod value unit
  have remainder := Nat.mod_lt value positive
  rcases Nat.eq_zero_or_pos (value % unit) with zero | some
  · rw [zero, Nat.sub_zero, Nat.mod_self, Nat.zero_add]
    exact Nat.dvd_of_mod_eq_zero zero
  · rw [Nat.mod_eq_of_lt (by omega)]
    refine ⟨value / unit + 1, ?_⟩
    rw [Nat.mul_add, Nat.mul_one]
    omega

theorem scanStarts_aligned (node : BootmemNode) (goal : Nat) (large : 12 ≤ power) (small : power < 64) :
    2 ^ (power - 12) ∣ (scanStarts node (2 ^ power) goal).1 + node.beginPpn ∧
      2 ^ (power - 12) ∣ (scanStarts node (2 ^ power) goal).2 + node.beginPpn := by
  have unitPositive := Nat.two_pow_pos (power - 12)
  have base := dvd_complement_add node.beginPpn unitPositive
  have baseBound : (2 ^ (power - 12) - node.beginPpn % 2 ^ (power - 12)) % 2 ^ (power - 12) <
      2 ^ 52 := Nat.lt_of_lt_of_le (Nat.mod_lt _ unitPositive)
    (Nat.pow_le_pow_right (by decide) (by omega))
  have goalPart : (if goal ≠ 0 ∧ goal >>> pageShift ≥ node.beginPpn ∧
      goal >>> pageShift < ulong (node.beginPpn + node.numPpn) then
      ulongSub goal (ulong (node.beginPpn <<< pageShift)) else 0) = goalOffset node goal := rfl
  obtain ⟨quotient, rounded, bounded⟩ := ulong_roundUp_wraps (goalOffset node goal) small
  unfold scanStarts
  rw [if_pos (Nat.ne_of_gt (Nat.two_pow_pos power))]
  dsimp only
  rw [base_aligned node.beginPpn large small, goalPart]
  rw [two_pow_split large, ← Nat.mul_assoc] at bounded
  rw [rounded, shiftRight_pageShift, two_pow_split large, ← Nat.mul_assoc,
    Nat.mul_div_cancel _ (by decide), ulong_of_lt (by omega), Nat.add_assoc]
  exact ⟨Nat.dvd_add (Dvd.intro_left _ rfl) base, base⟩

theorem dvd_ulong {value : Nat} (small : power ≤ 64) : 2 ^ power ∣ ulong value ↔ 2 ^ power ∣ value :=
  Nat.dvd_mod_iff (Nat.pow_dvd_pow 2 small)

variable {alignment : Nat}

theorem Continues.address (continues : Continues node alignment spot) (size area : Nat) :
    (placeRequest node size alignment spot area).1 = pmaPa2Va (ulong
      ((ulongSub (ulong (node.lastPageOffset + alignment)) 1 &&& ulongNot (ulongSub alignment 1)) +
        ulong (ulong (node.lastPage + node.beginPpn) <<< pageShift))) := by
  unfold Continues at continues
  rw [placeRequest, if_pos continues]
  simp only [apply_ite Prod.fst, ite_self]

theorem fresh_address (fresh : ¬ Continues node alignment spot) (size area : Nat) :
    (placeRequest node size alignment spot area).1 =
      pmaPa2Va (ulong (ulong (spot + node.beginPpn) <<< pageShift)) := by
  unfold Continues at fresh
  rw [placeRequest, if_neg fresh]

theorem takeSpot_address {size area address : Nat} {memory memory' : Memory} {after : BootmemNode}
    (run : takeSpot node size alignment spot area memory = .ok (address, after, memory')) :
    address = (placeRequest node size alignment spot area).1 := by
  obtain ⟨memMap, _, final⟩ := Result.bind_ok run
  cases final
  rfl

theorem placeRequest_aligned (node : BootmemNode) (size spot area : Nat) (small : power ≤ 12) :
    2 ^ power ∣ pmaVa2Pa (placeRequest node size (2 ^ power) spot area).1 := by
  have inWindow : 2 ^ power ∣ 2 ^ 38 := Nat.pow_dvd_pow 2 (by omega)
  have page (number : Nat) : 2 ^ power ∣ ulong (ulong number <<< pageShift) := by
    rw [dvd_ulong (by omega), shiftLeft_pageShift]
    exact Dvd.dvd.mul_left (Nat.pow_dvd_pow 2 small) _
  by_cases continues : Continues node (2 ^ power) spot
  · obtain ⟨quotient, rounded, _⟩ := ulong_roundUp_wraps node.lastPageOffset (show power < 64 by omega)
    rw [continues.address, rounded, pmaVa2Pa_pmaPa2Va, Nat.dvd_mod_iff inWindow, dvd_ulong (by omega)]
    exact Nat.dvd_add (Dvd.intro_left _ rfl) (page _)
  · rw [fresh_address continues, pmaVa2Pa_pmaPa2Va, Nat.dvd_mod_iff inWindow]
    exact page _

theorem page_aligned_iff (number : Nat) (large : 12 < power) (small : power < 64) :
    2 ^ power ∣ pmaVa2Pa (pmaPa2Va (ulong (ulong number <<< pageShift))) ↔
      2 ^ (min power 38 - 12) ∣ number := by
  have physical : pmaVa2Pa (pmaPa2Va (ulong (ulong number <<< pageShift))) = number % 2 ^ 26 * 4096 := by
    rw [pmaVa2Pa_pmaPa2Va, shiftLeft_pageShift]
    unfold ulong
    omega
  rw [physical]
  by_cases inWindow : power ≤ 38
  · rw [Nat.min_eq_left inWindow, two_pow_split (by omega),
      Nat.mul_dvd_mul_iff_right (by decide), Nat.dvd_mod_iff (Nat.pow_dvd_pow 2 (by omega))]
  · rw [Nat.min_eq_right (by omega)]
    have bound : 2 ^ 38 < 2 ^ power := Nat.pow_lt_pow_right (by decide) (by omega)
    constructor
    · intro divides
      have zero := Nat.eq_zero_of_dvd_of_lt divides (by omega)
      exact Nat.dvd_of_mod_eq_zero (by omega)
    · intro divides
      rw [Nat.mod_eq_zero_of_dvd divides, Nat.zero_mul]
      exact Nat.dvd_zero _

end

/-- The scan that finds the request goes from its start in whole steps of the alignment, or the
alignment is at most a page. -/
def StepsAligned (node : BootmemNode) (size power goal : Nat) : Prop :=
  power ≤ 12 ∨ ∀ start spot,
    ScanFrom node (areaSize size) (scanStarts node (2 ^ power) goal) start →
    FirstRun node (areaSize size) start spot → 2 ^ (min power 38 - 12) ∣ spot - start

/-- What `bootmem_alloc` returns is aligned exactly when the first free run happens to lie a
multiple of the alignment after the start of its scan: the step that the code computes is not
used. -/
theorem bootmem_aligned_iff {node after : BootmemNode} {memory memory' : Memory}
    {size power goal address : Nat} (positive : 0 < size) (small : power < 64)
    (run : bootmemAlloc size (2 ^ power) goal node memory = .ok (address, after, memory'))
    (returned : address ≠ 0) : 2 ^ power ∣ pmaVa2Pa address ↔ StepsAligned node size power goal := by
  rw [bootmemAlloc_eq goal node memory positive (two_pow_isPower small)] at run
  cases found : findSpotFrom node (areaSize size) (scanStarts node (2 ^ power) goal) with
  | none =>
    rw [found] at run
    cases run
    exact absurd rfl returned
  | some spot =>
    rw [found] at run
    obtain rfl := takeSpot_address run
    obtain ⟨start, scan, first⟩ := findSpotFrom_iff.mp found
    by_cases inPage : power ≤ 12
    · exact iff_of_true (placeRequest_aligned node size spot _ inPage) (.inl inPage)
    · have fresh : ¬ Continues node (2 ^ power) spot := by
        rintro ⟨atMost, _⟩
        have above : 2 ^ 12 < 2 ^ power := Nat.pow_lt_pow_right (by decide) (by omega)
        unfold pageSize at atMost
        omega
      have startAligned : 2 ^ (min power 38 - 12) ∣ start + node.beginPpn := by
        have divides : 2 ^ (min power 38 - 12) ∣ 2 ^ (power - 12) := Nat.pow_dvd_pow 2 (by omega)
        obtain ⟨preferred, base⟩ := scanStarts_aligned node goal (by omega) small
        rcases scan with ⟨rfl, _⟩ | ⟨rfl, _⟩
        · exact divides.trans preferred
        · exact divides.trans base
      have lower := first.lower
      rw [fresh_address fresh, page_aligned_iff _ (by omega) small,
        show spot + node.beginPpn = start + node.beginPpn + (spot - start) by omega,
        Nat.dvd_add_right startAligned]
      constructor
      · intro divides
        refine .inr fun otherStart otherSpot otherScan otherFirst => ?_
        obtain rfl := scan.unique otherScan
        obtain rfl := first.unique otherFirst
        exact divides
      · rintro (inPage' | steps)
        · exact absurd inPage' inPage
        · exact steps start spot scan first

/-- The first two of four pages are taken, so the scan finds the third. -/
theorem bootmem_aligned_iff_third : ∃ address after memory,
      bootmemAlloc 4096 (2 ^ 13) 0 (smallNode 4 3) (fun _ => 0xff) = .ok (address, after, memory) ∧ address ≠ 0 ∧
      StepsAligned (smallNode 4 3) 4096 13 0 := by
  obtain ⟨⟨address, after, memory⟩, run, notNull, aligned⟩ :
      ∃ given, bootmemAlloc 4096 (2 ^ 13) 0 (smallNode 4 3) (fun _ => 0xff) = .ok given ∧
        given.1 ≠ 0 ∧ 2 ^ 13 ∣ pmaVa2Pa given.1 := by decide +kernel
  exact ⟨address, after, memory, run, notNull, (bootmem_aligned_iff (by decide) (by decide) run notNull).mp aligned⟩

/-- Only the first page is taken, and the request for 8 KiB alignment gets the second. -/
theorem bootmemAlloc_unaligned : ∃ address after memory,
      bootmemAlloc 4096 (2 ^ 13) 0 (smallNode 4 1) (fun _ => 0xff) = .ok (address, after, memory) ∧ address ≠ 0 ∧
      ¬ 2 ^ 13 ∣ pmaVa2Pa address := by
  obtain ⟨given, found⟩ : ∃ given, bootmemAlloc 4096 (2 ^ 13) 0 (smallNode 4 1) (fun _ => 0xff) = .ok given ∧
      given.1 ≠ 0 ∧ ¬ 2 ^ 13 ∣ pmaVa2Pa given.1 := by decide +kernel
  exact ⟨_, _, _, found⟩

def HasRun (node : BootmemNode) (count : Nat) : Prop :=
  ∃ first, first + count ≤ node.numPpn ∧
    ∀ page, first ≤ page → page < first + count → testBit node.memMap page = false

theorem scanStarts_base (node : BootmemNode) (goal : Nat) {power : Nat} (small : power ≤ 12) :
    (scanStarts node (2 ^ power) goal).2 = 0 := by
  have inPage : 2 ^ power ≤ 2 ^ 12 := Nat.pow_le_pow_right (by decide) small
  have positive := Nat.two_pow_pos power
  unfold scanStarts
  dsimp only
  rw [if_pos (Nat.ne_of_gt positive), ulongSub_two_pow_one (by omega), shiftRight_pageShift]
  have masked := @Nat.and_le_right
    (ulongSub (2 ^ power) (ulong (node.beginPpn <<< pageShift) &&& (2 ^ power - 1))) (2 ^ power - 1)
  exact Nat.div_eq_of_lt (by omega)

theorem findSpotFrom_none_iff {node : BootmemNode} {area : Nat} {starts : Nat × Nat}
    (bounded : node.numPpn + area < 2 ^ 64) (base : starts.2 = 0) (positive : 0 < area) :
    findSpotFrom node area starts = none ↔ ¬ HasRun node area := by
  constructor
  · rintro none ⟨first, inside, clear⟩
    have run : RunAt node area first := by
      refine ⟨by omega, clear first (Nat.le_refl _) (by omega), fun page lower upper => ?_⟩
      rw [ulong_of_lt (by omega)] at upper
      exact ⟨by omega, clear page (by omega) upper⟩
    rcases noRun_or_firstRun node area starts.1 with none' | ⟨spot, early⟩
    · rcases noRun_or_firstRun node area 0 with noneAtAll | ⟨spot, late⟩
      · exact noneAtAll first (Nat.zero_le _) run
      · rw [findSpotFrom_iff.mpr ⟨starts.2, .inr ⟨rfl, none'⟩, base ▸ late⟩] at none
        cases none
    · have some : ¬ NoRun node area starts.1 := fun none' => none' spot early.lower early.run
      rw [findSpotFrom_iff.mpr ⟨starts.1, .inl ⟨rfl, some⟩, early⟩] at none
      cases none
  · intro noRun
    cases found : findSpotFrom node area starts with
    | none => rfl
    | some spot =>
      obtain ⟨_, clear⟩ := findSpotFrom_clear bounded found
      have last := clear (spot + area - 1) (by omega) (by omega)
      exact absurd ⟨spot, by omega, fun page lower upper => (clear page lower upper).2⟩ noRun

theorem placeRequest_ne_zero (node : BootmemNode) (size alignment spot area : Nat) :
    (placeRequest node size alignment spot area).1 ≠ 0 := by
  by_cases continues : Continues node alignment spot
  · rw [continues.address]
    exact pmaPa2Va_ne_zero _
  · rw [fresh_address continues]
    exact pmaPa2Va_ne_zero _

/-- `bootmem_alloc` returns null exactly when there is no run of free pages.  A node has fewer
than 2^52 pages: their numbers are those of 64-bit addresses. -/
theorem bootmemAlloc_null_iff {node : BootmemNode} {size power : Nat} (goal : Nat) (memory : Memory)
    (pages : node.numPpn < 2 ^ 52) (positive : 0 < size) (bounded : size + pageSize - 1 < 2 ^ 64)
    (small : power ≤ 12) : ∃ address after memory', bootmemAlloc size (2 ^ power) goal node memory =
        .ok (address, after, memory') ∧
      (address = 0 ↔ ¬ HasRun node ((size + pageSize - 1) / pageSize)) ∧
      (address = 0 → after = node ∧ memory' = memory) := by
  have bounded : size + 4095 < 2 ^ 64 := bounded
  rw [show (size + pageSize - 1) / pageSize = (size + 4095) / 4096 from rfl,
    ← @findSpotFrom_none_iff node _ (scanStarts node (2 ^ power) goal) (by omega)
      (scanStarts_base node goal small) (by omega),
    bootmemAlloc_eq goal node memory positive (two_pow_isPower (by omega)), areaSize_eq bounded]
  cases found : findSpotFrom node ((size + 4095) / 4096) (scanStarts node (2 ^ power) goal) with
  | none => exact ⟨0, node, memory, rfl, iff_of_true rfl rfl, fun _ => ⟨rfl, rfl⟩⟩
  | some spot =>
    have clear := findSpotFrom_clear (by omega) found
    obtain ⟨address, marked, placed, place, _⟩ := placeRequest_few node (2 ^ power) spot bounded
    obtain ⟨_, memMap, run, _⟩ := takeSpot_runs memory place bounded (by omega)
      (fun page lower upper => (clear.2 page lower upper).2)
    have notNull := placeRequest_ne_zero node size (2 ^ power) spot ((size + 4095) / 4096)
    rw [place] at notNull
    refine ⟨address, _, _, run, iff_of_false notNull (by rintro ⟨⟩), fun null => absurd null notNull⟩

/-- Of four pages the second is taken; three in a row are not to be had. -/
theorem bootmemAlloc_null_iff_taken : ∃ after memory,
      bootmemAlloc 8193 (2 ^ 3) 0x80001000 (smallNode 4 2) (fun _ => 0xff) = .ok (0, after, memory) ∧
      ¬ HasRun (smallNode 4 2) 3 := by
  obtain ⟨_, run, found⟩ : ∃ given, bootmemAlloc 8193 (2 ^ 3) 0x80001000 (smallNode 4 2) (fun _ => 0xff) = .ok given ∧
      given.1 = 0 := by decide +kernel
  obtain ⟨address, after, memory, again, null, _⟩ := @bootmemAlloc_null_iff (smallNode 4 2) 8193 3 0x80001000
    (fun _ => 0xff) (by decide) (by decide) (by decide) (by decide)
  cases run.symm.trans again
  obtain rfl : address = 0 := found
  exact ⟨after, memory, again, null.mp rfl⟩

end Kalorona.Memory
