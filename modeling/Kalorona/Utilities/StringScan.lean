import Kalorona.Data.Trace
import Kalorona.Kernel.Machine

namespace Kalorona.Utilities

open Kalorona.Data

/-! # String functions and the bytes that they touch

`strlen`, `strrchr` and `strncpy` go through memory byte by byte, without knowing where the
strings and buffers end that they were given.
-/

/-- The loop of `strlen`; the fuel bounds the number of rounds. -/
def strlenLoop (s : Nat) : Nat → Nat → Traced Stop Nat
  | 0, _ => throw .hang
  | fuel + 1, ret => do
      if (← Traced.load (s + ret)) ≠ 0 then strlenLoop s fuel (ret + 1) else return ret

def strlen (fuel s : Nat) : Traced Stop Nat :=
  if s = 0 then return 0 else strlenLoop s fuel 0

/-- The loop of `strrchr`, which goes down to the first character. -/
def strrchrLoop (str : Nat) (ch : UInt8) : Nat → Traced Stop Nat
  | 0 => return 0
  | tail + 1 => do
      if tail + 1 > str then
        if (← Traced.load (tail + 1)) ≠ ch then strrchrLoop str ch tail else return tail + 1
      else return tail + 1

def strrchr (fuel str : Nat) (ch : Int) : Traced Stop Nat := do
  let length ← strlen fuel str
  let tail ← strrchrLoop str (UInt8.ofInt ch) (ulongSub (ulong (str + length)) 1)
  if (← Traced.load tail) ≠ UInt8.ofInt ch then return 0 else return tail

/-- The loop of `strncpy`: where it stops writing. -/
def strncpyLoop : Nat → Nat → Nat → Traced Stop Nat
  | 0, dst, _ => return dst
  | siz + 1, dst, src => do
      if (← Traced.load src) ≠ 0 then
        Traced.store dst (← Traced.load src)
        strncpyLoop siz (dst + 1) (src + 1)
      else return dst

def strncpy (dst src siz : Nat) : Traced Stop Nat := do
  let last ← strncpyLoop siz dst src
  Traced.store last 0
  return dst

theorem strlenLoop_spec {s ret fuel : Nat} {text : List UInt8} {trace : Trace}
    (string : trace.memory.HoldsString (s + ret) text) (enough : text.length < fuel) :
    ∃ after, strlenLoop s fuel ret trace = .ok (ret + text.length, after) ∧
      Trace.Touches (Set.Icc (s + ret) (s + ret + text.length)) ∅ trace after := by
  induction text generalizing ret fuel trace with
  | nil =>
    obtain ⟨fuel, rfl⟩ := Nat.exists_eq_add_one.mpr enough
    have terminator : trace.memory (s + ret) = 0 := string
    have inside : s + ret ∈ Set.Icc (s + ret) (s + ret + 0) := Set.mem_Icc.mpr ⟨Nat.le_refl _, Nat.le_refl _⟩
    exact ⟨trace.read (s + ret), by simp [strlenLoop, terminator], .read inside trace⟩
  | cons c text ih =>
    obtain ⟨fuel, rfl⟩ := Nat.exists_eq_add_one.mpr (Nat.zero_lt_of_lt enough)
    obtain ⟨here, nonzero, rest⟩ := string
    rw [List.length_cons] at enough ⊢
    obtain ⟨after, run, touches⟩ := @ih (ret + 1) fuel (trace.read (s + ret)) rest (by omega)
    refine ⟨after, ?_, ?_⟩
    · rw [strlenLoop, Traced.load_bind, here, if_pos nonzero, run]
      congr 2
      omega
    · have inside : s + ret ∈ Set.Icc (s + ret) (s + ret + (text.length + 1)) :=
        Set.mem_Icc.mpr ⟨by omega, by omega⟩
      exact (Trace.Touches.read inside trace).trans
        (touches.mono (Set.Icc_subset_Icc (by omega) (by omega)) subset_rfl)

theorem strlen_spec {s fuel : Nat} {text : List UInt8} {trace : Trace} (notNull : s ≠ 0)
    (string : trace.memory.HoldsString s text) (enough : text.length < fuel) :
    ∃ after, strlen fuel s trace = .ok (text.length, after) ∧
      Trace.Touches (Set.Icc s (s + text.length)) ∅ trace after := by
  obtain ⟨after, run, touches⟩ := @strlenLoop_spec s 0 fuel text trace string enough
  rw [Nat.zero_add] at run
  rw [strlen, if_neg notNull]
  exact ⟨after, run, touches⟩

theorem strrchrLoop_stops {str tail : Nat} {ch : UInt8} (passed : tail ≤ str) :
    strrchrLoop str ch tail = return tail := by
  cases tail with
  | zero => rfl
  | succ tail => rw [strrchrLoop, if_neg (by omega)]

theorem strrchrLoop_spec (str last : Nat) (ch : UInt8) (trace : Trace) :
    ∃ found after, strrchrLoop str ch (str + last) trace = .ok (str + found, after) ∧ found ≤ last ∧
      (trace.memory (str + found) = ch ∨ found = 0) ∧
      (∀ later, found < later → later ≤ last → trace.memory (str + later) ≠ ch) ∧
      Trace.Touches (Set.Icc str (str + last)) ∅ trace after := by
  induction last generalizing trace with
  | zero =>
    refine ⟨0, trace, ?_, Nat.le_refl 0, .inr rfl, fun later _ _ => by omega, .refl _ _ trace⟩
    rw [Nat.add_zero, strrchrLoop_stops (Nat.le_refl str)]
    rfl
  | succ last ih =>
    have inside : str + last + 1 ∈ Set.Icc str (str + (last + 1)) := Set.mem_Icc.mpr ⟨by omega, by omega⟩
    have reads : Trace.Touches _ ∅ trace (trace.read (str + last + 1)) := .read inside trace
    have unfolded : strrchrLoop str ch (str + (last + 1)) trace = if trace.memory (str + last + 1) ≠ ch then
          strrchrLoop str ch (str + last) (trace.read (str + last + 1))
        else .ok (str + last + 1, trace.read (str + last + 1)) := by
      rw [← Nat.add_assoc, strrchrLoop, if_pos (by omega), Traced.load_bind]
      split <;> rfl
    rw [unfolded]
    by_cases here : trace.memory (str + last + 1) = ch
    · rw [if_neg (not_not.mpr here)]
      exact ⟨last + 1, _, rfl, Nat.le_refl _, .inl here, fun later _ _ => by omega, reads⟩
    · obtain ⟨found, after, run, bound, stop, none, touches⟩ := ih (trace.read (str + last + 1))
      rw [if_pos here]
      refine ⟨found, after, run, by omega, stop, ?_, ?_⟩
      · intro later above below
        rcases Nat.lt_or_eq_of_le below with earlier | rfl
        · exact none later above (by omega)
        · exact here
      · exact reads.trans (touches.mono (Set.Icc_subset_Icc (Nat.le_refl _) (by omega)) subset_rfl)

section
variable {fuel str : Nat} {ch : Int} {text : List UInt8} {trace : Trace}

/-- What `strrchr` should return: the address of the last `c`, or null where there is none. -/
structure IsLast (str : Nat) (text : List UInt8) (c : UInt8) (result : Nat) : Prop where
  null : result = 0 ↔ c ∉ text
  last : result ≠ 0 → ∃ before after, text = before ++ c :: after ∧ c ∉ after ∧
    result = str + before.length

theorem IsLast.of_found {memory : Memory} {found : Nat} {c : UInt8} (notNull : str ≠ 0)
    (string : memory.HoldsString str text) (bound : found < text.length) (here : memory (str + found) = c)
    (none : ∀ later, found < later → later < text.length → memory (str + later) ≠ c) :
    IsLast str text c (str + found) := by
  rw [string.getElem bound] at here
  have absent : c ∉ text.drop (found + 1) := by
    intro member
    obtain ⟨i, inside, same⟩ := List.mem_iff_getElem.mp member
    rw [List.length_drop] at inside
    rw [List.getElem_drop] at same
    refine none (found + 1 + i) (by omega) (by omega) ?_
    rw [string.getElem (by omega), same]
  constructor
  · have notZero : str + found ≠ 0 := by omega
    have present : c ∈ text := here ▸ List.getElem_mem bound
    exact iff_of_false notZero (not_not.mpr present)
  · intro _
    refine ⟨text.take found, text.drop (found + 1), ?_, absent, ?_⟩
    · rw [← here, ← List.drop_eq_getElem_cons bound, List.take_append_drop]
    · rw [List.length_take, Nat.min_eq_left (Nat.le_of_lt bound)]

theorem IsLast.of_absent {c : UInt8} (absent : c ∉ text) : IsLast str text c 0 :=
  ⟨by simp [absent], fun notNull => absurd rfl notNull⟩

theorem strrchr_spec (notNull : str ≠ 0) (string : trace.memory.HoldsString str text)
    (fits : str + text.length < 2 ^ 64) (enough : text.length < fuel) (nonempty : text ≠ []) :
    ∃ result after, strrchr fuel str ch trace = .ok (result, after) ∧
      Trace.Touches (Set.Icc str (str + text.length)) ∅ trace after ∧
      IsLast str text (UInt8.ofInt ch) result := by
  have some : 0 < text.length := List.length_pos_iff.mpr nonempty
  obtain ⟨middle, measured, reads⟩ := strlen_spec notNull string enough
  have tail : ulongSub (ulong (str + text.length)) 1 = str + (text.length - 1) := by
    rw [ulong_of_lt fits, ulongSub_of_le (by omega) fits, Nat.add_sub_assoc some]
  obtain ⟨found, after, run, bound, stop, none, touches⟩ :=
    strrchrLoop_spec str (text.length - 1) (UInt8.ofInt ch) middle
  rw [reads.memory_eq] at stop none
  have inside : str + found ∈ Set.Icc str (str + text.length) := Set.mem_Icc.mpr ⟨by omega, by omega⟩
  have within : Trace.Touches (Set.Icc str (str + text.length)) ∅ trace (after.read (str + found)) :=
    (reads.trans (touches.mono (Set.Icc_subset_Icc (Nat.le_refl _) (by omega)) subset_rfl)).trans
      (.read inside after)
  have steps : strrchr fuel str ch trace =
      .ok (if trace.memory (str + found) ≠ UInt8.ofInt ch then 0 else str + found, after.read (str + found)) := by
    rw [strrchr, Traced.bind_of_ok measured, tail, Traced.bind_of_ok run, Traced.load_bind,
      touches.memory_eq, reads.memory_eq]
    split <;> rfl
  refine ⟨_, _, steps, within, ?_⟩
  by_cases here : trace.memory (str + found) = UInt8.ofInt ch
  · rw [if_neg (not_not.mpr here)]
    exact .of_found notNull string (by omega) here fun later above below => none later above (by omega)
  · rw [if_pos here]
    apply IsLast.of_absent
    intro member
    obtain ⟨i, inside, same⟩ := List.mem_iff_getElem.mp member
    rw [← string.getElem inside] at same
    rcases Nat.eq_zero_or_pos i with rfl | later
    · exact here (stop.resolve_left here ▸ same)
    · exact none i (stop.resolve_left here ▸ later) (by omega) same

theorem strrchr_empty (notNull : str ≠ 0) (empty : trace.memory str = 0) (fits : str < 2 ^ 64) (enough : 0 < fuel) :
    ∃ result after, strrchr fuel str ch trace = .ok (result, after) ∧ str - 1 ∈ after.reads := by
  obtain ⟨middle, measured, _⟩ := @strlen_spec str fuel [] trace notNull empty enough
  have tail : ulongSub (ulong (str + 0)) 1 = str - 1 := by
    rw [Nat.add_zero, ulong_of_lt fits, ulongSub_of_le (by omega) fits]
  have steps : strrchr fuel str ch trace =
      .ok (if middle.memory (str - 1) ≠ UInt8.ofInt ch then 0 else str - 1, middle.read (str - 1)) := by
    rw [strrchr, Traced.bind_of_ok measured, List.length_nil, tail, strrchrLoop_stops (Nat.sub_le str 1),
      pure_bind, Traced.load_bind]
    split <;> rfl
  exact ⟨_, _, steps, List.mem_cons_self⟩

/-- `strrchr` stays inside the string and finds the last occurrence of a character, except on
the empty string. -/
theorem strrchr_finds_last_iff {memory : Memory} (notNull : str ≠ 0) (string : memory.HoldsString str text)
    (fits : str + text.length < 2 ^ 64) (enough : text.length < fuel) :
    (∃ result after, strrchr fuel str ch (.start memory) = .ok (result, after) ∧
      (∀ address ∈ after.reads, str ≤ address ∧ address ≤ str + text.length) ∧
      IsLast str text (UInt8.ofInt ch) result) ↔ text ≠ [] := by
  constructor
  · rintro ⟨result, after, run, inside, _⟩ rfl
    obtain ⟨_, _, again, outside⟩ := @strrchr_empty fuel str ch (.start memory) notNull string fits enough
    cases again.symm.trans run
    have bounds := inside (str - 1) outside
    omega
  · intro nonempty
    obtain ⟨result, after, run, touches, isLast⟩ :=
      @strrchr_spec fuel str ch text (.start memory) notNull string fits enough nonempty
    refine ⟨result, after, run, ?_, isLast⟩
    intro address read
    exact Set.mem_Icc.mp ((touches.reads address read).resolve_left List.not_mem_nil)

end

/-- The last slash of `/a/b`, at 0x1000. -/
theorem strrchr_finds_last_iff_slash :
    let memory : Memory := fun address => [47, 97, 47, 98].getD (address - 0x1000) 0
    memory.HoldsString 0x1000 [47, 97, 47, 98] ∧
      ((∃ result after, strrchr 5 0x1000 47 (.start memory) = .ok (result, after) ∧
        (∀ address ∈ after.reads, 0x1000 ≤ address ∧ address ≤ 0x1000 + 4) ∧
        IsLast 0x1000 [47, 97, 47, 98] (UInt8.ofInt 47) result) ↔ [47, 97, 47, 98] ≠ ([] : List UInt8)) :=
  ⟨by decide, @strrchr_finds_last_iff 5 0x1000 47 [47, 97, 47, 98] _ (by decide) (by decide) (by decide)
    (by decide)⟩

/-- The empty string at 0x1000 behind a slash: `strrchr` returns the address of the slash. -/
theorem strrchr_leaves_empty_string :
    let memory : Memory := fun address => if address = 0xfff then 47 else 0
    memory.HoldsString 0x1000 [] ∧
      strrchr 1 0x1000 47 (.start memory) = .ok (0xfff, ⟨memory, [0xfff, 0x1000], []⟩) :=
  ⟨rfl, rfl⟩

section
variable {dst src siz : Nat} {text : List UInt8} {trace : Trace}

theorem strncpyLoop_spec (string : trace.memory.HoldsString src text)
    (apart : ∀ i < siz, ¬ (src ≤ dst + i ∧ dst + i ≤ src + text.length)) :
    ∃ after, strncpyLoop siz dst src trace = .ok (dst + min siz text.length, after) ∧
      Trace.Touches (Set.Icc src (src + text.length)) (Set.Ico dst (dst + min siz text.length)) trace after ∧
      ∀ i < min siz text.length, after.memory (dst + i) = trace.memory (src + i) := by
  induction siz generalizing dst src text trace with
  | zero =>
    rw [Nat.zero_min]
    exact ⟨trace, rfl, .refl _ _ trace, fun i below => absurd below (Nat.not_lt_zero i)⟩
  | succ siz ih =>
    have inside : src ∈ Set.Icc src (src + text.length) := Set.mem_Icc.mpr ⟨Nat.le_refl src, Nat.le_add_right ..⟩
    cases text with
    | nil =>
      have terminator : trace.memory src = 0 := string
      rw [List.length_nil, Nat.min_zero]
      refine ⟨trace.read src, ?_, .read inside trace, fun i below => absurd below (Nat.not_lt_zero i)⟩
      rw [strncpyLoop, Traced.load_bind, if_neg (not_not.mpr terminator)]
      rfl
    | cons c text =>
      obtain ⟨rfl, nonzero, rest⟩ := string
      rw [List.length_cons] at apart inside ⊢
      rw [Nat.add_min_add_right]
      have first := apart 0 (Nat.zero_lt_succ siz)
      let written := ((trace.read src).read src).write dst (trace.memory src)
      have steps : strncpyLoop (siz + 1) dst src trace = strncpyLoop siz (dst + 1) (src + 1) written := by
        rw [strncpyLoop, Traced.load_bind, if_pos nonzero]
        rfl
      -- the byte that was written lies outside what is left of the string
      have other : ∀ i ≤ text.length, written.memory (src + 1 + i) = trace.memory (src + 1 + i) :=
        fun i bound => Memory.store_other _ (by omega)
      obtain ⟨after, run, touches, copied⟩ := @ih (dst + 1) (src + 1) text written (rest.congr other) (by
        intro i below overlap
        exact apart (i + 1) (Nat.succ_lt_succ below) (by omega))
      have place : dst ∈ Set.Ico dst (dst + (min siz text.length + 1)) :=
        Set.mem_Ico.mpr ⟨Nat.le_refl dst, by omega⟩
      refine ⟨after, ?_, ?_, ?_⟩
      · rw [steps, run, Nat.add_assoc, Nat.add_comm 1]
      · refine (((Trace.Touches.read inside trace).trans (.read inside _)).trans (.write place _ _)).trans
          (touches.mono (Set.Icc_subset_Icc (by omega) (by omega)) ?_)
        exact Set.Ico_subset_Ico (by omega) (by omega)
      · intro i below
        cases i with
        | zero =>
          have untouched : dst ∉ Set.Ico (dst + 1) (dst + 1 + min siz text.length) := by
            simp
          exact (touches.memory dst untouched).trans (Memory.store_same _ _)
        | succ i =>
          have value := copied i (Nat.lt_of_succ_lt_succ below)
          rw [other i (by omega), Nat.add_assoc, Nat.add_assoc, Nat.add_comm 1] at value
          exact value

theorem strncpy_spec (string : trace.memory.HoldsString src text)
    (apart : ∀ i < siz, ¬ (src ≤ dst + i ∧ dst + i ≤ src + text.length)) :
    ∃ after, strncpy dst src siz trace = .ok (dst, after) ∧ dst + min siz text.length ∈ after.writes ∧
      Trace.Touches (Set.Icc src (src + text.length)) (Set.Icc dst (dst + min siz text.length)) trace after ∧
      ∀ i < min siz text.length, after.memory (dst + i) = trace.memory (src + i) := by
  obtain ⟨copied, run, touches, same⟩ := strncpyLoop_spec string apart
  have last : dst + min siz text.length ∈ Set.Icc dst (dst + min siz text.length) :=
    Set.mem_Icc.mpr ⟨Nat.le_add_right .., Nat.le_refl _⟩
  refine ⟨copied.write (dst + min siz text.length) 0, ?_, List.mem_cons_self, ?_, ?_⟩
  · rw [strncpy, Traced.bind_of_ok run]
    rfl
  · exact (touches.mono subset_rfl Set.Ico_subset_Icc_self).trans (.write last copied 0)
  · intro i below
    rw [← same i below]
    exact Memory.store_other 0 (by omega)

/-- `strncpy` keeps to its buffer of `siz` bytes exactly if the string is shorter than the buffer:
otherwise the terminator goes behind the buffer. -/
theorem strncpy_bounded_iff {memory : Memory} (string : memory.HoldsString src text)
    (apart : ∀ i < siz, ¬ (src ≤ dst + i ∧ dst + i ≤ src + text.length)) :
    (∃ after, strncpy dst src siz (.start memory) = .ok (dst, after) ∧
      (∀ address ∈ after.writes, dst ≤ address ∧ address < dst + siz) ∧
      ∀ i < min siz text.length, after.memory (dst + i) = memory (src + i)) ↔ text.length < siz := by
  obtain ⟨after, run, last, touches, copied⟩ := @strncpy_spec dst src siz text (.start memory) string apart
  constructor
  · rintro ⟨_, again, inside, _⟩
    cases run.symm.trans again
    have bounds := inside _ last
    omega
  · intro shorter
    refine ⟨after, run, ?_, copied⟩
    intro address written
    have bounds := Set.mem_Icc.mp ((touches.writes address written).resolve_left List.not_mem_nil)
    omega

end

/-- The string `ab` into four bytes. -/
theorem strncpy_bounded_iff_two_of_four :
    let memory : Memory := fun address => if address = 0 then 97 else if address = 1 then 98 else 0
    memory.HoldsString 0 [97, 98] ∧
      ((∃ after, strncpy 16 0 4 (.start memory) = .ok (16, after) ∧
        (∀ address ∈ after.writes, 16 ≤ address ∧ address < 16 + 4) ∧
        ∀ i < min 4 2, after.memory (16 + i) = memory (0 + i)) ↔ 2 < 4) :=
  ⟨by decide, @strncpy_bounded_iff 16 0 4 [97, 98] _ (by decide) (by decide)⟩

/-- The string `ab` into two bytes: the terminator is the third byte that is written. -/
theorem strncpy_writes_behind_buffer :
    let memory : Memory := fun address =>
      if address = 0 then 97 else if address = 1 then 98 else if address = 18 then 7 else 0
    memory.HoldsString 0 [97, 98] ∧
      ∃ after, strncpy 16 0 2 (.start memory) = .ok (16, after) ∧ after.writes = [18, 17, 16] ∧
        memory 18 = 7 ∧ after.memory 18 = 0 :=
  ⟨by decide, _, rfl, rfl, rfl, rfl⟩

end Kalorona.Utilities
