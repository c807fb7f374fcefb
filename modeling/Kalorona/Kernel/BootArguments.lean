import Kalorona.Console.Print
import Kalorona.Utilities.String
import Kalorona.Utilities.StringScan
import Kalorona.Utilities.Strtoul

namespace Kalorona

open Kalorona.Data Kalorona.Utilities Kalorona.Console

/-! # The arguments of the kernel

`kernel_main` copies its arguments one after the other into `vboot_cmd.argv`, which is at `base`; a
write behind its last byte is a stray access.
-/

def bootCommandMaxLen : Nat := 1024

def storeBootCommand (base index : Nat) (byte : UInt8) (memory : Memory) : Result Memory :=
  if index < bootCommandMaxLen then .ok (memory.store (base + index) byte) else .error .stray

def argumentByte (argv i ptr : Nat) (memory : Memory) : UInt8 :=
  memory (memory.load64 (argv + 8 * i) + ptr)

/-- The loop of `kernel_main` over the characters of one argument.  It writes one byte a round, so
it cannot take more rounds than there are bytes, and one more. -/
def copyArgument (base argv i : Nat) : Nat → Nat → Nat → Memory → Result (Nat × Memory)
  | 0, _, _, _ => .error .hang
  | fuel + 1, argvPtr, ptr, memory => do
      let memory ← storeBootCommand base argvPtr (argumentByte argv i ptr memory) memory
      if argumentByte argv i ptr memory ≠ 0 then copyArgument base argv i fuel (argvPtr + 1) (ptr + 1) memory
      else return (argvPtr + 1, memory)

def copyArguments (base argv : Nat) : Nat → Nat → Nat → Memory → Result (Nat × Memory)
  | 0, _, argvPtr, memory => .ok (argvPtr, memory)
  | count + 1, i, argvPtr, memory => do
      let (argvPtr, memory) ← copyArgument base argv i (bootCommandMaxLen + 1) argvPtr 0 memory
      copyArguments base argv count (i + 1) argvPtr memory

/-- `kernel_main` up to `parse_boot_args`. -/
def captureArguments (base : Nat) (argc : Int) (argv : Nat) (memory : Memory) : Result Memory := do
  let (_, memory) ← copyArguments base argv argc.toNat 0 0 memory
  return memory

def fdtOption : List UInt8 := textBytes "--fdt"

/-- The loop of `parse_boot_args`, with the value of `flatten_device_tree`. -/
def parseFrom (memory : Memory) (argc : Int) : Nat → Int → Nat → Nat → Result Nat
  | 0, _, _, _ => .error .hang
  | fuel + 1, arg, ptr, flattenDeviceTree =>
    if arg < argc then
      if strcmpAt memory ptr fdtOption = 0 ∧ arg + 1 < argc then do
        let (length, _) ← strlen (bootCommandMaxLen + 1) ptr (.start memory)
        let ptr := ptr + (length + 1)
        let (flattenDeviceTree, _) ← strtoul memory (bootCommandMaxLen + 1) ptr 16
        -- the condition has advanced `arg` already
        parseFrom memory argc fuel (arg + 1 + 1) ptr flattenDeviceTree
      else .error (.panic "parse_boot_args")
    else .ok flattenDeviceTree

def parseBootArgs (base : Nat) (argc : Int) (flattenDeviceTree : Nat) (memory : Memory) : Result Nat :=
  parseFrom memory argc (argc.toNat + 1) 0 base flattenDeviceTree

abbrev InBootCommand (base address : Nat) : Prop :=
  base ≤ address ∧ address < base + bootCommandMaxLen

/-- From its character `ptr` on the argument `i` is this string, and neither the string nor the
pointer to it is part of `vboot_cmd.argv`. -/
structure ArgumentAt (base argv i ptr : Nat) (memory : Memory) (text : List UInt8) : Prop where
  string : memory.HoldsString (memory.load64 (argv + 8 * i) + ptr) text
  pointerApart : ∀ offset < 8, ¬ InBootCommand base (argv + 8 * i + offset)
  stringApart : ∀ offset ≤ text.length, ¬ InBootCommand base (memory.load64 (argv + 8 * i) + ptr + offset)

section
variable {base argv i ptr argvPtr fuel : Nat} {memory other after : Memory} {text : List UInt8} {c : UInt8}

theorem ArgumentAt.congr (argument : ArgumentAt base argv i ptr memory text)
    (agree : ∀ address, ¬ InBootCommand base address → other address = memory address) :
    ArgumentAt base argv i ptr other text := by
  have pointer : other.load64 (argv + 8 * i) = memory.load64 (argv + 8 * i) :=
    Memory.load64_congr fun offset bound => agree _ (argument.pointerApart offset bound)
  constructor
  · rw [pointer]
    exact argument.string.congr fun offset bound => agree _ (argument.stringApart offset bound)
  · exact argument.pointerApart
  · rw [pointer]
    exact argument.stringApart

theorem ArgumentAt.store (argument : ArgumentAt base argv i ptr memory text) (room : argvPtr < bootCommandMaxLen)
    (byte : UInt8) : ArgumentAt base argv i ptr (memory.store (base + argvPtr) byte) text :=
  argument.congr fun _ outside => Memory.store_other byte fun same =>
    outside (same ▸ ⟨Nat.le_add_right .., Nat.add_lt_add_left room base⟩)

theorem ArgumentAt.tail (argument : ArgumentAt base argv i ptr memory (c :: text)) :
    ArgumentAt base argv i (ptr + 1) memory text := by
  constructor
  · rw [← Nat.add_assoc]
    exact argument.string.2.2
  · exact argument.pointerApart
  · intro offset bound
    rw [← Nat.add_assoc _ ptr, Nat.add_assoc _ 1, Nat.add_comm 1]
    exact argument.stringApart (offset + 1) (Nat.succ_le_succ bound)

theorem ArgumentAt.byte (argument : ArgumentAt base argv i ptr memory text) :
    argumentByte argv i ptr memory = text.headD 0 := by
  cases text with
  | nil => exact argument.string
  | cons c text => exact argument.string.1

theorem copyArgument_round (argument : ArgumentAt base argv i ptr memory text)
    (room : argvPtr < bootCommandMaxLen) : copyArgument base argv i (fuel + 1) argvPtr ptr memory =
      if text.headD 0 ≠ 0 then
        copyArgument base argv i fuel (argvPtr + 1) (ptr + 1) (memory.store (base + argvPtr) (text.headD 0))
      else .ok (argvPtr + 1, memory.store (base + argvPtr) (text.headD 0)) := by
  rw [copyArgument, storeBootCommand, if_pos room, argument.byte, Result.ok_bind, (argument.store room _).byte]
  rfl

theorem copyArgument_full (full : bootCommandMaxLen ≤ argvPtr) :
    copyArgument base argv i (fuel + 1) argvPtr ptr memory = .error .stray := by
  rw [copyArgument, storeBootCommand, if_neg (Nat.not_lt.mpr full)]
  rfl

/-- Only the bytes from `first` up to `last` of `vboot_cmd.argv` were written. -/
def Written (base first last : Nat) (before after : Memory) : Prop :=
  ∀ address, ¬ (base + first ≤ address ∧ address < base + last) → after address = before address

theorem copyArgument_fits (argument : ArgumentAt base argv i ptr memory text)
    (fits : argvPtr + (text.length + 1) ≤ bootCommandMaxLen) (enough : text.length < fuel) :
    ∃ after, copyArgument base argv i fuel argvPtr ptr memory = .ok (argvPtr + (text.length + 1), after) ∧
      after.HoldsString (base + argvPtr) text ∧
      Written base argvPtr (argvPtr + (text.length + 1)) memory after := by
  induction text generalizing argvPtr ptr fuel memory with
  | nil =>
    obtain ⟨fuel, rfl⟩ := Nat.exists_eq_add_one.mpr enough
    have terminated : memory.store (base + argvPtr) 0 (base + argvPtr) = 0 := Memory.store_same _ _
    refine ⟨memory.store (base + argvPtr) 0, ?_, terminated, ?_⟩
    · rw [copyArgument_round argument fits]
      rfl
    · intro address outside
      exact Memory.store_other 0 fun same => outside ⟨by omega, by simp [same]⟩
  | cons c text ih =>
    obtain ⟨fuel, rfl⟩ := Nat.exists_eq_add_one.mpr (Nat.zero_lt_of_lt enough)
    rw [List.length_cons] at fits enough ⊢
    have room : argvPtr < bootCommandMaxLen := by omega
    have nonzero : c ≠ 0 := argument.string.2.1
    obtain ⟨after, run, copied, written⟩ := @ih (ptr + 1) (argvPtr + 1) fuel _ (argument.tail.store room c)
      (by omega) (by omega)
    have first : after (base + argvPtr) = c := by
      rw [written _ (by omega)]
      exact Memory.store_same _ _
    refine ⟨after, ?_, ⟨first, nonzero, copied⟩, ?_⟩
    · rw [copyArgument_round argument room, List.headD_cons, if_pos nonzero, run, Nat.add_assoc, Nat.add_comm 1]
    · intro address outside
      rw [written address (by omega)]
      exact Memory.store_other c (by omega)

theorem copyArgument_overflows (argument : ArgumentAt base argv i ptr memory text)
    (within : argvPtr ≤ bootCommandMaxLen) (large : bootCommandMaxLen < argvPtr + (text.length + 1))
    (enough : bootCommandMaxLen < argvPtr + fuel) :
    copyArgument base argv i fuel argvPtr ptr memory = .error .stray := by
  obtain ⟨fuel, rfl⟩ := Nat.exists_eq_add_one_of_ne_zero (show fuel ≠ 0 by omega)
  induction text generalizing argvPtr ptr fuel memory with
  | nil =>
    apply copyArgument_full
    rw [List.length_nil] at large
    omega
  | cons c text ih =>
    rw [List.length_cons] at large
    rcases Nat.lt_or_ge argvPtr bootCommandMaxLen with room | full
    · obtain ⟨fuel, rfl⟩ := Nat.exists_eq_add_one_of_ne_zero (show fuel ≠ 0 by omega)
      rw [copyArgument_round argument room, List.headD_cons, if_pos argument.string.2.1]
      exact ih (argument.tail.store room c) (by omega) (by omega) fuel (by omega)
    · exact copyArgument_full full

end

/-- The arguments from `i` on are these strings, apart from `vboot_cmd.argv`. -/
def Arguments (base argv : Nat) (memory : Memory) : Nat → List (List UInt8) → Prop
  | _, [] => True
  | i, text :: texts => ArgumentAt base argv i 0 memory text ∧ Arguments base argv memory (i + 1) texts

section
variable {base argv i argvPtr : Nat} {memory other : Memory} {texts : List (List UInt8)}

theorem Arguments.congr (arguments : Arguments base argv memory i texts)
    (agree : ∀ address, ¬ InBootCommand base address → other address = memory address) :
    Arguments base argv other i texts := by
  induction texts generalizing i with
  | nil => trivial
  | cons text texts ih => exact ⟨arguments.1.congr agree, ih arguments.2⟩

theorem Arguments.argument {k : Nat} {text : List UInt8} (arguments : Arguments base argv memory i texts)
    (found : texts[k]? = some text) : ArgumentAt base argv (i + k) 0 memory text := by
  induction texts generalizing i k with
  | nil => cases found
  | cons first texts ih =>
    cases k with
    | zero =>
      cases found
      exact arguments.1
    | succ k =>
      rw [Nat.add_comm k, ← Nat.add_assoc]
      exact ih arguments.2 found

theorem Written.outside {first last : Nat} (written : Written base first last memory other)
    (within : last ≤ bootCommandMaxLen) (address : Nat) (outside : ¬ InBootCommand base address) :
    other address = memory address := by
  apply written
  unfold InBootCommand at outside
  omega

theorem copyArguments_fits (arguments : Arguments base argv memory i texts)
    (fits : argvPtr + Memory.packedLength texts ≤ bootCommandMaxLen) :
    ∃ after, copyArguments base argv texts.length i argvPtr memory =
        .ok (argvPtr + Memory.packedLength texts, after) ∧
      after.HoldsStrings (base + argvPtr) texts ∧
      Written base argvPtr (argvPtr + Memory.packedLength texts) memory after := by
  induction texts generalizing i argvPtr memory with
  | nil => exact ⟨memory, rfl, trivial, fun _ _ => rfl⟩
  | cons text texts ih =>
    rw [Memory.packedLength_cons] at fits ⊢
    obtain ⟨between, first, string, written⟩ := @copyArgument_fits base argv i 0 argvPtr (bootCommandMaxLen + 1)
      memory text arguments.1 (by omega) (by omega)
    obtain ⟨after, rest, strings, writtenLater⟩ := @ih (i + 1) (argvPtr + (text.length + 1)) between
      (arguments.2.congr (written.outside (by omega))) (by omega)
    refine ⟨after, ?_, ⟨?_, ?_⟩, ?_⟩
    · rw [List.length_cons, copyArguments, first, Result.ok_bind]
      dsimp only
      rw [rest, Nat.add_assoc]
    · exact string.congr fun offset bound => writtenLater _ (by omega)
    · rw [Nat.add_assoc]
      exact strings
    · intro address outside
      rw [writtenLater address (by omega), written address (by omega)]

theorem copyArguments_overflows (arguments : Arguments base argv memory i texts)
    (within : argvPtr ≤ bootCommandMaxLen) (large : bootCommandMaxLen < argvPtr + Memory.packedLength texts) :
    copyArguments base argv texts.length i argvPtr memory = .error .stray := by
  induction texts generalizing i argvPtr memory with
  | nil => exact absurd large (Nat.not_lt.mpr within)
  | cons text texts ih =>
    rw [Memory.packedLength_cons] at large
    rw [List.length_cons, copyArguments]
    by_cases fits : argvPtr + (text.length + 1) ≤ bootCommandMaxLen
    · obtain ⟨between, first, _, written⟩ := @copyArgument_fits base argv i 0 argvPtr (bootCommandMaxLen + 1)
        memory text arguments.1 fits (by omega)
      rw [first, Result.ok_bind]
      exact ih (arguments.2.congr (written.outside fits)) fits (by omega)
    · rw [copyArgument_overflows arguments.1 within (by omega) (by omega)]
      rfl

theorem captureArguments_fits {argc : Int} (arguments : Arguments base argv memory 0 texts)
    (count : texts.length = argc.toNat) (fits : Memory.packedLength texts ≤ bootCommandMaxLen) :
    ∃ after, captureArguments base argc argv memory = .ok after ∧ after.HoldsStrings base texts := by
  obtain ⟨after, run, strings, _⟩ := @copyArguments_fits base argv 0 0 memory texts arguments (by omega)
  refine ⟨after, ?_, strings⟩
  rw [captureArguments, ← count, run]
  rfl

theorem captureArguments_iff {argc : Int} (arguments : Arguments base argv memory 0 texts)
    (count : texts.length = argc.toNat) : (∃ after, captureArguments base argc argv memory = .ok after) ↔
      Memory.packedLength texts ≤ bootCommandMaxLen := by
  constructor
  · rintro ⟨after, run⟩
    by_contra large
    rw [captureArguments, ← count, copyArguments_overflows arguments (Nat.zero_le _) (by omega)] at run
    cases run
  · intro fits
    obtain ⟨after, run, _⟩ := captureArguments_fits arguments count fits
    exact ⟨after, run⟩

end

def hexNumber (text : List UInt8) : Nat :=
  (accepted (radix text 16) (text.drop (radixLength text))).foldl
    (fun number c => ulong (number * radix text 16 + decodeDigit c)) 0

/-- What the parser does with the strings from its pointer on, while `pairs` pairs of arguments
are left: it moves on by one string for each pair. -/
def parsed : Nat → List (List UInt8) → Nat → Result Nat
  | 0, _, flattenDeviceTree => .ok flattenDeviceTree
  | pairs + 1, text :: value :: texts, _ =>
    if text = fdtOption then parsed pairs (value :: texts) (hexNumber value)
    else .error (.panic "parse_boot_args")
  | _ + 1, _, _ => .error (.panic "parse_boot_args")

section
variable {memory : Memory} {ptr fuel pairs : Nat} {arg argc : Int} {texts : List (List UInt8)}

theorem strtoul_hexNumber {text : List UInt8} (string : memory.HoldsString ptr text) (enough : text.length < fuel) :
    ∃ stop, strtoul memory fuel ptr 16 = .ok (hexNumber text, stop) :=
  ⟨_, strtoul_takes string (.inr (by decide)) enough⟩

theorem strcmpAt_fdtOption {text : List UInt8} (string : memory.HoldsString ptr text) :
    strcmpAt memory ptr fdtOption = 0 ↔ text = fdtOption := by
  rw [strcmpAt_eq string]
  exact strcmp_eq_zero_iff string.nonzero (by decide)

theorem parseFrom_eq_parsed (strings : memory.HoldsStrings ptr texts) (notNull : ptr ≠ 0)
    (short : ∀ text ∈ texts, text.length ≤ bootCommandMaxLen) (left : pairs < texts.length)
    (count : argc = arg + 2 * pairs) (enough : pairs < fuel) (flattenDeviceTree : Nat) :
    parseFrom memory argc fuel arg ptr flattenDeviceTree = parsed pairs texts flattenDeviceTree := by
  induction pairs generalizing ptr fuel arg texts flattenDeviceTree with
  | zero =>
    obtain ⟨fuel, rfl⟩ := Nat.exists_eq_add_one.mpr enough
    rw [parseFrom, if_neg (by omega), parsed]
  | succ pairs ih =>
    obtain ⟨fuel, rfl⟩ := Nat.exists_eq_add_one.mpr (Nat.zero_lt_of_lt enough)
    obtain ⟨text, tail, rfl⟩ := List.exists_cons_of_length_pos (Nat.zero_lt_of_lt left)
    rw [List.length_cons] at left
    obtain ⟨value, tail, rfl⟩ := List.exists_cons_of_length_pos (show 0 < tail.length by omega)
    obtain ⟨string, rest⟩ := strings
    have textShort := short text List.mem_cons_self
    have valueShort := short value (List.mem_cons_of_mem _ List.mem_cons_self)
    obtain ⟨_, measured, _⟩ := @strlen_spec ptr (bootCommandMaxLen + 1) text (.start memory) notNull string
      (by omega)
    obtain ⟨stop, number⟩ := @strtoul_hexNumber memory (ptr + (text.length + 1)) (bootCommandMaxLen + 1) value
      rest.1 (by omega)
    rw [parseFrom, if_pos (by omega), parsed]
    by_cases option : text = fdtOption
    · rw [if_pos ⟨(strcmpAt_fdtOption string).mpr option, by omega⟩, if_pos option, measured, Result.ok_bind]
      dsimp only
      rw [number, Result.ok_bind]
      -- the pointer is at the value that was just read, not at the next option
      exact ih rest (by omega) (fun other member => short other (List.mem_cons_of_mem _ member)) (by omega)
        (by omega) (by omega) (hexNumber value)
    · rw [if_neg fun both => option ((strcmpAt_fdtOption string).mp both.1), if_neg option]

theorem options_cons_iff (text : List UInt8) (texts : List (List UInt8)) (last : Nat) :
    (∀ k ≤ last + 1, (text :: texts)[k]? = some fdtOption) ↔
      text = fdtOption ∧ ∀ k ≤ last, texts[k]? = some fdtOption := by
  constructor
  · intro all
    exact ⟨Option.some.inj (all 0 (Nat.zero_le _)), fun k bound => all (k + 1) (Nat.succ_le_succ bound)⟩
  · rintro ⟨rfl, rest⟩ k bound
    cases k with
    | zero => rfl
    | succ k => exact rest k (Nat.le_of_succ_le_succ bound)

theorem parsed_ok_iff {flattenDeviceTree result : Nat} (left : pairs + 1 < texts.length) :
    parsed (pairs + 1) texts flattenDeviceTree = .ok result ↔
      (∀ k ≤ pairs, texts[k]? = some fdtOption) ∧ texts[pairs + 1]?.map hexNumber = some result := by
  induction pairs generalizing texts flattenDeviceTree with
  | zero =>
    obtain ⟨text, tail, rfl⟩ := List.exists_cons_of_length_pos (Nat.zero_lt_of_lt left)
    rw [List.length_cons] at left
    obtain ⟨value, tail, rfl⟩ := List.exists_cons_of_length_pos (show 0 < tail.length by omega)
    by_cases option : text = fdtOption <;> simp [parsed, option]
  | succ pairs ih =>
    obtain ⟨text, tail, rfl⟩ := List.exists_cons_of_length_pos (Nat.zero_lt_of_lt left)
    rw [List.length_cons] at left
    obtain ⟨value, tail, rfl⟩ := List.exists_cons_of_length_pos (show 0 < tail.length by omega)
    rw [parsed, options_cons_iff]
    by_cases option : text = fdtOption
    · rw [if_pos option, ih (by omega)]
      simp only [option, true_and, List.getElem?_cons_succ]
    · simp [option]

end

def fdtPairs (values : List (List UInt8)) : List (List UInt8) :=
  values.flatMap fun value => [fdtOption, value]

theorem fdtPairs_length (values : List (List UInt8)) : (fdtPairs values).length = 2 * values.length := by
  induction values with
  | nil => rfl
  | cons value values ih =>
    rw [fdtPairs, List.flatMap_cons, List.length_append, ← fdtPairs, ih, List.length_cons]
    simp only [List.length_cons, List.length_nil]
    omega

theorem fdtPairs_getElem? (values : List (List UInt8)) (i : Nat) :
    (fdtPairs values)[2 * i]? = values[i]?.map (fun _ => fdtOption) ∧
      (fdtPairs values)[2 * i + 1]? = values[i]? := by
  induction values generalizing i with
  | nil => simp [fdtPairs]
  | cons value values ih =>
    cases i with
    | zero => exact ⟨rfl, rfl⟩
    | succ i => exact ih i

theorem fdtPairs_options_iff {values : List (List UInt8)} {last : Nat} (count : values.length = last + 1) :
    (∀ k ≤ last, (fdtPairs values)[k]? = some fdtOption) ↔
      ∀ i, 2 * i + 1 < values.length → values[i]? = some fdtOption := by
  constructor
  · intro all i below
    rw [← (fdtPairs_getElem? values i).2]
    exact all _ (by omega)
  · intro first k bound
    rcases Nat.even_or_odd' k with ⟨i, rfl | rfl⟩
    · rw [(fdtPairs_getElem? values i).1, List.getElem?_eq_getElem (show i < values.length by omega)]
      rfl
    · rw [(fdtPairs_getElem? values i).2]
      exact first i (by omega)

/-- What the values must be like for the parser to read the last one: it takes the first half of
them for options, and the string in the middle for the last value. -/
def ParsedWell (values : List (List UInt8)) : Prop :=
  (∀ i, 2 * i + 1 < values.length → values[i]? = some fdtOption) ∧
    (fdtPairs values)[values.length]?.map hexNumber = values.getLast?.map hexNumber

section
variable {base argv : Nat} {argc : Int} {memory : Memory} {texts values : List (List UInt8)}

theorem parseBootArgs_pairs_iff (placed : base ≠ 0) (strings : memory.HoldsStrings base (fdtPairs values))
    (nonempty : values ≠ []) (count : 2 * values.length = argc.toNat)
    (fits : Memory.packedLength (fdtPairs values) ≤ bootCommandMaxLen) (flattenDeviceTree : Nat)
    {last : List UInt8} (isLast : values.getLast? = some last) :
    parseBootArgs base argc flattenDeviceTree memory = .ok (hexNumber last) ↔ ParsedWell values := by
  have length := fdtPairs_length values
  have some : 0 < values.length := List.length_pos_iff.mpr nonempty
  obtain ⟨pairs, isCount⟩ := Nat.exists_eq_add_one.mpr some
  have short : ∀ text ∈ fdtPairs values, text.length ≤ bootCommandMaxLen := fun text member =>
    Nat.le_trans (Nat.le_of_lt (Memory.length_lt_packedLength member)) fits
  have parser := @parseFrom_eq_parsed memory base (argc.toNat + 1) values.length 0 argc (fdtPairs values) strings
    placed short (by omega) (by omega) (by omega) flattenDeviceTree
  rw [parseBootArgs, parser, ParsedWell, isLast, ← fdtPairs_options_iff isCount, isCount, parsed_ok_iff (by omega)]
  rfl

theorem captured_pairs_iff (placed : base ≠ 0) (arguments : Arguments base argv memory 0 (fdtPairs values))
    (count : (fdtPairs values).length = argc.toNat) (nonempty : values ≠ [])
    (fits : Memory.packedLength (fdtPairs values) ≤ bootCommandMaxLen) (flattenDeviceTree : Nat) :
    (∃ after fdt stop, captureArguments base argc argv memory = .ok after ∧
      strtoul memory (bootCommandMaxLen + 1) (memory.load64 (argv + 8 * (argc.toNat - 1))) 16 = .ok (fdt, stop) ∧
      parseBootArgs base argc flattenDeviceTree after = .ok fdt) ↔ ParsedWell values := by
  have twice := fdtPairs_length values
  have some : 0 < values.length := List.length_pos_iff.mpr nonempty
  obtain ⟨captured, capture, strings⟩ := captureArguments_fits arguments count fits
  obtain ⟨last, isLast⟩ : ∃ last, values.getLast? = .some last := ⟨_, List.getLast?_eq_some_getLast nonempty⟩
  have final : (fdtPairs values)[argc.toNat - 1]? = .some last := by
    rw [show argc.toNat - 1 = 2 * (values.length - 1) + 1 by omega, (fdtPairs_getElem? values _).2,
      ← List.getLast?_eq_getElem?, isLast]
  have string := (arguments.argument final).string
  rw [Nat.zero_add, Nat.add_zero] at string
  have short : last.length < bootCommandMaxLen + 1 := by
    have shorter := Memory.length_lt_packedLength (List.mem_of_getElem? final)
    omega
  obtain ⟨stop, number⟩ := strtoul_hexNumber string short
  have parses := @parseBootArgs_pairs_iff base argc captured values placed strings nonempty (by omega) fits
    flattenDeviceTree last isLast
  rw [← parses]
  constructor
  · rintro ⟨after, fdt, stop', again, numberAgain, parse⟩
    cases capture.symm.trans again
    cases number.symm.trans numberAgain
    exact parse
  · intro parse
    exact ⟨captured, hexNumber last, stop, capture, number, parse⟩

/-- The arguments are copied inside `vboot_cmd.argv`, and pairs that fit are parsed to the end, if
the arguments fit and, where they are pairs, the parser takes no value for an option that is none. -/
theorem boot_arguments_iff (placed : base ≠ 0) (arguments : Arguments base argv memory 0 texts)
    (count : texts.length = argc.toNat) (flattenDeviceTree : Nat) :
    ((∃ after, captureArguments base argc argv memory = .ok after) ∧
      ∀ values, values ≠ [] → texts = fdtPairs values → Memory.packedLength texts ≤ bootCommandMaxLen →
        ∃ after fdt stop, captureArguments base argc argv memory = .ok after ∧
          strtoul memory (bootCommandMaxLen + 1) (memory.load64 (argv + 8 * (argc.toNat - 1))) 16 =
            .ok (fdt, stop) ∧
          parseBootArgs base argc flattenDeviceTree after = .ok fdt) ↔
      Memory.packedLength texts ≤ bootCommandMaxLen ∧
        ∀ values, values ≠ [] → texts = fdtPairs values → ParsedWell values := by
  rw [captureArguments_iff arguments count]
  refine and_congr_right fun fits => forall_congr' fun values => ?_
  constructor
  · rintro read nonempty rfl
    exact (captured_pairs_iff placed arguments count nonempty fits flattenDeviceTree).mp (read nonempty rfl fits)
  · rintro well nonempty rfl _
    exact (captured_pairs_iff placed arguments count nonempty fits flattenDeviceTree).mpr (well nonempty rfl)

end

def bootImage : Memory := fun address =>
  ([0x20, 1, 0, 0, 0, 0, 0, 0, 0x26, 1, 0, 0, 0, 0, 0, 0, 0x28, 1, 0, 0, 0, 0, 0, 0, 0x2e, 1, 0, 0, 0, 0, 0, 0] ++
    fdtOption ++ [0, 49, 0] ++ fdtOption ++ [0, 50, 0]).getD (address - 0x100) 0

theorem bootImage_arguments : Arguments 0x1000 0x100 bootImage 0 (fdtPairs [[49], [50]]) :=
  ⟨⟨by decide, by decide, by decide⟩, ⟨by decide, by decide, by decide⟩, ⟨by decide, by decide, by decide⟩,
    ⟨by decide, by decide, by decide⟩, trivial⟩

/-- One pair: the first two arguments. -/
theorem boot_arguments_iff_one_pair : Arguments 0x1000 0x100 bootImage 0 (fdtPairs [[49]]) ∧
      (((∃ after, captureArguments 0x1000 2 0x100 bootImage = .ok after) ∧
        ∀ values, values ≠ [] → fdtPairs [[49]] = fdtPairs values →
          Memory.packedLength (fdtPairs [[49]]) ≤ bootCommandMaxLen →
          ∃ after fdt stop, captureArguments 0x1000 2 0x100 bootImage = .ok after ∧
            strtoul bootImage (bootCommandMaxLen + 1) (bootImage.load64 (0x100 + 8 * ((2 : Int).toNat - 1))) 16 =
              .ok (fdt, stop) ∧
            parseBootArgs 0x1000 2 0 after = .ok fdt) ↔
        Memory.packedLength (fdtPairs [[49]]) ≤ bootCommandMaxLen ∧
          ∀ values, values ≠ [] → fdtPairs [[49]] = fdtPairs values → ParsedWell values) := by
  have arguments : Arguments 0x1000 0x100 bootImage 0 (fdtPairs [[49]]) :=
    ⟨bootImage_arguments.1, bootImage_arguments.2.1, trivial⟩
  exact ⟨arguments, boot_arguments_iff (by decide) arguments rfl 0⟩

/-- Two pairs: the value of the first is taken for an option. -/
theorem parseBootArgs_panics_two_pairs : Arguments 0x1000 0x100 bootImage 0 (fdtPairs [[49], [50]]) ∧
      Memory.packedLength (fdtPairs [[49], [50]]) ≤ bootCommandMaxLen ∧
      ∃ after, captureArguments 0x1000 4 0x100 bootImage = .ok after ∧
        parseBootArgs 0x1000 4 0 after = .error (.panic "parse_boot_args") :=
  ⟨bootImage_arguments, by decide, by decide +kernel⟩

end Kalorona
