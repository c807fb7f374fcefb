import Kalorona.Data.ByteMemory
import Kalorona.Kernel.Machine
import Mathlib.Data.List.TakeWhile

namespace Kalorona.Utilities

open Kalorona.Data

/-! # Reading numbers

`strtoul` reads the digits of a number from memory, in a base that a prefix of the string
can choose.  Characters are bytes: `__decode_digit` sees each one as an `unsigned char`.
-/

/-- `__tolower`; the difference of the two letters wraps around. -/
def tolower (c : UInt8) : UInt8 :=
  if 'A'.toUInt8 ≤ c ∧ c ≤ 'Z'.toUInt8 then c - ('A'.toUInt8 - 'a'.toUInt8) else c

/-- `__parse_integer_fixup_radix`: where the digits begin, and the base that they are in. -/
def parseIntegerFixupRadix (memory : Memory) (s base : Nat) : Nat × Nat :=
  let (s, base) :=
    if memory s = '0'.toUInt8 then
      if tolower (memory (s + 1)) = 'x'.toUInt8 then (s + 2, 16)
      else if base = 0 then (s, 8)
      else (s, base)
    else (s, base)
  if base = 0 then (s, 10) else (s, base)

/-- `__decode_digit`.  A negative difference is a large `uint`. -/
def decodeDigit (ch : UInt8) : Nat :=
  let ch := (tolower ch).toNat
  if ch ≤ '9'.toNat then (ch + 2 ^ 32 - '0'.toNat) % 2 ^ 32
  else (ch + 2 ^ 32 - 'a'.toNat + 0xa) % 2 ^ 32

/-- The loop of `strtoul`: the number, and the address after its last digit.  The fuel bounds
the number of rounds. -/
def scanDigits (memory : Memory) (base : Nat) : Nat → Nat → Nat → Result (Nat × Nat)
  | 0, _, _ => .error .hang
  | fuel + 1, str, result =>
    let value := decodeDigit (memory str)
    if value < base then scanDigits memory base fuel (str + 1) (ulong (result * base + value))
    else .ok (result, str)

/-- `strtoul`, with what it stores through `endptr`. -/
def strtoul (memory : Memory) (fuel str base : Nat) : Result (Nat × Nat) :=
  let (str, base) := parseIntegerFixupRadix memory str base
  scanDigits memory base fuel str 0

def digitValue (c : UInt8) : Option Nat :=
  if '0'.toUInt8 ≤ c ∧ c ≤ '9'.toUInt8 then some (c.toNat - '0'.toNat)
  else if 'a'.toUInt8 ≤ c ∧ c ≤ 'z'.toUInt8 then some (c.toNat - 'a'.toNat + 10)
  else if 'A'.toUInt8 ≤ c ∧ c ≤ 'Z'.toUInt8 then some (c.toNat - 'A'.toNat + 10)
  else none

def isDigit (base : Nat) (c : UInt8) : Bool := (digitValue c).any (· < base)

def numeral (base : Nat) (text : List UInt8) : Nat :=
  text.foldl (fun number c => number * base + (digitValue c).getD 0) 0

def hexPrefixed : List UInt8 → Bool
  | zero :: x :: _ => zero = '0'.toUInt8 ∧ (x = 'x'.toUInt8 ∨ x = 'X'.toUInt8)
  | _ => false

def radixLength (text : List UInt8) : Nat := if hexPrefixed text then 2 else 0

def radix (text : List UInt8) (base : Nat) : Nat :=
  if hexPrefixed text then 16
  else if base ≠ 0 then base
  else if text.head? = some '0'.toUInt8 then 8
  else 10

def leadingDigits (text : List UInt8) (base : Nat) : List UInt8 :=
  (text.drop (radixLength text)).takeWhile (isDigit (radix text base))

def afterDigits (text : List UInt8) (base : Nat) : List UInt8 :=
  (text.drop (radixLength text)).dropWhile (isDigit (radix text base))

def misread (base : Nat) (c : UInt8) : Bool :=
  'Z'.toUInt8 < c ∧ c < 'a'.toUInt8 ∧ c.toNat - 'W'.toNat < base

theorem tolower_toNat (c : UInt8) :
    (tolower c).toNat = if 65 ≤ c.toNat ∧ c.toNat ≤ 90 then c.toNat + 32 else c.toNat := by
  have letters : 'A'.toUInt8 ≤ c ∧ c ≤ 'Z'.toUInt8 ↔ 65 ≤ c.toNat ∧ c.toNat ≤ 90 := by
    rw [UInt8.le_iff_toNat_le, UInt8.le_iff_toNat_le]
    rfl
  unfold tolower
  simp only [letters]
  split
  next upper =>
    have difference : ('A'.toUInt8 - 'a'.toUInt8).toNat = 224 := by decide
    rw [UInt8.toNat_sub, difference]
    omega
  next => rfl

theorem decodeDigit_eq (c : UInt8) : decodeDigit c = if c.toNat < 48 then c.toNat + 2 ^ 32 - 48
      else if c.toNat ≤ 57 then c.toNat - 48 else if c.toNat < 65 then c.toNat + 2 ^ 32 - 87
      else if c.toNat ≤ 90 then c.toNat - 55 else c.toNat - 87 := by
  have byte : c.toNat < 256 := UInt8.toNat_lt c
  have nine : '9'.toNat = 57 := rfl
  have zero : '0'.toNat = 48 := rfl
  have letter : 'a'.toNat = 97 := rfl
  simp only [decodeDigit, tolower_toNat, nine, zero, letter]
  split_ifs <;> omega

theorem digitValue_eq (c : UInt8) : digitValue c = if 48 ≤ c.toNat ∧ c.toNat ≤ 57 then some (c.toNat - 48)
      else if 97 ≤ c.toNat ∧ c.toNat ≤ 122 then some (c.toNat - 87)
      else if 65 ≤ c.toNat ∧ c.toNat ≤ 90 then some (c.toNat - 55) else none := by
  have lower : 97 ≤ c.toNat → c.toNat - 87 = c.toNat - 97 + 10 := by omega
  have upper : 65 ≤ c.toNat → c.toNat - 55 = c.toNat - 65 + 10 := by omega
  unfold digitValue
  simp only [UInt8.le_iff_toNat_le]
  change (if 48 ≤ c.toNat ∧ c.toNat ≤ 57 then some (c.toNat - 48)
    else if 97 ≤ c.toNat ∧ c.toNat ≤ 122 then some (c.toNat - 97 + 10)
    else if 65 ≤ c.toNat ∧ c.toNat ≤ 90 then some (c.toNat - 65 + 10) else none) = _
  split_ifs with digit small large
  · rfl
  · rw [lower small.1]
  · rw [upper large.1]
  · rfl

variable {base str : Nat} {c : UInt8} {memory : Memory} {text : List UInt8}

theorem isDigit_iff : isDigit base c = true ↔ ∃ value, digitValue c = some value ∧ value < base := by
  simp [isDigit, Option.any_eq_true]

theorem misread_iff : misread base c = true ↔ 90 < c.toNat ∧ c.toNat < 97 ∧ c.toNat - 87 < base := by
  unfold misread
  simp only [UInt8.lt_iff_toNat_lt, decide_eq_true_eq]
  rfl

theorem decodeDigit_of_digit {value : Nat} (digit : digitValue c = some value) : decodeDigit c = value := by
  rw [digitValue_eq] at digit
  rw [decodeDigit_eq]
  split_ifs at digit ⊢ <;> simp only [Option.some.injEq] at digit <;> omega

theorem decodeDigit_lt_iff (small : base ≤ 36) (c : UInt8) :
    decodeDigit c < base ↔ isDigit base c = true ∨ misread base c = true := by
  have byte : c.toNat < 256 := UInt8.toNat_lt c
  rw [misread_iff, isDigit, digitValue_eq, decodeDigit_eq]
  split_ifs <;>
    simp only [Option.any_some, Option.any_none, decide_eq_true_eq, Bool.false_eq_true, false_or] <;>
    omega

def accepted (base : Nat) (text : List UInt8) : List UInt8 := text.takeWhile fun c => decodeDigit c < base

theorem scanDigits_takes {fuel result : Nat}
    (small : base ≤ 36) (string : memory.HoldsString str text) (enough : text.length < fuel) :
    scanDigits memory base fuel str result =
      .ok ((accepted base text).foldl (fun number c => ulong (number * base + decodeDigit c)) result,
        str + (accepted base text).length) := by
  induction text generalizing fuel str result with
  | nil =>
    obtain ⟨fuel, rfl⟩ := Nat.exists_eq_add_one.mpr enough
    have terminator : memory str = 0 := string
    have stops : ¬ decodeDigit 0 < base := by
      have large : decodeDigit 0 = 2 ^ 32 - 48 := by decide
      omega
    simp only [scanDigits, terminator, if_neg stops]
    rfl
  | cons c text ih =>
    obtain ⟨fuel, rfl⟩ := Nat.exists_eq_add_one.mpr (Nat.zero_lt_of_lt enough)
    obtain ⟨here, _, rest⟩ := string
    rw [List.length_cons] at enough
    simp only [scanDigits, here, accepted, List.takeWhile_cons, decide_eq_true_eq]
    split
    next =>
      rw [ih rest (by omega), List.foldl_cons, List.length_cons, Nat.add_assoc, Nat.add_comm 1]
      rfl
    next => rfl

theorem foldl_ulong {base number : Nat} {digits : List UInt8} (valid : ∀ c ∈ digits, isDigit base c = true) :
    digits.foldl (fun number c => ulong (number * base + decodeDigit c)) (ulong number) =
      ulong (digits.foldl (fun number c => number * base + (digitValue c).getD 0) number) := by
  induction digits generalizing number with
  | nil => rfl
  | cons c digits ih =>
    obtain ⟨value, digit, _⟩ := isDigit_iff.mp (valid c List.mem_cons_self)
    have wraps : ulong (ulong number * base + value) = ulong (number * base + value) := by
      unfold ulong
      rw [Nat.add_mod, Nat.mod_mul_mod, ← Nat.add_mod]
    rw [List.foldl_cons, List.foldl_cons, decodeDigit_of_digit digit, digit, Option.getD_some, wraps]
    exact ih fun other member => valid other (List.mem_cons_of_mem _ member)

theorem tolower_eq_x (c : UInt8) : tolower c = 'x'.toUInt8 ↔ c = 'x'.toUInt8 ∨ c = 'X'.toUInt8 := by
  simp only [← UInt8.toNat_inj, tolower_toNat]
  change (if 65 ≤ c.toNat ∧ c.toNat ≤ 90 then c.toNat + 32 else c.toNat) = 120 ↔ c.toNat = 120 ∨ c.toNat = 88
  split <;> omega

theorem parseIntegerFixupRadix_eq (string : memory.HoldsString str text) :
    parseIntegerFixupRadix memory str base = (str + radixLength text, radix text base) := by
  have terminator : tolower 0 ≠ 'x'.toUInt8 := by decide
  unfold parseIntegerFixupRadix radixLength radix
  cases text with
  | nil =>
    have here : memory str = 0 := string
    have other : (0 : UInt8) ≠ '0'.toUInt8 := by decide
    by_cases unset : base = 0 <;> simp [here, other, hexPrefixed, unset]
  | cons first text =>
    obtain ⟨here, _, rest⟩ := string
    by_cases zero : first = '0'.toUInt8
    · cases text with
      | nil =>
        have next : memory (str + 1) = 0 := rest
        by_cases unset : base = 0 <;> simp [here, next, terminator, hexPrefixed, zero, unset]
      | cons second text =>
        have next : memory (str + 1) = second := rest.1
        by_cases hex : second = 'x'.toUInt8 ∨ second = 'X'.toUInt8
        · simp [here, next, (tolower_eq_x second).mpr hex, hexPrefixed, zero, hex]
        · have plain : tolower second ≠ 'x'.toUInt8 := fun same => hex ((tolower_eq_x second).mp same)
          by_cases unset : base = 0 <;> simp [here, next, plain, hexPrefixed, zero, hex, unset]
    · have notHex : hexPrefixed (first :: text) = false := by
        cases text <;> simp [hexPrefixed, zero]
      by_cases unset : base = 0 <;> simp [here, zero, notHex, unset]

theorem accepted_length_iff (small : base ≤ 36) :
    (accepted base text).length = (text.takeWhile (isDigit base)).length ↔
      ∀ c ∈ (text.dropWhile (isDigit base)).head?, misread base c = false := by
  induction text with
  | nil => simp [accepted]
  | cons c text ih =>
    have reads := decodeDigit_lt_iff small c
    cases digit : isDigit base c with
    | true =>
      have taken : decodeDigit c < base := reads.mpr (.inl digit)
      simpa [accepted, List.takeWhile_cons, List.dropWhile_cons, digit, taken] using ih
    | false =>
      cases wrong : misread base c <;> simp [accepted, digit, reads, wrong]

theorem accepted_of_length (same : (accepted base text).length = (text.takeWhile (isDigit base)).length) :
    accepted base text = text.takeWhile (isDigit base) := by
  have isPrefix : accepted base text <+: text := List.takeWhile_prefix _
  have otherPrefix : text.takeWhile (isDigit base) <+: text := List.takeWhile_prefix _
  exact (List.prefix_of_prefix_length_le isPrefix otherPrefix (Nat.le_of_eq same)).eq_of_length same

theorem radix_le (valid : base = 0 ∨ 2 ≤ base ∧ base ≤ 36) : radix text base ≤ 36 := by
  unfold radix
  split_ifs <;> omega

theorem hexPrefixed_split (hex : hexPrefixed text = true) : ∃ zero x rest, text = zero :: x :: rest := by
  unfold hexPrefixed at hex
  split at hex
  · exact ⟨_, _, _, rfl⟩
  · cases hex

theorem holdsString_digits (string : memory.HoldsString str text) :
    memory.HoldsString (str + radixLength text) (text.drop (radixLength text)) := by
  unfold radixLength
  split
  next hex =>
    obtain ⟨zero, x, rest, rfl⟩ := hexPrefixed_split hex
    exact @Memory.HoldsString.drop memory str [zero, x] rest string
  next => exact string

section
variable {memory : Memory} {fuel str base : Nat} {text : List UInt8}
  (string : memory.HoldsString str text) (valid : base = 0 ∨ 2 ≤ base ∧ base ≤ 36) (enough : text.length < fuel)
include string valid enough

theorem strtoul_takes : strtoul memory fuel str base =
      .ok ((accepted (radix text base) (text.drop (radixLength text))).foldl
          (fun number c => ulong (number * radix text base + decodeDigit c)) 0,
        str + radixLength text + (accepted (radix text base) (text.drop (radixLength text))).length) := by
  rw [strtoul, parseIntegerFixupRadix_eq string]
  exact scanDigits_takes (radix_le valid) (holdsString_digits string) (by rw [List.length_drop]; omega)

theorem strtoul_digits (ends : ∀ c ∈ (afterDigits text base).head?, misread (radix text base) c = false) :
    strtoul memory fuel str base = .ok (numeral (radix text base) (leadingDigits text base) % 2 ^ 64,
        str + radixLength text + (leadingDigits text base).length) := by
  have taken := accepted_of_length ((accepted_length_iff (radix_le valid)).mpr ends)
  have digits : ∀ c ∈ leadingDigits text base, isDigit (radix text base) c = true :=
    fun c member => List.mem_takeWhile_imp member
  have value := @foldl_ulong (radix text base) 0 (leadingDigits text base) digits
  rw [strtoul_takes string valid enough, taken]
  exact congrArg (fun number => Except.ok (number, _)) value

theorem strtoul_whole (digits : ∀ c ∈ text.drop (radixLength text), isDigit (radix text base) c = true) :
    strtoul memory fuel str base =
      .ok (numeral (radix text base) (text.drop (radixLength text)) % 2 ^ 64, str + text.length) := by
  have all : leadingDigits text base = text.drop (radixLength text) := List.takeWhile_eq_self_iff.mpr digits
  have none : afterDigits text base = [] := List.dropWhile_eq_nil_iff.mpr digits
  have within : radixLength text ≤ text.length := by
    unfold radixLength
    split
    next hex =>
      obtain ⟨zero, x, rest, rfl⟩ := hexPrefixed_split hex
      exact Nat.le_add_left 2 rest.length
    next => exact Nat.zero_le _
  rw [strtoul_digits string valid enough (by simp [none]), all, List.length_drop, Nat.add_assoc,
    Nat.add_sub_cancel' within]

/-- `strtoul` reads exactly the digits of the base, and returns their value, unless a character
between `Z` and `a` that it takes for a digit follows them. -/
theorem strtoul_reads_digits_iff : strtoul memory fuel str base =
        .ok (numeral (radix text base) (leadingDigits text base) % 2 ^ 64,
          str + radixLength text + (leadingDigits text base).length) ↔
      ∀ c ∈ (afterDigits text base).head?, misread (radix text base) c = false := by
  constructor
  · intro same
    rw [strtoul_takes string valid enough] at same
    have ends := congrArg Prod.snd (Except.ok.inj same)
    exact (accepted_length_iff (radix_le valid)).mp (Nat.add_left_cancel ends)
  · exact strtoul_digits string valid enough

end

def stringMemory (text : String) : Memory := fun address => (text.toList.map Char.toUInt8).getD address 0

theorem strtoul_reads_digits_iff_comma : strtoul (stringMemory "0x1F,") 8 0 10 = .ok (31, 4) ∧
      (strtoul (stringMemory "0x1F,") 8 0 10 =
          .ok (numeral (radix [48, 120, 49, 70, 44] 10) (leadingDigits [48, 120, 49, 70, 44] 10) % 2 ^ 64,
            0 + radixLength [48, 120, 49, 70, 44] + (leadingDigits [48, 120, 49, 70, 44] 10).length) ↔
        ∀ c ∈ (afterDigits [48, 120, 49, 70, 44] 10).head?,
          misread (radix [48, 120, 49, 70, 44] 10) c = false) :=
  ⟨rfl, strtoul_reads_digits_iff (by decide) (by decide) (by decide)⟩

/-- `strtoul("1_", &end, 10)` takes the underscore for an 8. -/
theorem strtoul_takes_underscore : (stringMemory "1_").HoldsString 0 [49, 95] ∧ digitValue 95 = none ∧
      strtoul (stringMemory "1_") 3 0 10 = .ok (18, 2) ∧
      numeral (radix [49, 95] 10) (leadingDigits [49, 95] 10) = 1 ∧
      (leadingDigits [49, 95] 10).length = 1 :=
  ⟨by decide, rfl, rfl, rfl, rfl⟩

end Kalorona.Utilities
