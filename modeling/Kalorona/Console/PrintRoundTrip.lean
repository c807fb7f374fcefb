import Kalorona.Console.Print
import Kalorona.Utilities.Strtoul
import Mathlib.Data.Nat.Digits.Lemmas

namespace Kalorona.Console

open Kalorona.Data Kalorona.Utilities

/-! # Printed numbers parse back

`print_uint` fills a buffer with digits from the last one on; `strtoul` reads them from the
first.
-/

def digitChar (digit : Nat) : UInt8 := digits.getD digit 0

theorem digitValue_digitChar {digit : Nat} (small : digit < 16) : digitValue (digitChar digit) = some digit := by
  have table : ∀ digit : Fin 16, digitValue (digitChar digit) = some digit.val := by decide
  exact table ⟨digit, small⟩

variable {base x : Nat} {text : List UInt8}

theorem fillDigits_eq {room : Nat} (proper : 2 ≤ base) (fits : x < base ^ room) :
    fillDigits room x base = (Nat.digits base x).map digitChar := by
  induction room generalizing x with
  | zero =>
    have zero : x = 0 := by simpa using fits
    subst zero
    simp [fillDigits]
  | succ room ih =>
    unfold fillDigits
    split
    next zero =>
      subst zero
      simp
    next positive =>
      have smaller : x / base < base ^ room := Nat.div_lt_of_lt_mul (by rwa [Nat.pow_succ, Nat.mul_comm] at fits)
      have split := Nat.digits_def' (show 1 < base by omega) (Nat.pos_of_ne_zero positive)
      rw [ih smaller, split, List.map_cons]
      rfl

section
variable {x base : Nat} (proper : 2 ≤ base) (word : x < 2 ^ 64)
include proper word

theorem lt_base_pow : x < base ^ printUintBuf := Nat.lt_of_lt_of_le word (Nat.pow_le_pow_left proper 64)

theorem printUint_eq (positive : x ≠ 0) : printUint x base = (Nat.digits base x).reverse.map digitChar := by
  rw [printUint, if_neg positive, fillDigits_eq proper (lt_base_pow proper word), List.map_reverse]

theorem fillDigits_length_le (room : Nat) : (fillDigits room x base).length ≤ printUintBuf := by
  have fits := lt_base_pow proper word
  by_cases short : x < base ^ room
  · rw [fillDigits_eq proper short, List.length_map]
    exact (Nat.digits_length_le_iff (by omega) x).mpr fits
  · have within : ∀ room x, (fillDigits room x base).length ≤ room := by
      intro room
      induction room with
      | zero => exact fun _ => Nat.le_refl 0
      | succ room ih =>
        intro x
        unfold fillDigits
        split
        · exact Nat.zero_le _
        · exact Nat.succ_le_succ (ih _)
    have smaller : room < printUintBuf := (Nat.pow_lt_pow_iff_right (show 1 < base by omega)).mp (by omega)
    exact Nat.le_trans (within room x) (Nat.le_of_lt smaller)

end

theorem numeral_reverse (small : base ≤ 16) {digits : List Nat} (valid : ∀ digit ∈ digits, digit < base) :
    numeral base (digits.reverse.map digitChar) = Nat.ofDigits base digits := by
  rw [Nat.ofDigits_eq_foldr, numeral, List.foldl_map, List.foldl_reverse]
  induction digits with
  | nil => rfl
  | cons digit digits ih =>
    have here := digitValue_digitChar (Nat.lt_of_lt_of_le (valid digit List.mem_cons_self) small)
    rw [List.foldr_cons, List.foldr_cons, ih fun other member => valid other (List.mem_cons_of_mem _ member),
      here, Option.getD_some, Nat.mul_comm, Nat.add_comm]
    rfl

/-- A numeral of `x` in the base, without a leading zero that could be left out. -/
structure Canonical (base x : Nat) (text : List UInt8) : Prop where
  nonempty : text ≠ []
  digits : ∀ c ∈ text, isDigit base c = true
  value : numeral base text = x
  leading : text.head? = some '0'.toUInt8 → text = ['0'.toUInt8]

theorem printUint_canonical (proper : 2 ≤ base) (small : base ≤ 16) (word : x < 2 ^ 64) :
    Canonical base x (printUint x base) := by
  by_cases zero : x = 0
  · subst zero
    have value : numeral base ['0'.toUInt8] = 0 * base + 0 := rfl
    refine ⟨List.cons_ne_nil _ _, ?_, by rw [Nat.zero_mul] at value; exact value, fun _ => rfl⟩
    intro c member
    rw [List.mem_singleton.mp member]
    exact isDigit_iff.mpr ⟨0, rfl, by omega⟩
  · rw [printUint_eq proper word zero]
    have below : ∀ digit ∈ Nat.digits base x, digit < base :=
      fun digit member => Nat.digits_lt_base (by omega) member
    have nonempty : Nat.digits base x ≠ [] := Nat.digits_ne_nil_iff_ne_zero.mpr zero
    have first : ((Nat.digits base x).reverse.map digitChar).head? =
        some (digitChar ((Nat.digits base x).getLast nonempty)) := by
      rw [List.head?_map, List.head?_reverse, List.getLast?_eq_some_getLast nonempty]
      rfl
    refine ⟨by simpa using nonempty, ?_, ?_, ?_⟩
    · intro c member
      obtain ⟨digit, inside, rfl⟩ := List.mem_map.mp member
      have bound := below digit (List.mem_reverse.mp inside)
      exact isDigit_iff.mpr ⟨digit, digitValue_digitChar (by omega), bound⟩
    · rw [numeral_reverse small below, Nat.ofDigits_digits]
    · intro leading
      have bound := below _ (List.getLast_mem nonempty)
      have value := digitValue_digitChar (Nat.lt_of_lt_of_le bound small)
      rw [first, Option.some.injEq] at leading
      rw [leading] at value
      exact absurd (Option.some.inj value).symm (Nat.getLast_digit_ne_zero base zero)

/-- Where the text stands in memory, `strtoul` returns `x` and the end of the text. -/
def ParsesBack (text : List UInt8) (base x : Nat) : Prop :=
  ∀ (memory : Memory) (str fuel : Nat), memory.HoldsString str text → text.length < fuel →
    strtoul memory fuel str base = .ok (x, str + text.length)

theorem Canonical.not_hexPrefixed (canonical : Canonical base x text) : hexPrefixed text = false := by
  by_contra hex
  obtain ⟨zero, other, rest, rfl⟩ := hexPrefixed_split (Bool.eq_true_of_not_eq_false hex)
  simp only [hexPrefixed, Bool.not_eq_false, decide_eq_true_eq] at hex
  have single := canonical.leading (congrArg some hex.1)
  cases single

theorem Canonical.parses (canonical : Canonical base x text)
    (proper : 2 ≤ base) (small : base ≤ 16) (word : x < 2 ^ 64) : ParsesBack text base x := by
  intro memory str fuel string enough
  have whole : radixLength text = 0 := by simp [radixLength, canonical.not_hexPrefixed]
  have same : radix text base = base := by
    simp [radix, canonical.not_hexPrefixed, show base ≠ 0 by omega]
  have read := strtoul_whole string (.inr ⟨proper, by omega⟩) enough (by rw [whole, same]; exact canonical.digits)
  rwa [whole, same, List.drop_zero, canonical.value, Nat.mod_eq_of_lt word] at read

theorem Canonical.parses_hex (canonical : Canonical 16 x text)
    (word : x < 2 ^ 64) : ParsesBack (textBytes "0x" ++ text) 16 x := by
  intro memory str fuel string enough
  have valid : 16 = 0 ∨ 2 ≤ 16 ∧ 16 ≤ 36 := by decide
  have read := strtoul_whole string valid enough canonical.digits
  change strtoul memory fuel str 16 = .ok (numeral 16 text % 2 ^ 64, str + (textBytes "0x" ++ text).length) at read
  rwa [canonical.value, Nat.mod_eq_of_lt word] at read

def decimal (n : Nat) : List UInt8 :=
  if n = 0 then ['0'.toUInt8] else (Nat.digits 10 n).reverse.map fun digit => UInt8.ofNat ('0'.toNat + digit)

theorem printUint_decimal {n : Nat} (word : n < 2 ^ 64) : printUint n 10 = decimal n := by
  unfold decimal
  split
  next zero =>
    subst zero
    rfl
  next positive =>
    rw [printUint_eq (by decide) word positive]
    refine List.map_congr_left fun digit member => ?_
    have small : digit < 10 := Nat.digits_lt_base (by decide) (List.mem_reverse.mp member)
    have table : ∀ digit : Fin 10, digitChar digit = UInt8.ofNat ('0'.toNat + digit.val) := by decide
    exact table ⟨digit, small⟩

theorem printInt_decimal {n : Int} (least : -2 ^ 31 ≤ n) (most : n < 2 ^ 31) :
    printInt n 10 = (if n < 0 then ['-'.toUInt8] else []) ++ decimal n.natAbs := by
  have word : n.natAbs < 2 ^ 64 := by omega
  unfold printInt
  rw [printUint_decimal word]
  split <;> rfl

theorem printf_conversion {c : UInt8} {fmt : List UInt8} {args rest : List PrintArg}
    (converts : convert c args = some (text, rest)) :
    printf (charByte '%' :: c :: fmt) args = (printf fmt rest).map (text ++ ·) := by
  simp [printf, converts]

/-- Numbers print as canonical numerals that fit into `buf` and that `strtoul` reads back; so
does what `%p` prints, and `%d` prints a sign and decimal digits. -/
theorem printed_numbers_parse_back {x base : Nat} {n : Int} (word : x < 2 ^ 64)
    (proper : 2 ≤ base) (small : base ≤ 16) (least : -2 ^ 31 ≤ n) (most : n < 2 ^ 31) :
    Canonical base x (printUint x base) ∧ (printUint x base).length ≤ 64 ∧
      (∀ room, (fillDigits room x base).length ≤ printUintBuf) ∧
      ParsesBack (printUint x base) base x ∧
      (∀ fmt args, ∃ text,
        printf (charByte '%' :: charByte 'p' :: fmt) (.uint64 x :: args) = (printf fmt args).map (text ++ ·) ∧
          ParsesBack text 16 x) ∧
      ∀ fmt args,
        printf (charByte '%' :: charByte 'd' :: fmt) (.int32 n :: args) =
          (printf fmt args).map ((if n < 0 then ['-'.toUInt8] else []) ++ decimal n.natAbs ++ ·) := by
  have canonical := printUint_canonical proper small word
  refine ⟨canonical, ?_, fillDigits_length_le proper word, canonical.parses proper small word, ?_, ?_⟩
  · unfold printUint
    split
    · decide
    · rw [List.length_reverse]
      exact fillDigits_length_le proper word printUintBuf
  · intro fmt args
    refine ⟨textBytes "0x" ++ printUint x 16, printf_conversion rfl, ?_⟩
    exact (printUint_canonical (by decide) (by decide) word).parses_hex word
  · intro fmt args
    rw [← printInt_decimal least most]
    exact printf_conversion rfl

theorem printed_numbers_parse_back_extremes :
    Canonical 2 (2 ^ 64 - 1) (printUint (2 ^ 64 - 1) 2) ∧ (printUint (2 ^ 64 - 1) 2).length ≤ 64 ∧
      (∀ room, (fillDigits room (2 ^ 64 - 1) 2).length ≤ printUintBuf) ∧
      ParsesBack (printUint (2 ^ 64 - 1) 2) 2 (2 ^ 64 - 1) ∧
      (∀ fmt args, ∃ text, printf (charByte '%' :: charByte 'p' :: fmt) (.uint64 (2 ^ 64 - 1) :: args) =
            (printf fmt args).map (text ++ ·) ∧
          ParsesBack text 16 (2 ^ 64 - 1)) ∧
      ∀ fmt args,
        printf (charByte '%' :: charByte 'd' :: fmt) (.int32 (-2 ^ 31) :: args) = (printf fmt args).map
            ((if (-2 ^ 31 : Int) < 0 then ['-'.toUInt8] else []) ++ decimal (-2 ^ 31 : Int).natAbs ++ ·) :=
  printed_numbers_parse_back (by decide) (by decide) (by decide) (by decide) (by decide)

end Kalorona.Console
