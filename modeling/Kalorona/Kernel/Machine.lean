import Kalorona.Data.Bits

namespace Kalorona

/-! # Machine words, addresses and stops

Machine words are natural numbers; an operation that can leave the range of `ulong` reduces its
result.  Physical memory is reached through the direct map at `VA_KERNEL_BEGIN`.
-/

/-- The ways in which kernel code ends without returning.  `stray` stands for a
dereference that the source gives no meaning to, such as a null pointer, and
`hang` for a loop that waits for something nobody will do. -/
inductive Stop where
  | panic (message : String)
  | stray
  | hang
deriving DecidableEq, Repr

abbrev Result := Except Stop

variable {α β : Type} {value : Nat} {first : Result α}

/-- Peel the first computation off a sequence that returned. -/
theorem Result.bind_ok {next : α → Result β} {final : β}
    (returned : (first >>= next) = .ok final) : ∃ value, first = .ok value ∧ next value = .ok final := by
  cases first with
  | error stop => cases returned
  | ok value => exact ⟨value, rfl, returned⟩

@[simp] theorem Result.ok_bind (value : α) (next : α → Result β) :
    (Except.ok value >>= next : Result β) = next value := rfl

@[simp] theorem Result.error_bind (stop : Stop) (next : α → Result β) :
    (Except.error stop >>= next : Result β) = .error stop := rfl

theorem Result.bind_map {γ : Type} (result : Result α) (next : α → Result β) (f : β → γ) :
    (result >>= next).map f = result >>= fun value => (next value).map f := by
  cases result <;> rfl

/-- Two calls end alike: they return related values, or stop for the same reason. -/
inductive Result.Matches {α β : Type} (related : α → β → Prop) : Result α → Result β → Prop
  | ok {value : α} {other : β} (holds : related value other) : Matches related (.ok value) (.ok other)
  | error (stop : Stop) : Matches related (.error stop) (.error stop)

theorem Result.Matches.bind {γ δ : Type} {related : α → β → Prop} {final : γ → δ → Prop} {first' : Result β}
    {next : α → Result γ} {next' : β → Result δ} (matched : Matches related first first')
    (continues : ∀ value other, first = .ok value → first' = .ok other → related value other →
      Matches final (next value) (next' other)) : Matches final (first >>= next) (first' >>= next') := by
  cases matched with
  | ok holds => exact continues _ _ rfl rfl holds
  | error stop => exact .error stop

theorem Result.Matches.imp {related weaker : α → β → Prop}
    {first' : Result β} (matched : Matches related first first')
    (follows : ∀ value other, related value other → weaker value other) : Matches weaker first first' := by
  cases matched with
  | ok holds => exact .ok (follows _ _ holds)
  | error stop => exact .error stop

theorem Result.Matches.refl (result : Result α) : Matches Eq result result := by
  cases result with
  | ok value => exact .ok rfl
  | error stop => exact .error stop

/-- Whether a computation returns a value with a property is decided by running it. -/
instance Result.decidableReturns {α : Type} {P : α → Prop} [DecidablePred P] :
    (result : Result α) → Decidable (∃ value, result = .ok value ∧ P value)
  | .ok value => decidable_of_iff (P value) (by simp)
  | .error _ => .isFalse (by simp)

instance Result.decidableStops {α : Type} (stop : Stop) : (result : Result α) → Decidable (result = .error stop)
  | .ok _ => .isFalse nofun
  | .error found => decidable_of_iff (found = stop) (by simp)

def ulong (value : Nat) : Nat := value % 2 ^ 64

def ulongSub (left right : Nat) : Nat := (left + 2 ^ 64 - right) % 2 ^ 64

def ulongNot (value : Nat) : Nat := 2 ^ 64 - 1 - value

def pageShift : Nat := 12
def pageSize : Nat := 0x1000
def maxMemOrder : Nat := 11

def vaKernelBegin : Nat := 0xFFFFFFC000000000
def vaKernelPmaSize : Nat := 0x2000000000

def pmaVa2Pa (va : Nat) : Nat := va &&& ulongNot vaKernelBegin
def pmaPa2Va (pa : Nat) : Nat := pa ||| vaKernelBegin

def pageRoundUp (value : Nat) : Nat := ulong (value + pageSize - 1) &&& ulongNot (pageSize - 1)
def pageRoundDown (value : Nat) : Nat := value &&& ulongNot (pageSize - 1)

theorem ulong_lt (value : Nat) : ulong value < 2 ^ 64 := Nat.mod_lt _ (by decide)

theorem ulong_of_lt (bounded : value < 2 ^ 64) : ulong value = value := Nat.mod_eq_of_lt bounded

theorem ulongSub_of_le {left right : Nat} (ordered : right ≤ left) (bounded : left < 2 ^ 64) :
    ulongSub left right = left - right := by
  unfold ulongSub
  omega

theorem and_ulongNot_mask (bounded : value < 2 ^ 64) {low : Nat} (fits : low ≤ 64) :
    value &&& ulongNot (2 ^ low - 1) = value / 2 ^ low * 2 ^ low := by
  have positive := Nat.two_pow_pos low
  have mask : ulongNot (2 ^ low - 1) = 2 ^ 64 - 2 ^ low := by
    unfold ulongNot
    omega
  rw [mask, Data.and_high_mask bounded fits]

/-- The rounding idiom `(x + a - 1) & ~(a - 1)` for a power of two `a`. -/
theorem ulong_roundUp {power : Nat} (bounded : value + 2 ^ power < 2 ^ 64) :
    ulongSub (ulong (value + 2 ^ power)) 1 &&& ulongNot (ulongSub (2 ^ power) 1) =
      (value + 2 ^ power - 1) / 2 ^ power * 2 ^ power := by
  have positive := Nat.two_pow_pos power
  have fits : power ≤ 64 := by
    by_contra large
    have tooLarge := Nat.pow_le_pow_right (show 0 < 2 by decide) (show 64 ≤ power by omega)
    omega
  rw [ulong_of_lt bounded, ulongSub_of_le (by omega) bounded, ulongSub_of_le (by omega) (by omega)]
  exact and_ulongNot_mask (by omega) fits

theorem pmaVa2Pa_eq (va : Nat) : pmaVa2Pa va = va % 2 ^ 38 := Nat.and_two_pow_sub_one_eq_mod va 38

theorem pmaVa2Pa_lt (va : Nat) : pmaVa2Pa va < 2 ^ 64 := by
  rw [pmaVa2Pa_eq]
  omega

theorem pmaPa2Va_eq {pa : Nat} (bounded : pa < 2 ^ 38) : pmaPa2Va pa = vaKernelBegin + pa :=
  Data.or_high bounded (2 ^ 26 - 1)

/-- Going through the direct map keeps the low 38 bits of a physical address. -/
theorem pmaVa2Pa_pmaPa2Va (pa : Nat) : pmaVa2Pa (pmaPa2Va pa) = pa % 2 ^ 38 := by
  have cleared : vaKernelBegin &&& ulongNot vaKernelBegin = 0 := by decide
  unfold pmaVa2Pa pmaPa2Va
  rw [Nat.and_or_distrib_right, cleared, Nat.or_zero]
  exact pmaVa2Pa_eq pa

/-- Outside the direct map an address is that of the byte 256 GiB below. -/
theorem pmaPa2Va_mod {pa : Nat} (bounded : pa < 2 ^ 64) : pmaPa2Va pa = vaKernelBegin + pa % 2 ^ 38 := by
  rw [← pmaPa2Va_eq (Nat.mod_lt _ (by decide))]
  refine Nat.eq_of_testBit_eq fun bit => ?_
  have form : vaKernelBegin = 2 ^ 38 * (2 ^ 26 - 1) := by decide
  simp only [pmaPa2Va, Nat.testBit_or, Nat.testBit_mod_two_pow, form, Nat.testBit_two_pow_mul,
    Nat.testBit_two_pow_sub_one]
  by_cases low : bit < 38
  · simp [low]
  · by_cases middle : bit < 64
    · simp [show 38 ≤ bit by omega, show bit - 38 < 26 by omega]
    · have none : pa.testBit bit = false := Nat.testBit_lt_two_pow
        (Nat.lt_of_lt_of_le bounded (Nat.pow_le_pow_right (by decide) (by omega)))
      simp [low, none]

theorem pmaPa2Va_ne_zero (pa : Nat) : pmaPa2Va pa ≠ 0 := by
  have large : vaKernelBegin ≤ pmaPa2Va pa := Nat.right_le_or
  unfold vaKernelBegin at large
  omega

theorem pageRoundDown_eq (bounded : value < 2 ^ 64) : pageRoundDown value = value / 4096 * 4096 :=
  and_ulongNot_mask bounded (show 12 ≤ 64 by decide)

theorem pageRoundUp_eq (bounded : value + 4095 < 2 ^ 64) : pageRoundUp value = (value + 4095) / 4096 * 4096 := by
  unfold pageRoundUp
  rw [ulong_of_lt (by unfold pageSize; omega)]
  exact and_ulongNot_mask bounded (show 12 ≤ 64 by decide)

theorem pageRoundDown_le {value : Nat} (bounded : value < 2 ^ 64) : pageRoundDown value ≤ value := by
  rw [pageRoundDown_eq bounded]
  exact Nat.div_mul_le_self ..

theorem le_pageRoundUp {value : Nat} (bounded : value + 4095 < 2 ^ 64) : value ≤ pageRoundUp value := by
  rw [pageRoundUp_eq bounded]
  omega

@[simp] theorem shiftRight_pageShift (value : Nat) : value >>> pageShift = value / 4096 :=
  Nat.shiftRight_eq_div_pow value 12

@[simp] theorem shiftLeft_pageShift (value : Nat) : value <<< pageShift = value * 4096 := Nat.shiftLeft_eq value 12

@[simp] theorem and_pageSize_pred (value : Nat) : value &&& (pageSize - 1) = value % 4096 :=
  Nat.and_two_pow_sub_one_eq_mod value 12

end Kalorona
