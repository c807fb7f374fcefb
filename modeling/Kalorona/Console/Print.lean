import Kalorona.Kernel.Machine

namespace Kalorona.Console

/-! # What the console functions print

Each function is modelled by the characters that it passes to `print_char`, in order.
-/

def charByte (c : Char) : UInt8 := c.toUInt8

def textBytes (text : String) : List UInt8 := text.toList.map charByte

def digits : List UInt8 := textBytes "0123456789abcdef"

def printUintBuf : Nat := 64

/-- The loop of `print_uint` that fills `buf`, from the last digit on. -/
def fillDigits : Nat → Nat → Nat → List UInt8
  | 0, _, _ => []
  | room + 1, x, base =>
    if x = 0 then [] else digits.getD (x % base) 0 :: fillDigits room (x / base) base

def printUint (x base : Nat) : List UInt8 :=
  if x = 0 then [charByte '0'] else (fillDigits printUintBuf x base).reverse

def printInt (x : Int) (base : Nat) : List UInt8 :=
  if x < 0 then charByte '-' :: printUint x.natAbs base else printUint x.natAbs base

/-- An argument of `printf`, with the type that `va_arg` reads it as. -/
inductive PrintArg where
  | int32 (value : Int)
  | uint32 (value : Nat)
  | uint64 (value : Nat)
  | char (value : UInt8)
  | string (text : Option (List UInt8))
deriving DecidableEq, Repr

/-- One conversion of `printf`: what it prints, and the arguments after it.  An argument
that is missing or of another type has no meaning. -/
def convert (c : UInt8) (args : List PrintArg) : Option (List UInt8 × List PrintArg) :=
  if c = charByte 'd' then
    match args with
    | .int32 value :: rest => some (printInt value 10, rest)
    | _ => none
  else if c = charByte 'x' then
    match args with
    | .int32 value :: rest => some (printInt value 16, rest)
    | _ => none
  else if c = charByte 'p' then
    match args with
    | .uint64 value :: rest => some (textBytes "0x" ++ printUint value 16, rest)
    | _ => none
  else if c = charByte 'u' then
    match args with
    | .uint32 value :: rest => some (printUint value 10, rest)
    | _ => none
  else if c = charByte 'c' then
    match args with
    | .char value :: rest => some ([value], rest)
    | _ => none
  else if c = charByte 's' then
    match args with
    | .string text :: rest => some (text.getD (textBytes "(null)"), rest)
    | _ => none
  else if c = charByte '%' then some ([charByte '%'], args)
  else some ([charByte '%', c], args)

/-- `printf` with a format that is not null. -/
def printf : List UInt8 → List PrintArg → Option (List UInt8)
  | [], _ => some []
  | c :: fmt, args =>
    if c ≠ charByte '%' then (printf fmt args).map (c :: ·)
    else
      match fmt with
      | [] => some [charByte '%']
      | c :: fmt =>
        match convert c args with
        | some (text, rest) => (printf fmt rest).map (text ++ ·)
        | none => none

/-- One byte of `print_buffer`, with what follows it. -/
def printByte (size i : Nat) (byte : UInt8) : List UInt8 :=
  (if byte.toNat < 16 then [charByte '0'] else []) ++ printUint byte.toNat 16 ++ [charByte ' '] ++
    if (i + 1) % 16 = 0 ∧ i ≠ size - 1 then [charByte '\n'] else []

def printBuffer (bytes : List UInt8) : List UInt8 :=
  (bytes.zipIdx.flatMap fun entry => printByte bytes.length entry.2 entry.1) ++ [charByte '\n']

example : printf (textBytes "%d %p%%%q") [.int32 (-42), .uint64 255] =
    some (textBytes "-42 0xff%%q") := by decide +kernel

end Kalorona.Console
