/-!
# Numerals of machine words

Words are written in lower-case hexadecimal or in decimal digits without leading
zeros, and read from digits of either case. Reading goes from left to right and
stops at the first fault: a character that is no digit of the base, or a digit
with which the value leaves the range of 64 bits.
-/

namespace Backslice.Numeral

/-- Why a text is no numeral of a word. -/
inductive Fault where
  | empty
  | invalidDigit
  | tooLarge
deriving DecidableEq

def Fault.message : Fault → String
  | .empty => "cannot parse integer from empty string"
  | .invalidDigit => "invalid digit found in string"
  | .tooLarge => "number too large to fit in target type"

/-- The digits of a number in a base. -/
def digits (base n : Nat) : String :=
  String.ofList (Nat.toDigits base n)

/-- A word in hexadecimal, with its mark. -/
def hexadecimal (v : UInt64) : String :=
  "0x" ++ digits 16 v.toNat

/-- The value of a digit or letter, where the base has it. -/
def digitValue? (base : Nat) (c : Char) : Option Nat :=
  let value? :=
    if c.isDigit then some (c.toNat - '0'.toNat)
    else if c.isLower then some (c.toNat - 'a'.toNat + 10)
    else if c.isUpper then some (c.toNat - 'A'.toNat + 10)
    else none
  value?.filter (· < base)

/-- Continue a value by the digits that follow. -/
def readFrom (base : Nat) (value : Nat) : List Char → Except Fault Nat
  | [] => .ok value
  | c :: cs =>
      match digitValue? base c with
      | none => .error .invalidDigit
      | some d => if value * base + d < UInt64.size then readFrom base (value * base + d) cs else .error .tooLarge

/-- The word written by one or more digits. -/
def read (base : Nat) (cs : List Char) : Except Fault UInt64 :=
  if cs.isEmpty then .error .empty else (readFrom base 0 cs).map UInt64.ofNat

/-- As `read`, with an optional plus sign in front of the digits. -/
def readSigned (base : Nat) : List Char → Except Fault UInt64
  | ['+'] => .error .invalidDigit
  | '+' :: cs => read base cs
  | cs => read base cs

end Backslice.Numeral
