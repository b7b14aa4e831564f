import Backslice.Token

/-!
# Addresses of program points

A machine instruction is executed in micro-steps. A program point is given by
the address of the instruction and the index of the micro-step within it.
Addresses are ordered by instruction, then by micro-step.

What a caller can get wrong is a text that denotes no term, a term that is no
storage location, and an address without a program point.
-/

namespace Backslice

structure Address where
  instruction : UInt64
  microStep : UInt32
deriving DecidableEq

namespace Address

/-- The first micro-step of an instruction. -/
def ofInstruction (v : UInt64) : Address :=
  ⟨v, 0⟩

/-- The next micro-step of the same instruction. -/
def next (a : Address) : Address :=
  { a with microStep := a.microStep + 1 }

def order (a b : Address) : Ordering :=
  (compare a.instruction b.instruction).then (compare a.microStep b.microStep)

instance : LE Address where
  le a b := a.order b ≠ .gt

instance (a b : Address) : Decidable (a ≤ b) :=
  inferInstanceAs (Decidable (a.order b ≠ .gt))

def text (a : Address) : String :=
  "[" ++ Numeral.hexadecimal a.instruction ++ "," ++ Numeral.digits 10 a.microStep.toNat ++ "]"

end Address

inductive InputError where
  | parse (e : ParseError)
  /-- A text or the text of a term in the place of a storage location. -/
  | notAnLvalue (text : String)
  | unknownPoint (a : Address)
deriving DecidableEq

def InputError.message : InputError → String
  | .parse e => e.message
  | .notAnLvalue text => "expecting an lvalue, got `" ++ text ++ "`"
  | .unknownPoint a => "no microcode node at " ++ a.text

end Backslice
