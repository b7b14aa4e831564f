/-!
# Operators on words

The operators of expressions act on words of 64 bits and wrap around. Division
and remainder by zero have no result; every other operator is total. The four
comparisons give 0 or 1.
-/

namespace Backslice

/-- Operators with one operand. -/
inductive UnaryOp where
  /-- Two's complement negation. -/
  | neg
  /-- Bitwise complement. -/
  | complement
deriving DecidableEq

/-- Operators with two operands. -/
inductive BinaryOp where
  | add
  | sub
  | mul
  | udiv
  | umod
  | bitAnd
  | bitOr
  | bitXor
  | shl
  | shr
  | ltU
  | leU
  | ltS
  | leS
deriving DecidableEq

namespace UnaryOp

def eval : UnaryOp → UInt64 → UInt64
  | .neg, a => -a
  | .complement, a => ~~~a

def symbol : UnaryOp → String
  | .neg => "-"
  | .complement => "~"

/-- The position of the operator in the list of unary operators. -/
def code : UnaryOp → UInt64
  | .neg => 0
  | .complement => 1

end UnaryOp

/-- The word of a truth value. -/
def wordOfBool (b : Bool) : UInt64 :=
  if b then 1 else 0

namespace BinaryOp

/-- Shift amounts count modulo `2 ^ 32`; an amount of 64 or more shifts everything out. -/
def shiftBy (shift : UInt64 → UInt64 → UInt64) (a b : UInt64) : UInt64 :=
  let amount := b.toUInt32.toUInt64
  if amount < 64 then shift a amount else 0

/-- The result of an operator, absent for a division or remainder by zero. -/
def eval : BinaryOp → UInt64 → UInt64 → Option UInt64
  | .add, a, b => some (a + b)
  | .sub, a, b => some (a - b)
  | .mul, a, b => some (a * b)
  | .udiv, a, b => if b = 0 then none else some (a / b)
  | .umod, a, b => if b = 0 then none else some (a % b)
  | .bitAnd, a, b => some (a &&& b)
  | .bitOr, a, b => some (a ||| b)
  | .bitXor, a, b => some (a ^^^ b)
  | .shl, a, b => some (shiftBy (· <<< ·) a b)
  | .shr, a, b => some (shiftBy (· >>> ·) a b)
  | .ltU, a, b => some (wordOfBool (a < b))
  | .leU, a, b => some (wordOfBool (a ≤ b))
  | .ltS, a, b => some (wordOfBool (a.toInt64 < b.toInt64))
  | .leS, a, b => some (wordOfBool (a.toInt64 ≤ b.toInt64))

def symbol : BinaryOp → String
  | .add => "+"
  | .sub => "-"
  | .mul => "*"
  | .udiv => "/"
  | .umod => "%"
  | .bitAnd => "&"
  | .bitOr => "|"
  | .bitXor => "^"
  | .shl => "<<"
  | .shr => ">>"
  | .ltU => "<u"
  | .leU => "<=u"
  | .ltS => "<s"
  | .leS => "<=s"

/-- Every operator, in the order of the codes. -/
def all : List BinaryOp :=
  [.add, .sub, .mul, .udiv, .umod, .bitAnd, .bitOr, .bitXor, .shl, .shr, .ltU, .leU, .ltS, .leS]

/-- The position of the operator in `all`. -/
def code (op : BinaryOp) : UInt64 :=
  UInt64.ofNat (all.idxOf op)

/-- The operator with a given symbol. -/
def ofSymbol? (s : String) : Option BinaryOp :=
  all.find? (·.symbol == s)

end BinaryOp
end Backslice
