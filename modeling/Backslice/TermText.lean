import Backslice.Numeral
import Backslice.Term

/-!
# The text of terms

Terms are written fully parenthesised, in the syntax that `Term.parse` reads.
Quantified formulas and conditionals have a text too, but no syntax to read.
A constant below ten is one decimal digit and any other is hexadecimal; a
negated equality is written `!=`.
-/

namespace Backslice

def Quantifier.text : Quantifier → String
  | .universal => "forall"
  | .existential => "exists"

namespace Term

def constText (v : UInt64) : String :=
  if v < 10 then Numeral.digits 10 v.toNat else Numeral.hexadecimal v

/-- A register cell; the bit range is left out when it is the whole register. -/
def registerText (name : String) (offset size : UInt16) : String :=
  "%" ++ name ++
    if size = 0 then ""
    else "\x7b" ++ Numeral.digits 10 offset.toNat ++ ";" ++ Numeral.digits 10 size.toNat ++ "\x7d"

mutual

def text : Term → String
  | .const v => constText v
  | .var n => n
  | .reg n o s => registerText n o s
  | .mem a => "[" ++ text a ++ "]"
  | .unary op a => op.symbol ++ text a
  | .binary op a b => "(" ++ text a ++ " " ++ op.symbol ++ " " ++ text b ++ ")"
  | .bool b => if b then "true" else "false"
  | .eq a b => "(" ++ text a ++ " == " ++ text b ++ ")"
  | .not (.eq a b) => "(" ++ text a ++ " != " ++ text b ++ ")"
  | .not a => "!" ++ text a
  | .and xs => "(" ++ " && ".intercalate (textAll xs) ++ ")"
  | .or xs => "(" ++ " || ".intercalate (textAll xs) ++ ")"
  | .quantified q a b => "(" ++ q.text ++ " " ++ text a ++ ". " ++ text b ++ ")"
  | .ite c a b => "(if " ++ text c ++ " then " ++ text a ++ " else " ++ text b ++ ")"

def textAll : List Term → List String
  | [] => []
  | x :: xs => text x :: textAll xs

end

theorem textAll_eq_map (xs : List Term) : textAll xs = xs.map text := by
  induction xs with
  | nil => rfl
  | cons x xs ih => simp [textAll, ih]

end Term
end Backslice
