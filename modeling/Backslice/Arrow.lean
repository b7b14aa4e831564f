import Backslice.Address
import Backslice.Subterm
import Backslice.TermText

/-!
# Arrows

An arrow leads from a program point to the next one and carries one statement
and possibly a guard. Its target is a fixed address, or is computed at run time
from a term; a computed target is known beforehand only if the term is a
constant.
-/

namespace Backslice

inductive Statement where
  /-- Store the value of `value` in `location`. -/
  | assign (location value : Term)
  | jump
  | skip
  /-- A call of code outside of the program. -/
  | external (name : String)
deriving DecidableEq

inductive Target where
  | fixed (a : Address)
  | computed (t : Term)
deriving DecidableEq

/-- An arrow; without a guard it is always taken. -/
structure Arrow where
  source : Address
  guard : Option Term
  statement : Statement
  target : Target
deriving DecidableEq

def Statement.text : Statement → String
  | .assign location value => location.text ++ " := " ++ value.text
  | .jump => "jmp"
  | .skip => "skip"
  | .external name => "external " ++ name

def Statement.isAssignment : Statement → Bool
  | .assign _ _ => true
  | _ => false

def Target.isComputed : Target → Bool
  | .computed _ => true
  | .fixed _ => false

/-- The address of a target, or the text of the term that computes it. -/
def Target.text : Target → String
  | .fixed a => a.text
  | .computed t => t.text

/-- The address a target stands for, where it is known. -/
def Target.known? : Target → Option Address
  | .fixed a => some a
  | .computed t => t.constantValue?.map Address.ofInstruction

namespace Arrow

/-- An assignment to a storage location. -/
def assignment? (source target : Address) (location value : Term) (guard : Option Term) :
    Except InputError Arrow :=
  if location.isLvalue then .ok ⟨source, guard, .assign location value, .fixed target⟩
  else .error (.notAnLvalue location.text)

/-- The storage location that the arrow assigns. -/
def assigned? (arrow : Arrow) : Option Term :=
  match arrow.statement with
  | .assign location _ => some location
  | _ => none

def guardText : Option Term → String
  | some g => "<<" ++ g.text ++ ">> "
  | none => ""

def targetText : Target → String
  | .fixed a => a.text
  | .computed t => "@(" ++ t.text ++ ")"

def text (arrow : Arrow) : String :=
  arrow.source.text ++ " " ++ guardText arrow.guard ++ arrow.statement.text ++ " --> " ++
    targetText arrow.target

end Arrow
end Backslice
