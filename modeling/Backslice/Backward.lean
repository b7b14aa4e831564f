import Backslice.AliasSplit
import Backslice.Arrow
import Backslice.ConditionalSet
import Backslice.DisjunctiveForm
import Backslice.Pattern
import Backslice.Simplify

/-!
# Watched locations before an arrow

The conditional set of watched locations behind an arrow determines the one in
front of it. An assignment to a register replaces watching the register by
watching what its value depends on, and every other read of the register by the
value. A store splits every read of memory on whether it reads the stored cell;
a watched cell that is the stored one is replaced by what the value depends on.
Other statements change nothing.

Both cases hide the atoms at which the set is to change behind placeholders, so
that the second replacement does not see the outcome of the first. Placeholders
are variables with names that no text can write.
-/

namespace Backslice

/-- A supply of variables: the number of variables taken so far. -/
structure Fresh where
  taken : Nat
deriving DecidableEq

/-- Take the next variable; its name is the stem, a `#` and the number. -/
def Fresh.take (names : Fresh) (stem : String) : Term × Fresh :=
  (.var (stem ++ "#" ++ toString names.taken), ⟨names.taken + 1⟩)

/-- Settings of the analysis. -/
structure Options where
  /-- Conjoin the guard of every arrow passed backward. -/
  guarded : Bool := false
  /-- Flatten the set after every assignment. -/
  flat : Bool := false
deriving DecidableEq

namespace Options

/-- The settings with which slices are computed. -/
def slicing : Options :=
  ⟨true, true⟩

/-- A flat set has no conditions, so guards are only kept in sets that are not flat. -/
def keepsGuards (o : Options) : Bool :=
  o.guarded && !o.flat

end Options

/-- What the analysis cannot go on from. -/
inductive Fault where
  | assignmentToNonLvalue (location : Term)
  | computedTargetPending (arrow : Arrow)
  | noContext (a : Address)
deriving DecidableEq

def Fault.message : Fault → String
  | .assignmentToNonLvalue location => "Assignment to a non-lvalue: " ++ location.text
  | .computedTargetPending arrow => "Dynamic arrow in worklist: " ++ arrow.text
  | .noContext a => "No context at " ++ a.text

namespace ConditionalSet

/-- The set before the register `r` was assigned `v`; `hidden` stands for the watched register. -/
def beforeRegister (s : ConditionalSet) (r v hidden : Term) : ConditionalSet :=
  ((s.replace (member r) hidden).replace r v).replace hidden (ofList v.dependencies)

/-- The set before `v` was stored at the address `a`. A watched cell at `x` is
hidden as an equality of `tag` with `x`, for any `x`. -/
def beforeStore (s : ConditionalSet) (a v x tag : Term) : ConditionalSet :=
  let watchedCell := member (.mem x)
  let hidden : Term := .eq tag x
  let resolved : Term := .ite (.eq a x) (ofList v.dependencies) watchedCell
  let masked := (Rule.replaceAll ⟨watchedCell, [x], hidden⟩ s).1
  let split := (masked.splitAliases a v).1
  (Rule.replaceAll ⟨hidden, [x], resolved⟩ split).1

/-- The set before an assignment, not yet normalised. -/
def beforeAssignment (s : ConditionalSet) (location value : Term) (names : Fresh) :
    Except Fault (ConditionalSet × Fresh) :=
  match location with
  | .reg name offset size =>
      let (hidden, names) := names.take "TMP"
      .ok (s.beforeRegister (.reg name offset size) value hidden, names)
  | .mem a =>
      let (x, names) := names.take "X"
      let (tag, names) := names.take "ELT_ADDR"
      .ok (s.beforeStore a value x tag, names)
  | location => .error (.assignmentToNonLvalue location)

/-- The set under the guard of an arrow, where guards are kept. -/
def underGuard (s : ConditionalSet) (options : Options) (guard : Option Term) : ConditionalSet :=
  match guard with
  | some g => if options.keepsGuards && g ≠ .bool true then Term.conj [g.asFormula, s] else s
  | none => s

def normalize (s : ConditionalSet) (options : Options) : ConditionalSet :=
  let t := s.simplifyShared.disjunctiveForm
  if options.flat then ConditionalSet.flatten t else t

/-- The set in front of an arrow, where `s` is the set behind it. -/
def before (s : ConditionalSet) (options : Options) (arrow : Arrow) (names : Fresh) :
    Except Fault (ConditionalSet × Fresh) :=
  match arrow.statement with
  | .assign location value => do
      let (t, names) ← s.beforeAssignment location value names
      pure (normalize (underGuard t options arrow.guard) options, names)
  | .jump | .skip | .external _ => .ok (underGuard s options arrow.guard, names)

end ConditionalSet
end Backslice
