import Std.Data.HashMap
import Backslice.Program

/-!
# Indexed programs

A program in the form in which it is looked up. Points and arrows lie in two
lists and are named by their numbers there. A point lists the numbers of the
arrows that leave it and of those that lead to it, and a hash map finds the
number of a point by its address. So every arrow stands in up to three places,
and every change has to keep them together.

What leads to a point is known from the rest: from the arrows that leave the
points, and from the addresses found out for computed targets. It can be
computed anew at any time.
-/

namespace Backslice

instance : Hashable Address where
  hash a := mixHash (hash a.instruction) (hash a.microStep)

/-- A point with the numbers of its arrows, in the order in which they were entered. -/
structure IndexedPoint where
  address : Address
  leaving : List Nat := []
  arriving : List Nat := []

/-- An arrow with the addresses found out for its target. -/
structure IndexedArrow where
  arrow : Arrow
  solved : List Address := []

/-- The points that an arrow is known to lead to; those of a computed target in ascending order. -/
def IndexedArrow.destinations (e : IndexedArrow) : List Address :=
  match e.arrow.target with
  | .fixed a => [a]
  | .computed _ => e.solved.mergeSort

structure IndexedProgram where
  points : List IndexedPoint := []
  arrows : List IndexedArrow := []
  /-- The number of the point at an address. -/
  numbers : Std.HashMap Address Nat := {}
  /-- The entry point, if it has been set. -/
  start : Option Address := none

/-- An arrow as it is asked for; only an assignment can be refused. -/
inductive ArrowRequest where
  | fixed (source target : Address) (statement : Statement) (guard : Option Term)
  | computed (source : Address) (target : Term) (statement : Statement) (guard : Option Term)
  | assignment (source target : Address) (location value : Term) (guard : Option Term)
  | skip (source target : Address) (guard : Option Term)

def ArrowRequest.arrow? : ArrowRequest → Except InputError Arrow
  | .fixed source target statement guard => .ok ⟨source, guard, statement, .fixed target⟩
  | .computed source target statement guard => .ok ⟨source, guard, statement, .computed target⟩
  | .assignment source target location value guard => Arrow.assignment? source target location value guard
  | .skip source target guard => .ok ⟨source, guard, .skip, .fixed target⟩

/-- What can be asked of a program under construction. -/
inductive Change where
  | point (a : Address)
  | entry (a : Address)
  | arrow (request : ArrowRequest)
  /-- An address was found out for the target of the arrow with this number. -/
  | solve (number : Nat) (a : Address)
  | relink

/-- Why a change is refused. -/
inductive ChangeError where
  | input (e : InputError)
  | solve (e : Program.SolveError)
  /-- No arrow has this number; there are `length` arrows. -/
  | outOfBounds (length number : Nat)
deriving DecidableEq

def ChangeError.message : ChangeError → String
  | .input e => e.message
  | .solve e => e.message
  | .outOfBounds length number =>
      "index out of bounds: the len is " ++ toString length ++ " but the index is " ++ toString number

namespace Program

def change? (p : Program) : Change → Except ChangeError Program
  | .point a => .ok (p.addPoint a)
  | .entry a => .ok (p.setEntry a)
  | .arrow request =>
      match request.arrow? with
      | .error e => .error (.input e)
      | .ok arrow => .ok (p.addArrow arrow)
  | .solve number a =>
      match p.arrows[number]? with
      | none => .error (.outOfBounds p.arrows.length number)
      | some arrow =>
          match p.solve? arrow a with
          | .error e => .error (.solve e)
          | .ok (_, q) => .ok q
  | .relink => .ok p.relink

/-- The program after a change; a refused one changes nothing. -/
def change (p : Program) (c : Change) : Program :=
  match p.change? c with
  | .ok q => q
  | .error _ => p

/-- The program that is put together by some changes. -/
def ofChanges (changes : List Change) : Program :=
  changes.foldl change {}

end Program

namespace IndexedProgram

/-- The arrow with a number. -/
def arrow? (g : IndexedProgram) (number : Nat) : Option Arrow :=
  g.arrows[number]?.map (·.arrow)

/-- The number of the point at `a`, which is added if there is none. -/
def addPoint (g : IndexedProgram) (a : Address) : Nat × IndexedProgram :=
  match g.numbers[a]? with
  | some n => (n, g)
  | none =>
      (g.points.length,
        { g with points := g.points ++ [{ address := a }], numbers := g.numbers.insert a g.points.length })

def setEntry (g : IndexedProgram) (a : Address) : IndexedProgram :=
  { (g.addPoint a).2 with start := some a }

/-- Enter an arrow among those that lead to the point with number `n`, unless an equal one is there. -/
def link (g : IndexedProgram) (n number : Nat) : IndexedProgram :=
  { g with
    points := g.points.modify n fun point =>
      if point.arriving.any (g.arrow? · = g.arrow? number) then point
      else { point with arriving := point.arriving ++ [number] } }

/-- Enter an arrow among those that lead to `a`, which becomes a point. -/
def linkTo (g : IndexedProgram) (a : Address) (number : Nat) : IndexedProgram :=
  let (n, g) := g.addPoint a
  g.link n number

/-- The number of an arrow, if it is among those that leave the point with number `n`. -/
def find? (g : IndexedProgram) (n : Nat) (arrow : Arrow) : Option Nat :=
  g.points[n]?.bind fun point => point.leaving.find? (g.arrow? · = some arrow)

/-- Append an arrow, which leaves the point with number `n`. -/
def append (g : IndexedProgram) (n : Nat) (arrow : Arrow) : IndexedProgram :=
  { g with
    arrows := g.arrows ++ [{ arrow }]
    points := g.points.modify n fun point => { point with leaving := point.leaving ++ [g.arrows.length] } }

/-- The number of an arrow, which is added if no equal one leaves its source, with the points it joins. -/
def addArrow (g : IndexedProgram) (arrow : Arrow) : Nat × IndexedProgram :=
  let (n, g) := g.addPoint arrow.source
  match g.find? n arrow with
  | some number => (number, g)
  | none =>
      let number := g.arrows.length
      let g := g.append n arrow
      match arrow.target with
      | .fixed a => (number, g.linkTo a number)
      | .computed _ => (number, g)

/-- Note an address for the target of the arrow with a number. -/
def note (g : IndexedProgram) (number : Nat) (a : Address) : IndexedProgram :=
  { g with arrows := g.arrows.modify number fun e => { e with solved := e.solved ++ [a] } }

/-- Note an address for a computed target, and tell whether it is new. -/
def solve? (g : IndexedProgram) (number : Nat) (a : Address) : Except ChangeError (Bool × IndexedProgram) :=
  match g.arrows[number]? with
  | none => .error (.outOfBounds g.arrows.length number)
  | some e =>
      if !e.arrow.target.isComputed then .error (.solve .fixedTarget)
      else if a ∈ e.solved then .ok (false, g)
      else .ok (true, (g.note number a).linkTo a number)

/-- The program with nothing entered among what leads to its points. -/
def cleared (g : IndexedProgram) : IndexedProgram :=
  { g with points := g.points.map fun point => { point with arriving := [] } }

/-- Where the arrows lead, by the order of their source points, then by their own. -/
def entries (g : IndexedProgram) : List (Address × Nat) :=
  g.points.flatMap fun point =>
    point.leaving.flatMap fun number =>
      (g.arrows[number]?.elim [] (·.destinations)).map (·, number)

/-- Enter every arrow anew among those that lead to its destinations. -/
def relink (g : IndexedProgram) : IndexedProgram :=
  g.entries.foldl (fun g entry => g.linkTo entry.1 entry.2) g.cleared

def change? (g : IndexedProgram) : Change → Except ChangeError IndexedProgram
  | .point a => .ok (g.addPoint a).2
  | .entry a => .ok (g.setEntry a)
  | .arrow request =>
      match request.arrow? with
      | .error e => .error (.input e)
      | .ok arrow => .ok (g.addArrow arrow).2
  | .solve number a =>
      match g.solve? number a with
      | .error e => .error e
      | .ok (_, h) => .ok h
  | .relink => .ok g.relink

/-- The program after a change; a refused one changes nothing. -/
def change (g : IndexedProgram) (c : Change) : IndexedProgram :=
  match g.change? c with
  | .ok h => h
  | .error _ => g

/-- The program that is put together by some changes. -/
def ofChanges (changes : List Change) : IndexedProgram :=
  changes.foldl change {}

end IndexedProgram
end Backslice
