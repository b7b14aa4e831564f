import Backslice.Arrow
import Backslice.Reachability

/-!
# Programs

A program is a graph of program points and arrows, both listed in the order in
which they were added. No two points and no two arrows of a program are equal.
The arrows that leave a point are those with this source.

The arrows that lead to a point are listed apart, because their order is that
in which they were linked: an arrow with a fixed target when it was added, an
arrow with a computed target when an address of it was found out.
-/

namespace Backslice

structure Program where
  points : List Address := []
  arrows : List Arrow := []
  /-- Arrows with the points they lead to, in the order in which they were linked. -/
  links : List (Address × Arrow) := []
  /-- Addresses found out for computed targets. -/
  solved : List (Arrow × Address) := []
  /-- The entry point, if it has been set. -/
  start : Option Address := none

namespace Program

/-- A computed target was expected. -/
inductive SolveError where
  | fixedTarget
deriving DecidableEq

def SolveError.message : SolveError → String
  | .fixedTarget => "Solved jumps only apply to dynamic arrows"

/-- The entry point: the one that was set, or else the first point. -/
def entry? (p : Program) : Option Address :=
  p.start.or p.points.head?

def addPoint (p : Program) (a : Address) : Program :=
  if a ∈ p.points then p else { p with points := p.points ++ [a] }

@[simp]
theorem mem_points_addPoint {p : Program} {a b : Address} :
    b ∈ (p.addPoint a).points ↔ b ∈ p.points ∨ b = a := by
  unfold addPoint
  split
  next h =>
    constructor
    · exact Or.inl
    · rintro (hb | rfl)
      · exact hb
      · exact h
  next => simp

@[simp]
theorem arrows_addPoint (p : Program) (a : Address) : (p.addPoint a).arrows = p.arrows := by
  unfold addPoint
  split <;> rfl

@[simp]
theorem links_addPoint (p : Program) (a : Address) : (p.addPoint a).links = p.links := by
  unfold addPoint
  split <;> rfl

def setEntry (p : Program) (a : Address) : Program :=
  { p.addPoint a with start := some a }

/-- The arrows that leave a point. -/
def leaving (p : Program) (a : Address) : List Arrow :=
  p.arrows.filter (·.source = a)

/-- The arrows that lead to a point. -/
def arriving (p : Program) (a : Address) : List Arrow :=
  (p.links.filter (·.1 = a)).map (·.2)

/-- Every arrow, by the order of the source points, then by its own. -/
def orderedArrows (p : Program) : List Arrow :=
  p.points.flatMap p.leaving

/-- Enter an arrow among those that lead to `a`, which becomes a point. -/
def link (p : Program) (a : Address) (arrow : Arrow) : Program :=
  if (a, arrow) ∈ p.links then p.addPoint a
  else { p.addPoint a with links := p.links ++ [(a, arrow)] }

@[simp]
theorem mem_links_link {p : Program} {a : Address} {arrow : Arrow} {entry : Address × Arrow} :
    entry ∈ (p.link a arrow).links ↔ entry ∈ p.links ∨ entry = (a, arrow) := by
  unfold link
  split
  next h =>
    rw [links_addPoint]
    constructor
    · exact Or.inl
    · rintro (he | rfl)
      · exact he
      · exact h
  next => simp

/-- Add an arrow, unless the program has it, with the points it joins. -/
def addArrow (p : Program) (arrow : Arrow) : Program :=
  let p := p.addPoint arrow.source
  if arrow ∈ p.arrows then p
  else
    let p := { p with arrows := p.arrows ++ [arrow] }
    match arrow.target with
    | .fixed a => p.link a arrow
    | .computed _ => p

/-- The addresses found out for the target of an arrow, in ascending order. -/
def solvedTargets (p : Program) (arrow : Arrow) : List Address :=
  ((p.solved.filter (·.1 = arrow)).map (·.2)).mergeSort

/-- Note an address for a computed target, and tell whether it is new. -/
def solve? (p : Program) (arrow : Arrow) (a : Address) : Except SolveError (Bool × Program) :=
  if !arrow.target.isComputed then .error .fixedTarget
  else if (arrow, a) ∈ p.solved then .ok (false, p)
  else .ok (true, { p with solved := p.solved ++ [(arrow, a)] }.link a arrow)

/-- The points that an arrow is known to lead to. -/
def destinations (p : Program) (arrow : Arrow) : List Address :=
  match arrow.target with
  | .fixed a => [a]
  | .computed _ => p.solvedTargets arrow

/-- Link every arrow anew, in the order of the arrows, then of the addresses. -/
def relink (p : Program) : Program :=
  (p.orderedArrows.flatMap fun arrow => (p.destinations arrow).map (·, arrow)).foldl
    (fun q entry => q.link entry.1 entry.2) { p with links := [] }

/-- Whether an address is a point; a lookup of any other address is an error. -/
def point? (p : Program) (a : Address) : Except InputError Address :=
  if a ∈ p.points then .ok a else .error (.unknownPoint a)

/-- The sources, within one instruction, of the arrows that lead to a point. -/
def sourcesWithin (p : Program) (instruction : UInt64) (a : Address) : List Address :=
  ((p.arriving a).map (·.source)).filter (·.instruction = instruction)

/-- The first micro-steps of the instruction of `a` from which `a` is reached
through arrows inside of this instruction, in the order of a backward search. -/
def firstStepsTo (p : Program) (a : Address) : List Address :=
  let sources := p.sourcesWithin a.instruction
  let visited := Reachability.reachable p.points sources [a]
  ((visited.flatMap sources).filter (·.microStep = 0)).eraseDups

/-- A line for every arrow, and for every point that no arrow leaves. -/
def lines (p : Program) : List String :=
  p.points.flatMap fun a =>
    match p.leaving a with
    | [] => [a.text]
    | arrows => arrows.map (·.text)

def text (p : Program) : String :=
  String.join (p.lines.map (· ++ "\n"))

end Program
end Backslice
