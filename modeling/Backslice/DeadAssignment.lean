import Backslice.Program

/-!
# Dead assignments

An assignment to a register cell is dead if no path from its target reads the
cell before it is overwritten. Assigning a part of the cell counts as a read,
and so does a jump whose target is not known. Other statements are never dead,
nor are assignments whose own target is unknown.
-/

namespace Backslice

namespace Arrow

/-- Whether the arrow overwrites exactly the cell `r`. -/
def overwrites (arrow : Arrow) (r : Term) : Bool :=
  arrow.assigned? = some r

/-- Whether the statement reads the cell `r`, or assigns an overlapping one. -/
def statementReads (arrow : Arrow) (r : Term) : Bool :=
  match arrow.statement with
  | .assign location value => value.reads r || (location != r && location.reads r)
  | _ => false

/-- Whether choosing the target reads the cell `r`, or may lead anywhere. -/
def targetReads (arrow : Arrow) (r : Term) : Bool :=
  match arrow.target with
  | .fixed _ => false
  | .computed t => t.reads r || !t.isConstant

/-- Whether the cell `r`, as it was in front of the arrow, counts as read by it. -/
def uses (arrow : Arrow) (r : Term) : Bool :=
  arrow.guard.any (·.reads r) || arrow.statementReads r || (!arrow.overwrites r && arrow.targetReads r)

end Arrow

namespace Program

/-- The arrows that follow an arrow while the cell `r` keeps its content. -/
def followers (p : Program) (r : Term) (arrow : Arrow) : List Arrow :=
  if arrow.overwrites r then [] else (arrow.target.known?.map p.leaving).getD []

/-- Whether the cell `r` may be read after the point `a`. -/
def usedAfter (p : Program) (r : Term) (a : Address) : Bool :=
  Reachability.anyReachable p.arrows (p.followers r) (p.leaving a) (·.uses r)

/-- Whether the value that an arrow assigns may be read later. -/
def isUsed (p : Program) (arrow : Arrow) : Bool :=
  match arrow.assigned?, arrow.target.known? with
  | some location, some a => !location.isRegister || a ∉ p.points || p.usedAfter location a
  | _, _ => true

/-- The dead assignments, in the order of the arrows. -/
def deadAssignments (p : Program) : List Arrow :=
  p.orderedArrows.filter fun arrow => !p.isUsed arrow

end Program
end Backslice
