import Backslice.Connective

/-!
# Conditional sets

A conditional set is a formula over the marker: `e` belongs to it exactly when
the formula holds with `e` for the marker. Membership may so depend on other
conditions. The explicit sets are the disjunctions of membership atoms, each an
equality of the marker with an element; flattening forces a set into this shape
and drops every condition, hence enlarges it at most.
-/

namespace Backslice

/-- A formula over the marker. -/
abbrev ConditionalSet := Term

namespace ConditionalSet

def empty : ConditionalSet :=
  .bool false

/-- The membership atom of an element. -/
def member (e : Term) : ConditionalSet :=
  .eq Term.marker e

/-- The union of two sets. -/
def union (s t : ConditionalSet) : ConditionalSet :=
  Term.disj [s, t]

/-- The set with one more element. -/
def add (s : ConditionalSet) (e : Term) : ConditionalSet :=
  s.union (member e)

/-- The set of the elements of a list. -/
def ofList (es : List Term) : ConditionalSet :=
  es.foldl add empty

/-- The element of a membership atom, written on either side of the marker. -/
def memberValue? : Term → Option Term
  | .eq a b =>
      if a = Term.marker then some b
      else if b = Term.marker then some a
      else none
  | _ => none

mutual

/-- The elements of the membership atoms that no negation encloses, in order. -/
def atoms : ConditionalSet → List Term
  | .eq a b => (memberValue? (.eq a b)).toList
  | .and xs => atomsAll xs
  | .or xs => atomsAll xs
  | .quantified _ _ b => atoms b
  | .ite _ a b => atoms a ++ atoms b
  | _ => []

def atomsAll : List Term → List Term
  | [] => []
  | x :: xs => atoms x ++ atomsAll xs

end

theorem atomsAll_eq_flatMap (xs : List Term) : atomsAll xs = xs.flatMap atoms := by
  induction xs with
  | nil => rfl
  | cons x xs ih => simp [atomsAll, ih]

/-- What may belong to the set, whatever the conditions, in order of first occurrence. -/
def possibleValues (s : ConditionalSet) : List Term :=
  Term.distinct (atoms s)

/-- The explicit set of the possible values. -/
def flatten (s : ConditionalSet) : ConditionalSet :=
  Term.disj (s.possibleValues.map member)

end ConditionalSet
end Backslice
