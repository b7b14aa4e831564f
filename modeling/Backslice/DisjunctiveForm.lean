import Backslice.Connective

/-!
# Disjunctive normal form

Negations are pushed to the atoms, a conditional becomes a choice between its
condition with the one branch and the negated condition with the other, and
conjunctions are distributed over disjunctions. Equalities, expressions and
quantified formulas are atoms. The result may be exponentially larger.

A normal form is a list of clauses, each a list of literals. Clauses and
literals are kept at their first occurrence only.
-/

namespace Backslice

/-- A conjunction of literals. -/
abbrev Clause := List Term

namespace Clause

/-- The clauses of any of the parts. -/
def sum (parts : List (List Clause)) : List Clause :=
  Term.distinctLists parts.flatten

/-- The literals of two clauses. -/
def join (c d : Clause) : Clause :=
  let literals := c ++ d
  if literals.length ≤ 32 then literals.eraseDups else Term.distinct literals

@[simp]
theorem join_eq_eraseDups (c d : Clause) : join c d = (c ++ d).eraseDups := by
  simp [join]

/-- Every clause of `left` joined with every clause of `right`. -/
def product₂ (left right : List Clause) : List Clause :=
  Term.distinctLists (left.flatMap fun c => right.map fun d => c.join d)

@[simp]
theorem product₂_nil (right : List Clause) : product₂ [] right = [] := by
  simp [product₂]

/-- Every choice of one clause from each of the parts, joined. -/
def product (parts : List (List Clause)) : List Clause :=
  parts.foldl product₂ [[]]

/-- The clauses of a truth value: the empty clause is true, and no clause is false. -/
def ofBool (b : Bool) : List Clause :=
  if b then [[]] else []

end Clause

namespace Term

mutual

/-- The clauses of a formula, or of its negation. -/
def clauses : Term → (negated : Bool) → List Clause
  | .const v, negated => Clause.ofBool ((v != 0) != negated)
  | .bool b, negated => Clause.ofBool (b != negated)
  | .not a, negated => clauses a !negated
  | .and xs, negated =>
      if negated then Clause.sum (clausesAll xs negated) else joinClauses xs negated [[]]
  | .or xs, negated =>
      if negated then joinClauses xs negated [[]] else Clause.sum (clausesAll xs negated)
  | .ite c a b, negated =>
      Clause.sum
        [Clause.product [clauses c false, clauses a negated],
          Clause.product [clauses c true, clauses b negated]]
  | t, negated => [[if negated then negate t else t]]

def clausesAll : List Term → (negated : Bool) → List (List Clause)
  | [], _ => []
  | x :: xs, negated => clauses x negated :: clausesAll xs negated

/-- The clauses so far, joined with those of further formulas; once there is no
clause, there is none to come. -/
def joinClauses : List Term → (negated : Bool) → List Clause → List Clause
  | [], _, joined => joined
  | x :: xs, negated, joined =>
      if joined.isEmpty then [] else joinClauses xs negated (Clause.product₂ joined (clauses x negated))

end

theorem clausesAll_eq_map (xs : List Term) (negated : Bool) :
    clausesAll xs negated = xs.map (clauses · negated) := by
  induction xs with
  | nil => rfl
  | cons x xs ih => simp [clausesAll, ih]

theorem joinClauses_eq_foldl (xs : List Term) (negated : Bool) (joined : List Clause) :
    joinClauses xs negated joined = (xs.map (clauses · negated)).foldl Clause.product₂ joined := by
  have hnil : ∀ parts : List (List Clause), parts.foldl Clause.product₂ [] = [] := fun parts => by
    induction parts <;> simp_all [Clause.product₂_nil]
  induction xs generalizing joined with
  | nil => simp [joinClauses]
  | cons x xs ih =>
      rw [joinClauses, List.map_cons, List.foldl_cons]
      split
      next h => rw [List.isEmpty_iff.1 h, Clause.product₂_nil, hnil]
      next => exact ih _

theorem joinClauses_eq_product (xs : List Term) (negated : Bool) :
    joinClauses xs negated [[]] = Clause.product (xs.map (clauses · negated)) :=
  joinClauses_eq_foldl xs negated [[]]

def disjunctiveForm (t : Term) : Term :=
  disj ((t.share.clauses false).map conj)

end Term
end Backslice
