import Backslice.Distinct

/-!
# Building formulas

Negations, conjunctions and disjunctions are built in a normal form. A constant
word in the place of a formula is read as its truth value, a double negation
cancels, nested conjunctions (disjunctions) are flattened, and an operand is
kept at its first occurrence only. A conjunction (disjunction) of no operand is
a truth value, one of a single operand is that operand.

Equalities, conditionals and expressions are built as they are.
-/

namespace Backslice.Term

/-- A term in the place of a formula: a constant becomes the truth value of "not zero". -/
def asFormula : Term → Term
  | .const v => .bool (v != 0)
  | t => t

def negate (t : Term) : Term :=
  match t.asFormula with
  | .bool b => .bool !b
  | .not u => u
  | u => .not u

/-- What an operand contributes to a conjunction. -/
def conjuncts (t : Term) : List Term :=
  match t.asFormula with
  | .bool true => []
  | .and xs => xs
  | u => [u]

/-- What an operand contributes to a disjunction. -/
def disjuncts (t : Term) : List Term :=
  match t.asFormula with
  | .bool false => []
  | .or xs => xs
  | u => [u]

def conj (operands : List Term) : Term :=
  match distinct (operands.flatMap conjuncts) with
  | [] => .bool true
  | [x] => x
  | xs => if .bool false ∈ xs then .bool false else .and xs

def disj (operands : List Term) : Term :=
  match distinct (operands.flatMap disjuncts) with
  | [] => .bool false
  | [x] => x
  | xs => if .bool true ∈ xs then .bool true else .or xs

/-- Ways to build a term that are refused. -/
inductive BuildError where
  /-- A quantifier binds a variable and nothing else. -/
  | boundNotVariable
  /-- A term was to be put together from fewer children than it has. -/
  | missingChild (given : Nat)
deriving DecidableEq

def BuildError.message : BuildError → String
  | .boundNotVariable => "Quantified term must be a variable"
  | .missingChild given =>
      "index out of bounds: the len is " ++ toString given ++ " but the index is " ++ toString given

/-- A quantified formula over a variable. -/
def quantify? (q : Quantifier) (bound body : Term) : Except BuildError Term :=
  if bound.isVariable then .ok (.quantified q bound body) else .error .boundNotVariable

/-- The number of children a term needs; connectives take any number. -/
def arity : Term → Nat
  | .const _ | .var _ | .reg _ _ _ | .bool _ | .and _ | .or _ => 0
  | .mem _ | .unary _ _ | .not _ => 1
  | .binary _ _ _ | .eq _ _ | .quantified _ _ _ => 2
  | .ite _ _ _ => 3

/-- The term with the given children, built by the constructors above. A child
that is not given stays as it is, and a child too many is ignored. -/
def withChildren (t : Term) (cs : List Term) : Term :=
  match t with
  | .const _ | .var _ | .reg _ _ _ | .bool _ => t
  | .mem a => .mem (cs.getD 0 a)
  | .unary op a => .unary op (cs.getD 0 a)
  | .binary op a b => .binary op (cs.getD 0 a) (cs.getD 1 b)
  | .eq a b => .eq (cs.getD 0 a) (cs.getD 1 b)
  | .not a => negate (cs.getD 0 a)
  | .and _ => conj cs
  | .or _ => disj cs
  | .quantified q a b => .quantified q (cs.getD 0 a) (cs.getD 1 b)
  | .ite c a b => .ite (cs.getD 0 c) (cs.getD 1 a) (cs.getD 2 b)

/-- As `withChildren`, but a missing child is an error. -/
def rebuild? (t : Term) (cs : List Term) : Except BuildError Term :=
  if cs.length < t.arity then .error (.missingChild cs.length) else .ok (t.withChildren cs)

/-- The term with new children; the term itself when they are the old ones. -/
def updateChildren (t : Term) (cs : List Term) : Term :=
  if cs = t.children then t else t.withChildren cs

@[simp]
theorem updateChildren_children (t : Term) : t.updateChildren t.children = t := by
  simp [updateChildren]

@[simp]
theorem conj_nil : conj [] = .bool true := rfl

@[simp]
theorem disj_nil : disj [] = .bool false := rfl

end Backslice.Term
