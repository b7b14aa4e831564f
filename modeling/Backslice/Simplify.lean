import Backslice.Connective

/-!
# Simplification

One pass from the leaves up decides what is decidable without reasoning:
operators on constants, equalities of one term with itself and of two constants
or truth values, conditionals whose condition is decided or whose branches are
one term, and quantifiers over a decided body. Connectives are put together by
their constructors. Divisions and remainders by zero stay as they are.
-/

namespace Backslice.Term

def simplifyUnary (op : UnaryOp) (a : Term) : Term :=
  match a with
  | .const v => .const (op.eval v)
  | a => .unary op a

def simplifyBinary (op : BinaryOp) (a b : Term) : Term :=
  match a, b with
  | .const v, .const w => (op.eval v w).elim (.binary op a b) .const
  | a, b => .binary op a b

def simplifyEq (a b : Term) : Term :=
  if equals a b then .bool true
  else
    match a, b with
    | .const v, .const w => .bool (v == w)
    | .bool v, .bool w => .bool (v == w)
    | a, b => .eq a b

def simplifyIte (c a b : Term) : Term :=
  match c.asFormula with
  | .bool true => a
  | .bool false => b
  | c => if equals a b then a else .ite c a b

def simplifyQuantified (q : Quantifier) (bound body : Term) : Term :=
  match body.asFormula with
  | .bool b => .bool b
  | body => .quantified q bound body

mutual

def simplify : Term → Term
  | .const v => .const v
  | .var n => .var n
  | .reg n o s => .reg n o s
  | .mem a => .mem (simplify a)
  | .unary op a => simplifyUnary op (simplify a)
  | .binary op a b => simplifyBinary op (simplify a) (simplify b)
  | .bool b => .bool b
  | .eq a b => simplifyEq (simplify a) (simplify b)
  | .not a => negate (simplify a)
  | .and xs => conj (simplifyAll xs)
  | .or xs => disj (simplifyAll xs)
  | .quantified q a b => simplifyQuantified q (simplify a) (simplify b)
  | .ite c a b => simplifyIte (simplify c) (simplify a) (simplify b)

def simplifyAll : List Term → List Term
  | [] => []
  | x :: xs => simplify x :: simplifyAll xs

end

theorem simplifyAll_eq_map (xs : List Term) : simplifyAll xs = xs.map simplify := by
  induction xs with
  | nil => rfl
  | cons x xs ih => simp [simplifyAll, ih]

/-- One step of simplification: a term whose children are simplified already, and given. -/
def simplifyHead (t : Term) (children : List Term) : Term :=
  match t, children with
  | .mem _, [a] => .mem a
  | .unary op _, [a] => simplifyUnary op a
  | .binary op _ _, [a, b] => simplifyBinary op a b
  | .eq _ _, [a, b] => simplifyEq a b
  | .not _, [a] => negate a
  | .and _, xs => conj xs
  | .or _, xs => disj xs
  | .quantified q _ _, [a, b] => simplifyQuantified q a b
  | .ite _ _ _, [c, a, b] => simplifyIte c a b
  | t, _ => t

theorem simplifyHead_children (t : Term) : t.simplifyHead (t.children.map simplify) = t.simplify := by
  cases t <;> simp [simplifyHead, children, simplify, simplifyAll_eq_map]

/-- As `simplify`, but shared subterms are simplified once, and subterms that do not change stay shared. -/
def simplifyShared : Term → Term :=
  foldUpShared fun t children => reuse t (t.simplifyHead children)

@[simp]
theorem simplifyShared_eq_simplify (t : Term) : t.simplifyShared = t.simplify := by
  induction t using inductionOnChildren with
  | step t ih =>
      rw [simplifyShared, foldUpShared_eq_foldUp] at ih ⊢
      rw [foldUp_eq, reuse_eq, List.map_congr_left ih, simplifyHead_children]

end Backslice.Term
