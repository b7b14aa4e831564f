import Backslice.Connective

/-!
# Case splits on aliases

After a store to the cell at `a`, the cell at `x` reads as the stored value if
`a = x`, and as before otherwise. Whether `a = x` is not decided here: every
read becomes a case split on it. A split inside an expression is lifted through
the operators to the formula around the expression, so that conditionals stay
between formulas. The address of a read stays as it is.
-/

namespace Backslice

/-- A tree of cases with a term in each of its leaves. -/
inductive Cases where
  | leaf (t : Term)
  | split (condition : Term) (positive negative : Cases)
deriving DecidableEq

namespace Cases

def map (f : Term → Term) : Cases → Cases
  | .leaf t => .leaf (f t)
  | .split c a b => .split c (a.map f) (b.map f)

/-- Pair every leaf with every leaf of `other`; the splits of `other` are the inner ones. -/
def combine (f : Term → Term → Term) : Cases → Cases → Cases
  | .leaf t, other => other.map (f t)
  | .split c a b, other => .split c (a.combine f other) (b.combine f other)

def toTerm : Cases → Term
  | .leaf t => t
  | .split c a b => .ite c a.toTerm b.toTerm

def isSplit : Cases → Bool
  | .leaf _ => false
  | .split _ _ _ => true

end Cases

namespace Term

/-- The cases of an expression read after `value` was stored at `address`. -/
def readCases (e address value : Term) : Cases :=
  match e with
  | .mem x => .split (.eq address x) (.leaf value) (.leaf (.mem x))
  | .unary op a => (a.readCases address value).map (.unary op)
  | .binary op a b => (a.readCases address value).combine (.binary op) (b.readCases address value)
  | e => .leaf e

/-- The cases of an expression from those of its operands. They are put together
when they are asked for, so that no case of an address is. -/
def casesHead (address value e : Term) (operands : List (Thunk Cases)) : Cases :=
  match e, operands with
  | .mem x, _ => .split (.eq address x) (.leaf value) (.leaf e)
  | .unary op _, [a] =>
      match a.get with
      | .leaf a => .leaf (reuse e (.unary op a))
      | a => a.map (.unary op)
  | .binary op _ _, [a, b] =>
      match a.get, b.get with
      | .leaf a, .leaf b => .leaf (reuse e (.binary op a b))
      | a, b => a.combine (.binary op) b
  | e, _ => .leaf e

/-- As `readCases`, but shared subterms are looked at once, and an expression without cases stays shared. -/
def readCasesShared (e address value : Term) : Cases :=
  (e.foldUpShared fun e operands => Thunk.mk fun _ => casesHead address value e operands).get

private theorem get_foldUp_casesHead (e address value : Term) :
    (foldUp (fun e operands => Thunk.mk fun _ => casesHead address value e operands) e).get =
      e.readCases address value := by
  induction e using inductionOnChildren with
  | step e ih =>
      rw [foldUp_eq]
      cases e with
      | unary op a =>
          have ha := ih a (by simp [children])
          simp only [children, List.map, Thunk.get, casesHead, readCases] at ha ⊢
          rw [ha]
          cases a.readCases address value <;> simp [Cases.map]
      | binary op a b =>
          have ha := ih a (by simp [children])
          have hb := ih b (by simp [children])
          simp only [children, List.map, Thunk.get, casesHead, readCases] at ha hb ⊢
          rw [ha, hb]
          cases a.readCases address value <;> cases b.readCases address value <;> simp [Cases.combine, Cases.map]
      | _ => simp [Thunk.get, casesHead, readCases]

@[simp]
theorem readCasesShared_eq_readCases (e address value : Term) :
    e.readCasesShared address value = e.readCases address value := by
  rw [readCasesShared, foldUpShared_eq_foldUp]
  exact get_foldUp_casesHead e address value

/-- An expression as a formula, read after `value` was stored at `address`, and whether it reads memory. -/
def splitExpression (e address value : Term) : Term × Bool :=
  let cases := e.readCasesShared address value
  (cases.toTerm, cases.isSplit)

mutual

/-- A formula read after `value` was stored at `address`, and whether it reads memory. -/
def splitAliases (t address value : Term) : Term × Bool :=
  match t with
  | .const v => (.const v, false)
  | .var n => (.var n, false)
  | .reg n o s => (.reg n o s, false)
  | .mem a => splitExpression (.mem a) address value
  | .unary op a => splitExpression (.unary op a) address value
  | .binary op a b => splitExpression (.binary op a b) address value
  | .bool b => (.bool b, false)
  | .eq a b =>
      let cases := (a.readCasesShared address value).combine .eq (b.readCasesShared address value)
      (cases.toTerm, cases.isSplit)
  | .not a =>
      let (a', split) := splitAliases a address value
      if split then (negate a', true) else (.not a, false)
  | .and xs =>
      let (ys, split) := splitAliasesAll xs address value
      if split then (conj ys, true) else (.and xs, false)
  | .or xs =>
      let (ys, split) := splitAliasesAll xs address value
      if split then (disj ys, true) else (.or xs, false)
  | .quantified q a b =>
      let (b', split) := splitAliases b address value
      (.quantified q a b', split)
  | .ite c a b =>
      let (c', cSplit) := splitAliases c address value
      let (a', aSplit) := splitAliases a address value
      let (b', bSplit) := splitAliases b address value
      (.ite c' a' b', cSplit || aSplit || bSplit)

def splitAliasesAll (ts : List Term) (address value : Term) : List Term × Bool :=
  match ts with
  | [] => ([], false)
  | x :: xs =>
      let (y, ySplit) := splitAliases x address value
      let (ys, ysSplit) := splitAliasesAll xs address value
      (y :: ys, ySplit || ysSplit)

end

end Term
end Backslice
