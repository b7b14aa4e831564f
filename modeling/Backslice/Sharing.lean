import Backslice.Memo
import Backslice.Term

/-!
# Shared subterms

A register that is doubled `n` times in a row leaves a term with `2 ^ n` leaves
and `n` different subterms. In memory the equal subterms are mostly one object,
because replacing puts the same object wherever it is asked to. The functions of
this module keep it so, and evaluate every object once. Terms of a few nodes are
evaluated as trees, which is faster.

None of this shows in a result: `foldUpShared` is `foldUp`, `foldUpAllShared`
maps it over a list, `reuse` and `share` give back what they are given, and
`equals` decides equality.
-/

namespace Backslice.Term

variable {α : Type} (step : Term → List α → α)

/-- The value of a term, from the values of its children if it is not known. -/
def visit (m : Memo (foldUp step)) (t : Term)
    (ofChildren : Memo (foldUp step) →
      { vs : List α // vs = t.children.map (foldUp step) } × Memo (foldUp step)) :
    ValueAt (foldUp step) t × Memo (foldUp step) :=
  m.getOrCompute t fun m =>
    let (⟨vs, h⟩, m) := ofChildren m
    (⟨step t vs, by rw [h]; exact (foldUp_eq step t).symm⟩, m)

mutual

/-- The values of the children of a term. -/
def visitChildren : (t : Term) → Memo (foldUp step) →
    { vs : List α // vs = t.children.map (foldUp step) } × Memo (foldUp step)
  | .const _, m | .var _, m | .reg _ _ _, m | .bool _, m => (⟨[], rfl⟩, m)
  | .mem a, m | .unary _ a, m | .not a, m =>
      let (x, m) := visit step m a (visitChildren a)
      (⟨[x.value], by simp [children, x.value_eq]⟩, m)
  | .binary _ a b, m | .eq a b, m | .quantified _ a b, m =>
      let (x, m) := visit step m a (visitChildren a)
      let (y, m) := visit step m b (visitChildren b)
      (⟨[x.value, y.value], by simp [children, x.value_eq, y.value_eq]⟩, m)
  | .and xs, m | .or xs, m => visitAll xs m
  | .ite a b c, m =>
      let (x, m) := visit step m a (visitChildren a)
      let (y, m) := visit step m b (visitChildren b)
      let (z, m) := visit step m c (visitChildren c)
      (⟨[x.value, y.value, z.value], by simp [children, x.value_eq, y.value_eq, z.value_eq]⟩, m)

/-- The values of a list of terms. -/
def visitAll : (ts : List Term) → Memo (foldUp step) →
    { vs : List α // vs = ts.map (foldUp step) } × Memo (foldUp step)
  | [], m => (⟨[], rfl⟩, m)
  | t :: ts, m =>
      let (v, m) := visit step m t (visitChildren t)
      let (⟨vs, h⟩, m) := visitAll ts m
      (⟨v.value :: vs, by simp [h, v.value_eq]⟩, m)

end

mutual

/-- What is left of a budget after every node of a term took one from it, if it is enough. -/
def spend (t : Term) (budget : Nat) : Option Nat :=
  match budget with
  | 0 => none
  | budget + 1 =>
      match t with
      | .const _ | .var _ | .reg _ _ _ | .bool _ => some budget
      | .mem a | .unary _ a | .not a => spend a budget
      | .binary _ a b | .eq a b | .quantified _ a b => (spend a budget).bind (spend b)
      | .and xs | .or xs => spendAll xs budget
      | .ite a b c => ((spend a budget).bind (spend b)).bind (spend c)

def spendAll (ts : List Term) (budget : Nat) : Option Nat :=
  match ts with
  | [] => some budget
  | t :: ts => (spend t budget).bind (spendAll ts)

end

/-- Whether a term has a few nodes only. -/
def isSmall (t : Term) : Bool :=
  (t.spend 40).isSome

/-- As `foldUp`, but a subterm that is one object in many places is evaluated once. -/
def foldUpShared (t : Term) : α :=
  if t.isSmall then foldUp step t else (visit step Memo.empty t (visitChildren step t)).1.value

@[simp]
theorem foldUpShared_eq_foldUp : foldUpShared step = foldUp step := by
  funext t
  unfold foldUpShared
  split
  next => rfl
  next => exact (visit step Memo.empty t (visitChildren step t)).1.value_eq

/-- The values of the terms of a list; what occurs in several of them is evaluated once. -/
def foldUpAllShared (ts : List Term) : List α :=
  if ts.all isSmall then ts.map (foldUp step) else (visitAll step ts Memo.empty).1.1

@[simp]
theorem foldUpAllShared_eq_map (ts : List Term) : foldUpAllShared step ts = ts.map (foldUp step) := by
  unfold foldUpAllShared
  split
  next => rfl
  next => exact (visitAll step ts Memo.empty).1.2

/-- The new term, as the object `old` where the two are equal. -/
def reuse (old new : Term) : Term :=
  if new = old then old else new

@[simp]
theorem reuse_eq (old new : Term) : reuse old new = new := by
  unfold reuse
  split <;> simp_all

/-- The term with all equal subterms as one object, a new one. -/
def share (t : Term) : Term :=
  ShareCommon.shareCommon' t

@[simp]
theorem share_eq (t : Term) : share t = t := rfl

mutual

/-- Whether two terms agree down to a depth; terms that do not are different. -/
def agree (t u : Term) (depth : Nat) : Bool :=
  match depth with
  | 0 => true
  | depth + 1 =>
      match t, u with
      | .mem a, .mem b | .not a, .not b => agree a b depth
      | .unary op a, .unary oq b => op == oq && agree a b depth
      | .binary op a b, .binary oq c d => op == oq && agree a c depth && agree b d depth
      | .eq a b, .eq c d => agree a c depth && agree b d depth
      | .and xs, .and ys | .or xs, .or ys => agreeAll xs ys depth
      | .quantified q a b, .quantified r c d => q == r && agree a c depth && agree b d depth
      | .ite a b c, .ite d e f => agree a d depth && agree b e depth && agree c f depth
      | t, u => same t u

def agreeAll (ts us : List Term) (depth : Nat) : Bool :=
  match ts, us with
  | [], [] => true
  | t :: ts, u :: us => agree t u depth && agreeAll ts us depth
  | _, _ => false

end

mutual

theorem agree_self (t : Term) (depth : Nat) : agree t t depth = true := by
  unfold agree
  cases depth with
  | zero => rfl
  | succ depth =>
      match t with
      | .const _ | .var _ | .reg _ _ _ | .bool _ => simp [same]
      | .mem a | .not a | .unary _ a => simp [agree_self a depth]
      | .binary _ a b | .eq a b | .quantified _ a b => simp [agree_self a depth, agree_self b depth]
      | .and xs | .or xs => simp [agreeAll_self xs depth]
      | .ite a b c => simp [agree_self a depth, agree_self b depth, agree_self c depth]

theorem agreeAll_self (ts : List Term) (depth : Nat) : agreeAll ts ts depth = true := by
  match ts with
  | [] => simp [agreeAll]
  | t :: ts => simp [agreeAll, agree_self t depth, agreeAll_self ts depth]

end

/-- Whether two terms are equal. If they are not one object, and agree near the
root, the test runs on copies in which equal subterms are one object. -/
def equals (t u : Term) : Bool :=
  withPtrEq t u
    (fun _ =>
      agree t u 5 &&
        if t.isSmall then t = u
        else
          match ShareCommon.shareCommon' (t, u) with
          | (t, u) => t = u)
    fun h => by simp [h, agree_self, ShareCommon.shareCommon']

@[simp]
theorem equals_eq_decide (t u : Term) : equals t u = decide (t = u) := by
  by_cases h : t = u
  · simp [equals, withPtrEq, h, agree_self, ShareCommon.shareCommon']
  · simp [equals, withPtrEq, h, ShareCommon.shareCommon']

/-- Whether two lists have equal members in the same order. -/
def equalsAll : List Term → List Term → Bool
  | [], [] => true
  | t :: ts, u :: us => equals t u && equalsAll ts us
  | _, _ => false

@[simp]
theorem equalsAll_eq_decide (ts us : List Term) : equalsAll ts us = decide (ts = us) := by
  induction ts generalizing us with
  | nil => cases us <;> simp [equalsAll]
  | cons t ts ih => cases us <;> simp [equalsAll, ih]

end Backslice.Term
