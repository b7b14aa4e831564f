import Backslice.Operator

/-!
# Terms

Expressions and formulas are one type of trees. An expression denotes a word of
64 bits. A formula denotes a truth value, and an expression in the place of a
formula stands for "the word is not zero".

A register cell names the bits `offset` up to `offset + size` of a register;
size 0 means the whole register. The term bound by a quantifier is a variable
in every term built by `Term.quantify?`; replacing subterms may put any other
term there.

Terms are compared as trees. The equality test below is structural, and every
traversal recurses on the tree, through the operand lists of conjunctions and
disjunctions with a companion for lists. A tree may hold one object in many
places; the test passes over the places at which both sides hold the same one.
-/

namespace Backslice

inductive Quantifier where
  | universal
  | existential
deriving DecidableEq

inductive Term where
  /-- A word. -/
  | const (value : UInt64)
  | var (name : String)
  | reg (name : String) (offset size : UInt16)
  /-- The memory cell at an address. -/
  | mem (address : Term)
  | unary (op : UnaryOp) (operand : Term)
  | binary (op : BinaryOp) (left right : Term)
  /-- A truth value. -/
  | bool (value : Bool)
  | eq (left right : Term)
  | not (operand : Term)
  | and (operands : List Term)
  | or (operands : List Term)
  | quantified (quantifier : Quantifier) (bound body : Term)
  | ite (condition positive negative : Term)
deriving Inhabited

namespace Term

mutual

/-- Equality of trees. -/
def same : Term → Term → Bool
  | .const v, .const w => v == w
  | .var n, .var m => n == m
  | .reg n o s, .reg m p t => n == m && o == p && s == t
  | .mem a, .mem b => same a b
  | .unary op a, .unary oq b => op == oq && same a b
  | .binary op a b, .binary oq c d => op == oq && same a c && same b d
  | .bool b, .bool c => b == c
  | .eq a b, .eq c d => same a c && same b d
  | .not a, .not b => same a b
  | .and xs, .and ys => sameAll xs ys
  | .or xs, .or ys => sameAll xs ys
  | .quantified q a b, .quantified r c d => q == r && same a c && same b d
  | .ite a b c, .ite d e f => same a d && same b e && same c f
  | _, _ => false

/-- Equality of lists of trees. -/
def sameAll : List Term → List Term → Bool
  | [], [] => true
  | x :: xs, y :: ys => same x y && sameAll xs ys
  | _, _ => false

end

mutual

theorem same_iff : (t u : Term) → (same t u = true ↔ t = u)
  | .const _, u => by cases u <;> simp [same]
  | .var _, u => by cases u <;> simp [same]
  | .reg _ _ _, u => by cases u <;> simp [same, and_assoc]
  | .mem a, u => by cases u <;> simp [same, same_iff a]
  | .unary _ a, u => by cases u <;> simp [same, same_iff a]
  | .binary _ a b, u => by cases u <;> simp [same, same_iff a, same_iff b, and_assoc]
  | .bool _, u => by cases u <;> simp [same]
  | .eq a b, u => by cases u <;> simp [same, same_iff a, same_iff b]
  | .not a, u => by cases u <;> simp [same, same_iff a]
  | .and xs, u => by cases u <;> simp [same, sameAll_iff xs]
  | .or xs, u => by cases u <;> simp [same, sameAll_iff xs]
  | .quantified _ a b, u => by cases u <;> simp [same, same_iff a, same_iff b, and_assoc]
  | .ite a b c, u => by cases u <;> simp [same, same_iff a, same_iff b, same_iff c, and_assoc]

theorem sameAll_iff : (xs ys : List Term) → (sameAll xs ys = true ↔ xs = ys)
  | [], ys => by cases ys <;> simp [sameAll]
  | x :: xs, ys => by cases ys <;> simp [sameAll, same_iff x, sameAll_iff xs]

end

/-- The outcome of a test for equality, known without the test when both terms
are one object in memory. -/
@[inline]
def sameOr (t u : Term) (test : Unit → { b : Bool // b = same t u }) : { b : Bool // b = same t u } :=
  ⟨withPtrEq t u (fun _ => (test ()).1) fun h => by rw [(test ()).2, same_iff]; exact h, (test ()).2⟩

mutual

/-- As `same`, but subterms that are one object in memory are not compared. -/
def sameShared : (t u : Term) → { b : Bool // b = same t u }
  | .mem a, .mem b => ⟨(sameOr a b fun _ => sameShared a b).1, by rw [(sameOr _ _ _).2]; rfl⟩
  | .unary op a, .unary oq b =>
      ⟨op == oq && (sameOr a b fun _ => sameShared a b).1, by rw [(sameOr _ _ _).2]; rfl⟩
  | .binary op a b, .binary oq c d =>
      ⟨op == oq && (sameOr a c fun _ => sameShared a c).1 && (sameOr b d fun _ => sameShared b d).1, by
        rw [(sameOr _ _ _).2, (sameOr _ _ _).2]; rfl⟩
  | .eq a b, .eq c d =>
      ⟨(sameOr a c fun _ => sameShared a c).1 && (sameOr b d fun _ => sameShared b d).1, by
        rw [(sameOr _ _ _).2, (sameOr _ _ _).2]; rfl⟩
  | .not a, .not b => ⟨(sameOr a b fun _ => sameShared a b).1, by rw [(sameOr _ _ _).2]; rfl⟩
  | .and xs, .and ys => ⟨(sameAllShared xs ys).1, by rw [(sameAllShared xs ys).2]; rfl⟩
  | .or xs, .or ys => ⟨(sameAllShared xs ys).1, by rw [(sameAllShared xs ys).2]; rfl⟩
  | .quantified q a b, .quantified r c d =>
      ⟨q == r && (sameOr a c fun _ => sameShared a c).1 && (sameOr b d fun _ => sameShared b d).1, by
        rw [(sameOr _ _ _).2, (sameOr _ _ _).2]; rfl⟩
  | .ite a b c, .ite d e f =>
      ⟨(sameOr a d fun _ => sameShared a d).1 && (sameOr b e fun _ => sameShared b e).1 &&
        (sameOr c f fun _ => sameShared c f).1, by
        rw [(sameOr _ _ _).2, (sameOr _ _ _).2, (sameOr _ _ _).2]; rfl⟩
  | t, u => ⟨same t u, rfl⟩

/-- As `sameAll`, but members that are one object in memory are not compared. -/
def sameAllShared : (xs ys : List Term) → { b : Bool // b = sameAll xs ys }
  | x :: xs, y :: ys =>
      ⟨(sameOr x y fun _ => sameShared x y).1 && (sameAllShared xs ys).1, by
        rw [(sameOr _ _ _).2, (sameAllShared xs ys).2]; rfl⟩
  | xs, ys => ⟨sameAll xs ys, rfl⟩

end

instance : DecidableEq Term := fun t u =>
  decidable_of_iff ((sameOr t u fun _ => sameShared t u).1 = true) (by rw [(sameOr t u _).2]; exact same_iff t u)

/-- The direct subterms, in a fixed order. -/
def children : Term → List Term
  | .const _ | .var _ | .reg _ _ _ | .bool _ => []
  | .mem a | .unary _ a | .not a => [a]
  | .binary _ a b | .eq a b | .quantified _ a b => [a, b]
  | .and xs | .or xs => xs
  | .ite c a b => [c, a, b]

mutual

/-- Evaluate a term from the leaves up: `step` sees the term and the results of its children. -/
def foldUp {α : Type} (step : Term → List α → α) : Term → α
  | .const v => step (.const v) []
  | .var n => step (.var n) []
  | .reg n o s => step (.reg n o s) []
  | .mem a => step (.mem a) [foldUp step a]
  | .unary op a => step (.unary op a) [foldUp step a]
  | .binary op a b => step (.binary op a b) [foldUp step a, foldUp step b]
  | .bool b => step (.bool b) []
  | .eq a b => step (.eq a b) [foldUp step a, foldUp step b]
  | .not a => step (.not a) [foldUp step a]
  | .and xs => step (.and xs) (foldUpAll step xs)
  | .or xs => step (.or xs) (foldUpAll step xs)
  | .quantified q a b => step (.quantified q a b) [foldUp step a, foldUp step b]
  | .ite c a b => step (.ite c a b) [foldUp step c, foldUp step a, foldUp step b]

def foldUpAll {α : Type} (step : Term → List α → α) : List Term → List α
  | [] => []
  | x :: xs => foldUp step x :: foldUpAll step xs

end

theorem foldUpAll_eq_map {α : Type} (step : Term → List α → α) (xs : List Term) :
    foldUpAll step xs = xs.map (foldUp step) := by
  induction xs with
  | nil => rfl
  | cons x xs ih => simp [foldUpAll, ih]

theorem foldUp_eq {α : Type} (step : Term → List α → α) (t : Term) :
    foldUp step t = step t (t.children.map (foldUp step)) := by
  cases t <;> simp [foldUp, children, foldUpAll_eq_map]

theorem sizeOf_lt_of_mem_children {c t : Term} (h : c ∈ t.children) : sizeOf c < sizeOf t := by
  cases t <;> simp only [children, List.mem_cons, List.not_mem_nil, or_false] at h
  case and xs | or xs =>
    have := List.sizeOf_lt_of_mem h
    simp only [and.sizeOf_spec, or.sizeOf_spec]
    omega
  all_goals
    simp only [mem.sizeOf_spec, unary.sizeOf_spec, not.sizeOf_spec, binary.sizeOf_spec, eq.sizeOf_spec,
      quantified.sizeOf_spec, ite.sizeOf_spec]
    grind

/-- A property that passes from the children to the term holds of every term. -/
theorem inductionOnChildren {P : Term → Prop} (step : ∀ t, (∀ c ∈ t.children, P c) → P t) (t : Term) : P t :=
  step t fun c h =>
    have := sizeOf_lt_of_mem_children h
    inductionOnChildren step c

/-- The marker of conditional sets; no text denotes a variable with a `#` in its name. -/
def marker : Term :=
  .var "ELT#"

/-- Expressions, as opposed to formulas. -/
def isExpression : Term → Bool
  | .const _ | .var _ | .reg _ _ _ | .mem _ | .unary _ _ | .binary _ _ _ => true
  | _ => false

def isRegister : Term → Bool
  | .reg _ _ _ => true
  | _ => false

def isMemoryCell : Term → Bool
  | .mem _ => true
  | _ => false

/-- Storage locations: register cells and memory cells. -/
def isLvalue (t : Term) : Bool :=
  t.isRegister || t.isMemoryCell

def isVariable : Term → Bool
  | .var _ => true
  | _ => false

/-- The word of a constant expression. -/
def constantValue? : Term → Option UInt64
  | .const v => some v
  | _ => none

def isConstant (t : Term) : Bool :=
  t.constantValue?.isSome

/-- The address of a memory cell. -/
def cellAddress? : Term → Option Term
  | .mem a => some a
  | _ => none

end Term
end Backslice
