import Backslice.Distinct

/-!
# Subterms, storage locations and register overlap

The queries of the analysis on a single term: which storage locations occur in
it, which of them are read directly, and whether it may read a bit of a given
register cell. Lists of locations are in order of first occurrence, outermost
first.
-/

namespace Backslice.Term

mutual

/-- Every occurrence of a subterm, the term itself first. -/
def subterms : Term → List Term
  | .const v => [.const v]
  | .var n => [.var n]
  | .reg n o s => [.reg n o s]
  | .mem a => .mem a :: subterms a
  | .unary op a => .unary op a :: subterms a
  | .binary op a b => .binary op a b :: (subterms a ++ subterms b)
  | .bool b => [.bool b]
  | .eq a b => .eq a b :: (subterms a ++ subterms b)
  | .not a => .not a :: subterms a
  | .and xs => .and xs :: subtermsAll xs
  | .or xs => .or xs :: subtermsAll xs
  | .quantified q a b => .quantified q a b :: (subterms a ++ subterms b)
  | .ite c a b => .ite c a b :: (subterms c ++ (subterms a ++ subterms b))

def subtermsAll : List Term → List Term
  | [] => []
  | x :: xs => subterms x ++ subtermsAll xs

end

theorem subtermsAll_eq_flatMap (xs : List Term) : subtermsAll xs = xs.flatMap subterms := by
  induction xs with
  | nil => rfl
  | cons x xs ih => simp [subtermsAll, ih]

theorem subterms_eq (t : Term) : t.subterms = t :: t.children.flatMap subterms := by
  cases t <;> simp [subterms, children, subtermsAll_eq_flatMap]

theorem mem_subterms_self (t : Term) : t ∈ t.subterms := by
  simp [subterms_eq t]

/-- Whether some subterm passes a test, by an evaluation of the shared subterms. -/
def anySubterm (test : Term → Bool) : Term → Bool :=
  foldUpShared fun u found => test u || found.any id

theorem anySubterm_eq_any (test : Term → Bool) (t : Term) : t.anySubterm test = t.subterms.any test := by
  induction t using inductionOnChildren with
  | step t ih =>
      rw [anySubterm, foldUpShared_eq_foldUp, foldUp_eq, subterms_eq, List.any_cons, List.any_flatMap, List.any_map]
      congr 1
      rw [Bool.eq_iff_iff]
      simp only [List.any_eq_true, Function.comp_apply, id]
      refine exists_congr fun c => and_congr_right fun h => ?_
      rw [← List.any_eq_true, ← ih c h, anySubterm, foldUpShared_eq_foldUp]

/-- Whether some subterm of some term of a list passes a test. -/
def anySubtermOf (test : Term → Bool) (ts : List Term) : Bool :=
  (foldUpAllShared (fun u found => test u || found.any id) ts).any id

theorem anySubtermOf_eq_any (test : Term → Bool) (ts : List Term) :
    anySubtermOf test ts = ts.any (·.anySubterm test) := by
  simp [anySubtermOf, anySubterm]

/-- Whether `u` occurs in `t`; a term occurs in itself. -/
def contains (t u : Term) : Bool :=
  t.anySubterm (· = u)

/-- The storage locations that occur in a term, also those inside addresses. -/
def lvalues (t : Term) : List Term :=
  distinct (t.subterms.filter isLvalue)

/-- The occurrences of storage locations that are not inside an address. -/
def outermostLvalues (t : Term) : List Term :=
  foldUp (fun u found => if u.isLvalue then [u] else found.flatten) t

/-- The storage locations that a term reads directly: of `[%r1 + 4]` the cell, and not `%r1`. -/
def dependencies (t : Term) : List Term :=
  distinct t.outermostLvalues

/-- Whether the bit ranges of two cells of one register meet; size 0 is every bit. -/
def rangesMeet (offset size offset' size' : UInt16) : Bool :=
  size == 0 || size' == 0 ||
    (offset.toNat < offset'.toNat + size'.toNat && offset'.toNat < offset.toNat + size.toNat)

/-- Whether two register cells share storage; false unless both are register cells. -/
def overlaps : Term → Term → Bool
  | .reg n o s, .reg m p t => n == m && rangesMeet o s p t
  | _, _ => false

/-- Whether a term reads a part of the register cell `r`, anywhere in it. -/
def reads (t r : Term) : Bool :=
  t.anySubterm (·.overlaps r)

theorem reads_eq_any (t r : Term) : t.reads r = t.subterms.any (·.overlaps r) :=
  anySubterm_eq_any _ t

theorem reads_iff {t r : Term} : t.reads r = true ↔ ∃ c ∈ t.subterms, c.overlaps r = true := by
  rw [reads_eq_any, List.any_eq_true]

/-- The storage locations read directly, at a term that is no location itself. -/
theorem outermostLvalues_eq (t : Term) :
    t.outermostLvalues = if t.isLvalue then [t] else t.children.flatMap outermostLvalues := by
  rw [outermostLvalues, foldUp_eq, List.flatMap_def]
  rfl

end Backslice.Term
