import Backslice.Proofs.HandleIndependence
import Backslice.Proofs.NormalTerms
import Mathlib

/-!
# Simplification is done in one pass

A node is foldable if simplification decides it or replaces it by one of its
children. A fold hands back a child, a grandchild (of a double negation) or a
truth value, so that the parent sees a node that was never its child. What makes
one pass enough is that whatever is handed back has no foldable node inside, and
is what the constructors make of its operands. The terms that simplification
leaves alone are those with both properties, and its results have both.
-/

namespace Backslice

namespace Term

/-- Words and truth values. -/
def isDecided : Term → Bool
  | .const _ | .bool _ => true
  | _ => false

/-- Whether simplification decides a node, or replaces it by one of its children: an operator on constants that has a
result, an equality of one term with itself, of two constants or of two truth values, a conditional whose condition is
decided or whose branches are one term, and a quantifier over a decided body. -/
def isFoldable : Term → Bool
  | .unary _ a => a.isConstant
  | .binary op a b =>
      match a, b with
      | .const v, .const w => (op.eval v w).isSome
      | _, _ => false
  | .eq a b =>
      match a, b with
      | .const _, .const _ | .bool _, .bool _ => true
      | a, b => a = b
  | .ite c a b => c.isDecided || a = b
  | .quantified _ _ body => body.isDecided
  | _ => false

/-- Whether no subterm of a term is foldable. -/
def IsFolded (t : Term) : Prop :=
  ∀ u ∈ t.subterms, u.isFoldable = false

theorem isFolded_iff (t : Term) : t.IsFolded ↔ t.isFoldable = false ∧ ∀ c ∈ t.children, c.IsFolded :=
  forall_subterms_iff t

theorem IsFolded.child {t c : Term} (h : t.IsFolded) (hc : c ∈ t.children) : c.IsFolded :=
  ((isFolded_iff t).1 h).2 c hc

theorem isFolded_of_isDecided {t : Term} (h : t.isDecided = true) : t.IsFolded := by
  cases t <;> simp_all [isDecided, IsFolded, subterms, isFoldable]

theorem IsFolded.asFormula {t : Term} (h : t.IsFolded) : t.asFormula.IsFolded :=
  forall_subterms_asFormula (fun _ => rfl) h

theorem asFormula_of_not_isDecided {t : Term} (h : t.isDecided = false) : t.asFormula = t := by
  cases t <;> simp_all [isDecided, asFormula]

/-- What simplification makes of a node: the node itself, or else something decided or a child. -/
def FoldsTo (t u : Term) : Prop :=
  if t.isFoldable then u.isDecided = true ∨ u ∈ t.children else u = t

theorem FoldsTo.isFolded {t u : Term} (h : FoldsTo t u) (ht : ∀ c ∈ t.children, c.IsFolded) : u.IsFolded := by
  unfold FoldsTo at h
  split at h
  next => exact h.elim isFolded_of_isDecided (ht u)
  next hfoldable =>
    rw [h]
    exact (isFolded_iff t).2 ⟨by simpa using hfoldable, ht⟩

theorem FoldsTo.eq {t u : Term} (h : FoldsTo t u) (ht : t.isFoldable = false) : u = t := by
  simpa [FoldsTo, ht] using h

theorem foldsTo_simplifyUnary (op : UnaryOp) (a : Term) : FoldsTo (.unary op a) (simplifyUnary op a) := by
  cases a <;> simp [FoldsTo, isFoldable, isConstant, constantValue?, simplifyUnary, isDecided]

theorem foldsTo_simplifyBinary (op : BinaryOp) (a b : Term) : FoldsTo (.binary op a b) (simplifyBinary op a b) := by
  unfold simplifyBinary
  split
  next v w => cases h : op.eval v w <;> simp [FoldsTo, isFoldable, h, isDecided]
  next hnot =>
    have hfoldable : (Term.binary op a b).isFoldable = false := by
      rw [isFoldable]
      exact hnot
    simp [FoldsTo, hfoldable]

theorem foldsTo_simplifyEq (a b : Term) : FoldsTo (.eq a b) (simplifyEq a b) := by
  unfold simplifyEq
  rw [equals_eq_decide]
  split
  next h =>
    have hfoldable : (Term.eq a b).isFoldable = true := by
      obtain rfl := of_decide_eq_true h
      cases a <;> simp [isFoldable]
    simp [FoldsTo, hfoldable, isDecided]
  next h =>
    split
    next => simp [FoldsTo, isFoldable, isDecided]
    next => simp [FoldsTo, isFoldable, isDecided]
    next hconst hbool =>
      have hfoldable : (Term.eq a b).isFoldable = false := by
        rw [isFoldable]
        · simpa using h
        · exact hconst
        · exact hbool
      simp [FoldsTo, hfoldable]

theorem foldsTo_simplifyIte (c a b : Term) : FoldsTo (.ite c.asFormula a b) (simplifyIte c a b) := by
  unfold simplifyIte
  split
  next h => simp [FoldsTo, isFoldable, isDecided, h, children]
  next h => simp [FoldsTo, isFoldable, isDecided, h, children]
  next htrue hfalse =>
    have hc : c.asFormula.isDecided = false := by
      cases c with
      | const v => cases hv : (v != 0) <;> simp_all [asFormula]
      | bool b => cases b <;> simp_all [asFormula]
      | _ => rfl
    by_cases h : a = b <;> simp [FoldsTo, isFoldable, equals_eq_decide, hc, h, children]

theorem foldsTo_simplifyQuantified (q : Quantifier) (a b : Term) :
    FoldsTo (.quantified q a b.asFormula) (simplifyQuantified q a b) := by
  unfold simplifyQuantified
  split
  next c h => simp [FoldsTo, isFoldable, isDecided, h]
  next h =>
    have hb : b.asFormula.isDecided = false := by
      cases b <;> simp_all [asFormula, isDecided]
    simp [FoldsTo, isFoldable, hb]

/-- No node of a simplified term is foldable. -/
theorem isFolded_simplify (t : Term) : t.simplify.IsFolded := by
  induction t using inductionOnChildren with
  | step t ih =>
      cases t with
      | const v | var n | reg n o s | bool b => simp [simplify, IsFolded, subterms, isFoldable]
      | mem a =>
          rw [simplify]
          exact (isFolded_iff _).2 ⟨rfl, by simpa [children] using ih⟩
      | unary op a => exact (foldsTo_simplifyUnary op _).isFolded (by simpa [children] using ih)
      | binary op a b => exact (foldsTo_simplifyBinary op _ _).isFolded (by simpa [children] using ih)
      | eq a b => exact (foldsTo_simplifyEq _ _).isFolded (by simpa [children] using ih)
      | not a => exact forall_subterms_negate (fun _ => rfl) (fun _ => rfl) (ih a (by simp [children]))
      | and xs =>
          rw [simplify, simplifyAll_eq_map]
          exact forall_subterms_conj (fun _ => rfl) (fun _ => rfl) (List.forall_mem_map.2 ih)
      | or xs =>
          rw [simplify, simplifyAll_eq_map]
          exact forall_subterms_disj (fun _ => rfl) (fun _ => rfl) (List.forall_mem_map.2 ih)
      | quantified q a b =>
          have ha := ih a (by simp [children])
          have hb := (ih b (by simp [children])).asFormula
          exact (foldsTo_simplifyQuantified q _ _).isFolded (by simpa [children] using ⟨ha, hb⟩)
      | ite c a b =>
          have hc := (ih c (by simp [children])).asFormula
          have ha := ih a (by simp [children])
          have hb := ih b (by simp [children])
          exact (foldsTo_simplifyIte _ _ _).isFolded (by simpa [children] using ⟨hc, ha, hb⟩)

/-- Every connective in a simplified term is what its constructor makes of the operands, also if the term was not
built by the constructors. -/
theorem isNormal_simplify (t : Term) : t.simplify.IsNormal := by
  refine isHereditary_isNormal.toIsInherited.simplify_of_symbols fun u hu => ?_
  have hsymbol := (mem_symbols_iff.1 hu).2
  cases u with
  | var n => exact isHereditary_isNormal.var n
  | reg n o s => exact isHereditary_isNormal.reg n o s
  | _ => exact absurd hsymbol (by simp [isSymbol, isVariable, isRegister])

/-- Simplification leaves a node alone that is not foldable and what its constructor makes of its children. -/
theorem simplifyHead_eq_self {t : Term} (hfolded : t.isFoldable = false) (hnormal : t.IsNormal) :
    t.simplifyHead t.children = t := by
  cases t with
  | const v | var n | reg n o s | bool b | mem a => rfl
  | unary op a => exact (foldsTo_simplifyUnary op a).eq hfolded
  | binary op a b => exact (foldsTo_simplifyBinary op a b).eq hfolded
  | eq a b => exact (foldsTo_simplifyEq a b).eq hfolded
  | not a => exact hnormal.head
  | and xs => exact conj_of_isNormal hnormal
  | or xs => exact disj_of_isNormal hnormal
  | quantified q a b =>
      have h := foldsTo_simplifyQuantified q a b
      rw [asFormula_of_not_isDecided hfolded] at h
      exact h.eq hfolded
  | ite c a b =>
      have h := foldsTo_simplifyIte c a b
      rw [asFormula_of_not_isDecided (Bool.or_eq_false_iff.1 hfolded).1] at h
      exact h.eq hfolded

theorem simplify_eq_self_iff {t : Term} : t.simplify = t ↔ t.IsNormal ∧ t.IsFolded := by
  constructor
  · intro h
    rw [← h]
    exact ⟨isNormal_simplify t, isFolded_simplify t⟩
  · rintro ⟨hnormal, hfolded⟩
    induction t using inductionOnChildren with
    | step t ih =>
        have hchildren : t.children.map simplify = t.children :=
          (List.map_congr_left fun c hc => ih c hc (hnormal.child hc) (hfolded.child hc)).trans (List.map_id _)
        rw [← simplifyHead_children, hchildren]
        exact simplifyHead_eq_self ((isFolded_iff t).1 hfolded).1 hnormal

theorem simplify_simplify (t : Term) : t.simplify.simplify = t.simplify :=
  simplify_eq_self_iff.2 ⟨isNormal_simplify t, isFolded_simplify t⟩

end Term

namespace Manager

variable {m : Manager} {i : Nat} {t : Term}

theorem outcome_simplify (hi : m.arena.term? i = some t) : (m.outcome (.simplify i)).1 = .ok [t.simplify] := by
  unfold outcome Operation.results
  rw [Building.run_bind_ok (Building.Reads.term hi _), Term.simplifyShared_eq_simplify]
  rfl

/-- One pass of simplification is enough. In a manager, after any operations on it, the handle of a simplified term is
returned when this term is simplified again, at once or later. No node of it is foldable, and every connective in it is
what its constructor makes of the operands. -/
theorem simplify_settles (hm : m.arena.IsManaged) (hi : m.arena.term? i = some t) :
    ∃ j, (m.perform (.simplify i)).1 = .ok [j] ∧ (m.perform (.simplify i)).2.arena.term? j = some t.simplify ∧
      t.simplify.IsFolded ∧ t.simplify.IsNormal ∧
      ∀ later, (((m.perform (.simplify i)).2.run later).2.perform (.simplify j)).1 = .ok [j] := by
  obtain ⟨ts, hts⟩ := hm.exists_holds
  obtain ⟨us, j, hus, -, hreturned, hj⟩ := exists_handle hts (outcome_simplify hi)
  refine ⟨j, hreturned, (hus.term?_eq j).trans hj, t.isFolded_simplify, t.isNormal_simplify, fun later => ?_⟩
  obtain ⟨vs, hvs, hmore, -⟩ := holds_run hus later
  have hheld : termAt vs j = some t.simplify := termAt_mono hmore hj
  refine perform_of_held hvs ?_ hheld
  rw [outcome_simplify ((hvs.term?_eq j).trans hheld), Term.simplify_simplify]

/-- The negation of a conditional, which compares a constant with itself and has a negation as its first branch. -/
def negatedChoice : List Operation :=
  [.reg "r1" 0 0, .const 12, .binary .ltU 4 5, .negate 6, .eq 5 5, .ite 8 7 4, .negate 9]

/-- The conditional becomes its branch, so that the negations meet, and the term below them is left. -/
theorem simplify_settles_negatedChoice :
    ∃ created, Manager.new 0 = .ok created ∧ (created.run negatedChoice).2.arena.IsManaged ∧
      (created.run negatedChoice).2.arena.term? 10 = some
        (.not (.ite (.eq (.const 12) (.const 12)) (.not (.binary .ltU (.reg "r1" 0 0) (.const 12))) (.reg "r1" 0 0))) ∧
      ((created.run negatedChoice).2.perform (.simplify 10)).1 = .ok [6] ∧
      ∀ later, ((((created.run negatedChoice).2.perform (.simplify 10)).2.run later).2.perform (.simplify 6)).1 =
        .ok [6] := by
  have hterm : (Manager.new 0).map (fun created => (created.run negatedChoice).2.arena.term? 10) = .ok (some
      (.not (.ite (.eq (.const 12) (.const 12)) (.not (.binary .ltU (.reg "r1" 0 0) (.const 12))) (.reg "r1" 0 0)))) := by
    decide +kernel
  have hreturned : (Manager.new 0).map (fun created => ((created.run negatedChoice).2.perform (.simplify 10)).1) =
      .ok (.ok [6]) := by
    decide +kernel
  obtain ⟨created, hcreated, hterm⟩ := Except.exists_of_map_eq_ok hterm
  rw [hcreated] at hreturned
  have hfirst := Except.ok.inj hreturned
  have hmanaged : (created.run negatedChoice).2.arena.IsManaged := ⟨0, created, negatedChoice, hcreated, rfl⟩
  obtain ⟨j, hj, -, -, -, hlater⟩ := simplify_settles hmanaged hterm
  obtain rfl : j = 6 := by simpa using hj.symm.trans hfirst
  exact ⟨created, hcreated, hmanaged, hterm, hfirst, hlater⟩

end Manager
end Backslice
