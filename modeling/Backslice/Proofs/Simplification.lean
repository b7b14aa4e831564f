import Backslice.Proofs.Sorts
import Backslice.Simplify

/-!
# Simplification keeps values and truth

A word term keeps its word under simplification. The truth of a formula is kept
if that of its atoms is, for any reading of the atoms, because the connectives
are put together by their constructors and a decided conditional becomes its
branch. Read in a valuation, the atoms of a well-sorted formula keep their truth.
So a well-sorted term means what it meant before.
-/

namespace Backslice.Term

theorem simplifyUnary_cases (op : UnaryOp) (a : Term) :
    (∃ c, simplifyUnary op a = .const c ∧ ∃ v, a = .const v) ∨ simplifyUnary op a = .unary op a := by
  unfold simplifyUnary
  split
  next v => exact Or.inl ⟨_, rfl, v, rfl⟩
  next => exact Or.inr rfl

theorem simplifyBinary_cases (op : BinaryOp) (a b : Term) :
    (∃ c, simplifyBinary op a b = .const c ∧ ∃ v w, a = .const v ∧ b = .const w) ∨
      simplifyBinary op a b = .binary op a b := by
  unfold simplifyBinary
  split
  next v w =>
    cases h : op.eval v w with
    | none => exact Or.inr rfl
    | some c => exact Or.inl ⟨c, rfl, v, w, rfl, rfl⟩
  next => exact Or.inr rfl

theorem simplifyEq_cases (a b : Term) : (∃ c, simplifyEq a b = .bool c) ∨ simplifyEq a b = .eq a b := by
  unfold simplifyEq
  split
  next => exact Or.inl ⟨true, rfl⟩
  next =>
    split
    next => exact Or.inl ⟨_, rfl⟩
    next => exact Or.inl ⟨_, rfl⟩
    next => exact Or.inr rfl

theorem simplifyQuantified_cases (q : Quantifier) (a b : Term) :
    (∃ c, simplifyQuantified q a b = .bool c) ∨ simplifyQuantified q a b = .quantified q a b.asFormula := by
  unfold simplifyQuantified
  split
  next => exact Or.inl ⟨_, rfl⟩
  next => exact Or.inr rfl

theorem simplifyIte_cases (c a b : Term) :
    simplifyIte c a b = a ∨ simplifyIte c a b = b ∨ simplifyIte c a b = .ite c.asFormula a b := by
  unfold simplifyIte
  split
  next => exact Or.inl rfl
  next => exact Or.inr (Or.inl rfl)
  next =>
    split
    next => exact Or.inl rfl
    next => exact Or.inr (Or.inr rfl)

section
variable (z : ZeroDivision) (v : Valuation)

theorem value_simplifyUnary (op : UnaryOp) (a : Term) :
    (simplifyUnary op a).value z v = (unary op a).value z v := by
  unfold simplifyUnary
  split <;> simp [value]

theorem value_simplifyBinary (op : BinaryOp) (a b : Term) :
    (simplifyBinary op a b).value z v = (binary op a b).value z v := by
  unfold simplifyBinary
  split
  next w w' => cases h : op.eval w w' <;> simp [value, ZeroDivision.apply, h]
  next => rfl

/-- Simplification keeps the value of a word term. -/
theorem value_simplify {t : Term} (h : t.IsWord) : t.simplify.value z v = t.value z v := by
  induction t using inductionOnChildren with
  | step t ih =>
      cases t with
      | mem a => simp only [simplify, value, ih a (by simp [children]) (by simpa using h)]
      | unary op a =>
          rw [simplify, value_simplifyUnary]
          simp only [value, ih a (by simp [children]) (by simpa using h)]
      | binary op a b =>
          obtain ⟨ha, hb⟩ := (isWord_binary op a b).1 h
          rw [simplify, value_simplifyBinary]
          simp only [value, ih a (by simp [children]) ha, ih b (by simp [children]) hb]
      | const _ | var _ | reg _ _ _ => rfl
      | _ => exact absurd h.isExpression (by simp [isExpression])

theorem isWord_simplify {t : Term} (h : t.IsWord) : t.simplify.IsWord := by
  induction t using inductionOnChildren with
  | step t ih =>
      cases t with
      | mem a => simpa [simplify] using ih a (by simp [children]) (by simpa using h)
      | unary op a =>
          have ha := ih a (by simp [children]) (by simpa using h)
          rw [simplify]
          rcases simplifyUnary_cases op a.simplify with ⟨c, hc, -⟩ | hkept
          · simp [hc]
          · simpa [hkept] using ha
      | binary op a b =>
          obtain ⟨ha, hb⟩ := (isWord_binary op a b).1 h
          have ha := ih a (by simp [children]) ha
          have hb := ih b (by simp [children]) hb
          rw [simplify]
          rcases simplifyBinary_cases op a.simplify b.simplify with ⟨c, hc, -⟩ | hkept
          · simp [hc]
          · simpa [hkept] using ⟨ha, hb⟩
      | const _ | var _ | reg _ _ _ => simp [simplify]
      | _ => exact absurd h.isExpression (by simp [isExpression])

theorem value_simplifyEq {a b : Term} (ha : a.IsWord) :
    (simplifyEq a b).value z v = (eq a b).value z v := by
  unfold simplifyEq
  split
  next h =>
    rw [equals_eq_decide, decide_eq_true_eq] at h
    simp [value, h, wordOf, wordOfBool]
  next =>
    split
    next w w' _ => exact wordOfBool_decide (w = w')
    next => exact absurd ha.isExpression (by simp [isExpression])
    next => rfl

end

theorem symbols_simplifyEq {a b u : Term} (h : u ∈ (simplifyEq a b).symbols) : u ∈ (eq a b).symbols := by
  rcases simplifyEq_cases a b with ⟨c, hc⟩ | hkept
  · simp [hc] at h
  · rwa [hkept] at h

theorem symbols_simplifyIte {c a b u : Term} (h : u ∈ (simplifyIte c a b).symbols) : u ∈ (ite c a b).symbols := by
  rw [symbols_ite]
  rcases simplifyIte_cases c a b with ha | hb | hkept
  · simp [ha ▸ h]
  · simp [hb ▸ h]
  · simpa [hkept, collects_symbols.asFormula] using h

theorem symbols_simplifyQuantified {q : Quantifier} {a b u : Term} (h : u ∈ (simplifyQuantified q a b).symbols) :
    u ∈ (quantified q a b).symbols := by
  rcases simplifyQuantified_cases q a b with ⟨c, hc⟩ | hkept
  · simp [hc] at h
  · simpa [hkept, collects_symbols.asFormula] using h

theorem symbols_simplify {t u : Term} (h : u ∈ t.simplify.symbols) : u ∈ t.symbols := by
  induction t using inductionOnChildren with
  | step t ih =>
      have child : ∀ c ∈ t.children, u ∈ c.simplify.symbols → u ∈ c.symbols := ih
      cases t with
      | const _ | var _ | reg _ _ _ | bool _ => exact h
      | mem a =>
          rw [simplify, symbols_mem] at h
          simpa using child a (by simp [children]) h
      | unary op a =>
          rw [symbols_unary]
          rw [simplify] at h
          rcases simplifyUnary_cases op a.simplify with ⟨c, hc, -⟩ | hkept
          · simp [hc] at h
          · exact child a (by simp [children]) (by simpa [hkept] using h)
      | binary op a b =>
          rw [symbols_binary, List.mem_append]
          rw [simplify] at h
          rcases simplifyBinary_cases op a.simplify b.simplify with ⟨c, hc, -⟩ | hkept
          · simp [hc] at h
          · rw [hkept, symbols_binary, List.mem_append] at h
            exact h.imp (child a (by simp [children])) (child b (by simp [children]))
      | eq a b =>
          have hab := symbols_simplifyEq h
          rw [symbols_equality, List.mem_append] at hab ⊢
          exact hab.imp (child a (by simp [children])) (child b (by simp [children]))
      | quantified q a b =>
          have hab := symbols_simplifyQuantified h
          rw [symbols_quantified, List.mem_append] at hab ⊢
          exact hab.imp (child a (by simp [children])) (child b (by simp [children]))
      | ite c a b =>
          have hcab := symbols_simplifyIte h
          rw [symbols_ite, List.mem_append, List.mem_append] at hcab ⊢
          exact hcab.imp (child c (by simp [children]))
            (Or.imp (child a (by simp [children])) (child b (by simp [children])))
      | not a =>
          obtain ⟨c, hc, hu⟩ := collects_symbols.exists_of_withChildren (t := .not a) (f := simplify) rfl h
          exact collects_symbols.of_child rfl hc (child c hc hu)
      | and xs =>
          rw [simplify, simplifyAll_eq_map] at h
          obtain ⟨c, hc, hu⟩ := collects_symbols.exists_of_withChildren (t := .and xs) rfl h
          exact collects_symbols.of_child rfl hc (child c hc hu)
      | or xs =>
          rw [simplify, simplifyAll_eq_map] at h
          obtain ⟨c, hc, hu⟩ := collects_symbols.exists_of_withChildren (t := .or xs) rfl h
          exact collects_symbols.of_child rfl hc (child c hc hu)

theorem isRegister_simplify {l : Term} (h : l.isRegister = true) : l.simplify = l := by
  obtain ⟨n, o, k, rfl⟩ := exists_of_isRegister h
  rfl

theorem isLvalue_simplify {l : Term} (h : l.isLvalue = true) : l.simplify.isLvalue = true := by
  rcases isLvalue_cases h with hreg | ⟨a, rfl⟩
  · rw [isRegister_simplify hreg]
    exact h
  · rfl

theorem Plain.simplify {t : Term} (h : t.Plain) : t.simplify.Plain :=
  h.of_symbols fun _ => symbols_simplify

theorem IsLocation.simplify {l : Term} (h : l.IsLocation) : l.simplify.IsLocation :=
  ⟨isLvalue_simplify h.1, h.2.simplify⟩

section
variable (atom : Term → Prop)

theorem truth_simplifyIte (c a b : Term) : truth atom (simplifyIte c a b) ↔ truth atom (.ite c a b) := by
  rw [truth_ite, ← truth_asFormula atom c]
  unfold simplifyIte
  split
  next h => simp [h]
  next h => simp [h]
  next =>
    split
    next h =>
      rw [equals_eq_decide, decide_eq_true_eq] at h
      rw [h, ← or_and_right]
      exact ⟨fun hb => ⟨Classical.em _, hb⟩, And.right⟩
    next => rw [truth_ite, truth_asFormula]

theorem truth_simplify_of_children {t : Term} (ht : t.isAtom = false)
    (h : ∀ c ∈ t.children, (truth atom c.simplify ↔ truth atom c)) : truth atom t.simplify ↔ truth atom t := by
  cases t with
  | not a => exact truth_withChildren (f := simplify) ht h
  | and xs =>
      rw [simplify, simplifyAll_eq_map]
      exact truth_withChildren ht h
  | or xs =>
      rw [simplify, simplifyAll_eq_map]
      exact truth_withChildren ht h
  | ite c a b =>
      rw [simplify, truth_simplifyIte, truth_ite, truth_ite, h c (by simp [children]), h a (by simp [children]),
        h b (by simp [children])]
  | const _ | bool _ => exact Iff.rfl
  | _ => simp [isAtom] at ht

theorem truth_simplify {t : Term} (h : ∀ u ∈ t.formulaAtoms, (truth atom u.simplify ↔ atom u)) :
    truth atom t.simplify ↔ truth atom t := by
  induction t using inductionOnChildren with
  | step t ih =>
      by_cases ht : t.isAtom = true
      · rw [truth_of_isAtom atom ht]
        exact h t (by simp [formulaAtoms_of_isAtom ht])
      · have ht : t.isAtom = false := by simpa using ht
        exact truth_simplify_of_children atom ht fun c hc =>
          ih c hc fun u hu => h u (collects_formulaAtoms.of_child ht hc hu)

end

section
variable (z : ZeroDivision)

/-- A term holds in a valuation if it is true by what holds of its atoms. -/
theorem truth_holds (v : Valuation) (t : Term) : truth (holds z v) t ↔ t.holds z v := by
  induction t using inductionOnChildren with
  | step t ih =>
      by_cases ht : t.isAtom = true
      · exact truth_of_isAtom _ ht
      · cases t with
        | const _ => exact Iff.rfl
        | bool b => cases b <;> simp [holds, value, wordOfBool]
        | not a =>
            rw [truth_not, ih a (by simp [children])]
            simp [holds, value]
        | and xs =>
            have hxs : ∀ x ∈ xs, (truth (holds z v) x ↔ x.value z v ≠ 0) := fun x hx => ih x hx
            rw [truth_and, holds, value, values_eq_map, Ne, wordOf_eq_zero, not_not, List.forall_mem_map]
            exact forall_congr' fun x => imp_congr_right fun hx => hxs x hx
        | or xs =>
            have hxs : ∀ x ∈ xs, (truth (holds z v) x ↔ x.value z v ≠ 0) := fun x hx => ih x hx
            rw [truth_or, holds, value, values_eq_map, Ne, wordOf_eq_zero, not_not]
            simp only [List.mem_map, exists_exists_and_eq_and]
            exact exists_congr fun x => and_congr_right fun hx => hxs x hx
        | ite c a b =>
            rw [truth_ite, ih c (by simp [children]), ih a (by simp [children]), ih b (by simp [children])]
            simp only [holds, value]
            split <;> simp_all
        | _ => simp [isAtom] at ht

theorem holds_congr_value {v : Valuation} {t u : Term} (h : t.value z v = u.value z v) :
    t.holds z v ↔ u.holds z v := by
  rw [holds, holds, h]

theorem holds_asFormula (v : Valuation) (t : Term) : t.asFormula.holds z v ↔ t.holds z v := by
  rw [← truth_holds z v, ← truth_holds z v, truth_asFormula]

theorem holds_quantified_iff (v : Valuation) (q : Quantifier) (a b : Term) :
    (quantified q a b).holds z v ↔ q.over fun w => b.holds z (v.bind a w) := by
  simp [holds, value]

/-- Simplification keeps the truth of a well-sorted formula. -/
theorem holds_simplify {t : Term} (h : t.IsFormula) : ∀ v, t.simplify.holds z v ↔ t.holds z v := by
  induction t using inductionOnChildren with
  | step t ih =>
      intro v
      by_cases ht : t.isAtom = false
      · rw [← truth_holds, ← truth_holds z v t]
        refine truth_simplify_of_children _ ht fun c hc => ?_
        rw [truth_holds, truth_holds]
        exact ih c hc (h.child ht hc) v
      · cases t with
        | eq a b =>
            obtain ⟨ha, hb⟩ := (isFormula_eq_iff a b).1 h
            refine holds_congr_value z ?_
            rw [simplify, value_simplifyEq z v (isWord_simplify ha)]
            simp only [value, value_simplify z v ha, value_simplify z v hb]
        | quantified q a b =>
            obtain ⟨ha, hb⟩ := (isFormula_quantified_iff q a b).1 h
            have hvar : a.simplify = a := by
              cases a <;> first | rfl | simp [isVariable] at ha
            have hbody : ∀ w, (b.simplify.asFormula.holds z (v.bind a w) ↔ b.holds z (v.bind a w)) := fun w =>
              (holds_asFormula z _ _).trans (ih b (by simp [children]) hb _)
            rw [simplify, hvar, holds_quantified_iff, ← Quantifier.over_congr hbody]
            unfold simplifyQuantified
            split
            next c hc =>
              rw [hc]
              exact Quantifier.over_const.symm
            next => exact holds_quantified_iff z v q a _
        | var _ | reg _ _ _ | mem _ | unary _ _ | binary _ _ _ =>
            exact holds_congr_value z (value_simplify z v (h.isWord rfl))
        | _ => simp [isAtom] at ht

end

/-- Simplification keeps what a well-sorted term means, in every valuation and whatever divisions by zero yield: an
expression keeps its word, and what is read as a formula keeps its truth. -/
theorem simplify_keeps_meaning {t : Term} (h : t.IsFormula) (z : ZeroDivision) (v : Valuation) :
    (t.isExpression = true → t.simplifyShared.value z v = t.value z v) ∧
      (t.simplifyShared.holds z v ↔ t.holds z v) := by
  rw [simplifyShared_eq_simplify]
  exact ⟨fun hword => value_simplify z v (h.isWord hword), holds_simplify z h v⟩

/-- The condition is decided, and what is compared in its branch is not: it divides by zero. -/
def partlyDecided : Term :=
  .quantified .existential (.var "x")
    (.ite (.eq (.binary .add (.const 2) (.const 3)) (.const 5))
      (.binary .ltU (.var "x") (.binary .udiv (.const 16) (.const 0)))
      (.not (.reg "r1" 0 0)))

theorem simplify_keeps_meaning_partlyDecided :
    partlyDecided.IsFormula ∧
      partlyDecided.simplifyShared =
        .quantified .existential (.var "x") (.binary .ltU (.var "x") (.binary .udiv (.const 16) (.const 0))) ∧
      ∀ z v, (partlyDecided.isExpression = true → partlyDecided.simplifyShared.value z v = partlyDecided.value z v) ∧
        (partlyDecided.simplifyShared.holds z v ↔ partlyDecided.holds z v) := by
  have hformula : partlyDecided.IsFormula := by
    simp [partlyDecided, IsFormula, foldUp, isVariable]
  refine ⟨hformula, ?_, simplify_keeps_meaning hformula⟩
  rw [simplifyShared_eq_simplify]
  rfl

end Backslice.Term
