import Backslice.Proofs.SetMeaning
import Backslice.Proofs.Sums
import Mathlib.Data.List.Basic

/-!
# Sets of elements under conditions

Before they are flattened, explicit sets have become formulas over membership
atoms, disjunctions and conditionals on equalities. Such a formula keeps its
elements in the disjunctive normal form, because every clause of the form holds
the membership atom it comes from. Flattening it leaves the set of these
elements.
-/

namespace Backslice

open Term ConditionalSet

namespace ConditionalSet

/-- Sets of locations under equalities of plain terms. -/
inductive IsElementTree : Term → Prop
  | none : IsElementTree (.bool false)
  | member {l : Term} (hl : l.IsLocation) : IsElementTree (member l)
  | any {xs : List Term} (hsummand : ∀ x ∈ xs, x.isSummand = true) (h : ∀ x ∈ xs, IsElementTree x) :
      IsElementTree (.or xs)
  | choice {p q a b : Term} (hp : p.Plain) (hq : q.Plain) (ha : IsElementTree a) (hb : IsElementTree b) :
      IsElementTree (.ite (.eq p q) a b)

theorem IsElementTree.isSum {t : Term} (h : IsElementTree t) : IsSum IsElementTree t := by
  cases h with
  | none => exact isSum_false
  | member hl => exact isSum_of_isSummand rfl (.member hl)
  | any hsummand h => exact isSum_or fun x hx => ⟨hsummand x hx, h x hx⟩
  | choice hp hq ha hb => exact isSum_of_isSummand rfl (.choice hp hq ha hb)

theorem isElementTree_of_isSum {t : Term} (h : IsSum IsElementTree t) : IsElementTree t := by
  rcases h.cases with rfl | ⟨-, ht⟩ | ⟨xs, rfl, hxs⟩
  · exact .none
  · exact ht
  · exact .any (fun x hx => (hxs x hx).1) fun x hx => (hxs x hx).2

theorem isElementTree_disj {ts : List Term} (h : ∀ t ∈ ts, IsElementTree t) : IsElementTree (disj ts) :=
  isElementTree_of_isSum (isSum_disj fun t ht => (h t ht).isSum)

theorem isElementTree_ofList {es : List Term} (h : ∀ e ∈ es, e.IsLocation) : IsElementTree (ofList es) := by
  refine List.foldlRecOn (motive := IsElementTree) _ _ .none fun s hs e he => isElementTree_disj ?_
  exact List.forall_mem_cons.2 ⟨hs, List.forall_mem_singleton.2 (.member (h e he))⟩

theorem atoms_member (l : Term) : atoms (member l) = [l] := by
  simp [member, atoms, memberValue?]

theorem atoms_eq_of_plain {p q : Term} (hp : p.Plain) (hq : q.Plain) : atoms (.eq p q) = [] := by
  simp [atoms, memberValue?, hp.ne_marker, hq.ne_marker]

theorem mem_atoms_or {xs : List Term} {l : Term} : l ∈ atoms (.or xs) ↔ ∃ x ∈ xs, l ∈ atoms x := by
  rw [atoms, atomsAll_eq_flatMap, List.mem_flatMap]

theorem mem_possibleValues {s : ConditionalSet} {l : Term} : l ∈ s.possibleValues ↔ l ∈ atoms s := by
  rw [possibleValues, distinct_eq_eraseDups, List.mem_eraseDups]

theorem mem_atoms_of_isSum {p : Term → Prop} {s l : Term} (h : IsSum p s) :
    l ∈ atoms s ↔ ∃ y ∈ s.disjuncts, l ∈ atoms y := by
  rcases h.cases with rfl | ⟨hs, -⟩ | ⟨xs, rfl, -⟩
  · simp [atoms, disjuncts, asFormula]
  · simp [disjuncts_of_isSummand hs]
  · exact mem_atoms_or

theorem mem_atoms_disj {p : Term → Prop} {ts : List Term} (h : ∀ t ∈ ts, IsSum p t) {l : Term} :
    l ∈ atoms (disj ts) ↔ ∃ t ∈ ts, l ∈ atoms t := by
  rw [mem_atoms_of_isSum (isSum_disj h)]
  simp only [mem_disjuncts_disj h]
  constructor
  · rintro ⟨y, ⟨t, ht, hy⟩, hl⟩
    exact ⟨t, ht, (mem_atoms_of_isSum (h t ht)).2 ⟨y, hy, hl⟩⟩
  · rintro ⟨t, ht, hl⟩
    obtain ⟨y, hy, hl⟩ := (mem_atoms_of_isSum (h t ht)).1 hl
    exact ⟨y, ⟨t, ht, hy⟩, hl⟩

theorem IsElementTree.isLocation {t l : Term} (h : IsElementTree t) (hl : l ∈ atoms t) : l.IsLocation := by
  induction h with
  | none => simp [atoms] at hl
  | member hm =>
      rw [atoms_member, List.mem_singleton] at hl
      exact hl ▸ hm
  | any hsummand h ih =>
      obtain ⟨x, hx, hl⟩ := mem_atoms_or.1 hl
      exact ih x hx hl
  | choice hp hq ha hb iha ihb =>
      rw [atoms, List.mem_append] at hl
      exact hl.elim iha ihb

/-- Simplification decides conditions and merges branches, and leaves a set of elements. -/
theorem IsElementTree.simplify {t : Term} (h : IsElementTree t) : IsElementTree t.simplify := by
  induction h with
  | none => exact .none
  | member hl =>
      rw [simplify_member hl.1]
      exact .member hl.simplify
  | any hsummand h ih =>
      rw [Term.simplify, simplifyAll_eq_map]
      exact isElementTree_disj (List.forall_mem_map.2 ih)
  | @choice p q a b hp hq ha hb iha ihb =>
      rw [Term.simplify, Term.simplify]
      rcases simplifyIte_cases (simplifyEq p.simplify q.simplify) a.simplify b.simplify with ha | hb | hkept
      · exact ha.symm ▸ iha
      · exact hb.symm ▸ ihb
      · rcases simplifyEq_cases p.simplify q.simplify with ⟨c, hc⟩ | hc
        · cases c <;> simpa [simplifyIte, hc, asFormula]
        · rw [hkept, hc]
          exact .choice hp.simplify hq.simplify iha ihb

/-- The literals in the clauses of a set of elements: members, conditions and their negations. -/
inductive IsElementLiteral : Term → Prop
  | member {l : Term} : IsElementLiteral (member l)
  | condition {p q : Term} (hp : p.Plain) (hq : q.Plain) : IsElementLiteral (.eq p q)
  | negated {p q : Term} (hp : p.Plain) (hq : q.Plain) : IsElementLiteral (.not (.eq p q))

/-- Whether a clause consists of such literals, one at least a member. -/
def IsElementClause (c : Clause) : Prop :=
  (∀ t ∈ c, IsElementLiteral t) ∧ ∃ l, member l ∈ c

theorem mem_atoms_literal {t l : Term} (h : IsElementLiteral t) : l ∈ atoms t ↔ t = member l := by
  cases h with
  | @member m =>
      rw [atoms_member, List.mem_singleton]
      constructor
      · rintro rfl
        rfl
      · intro h
        exact (Term.eq.inj h).2.symm
  | @condition p q hp hq =>
      rw [atoms_eq_of_plain hp hq]
      simp only [List.not_mem_nil, false_iff]
      exact fun h => hp.ne_marker (Term.eq.inj h).1
  | negated hp hq => simp [atoms, member]

theorem conjuncts_literal {t : Term} (h : IsElementLiteral t) : t.conjuncts = [t] := by
  cases h <;> rfl

/-- The conjunction of a clause is an operand of the normal form, and has the members of the clause. -/
theorem conj_elementClause {c : Clause} (hc : IsElementClause c) :
    (conj c).isSummand = true ∧ ∀ l, l ∈ atoms (conj c) ↔ member l ∈ c := by
  have hflat : c.flatMap conjuncts = c := by
    rw [List.flatMap_congr fun t ht => conjuncts_literal (hc.1 t ht)]
    simp
  have hmem : ∀ t, t ∈ c.eraseDups ↔ t ∈ c := fun t => List.mem_eraseDups
  obtain ⟨m, hm⟩ := hc.2
  rw [conj_eq, hflat]
  unfold joined
  split
  next h =>
    have := (hmem _).2 hm
    rw [h] at this
    exact absurd this List.not_mem_nil
  next t h =>
    have ht : IsElementLiteral t := hc.1 t ((hmem t).1 (by rw [h]; simp))
    refine ⟨by cases ht <;> rfl, fun l => ?_⟩
    rw [mem_atoms_literal ht, ← hmem, h, List.mem_singleton, eq_comm]
  next h =>
    have hfalse : Term.bool (!true) ∉ c.eraseDups := fun h => by
      cases hc.1 _ ((hmem _).1 h)
    rw [if_neg hfalse]
    refine ⟨rfl, fun l => ?_⟩
    rw [atoms, atomsAll_eq_flatMap, List.mem_flatMap, ← hmem]
    constructor
    · rintro ⟨t, ht, hl⟩
      rwa [← (mem_atoms_literal (hc.1 t ((hmem t).1 ht))).1 hl]
    · intro hl
      exact ⟨_, hl, by rw [atoms_member]; simp⟩

theorem isElementClause_cons {e : Term} {d : Clause} (he : IsElementLiteral e) (hd : IsElementClause d) :
    IsElementClause (e :: d).eraseDups := by
  refine ⟨fun t ht => ?_, hd.2.imp fun l hl => by simp [hl]⟩
  rcases List.mem_cons.1 (List.mem_eraseDups.1 ht) with rfl | ht
  · exact he
  · exact hd.1 t ht

theorem member_mem_cons {e : Term} {d : Clause} {l : Term} (he : member l ≠ e) :
    member l ∈ (e :: d).eraseDups ↔ member l ∈ d := by
  simp [he]

theorem clauses_elementTree {t : Term} (h : IsElementTree t) :
    (∀ c ∈ t.clauses false, IsElementClause c) ∧ ∀ l, (∃ c ∈ t.clauses false, member l ∈ c) ↔ l ∈ atoms t := by
  induction h with
  | none => simp [clauses, Clause.ofBool, atoms]
  | @member m hm =>
      have hclauses : (member m).clauses false = [[member m]] := rfl
      rw [hclauses]
      refine ⟨fun c hc => ?_, fun l => ?_⟩
      · rw [List.mem_singleton.1 hc]
        exact ⟨fun t ht => List.mem_singleton.1 ht ▸ .member, m, by simp⟩
      · rw [mem_atoms_literal .member]
        simp [eq_comm]
  | @any xs hsummand h ih =>
      have hclauses : ∀ c, c ∈ (Term.or xs).clauses false ↔ ∃ x ∈ xs, c ∈ x.clauses false := fun c => by
        simp [clauses, clausesAll_eq_map, Clause.mem_sum]
      simp only [hclauses, mem_atoms_or]
      refine ⟨?_, fun l => ⟨?_, ?_⟩⟩
      · rintro c ⟨x, hx, hc⟩
        exact (ih x hx).1 c hc
      · rintro ⟨c, ⟨x, hx, hc⟩, hl⟩
        exact ⟨x, hx, ((ih x hx).2 l).1 ⟨c, hc, hl⟩⟩
      · rintro ⟨x, hx, hl⟩
        obtain ⟨c, hc, hl⟩ := ((ih x hx).2 l).2 hl
        exact ⟨c, ⟨x, hx, hc⟩, hl⟩
  | @choice p q a b hp hq ha hb iha ihb =>
      have hclauses : ∀ c, c ∈ (Term.ite (.eq p q) a b).clauses false ↔
          (∃ d ∈ a.clauses false, c = (Term.eq p q :: d).eraseDups) ∨
            ∃ d ∈ b.clauses false, c = (Term.not (.eq p q) :: d).eraseDups := fun c => by
        rw [clauses, Clause.mem_sum, ← Clause.mem_product_literal, ← Clause.mem_product_literal]
        simp [clauses, negate, asFormula]
      -- Neither literal of the condition is a membership atom, so the elements of the clauses stay the same.
      have hcondition : ∀ l, member l ≠ .eq p q := fun l h => hp.ne_marker (Term.eq.inj h).1.symm
      have hnegated : ∀ l, member l ≠ .not (.eq p q) := fun l h => by simp [member] at h
      refine ⟨fun c hc => ?_, fun l => ?_⟩
      · rcases (hclauses c).1 hc with ⟨d, hd, rfl⟩ | ⟨d, hd, rfl⟩
        · exact isElementClause_cons (.condition hp hq) (iha.1 d hd)
        · exact isElementClause_cons (.negated hp hq) (ihb.1 d hd)
      · rw [atoms, List.mem_append, ← iha.2, ← ihb.2]
        simp only [hclauses]
        constructor
        · rintro ⟨c, ⟨d, hd, rfl⟩ | ⟨d, hd, rfl⟩, hl⟩
          · exact Or.inl ⟨d, hd, (member_mem_cons (hcondition l)).1 hl⟩
          · exact Or.inr ⟨d, hd, (member_mem_cons (hnegated l)).1 hl⟩
        · rintro (⟨d, hd, hl⟩ | ⟨d, hd, hl⟩)
          · exact ⟨_, Or.inl ⟨d, hd, rfl⟩, (member_mem_cons (hcondition l)).2 hl⟩
          · exact ⟨_, Or.inr ⟨d, hd, rfl⟩, (member_mem_cons (hnegated l)).2 hl⟩

theorem mem_atoms_disjunctiveForm {t l : Term} (h : IsElementTree t) : l ∈ atoms t.disjunctiveForm ↔ l ∈ atoms t := by
  obtain ⟨hclauses, hatoms⟩ := clauses_elementTree h
  have hsum : ∀ u ∈ (t.clauses false).map conj, IsSum (fun _ => True) u :=
    List.forall_mem_map.2 fun c hc => isSum_of_isSummand (conj_elementClause (hclauses c hc)).1 trivial
  rw [disjunctiveForm, share_eq, mem_atoms_disj hsum, ← hatoms]
  simp only [List.mem_map, exists_exists_and_eq_and]
  exact exists_congr fun c => and_congr_right fun hc => (conj_elementClause (hclauses c hc)).2 l

/-- The membership atoms of locations. -/
def IsMember (t : Term) : Prop :=
  ∃ l : Term, l.IsLocation ∧ t = member l

/-- Whether a set is a disjunction of membership atoms of locations. -/
def IsExplicit (s : ConditionalSet) : Prop :=
  IsSum IsMember s

theorem IsMember.isElementTree {t : Term} (h : IsMember t) : IsElementTree t := by
  obtain ⟨l, hl, rfl⟩ := h
  exact .member hl

theorem IsExplicit.isElementTree {s : ConditionalSet} (h : s.IsExplicit) : IsElementTree s :=
  isElementTree_of_isSum (IsSum.imp h fun _ => IsMember.isElementTree)

theorem isSum_member {l : Term} (hl : l.IsLocation) : IsSum IsMember (member l) :=
  isSum_of_isSummand rfl ⟨l, hl, rfl⟩

theorem IsExplicit.union {s t : ConditionalSet} (hs : s.IsExplicit) (ht : t.IsExplicit) : (s.union t).IsExplicit :=
  isSum_disj fun u hu => by
    rcases List.mem_cons.1 hu with rfl | hu
    · exact hs
    · rw [List.mem_singleton.1 hu]
      exact ht

theorem IsExplicit.mem_union {s t : ConditionalSet} (hs : s.IsExplicit) (ht : t.IsExplicit) {l : Term} :
    l ∈ (s.union t).possibleValues ↔ l ∈ s.possibleValues ∨ l ∈ t.possibleValues := by
  have hsum : ∀ u ∈ [s, t], IsSum IsMember u := fun u hu => by
    rcases List.mem_cons.1 hu with rfl | hu
    · exact hs
    · rw [List.mem_singleton.1 hu]
      exact ht
  rw [mem_possibleValues, ConditionalSet.union, mem_atoms_disj hsum, mem_possibleValues, mem_possibleValues]
  simp

/-- The operands of an explicit set are the membership atoms of its elements. -/
theorem IsExplicit.mem_disjuncts {s : ConditionalSet} (hs : s.IsExplicit) {y : Term} :
    y ∈ s.disjuncts ↔ ∃ l ∈ s.possibleValues, y = ConditionalSet.member l := by
  simp only [mem_possibleValues, mem_atoms_of_isSum hs]
  constructor
  · intro hy
    obtain ⟨-, l, -, rfl⟩ := hs.2 y hy
    exact ⟨l, ⟨_, hy, by simp [atoms_member]⟩, rfl⟩
  · rintro ⟨l, ⟨w, hw, hl⟩, rfl⟩
    obtain ⟨-, m, -, rfl⟩ := hs.2 w hw
    rw [atoms_member, List.mem_singleton] at hl
    rwa [hl]

theorem IsExplicit.isLocation {s : ConditionalSet} (hs : s.IsExplicit) {l : Term} (hl : l ∈ s.possibleValues) :
    l.IsLocation :=
  hs.isElementTree.isLocation (mem_possibleValues.1 hl)

/-- Flattening leaves the explicit set of the elements. -/
theorem isExplicit_flatten {t : Term} (h : ∀ l ∈ possibleValues t, l.IsLocation) :
    (flatten t).IsExplicit ∧ ∀ l, l ∈ (flatten t).possibleValues ↔ l ∈ possibleValues t := by
  have hsum : ∀ u ∈ (possibleValues t).map member, IsSum IsMember u :=
    List.forall_mem_map.2 fun l hl => isSum_member (h l hl)
  refine ⟨isSum_disj hsum, fun l => ?_⟩
  rw [mem_possibleValues, flatten, mem_atoms_disj hsum]
  simp [atoms_member]

end ConditionalSet
end Backslice
