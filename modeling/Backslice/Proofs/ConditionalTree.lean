import Backslice.Proofs.Closure
import Backslice.Proofs.FlatSet

/-!
# Sets under conditions

Where sets are not flattened, they become formulas in which the elements stand
under guards and under the conditions of case splits, in any nesting. Conditions
have no name of the analysis in them, and no negation encloses an element. In a
conjunction there is always an operand that holds elements, so that neither a
conjunction nor a clause of the disjunctive normal form is ever a condition
alone.

The elements of such a formula are the ones it was put together from, or fewer:
simplification, the normal form and flattening bring in none.
-/

namespace Backslice

open Term ConditionalSet

namespace Term

theorem isInherited_plain : IsInherited Plain :=
  isInherited_forall_subterms fun t ht => by cases t <;> first | rfl | cases ht

/-- Terms that conjunctions and disjunctions keep as operands. -/
def isOperand : Term → Bool
  | .const _ | .bool _ | .and _ | .or _ => false
  | _ => true

theorem isSummand_of_isOperand {t : Term} (h : t.isOperand = true) : t.isSummand = true := by
  cases t <;> first | rfl | exact absurd h Bool.false_ne_true

theorem conjuncts_of_isOperand {t : Term} (h : t.isOperand = true) : t.conjuncts = [t] := by
  cases t <;> first | rfl | exact absurd h Bool.false_ne_true

theorem conj_singleton {t : Term} (h : t.isOperand = true) : conj [t] = t := by
  rw [conj_eq, List.flatMap_singleton, conjuncts_of_isOperand h]
  rfl

theorem Plain.of_mem_conjuncts {t y : Term} (ht : t.Plain) (hy : y ∈ t.conjuncts) : y.Plain :=
  (plain_iff_symbols y).2 fun u hu => (plain_iff_symbols t).1 ht u (collects_symbols.of_mem_conjuncts hy hu)

/-- A conjunction of two different operands at least, none of them false or there twice, is left as it is when it is
built once more. -/
theorem conj_and {ts : List Term} (hdistinct : ts.eraseDups = ts) (hnone : ts ≠ []) (hone : ∀ t, ts ≠ [t])
    (hfalse : .bool false ∉ ts) : conj [.and ts] = .and ts := by
  rw [conj_eq, List.flatMap_singleton]
  change joined true .and ts.eraseDups = _
  rw [hdistinct, joined]
  · exact if_neg hfalse
  · exact hnone
  · exact hone

/-- A conjunction of something is the only operand it has, false, or a conjunction that is left as it is when it is
built once more. -/
theorem conj_cases {ts : List Term} {y : Term} (hy : y ∈ ts.flatMap conjuncts) :
    (∃ x, (∀ z ∈ ts.flatMap conjuncts, z = x) ∧ conj ts = x) ∨ conj ts = .bool false ∨
      ((conj ts).isSummand = true ∧ conj [conj ts] = conj ts) := by
  have hmem : ∀ z ∈ ts.flatMap conjuncts, z ∈ (ts.flatMap conjuncts).eraseDups := fun z hz => List.mem_eraseDups.2 hz
  have hsame := List.eraseDups_eraseDups (ts.flatMap conjuncts)
  rw [conj_eq ts]
  generalize (ts.flatMap conjuncts).eraseDups = ds at hmem hsame ⊢
  unfold joined
  split
  next => exact absurd (hmem y hy) List.not_mem_nil
  next x => exact Or.inl ⟨x, fun z hz => List.mem_singleton.1 (hmem z hz), rfl⟩
  next hnone hone =>
    split
    next => exact Or.inr (Or.inl rfl)
    next hfalse => exact Or.inr (Or.inr ⟨rfl, conj_and hsame hnone hone hfalse⟩)

/-- A conjunction with an operand that is kept is false or a summand, and is left as it is when it is built once
more. -/
theorem conj_conj {ts : List Term} {t : Term} (ht : t ∈ ts) (hoperand : t.isOperand = true) :
    (conj ts = .bool false ∨ (conj ts).isSummand = true) ∧ conj [conj ts] = conj ts := by
  have hmem : t ∈ ts.flatMap conjuncts :=
    List.mem_flatMap.2 ⟨t, ht, by rw [conjuncts_of_isOperand hoperand, List.mem_singleton]⟩
  rcases conj_cases hmem with ⟨x, hall, hx⟩ | hfalse | ⟨hsummand, hbuilt⟩
  · rw [hx, ← hall t hmem]
    exact ⟨Or.inr (isSummand_of_isOperand hoperand), conj_singleton hoperand⟩
  · rw [hfalse]
    exact ⟨Or.inl rfl, rfl⟩
  · exact ⟨Or.inr hsummand, hbuilt⟩

end Term

namespace ConditionalSet

/-- Formulas over parts with a property, under conditions without names of the analysis. -/
inductive IsTree (part : Term → Prop) : Term → Prop
  | none : IsTree part (.bool false)
  | part {t : Term} (hoperand : t.isOperand = true) (h : part t) : IsTree part t
  | any {xs : List Term} (hsummand : ∀ x ∈ xs, x.isSummand = true) (h : ∀ x ∈ xs, IsTree part x) :
      IsTree part (.or xs)
  | under {xs : List Term} {x : Term} (hx : x ∈ xs) (hself : IsTree part x)
      (h : ∀ y ∈ xs, ¬y.Plain → IsTree part y) : IsTree part (.and xs)
  | choice {c a b : Term} (hc : c.Plain) (ha : IsTree part a) (hb : IsTree part b) : IsTree part (.ite c a b)

section
variable {p q : Term → Prop} {t : Term}

theorem IsTree.isSum (h : IsTree p t) : IsSum (IsTree p) t := by
  cases h with
  | none => exact isSum_false
  | part hoperand h => exact isSum_of_isSummand (isSummand_of_isOperand hoperand) (.part hoperand h)
  | any hsummand h => exact isSum_or fun x hx => ⟨hsummand x hx, h x hx⟩
  | under hx hself h => exact isSum_of_isSummand rfl (.under hx hself h)
  | choice hc ha hb => exact isSum_of_isSummand rfl (.choice hc ha hb)

theorem isTree_of_isSum (h : IsSum (IsTree p) t) : IsTree p t := by
  rcases h.cases with rfl | ⟨-, ht⟩ | ⟨xs, rfl, hxs⟩
  · exact .none
  · exact ht
  · exact .any (fun x hx => (hxs x hx).1) fun x hx => (hxs x hx).2

theorem isTree_disj {ts : List Term} (h : ∀ t ∈ ts, IsTree p t) : IsTree p (disj ts) :=
  isTree_of_isSum (isSum_disj fun t ht => (h t ht).isSum)

theorem IsTree.conjuncts (h : IsTree p t) :
    (∃ y ∈ t.conjuncts, IsTree p y) ∧ ∀ y ∈ t.conjuncts, ¬y.Plain → IsTree p y := by
  have hone : t.conjuncts = [t] →
      (∃ y ∈ t.conjuncts, IsTree p y) ∧ ∀ y ∈ t.conjuncts, ¬y.Plain → IsTree p y := fun hsame => by
    rw [hsame]
    exact ⟨⟨t, List.mem_singleton_self t, h⟩, fun y hy _ => List.mem_singleton.1 hy ▸ h⟩
  cases h with
  | part hoperand h => exact hone (conjuncts_of_isOperand hoperand)
  | under hx hself h => exact ⟨⟨_, hx, hself⟩, h⟩
  | none | any _ _ | choice _ _ _ => exact hone rfl

theorem isTree_conj {ts : List Term} (ht : t ∈ ts) (hself : IsTree p t) (h : ∀ u ∈ ts, ¬u.Plain → IsTree p u) :
    IsTree p (conj ts) := by
  have hall : ∀ y ∈ (ts.flatMap Term.conjuncts).eraseDups, ¬y.Plain → IsTree p y := fun y hy hnot => by
    obtain ⟨u, hu, hy⟩ := List.mem_flatMap.1 (List.mem_eraseDups.1 hy)
    exact (h u hu fun hplain => hnot (hplain.of_mem_conjuncts hy)).conjuncts.2 y hy hnot
  obtain ⟨y, hy, htree⟩ := hself.conjuncts.1
  have hmem : y ∈ (ts.flatMap Term.conjuncts).eraseDups :=
    List.mem_eraseDups.2 (List.mem_flatMap.2 ⟨t, ht, hy⟩)
  rw [conj_eq]
  unfold joined
  split
  next hnil =>
    rw [hnil] at hmem
    exact absurd hmem List.not_mem_nil
  next x hx =>
    rw [hx] at hmem
    exact List.mem_singleton.1 hmem ▸ htree
  next =>
    split
    next => exact .none
    next => exact .under hmem htree hall

theorem IsTree.bind (h : IsTree p t) (hpart : ∀ w : Term, w.isOperand = true → p w → IsTree q w) : IsTree q t := by
  induction h with
  | none => exact .none
  | part hoperand h => exact hpart _ hoperand h
  | any hsummand _ ih => exact .any hsummand ih
  | under hx _ _ ihx ih => exact .under hx ihx ih
  | choice hc _ _ iha ihb => exact .choice hc iha ihb

theorem IsTree.imp (h : IsTree p t) (hpart : ∀ w : Term, p w → q w) : IsTree q t :=
  h.bind fun w hoperand hw => .part hoperand (hpart w hw)

/-- A pass that puts connectives together from the images of their operands acts on the parts. -/
theorem IsTree.map {f : Term → Term} (h : IsTree p t) (hplain : ∀ w : Term, w.Plain → (f w).Plain)
    (hpart : ∀ w : Term, w.isOperand = true → p w → IsTree q (f w))
    (hrebuild : ∀ w : Term, w.isAtom = false → ∃ u, IsRebuilt f w u ∧ (IsTree q u → f w = u)) : IsTree q (f t) := by
  have hof : ∀ w : Term, w.isAtom = false → (∀ u, IsRebuilt f w u → IsTree q u) → IsTree q (f w) := by
    intro w hw htree
    obtain ⟨u, hu, hsame⟩ := hrebuild w hw
    rw [hsame (htree u hu)]
    exact htree u hu
  induction h with
  | none => exact hof _ rfl fun u hu => by rcases hu with rfl | ⟨rfl, -⟩ <;> exact .none
  | part hoperand h => exact hpart _ hoperand h
  | any hsummand h ih =>
      refine hof _ rfl fun u hu => ?_
      rcases hu with rfl | ⟨rfl, hsame⟩
      · exact isTree_disj (List.forall_mem_map.2 ih)
      · exact .any hsummand fun x hx => hsame x hx ▸ ih x hx
  | under hx hself h ihx ih =>
      refine hof _ rfl fun u hu => ?_
      rcases hu with rfl | ⟨rfl, hsame⟩
      · refine isTree_conj (List.mem_map_of_mem hx) ihx (List.forall_mem_map.2 fun y hy hnot => ?_)
        exact ih y hy fun hy' => hnot (hplain y hy')
      · exact .under hx (hsame _ hx ▸ ihx) fun y hy hnot => hsame y hy ▸ ih y hy hnot
  | @choice c a b hc ha hb iha ihb =>
      refine hof _ rfl fun u hu => ?_
      rcases hu with rfl | ⟨rfl, hsame⟩
      · exact .choice (hplain c hc) iha ihb
      · rw [hsame a (by simp [children])] at iha
        rw [hsame b (by simp [children])] at ihb
        exact .choice hc iha ihb

/-- A rule that matches atoms only acts on the parts, if it matches none of the images once more. -/
theorem IsTree.apply {rule : Rule} (h : IsTree p t) (hatoms : rule.MatchesAtoms)
    (hplain : ∀ w : Term, w.Plain → (rule.apply w).Plain) (hstable : ∀ w : Term, q w → rule.applyHead w = w)
    (hpart : ∀ w : Term, p w → IsTree q (rule.apply w)) : IsTree q (rule.apply t) := by
  have hhead : ∀ w, IsTree q w → rule.applyHead w = w := fun w hw => by
    cases hw with
    | part _ hq => exact hstable _ hq
    | _ => exact Rule.applyHead_of_none (hatoms _ rfl)
  refine h.map hplain (fun w _ => hpart w) fun w _ => ⟨_, isRebuilt_updateChildren rule.apply w, fun htree => ?_⟩
  rw [Rule.apply_eq, hhead _ htree]

theorem IsTree.replace {old new : Term} (h : IsTree p t) (hold : old.isAtom = true)
    (hplain : ∀ w : Term, w.Plain → (w.replace old new).Plain) (hnot : ¬q old)
    (hpart : ∀ w : Term, p w → IsTree q (w.replace old new)) : IsTree q (t.replace old new) := by
  refine @IsTree.apply p q t ⟨old, [], new⟩ h (Rule.matchesAtoms_nil hold) hplain (fun w hw => ?_) hpart
  rw [Rule.applyHead_nil, if_neg]
  rintro rfl
  exact hnot hw

/-- Simplification decides conditions and merges branches, and brings in no parts. -/
theorem IsTree.simplify (h : IsTree p t) (hpart : ∀ w : Term, p w → IsTree q w.simplify) : IsTree q t.simplify := by
  induction h with
  | none => exact .none
  | part _ h => exact hpart _ h
  | any _ _ ih =>
      rw [Term.simplify, simplifyAll_eq_map]
      exact isTree_disj (List.forall_mem_map.2 ih)
  | under hx _ _ ihx ih =>
      rw [Term.simplify, simplifyAll_eq_map]
      refine isTree_conj (List.mem_map_of_mem hx) ihx (List.forall_mem_map.2 fun y hy hnot => ?_)
      exact ih y hy fun hy' => hnot hy'.simplify
  | choice hc _ _ iha ihb =>
      rw [Term.simplify]
      rcases simplifyIte_cases _ _ _ with hpositive | hnegative | hkept
      · exact hpositive.symm ▸ iha
      · exact hnegative.symm ▸ ihb
      · exact hkept ▸ .choice (isInherited_plain.asFormula hc.simplify) iha ihb

end

/-- The membership atoms of locations with a property. -/
def IsMemberOf (family : Term → Prop) (t : Term) : Prop :=
  ∃ l : Term, l.IsLocation ∧ family l ∧ t = member l

theorem IsMemberOf.isOperand {family : Term → Prop} {t : Term} (h : IsMemberOf family t) : t.isOperand = true := by
  obtain ⟨l, -, -, rfl⟩ := h
  rfl

theorem isTree_member {family : Term → Prop} {l : Term} (hl : l.IsLocation) (h : family l) :
    IsTree (IsMemberOf family) (member l) :=
  .part rfl ⟨l, hl, h, rfl⟩

theorem atoms_of_plain {t : Term} (ht : t.Plain) : atoms t = [] := by
  induction t using inductionOnChildren with
  | step t ih =>
      have hchild : ∀ c ∈ t.children, atoms c = [] := fun c hc => ih c hc (isInherited_plain.child ht hc)
      cases t with
      | eq a b =>
          obtain ⟨ha, hb⟩ := (plain_eq a b).1 ht
          exact atoms_eq_of_plain ha hb
      | and xs | or xs =>
          rw [atoms, atomsAll_eq_flatMap]
          exact List.flatMap_eq_nil_iff.2 hchild
      | quantified q a b => exact hchild b (by simp [children])
      | ite c a b => rw [atoms, hchild a (by simp [children]), hchild b (by simp [children]), List.append_nil]
      | _ => rfl

section
variable {family family' : Term → Prop} {t : Term}

/-- The elements of a formula are those of the membership atoms it was put together from. -/
theorem IsTree.of_mem_atoms (h : IsTree (IsMemberOf family) t) {l : Term} (hl : l ∈ atoms t) :
    l.IsLocation ∧ family l := by
  induction h with
  | none => simp [atoms] at hl
  | part _ h =>
      obtain ⟨m, hm, hfamily, rfl⟩ := h
      rw [atoms_member, List.mem_singleton] at hl
      exact hl ▸ ⟨hm, hfamily⟩
  | any _ _ ih =>
      obtain ⟨x, hx, hl⟩ := mem_atoms_or.1 hl
      exact ih x hx hl
  | under _ _ _ _ ih =>
      rw [atoms, atomsAll_eq_flatMap, List.mem_flatMap] at hl
      obtain ⟨y, hy, hl⟩ := hl
      refine ih y hy (fun hplain => ?_) hl
      rw [atoms_of_plain hplain] at hl
      exact List.not_mem_nil hl
  | choice _ _ _ iha ihb =>
      rw [atoms, List.mem_append] at hl
      exact hl.elim iha ihb

theorem IsTree.of_mem_possibleValues (h : IsTree (IsMemberOf family) t) {l : Term} (hl : l ∈ possibleValues t) :
    l.IsLocation ∧ family l :=
  h.of_mem_atoms (mem_possibleValues.1 hl)

theorem IsTree.imp_family (h : IsTree (IsMemberOf family) t)
    (hfamily : ∀ l : Term, l.IsLocation → family l → family' l) : IsTree (IsMemberOf family') t :=
  h.imp fun _ hw => hw.imp fun l hl => ⟨hl.1, hfamily l hl.1 hl.2.1, hl.2.2⟩

theorem IsElementTree.isTree (h : IsElementTree t) : IsTree (IsMemberOf (· ∈ atoms t)) t := by
  induction h with
  | none => exact .none
  | @member l hl => exact isTree_member hl (by simp [atoms_member])
  | any hsummand _ ih => exact .any hsummand fun x hx => (ih x hx).imp_family fun l _ hl => mem_atoms_or.2 ⟨x, hx, hl⟩
  | @choice p q a b hp hq _ _ iha ihb =>
      refine .choice ((plain_eq p q).2 ⟨hp, hq⟩) (iha.imp_family fun l _ hl => ?_) (ihb.imp_family fun l _ hl => ?_)
      · rw [atoms]
        exact List.mem_append_left _ hl
      · rw [atoms]
        exact List.mem_append_right _ hl

theorem isTree_ofList {es : List Term} (h : ∀ e ∈ es, e.IsLocation) : IsTree (IsMemberOf (· ∈ es)) (ofList es) := by
  refine List.foldlRecOn (motive := IsTree (IsMemberOf (· ∈ es))) _ _ .none fun s hs e he => ?_
  exact isTree_disj (List.forall_mem_cons.2 ⟨hs, List.forall_mem_singleton.2 (isTree_member (h e he) he)⟩)

end

section
variable {family : Term → Prop} {t : Term}

/-- Whether a clause has a membership atom of a location of a family, and none but such atoms beside plain terms. -/
def IsClauseOf (family : Term → Prop) (c : Clause) : Prop :=
  (∀ y ∈ c, ¬y.Plain → IsMemberOf family y) ∧ ∃ y ∈ c, IsMemberOf family y

theorem isClauseOf_product {parts : List (List Clause)} {part : List Clause} (hpart : part ∈ parts)
    (hself : ∀ c ∈ part, IsClauseOf family c)
    (h : ∀ other ∈ parts, (∀ d ∈ other, ∀ y ∈ d, y.Plain) ∨ ∀ d ∈ other, IsClauseOf family d) :
    ∀ c ∈ Clause.product parts, IsClauseOf family c := by
  intro c hc
  obtain ⟨hfrom, hall⟩ := Clause.of_mem_product hc
  refine ⟨fun y hy hnot => ?_, ?_⟩
  · obtain ⟨other, hother, d, hd, hyd⟩ := hfrom y hy
    rcases h other hother with hplain | hclause
    · exact absurd (hplain d hd y hyd) hnot
    · exact (hclause d hd).1 y hyd hnot
  · obtain ⟨d, hd, hsub⟩ := hall part hpart
    obtain ⟨y, hy, hmember⟩ := (hself d hd).2
    exact ⟨y, hsub y hy, hmember⟩

theorem IsTree.clauses (h : IsTree (IsMemberOf family) t) : ∀ c ∈ t.clauses false, IsClauseOf family c := by
  induction h with
  | none => simp [Term.clauses, Clause.ofBool]
  | part _ h =>
      have hmember := h
      obtain ⟨l, -, -, rfl⟩ := h
      intro c hc
      rw [List.mem_singleton.1 hc]
      exact ⟨fun y hy _ => List.mem_singleton.1 hy ▸ hmember, _, List.mem_singleton_self _, hmember⟩
  | any _ _ ih =>
      intro c hc
      rw [Term.clauses, clausesAll_eq_map, if_neg Bool.false_ne_true, Clause.mem_sum] at hc
      obtain ⟨_, hpart, hc⟩ := hc
      obtain ⟨x, hx, rfl⟩ := List.mem_map.1 hpart
      exact ih x hx c hc
  | under hx _ _ ihx ih =>
      rw [Term.clauses, joinClauses_eq_product, if_neg Bool.false_ne_true]
      refine isClauseOf_product (List.mem_map_of_mem hx) ihx (List.forall_mem_map.2 fun y hy => ?_)
      by_cases hplain : y.Plain
      · exact Or.inl (isInherited_plain.clauses hplain false)
      · exact Or.inr (ih y hy hplain)
  | @choice c a b hc _ _ iha ihb =>
      have hbranch : ∀ (negated : Bool) (branch : Term), (∀ d ∈ branch.clauses false, IsClauseOf family d) →
          ∀ d ∈ Clause.product [c.clauses negated, branch.clauses false], IsClauseOf family d := by
        intro negated branch hclauses
        refine isClauseOf_product (List.mem_cons_of_mem _ (List.mem_singleton_self _)) hclauses ?_
        exact List.forall_mem_cons.2
          ⟨Or.inl (isInherited_plain.clauses hc negated), List.forall_mem_singleton.2 (Or.inr hclauses)⟩
      intro d hd
      rw [Term.clauses, Clause.mem_sum] at hd
      obtain ⟨part, hpart, hd⟩ := hd
      rcases List.mem_cons.1 hpart with rfl | hpart
      · exact hbranch false a iha d hd
      · rw [List.mem_singleton.1 hpart] at hd
        exact hbranch true b ihb d hd

theorem IsClauseOf.isTree_conj {c : Clause} (h : IsClauseOf family c) : IsTree (IsMemberOf family) (conj c) := by
  obtain ⟨y, hy, hmember⟩ := h.2
  exact ConditionalSet.isTree_conj hy (.part hmember.isOperand hmember) fun u hu hnot =>
    .part (h.1 u hu hnot).isOperand (h.1 u hu hnot)

end

end ConditionalSet
end Backslice
