import Backslice.Proofs.ConditionalTransfer

/-!
# Contexts

A context is a sum of sets under conditions, built already: the constructors
leave it and each of its operands as they are. So a union with a context gives
back the context exactly if it brings no new operand, and what a context has
absorbed it never gives up. An arrow makes a context from a context, under all
settings of the analysis, and the same one with all placeholders.
-/

namespace Backslice

open Term ConditionalSet

namespace ConditionalSet

/-- Whether a set is a sum of conditional sets of members of a family, as the constructors build it. -/
structure IsContext (family : Term → Prop) (t : ConditionalSet) : Prop where
  sum : IsSum (fun y => IsTree (IsMemberOf family) y ∧ conj [y] = y) t
  built : disj [t] = t

section
variable {family family' : Term → Prop} {s t : ConditionalSet}

theorem IsContext.isTree (h : IsContext family t) : IsTree (IsMemberOf family) t :=
  isTree_of_isSum (h.sum.imp fun _ => And.left)

theorem IsContext.imp_family (h : IsContext family t) (hfamily : ∀ l : Term, l.IsLocation → family l → family' l) :
    IsContext family' t :=
  ⟨h.sum.imp fun _ hy => ⟨hy.1.imp_family hfamily, hy.2⟩, h.built⟩

theorem isContext_false : IsContext family (.bool false) :=
  ⟨isSum_false, rfl⟩

theorem isContext_of_isSummand (hsummand : t.isSummand = true) (ht : IsTree (IsMemberOf family) t)
    (hbuilt : conj [t] = t) : IsContext family t := by
  refine ⟨isSum_of_isSummand hsummand ⟨ht, hbuilt⟩, ?_⟩
  rw [disj_eq, List.flatMap_singleton, disjuncts_of_isSummand hsummand]
  rfl

theorem isContext_member {l : Term} (hl : l.IsLocation) (hfamily : family l) : IsContext family (member l) :=
  isContext_of_isSummand rfl (isTree_member hl hfamily) (conj_singleton rfl)

theorem isContext_disj {ts : List Term} (h : ∀ t ∈ ts, IsContext family t) : IsContext family (disj ts) :=
  ⟨isSum_disj fun t ht => (h t ht).sum, disj_disj fun t ht => (h t ht).sum⟩

theorem IsContext.union (hs : IsContext family s) (ht : IsContext family t) : IsContext family (s.union t) :=
  isContext_disj (List.forall_mem_cons.2 ⟨hs, List.forall_mem_singleton.2 ht⟩)

theorem IsContext.mem_disjuncts_union (hs : IsContext family s) (ht : IsContext family t) {y : Term} :
    y ∈ (s.union t).disjuncts ↔ y ∈ s.disjuncts ∨ y ∈ t.disjuncts := by
  rw [ConditionalSet.union, mem_disjuncts_disj (List.forall_mem_cons.2 ⟨hs.sum, List.forall_mem_singleton.2 ht.sum⟩)]
  simp

theorem IsContext.union_eq_left_iff (hs : IsContext family s) (ht : IsContext family t) :
    s.union t = s ↔ ∀ y ∈ t.disjuncts, y ∈ s.disjuncts := by
  constructor
  · intro h y hy
    rw [← h]
    exact (hs.mem_disjuncts_union ht).2 (Or.inr hy)
  · exact disj_eq_left hs.built

theorem IsContext.conj_eq_self (h : IsContext family t) : conj [t] = t := by
  rcases h.sum.cases with rfl | ⟨-, -, hbuilt⟩ | ⟨xs, rfl, -⟩
  · rfl
  · exact hbuilt
  · rw [conj_eq, List.flatMap_singleton]
    rfl

/-- A conjunction with a term that is built already is false, this term, or a conjunction that is built already. -/
theorem conj_pair_cases (g : Term) (ht : conj [t] = t) (hne : t.conjuncts ≠ []) :
    conj [g, t] = .bool false ∨ conj [g, t] = t ∨
      ((conj [g, t]).isSummand = true ∧ conj [conj [g, t]] = conj [g, t]) := by
  have hmem : ∀ y ∈ t.conjuncts, y ∈ [g, t].flatMap conjuncts := fun y hy => List.mem_flatMap.2 ⟨t, by simp, hy⟩
  obtain ⟨y, hy⟩ := List.exists_mem_of_ne_nil _ hne
  rcases conj_cases (hmem y hy) with ⟨x, hall, hx⟩ | hfalse | hbuilt
  · rw [conj_eq, List.flatMap_singleton, List.eraseDups_of_forall_eq hne fun z hz => hall z (hmem z hz)] at ht
    exact Or.inr (Or.inl (hx.trans ht))
  · exact Or.inl hfalse
  · exact Or.inr (Or.inr hbuilt)

theorem isTree_guarded {p : Term → Prop} {g : Term} (hg : g.Plain) (ht : IsTree p t) :
    IsTree p (conj [g.asFormula, t]) :=
  isTree_conj (List.mem_cons_of_mem _ (List.mem_singleton_self t)) ht
    (List.forall_mem_cons.2 ⟨fun hnot => absurd (isInherited_plain.asFormula hg) hnot,
      List.forall_mem_singleton.2 fun _ => ht⟩)

theorem IsTree.underGuard {p : Term → Prop} (ht : IsTree p t) (options : Options) {guard : Option Term}
    (hguard : ∀ g ∈ guard, g.Plain) : IsTree p (ConditionalSet.underGuard t options guard) := by
  unfold ConditionalSet.underGuard
  split
  next g =>
    split
    next => exact isTree_guarded (hguard g rfl) ht
    next => exact ht
  next => exact ht

theorem IsContext.underGuard (ht : IsContext family t) (options : Options) {guard : Option Term}
    (hguard : ∀ g ∈ guard, g.Plain) : IsContext family (t.underGuard options guard) := by
  unfold ConditionalSet.underGuard
  split
  next g =>
    split
    next =>
      obtain ⟨y, hy, -⟩ := ht.isTree.conjuncts.1
      rcases conj_pair_cases g.asFormula ht.conj_eq_self (List.ne_nil_of_mem hy) with h | h | ⟨hsummand, hbuilt⟩
      · rw [h]
        exact isContext_false
      · rwa [h]
      · exact isContext_of_isSummand hsummand (isTree_guarded (hguard g rfl) ht.isTree) hbuilt
    next => exact ht
  next => exact ht

theorem IsClauseOf.isContext_conj {c : Clause} (h : IsClauseOf family c) : IsContext family (conj c) := by
  obtain ⟨y, hy, hmember⟩ := h.2
  obtain ⟨hcases, hbuilt⟩ := conj_conj hy hmember.isOperand
  rcases hcases with hfalse | hsummand
  · rw [hfalse]
    exact isContext_false
  · exact isContext_of_isSummand hsummand h.isTree_conj hbuilt

theorem IsTree.isContext_disjunctiveForm (h : IsTree (IsMemberOf family) t) : IsContext family t.disjunctiveForm := by
  rw [Term.disjunctiveForm, share_eq]
  exact isContext_disj (List.forall_mem_map.2 fun c hc => (h.clauses c hc).isContext_conj)

theorem IsTree.isContext_normalize {p : Term → Prop} (h : IsTree p t)
    (hpart : ∀ w, p w → IsTree (IsMemberOf family) w.simplify) (options : Options) :
    IsContext family (normalize t options) := by
  have hcontext := (h.simplify hpart).isContext_disjunctiveForm
  rw [normalize, simplifyShared_eq_simplify]
  split
  next =>
    refine isContext_disj (List.forall_mem_map.2 fun l hl => ?_)
    obtain ⟨hlocation, hfamily⟩ := hcontext.isTree.of_mem_possibleValues hl
    exact isContext_member hlocation hfamily
  next => exact hcontext

theorem IsContext.exists_before (hs : IsContext family s) (options : Options) {arrow : Arrow} (harrow : arrow.IsPlain) :
    ∃ t, (∀ names, ∃ names', s.before options arrow names = .ok (t, names')) ∧
      IsContext (arrow.statement.before family) t := by
  obtain ⟨hstatement, hguard⟩ := harrow
  obtain ⟨source, guard, statement, target⟩ := arrow
  cases statement with
  | assign l v =>
      obtain ⟨t, hbefore, htree⟩ := hs.isTree.exists_beforeAssignment hstatement.1 hstatement.2
      refine ⟨(t.underGuard options guard).normalize options, fun names => ?_,
        (htree.underGuard options hguard).isContext_normalize (fun _ => And.right) options⟩
      obtain ⟨names', hnames⟩ := hbefore names
      exact ⟨names', before_assign rfl hnames⟩
  | jump | skip | external name =>
      refine ⟨s.underGuard options guard, fun names => ⟨names, rfl⟩, ?_⟩
      exact (hs.underGuard options hguard).imp_family fun l _ hl => ⟨l, hl, List.mem_singleton_self l⟩

theorem IsContext.before (hs : IsContext family s) {options : Options} {arrow : Arrow} {names names' : Fresh}
    (harrow : arrow.IsPlain) (h : s.before options arrow names = .ok (t, names')) :
    IsContext (arrow.statement.before family) t := by
  obtain ⟨u, hbefore, hu⟩ := hs.exists_before options harrow
  obtain ⟨names'', hnames⟩ := hbefore names
  rw [hnames] at h
  exact (Prod.mk.inj (Except.ok.inj h)).1 ▸ hu

end

end ConditionalSet
end Backslice
