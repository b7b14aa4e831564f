import Backslice.Proofs.Renaming

/-!
# Placeholders leave no trace

Between the replacements of an assignment, a set has placeholders at known
places only. Before a register is assigned, the watched register is all that is
hidden, and the last replacement brings it back wherever it has got to. Before a
store, a placeholder stands to the left of an equality. Connectives, case splits
and rules keep it there, and the last replacement takes away all equalities of
this form. So the set in front of an arrow has no placeholder, whatever formula
the set behind it is, and no choice of placeholders shows in it.
-/

namespace Backslice

open Term ConditionalSet

instance (t : Term) : Decidable t.IsPlaceholder :=
  decidable_of_iff (t.isReserved = true ∧ t ≠ marker) ⟨fun h => ⟨h.1, h.2⟩, fun h => ⟨h.reserved, h.ne_marker⟩⟩

instance (t : Term) : Decidable t.NoPlaceholders :=
  inferInstanceAs (Decidable (∀ u ∈ t.subterms, ¬u.IsPlaceholder))

namespace Term

theorem not_isPlaceholder_of_not_isSymbol {t : Term} (h : t.isSymbol = false) : ¬t.IsPlaceholder := by
  intro hplaceholder
  obtain ⟨n, rfl⟩ := exists_of_isReserved hplaceholder.reserved
  cases h

/-- The placeholders of a term, except for `tag` to the left of an equality. -/
def strays (t tag : Term) : List Term :=
  foldUp
    (fun u found =>
      match u, found with
      | .eq a _, [_, ofRight] => if a = tag then ofRight else found.flatten
      | .var n, _ => if (Term.var n).IsPlaceholder then [.var n] else []
      | _, found => found.flatten)
    t

section
variable {t tag : Term}

theorem strays_eq (a b : Term) : (Term.eq a b).strays tag = (if a = tag then [] else a.strays tag) ++ b.strays tag := by
  rw [strays, foldUp_eq]
  simp only [children, List.map_cons, List.map_nil]
  split <;> simp [strays]

theorem strays_of_child (hvar : t.isVariable = false) (heq : ∀ a b, t ≠ .eq a b) :
    t.strays tag = t.children.flatMap (·.strays tag) := by
  rw [strays, foldUp_eq, List.flatMap_def]
  cases t <;> first | rfl | exact absurd rfl (heq _ _) | cases hvar

theorem collects_strays (tag : Term) : Collects (·.strays tag) := fun t ht =>
  strays_of_child (by cases t <;> first | rfl | cases ht) fun a b h => by
    rw [h] at ht
    cases ht

/-- Whether a term has no placeholder but `tag`, to the left of equalities. -/
def IsMasked (t tag : Term) : Prop :=
  t.strays tag = []

theorem isMasked_var (n : String) : (Term.var n).IsMasked tag ↔ ¬(Term.var n).IsPlaceholder := by
  rw [IsMasked, strays, foldUp_eq]
  dsimp only
  split <;> simp_all

theorem isMasked_eq (a b : Term) : (Term.eq a b).IsMasked tag ↔ (a = tag ∨ a.IsMasked tag) ∧ b.IsMasked tag := by
  rw [IsMasked, strays_eq, List.append_eq_nil_iff]
  refine and_congr_left fun _ => ?_
  split <;> simp_all [IsMasked]

theorem isMasked_iff_children (hvar : t.isVariable = false) (heq : ∀ a b, t ≠ .eq a b) :
    t.IsMasked tag ↔ ∀ c ∈ t.children, c.IsMasked tag := by
  rw [IsMasked, strays_of_child hvar heq, List.flatMap_eq_nil_iff]
  rfl

@[simp]
theorem isMasked_mem (a : Term) : (Term.mem a).IsMasked tag ↔ a.IsMasked tag := by
  rw [isMasked_iff_children rfl (by simp)]
  simp [children]

@[simp]
theorem isMasked_unary (op : UnaryOp) (a : Term) : (Term.unary op a).IsMasked tag ↔ a.IsMasked tag := by
  rw [isMasked_iff_children rfl (by simp)]
  simp [children]

@[simp]
theorem isMasked_binary (op : BinaryOp) (a b : Term) :
    (Term.binary op a b).IsMasked tag ↔ a.IsMasked tag ∧ b.IsMasked tag := by
  rw [isMasked_iff_children rfl (by simp)]
  simp [children]

@[simp]
theorem isMasked_quantified (q : Quantifier) (a b : Term) :
    (Term.quantified q a b).IsMasked tag ↔ a.IsMasked tag ∧ b.IsMasked tag := by
  rw [isMasked_iff_children rfl (by simp)]
  simp [children]

@[simp]
theorem isMasked_ite (c a b : Term) :
    (Term.ite c a b).IsMasked tag ↔ c.IsMasked tag ∧ a.IsMasked tag ∧ b.IsMasked tag := by
  rw [isMasked_iff_children rfl (by simp)]
  simp [children]

theorem IsMasked.not_isPlaceholder (h : t.IsMasked tag) : ¬t.IsPlaceholder := by
  intro hplaceholder
  obtain ⟨n, rfl⟩ := exists_of_isReserved hplaceholder.reserved
  exact (isMasked_var n).1 h hplaceholder

theorem IsMasked.child (h : t.IsMasked tag) (hne : ∀ y, t ≠ .eq tag y) : ∀ c ∈ t.children, c.IsMasked tag := by
  cases t with
  | var n => simp [children]
  | eq a b =>
      obtain ⟨ha, hb⟩ := (isMasked_eq a b).1 h
      have ha' : a.IsMasked tag := ha.resolve_left fun heq => hne b (by rw [heq])
      simpa [children] using ⟨ha', hb⟩
  | _ => exact (isMasked_iff_children rfl (by simp)).1 h

/-- Connectives of masked terms are masked, and so are all other terms but placeholders. -/
theorem isMasked_of_isRebuilt {f : Term → Term} {u : Term} (hatom : t.isAtom = false) (hu : IsRebuilt f t u)
    (hf : ∀ c ∈ t.children, (f c).IsMasked tag) : u.IsMasked tag := by
  refine List.eq_nil_iff_forall_not_mem.2 fun x hx => ?_
  obtain ⟨c, hc, hx⟩ := (collects_strays tag).exists_of_isRebuilt hatom hu hx
  rw [hf c hc] at hx
  exact List.not_mem_nil hx

theorem isMasked_updateChildren {f : Term → Term} (ht : ¬t.IsPlaceholder) (hf : ∀ c ∈ t.children, (f c).IsMasked tag) :
    (t.updateChildren (t.children.map f)).IsMasked tag := by
  by_cases hatom : t.isAtom = true
  · cases t with
    | var n => exact (isMasked_var n).2 ht
    | reg n o k => exact (isMasked_iff_children (t := .reg n o k) rfl (by simp)).2 (by simp [children])
    | eq a b => simpa [children, isMasked_eq] using ⟨Or.inr (hf a (by simp [children])), hf b (by simp [children])⟩
    | mem _ | unary _ _ | binary _ _ _ | quantified _ _ _ => simpa [children] using hf
    | _ => cases hatom
  · exact isMasked_of_isRebuilt (by simpa using hatom) (isRebuilt_updateChildren f t) hf

theorem noPlaceholders_iff_isMasked (t : Term) : t.NoPlaceholders ↔ t.IsMasked marker := by
  have hmarker : marker.IsMasked marker := (isMasked_var _).2 fun h => h.ne_marker rfl
  induction t using inductionOnChildren with
  | step t ih =>
      rw [noPlaceholders_iff, forall₂_congr ih]
      constructor
      · rintro ⟨hplaceholder, hchildren⟩
        have hmasked := isMasked_updateChildren (f := id) hplaceholder hchildren
        rwa [List.map_id, updateChildren, if_pos rfl] at hmasked
      · intro h
        refine ⟨h.not_isPlaceholder, fun c hc => ?_⟩
        by_cases heq : ∃ y, t = .eq marker y
        · obtain ⟨y, rfl⟩ := heq
          obtain ⟨-, hy⟩ := (isMasked_eq _ y).1 h
          have hboth : ∀ c ∈ [marker, y], c.IsMasked marker := by simpa using ⟨hmarker, hy⟩
          exact hboth c hc
        · exact h.child (fun y hy => heq ⟨y, hy⟩) c hc

theorem noPlaceholders_updateChildren {f : Term → Term} (ht : ¬t.IsPlaceholder)
    (hf : ∀ c ∈ t.children, (f c).NoPlaceholders) : (t.updateChildren (t.children.map f)).NoPlaceholders :=
  (noPlaceholders_iff_isMasked _).2
    (isMasked_updateChildren ht fun c hc => (noPlaceholders_iff_isMasked _).1 (hf c hc))

theorem NoPlaceholders.isMasked (h : t.NoPlaceholders) (tag : Term) : t.IsMasked tag := by
  induction t using inductionOnChildren with
  | step t ih =>
      obtain ⟨hplaceholder, hchildren⟩ := (noPlaceholders_iff t).1 h
      have hmasked := isMasked_updateChildren (f := id) hplaceholder fun c hc => ih c hc (hchildren c hc)
      rwa [List.map_id, updateChildren, if_pos rfl] at hmasked

end

end Term

namespace ConditionalSet

section
variable {s r v hidden : Term} (hhidden : hidden.IsPlaceholder)
include hhidden

/-- Replacing the only placeholder of a term takes all placeholders away. -/
theorem noPlaceholders_replace {t new : Term} (ht : ∀ u ∈ t.subterms, u.IsPlaceholder → u = hidden)
    (hnew : new.NoPlaceholders) : (t.replace hidden new).NoPlaceholders := by
  induction t using inductionOnChildren with
  | step t ih =>
      by_cases heq : t = hidden
      · rwa [heq, replace_placeholder hhidden]
      · obtain ⟨hself, hchildren⟩ := (forall_subterms_iff t).1 ht
        have hrebuilt := noPlaceholders_updateChildren (fun h => heq (hself h)) fun c hc => ih c hc (hchildren c hc)
        rw [replace_eq]
        split
        · exact hnew
        · exact hrebuilt

theorem noPlaceholders_beforeRegister (hs : s.NoPlaceholders) (hv : v.NoPlaceholders) :
    (beforeRegister s r v hidden).NoPlaceholders := by
  have hinherited : IsInherited fun t => ∀ u ∈ t.subterms, u.IsPlaceholder → u = hidden :=
    isInherited_forall_subterms fun t ht hplaceholder => absurd hplaceholder (not_isPlaceholder_of_not_isSymbol ht)
  have hnone : ∀ {t : Term}, t.NoPlaceholders → ∀ u ∈ t.subterms, u.IsPlaceholder → u = hidden :=
    fun ht u hu hplaceholder => absurd hplaceholder (ht u hu)
  have hself : ∀ u ∈ hidden.subterms, u.IsPlaceholder → u = hidden := fun u hu _ => by
    obtain ⟨n, rfl⟩ := exists_of_isReserved hhidden.reserved
    exact List.mem_singleton.1 hu
  exact noPlaceholders_replace hhidden (hinherited.replace (hinherited.replace (hnone hs) hself) (hnone hv))
    hv.dependencies

end

section
variable {s a v x tag : Term} (hx : x.IsPlaceholder) (htag : tag.IsPlaceholder) (hxtag : x ≠ tag)

theorem IsMasked.ne (hx : x.IsPlaceholder) {t : Term} (ht : t.IsMasked tag) : t ≠ x := by
  rintro rfl
  exact ht.not_isPlaceholder hx

include hx htag hxtag in
theorem isMasked_maskRule {t : Term} (ht : t.NoPlaceholders) : ((maskRule x tag).apply t).IsMasked tag := by
  induction t using inductionOnChildren with
  | step t ih =>
      obtain ⟨hself, hchildren⟩ := (noPlaceholders_iff t).1 ht
      have hrebuilt := isMasked_updateChildren hself fun c hc => ih c hc (hchildren c hc)
      rw [Rule.apply_eq]
      by_cases hcell : ∃ y, t.updateChildren (t.children.map (maskRule x tag).apply) = member (.mem y)
      · obtain ⟨y, hy⟩ := hcell
        rw [hy, member, isMasked_eq, isMasked_mem] at hrebuilt
        rw [hy, Rule.applyHead, replacementFor?_maskRule hx htag hxtag (IsMasked.ne hx hrebuilt.2)]
        exact (isMasked_eq tag y).2 ⟨Or.inl rfl, hrebuilt.2⟩
      · rwa [Rule.applyHead_of_none (replacementFor?_maskRule_none hx fun y hy => hcell ⟨y, hy⟩)]

theorem isMasked_toTerm {cases : Cases} (h : cases.Forall (·.IsMasked tag) (·.IsMasked tag)) :
    cases.toTerm.IsMasked tag := by
  induction cases with
  | leaf t => exact h
  | split c a b iha ihb => exact (isMasked_ite _ _ _).2 ⟨h.1, iha h.2.1, ihb h.2.2⟩

section
variable (ha : a.NoPlaceholders) (hv : v.NoPlaceholders)
include ha hv

theorem isMasked_readCases {e : Term} (he : e.IsMasked tag) :
    (e.readCases a v).Forall (·.IsMasked tag) (·.IsMasked tag) := by
  have hcases := forall_readCases (p := (·.IsMasked tag)) (a := a) (fun x => (isMasked_mem x).1) isMasked_unary
    isMasked_binary (hv.isMasked tag) he
  refine hcases.imp ?_ fun _ => id
  rintro c ⟨y, rfl, hy⟩
  exact (isMasked_eq a y).2 ⟨Or.inr (ha.isMasked tag), hy⟩

include htag in
theorem isMasked_splitAliases {t : Term} (ht : t.IsMasked tag) : (t.splitAliases a v).1.IsMasked tag := by
  induction t using inductionOnChildren with
  | step t ih =>
      by_cases htagged : ∃ y, t = .eq tag y
      · obtain ⟨y, rfl⟩ := htagged
        obtain ⟨-, hy⟩ := (isMasked_eq tag y).1 ht
        rw [splitAliases_placeholder htag]
        exact isMasked_toTerm ((isMasked_readCases ha hv hy).map fun z hz => (isMasked_eq tag z).2 ⟨Or.inl rfl, hz⟩)
      · have hchild := ht.child fun y hy => htagged ⟨y, hy⟩
        by_cases hatom : t.isAtom = true
        · cases t with
          | eq t u =>
              have hleft := isMasked_readCases ha hv (hchild t (by simp [children]))
              have hright := isMasked_readCases ha hv (hchild u (by simp [children]))
              rw [splitAliases_eq]
              exact isMasked_toTerm (hleft.combine hright fun p q hp hq => (isMasked_eq p q).2 ⟨Or.inr hp, hq⟩)
          | quantified q x t =>
              have hbound := hchild x (by simp [children])
              have hbody := ih t (by simp [children]) (hchild t (by simp [children]))
              exact (isMasked_quantified q x _).2 ⟨hbound, hbody⟩
          | mem _ | unary _ _ | binary _ _ _ | var _ | reg _ _ _ =>
              rw [splitAliases_of_isExpression rfl]
              exact isMasked_toTerm (isMasked_readCases ha hv ht)
          | _ => cases hatom
        · have hatom' : t.isAtom = false := by simpa using hatom
          exact isMasked_of_isRebuilt hatom' (isRebuilt_splitAliases hatom') fun c hc => ih c hc (hchild c hc)

include hx htag hxtag

theorem noPlaceholders_revealRule {t : Term} (ht : t.IsMasked tag) :
    ((revealRule a v x tag).apply t).NoPlaceholders := by
  induction t using inductionOnChildren with
  | step t ih =>
      by_cases htagged : ∃ y, t = .eq tag y
      · obtain ⟨y, rfl⟩ := htagged
        obtain ⟨-, hy⟩ := (isMasked_eq tag y).1 ht
        have hcell := ih y (by simp [children]) hy
        have hkeep : (revealRule a v x tag).apply tag = tag := Rule.apply_of_forall fun u hu =>
          replacementFor?_revealRule_none hx htag hxtag fun z h => by
            obtain ⟨m, rfl⟩ := exists_of_isReserved htag.reserved
            simp [subterms, h] at hu
        have hne : (revealRule a v x tag).apply y ≠ x := IsMasked.ne hx (hcell.isMasked tag)
        rw [Rule.apply_eq]
        simp only [children, List.map_cons, List.map_nil, hkeep, updateChildren_eq]
        rw [Rule.applyHead, replacementFor?_revealRule hx htag hxtag ha hv hne, Option.getD_some]
        have hmarked := isMarked_noPlaceholders
        exact hmarked.ite (hmarked.eq ha hcell) hv.dependencies (hmarked.member (hmarked.mem hcell))
      · have hchild := ht.child fun y hy => htagged ⟨y, hy⟩
        have hrebuilt := noPlaceholders_updateChildren ht.not_isPlaceholder fun c hc => ih c hc (hchild c hc)
        rw [Rule.apply_eq, Rule.applyHead_of_none (replacementFor?_revealRule_none hx htag hxtag fun y hy => ?_)]
        · exact hrebuilt
        · rw [hy] at hrebuilt
          exact ((noPlaceholders_iff _).1 (((noPlaceholders_iff _).1 hrebuilt).2 tag (by simp [children]))).1 htag

theorem noPlaceholders_beforeStore (hs : s.NoPlaceholders) : (beforeStore s a v x tag).NoPlaceholders :=
  noPlaceholders_revealRule hx htag hxtag ha hv
    (isMasked_splitAliases htag ha hv (isMasked_maskRule hx htag hxtag hs))

end
end

section
variable {s l v : Term}

/-- The set before an assignment to a storage location, the same for all placeholders. -/
theorem exists_beforeLvalue (hs : s.NoPlaceholders) (hl : l.NoPlaceholders) (hv : v.NoPlaceholders)
    (hlvalue : l.isLvalue = true) :
    ∃ t : Term, t.NoPlaceholders ∧ ∀ names, ∃ names', beforeAssignment s l v names = .ok (t, names') := by
  rcases isLvalue_cases hlvalue with hr | ⟨a, rfl⟩
  · have hhidden : ∀ names : Fresh, (names.take "TMP").1.IsPlaceholder := Fresh.isPlaceholder_take (by simp)
    have hresult := noPlaceholders_beforeRegister (r := l) (hhidden ⟨0⟩) hs hv
    refine ⟨_, hresult, fun names => ⟨(names.take "TMP").2, ?_⟩⟩
    rw [← beforeRegister_congr hs hl hv (hhidden ⟨0⟩) (hhidden names) hresult]
    obtain ⟨n, o, k, rfl⟩ := exists_of_isRegister hr
    rfl
  · have ha : a.NoPlaceholders := isMarked_noPlaceholders.child hl (by simp [children])
    have hx : ∀ names : Fresh, (names.take "X").1.IsPlaceholder := Fresh.isPlaceholder_take (by simp)
    have htag : ∀ names : Fresh, (names.take "ELT_ADDR").1.IsPlaceholder := Fresh.isPlaceholder_take (by simp)
    have hne : ∀ names : Fresh, (names.take "X").1 ≠ ((names.take "X").2.take "ELT_ADDR").1 := fun names =>
      Fresh.take_ne (by simp) names
    have hresult := noPlaceholders_beforeStore (hx ⟨0⟩) (htag (Fresh.take ⟨0⟩ "X").2) (hne ⟨0⟩) ha hv hs
    refine ⟨_, hresult, fun names => ⟨((names.take "X").2.take "ELT_ADDR").2, ?_⟩⟩
    rw [← beforeStore_congr hs ha hv (hx ⟨0⟩) (htag _) (hne ⟨0⟩) (hx names) (htag _) (hne names) hresult]
    rfl

theorem beforeAssignment_of_not_isLvalue (s v : Term) (hlvalue : l.isLvalue = false) (names : Fresh) :
    beforeAssignment s l v names = .error (.assignmentToNonLvalue l) := by
  cases l <;> first | rfl | cases hlvalue

end

end ConditionalSet

/-- Whether the terms of an arrow that decide what is in front of it have no placeholders. -/
structure Arrow.NoPlaceholders (arrow : Arrow) : Prop where
  guard : ∀ g ∈ arrow.guard, g.NoPlaceholders
  statement : IsHereditary.OfStatement Term.NoPlaceholders arrow.statement

/-- Whatever the placeholders, an arrow makes the same set without placeholders of a set, or fails in the same way
because it assigns something that is no storage location. -/
theorem ConditionalSet.before_cases {s : ConditionalSet} (hs : Term.NoPlaceholders s) (options : Options)
    {arrow : Arrow} (harrow : arrow.NoPlaceholders) :
    (∃ l, arrow.assigned? = some l ∧ l.isLvalue = false ∧
        ∀ names, s.before options arrow names = .error (.assignmentToNonLvalue l)) ∨
      ∃ t : ConditionalSet, Term.NoPlaceholders t ∧
        ∀ names, ∃ names', s.before options arrow names = .ok (t, names') := by
  have hguarded : ∀ {t : ConditionalSet}, Term.NoPlaceholders t →
      Term.NoPlaceholders (t.underGuard options arrow.guard) := fun ht =>
    isMarked_noPlaceholders.underGuard ht options harrow.guard
  have hstatement := harrow.statement
  cases hassign : arrow.statement with
  | assign l v =>
      rw [hassign] at hstatement
      cases hlvalue : l.isLvalue with
      | true =>
          obtain ⟨t, ht, hbefore⟩ := exists_beforeLvalue hs hstatement.1 hstatement.2 hlvalue
          refine Or.inr ⟨_, isMarked_noPlaceholders.normalize (hguarded ht) options, fun names => ?_⟩
          obtain ⟨names', hnames⟩ := hbefore names
          exact ⟨names', before_assign hassign hnames⟩
      | false =>
          refine Or.inl ⟨l, by rw [Arrow.assigned?, hassign], hlvalue, fun names => ?_⟩
          rw [ConditionalSet.before, hassign]
          simp only [beforeAssignment_of_not_isLvalue s v hlvalue names]
          rfl
  | jump | skip | external name =>
      refine Or.inr ⟨_, hguarded hs, fun names => ⟨names, ?_⟩⟩
      rw [ConditionalSet.before, hassign]

end Backslice
