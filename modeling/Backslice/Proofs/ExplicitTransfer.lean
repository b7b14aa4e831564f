import Backslice.Proofs.ElementTree

/-!
# Explicit sets before an arrow

Where sets are flattened, the set before an arrow is made of what becomes of
each element alone. The assigned register becomes what the value depends on, and
another location has the register replaced. Before a store a register stays, and
a memory cell becomes the elements of the tree of cases of its address. Nothing
of this depends on the names of the placeholders.
-/

namespace Backslice

open Term ConditionalSet

/-- The elements before a statement that an element behind it comes from. -/
def Statement.elementsBefore : Statement → Term → List Term
  | .assign (.mem a) v, .mem y => atoms (((y.readCases a v).map (resolve a v)).toTerm.simplify)
  | .assign (.mem _) _, l => [l.simplify]
  | .assign r v, l => if l = r then v.dependencies.map simplify else [(l.replace r v).simplify]
  | _, l => [l]

theorem Statement.elementsBefore_register {r : Term} (hr : r.isRegister = true) (v m : Term) :
    (Statement.assign r v).elementsBefore m =
      if m = r then v.dependencies.map simplify else [(m.replace r v).simplify] := by
  obtain ⟨n, o, k, rfl⟩ := exists_of_isRegister hr
  cases m <;> rfl

/-- Whether a statement assigns to nothing but locations, and without names of the analysis. -/
def Statement.IsPlain : Statement → Prop
  | .assign l v => l.IsLocation ∧ v.Plain
  | _ => True

theorem Term.IsPlaceholder.isSummand {t : Term} (h : t.IsPlaceholder) : t.isSummand = true := by
  obtain ⟨n, rfl⟩ := exists_of_isReserved h.reserved
  rfl

namespace ConditionalSet

/-- A rule that matches atoms only acts operand by operand, if it matches none of the images once more. -/
theorem actsOnSums_apply {rule : Rule} (hatoms : rule.MatchesAtoms) {p q : Term → Prop}
    (hstable : ∀ w : Term, q w → rule.applyHead w = w)
    (himage : ∀ x : Term, x.isSummand = true → p x → IsSum q (rule.apply x)) : ActsOnSums rule.apply p q := by
  refine actsOnSums_of_isRebuilt ?_ himage fun xs hxs => ?_
  · rw [Rule.apply_eq, Rule.applyHead_of_none (hatoms _ rfl)]
    rfl
  · have hrebuilt := isRebuilt_updateChildren rule.apply (.or xs)
    have hhead : rule.applyHead ((Term.or xs).updateChildren ((Term.or xs).children.map rule.apply)) =
        (Term.or xs).updateChildren ((Term.or xs).children.map rule.apply) := by
      rcases hrebuilt with h | ⟨h, -⟩
      · have hsum : IsSum q (disj (xs.map rule.apply)) :=
          isSum_disj (List.forall_mem_map.2 fun x hx => himage x (hxs x hx).1 (hxs x hx).2)
        rw [h, withChildren, children]
        rcases hsum.cases with h | ⟨-, hq⟩ | ⟨ys, h, -⟩
        · rw [h]
          exact Rule.applyHead_of_none (hatoms _ rfl)
        · exact hstable _ hq
        · rw [h]
          exact Rule.applyHead_of_none (hatoms _ rfl)
      · rw [h]
        exact Rule.applyHead_of_none (hatoms _ rfl)
    rw [Rule.apply_eq, hhead]
    exact hrebuilt

theorem actsOnSums_replace {old new : Term} {p q : Term → Prop} (hold : old.isAtom = true) (hnot : ¬q old)
    (himage : ∀ x : Term, x.isSummand = true → p x → IsSum q (x.replace old new)) :
    ActsOnSums (·.replace old new) p q := by
  refine actsOnSums_apply (Rule.matchesAtoms_nil hold) (fun w hw => ?_) himage
  rw [Rule.applyHead_nil, if_neg]
  rintro rfl
  exact hnot hw

section
variable {r v hidden : Term} (hr : r.isRegister = true) (hhidden : hidden.IsPlaceholder) (hv : v.Plain)

/-- Operands of explicit sets in which the register is hidden. -/
def IsMaskedMember (r hidden w : Term) : Prop :=
  w = hidden ∨ (IsMember w ∧ w ≠ member r)

include hr hhidden in
theorem actsOnSums_mask : ActsOnSums (·.replace (member r) hidden) IsMember (IsMaskedMember r hidden) := by
  refine actsOnSums_replace rfl (fun h => ?_) ?_
  · rcases h with h | h
    · have hreserved := hhidden.reserved
      rw [← h] at hreserved
      exact Bool.false_ne_true hreserved
    · exact h.2 rfl
  · rintro _ - ⟨l, hl, rfl⟩
    by_cases hlr : l = r
    · rw [hlr, replace_member_self hr]
      exact isSum_of_isSummand hhidden.isSummand (Or.inl rfl)
    · rw [replace_member_of_ne hl.2 hlr]
      exact isSum_of_isSummand rfl (Or.inr ⟨⟨l, hl, rfl⟩, fun h => hlr (Term.eq.inj h).2⟩)

include hr hhidden hv in
theorem actsOnSums_rewrite :
    ActsOnSums (·.replace r v) (IsMaskedMember r hidden) fun w => w = hidden ∨ IsMember w := by
  have hratom : r.isAtom = true := by
    obtain ⟨n, o, k, rfl⟩ := exists_of_isRegister hr
    rfl
  refine actsOnSums_replace hratom (fun h => ?_) fun x _ hx => ?_
  · rcases h with h | ⟨l, -, h⟩
    · exact placeholder_ne_register hr hhidden h.symm
    · rw [h] at hr
      exact Bool.false_ne_true hr
  · rcases hx with rfl | ⟨⟨l, hl, rfl⟩, hne⟩
    · rw [replace_register_placeholder hr hhidden]
      exact isSum_of_isSummand hhidden.isSummand (Or.inl rfl)
    · have hlr : l ≠ r := fun h => hne (by rw [h])
      rw [replace_register_member hr]
      exact (isSum_member ⟨isLvalue_replace_register hr v hl.1 hlr, hl.2.replace hv⟩).imp fun _ => Or.inr

include hhidden hv in
theorem actsOnSums_reveal :
    ActsOnSums (·.replace hidden (ofList v.dependencies)) (fun w => w = hidden ∨ IsMember w) IsElementTree := by
  have hnot : ¬IsElementTree hidden := by
    obtain ⟨m, rfl⟩ := exists_of_isReserved hhidden.reserved
    intro h
    cases h
  refine actsOnSums_replace hhidden.isAtom hnot fun x _ hx => ?_
  rcases hx with rfl | ⟨l, hl, rfl⟩
  · rw [replace_placeholder hhidden]
    exact (isElementTree_ofList fun e he => isLocation_of_mem_dependencies hv he).isSum
  · rw [replace_of_not_mem (not_mem_subterms_member hhidden hl.2)]
    exact (IsElementTree.member hl).isSum

include hr hhidden hv in
theorem actsOnSums_beforeRegister : ActsOnSums (fun s => beforeRegister s r v hidden) IsMember IsElementTree :=
  ((actsOnSums_mask hr hhidden).comp (actsOnSums_rewrite hr hhidden hv)).comp (actsOnSums_reveal hhidden hv)

end

section
variable {a v x tag : Term} (ha : a.Plain) (hv : v.Plain) (hx : x.IsPlaceholder) (htag : tag.IsPlaceholder)
  (hxtag : x ≠ tag)

/-- Membership atoms of register cells. -/
def IsRegisterMember (w : Term) : Prop :=
  ∃ r : Term, r.isRegister = true ∧ r.Plain ∧ w = member r

/-- Operands of explicit sets in which the memory cells are hidden. -/
def IsTaggedMember (tag w : Term) : Prop :=
  (∃ y : Term, y.Plain ∧ w = .eq tag y) ∨ IsRegisterMember w

/-- Such operands with the hidden cells split on what their addresses read. -/
def IsSplitMember (a v tag w : Term) : Prop :=
  (∃ y : Term, y.Plain ∧ w = ((y.readCases a v).map (.eq tag)).toTerm) ∨ IsRegisterMember w

/-- A tree of cases over elements is a set of elements if its leaves become one each. -/
theorem isElementTree_toTerm {f : Term → Term} {cases : Cases} {leaf : Term → Prop}
    (h : cases.Forall (fun c => ∃ y, c = .eq a y ∧ y.Plain) leaf) (ha : a.Plain)
    (hf : ∀ t, leaf t → IsElementTree (f t)) : IsElementTree (cases.map f).toTerm := by
  induction cases with
  | leaf t => exact hf t h
  | split c p q ihp ihq =>
      obtain ⟨⟨y, rfl, hy⟩, hp, hq⟩ := h
      exact .choice ha hy (ihp hp) (ihq hq)

include ha hv in
theorem isElementTree_cases {y : Term} (hy : y.Plain) :
    IsElementTree ((y.readCases a v).map (resolve a v)).toTerm := by
  have hcases : (y.readCases a v).Forall (fun c => ∃ y, c = .eq a y ∧ y.Plain) Plain :=
    forall_readCases (fun z => (plain_mem z).1) plain_unary plain_binary hv hy
  refine isElementTree_toTerm hcases ha fun t ht => ?_
  exact .choice ha ht (isElementTree_ofList fun e he => isLocation_of_mem_dependencies hv he)
    (.member ⟨rfl, (plain_mem t).2 ht⟩)

theorem isSummand_toTerm_map {f : Term → Term} (hf : ∀ t, (f t).isSummand = true) (cases : Cases) :
    (cases.map f).toTerm.isSummand = true := by
  cases cases with
  | leaf t => exact hf t
  | split c p q => rfl

include hx htag hxtag in
theorem actsOnSums_tag : ActsOnSums (maskRule x tag).apply IsMember (IsTaggedMember tag) := by
  refine actsOnSums_apply (matchesAtoms_maskRule hx) (fun w hw => ?_) ?_
  · refine Rule.applyHead_of_none (replacementFor?_maskRule_none hx fun y h => ?_)
    rcases hw with ⟨y', -, hw⟩ | ⟨r, hr, -, hw⟩
    · exact htag.ne_marker (Term.eq.inj (hw.symm.trans h)).1
    · rw [(Term.eq.inj (hw.symm.trans h)).2] at hr
      exact Bool.false_ne_true hr
  · rintro _ - ⟨l, hl, rfl⟩
    rcases isLvalue_cases hl.1 with hreg | ⟨y, rfl⟩
    · have hkeep : (maskRule x tag).apply (member l) = member l := by
        refine apply_maskRule_of_not_mem hx fun y => ?_
        obtain ⟨n, o, k, rfl⟩ := exists_of_isRegister hreg
        simp [member, subterms, marker]
      rw [hkeep]
      exact isSum_of_isSummand rfl (Or.inr ⟨l, hreg, hl.2, rfl⟩)
    · have hy := (plain_mem y).1 hl.2
      rw [apply_maskRule_member hx htag hxtag hy]
      exact isSum_of_isSummand rfl (Or.inl ⟨y, hy, rfl⟩)

include htag in
theorem actsOnSums_split :
    ActsOnSums (fun t => (t.splitAliases a v).1) (IsTaggedMember tag) (IsSplitMember a v tag) := by
  refine actsOnSums_of_isRebuilt rfl (fun w _ hw => ?_) fun xs _ => isRebuilt_splitAliases rfl
  rcases hw with ⟨y, hy, rfl⟩ | ⟨r, hr, hp, rfl⟩
  · rw [splitAliases_placeholder htag]
    exact isSum_of_isSummand (isSummand_toTerm_map (fun _ => rfl) _) (Or.inl ⟨y, hy, rfl⟩)
  · rw [splitAliases_register hr]
    exact isSum_of_isSummand rfl (Or.inr ⟨r, hr, hp, rfl⟩)

include ha hv hx htag hxtag in
theorem actsOnSums_untag : ActsOnSums (revealRule a v x tag).apply (IsSplitMember a v tag) IsElementTree := by
  refine actsOnSums_apply (matchesAtoms_revealRule hx htag hxtag) (fun w hw => ?_) fun w _ hw => ?_
  · refine Rule.applyHead_of_none (replacementFor?_revealRule_none hx htag hxtag fun y h => ?_)
    cases hw with
    | member hl => exact htag.ne_marker (Term.eq.inj h).1.symm
    | _ => cases h
  · rcases hw with ⟨y, hy, rfl⟩ | ⟨r, hr, hp, rfl⟩
    · rw [apply_revealRule_cases ha hv hx htag hxtag (forall_readCases_plain ha hv hy)]
      exact (isElementTree_cases ha hv hy).isSum
    · have hkeep : (revealRule a v x tag).apply (member r) = member r :=
        apply_revealRule_of_not_mem hx htag hxtag (not_mem_subterms_member htag hp)
      rw [hkeep]
      exact (IsElementTree.member ⟨by rw [isLvalue, hr, Bool.true_or], hp⟩).isSum

include ha hv hx htag hxtag in
theorem actsOnSums_beforeStore : ActsOnSums (fun s => beforeStore s a v x tag) IsMember IsElementTree :=
  ((actsOnSums_tag hx htag hxtag).comp (actsOnSums_split htag)).comp (actsOnSums_untag ha hv hx htag hxtag)

end

theorem actsOnSums_simplify : ActsOnSums simplify IsElementTree IsElementTree := by
  refine actsOnSums_of_isRebuilt rfl (fun x _ hx => hx.simplify.isSum) fun xs _ => Or.inl ?_
  rw [Term.simplify, simplifyAll_eq_map]
  rfl

theorem mem_atoms_simplify {f : Term → Term} (hf : ActsOnSums f IsMember IsElementTree) {s : ConditionalSet}
    (hs : s.IsExplicit) (l : Term) :
    l ∈ atoms (f s).simplify ↔ ∃ m ∈ s.possibleValues, l ∈ atoms (f (member m)).simplify := by
  have hcomp := hf.comp actsOnSums_simplify
  have hone : ∀ m ∈ s.possibleValues, IsSum IsMember (member m) := fun m hm => isSum_member (hs.isLocation hm)
  rw [mem_atoms_of_isSum (hcomp s hs).1]
  simp only [(hcomp s hs).2, hs.mem_disjuncts]
  constructor
  · rintro ⟨y, ⟨_, ⟨m, hm, rfl⟩, hy⟩, hl⟩
    exact ⟨m, hm, (mem_atoms_of_isSum (hcomp _ (hone m hm)).1).2 ⟨y, hy, hl⟩⟩
  · rintro ⟨m, hm, hl⟩
    obtain ⟨y, hy, hl⟩ := (mem_atoms_of_isSum (hcomp _ (hone m hm)).1).1 hl
    exact ⟨y, ⟨_, ⟨m, hm, rfl⟩, hy⟩, hl⟩

theorem isExplicit_ofList {es : List Term} (h : ∀ e ∈ es, e.IsLocation) : (ofList es).IsExplicit :=
  List.foldlRecOn (motive := IsExplicit) _ _ isSum_false fun _ hs e he => hs.union (isSum_member (h e he))

theorem mem_possibleValues_ofList {es : List Term} (h : ∀ e ∈ es, e.IsLocation) {l : Term} :
    l ∈ (ofList es).possibleValues ↔ l ∈ es := by
  have hfold : ∀ s : ConditionalSet, s.IsExplicit →
      (l ∈ (es.foldl add s).possibleValues ↔ l ∈ s.possibleValues ∨ l ∈ es) := by
    induction es with
    | nil => simp
    | cons e es ih =>
        intro s hs
        have he : (member e).IsExplicit := isSum_member (h e (by simp))
        have hadd : (s.add e).IsExplicit := hs.union he
        rw [List.foldl_cons, ih (fun d hd => h d (by simp [hd])) _ hadd, add, hs.mem_union he,
          mem_possibleValues (s := member e), atoms_member]
        simp [or_assoc]
  have hempty : empty.IsExplicit := isSum_false
  rw [ofList, hfold _ hempty]
  simp [empty, mem_possibleValues, atoms]

theorem atoms_simplify_member {l : Term} (hl : l.IsLocation) : atoms (member l).simplify = [l.simplify] := by
  rw [simplify_member hl.1, atoms_member]

theorem mem_atoms_simplify_ofList {es : List Term} (h : ∀ e ∈ es, e.IsLocation) (l : Term) :
    l ∈ atoms (ofList es).simplify ↔ l ∈ es.map simplify := by
  have hid : ActsOnSums id IsMember IsElementTree := fun s hs =>
    ⟨hs.imp fun _ => IsMember.isElementTree, fun y => by
      simp only [id, IsExplicit.mem_disjuncts hs]
      constructor
      · rintro ⟨m, hm, rfl⟩
        exact ⟨_, ⟨m, hm, rfl⟩, by simp [disjuncts_of_isSummand (t := member m) rfl]⟩
      · rintro ⟨_, ⟨m, hm, rfl⟩, hy⟩
        rw [disjuncts_of_isSummand (t := member m) rfl, List.mem_singleton] at hy
        exact ⟨m, hm, hy⟩⟩
  rw [← id_eq (ofList es), mem_atoms_simplify hid (isExplicit_ofList h)]
  simp only [mem_possibleValues_ofList h, id, List.mem_map]
  refine exists_congr fun e => and_congr_right fun he => ?_
  rw [atoms_simplify_member (h e he), List.mem_singleton, eq_comm]

/-- What becomes of an element before an assignment, with any placeholders. -/
theorem exists_actsOnSums_beforeAssignment {r v : Term} (hr : r.IsLocation) (hv : v.Plain) (names : Fresh) :
    ∃ f names', (∀ s : ConditionalSet, s.beforeAssignment r v names = .ok (f s, names')) ∧
      ActsOnSums f IsMember IsElementTree ∧
        ∀ m : Term, m.IsLocation → ∀ l, l ∈ atoms (f (member m)).simplify ↔
          l ∈ (Statement.assign r v).elementsBefore m := by
  rcases isLvalue_cases hr.1 with hreg | ⟨a, rfl⟩
  · obtain ⟨n, o, k, rfl⟩ := exists_of_isRegister hreg
    have hhidden : (names.take "TMP").1.IsPlaceholder := Fresh.isPlaceholder_take (by simp) names
    refine ⟨fun s => beforeRegister s (.reg n o k) v (names.take "TMP").1, (names.take "TMP").2, fun _ => rfl,
      actsOnSums_beforeRegister hreg hhidden hv, fun m hm l => ?_⟩
    dsimp only
    rw [Statement.elementsBefore_register hreg]
    split
    next h =>
      rw [h, beforeRegister_self hreg hhidden]
      exact mem_atoms_simplify_ofList (fun e he => isLocation_of_mem_dependencies hv he) l
    next h =>
      rw [beforeRegister_member hreg hhidden hm.2 hv h,
        atoms_simplify_member ⟨isLvalue_replace_register hreg v hm.1 h, hm.2.replace hv⟩]
  · have ha := (plain_mem a).1 hr.2
    have hx : (names.take "X").1.IsPlaceholder := Fresh.isPlaceholder_take (by simp) names
    have htag : ((names.take "X").2.take "ELT_ADDR").1.IsPlaceholder := Fresh.isPlaceholder_take (by simp) _
    have hxtag : (names.take "X").1 ≠ ((names.take "X").2.take "ELT_ADDR").1 := Fresh.take_ne (by simp) names
    refine ⟨fun s => beforeStore s a v (names.take "X").1 ((names.take "X").2.take "ELT_ADDR").1,
      ((names.take "X").2.take "ELT_ADDR").2, fun _ => rfl,
      actsOnSums_beforeStore ha hv hx htag hxtag, fun m hm l => ?_⟩
    dsimp only
    rcases isLvalue_cases hm.1 with hmreg | ⟨y, rfl⟩
    · obtain ⟨n, o, k, rfl⟩ := exists_of_isRegister hmreg
      rw [beforeStore_register hx htag hxtag hmreg, atoms_simplify_member hm]
      rfl
    · rw [beforeStore_mem ha hv hx htag hxtag ((plain_mem y).1 hm.2)]
      rfl

/-- The set before an arrow is explicit, and is made of what each of the elements comes from. -/
theorem exists_before_explicit {s : ConditionalSet} {arrow : Arrow} (guarded : Bool) (names : Fresh)
    (hs : s.IsExplicit) (harrow : arrow.statement.IsPlain) :
    ∃ t names', s.before ⟨guarded, true⟩ arrow names = .ok (t, names') ∧ t.IsExplicit ∧
      ∀ l, l ∈ t.possibleValues ↔ ∃ m ∈ s.possibleValues, l ∈ arrow.statement.elementsBefore m := by
  have hguard : ∀ (t : ConditionalSet) (guard : Option Term), t.underGuard ⟨guarded, true⟩ guard = t := by
    intro t guard
    cases guard <;> simp [underGuard, Options.keepsGuards]
  obtain ⟨source, guard, statement, target⟩ := arrow
  cases statement with
  | assign r v =>
      obtain ⟨hr, hv⟩ := harrow
      obtain ⟨f, names', hbefore, hf, helements⟩ := exists_actsOnSums_beforeAssignment hr hv names
      have htree : IsElementTree (f s).simplify := isElementTree_of_isSum ((hf.comp actsOnSums_simplify) s hs).1
      have hatoms : ∀ l, l ∈ possibleValues (f s).simplify.disjunctiveForm ↔ l ∈ atoms (f s).simplify := fun l => by
        rw [mem_possibleValues, mem_atoms_disjunctiveForm htree]
      have hflat := isExplicit_flatten (t := (f s).simplify.disjunctiveForm)
        fun l hl => htree.isLocation ((hatoms l).1 hl)
      have hnormal : normalize (f s) ⟨guarded, true⟩ = flatten (f s).simplify.disjunctiveForm := by
        rw [normalize, simplifyShared_eq_simplify, if_pos rfl]
      refine ⟨flatten (f s).simplify.disjunctiveForm, names', ?_, hflat.1, fun l => ?_⟩
      · rw [before_assign rfl (hbefore s), hguard, hnormal]
      · rw [hflat.2, hatoms, mem_atoms_simplify hf hs]
        exact exists_congr fun m => and_congr_right fun hm => helements m (hs.isLocation hm) l
  | jump | skip | external name =>
      refine ⟨s, names, by simp only [before, hguard], hs, fun l => ?_⟩
      simp [Statement.elementsBefore]

end ConditionalSet
end Backslice
