import Backslice.Proofs.ConditionalTree
import Backslice.Proofs.ErasedPlaceholders
import Backslice.Proofs.ExplicitTransfer

/-!
# Sets under conditions before an arrow

An arrow takes a set under conditions to a set under conditions. What may belong
to the set in front of the arrow comes from what may belong to the set behind
it, element by element; guards, case splits and the normal form only add
conditions and drop elements. The placeholders leave no trace.
-/

namespace Backslice

open Term ConditionalSet

/-- What a statement makes of the members of a family. -/
def Statement.before (statement : Statement) (family : Term → Prop) (l : Term) : Prop :=
  ∃ m, family m ∧ l ∈ statement.elementsBefore m

/-- Whether the statement of an arrow is plain, and its guard as well. -/
def Arrow.IsPlain (arrow : Arrow) : Prop :=
  arrow.statement.IsPlain ∧ ∀ g ∈ arrow.guard, g.Plain

theorem Term.IsPlaceholder.isOperand {t : Term} (h : t.IsPlaceholder) : t.isOperand = true := by
  obtain ⟨n, rfl⟩ := exists_of_isReserved h.reserved
  rfl

theorem Term.IsPlaceholder.ne_member {t : Term} (h : t.IsPlaceholder) (l : Term) : t ≠ member l := by
  obtain ⟨n, rfl⟩ := exists_of_isReserved h.reserved
  simp [member]

namespace ConditionalSet

theorem IsTree.noPlaceholders {p : Term → Prop} {t : Term} (h : IsTree p t)
    (hpart : ∀ w, p w → w.NoPlaceholders) : t.NoPlaceholders := by
  have hof : ∀ w : Term, w.isReserved = false → (∀ c ∈ w.children, c.NoPlaceholders) → w.NoPlaceholders :=
    fun w hw hc =>
      (noPlaceholders_iff w).2 ⟨fun hplaceholder => Bool.false_ne_true (hw.symm.trans hplaceholder.reserved), hc⟩
  induction h with
  | none => exact hof _ rfl (by simp [children])
  | part _ h => exact hpart _ h
  | any _ _ ih => exact hof _ rfl ih
  | under _ _ _ _ ih =>
      refine hof _ rfl fun y hy => ?_
      by_cases hplain : y.Plain
      · exact hplain.noPlaceholders
      · exact ih y hy hplain
  | choice hc _ _ iha ihb => exact hof _ rfl (by simp [children, hc.noPlaceholders, iha, ihb])

theorem IsMemberOf.noPlaceholders {family : Term → Prop} {w : Term} (h : IsMemberOf family w) : w.NoPlaceholders := by
  obtain ⟨l, hl, -, rfl⟩ := h
  exact isMarked_noPlaceholders.member hl.2.noPlaceholders

section
variable {family : Term → Prop} {r v hidden t : Term} (hr : r.isRegister = true) (hhidden : hidden.IsPlaceholder)
  (hv : v.Plain)

/-- Placeholders of the watched register, and membership atoms. -/
def IsHiddenOr (watched : Prop) (hidden : Term) (family : Term → Prop) (w : Term) : Prop :=
  (watched ∧ w = hidden) ∨ IsMemberOf family w

/-- The locations that the assignment of a register leaves, with the register replaced. -/
def Rewritten (family : Term → Prop) (r v l : Term) : Prop :=
  ∃ m, (family m ∧ m ≠ r) ∧ l = m.replace r v

include hr hhidden in
theorem IsTree.mask (h : IsTree (IsMemberOf family) t) :
    IsTree (IsHiddenOr (family r) hidden fun l => family l ∧ l ≠ r) (t.replace (member r) hidden) := by
  refine h.replace rfl (fun w hw => ?_) (fun hmember => ?_) fun w hw => ?_
  · rwa [replace_of_not_mem (member_not_mem hw r)]
  · rcases hmember with ⟨-, heq⟩ | ⟨l, -, ⟨-, hne⟩, heq⟩
    · exact hhidden.ne_member r heq.symm
    · exact hne (Term.eq.inj heq).2.symm
  · obtain ⟨l, hl, hfamily, rfl⟩ := hw
    by_cases hlr : l = r
    · subst hlr
      rw [replace_member_self hr]
      exact .part hhidden.isOperand (Or.inl ⟨hfamily, rfl⟩)
    · rw [replace_member_of_ne hl.2 hlr]
      exact .part rfl (Or.inr ⟨l, hl, ⟨hfamily, hlr⟩, rfl⟩)

include hr hhidden hv in
theorem IsTree.rewrite {watched : Prop} (h : IsTree (IsHiddenOr watched hidden fun l => family l ∧ l ≠ r) t) :
    IsTree (IsHiddenOr watched hidden (Rewritten family r v)) (t.replace r v) := by
  have hatom : r.isAtom = true := by
    obtain ⟨n, o, k, rfl⟩ := exists_of_isRegister hr
    rfl
  refine h.replace hatom (fun w hw => hw.replace hv) (fun hregister => ?_) fun w hw => ?_
  · rcases hregister with ⟨-, heq⟩ | ⟨l, -, -, heq⟩
    · exact placeholder_ne_register hr hhidden heq.symm
    · rw [heq] at hr
      exact Bool.false_ne_true hr
  · rcases hw with ⟨hwatched, rfl⟩ | ⟨l, hl, hfamily, rfl⟩
    · rw [replace_register_placeholder hr hhidden]
      exact .part hhidden.isOperand (Or.inl ⟨hwatched, rfl⟩)
    · rw [replace_register_member hr]
      have himage : (l.replace r v).IsLocation := ⟨isLvalue_replace_register hr v hl.1 hfamily.2, hl.2.replace hv⟩
      exact .part rfl (Or.inr ⟨_, himage, ⟨l, hfamily, rfl⟩, rfl⟩)

include hhidden hv in
theorem IsTree.reveal {watched : Prop} (h : IsTree (IsHiddenOr watched hidden family) t) :
    IsTree (IsMemberOf fun l => (watched ∧ l ∈ v.dependencies) ∨ family l)
      (t.replace hidden (ofList v.dependencies)) := by
  refine h.replace hhidden.isAtom (fun w hw => ?_) (fun hmember => ?_) fun w hw => ?_
  · rwa [replace_of_not_mem (hw.not_mem_subterms hhidden.reserved)]
  · obtain ⟨l, -, -, heq⟩ := hmember
    exact hhidden.ne_member l heq
  · rcases hw with ⟨hwatched, rfl⟩ | ⟨l, hl, hfamily, rfl⟩
    · rw [replace_placeholder hhidden]
      exact (isTree_ofList fun e he => isLocation_of_mem_dependencies hv he).imp_family fun l _ hl => Or.inl ⟨hwatched, hl⟩
    · rw [replace_of_not_mem (not_mem_subterms_member hhidden hl.2)]
      exact isTree_member hl (Or.inr hfamily)

include hr hhidden hv in
theorem IsTree.beforeRegister (h : IsTree (IsMemberOf family) t) :
    IsTree (IsMemberOf fun l => (family r ∧ l ∈ v.dependencies) ∨ Rewritten family r v l)
      (beforeRegister t r v hidden) :=
  ((h.mask hr hhidden).rewrite hr hhidden hv).reveal hhidden hv

end

section
variable {family : Term → Prop} {a v x tag t : Term} (ha : a.Plain) (hv : v.Plain) (hx : x.IsPlaceholder)
  (htag : tag.IsPlaceholder) (hxtag : x ≠ tag)

/-- What stands for the memory cells of a family, for each address of one, and the membership atoms of its registers. -/
def IsCellOr (family : Term → Prop) (cell : Term → Term) (w : Term) : Prop :=
  (∃ y : Term, y.Plain ∧ family (.mem y) ∧ w = cell y) ∨ IsMemberOf (fun l => family l ∧ l.isRegister = true) w

theorem isTree_cell (cell : Term → Term) {y : Term} (hcell : (cell y).isOperand = true) (hy : y.Plain)
    (hfamily : family (.mem y)) : IsTree (IsCellOr family cell) (cell y) :=
  .part hcell (Or.inl ⟨y, hy, hfamily, rfl⟩)

theorem isTree_register {cell : Term → Term} {l : Term} (hl : l.IsLocation) (hfamily : family l)
    (hr : l.isRegister = true) : IsTree (IsCellOr family cell) (member l) :=
  .part rfl (Or.inr ⟨l, hl, ⟨hfamily, hr⟩, rfl⟩)

theorem isOperand_toTerm_map {f : Term → Term} (hf : ∀ y, (f y).isOperand = true) (cases : Cases) :
    (cases.map f).toTerm.isOperand = true := by
  cases cases with
  | leaf y => exact hf y
  | split c p q => rfl

include hx htag hxtag in
theorem IsTree.tagCells (h : IsTree (IsMemberOf family) t) :
    IsTree (IsCellOr family (.eq tag)) ((maskRule x tag).apply t) := by
  refine h.apply (matchesAtoms_maskRule hx) (fun w hw => ?_) (fun w hw => ?_) fun w hw => ?_
  · rwa [apply_maskRule_of_not_mem hx fun y => member_not_mem hw _]
  · refine Rule.applyHead_of_none (replacementFor?_maskRule_none hx fun y heq => ?_)
    rcases hw with ⟨y', -, -, rfl⟩ | ⟨l, -, ⟨-, hr⟩, rfl⟩
    · exact htag.ne_marker (Term.eq.inj heq).1
    · rw [(Term.eq.inj heq).2] at hr
      exact Bool.false_ne_true hr
  · obtain ⟨l, hl, hfamily, rfl⟩ := hw
    rcases isLvalue_cases hl.1 with hr | ⟨y, rfl⟩
    · have hkeep : (maskRule x tag).apply (member l) = member l := by
        refine apply_maskRule_of_not_mem hx fun y => ?_
        obtain ⟨n, o, k, rfl⟩ := exists_of_isRegister hr
        simp [member, subterms, marker]
      rw [hkeep]
      exact isTree_register hl hfamily hr
    · have hy := (plain_mem y).1 hl.2
      rw [apply_maskRule_member hx htag hxtag hy]
      exact isTree_cell (.eq tag) rfl hy hfamily

include ha hv htag in
theorem IsTree.splitCells (h : IsTree (IsCellOr family (.eq tag)) t) :
    IsTree (IsCellOr family fun y => ((y.readCases a v).map (.eq tag)).toTerm) (t.splitAliases a v).1 := by
  refine h.map (fun w hw => isInherited_plain.splitAliases ha hv hw) (fun w _ hw => ?_)
    fun w hw => ⟨_, isRebuilt_splitAliases hw, fun _ => rfl⟩
  rcases hw with ⟨y, hy, hfamily, rfl⟩ | ⟨l, hl, ⟨hfamily, hr⟩, rfl⟩
  · rw [splitAliases_placeholder htag]
    exact isTree_cell (fun y => ((y.readCases a v).map (.eq tag)).toTerm)
      (isOperand_toTerm_map (fun _ => rfl) _) hy hfamily
  · rw [splitAliases_register hr]
    exact isTree_register hl hfamily hr

include ha hv hx htag hxtag in
theorem IsTree.resolveCells (h : IsTree (IsCellOr family fun y => ((y.readCases a v).map (.eq tag)).toTerm) t) :
    IsTree (IsCellOr family fun y => ((y.readCases a v).map (resolve a v)).toTerm) ((revealRule a v x tag).apply t) := by
  refine h.apply (matchesAtoms_revealRule hx htag hxtag) (fun w hw => ?_) (fun w hw => ?_) fun w hw => ?_
  · rwa [apply_revealRule_of_not_mem hx htag hxtag (hw.not_mem_subterms htag.reserved)]
  · refine Rule.applyHead_of_none (replacementFor?_revealRule_none hx htag hxtag fun y heq => ?_)
    rcases hw with ⟨y', -, -, rfl⟩ | ⟨l, -, -, rfl⟩
    · cases hcases : y'.readCases a v <;> simp [hcases, Cases.map, Cases.toTerm, resolve] at heq
    · exact htag.ne_marker (Term.eq.inj heq).1.symm
  · rcases hw with ⟨y, hy, hfamily, rfl⟩ | ⟨l, hl, ⟨hfamily, hr⟩, rfl⟩
    · rw [apply_revealRule_cases ha hv hx htag hxtag (forall_readCases_plain ha hv hy)]
      exact isTree_cell (fun y => ((y.readCases a v).map (resolve a v)).toTerm)
        (isOperand_toTerm_map (fun _ => rfl) _) hy hfamily
    · rw [apply_revealRule_of_not_mem hx htag hxtag (not_mem_subterms_member htag hl.2)]
      exact isTree_register hl hfamily hr

include ha hv hx htag hxtag in
theorem IsTree.beforeStore (h : IsTree (IsMemberOf family) t) :
    IsTree (IsCellOr family fun y => ((y.readCases a v).map (resolve a v)).toTerm) (beforeStore t a v x tag) :=
  ((h.tagCells hx htag hxtag).splitCells ha hv htag).resolveCells ha hv hx htag hxtag

end

section
variable {family : Term → Prop} {s l v : Term}

/-- Parts that simplification makes sets of what a statement makes of the members of a family. -/
def IsImage (statement : Statement) (family : Term → Prop) (w : Term) : Prop :=
  w.NoPlaceholders ∧ IsTree (IsMemberOf (statement.before family)) w.simplify

theorem isTree_simplify_member {m : Term} (hm : m.IsLocation) (h : family m.simplify) :
    IsTree (IsMemberOf family) (member m).simplify := by
  rw [simplify_member hm.1]
  exact isTree_member hm.simplify h

theorem IsTree.image_beforeRegister {hidden : Term} (hr : l.isRegister = true) (hv : v.Plain)
    (hhidden : hidden.IsPlaceholder) (hs : IsTree (IsMemberOf family) s) :
    IsTree (IsImage (.assign l v) family) (ConditionalSet.beforeRegister s l v hidden) := by
  refine (hs.beforeRegister hr hhidden hv).imp fun w hw => ⟨hw.noPlaceholders, ?_⟩
  obtain ⟨m, hm, hfamily, rfl⟩ := hw
  refine isTree_simplify_member hm ?_
  rcases hfamily with ⟨hwatched, hdep⟩ | ⟨m', ⟨hm', hne⟩, rfl⟩
  · refine ⟨l, hwatched, ?_⟩
    rw [Statement.elementsBefore_register hr, if_pos rfl]
    exact List.mem_map_of_mem hdep
  · refine ⟨m', hm', ?_⟩
    rw [Statement.elementsBefore_register hr, if_neg hne]
    exact List.mem_singleton_self _

theorem IsTree.image_beforeStore {a x tag : Term} (ha : a.Plain) (hv : v.Plain) (hx : x.IsPlaceholder)
    (htag : tag.IsPlaceholder) (hxtag : x ≠ tag) (hs : IsTree (IsMemberOf family) s) :
    IsTree (IsImage (.assign (.mem a) v) family) (ConditionalSet.beforeStore s a v x tag) := by
  refine (hs.beforeStore ha hv hx htag hxtag).imp fun w hw => ?_
  rcases hw with ⟨y, hy, hfamily, rfl⟩ | ⟨m, hm, ⟨hfamily, hr⟩, rfl⟩
  · have hcases := isElementTree_cases ha hv hy
    refine ⟨hcases.isTree.noPlaceholders fun _ => IsMemberOf.noPlaceholders, ?_⟩
    exact hcases.simplify.isTree.imp_family fun d _ hd => ⟨.mem y, hfamily, hd⟩
  · refine ⟨isMarked_noPlaceholders.member hm.2.noPlaceholders, isTree_simplify_member hm ⟨m, hfamily, ?_⟩⟩
    obtain ⟨n, o, k, rfl⟩ := exists_of_isRegister hr
    exact List.mem_singleton_self _

theorem IsTree.exists_beforeAssignment (hs : IsTree (IsMemberOf family) s) (hl : l.IsLocation) (hv : v.Plain) :
    ∃ t, (∀ names, ∃ names', beforeAssignment s l v names = .ok (t, names')) ∧
      IsTree (IsImage (.assign l v) family) t := by
  have hset := hs.noPlaceholders fun _ => IsMemberOf.noPlaceholders
  obtain ⟨t, -, hbefore⟩ :=
    ConditionalSet.exists_beforeLvalue hset hl.2.noPlaceholders hv.noPlaceholders hl.1
  refine ⟨t, hbefore, ?_⟩
  obtain ⟨names', hfirst⟩ := hbefore ⟨0⟩
  rcases isLvalue_cases hl.1 with hr | ⟨a, rfl⟩
  · obtain ⟨n, o, k, rfl⟩ := exists_of_isRegister hr
    obtain ⟨rfl, -⟩ := Prod.mk.inj (Except.ok.inj hfirst)
    exact hs.image_beforeRegister rfl hv (Fresh.isPlaceholder_take (by simp) _)
  · obtain ⟨rfl, -⟩ := Prod.mk.inj (Except.ok.inj hfirst)
    exact hs.image_beforeStore ((plain_mem a).1 hl.2) hv (Fresh.isPlaceholder_take (by simp) _)
      (Fresh.isPlaceholder_take (by simp) _) (Fresh.take_ne (by simp) _)

end

end ConditionalSet
end Backslice
