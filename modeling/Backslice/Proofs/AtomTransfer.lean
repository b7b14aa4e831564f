import Backslice.Proofs.Closure

/-!
# Membership atoms before an assignment

What the sets before an assignment are made of: the image of each membership
atom, and of terms that do not mention the marker. A membership atom of the
assigned register becomes the set of what the value depends on. A membership
atom of another location, before a register is assigned, is that of the location
with the register replaced. Before a store, the atom of a memory cell becomes
a tree of cases, one for each way in which the address may read the stored cell.

The placeholders do not occur in plain terms, so that nothing but the hidden
atoms is brought back.
-/

namespace Backslice

open Term ConditionalSet

/-- A variable that is left to the analysis and is not the marker. -/
structure Term.IsPlaceholder (t : Term) : Prop where
  reserved : t.isReserved = true
  ne_marker : t ≠ marker

theorem Term.IsPlaceholder.isAtom {t : Term} (h : t.IsPlaceholder) : t.isAtom = true := by
  obtain ⟨n, rfl⟩ := exists_of_isReserved h.reserved
  rfl

/-- Whether no variable of a term is a placeholder. The marker may occur. -/
def Term.NoPlaceholders (t : Term) : Prop :=
  ∀ u ∈ t.subterms, ¬u.IsPlaceholder

theorem Term.noPlaceholders_iff (t : Term) :
    t.NoPlaceholders ↔ ¬t.IsPlaceholder ∧ ∀ c ∈ t.children, c.NoPlaceholders :=
  forall_subterms_iff t

theorem Term.Plain.noPlaceholders {t : Term} (h : t.Plain) : t.NoPlaceholders := fun _ hu hplaceholder =>
  h.not_mem_subterms hplaceholder.reserved hu

theorem Term.isMarked_noPlaceholders : IsMarked NoPlaceholders where
  toIsInherited := isInherited_forall_subterms fun t ht hplaceholder => by
    obtain ⟨n, rfl⟩ := exists_of_isReserved hplaceholder.reserved
    cases ht
  marker := (noPlaceholders_iff _).2 ⟨fun hplaceholder => hplaceholder.ne_marker rfl, nofun⟩

theorem Term.NoPlaceholders.dependencies {v : Term} (hv : v.NoPlaceholders) : (ofList v.dependencies).NoPlaceholders :=
  isMarked_noPlaceholders.ofList (isMarked_noPlaceholders.dependencies hv)

namespace Fresh

theorem isReserved_take (names : Fresh) (stem : String) : (names.take stem).1.isReserved = true := by
  change decide ('#' ∈ (stem ++ "#" ++ toString names.taken).toList) = true
  rw [decide_eq_true_eq, String.toList_append, String.toList_append]
  exact List.mem_append_left _ (List.mem_append_right _ (by decide))

theorem take_ne {stem name : String} (h : ∀ rest, stem.toList ++ '#' :: rest ≠ name.toList) (names : Fresh) :
    (names.take stem).1 ≠ .var name := by
  intro heq
  have hname : stem ++ "#" ++ toString names.taken = name := Term.var.inj heq
  refine h (toString names.taken).toList ?_
  rw [← hname, String.toList_append, String.toList_append, List.append_assoc]
  rfl

theorem isPlaceholder_take {stem : String} (h : ∀ rest, stem.toList ++ '#' :: rest ≠ "ELT#".toList) (names : Fresh) :
    (names.take stem).1.IsPlaceholder :=
  ⟨names.isReserved_take stem, take_ne h names⟩

end Fresh

namespace ConditionalSet

section
variable {r v hidden l : Term} (hr : r.isRegister = true) (hhidden : hidden.IsPlaceholder)

include hr in
theorem replace_member_self : (member r).replace (member r) hidden = hidden := by
  obtain ⟨n, o, k, rfl⟩ := exists_of_isRegister hr
  have hcell : (Term.reg n o k).replace (member (.reg n o k)) hidden = .reg n o k :=
    replace_of_not_mem (by simp [subterms, member])
  have hmark : marker.replace (member (.reg n o k)) hidden = marker :=
    replace_of_not_mem (by simp [marker, subterms, member])
  rw [replace_eq]
  simp only [member, children, List.map_cons, List.map_nil, updateChildren_eq] at hcell hmark ⊢
  rw [hcell, hmark, if_pos rfl]

theorem replace_member_of_ne (hl : l.Plain) (hne : l ≠ r) : (member l).replace (member r) hidden = member l := by
  refine replace_of_not_mem fun h => ?_
  rcases mem_subterms_member.1 h with h | h | h
  · exact hne (by simpa [member] using h.symm)
  · simp [member, marker] at h
  · exact member_not_mem hl r h

include hr in
theorem replace_register_member : (member l).replace r v = member (l.replace r v) := by
  have hmark : marker.replace r v = marker := by
    obtain ⟨n, o, k, rfl⟩ := exists_of_isRegister hr
    exact replace_of_not_mem (by simp [marker, subterms])
  rw [member, replace_register_eq hr, hmark, member]

include hr hhidden in
theorem replace_register_placeholder : hidden.replace r v = hidden := by
  obtain ⟨n, o, k, rfl⟩ := exists_of_isRegister hr
  obtain ⟨m, rfl⟩ := exists_of_isReserved hhidden.reserved
  exact replace_of_not_mem (by simp [subterms])

include hhidden in
theorem replace_placeholder (new : Term) : hidden.replace hidden new = new := by
  obtain ⟨m, rfl⟩ := exists_of_isReserved hhidden.reserved
  rw [replace_eq]
  simp [children, updateChildren]

include hhidden in
theorem not_mem_subterms_member (hl : l.Plain) : hidden ∉ (member l).subterms := by
  intro h
  rcases mem_subterms_member.1 h with h | h | h
  · have hreserved := hhidden.reserved
    simp [h, member, isReserved] at hreserved
  · exact hhidden.ne_marker h
  · exact hl.not_mem_subterms hhidden.reserved h

include hr hhidden

theorem beforeRegister_self : beforeRegister (member r) r v hidden = ofList v.dependencies := by
  rw [beforeRegister, replace_member_self hr, replace_register_placeholder hr hhidden,
    replace_placeholder hhidden]

theorem beforeRegister_member (hl : l.Plain) (hv : v.Plain) (hne : l ≠ r) :
    beforeRegister (member l) r v hidden = member (l.replace r v) := by
  rw [beforeRegister, replace_member_of_ne hl hne, replace_register_member hr,
    replace_of_not_mem (not_mem_subterms_member hhidden (hl.replace hv))]

omit hr in
theorem beforeRegister_of_plain {t : Term} (ht : t.Plain) (hv : v.Plain) :
    beforeRegister t r v hidden = t.replace r v := by
  rw [beforeRegister, replace_of_not_mem (member_not_mem ht r),
    replace_of_not_mem ((ht.replace hv).not_mem_subterms hhidden.reserved)]

end

/-- Hides the membership atoms of memory cells. -/
def maskRule (x tag : Term) : Rule :=
  ⟨member (.mem x), [x], .eq tag x⟩

/-- Brings back the hidden atoms, split on whether the cell is the stored one. -/
def revealRule (a v x tag : Term) : Rule :=
  ⟨.eq tag x, [x], .ite (.eq a x) (ofList v.dependencies) (member (.mem x))⟩

theorem beforeStore_eq (s : ConditionalSet) (a v x tag : Term) :
    s.beforeStore a v x tag = (revealRule a v x tag).apply (((maskRule x tag).apply s).splitAliases a v).1 := rfl

section
variable {x tag : Term}

theorem matchWith?_var_eq {m : String} (hx : x.IsPlaceholder) (hm : Term.var m ≠ x) (q a b : Term) :
    matchWith? (.eq (.var m) q) [x] (.eq a b) [] =
      if Term.eq (.var m) q = .eq a b then some [] else if .var m = a then matchWith? q [x] b [] else none := by
  obtain ⟨n, rfl⟩ := exists_of_isReserved hx.reserved
  rw [matchWith?.eq_def, if_neg (by simp)]
  split
  next => rfl
  next =>
    dsimp only
    rw [matchWith?_var (by simpa using hm)]
    split <;> rfl

theorem matchWith?_eq_none (hx : x.IsPlaceholder) {p q t : Term} (ht : ∀ a b, t ≠ .eq a b) :
    matchWith? (.eq p q) [x] t [] = none := by
  obtain ⟨n, rfl⟩ := exists_of_isReserved hx.reserved
  rw [matchWith?.eq_def, if_neg (by simp), if_neg fun h => ht p q h.symm]
  cases t <;> first | rfl | exact absurd rfl (ht _ _)

variable (hx : x.IsPlaceholder) (htag : tag.IsPlaceholder) (hxtag : x ≠ tag)
include hx

theorem replacementFor?_maskRule_none {t : Term} (ht : ∀ y, t ≠ member (.mem y)) :
    (maskRule x tag).replacementFor? t = none := by
  rw [Rule.replacementFor?_eq, Option.map_eq_none_iff]
  by_cases heq : ∃ a b, t = .eq a b
  · obtain ⟨a, b, rfl⟩ := heq
    rw [maskRule, member, marker, matchWith?_var_eq hx hx.ne_marker.symm, if_neg fun h => ht x h.symm]
    split
    next ha =>
      obtain ⟨n, rfl⟩ := exists_of_isReserved hx.reserved
      rw [matchWith?.eq_def, if_neg (by simp), if_neg fun hb => ht (.var n) (by rw [← ha, ← hb]; rfl)]
      cases b <;> first | rfl | exact absurd (by rw [← ha]; rfl) (ht _)
    next => rfl
  · exact matchWith?_eq_none hx fun a b h => heq ⟨a, b, h⟩

include htag hxtag in
theorem replacementFor?_maskRule {y : Term} (hy : y ≠ x) :
    (maskRule x tag).replacementFor? (member (.mem y)) = some (.eq tag y) := by
  obtain ⟨n, rfl⟩ := exists_of_isReserved hx.reserved
  obtain ⟨m, rfl⟩ := exists_of_isReserved htag.reserved
  rw [Rule.replacementFor?_eq, maskRule, member, member, marker, matchWith?_var_eq hx hx.ne_marker.symm,
    if_neg (by simpa using hy.symm), if_pos rfl, matchWith?.eq_def, if_neg (by simp), if_neg (by simpa using hy.symm)]
  dsimp only
  rw [matchWith?_free (by simp), Option.map_some, instantiate_of_ne (by simp)]
  simp [children, instantiate_self, instantiate_of_not_mem, subterms, hxtag]

theorem matchesAtoms_maskRule : (maskRule x tag).MatchesAtoms := fun u hu =>
  replacementFor?_maskRule_none hx fun y h => by
    rw [h] at hu
    exact Bool.false_ne_true hu.symm

include htag hxtag

theorem replacementFor?_revealRule_none {a v t : Term} (ht : ∀ y, t ≠ .eq tag y) :
    (revealRule a v x tag).replacementFor? t = none := by
  obtain ⟨m, rfl⟩ := exists_of_isReserved htag.reserved
  rw [Rule.replacementFor?_eq, Option.map_eq_none_iff, revealRule]
  by_cases heq : ∃ b c, t = .eq b c
  · obtain ⟨b, c, rfl⟩ := heq
    rw [matchWith?_var_eq hx hxtag.symm, if_neg fun h => ht x h.symm, if_neg fun h => ht c (by rw [h])]
  · exact matchWith?_eq_none hx fun b c h => heq ⟨b, c, h⟩

theorem matchesAtoms_revealRule {a v : Term} : (revealRule a v x tag).MatchesAtoms := fun u hu =>
  replacementFor?_revealRule_none hx htag hxtag fun y h => by
    rw [h] at hu
    exact Bool.false_ne_true hu.symm

theorem replacementFor?_revealRule {a v y : Term} (ha : a.NoPlaceholders) (hv : v.NoPlaceholders) (hy : y ≠ x) :
    (revealRule a v x tag).replacementFor? (.eq tag y) =
      some (.ite (.eq a y) (ofList v.dependencies) (member (.mem y))) := by
  have hset : x ∉ (ofList v.dependencies).subterms := fun h => hv.dependencies x h hx
  have hax : x ∉ a.subterms := fun h => ha x h hx
  obtain ⟨n, rfl⟩ := exists_of_isReserved hx.reserved
  obtain ⟨m, rfl⟩ := exists_of_isReserved htag.reserved
  rw [Rule.replacementFor?_eq, revealRule, matchWith?_var_eq hx hxtag.symm, if_neg (by simpa using hy.symm),
    if_pos rfl, matchWith?_free (by simp), Option.map_some, instantiate_of_ne (by simp)]
  simp only [children, List.map_cons, List.map_nil, updateChildren_ite, instantiate_of_not_mem hset]
  rw [member, instantiate_of_ne (t := .eq a _) (by simp), instantiate_of_ne (t := .eq marker _) (by simp)]
  simp only [children, List.map_cons, List.map_nil, updateChildren_eq, instantiate_self, instantiate_of_not_mem hax]
  rw [instantiate_of_ne (t := .mem _) (by simp),
    instantiate_of_not_mem (t := marker) (by simpa [marker, subterms] using hx.ne_marker)]
  simp only [children, List.map_cons, List.map_nil, updateChildren_mem, instantiate_self, member]

end

section
variable {a v x tag : Term} (ha : a.Plain) (hv : v.Plain) (hx : x.IsPlaceholder) (htag : tag.IsPlaceholder)
  (hxtag : x ≠ tag)

theorem splitAliases_register {r : Term} (hr : r.isRegister = true) :
    (member r).splitAliases a v = (member r, false) := by
  obtain ⟨n, o, k, rfl⟩ := exists_of_isRegister hr
  rw [member, splitAliases_eq]
  rfl

theorem apply_maskRule_of_not_mem (hx : x.IsPlaceholder) {t : Term}
    (ht : ∀ y, member (.mem y) ∉ t.subterms) : (maskRule x tag).apply t = t :=
  Rule.apply_of_forall fun _ hu => replacementFor?_maskRule_none hx fun y h => ht y (h ▸ hu)

include hx htag hxtag in
theorem apply_revealRule_of_not_mem {t : Term} (ht : tag ∉ t.subterms) : (revealRule a v x tag).apply t = t := by
  refine Rule.apply_of_forall fun u hu => replacementFor?_revealRule_none hx htag hxtag fun y h => ht ?_
  exact mem_subterms_trans (h ▸ hu) (by simp [subterms, mem_subterms_self])

include hx htag hxtag

theorem beforeStore_of_plain {t : Term} (ht : t.Plain)
    (hsplit : (t.splitAliases a v).1.Plain) : beforeStore t a v x tag = (t.splitAliases a v).1 := by
  rw [beforeStore_eq, apply_maskRule_of_not_mem hx fun y => member_not_mem ht _]
  exact apply_revealRule_of_not_mem hx htag hxtag (hsplit.not_mem_subterms htag.reserved)

theorem beforeStore_register {r : Term}
    (hr : r.isRegister = true) : beforeStore (member r) a v x tag = member r := by
  obtain ⟨n, o, k, rfl⟩ := exists_of_isRegister hr
  obtain ⟨m, rfl⟩ := exists_of_isReserved htag.reserved
  rw [beforeStore_eq, apply_maskRule_of_not_mem hx (by simp [member, subterms, marker]),
    splitAliases_register rfl]
  exact apply_revealRule_of_not_mem hx htag hxtag (by simpa [member, subterms, marker] using htag.ne_marker)

theorem apply_maskRule_member {y : Term} (hy : y.Plain) :
    (maskRule x tag).apply (member (.mem y)) = .eq tag y := by
  have hmark : (maskRule x tag).apply marker = marker :=
    apply_maskRule_of_not_mem hx (by simp [marker, subterms, member])
  have hcell : (maskRule x tag).apply (.mem y) = .mem y :=
    apply_maskRule_of_not_mem hx fun z => member_not_mem ((plain_mem y).2 hy) _
  rw [Rule.apply_eq, member]
  simp only [children, List.map_cons, List.map_nil, hmark, hcell, updateChildren_eq]
  rw [← member, Rule.applyHead, replacementFor?_maskRule hx htag hxtag
    fun h => hy.not_mem_subterms hx.reserved (h ▸ mem_subterms_self y)]
  rfl

/-- What a membership atom of a memory cell at `y` becomes. -/
def resolve (a v y : Term) : ConditionalSet :=
  .ite (.eq a y) (ofList v.dependencies) (member (.mem y))

include ha hv

theorem apply_revealRule_eq {y : Term} (hy : y.Plain) :
    (revealRule a v x tag).apply (.eq tag y) = resolve a v y := by
  have hkeep : (revealRule a v x tag).apply y = y :=
    apply_revealRule_of_not_mem hx htag hxtag (hy.not_mem_subterms htag.reserved)
  have htagkeep : (revealRule a v x tag).apply tag = tag := by
    refine Rule.apply_of_forall fun u hu => replacementFor?_revealRule_none hx htag hxtag fun y h => ?_
    obtain ⟨m, rfl⟩ := exists_of_isReserved htag.reserved
    simp [subterms, h] at hu
  rw [Rule.apply_eq]
  simp only [children, List.map_cons, List.map_nil, htagkeep, hkeep, updateChildren_eq]
  rw [Rule.applyHead, replacementFor?_revealRule hx htag hxtag ha.noPlaceholders hv.noPlaceholders
    fun h => hy.not_mem_subterms hx.reserved (h ▸ mem_subterms_self y)]
  rfl

theorem apply_revealRule_cases {cases : Cases}
    (hcases : cases.Forall Plain Plain) :
    (revealRule a v x tag).apply (cases.map (.eq tag)).toTerm = (cases.map (resolve a v)).toTerm := by
  induction cases with
  | leaf y => exact apply_revealRule_eq ha hv hx htag hxtag hcases
  | split c p q ihp ihq =>
      have hkeep : (revealRule a v x tag).apply c = c :=
        apply_revealRule_of_not_mem hx htag hxtag (hcases.1.not_mem_subterms htag.reserved)
      rw [Cases.map, Cases.toTerm, Rule.apply_eq]
      simp only [children, List.map_cons, List.map_nil, hkeep, ihp hcases.2.1, ihq hcases.2.2, updateChildren_ite]
      rw [Rule.applyHead_of_none (replacementFor?_revealRule_none hx htag hxtag (by simp))]
      rfl

omit ha hv hx hxtag in
theorem splitAliases_placeholder (y : Term) :
    (Term.eq tag y).splitAliases a v =
      (((y.readCases a v).map (.eq tag)).toTerm, ((y.readCases a v).map (.eq tag)).isSplit) := by
  obtain ⟨m, rfl⟩ := exists_of_isReserved htag.reserved
  rw [splitAliases_eq]
  rfl

theorem beforeStore_mem {y : Term} (hy : y.Plain) :
    beforeStore (member (.mem y)) a v x tag = ((y.readCases a v).map (resolve a v)).toTerm := by
  rw [beforeStore_eq, apply_maskRule_member hx htag hxtag hy, splitAliases_placeholder htag,
    apply_revealRule_cases ha hv hx htag hxtag (forall_readCases_plain ha hv hy)]

end

theorem before_assign {set t : ConditionalSet} {options : Options} {arrow : Arrow} {l v : Term} {names names' : Fresh}
    (harrow : arrow.statement = .assign l v) (h : set.beforeAssignment l v names = .ok (t, names')) :
    set.before options arrow names = .ok ((t.underGuard options arrow.guard).normalize options, names') := by
  rw [before, harrow]
  simp only [h]
  rfl

end ConditionalSet
end Backslice
