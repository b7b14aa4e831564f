import Backslice.Proofs.AtomTransfer
import Mathlib

/-!
# Bound variables

A quantified term that is built by its constructor binds a variable. Where
children are replaced it is put together anew without a look at the new bound
term, so that anything may come to stand there. When it does can be said: a
quantified term is rebuilt with another first child than a variable, or a bound
variable is replaced by something else, in the term in which terms are replaced
or in a replacement into which terms are put. Simplification, case splits and
the rules that hide atoms leave variables where they are bound.

Sets in front of an arrow are made by three such steps. Only the last one, which
puts elements in the place of a placeholder, could rebind, if the placeholder
were bound. It is not, where it is new.
-/

namespace Backslice

open Term

namespace Term

/-- Whether everything that is bound in a term is of a kind. -/
def BindsOnly (kind : Term → Prop) (t : Term) : Prop :=
  ∀ u ∈ t.subterms, ∀ q x b, u = .quantified q x b → kind x

/-- Whether everything that is bound in a term is a variable. -/
def BindsVariables (t : Term) : Prop :=
  t.BindsOnly (·.isVariable = true)

section
variable {kind : Term → Prop}

theorem isKeptBySets_bindsOnly (kind : Term → Prop) : IsKeptBySets (BindsOnly kind) where
  toIsClosed := isClosed_forall_subterms fun t ht q x b heq => by
    subst heq
    cases ht
  ite hc ha hb := (forall_subterms_iff _).2 ⟨nofun, by simpa [children] using ⟨hc, ha, hb⟩⟩
  child ht hc := ((forall_subterms_iff _).1 ht).2 _ hc
  marker u hu q x b heq := by
    rw [List.mem_singleton.1 hu] at heq
    cases heq

theorem bindsOnly_quantified {q : Quantifier} {x b : Term} :
    (Term.quantified q x b).BindsOnly kind ↔ kind x ∧ x.BindsOnly kind ∧ b.BindsOnly kind := by
  refine (forall_subterms_iff _).trans (and_congr ?_ (by simp [children, BindsOnly]))
  exact ⟨fun h => h q x b rfl, fun h _ _ _ heq => by cases heq; exact h⟩

theorem BindsOnly.bound {t : Term} (h : t.BindsOnly kind) {q : Quantifier} {x b : Term}
    (hq : .quantified q x b ∈ t.subterms) : kind x :=
  h _ hq q x b rfl

theorem bindsOnly_leaf {t : Term} (hnone : t.children = []) : t.BindsOnly kind :=
  (forall_subterms_iff t).2 ⟨fun q x b heq => (by simp [heq, children] at hnone), by simp [hnone]⟩

theorem BindsOnly.imp {kind' : Term → Prop} {t : Term} (h : t.BindsOnly kind)
    (himp : ∀ x ∈ t.subterms, kind x → kind' x) : t.BindsOnly kind' := by
  intro u hu q x b heq
  subst heq
  exact himp x (mem_subterms_trans hu (mem_subterms_of_mem_children (by simp [children]) (mem_subterms_self x)))
    (h.bound hu)

end

theorem IsPlaceholder.bindsOnly {kind : Term → Prop} {t : Term} (h : t.IsPlaceholder) : t.BindsOnly kind := by
  obtain ⟨n, rfl⟩ := exists_of_isReserved h.reserved
  exact bindsOnly_leaf rfl

theorem exists_of_isVariable {t : Term} (h : t.isVariable = true) : ∃ n, t = .var n := by
  cases t <;> first | exact ⟨_, rfl⟩ | exact absurd h Bool.false_ne_true

theorem BindsVariables.simplify {t : Term} (ht : t.BindsVariables) : t.simplify.BindsVariables := by
  refine (isKeptBySets_bindsOnly _).simplify_of_quantified (fun u hu => ?_) fun q x b hq b' _ hb' => ?_
  · obtain ⟨-, hsymbol⟩ := mem_symbols_iff.1 hu
    exact bindsOnly_leaf (by cases u <;> first | rfl | cases hsymbol)
  · obtain ⟨n, rfl⟩ := exists_of_isVariable (ht.bound hq)
    exact bindsOnly_quantified.2 ⟨rfl, bindsOnly_leaf rfl, hb'⟩

theorem BindsVariables.splitAliases {t a v : Term} (ht : t.BindsVariables) (ha : a.BindsVariables)
    (hv : v.BindsVariables) : (t.splitAliases a v).1.BindsVariables := by
  refine (isKeptBySets_bindsOnly _).splitAliases_of_quantified ha hv ht fun q x b hq b' hb' => ?_
  obtain ⟨n, rfl⟩ := exists_of_isVariable (ht.bound hq)
  exact bindsOnly_quantified.2 ⟨rfl, bindsOnly_leaf rfl, hb'⟩

/-- Whether a quantified term is rebuilt with another first child than a variable. -/
def RebindsWith (cs : List Term) (t : Term) : Prop :=
  ∃ q x b bound body rest, t = .quantified q x b ∧ cs = bound :: body :: rest ∧ bound.isVariable = false

theorem forall_rebuild?_iff {t : Term} (ht : t.BindsVariables) {cs : List Term} (hcs : ∀ c ∈ cs, c.BindsVariables) :
    (∀ u ∈ (t.rebuild? cs).toOption.toList, u.BindsVariables) ↔ ¬t.RebindsWith cs := by
  constructor
  · rintro hall ⟨q, x, b, bound, body, rest, rfl, rfl, hbound⟩
    have hbinds := hall (.quantified q bound body)
      (by simp [rebuild?, arity, withChildren, Except.toOption])
    simp [bindsOnly_quantified, BindsVariables, hbound] at hbinds
  · intro h
    unfold rebuild?
    split
    next => simp [Except.toOption]
    next hlength =>
      refine List.forall_mem_singleton.2 ((isKeptBySets_bindsOnly _).withChildren_of_quantified ht hcs ?_)
      rintro q x b rfl
      rcases cs with _ | ⟨bound, _ | ⟨body, rest⟩⟩
      · simp [arity] at hlength
      · simp [arity] at hlength
      · refine bindsOnly_quantified.2 ⟨?_, hcs bound (by simp), hcs body (by simp)⟩
        by_contra hvar
        exact h ⟨q, x, b, bound, body, rest, rfl, rfl, by simpa using hvar⟩

/-- Whether something else than a variable is put in the place of a bound term, where bound terms are replaced. -/
def Rebinds (bindings : Bindings) (t : Term) : Prop :=
  ∃ q x b, .quantified q x b ∈ t.opened bindings ∧ (x.instantiate bindings).isVariable = false

end Term

/-- Whether something else than a variable is put in the place of a bound term, where a rule is applied: in the term, or
in a replacement. -/
def Rule.Rebinds (rule : Rule) (t : Term) : Prop :=
  (∃ q x b, .quantified q x b ∈ t.subterms ∧ (rule.apply x).isVariable = false) ∨
    ∃ u ∈ t.subterms, ∃ bindings, rule.pattern.matchWith? rule.free (rule.applyInside u) [] = some bindings ∧
      rule.replacement.Rebinds bindings

namespace Term

variable {bindings : Bindings} {t : Term}

theorem Rebinds.exists_build (h : t.Rebinds bindings) : ∃ u ∈ t.instantiateBuilds bindings, ¬u.BindsVariables := by
  obtain ⟨q, x, b, hq, hx⟩ := h
  refine ⟨_, mem_instantiateBuilds_iff.2 ⟨_, hq, rfl⟩, fun hbinds => ?_⟩
  rw [instantiate_eq, lookup_of_mem_opened hq] at hbinds
  simp [children, bindsOnly_quantified, BindsVariables, hx] at hbinds

theorem keepsQuantified_of_not_rebinds (h : ¬t.Rebinds bindings) : t.KeepsQuantified BindsVariables bindings := by
  intro q x b hq b' hx hb'
  refine bindsOnly_quantified.2 ⟨?_, hx, hb'⟩
  by_contra hvar
  exact h ⟨q, x, b, hq, by simpa using hvar⟩

theorem forall_instantiateBuilds_iff (hbound : ∀ e ∈ bindings, e.2.BindsVariables) (ht : t.BindsVariables) :
    (∀ u ∈ t.instantiateBuilds bindings ++ [t.instantiate bindings], u.BindsVariables) ↔ ¬t.Rebinds bindings := by
  have hkept := isKeptBySets_bindsOnly (·.isVariable = true)
  constructor
  · intro hall hrebinds
    obtain ⟨u, hu, hbinds⟩ := hrebinds.exists_build
    exact hbinds (hall u (List.mem_append_left _ hu))
  · intro h
    have hquantified := keepsQuantified_of_not_rebinds h
    exact List.forall_mem_append.2 ⟨hkept.instantiateBuilds_of_quantified hbound ht hquantified,
      List.forall_mem_singleton.2 (hkept.instantiate_of_quantified hbound ht hquantified)⟩

end Term

namespace Rule

variable {rule : Rule} {t : Term}

theorem Rebinds.exists_build (h : rule.Rebinds t) : ∃ u ∈ rule.replaceAllBuilds t, ¬u.BindsVariables := by
  rcases h with ⟨q, x, b, hq, hx⟩ | ⟨u, hu, bindings, hfound, hrebinds⟩
  · refine ⟨_, mem_replaceAllBuilds_iff.2 ⟨_, hq, Or.inl rfl⟩, fun hbinds => ?_⟩
    simp [applyInside, children, bindsOnly_quantified, BindsVariables, hx] at hbinds
  · obtain ⟨w, hw, hbinds⟩ := hrebinds.exists_build
    exact ⟨w, mem_replaceAllBuilds_iff.2 ⟨u, hu, Or.inr ⟨bindings, hfound, hw⟩⟩, hbinds⟩

theorem keepsQuantified_of_not_rebinds (h : ¬rule.Rebinds t) : rule.KeepsQuantified BindsVariables t where
  inside q x b hq b' hx hb' := by
    refine bindsOnly_quantified.2 ⟨?_, hx, hb'⟩
    by_contra hvar
    exact h (Or.inl ⟨q, x, b, hq, by simpa using hvar⟩)
  replaced u hu bindings hfound :=
    Term.keepsQuantified_of_not_rebinds fun hrebinds => h (Or.inr ⟨u, hu, bindings, hfound, hrebinds⟩)

/-- Applying a rule makes nothing that binds anything else than variables, if and only if it does not rebind. -/
theorem forall_replaceAllBuilds_iff (hrule : rule.replacement.BindsVariables) (ht : t.BindsVariables) :
    (∀ u ∈ rule.replaceAllBuilds t ++ [rule.apply t], u.BindsVariables) ↔ ¬rule.Rebinds t := by
  have hkept := isKeptBySets_bindsOnly (·.isVariable = true)
  constructor
  · intro hall hrebinds
    obtain ⟨u, hu, hbinds⟩ := hrebinds.exists_build
    exact hbinds (hall u (List.mem_append_left _ hu))
  · intro h
    have hquantified := keepsQuantified_of_not_rebinds h
    exact List.forall_mem_append.2 ⟨hkept.replaceAllBuilds_of_quantified hrule ht hquantified,
      List.forall_mem_singleton.2 (hkept.apply_of_quantified hrule ht hquantified).2⟩

end Rule

namespace Rule

/-- Whether a rule leaves variables of a kind where they are bound, be it in the term or in the replacement. -/
structure SparesBound (rule : Rule) (kind : Term → Prop) : Prop where
  isVariable {x : Term} : kind x → x.isVariable = true
  apply_eq {x : Term} : kind x → rule.apply x = x
  replacement : rule.replacement.BindsOnly fun x => kind x ∧ x ∉ rule.free

theorem mem_free_of_matchWith? {pattern t : Term} {free : List Term} {found : Bindings}
    (h : pattern.matchWith? free t [] = some found) : ∀ e ∈ found, e.1 ∈ free := by
  refine Term.preserved_of_matchWith? (P := fun bs => ∀ e ∈ bs, e.1 ∈ free) (Q := fun _ => True)
    (fun _ _ _ _ => trivial) ?_ trivial h (by simp)
  exact fun x hx t b found _ hfound hb => IsHandedDown.forall_bind? (Q := fun e => e.1 ∈ free) hx hb hfound

namespace SparesBound

variable {rule : Rule} {kind : Term → Prop} {t : Term} (h : rule.SparesBound kind)
include h

theorem instantiate_eq {u : Term} {bindings : Bindings}
    (hfound : rule.pattern.matchWith? rule.free u [] = some bindings) {q : Quantifier} {x b : Term}
    (hq : .quantified q x b ∈ rule.replacement.opened bindings) :
    kind x ∧ x.instantiate bindings = x := by
  obtain ⟨hx, hfree⟩ := h.replacement.bound (mem_subterms_of_mem_opened hq)
  obtain ⟨n, rfl⟩ := exists_of_isVariable (h.isVariable hx)
  refine ⟨hx, ?_⟩
  cases hlookup : bindings.lookup (.var n) with
  | none =>
      rw [Term.instantiate_eq, hlookup]
      exact updateChildren_children (.var n)
  | some u =>
      obtain ⟨before, after, rfl, -⟩ := List.lookup_eq_some_iff.1 hlookup
      exact absurd (mem_free_of_matchWith? hfound (.var n, u) (by simp)) hfree

theorem not_rebinds (ht : t.BindsOnly kind) : ¬rule.Rebinds t := by
  rintro (⟨q, x, b, hq, hx⟩ | ⟨u, -, bindings, hfound, q, x, b, hq, hx⟩)
  · rw [h.apply_eq (ht.bound hq), h.isVariable (ht.bound hq)] at hx
    cases hx
  · obtain ⟨hkind, hself⟩ := h.instantiate_eq hfound hq
    rw [hself, h.isVariable hkind] at hx
    cases hx

theorem apply (ht : t.BindsOnly kind) : (rule.apply t).BindsOnly kind := by
  have hrule : rule.replacement.BindsOnly kind := h.replacement.imp fun _ _ hx => hx.1
  refine ((isKeptBySets_bindsOnly kind).apply_of_quantified hrule ht ?_).2
  constructor
  · intro q x b hq b' hx hb'
    rw [h.apply_eq (ht.bound hq)] at hx ⊢
    exact bindsOnly_quantified.2 ⟨ht.bound hq, hx, hb'⟩
  · intro u _ bindings hfound q x b hq b' hx hb'
    obtain ⟨hkind, hself⟩ := h.instantiate_eq hfound hq
    rw [hself] at hx ⊢
    exact bindsOnly_quantified.2 ⟨hkind, hx, hb'⟩

end SparesBound

theorem sparesBound_replace {kind : Term → Prop} {old new : Term} (hkind : ∀ {x : Term}, kind x → x.isVariable = true)
    (hold : ¬kind old) (hnew : new.BindsOnly kind) : SparesBound ⟨old, [], new⟩ kind where
  isVariable := hkind
  apply_eq {x} hx := by
    obtain ⟨n, rfl⟩ := exists_of_isVariable (hkind hx)
    refine replace_of_not_mem fun hmem => hold ?_
    exact List.mem_singleton.1 hmem ▸ hx
  replacement := hnew.imp fun _ _ hx => ⟨hx, List.not_mem_nil⟩

theorem sparesBound_maskRule {x tag : Term} (hx : x.IsPlaceholder) (htag : tag.IsPlaceholder) :
    (ConditionalSet.maskRule x tag).SparesBound (·.isVariable = true) where
  isVariable := id
  apply_eq {y} hy := by
    obtain ⟨n, rfl⟩ := exists_of_isVariable hy
    exact ConditionalSet.apply_maskRule_of_not_mem hx (by simp [subterms, ConditionalSet.member])
  replacement := (isKeptBySets_bindsOnly _).eq htag.bindsOnly hx.bindsOnly

theorem sparesBound_revealRule {a v x tag : Term} (hx : x.IsPlaceholder) (htag : tag.IsPlaceholder) (hxtag : x ≠ tag)
    (ha : a.BindsOnly fun y => y.isVariable = true ∧ y ≠ x) (hv : v.BindsOnly fun y => y.isVariable = true ∧ y ≠ x) :
    (ConditionalSet.revealRule a v x tag).SparesBound (·.isVariable = true) where
  isVariable := id
  apply_eq {y} hy := by
    obtain ⟨n, rfl⟩ := exists_of_isVariable hy
    refine apply_of_forall fun u hu => ConditionalSet.replacementFor?_revealRule_none hx htag hxtag fun z hz => ?_
    rw [hz] at hu
    simp [subterms] at hu
  replacement := by
    refine ((isKeptBySets_bindsOnly _).resolved ha hv hx.bindsOnly).imp fun y _ hy => ⟨hy.1, ?_⟩
    exact fun hmem => hy.2 (List.mem_singleton.1 hmem)

end Rule

namespace ConditionalSet

/-- Whether something else than a variable is put in the place of a bound term, where a set is passed backward through a
statement. Only the placeholder that was bound can be. -/
def RebindsBefore (s : ConditionalSet) (statement : Statement) (names : Fresh) : Prop :=
  match statement with
  | .assign (.reg name offset size) v =>
      let hidden := (names.take "TMP").1
      Rule.Rebinds ⟨hidden, [], ofList v.dependencies⟩
        (Term.replace (s.replace (member (.reg name offset size)) hidden) (.reg name offset size) v)
  | .assign (.mem a) v =>
      let (x, names) := names.take "X"
      let tag := (names.take "ELT_ADDR").1
      (revealRule a v x tag).Rebinds (((maskRule x tag).apply s).splitAliases a v).1
  | _ => False

section
variable {s v : Term} (hs : s.BindsVariables) (hv : v.BindsVariables)
include hs hv

/-- Before a register is assigned, only the last of three replacements can rebind. -/
theorem forall_beforeRegister {n : String} {o size : UInt16} {hidden : Term} (hhidden : hidden.IsPlaceholder)
    (h : ¬Rule.Rebinds ⟨hidden, [], ofList v.dependencies⟩
      ((s.replace (member (.reg n o size)) hidden).replace (.reg n o size) v)) :
    ∀ u ∈ beforeRegisterBuilds s (.reg n o size) v hidden ++ [beforeRegister s (.reg n o size) v hidden],
      u.BindsVariables := by
  have hkept := isKeptBySets_bindsOnly (·.isVariable = true)
  have hhidden' : hidden.BindsVariables := hhidden.bindsOnly
  have hmember : (member (.reg n o size)).BindsVariables := hkept.member (bindsOnly_leaf rfl)
  -- The first two replacements look for terms that are no variables.
  have hmask : Rule.SparesBound ⟨member (.reg n o size), [], hidden⟩ (·.isVariable = true) :=
    Rule.sparesBound_replace id (by simp [member, isVariable]) hhidden'
  have hmove : Rule.SparesBound ⟨.reg n o size, [], v⟩ (·.isVariable = true) :=
    Rule.sparesBound_replace id (by simp [isVariable]) hv
  have hmasked : (Term.replace s (member (.reg n o size)) hidden).BindsVariables := hmask.apply hs
  have hmaskBuilds := (Rule.forall_replaceAllBuilds_iff hhidden' hs).2 (hmask.not_rebinds hs)
  have hmoveBuilds := (Rule.forall_replaceAllBuilds_iff hv hmasked).2 (hmove.not_rebinds hmasked)
  have hdependencies : (Rule.mk hidden [] (ofList v.dependencies)).replacement.BindsVariables :=
    hkept.ofList (hkept.dependencies hv)
  have hlast := (Rule.forall_replaceAllBuilds_iff hdependencies (hmove.apply hmasked)).2 h
  rw [beforeRegisterBuilds]
  simp only [List.forall_mem_append, List.forall_mem_cons] at hmaskBuilds hmoveBuilds hlast ⊢
  exact ⟨⟨⟨⟨⟨hhidden', hmember, by simp⟩, hmaskBuilds.1⟩, hmoveBuilds.1⟩, hlast.1⟩, hlast.2⟩

theorem forall_beforeStore {a x tag : Term} (ha : a.BindsVariables) (hx : x.IsPlaceholder) (htag : tag.IsPlaceholder)
    (h : ¬(revealRule a v x tag).Rebinds (((maskRule x tag).apply s).splitAliases a v).1) :
    ∀ u ∈ beforeStoreBuilds s a v x tag ++ [beforeStore s a v x tag], u.BindsVariables := by
  have hkept := isKeptBySets_bindsOnly (·.isVariable = true)
  have hx' : x.BindsVariables := hx.bindsOnly
  have htag' : tag.BindsVariables := htag.bindsOnly
  have hresolved : (revealRule a v x tag).replacement.BindsVariables := hkept.resolved ha hv hx'
  have hhidden : (maskRule x tag).replacement.BindsVariables := hkept.eq htag' hx'
  have hmask := Rule.sparesBound_maskRule hx htag
  have hmasked : ((maskRule x tag).apply s).BindsVariables := hmask.apply hs
  have hmaskBuilds := (Rule.forall_replaceAllBuilds_iff hhidden hs).2 (hmask.not_rebinds hs)
  have hsplitBuilds := hkept.splitAliasesBuilds_of_splitAliases ha hv (fun ht => BindsVariables.splitAliases ht ha hv)
    hmasked
  have hlast := (Rule.forall_replaceAllBuilds_iff hresolved (hmasked.splitAliases ha hv)).2 h
  rw [beforeStoreBuilds]
  simp only [List.forall_mem_append, List.forall_mem_cons] at hmaskBuilds hlast ⊢
  exact ⟨⟨⟨⟨⟨⟨hx', htag', hkept.mem hx', hkept.member (hkept.mem hx'), hhidden, by simp⟩, hmaskBuilds.1⟩,
    hsplitBuilds⟩, hkept.eq ha hx', hresolved, by simp⟩, hlast.1⟩, hlast.2⟩

theorem forall_beforeAssignment {location : Term} (hlocation : location.BindsVariables) {names : Fresh}
    (h : ¬RebindsBefore s (.assign location v) names) :
    ∀ u ∈ beforeAssignmentBuilds s location v names ++
      ((beforeAssignment s location v names).toOption.map (·.1)).toList, u.BindsVariables := by
  have hkept := isKeptBySets_bindsOnly (·.isVariable = true)
  have hbuilt : ∀ u ∈ ofListBuilds v.dependencies, u.BindsVariables := hkept.ofListBuilds (hkept.dependencies hv)
  unfold beforeAssignmentBuilds
  rw [List.append_assoc]
  refine List.forall_mem_append.2 ⟨hbuilt, ?_⟩
  cases location with
  | reg n o size => exact forall_beforeRegister hs hv (Fresh.isPlaceholder_take (by simp) names) h
  | mem a =>
      exact forall_beforeStore hs hv (hkept.child hlocation (by simp [children]))
        (Fresh.isPlaceholder_take (by simp) names) (Fresh.isPlaceholder_take (by simp) _) h
  | _ => simp [beforeAssignment, Except.toOption]

end

/-- A placeholder that is bound nowhere is not replaced where it is bound. -/
theorem not_rebinds_beforeRegister {s v : Term} {n : String} {o size : UInt16} {hidden : Term}
    (hs : s.BindsOnly fun y => y.isVariable = true ∧ y ≠ hidden)
    (hv : v.BindsOnly fun y => y.isVariable = true ∧ y ≠ hidden) (hhidden : hidden.IsPlaceholder) :
    ¬Rule.Rebinds ⟨hidden, [], ofList v.dependencies⟩
      ((s.replace (member (.reg n o size)) hidden).replace (.reg n o size) v) := by
  have hkept := isKeptBySets_bindsOnly fun y => y.isVariable = true ∧ y ≠ hidden
  have hmask : Rule.SparesBound ⟨member (.reg n o size), [], hidden⟩ fun y => y.isVariable = true ∧ y ≠ hidden :=
    Rule.sparesBound_replace And.left (by simp [member, isVariable]) hhidden.bindsOnly
  have hmove : Rule.SparesBound ⟨.reg n o size, [], v⟩ fun y => y.isVariable = true ∧ y ≠ hidden :=
    Rule.sparesBound_replace And.left (by simp [isVariable]) hv
  have hreveal : Rule.SparesBound ⟨hidden, [], ofList v.dependencies⟩ fun y => y.isVariable = true ∧ y ≠ hidden :=
    Rule.sparesBound_replace And.left (by simp) (hkept.ofList (hkept.dependencies hv))
  exact hreveal.not_rebinds (hmove.apply (hmask.apply hs))

theorem not_rebinds_beforeStore {s a v x tag : Term} (hs : s.BindsVariables)
    (ha : a.BindsOnly fun y => y.isVariable = true ∧ y ≠ x) (hv : v.BindsOnly fun y => y.isVariable = true ∧ y ≠ x)
    (hx : x.IsPlaceholder) (htag : tag.IsPlaceholder) (hxtag : x ≠ tag) :
    ¬(revealRule a v x tag).Rebinds (((maskRule x tag).apply s).splitAliases a v).1 := by
  have hmasked : ((maskRule x tag).apply s).BindsVariables := (Rule.sparesBound_maskRule hx htag).apply hs
  refine (Rule.sparesBound_revealRule hx htag hxtag ha hv).not_rebinds (hmasked.splitAliases ?_ ?_)
  · exact ha.imp fun _ _ hy => hy.1
  · exact hv.imp fun _ _ hy => hy.1

theorem RebindsBefore.exists_build {s location v : Term} {names : Fresh}
    (h : RebindsBefore s (.assign location v) names) :
    ∃ u ∈ beforeAssignmentBuilds s location v names, ¬u.BindsVariables := by
  cases location with
  | reg n o size =>
      obtain ⟨u, hu, hbinds⟩ := Rule.Rebinds.exists_build h
      exact ⟨u, List.mem_append_right _ (List.mem_append_right _ hu), hbinds⟩
  | mem a =>
      obtain ⟨u, hu, hbinds⟩ := Rule.Rebinds.exists_build h
      exact ⟨u, List.mem_append_right _ (List.mem_append_right _ hu), hbinds⟩
  | _ => exact h.elim

/-- Passing a set backward makes nothing that binds anything else than variables, if and only if it does not rebind. -/
theorem forall_before_iff {s : Term} (hs : s.BindsVariables) (options : Options) {arrow : Arrow}
    (hguard : ∀ g ∈ arrow.guard, g.BindsVariables)
    (hstatement : IsHereditary.OfStatement BindsVariables arrow.statement) (names : Fresh) :
    (∀ u ∈ beforeBuilds s options arrow names ++ ((before s options arrow names).toOption.map (·.1)).toList,
        u.BindsVariables) ↔ ¬RebindsBefore s arrow.statement names := by
  have hkept := isKeptBySets_bindsOnly (·.isVariable = true)
  unfold beforeBuilds before
  cases hassign : arrow.statement with
  | assign location v =>
      rw [hassign] at hstatement
      dsimp only
      constructor
      · intro hall hrebinds
        obtain ⟨u, hu, hbinds⟩ := hrebinds.exists_build
        exact hbinds (hall u (List.mem_append_left _ (List.mem_append_left _ hu)))
      · intro h
        have hassignment := forall_beforeAssignment hs hstatement.2 hstatement.1 h
        rw [List.append_assoc]
        obtain ⟨hbuilt, hresult⟩ := List.forall_mem_append.1 hassignment
        refine List.forall_mem_append.2 ⟨hbuilt, ?_⟩
        cases hbefore : beforeAssignment s location v names with
        | error e => simp [Except.toOption, bind, Except.bind]
        | ok assigned =>
            have hassigned : assigned.1.BindsVariables := hresult assigned.1 (by simp [hbefore, Except.toOption])
            have hguarded : (underGuard assigned.1 options arrow.guard).BindsVariables :=
              hkept.underGuard hassigned options hguard
            have hnormal := hkept.normalize_of_simplify hguarded.simplify options
            refine List.forall_mem_append.2 ⟨List.forall_mem_cons.2 ⟨hguarded, ?_⟩, List.forall_mem_singleton.2 hnormal⟩
            exact hkept.normalizeBuilds_of_simplify BindsVariables.simplify hguarded options
  | jump | skip | external name =>
      have hguarded := hkept.underGuard hs options hguard
      exact iff_of_true (List.forall_mem_append.2 ⟨List.forall_mem_singleton.2 hguarded,
        List.forall_mem_singleton.2 hguarded⟩) id

theorem not_rebindsBefore {s : Term} (hs : s.BindsVariables) {statement : Statement} {names : Fresh}
    (hstatement : IsHereditary.OfStatement BindsVariables statement)
    (hnew : ∀ x ∈ statement.placeholders names, x ∉ s.subterms ∧ IsHereditary.OfStatement (x ∉ ·.subterms) statement) :
    ¬RebindsBefore s statement names := by
  have hnot : ∀ {x t : Term}, t.BindsVariables → x ∉ t.subterms →
      t.BindsOnly fun y => y.isVariable = true ∧ y ≠ x := fun ht hx =>
    ht.imp fun y hy hvar => ⟨hvar, fun heq => hx (heq ▸ hy)⟩
  cases statement with
  | assign location v =>
      cases location with
      | reg n o size =>
          obtain ⟨hsNew, -, hvNew⟩ := hnew _ (List.mem_singleton_self _)
          exact not_rebinds_beforeRegister (hnot hs hsNew) (hnot hstatement.2 hvNew)
            (Fresh.isPlaceholder_take (by simp) names)
      | mem a =>
          obtain ⟨-, haNew, hvNew⟩ := hnew _ List.mem_cons_self
          have hlocation : a.mem.BindsOnly fun y => y.isVariable = true ∧ y ≠ (names.take "X").1 :=
            hnot hstatement.1 haNew
          exact not_rebinds_beforeStore hs ((isKeptBySets_bindsOnly _).child hlocation (by simp [children]))
            (hnot hstatement.2 hvNew) (Fresh.isPlaceholder_take (by simp) names) (Fresh.isPlaceholder_take (by simp) _)
            (Fresh.take_ne (by simp) names)
      | _ => exact id
  | _ => exact id

end ConditionalSet

end Backslice
