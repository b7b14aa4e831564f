import Backslice.Proofs.AtomTransfer
import Backslice.Proofs.DisjunctiveForms

/-!
# What conditional sets say

A conditional set speaks of a state of the machine and of a set of watched
locations: its membership atoms say what is watched, and all other atoms are
read in the state. The sets are well-sorted formulas without quantifiers.

Such a set goes through an assignment by its atoms: what the set before the
assignment says follows from what becomes of each of the atoms.
-/

namespace Backslice

open Term ConditionalSet

namespace ConditionalSet

/-- What an atom says of a state and of the watched locations. -/
def AtomMeans (z : ZeroDivision) (s : Valuation) (watched : Term → Prop) : Term → Prop
  | .eq a l => if a = marker then watched l else (Term.eq a l).holds z s
  | u => u.holds z s

/-- What a conditional set says of a state and of the watched locations. -/
def Means (z : ZeroDivision) (s : Valuation) (watched : Term → Prop) (set : ConditionalSet) : Prop :=
  set.truth (AtomMeans z s watched)

/-- The atoms of well-sorted conditional sets without quantifiers. -/
inductive IsSetAtom : Term → Prop
  | member {l : Term} (hl : l.isLvalue = true) (hw : l.IsWord) (hp : l.Plain) : IsSetAtom (member l)
  | equality {a b : Term} (ha : a.IsWord) (hb : b.IsWord) (hp : (Term.eq a b).Plain) : IsSetAtom (.eq a b)
  | word {t : Term} (hw : t.IsWord) (hp : t.Plain) : IsSetAtom t

/-- Whether a term is a well-sorted conditional set without quantifiers. -/
def IsSet (set : ConditionalSet) : Prop :=
  ∀ u ∈ set.formulaAtoms, IsSetAtom u

section
variable {z : ZeroDivision} {s : Valuation} {watched : Term → Prop}

theorem atomMeans_member (l : Term) : AtomMeans z s watched (member l) ↔ watched l := by
  simp [AtomMeans, member]

theorem atomMeans_of_plain {t : Term} (ht : t.Plain) : AtomMeans z s watched t ↔ t.holds z s := by
  cases t with
  | eq a b =>
      have ha : a ≠ marker := ((plain_eq a b).1 ht).1.ne_marker
      simp [AtomMeans, ha]
  | _ => rfl

theorem means_of_plain {t : Term} (ht : t.Plain) : Means z s watched t ↔ t.holds z s := by
  rw [Means, ← truth_holds]
  exact truth_congr fun u hu => atomMeans_of_plain (ht.of_mem_subterms (mem_subterms_of_mem_formulaAtoms hu))

theorem means_underGuard {set : ConditionalSet} {guarded : Bool} {guard : Option Term}
    (hguard : ∀ g ∈ guard, g.Plain) :
    Means z s watched (set.underGuard ⟨guarded, false⟩ guard) ↔
      Means z s watched set ∧ (guarded = true → ∀ g ∈ guard, g.holds z s) := by
  cases guard with
  | none => simp [underGuard]
  | some g =>
      have hg := hguard g rfl
      have hmeans : truth (AtomMeans z s watched) g ↔ g.holds z s := means_of_plain hg
      by_cases hkept : guarded = true ∧ g ≠ .bool true
      · rw [underGuard, if_pos (by simpa [Options.keepsGuards] using hkept), Means, truth_conj]
        simp [hkept.1, hmeans, Means, and_comm]
      · rw [underGuard, if_neg (by simpa [Options.keepsGuards] using hkept)]
        have htrivial : guarded = true → g.holds z s := fun h => by
          have hg : g = .bool true := Classical.not_not.1 fun hne => hkept ⟨h, hne⟩
          simp [hg, holds, value, wordOfBool]
        simpa using fun _ => htrivial

theorem simplify_member {l : Term} (hl : l.isLvalue = true) : (member l).simplify = member l.simplify := by
  change simplifyEq marker l.simplify = member l.simplify
  rcases isLvalue_cases (isLvalue_simplify hl) with hreg | ⟨a, ha⟩
  · obtain ⟨n, o, k, h⟩ := exists_of_isRegister hreg
    rw [h]
    simp [simplifyEq, equals_eq_decide, marker, member]
  · rw [ha]
    simp [simplifyEq, equals_eq_decide, marker, member]

/-- Normalising keeps what a set says of locations up to simplification. -/
theorem means_normalize {set : ConditionalSet} {guarded : Bool}
    (hset : ∀ u ∈ set.formulaAtoms, IsSetAtom u ∨ (u.IsFormula ∧ u.Plain))
    (hwatched : ∀ l : Term, l.isLvalue = true → (watched l.simplify ↔ watched l)) :
    Means z s watched (set.normalize ⟨guarded, false⟩) ↔ Means z s watched set := by
  have hplain : ∀ u : Term, u.IsFormula → u.Plain →
      (truth (AtomMeans z s watched) u.simplify ↔ AtomMeans z s watched u) := fun u hu hp => by
    rw [← Means, means_of_plain hp.simplify, holds_simplify z hu, atomMeans_of_plain hp]
  rw [Means, normalize, simplifyShared_eq_simplify]
  refine (truth_disjunctiveForm _ _).trans (truth_simplify _ fun u hu => ?_)
  rcases hset u hu with h | ⟨hu, hp⟩
  · cases h with
    | @member l hl hw hp =>
        rw [simplify_member hl, member, truth_eq, ← member, atomMeans_member, atomMeans_member]
        exact hwatched l hl
    | @equality a b ha hb hp => exact hplain _ ⟨ha, hb⟩ hp
    | word hw hp => exact hplain u hw.isFormula hp
  · exact hplain u hu hp

end

section
variable {r v hidden : Term} (hr : r.isRegister = true) (hhidden : hidden.IsPlaceholder) (hvw : v.IsWord)
  (hv : v.Plain)

theorem IsSetAtom.not_mem_subterms {u x : Term} (hu : IsSetAtom u) (hx : x.IsPlaceholder) :
    x ∉ u.subterms := by
  cases hu with
  | member hl hw hp => exact not_mem_subterms_member hx hp
  | equality ha hb hp => exact hp.not_mem_subterms hx.reserved
  | word hw hp => exact hp.not_mem_subterms hx.reserved

theorem formulaAtoms_of_isWord {t u : Term} (ht : t.IsWord) (hu : u ∈ t.formulaAtoms) : u = t := by
  have hexp := ht.isExpression
  cases t <;> simp_all [Term.isExpression, formulaAtoms_eq, isAtom, children]

include hvw hv in
theorem isSet_ofList_dependencies : IsSet (ofList v.dependencies) := by
  intro u hu
  obtain ⟨d, hd, hu⟩ := exists_of_ofList collects_formulaAtoms hu
  rw [formulaAtoms_member, List.mem_singleton] at hu
  have hloc := isLocation_of_mem_dependencies hv hd
  exact hu ▸ .member hloc.1 (hvw.of_mem_subterms (mem_outermostLvalues (mem_dependencies.1 hd)).1) hloc.2

/-- The atoms of a set in which the register is hidden. -/
def IsMaskedAtom (r hidden w : Term) : Prop :=
  w = hidden ∨ (IsSetAtom w ∧ w ≠ member r)

/-- The atoms of such a set with the register replaced; the register is left only if it is the value. -/
def IsRewrittenAtom (r v hidden w : Term) : Prop :=
  (w = hidden ∨ IsSetAtom w) ∧ (w = r → v = r)

include hr hhidden in
theorem placeholder_ne_register : hidden ≠ r := by
  obtain ⟨n, o, k, rfl⟩ := exists_of_isRegister hr
  obtain ⟨m, rfl⟩ := exists_of_isReserved hhidden.reserved
  simp

include hr hhidden in
theorem actsOnAtoms_mask : ActsOnAtoms (·.replace (member r) hidden) IsSetAtom (IsMaskedAtom r hidden) := by
  refine actsOnAtoms_replace rfl (fun h => ?_) fun u hatom hu w hw => ?_
  · exact h.elim Eq.symm fun h => absurd rfl h.2
  · by_cases hur : u = member r
    · obtain ⟨m, rfl⟩ := exists_of_isReserved hhidden.reserved
      rw [hur, replace_member_self hr, formulaAtoms_of_isAtom rfl] at hw
      exact Or.inl (List.mem_singleton.1 hw)
    · have hsame : u.replace (member r) hidden = u := by
        cases hu with
        | member hl hlw hp => exact replace_member_of_ne hp fun h => hur (by rw [h])
        | equality ha hb hp => exact replace_of_not_mem (member_not_mem hp r)
        | word hw hp => exact replace_of_not_mem (member_not_mem hp r)
      rw [hsame, formulaAtoms_of_isAtom hatom, List.mem_singleton] at hw
      exact Or.inr ⟨hw ▸ hu, hw ▸ hur⟩

include hr hhidden hvw hv in
theorem actsOnAtoms_rewrite :
    ActsOnAtoms (·.replace r v) (IsMaskedAtom r hidden) (IsRewrittenAtom r v hidden) := by
  have hratom : r.isAtom = true := by
    obtain ⟨n, o, k, rfl⟩ := exists_of_isRegister hr
    rfl
  have hne : ∀ a b : Term, Term.eq a b = r → v = r := fun a b h => by
    rw [← h] at hr
    exact absurd hr Bool.false_ne_true
  refine actsOnAtoms_replace hratom (fun h => h.2 rfl) fun u _ hu w hw => ?_
  rcases hu with rfl | ⟨hu, hur⟩
  · have hwu : w = u := by
      obtain ⟨m, rfl⟩ := exists_of_isReserved hhidden.reserved
      rwa [replace_register_placeholder hr hhidden, formulaAtoms_of_isAtom rfl, List.mem_singleton] at hw
    rw [hwu]
    exact ⟨Or.inl rfl, fun h => absurd h (placeholder_ne_register hr hhidden)⟩
  · cases hu with
    | @member l hl hlw hp =>
        have hlr : l ≠ r := fun h => hur (by rw [h])
        rw [replace_register_member hr, formulaAtoms_member, List.mem_singleton] at hw
        exact hw ▸ ⟨Or.inr (.member (isLvalue_replace_register hr v hl hlr) (hlw.replace_register hr v hvw)
          (hp.replace hv)), hne _ _⟩
    | @equality a b ha hb hp =>
        have himage : ((Term.eq a b).replace r v).Plain := hp.replace hv
        rw [replace_register_eq hr] at hw himage
        rw [formulaAtoms_of_isAtom rfl, List.mem_singleton] at hw
        exact hw ▸ ⟨Or.inr (.equality (ha.replace_register hr v hvw) (hb.replace_register hr v hvw) himage), hne _ _⟩
    | word htw hp =>
        have himage := htw.replace_register hr v hvw
        have hw := formulaAtoms_of_isWord himage hw
        exact hw ▸ ⟨Or.inr (.word himage (hp.replace hv)), eq_of_replace_eq⟩

include hhidden hvw hv in
theorem actsOnAtoms_reveal :
    ActsOnAtoms (·.replace hidden (ofList v.dependencies)) (IsRewrittenAtom r v hidden) IsSetAtom := by
  refine actsOnAtoms_replace hhidden.isAtom (fun h => ?_) fun u hua hu w hw => ?_
  · exact absurd (mem_subterms_self hidden) (h.not_mem_subterms hhidden)
  · rcases hu.1 with rfl | hu
    · rw [replace_placeholder hhidden] at hw
      exact isSet_ofList_dependencies hvw hv w hw
    · rw [replace_of_not_mem (hu.not_mem_subterms hhidden), formulaAtoms_of_isAtom hua,
        List.mem_singleton] at hw
      exact hw ▸ hu

include hr hhidden hvw hv in
/-- The set before the assignment of a register is made of what becomes of the atoms. -/
theorem actsOnAtoms_beforeRegister :
    ActsOnAtoms (fun t => beforeRegister t r v hidden) IsSetAtom IsSetAtom :=
  ((actsOnAtoms_mask hr hhidden).comp (actsOnAtoms_rewrite hr hhidden hvw hv)).comp
    (actsOnAtoms_reveal hhidden hvw hv)

end

section
variable {a v x tag : Term} (haw : a.IsWord) (ha : a.Plain) (hvw : v.IsWord) (hv : v.Plain)
  (hx : x.IsPlaceholder) (htag : tag.IsPlaceholder) (hxtag : x ≠ tag)

/-- Atoms of sets in which no address reads memory. -/
def IsFlatAtom (u : Term) : Prop :=
  IsSetAtom u ∧ u.FlatAddresses

/-- The atoms of a set in which the memory cells are hidden. -/
def IsTaggedAtom (tag w : Term) : Prop :=
  (∃ y : Term, y.IsWord ∧ y.Plain ∧ (∀ c ∈ y.subterms, c.isMemoryCell = false) ∧ w = .eq tag y) ∨
    (IsSetAtom w ∧ ∀ y, w ≠ member (.mem y))

/-- Nothing else than a membership atom of a memory cell has the form of one. -/
theorem member_mem_not_mem {u : Term} (hu : IsSetAtom u) (hne : ∀ y, u ≠ member (.mem y)) (y : Term) :
    member (.mem y) ∉ u.subterms := by
  cases hu with
  | @member l hl hw hp =>
      intro h
      rcases mem_subterms_member.1 h with h | h | h
      · exact hne y h.symm
      · simp [member, marker] at h
      · exact member_not_mem hp _ h
  | equality ha hb hp => exact member_not_mem hp _
  | word hw hp => exact member_not_mem hp _

include hx htag hxtag in
theorem actsOnAtoms_tag : ActsOnAtoms (maskRule x tag).apply IsFlatAtom (IsTaggedAtom tag) := by
  refine Rule.actsOnAtoms_apply (matchesAtoms_maskRule hx) (fun w _ hw => ?_) fun u hatom hu w hw => ?_
  · refine Rule.applyHead_of_none (replacementFor?_maskRule_none hx fun y h => ?_)
    rcases hw with ⟨y', -, -, -, hw⟩ | hw
    · rw [hw] at h
      exact htag.ne_marker (Term.eq.inj h).1
    · exact hw.2 y h
  · by_cases hcell : ∃ y, u = member (.mem y)
    · obtain ⟨y, rfl⟩ := hcell
      have hy : (Term.mem y).IsWord ∧ (Term.mem y).Plain := by
        cases hu.1 with
        | member hl hw hp => exact ⟨hw, hp⟩
        | equality ha hb hp => exact absurd rfl ((plain_eq _ _).1 hp).1.ne_marker
        | word hw hp => exact absurd hw.isExpression (by simp [member, Term.isExpression])
      have hflat : (Term.mem y).FlatAddresses := hu.2.child (by simp [member, children])
      rw [apply_maskRule_member hx htag hxtag ((plain_mem y).1 hy.2), formulaAtoms_of_isAtom rfl,
        List.mem_singleton] at hw
      exact Or.inl ⟨y, (isWord_mem y).1 hy.1, (plain_mem y).1 hy.2, hflat.address, hw⟩
    · have hne : ∀ y, u ≠ member (.mem y) := fun y h => hcell ⟨y, h⟩
      rw [apply_maskRule_of_not_mem hx (member_mem_not_mem hu.1 hne), formulaAtoms_of_isAtom hatom,
        List.mem_singleton] at hw
      exact Or.inr ⟨hw ▸ hu.1, hw ▸ hne⟩

theorem isTaggedAtom_of_plain {w : Term} (hw : IsSetAtom w) (hp : w.Plain) : IsTaggedAtom tag w :=
  Or.inr ⟨hw, fun y h => member_not_mem hp (.mem y) (by rw [← h]; exact mem_subterms_self w)⟩

include haw ha hvw hv htag in
theorem actsOnAtoms_split :
    ActsOnAtoms (fun t => (t.splitAliases a v).1) (IsTaggedAtom tag) (IsTaggedAtom tag) := by
  have hcondition : ∀ c : Term, (∃ y, c = .eq a y ∧ y.IsWord ∧ y.Plain) →
      ∀ w ∈ c.formulaAtoms, IsTaggedAtom tag w := by
    rintro _ ⟨y, rfl, hyw, hy⟩ w hw
    rw [formulaAtoms_of_isAtom rfl, List.mem_singleton] at hw
    have hplain := (plain_eq a y).2 ⟨ha, hy⟩
    exact hw ▸ isTaggedAtom_of_plain (.equality haw hyw hplain) hplain
  refine actsOnAtoms_splitAliases fun u hatom hu => ?_
  rcases hu with ⟨y, hyw, hy, hflat, rfl⟩ | ⟨hu, hne⟩
  · rw [splitAliases_placeholder htag, readCases_of_forall hflat]
    intro w hw
    rw [Cases.map, Cases.toTerm, formulaAtoms_of_isAtom rfl, List.mem_singleton] at hw
    exact Or.inl ⟨y, hyw, hy, hflat, hw⟩
  · cases hu with
    | @member l hl hw hp =>
        rcases isLvalue_cases hl with hreg | ⟨y, rfl⟩
        · rw [splitAliases_register hreg, formulaAtoms_member]
          intro w hw
          rw [List.mem_singleton.1 hw]
          exact Or.inr ⟨.member hl ‹_› hp, hne⟩
        · exact absurd rfl (hne y)
    | @equality p q hpw hqw hpq =>
        obtain ⟨hp, hq⟩ := (plain_eq p q).1 hpq
        rw [splitAliases_eq]
        refine Cases.formulaAtoms_toTerm (Cases.Forall.imp ?_ hcondition fun _ => id)
        refine (forall_readCases_word hvw hv hpw hp).combine (forall_readCases_word hvw hv hqw hq)
          fun t u ht hu w hw => ?_
        rw [formulaAtoms_of_isAtom rfl, List.mem_singleton] at hw
        have hplain := (plain_eq t u).2 ⟨ht.2, hu.2⟩
        exact hw ▸ isTaggedAtom_of_plain (.equality ht.1 hu.1 hplain) hplain
    | word hw hp =>
        rw [splitAliases_of_isExpression hw.isExpression]
        refine Cases.formulaAtoms_toTerm ((forall_readCases_word hvw hv hw hp).imp hcondition
          fun t ht w hwt => ?_)
        rw [formulaAtoms_of_isWord ht.1 hwt]
        exact isTaggedAtom_of_plain (.word ht.1 ht.2) ht.2

include haw ha hvw hv hx htag hxtag in
theorem actsOnAtoms_untag : ActsOnAtoms (revealRule a v x tag).apply (IsTaggedAtom tag) IsSetAtom := by
  have hnone : ∀ w : Term, IsSetAtom w → (revealRule a v x tag).apply w = w := fun w hw =>
    apply_revealRule_of_not_mem hx htag hxtag (hw.not_mem_subterms htag)
  refine Rule.actsOnAtoms_apply (matchesAtoms_revealRule hx htag hxtag) (fun w _ hw => ?_) fun u hatom hu w hw => ?_
  · refine Rule.applyHead_of_none (replacementFor?_revealRule_none hx htag hxtag fun y h => ?_)
    exact hw.not_mem_subterms htag (h ▸ by simp [subterms, mem_subterms_self])
  · rcases hu with ⟨y, hyw, hy, -, rfl⟩ | ⟨hu, -⟩
    · rw [apply_revealRule_eq ha hv hx htag hxtag hy] at hw
      obtain ⟨c, hc, hw⟩ := collects_formulaAtoms.exists_child rfl hw
      simp only [resolve, children, List.mem_cons, List.not_mem_nil, or_false] at hc
      rcases hc with rfl | rfl | rfl
      · rw [formulaAtoms_of_isAtom rfl, List.mem_singleton] at hw
        exact hw ▸ .equality haw hyw ((plain_eq a y).2 ⟨ha, hy⟩)
      · exact isSet_ofList_dependencies hvw hv w hw
      · rw [formulaAtoms_member, List.mem_singleton] at hw
        exact hw ▸ .member rfl ((isWord_mem y).2 hyw) ((plain_mem y).2 hy)
    · rw [hnone u hu, formulaAtoms_of_isAtom hatom, List.mem_singleton] at hw
      exact hw ▸ hu

include haw ha hvw hv hx htag hxtag in
theorem actsOnAtoms_beforeStore : ActsOnAtoms (fun t => beforeStore t a v x tag) IsFlatAtom IsSetAtom :=
  ((actsOnAtoms_tag hx htag hxtag).comp (actsOnAtoms_split haw ha hvw hv htag)).comp
    (actsOnAtoms_untag haw ha hvw hv hx htag hxtag)

end

end ConditionalSet
end Backslice
