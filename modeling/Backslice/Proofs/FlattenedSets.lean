import Backslice.Proofs.ElementwiseEffect
import Backslice.Proofs.StableForms
import Mathlib

/-!
# What flattening keeps

Flattening keeps the possible values of a set, in their order, and is done after
one pass. It may make a set larger: the conditions of the elements are dropped.
It makes no set smaller in which every way to be true goes through a membership
atom that no negation encloses. The empty set and single elements are such sets,
and unions, conjunctions with any formulas and conditionals are again such sets.
Simplification and the disjunctive normal form put such sets together anew, and
leave membership atoms of storage locations what they are.
-/

namespace Backslice

open Term

namespace ConditionalSet

theorem nodup_possibleValues (s : ConditionalSet) : s.possibleValues.Nodup := by
  rw [possibleValues, distinct_eq_eraseDups]
  exact List.nodup_eraseDups _

theorem disjuncts_flatten (s : ConditionalSet) : (flatten s).disjuncts = s.possibleValues.map member := by
  have hmembers : ∀ t ∈ s.possibleValues.map member, ∃ e, t = member e := List.forall_mem_map.2 fun e _ => ⟨e, rfl⟩
  rw [flatten, disjuncts_disj (isSum_of_members hmembers), flatMap_disjuncts_of_members hmembers,
    List.eraseDups_of_nodup (s.nodup_possibleValues.map member_injective)]

theorem possibleValues_flatten (s : ConditionalSet) : (flatten s).possibleValues = s.possibleValues := by
  refine List.map_injective_iff.2 member_injective ?_
  rw [(IsFlat.flatten s).map_member_possibleValues, disjuncts_flatten]

theorem flatten_flatten (s : ConditionalSet) : flatten (flatten s) = flatten s :=
  (IsFlat.flatten s).flatten_eq

theorem truth_flatten (atom : Term → Prop) (s : ConditionalSet) :
    truth atom (flatten s) ↔ ∃ e ∈ s.possibleValues, atom (member e) := by
  rw [flatten, truth_disj]
  simp only [List.mem_map, exists_exists_and_eq_and]
  rfl

/-- Formulas that are true only if a membership atom is, of an element in `p`, whatever the conditions are. -/
inductive IsGuarded (p : Term → Prop) : ConditionalSet → Prop
  | empty : IsGuarded p empty
  | member {e : Term} (he : p e) : IsGuarded p (member e)
  | or {xs : List Term} (hxs : ∀ x ∈ xs, IsGuarded p x) : IsGuarded p (.or xs)
  | and {x : Term} {xs : List Term} (hmem : x ∈ xs) (hx : IsGuarded p x) : IsGuarded p (.and xs)
  | ite {c a b : Term} (ha : IsGuarded p a) (hb : IsGuarded p b) : IsGuarded p (.ite c a b)

namespace IsGuarded

variable {p : Term → Prop} {s : ConditionalSet}

theorem exists_atom (h : IsGuarded p s) {atom : Term → Prop} (htrue : truth atom s) :
    ∃ e ∈ atoms s, atom (ConditionalSet.member e) := by
  induction h with
  | empty => cases htrue
  | @member e _ => exact ⟨e, by simp [atoms_member], htrue⟩
  | or _ ih =>
      obtain ⟨x, hx, htrue⟩ := (truth_or atom _).1 htrue
      obtain ⟨e, he, hatom⟩ := ih x hx htrue
      exact ⟨e, mem_atoms_or.2 ⟨x, hx, he⟩, hatom⟩
  | and hmem _ ih =>
      obtain ⟨e, he, hatom⟩ := ih ((truth_and atom _).1 htrue _ hmem)
      refine ⟨e, ?_, hatom⟩
      rw [atoms, atomsAll_eq_flatMap]
      exact List.mem_flatMap.2 ⟨_, hmem, he⟩
  | ite _ _ iha ihb =>
      rw [truth_ite] at htrue
      simp only [atoms, List.mem_append]
      rcases htrue with ⟨-, htrue⟩ | ⟨-, htrue⟩
      · obtain ⟨e, he, hatom⟩ := iha htrue
        exact ⟨e, Or.inl he, hatom⟩
      · obtain ⟨e, he, hatom⟩ := ihb htrue
        exact ⟨e, Or.inr he, hatom⟩

/-- Flattening makes a guarded set larger at most. -/
theorem truth_flatten (h : IsGuarded p s) {atom : Term → Prop} (htrue : truth atom s) : truth atom (flatten s) := by
  obtain ⟨e, he, hatom⟩ := h.exists_atom htrue
  exact (ConditionalSet.truth_flatten atom s).2 ⟨e, mem_possibleValues.2 he, hatom⟩

theorem ne_true (h : IsGuarded p s) : s ≠ .bool true := by
  rintro rfl
  cases h

theorem disjunct (h : IsGuarded p s) {y : Term} (hy : y ∈ s.disjuncts) : IsGuarded p y := by
  cases h with
  | empty => exact absurd hy List.not_mem_nil
  | or hxs => exact hxs y hy
  | member he =>
      rw [List.mem_singleton.1 hy]
      exact .member he
  | and hmem hx =>
      rw [List.mem_singleton.1 hy]
      exact .and hmem hx
  | ite ha hb =>
      rw [List.mem_singleton.1 hy]
      exact .ite ha hb

theorem exists_conjunct (h : IsGuarded p s) : ∃ y ∈ s.conjuncts, IsGuarded p y := by
  cases h with
  | and hmem hx => exact ⟨_, hmem, hx⟩
  | empty => exact ⟨_, List.mem_singleton_self _, .empty⟩
  | or hxs => exact ⟨_, List.mem_singleton_self _, .or hxs⟩
  | member he => exact ⟨_, List.mem_singleton_self _, .member he⟩
  | ite ha hb => exact ⟨_, List.mem_singleton_self _, .ite ha hb⟩

theorem disj {ts : List Term} (h : ∀ t ∈ ts, IsGuarded p t) : IsGuarded p (disj ts) := by
  have hoperands : ∀ y ∈ (ts.flatMap disjuncts).eraseDups, IsGuarded p y := by
    intro y hy
    obtain ⟨t, ht, hy⟩ := List.mem_flatMap.1 (List.mem_eraseDups.1 hy)
    exact (h t ht).disjunct hy
  rw [disj_eq]
  unfold joined
  split
  next => exact .empty
  next y heq => exact hoperands y (by rw [heq]; exact List.mem_singleton_self y)
  next =>
    split
    next htrue => exact absurd rfl (hoperands _ htrue).ne_true
    next => exact .or hoperands

theorem conj {t : Term} {ts : List Term} (hmem : t ∈ ts) (h : IsGuarded p t) : IsGuarded p (conj ts) := by
  obtain ⟨y, hy, hguarded⟩ := h.exists_conjunct
  have hoperand : y ∈ (ts.flatMap conjuncts).eraseDups := List.mem_eraseDups.2 (List.mem_flatMap.2 ⟨t, hmem, hy⟩)
  rw [conj_eq]
  unfold joined
  split
  next heq =>
    rw [heq] at hoperand
    exact absurd hoperand List.not_mem_nil
  next z heq =>
    rw [heq, List.mem_singleton] at hoperand
    exact hoperand ▸ hguarded
  next =>
    split
    next => exact .empty
    next => exact .and hoperand hguarded

/-- An element that is a storage location is no marker, and stays a location. -/
theorem simplify (h : IsGuarded (·.isLvalue = true) s) : IsGuarded (·.isLvalue = true) s.simplify := by
  induction h with
  | empty => exact .empty
  | member he =>
      rw [simplify_member he]
      exact .member (isLvalue_simplify he)
  | or _ ih =>
      rw [Term.simplify, simplifyAll_eq_map]
      exact disj (List.forall_mem_map.2 ih)
  | and hmem _ ih =>
      rw [Term.simplify, simplifyAll_eq_map]
      exact conj (List.mem_map_of_mem hmem) ih
  | @ite c a b _ _ iha ihb =>
      rw [Term.simplify]
      rcases simplifyIte_cases c.simplify a.simplify b.simplify with hkept | hkept | hkept
      · rwa [hkept]
      · rwa [hkept]
      · rw [hkept]
        exact .ite iha ihb

theorem clauses (h : IsGuarded p s) : ∀ c ∈ s.clauses false, ∃ l ∈ c, IsGuarded p l := by
  -- One guarded operand is enough, as a clause of a product has all literals of one of its clauses.
  have hproduct : ∀ {x : Term} {parts : List (List Clause)}, x.clauses false ∈ parts →
      (∀ c ∈ x.clauses false, ∃ l ∈ c, IsGuarded p l) → ∀ c ∈ Clause.product parts, ∃ l ∈ c, IsGuarded p l := by
    intro x parts hx hclauses c hc
    obtain ⟨d, hd, hsub⟩ := (Clause.of_mem_product hc).2 _ hx
    obtain ⟨l, hl, hguarded⟩ := hclauses d hd
    exact ⟨l, hsub l hl, hguarded⟩
  induction h with
  | empty =>
      intro c hc
      exact absurd hc List.not_mem_nil
  | member he =>
      intro c hc
      rw [List.mem_singleton.1 hc]
      exact ⟨_, List.mem_singleton_self _, .member he⟩
  | or _ ih =>
      intro c hc
      rw [Term.clauses, if_neg Bool.false_ne_true, clausesAll_eq_map] at hc
      obtain ⟨part, hpart, hc⟩ := Clause.mem_sum.1 hc
      obtain ⟨x, hx, rfl⟩ := List.mem_map.1 hpart
      exact ih x hx c hc
  | and hmem _ ih =>
      rw [Term.clauses, if_neg Bool.false_ne_true, joinClauses_eq_product]
      exact hproduct (List.mem_map_of_mem hmem) ih
  | ite _ _ iha ihb =>
      intro c hc
      rw [Term.clauses] at hc
      obtain ⟨part, hpart, hc⟩ := Clause.mem_sum.1 hc
      rcases List.mem_cons.1 hpart with rfl | hpart
      · exact hproduct (by simp) iha c hc
      · rw [List.mem_singleton.1 hpart] at hc
        exact hproduct (by simp) ihb c hc

theorem disjunctiveForm (h : IsGuarded p s) : IsGuarded p s.disjunctiveForm := by
  rw [Term.disjunctiveForm, share_eq]
  refine disj (List.forall_mem_map.2 fun c hc => ?_)
  obtain ⟨l, hl, hguarded⟩ := h.clauses c hc
  exact conj hl hguarded

end IsGuarded

/-- Sets put together from nothing and from elements in `p`: by unions, by conjunctions with any other formulas, and by
conditionals on any condition. -/
inductive IsComposed (p : Term → Prop) : ConditionalSet → Prop
  | empty : IsComposed p empty
  | member {e : Term} (he : p e) : IsComposed p (member e)
  | union {ss : List ConditionalSet} (hss : ∀ s ∈ ss, IsComposed p s) : IsComposed p (disj ss)
  | restrict {s : ConditionalSet} {ts : List Term} (hmem : s ∈ ts) (hs : IsComposed p s) : IsComposed p (conj ts)
  | choose {c : Term} {s t : ConditionalSet} (hs : IsComposed p s) (ht : IsComposed p t) : IsComposed p (.ite c s t)

theorem IsComposed.isGuarded {p : Term → Prop} {s : ConditionalSet} (h : IsComposed p s) : IsGuarded p s := by
  induction h with
  | empty => exact .empty
  | member he => exact .member he
  | union _ ih => exact .disj ih
  | restrict hmem _ ih => exact .conj hmem ih
  | choose _ _ ihs iht => exact .ite ihs iht

/-- Whether a formula is simplified to another one, or has it for its disjunctive normal form. -/
def Normalizes (s t : ConditionalSet) : Prop :=
  t = s.simplify ∨ t = s.disjunctiveForm

/-- A composed set of storage locations stays guarded whatever is done to put it into a normal form. -/
theorem IsComposed.isGuarded_normalized {s t : ConditionalSet} (h : IsComposed (·.isLvalue = true) s)
    (hnormalized : Relation.ReflTransGen Normalizes s t) : IsGuarded (·.isLvalue = true) t := by
  induction hnormalized with
  | refl => exact h.isGuarded
  | tail _ hlast ih =>
      rcases hlast with rfl | rfl
      · exact ih.simplify
      · exact ih.disjunctiveForm

end ConditionalSet

namespace Manager

variable {m : Manager} {i : Nat} {s : ConditionalSet}

theorem outcome_flatten (hi : m.arena.term? i = some s) : (m.outcome (.flatten i)).1 = .ok [s.flatten] := by
  unfold outcome Operation.results
  rw [Building.run_bind_ok (Building.Reads.term hi _)]
  rfl

theorem outcome_possibleValues (hi : m.arena.term? i = some s) :
    (m.outcome (.possibleValues i)).1 = .ok s.possibleValues := by
  unfold outcome Operation.results
  rw [Building.run_bind_ok (Building.Reads.term hi _)]
  rfl

/-- Flattening keeps the possible values and makes no composed set smaller. In a manager, after any operations on it,
the values of a formula and the flattened formula have handles. At once and whenever they are asked for later, the same
values in the same order are those of the formula and of the flattened one, and both are flattened to the latter. If the
formula is a composed set, the flattened one is true in every reading of the atoms in which the formula is. So it is for
what is made of a composed set of storage locations by simplifications and disjunctive normal forms. -/
theorem flatten_keeps_values (hm : m.arena.IsManaged) (hi : m.arena.term? i = some s) :
    (∃ vs m₁ j m₂, m.perform (.possibleValues i) = (.ok vs, m₁) ∧ m₁.perform (.flatten i) = (.ok [j], m₂) ∧
      vs.map m₂.arena.term? = s.possibleValues.map some ∧ m₂.arena.term? j = some s.flatten ∧
      m₂.Answers (.possibleValues i) vs ∧ m₂.Answers (.possibleValues j) vs ∧
      m₂.Answers (.flatten i) [j] ∧ m₂.Answers (.flatten j) [j]) ∧
    (s.IsComposed (fun _ => True) → ∀ atom, truth atom s → truth atom s.flatten) ∧
    (s.IsComposed (·.isLvalue = true) → ∀ t, Relation.ReflTransGen ConditionalSet.Normalizes s t →
      ∀ atom, truth atom t → truth atom t.flatten) := by
  refine ⟨?_, fun hs atom => hs.isGuarded.truth_flatten, fun hs t ht atom => (hs.isGuarded_normalized ht).truth_flatten⟩
  obtain ⟨ts, hts⟩ := hm.exists_holds
  obtain ⟨vs, m₁, us, hvalues, hus, hextends, hvs⟩ := exists_performed hts (outcome_possibleValues hi)
  obtain ⟨j, m₂, ws, hflat, hws, hextends', hj⟩ := exists_performed_one hus (outcome_flatten (hextends hi))
  have hi₂ := hextends' (hextends hi)
  have hvs₂ := List.map_eq_some_mono hextends' hvs
  refine ⟨vs, m₁, j, m₂, hvalues, hflat, hvs₂, hj, ?_, ?_, ?_, ?_⟩
  · exact answers_of_held hws (fun m' hm' => outcome_possibleValues (hm' hi₂)) hvs₂
  · refine answers_of_held hws (fun m' hm' => outcome_possibleValues (hm' hj)) ?_
    rwa [ConditionalSet.possibleValues_flatten]
  · exact answers_of_held hws (fun m' hm' => outcome_flatten (hm' hi₂)) (by rw [List.map_singleton, hj]; rfl)
  · refine answers_of_held hws (fun m' hm' => outcome_flatten (hm' hj)) ?_
    rw [ConditionalSet.flatten_flatten, List.map_singleton, hj]
    rfl

/-- One register on a condition, or another one on the same condition and a cell on its negation. -/
def conditionalCells : List Operation :=
  [.var "c", .reg "r1" 0 0, .member 5, .conj [4, 6], .reg "r2" 0 0, .member 8, .mem 5, .member 10, .ite 4 9 11,
    .disj [7, 12]]

/-- The set that is so put together. -/
def conditionalSet : ConditionalSet :=
  .or [.and [.var "c", ConditionalSet.member (.reg "r1" 0 0)],
    .ite (.var "c") (ConditionalSet.member (.reg "r2" 0 0)) (ConditionalSet.member (.mem (.reg "r1" 0 0)))]

theorem isComposed_conditionalSet : conditionalSet.IsComposed (·.isLvalue = true) := by
  have hregister : ConditionalSet.IsComposed (·.isLvalue = true)
      (conj [.var "c", ConditionalSet.member (.reg "r1" 0 0)]) :=
    .restrict (List.mem_cons_of_mem _ List.mem_cons_self) (.member rfl)
  have hchoice : ConditionalSet.IsComposed (·.isLvalue = true)
      (.ite (.var "c") (ConditionalSet.member (.reg "r2" 0 0)) (ConditionalSet.member (.mem (.reg "r1" 0 0)))) :=
    .choose (.member rfl) (.member rfl)
  exact .union (List.forall_mem_cons.2 ⟨hregister, List.forall_mem_singleton.2 hchoice⟩)

theorem flatten_keeps_values_conditionalCells :
    ∃ created, Manager.new 0 = .ok created ∧ (created.run conditionalCells).2.arena.IsManaged ∧
      (created.run conditionalCells).2.arena.term? 13 = some conditionalSet ∧
      (∃ vs m₁ j m₂, (created.run conditionalCells).2.perform (.possibleValues 13) = (.ok vs, m₁) ∧ vs = [5, 8, 10] ∧
        m₁.perform (.flatten 13) = (.ok [j], m₂) ∧ m₂.arena.term? j = some conditionalSet.flatten ∧
        m₂.Answers (.possibleValues j) [5, 8, 10] ∧ m₂.Answers (.flatten j) [j]) ∧
      conditionalSet.disjunctiveForm.disjuncts.length = 3 ∧
      ∀ atom, truth atom conditionalSet.disjunctiveForm →
        truth atom (ConditionalSet.flatten conditionalSet.disjunctiveForm) := by
  have hterm : (Manager.new 0).map (fun created => (created.run conditionalCells).2.arena.term? 13) =
      .ok (some conditionalSet) := by
    decide +kernel
  have hreturned : (Manager.new 0).map (fun created =>
      ((created.run conditionalCells).2.perform (.possibleValues 13)).1) = .ok (.ok [5, 8, 10]) := by
    decide +kernel
  obtain ⟨created, hcreated, hterm⟩ := Except.exists_of_map_eq_ok hterm
  rw [hcreated] at hreturned
  have hmanaged : (created.run conditionalCells).2.arena.IsManaged := ⟨0, created, conditionalCells, hcreated, rfl⟩
  obtain ⟨⟨vs, m₁, j, m₂, hvalues, hflat, -, hj, -, hlater, -, hsame⟩, -, hnormalized⟩ :=
    flatten_keeps_values hmanaged hterm
  have hfirst : ((created.run conditionalCells).2.perform (.possibleValues 13)).1 = .ok [5, 8, 10] :=
    Except.ok.inj hreturned
  rw [hvalues] at hfirst
  obtain rfl := Except.ok.inj hfirst
  exact ⟨created, hcreated, hmanaged, hterm, ⟨_, m₁, j, m₂, hvalues, rfl, hflat, hj, hlater, hsame⟩,
    by cbv, hnormalized isComposed_conditionalSet _ (.single (Or.inr rfl))⟩

end Manager
end Backslice
