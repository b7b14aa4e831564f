import Backslice.Proofs.Operands
import Backslice.Proofs.Valuation
import Mathlib.Logic.Basic

/-!
# Truth of formulas from the truth of their atoms

Negations, conjunctions, disjunctions and conditionals are connectives. The
subterms right below them are the atoms of a formula: equalities, quantified
formulas, and expressions in the place of formulas. Constants and truth values
are neither. The truth of a formula follows from that of its atoms, whatever
they are taken to say. The constructors of connectives keep it.
-/

namespace Backslice.Term

/-- The truth of a formula, where `atom` says which atoms are true. -/
def truth (atom : Term → Prop) : Term → Prop :=
  foldUp fun t truths =>
    match t, truths with
    | .const w, _ => w ≠ 0
    | .bool b, _ => b = true
    | .not _, [p] => ¬p
    | .and _, ps => ∀ p ∈ ps, p
    | .or _, ps => ∃ p ∈ ps, p
    | .ite _ _ _, [c, a, b] => (c ∧ a) ∨ (¬c ∧ b)
    | t, _ => atom t

section
variable (atom : Term → Prop)

@[simp]
theorem truth_const (w : UInt64) : truth atom (.const w) ↔ w ≠ 0 := Iff.rfl

@[simp]
theorem truth_bool (b : Bool) : truth atom (.bool b) ↔ b = true := Iff.rfl

@[simp]
theorem truth_not (a : Term) : truth atom (.not a) ↔ ¬truth atom a := Iff.rfl

@[simp]
theorem truth_and (xs : List Term) : truth atom (.and xs) ↔ ∀ x ∈ xs, truth atom x := by
  rw [truth, foldUp_eq]
  exact List.forall_mem_map

@[simp]
theorem truth_or (xs : List Term) : truth atom (.or xs) ↔ ∃ x ∈ xs, truth atom x := by
  rw [truth, foldUp_eq]
  simp only [children, List.mem_map, exists_exists_and_eq_and]

@[simp]
theorem truth_ite (c a b : Term) :
    truth atom (.ite c a b) ↔ (truth atom c ∧ truth atom a) ∨ (¬truth atom c ∧ truth atom b) := Iff.rfl

theorem truth_of_isAtom {t : Term} (h : t.isAtom = true) : truth atom t ↔ atom t := by
  cases t <;> first | exact Iff.rfl | simp [isAtom] at h

@[simp]
theorem truth_eq (a b : Term) : truth atom (.eq a b) ↔ atom (.eq a b) := Iff.rfl

end

theorem truth_congr_of_children {atom atom' : Term → Prop} {t : Term} (ht : t.isAtom = false)
    (h : ∀ c ∈ t.children, (truth atom c ↔ truth atom' c)) : truth atom t ↔ truth atom' t := by
  cases t with
  | and xs =>
      rw [truth_and, truth_and]
      exact forall_congr' fun x => imp_congr_right fun hx => h x hx
  | or xs =>
      rw [truth_or, truth_or]
      exact exists_congr fun x => and_congr_right fun hx => h x hx
  | _ => simp_all [isAtom, children]

theorem truth_congr {atom atom' : Term → Prop} {t : Term} (h : ∀ u ∈ t.formulaAtoms, (atom u ↔ atom' u)) :
    truth atom t ↔ truth atom' t := by
  induction t using inductionOnChildren with
  | step t ih =>
      by_cases ht : t.isAtom = true
      · rw [truth_of_isAtom atom ht, truth_of_isAtom atom' ht]
        exact h t (by simp [formulaAtoms_of_isAtom ht])
      · have ht : t.isAtom = false := by simpa using ht
        exact truth_congr_of_children ht fun c hc => ih c hc fun u hu => h u (collects_formulaAtoms.of_child ht hc hu)

section
variable (atom : Term → Prop)

@[simp]
theorem truth_asFormula (t : Term) : truth atom t.asFormula ↔ truth atom t := by
  cases t <;> simp [asFormula]

theorem truth_negate (t : Term) : truth atom t.negate ↔ ¬truth atom t := by
  cases t <;> simp [negate, asFormula]

theorem truth_conjuncts (t : Term) : (∀ y ∈ t.conjuncts, truth atom y) ↔ truth atom t := by
  rw [← truth_asFormula atom t]
  unfold conjuncts
  split
  next h => simp [h]
  next xs h => simp [h]
  next => simp

theorem truth_disjuncts (t : Term) : (∃ y ∈ t.disjuncts, truth atom y) ↔ truth atom t := by
  rw [← truth_asFormula atom t]
  unfold disjuncts
  split
  next h => simp [h]
  next xs h => simp [h]
  next => simp

theorem truth_joined_and (xs : List Term) : truth atom (joined true .and xs) ↔ ∀ x ∈ xs, truth atom x := by
  unfold joined
  split
  next => simp
  next => simp
  next =>
    split
    next hfalse => exact ⟨fun h => absurd h (by simp), fun h => h _ hfalse⟩
    next => exact truth_and atom _

theorem truth_joined_or (xs : List Term) : truth atom (joined false .or xs) ↔ ∃ x ∈ xs, truth atom x := by
  unfold joined
  split
  next => simp
  next => simp
  next =>
    split
    next htrue => exact ⟨fun h => ⟨_, htrue, h⟩, fun _ => rfl⟩
    next => exact truth_or atom _

theorem truth_conj (ts : List Term) : truth atom (conj ts) ↔ ∀ t ∈ ts, truth atom t := by
  rw [conj_eq, truth_joined_and]
  simp only [List.mem_eraseDups, List.mem_flatMap, forall_exists_index, and_imp]
  rw [forall_comm]
  refine forall_congr' fun t => ?_
  rw [forall_comm]
  exact imp_congr_right fun _ => truth_conjuncts atom t

theorem truth_disj (ts : List Term) : truth atom (disj ts) ↔ ∃ t ∈ ts, truth atom t := by
  rw [disj_eq, truth_joined_or]
  simp only [List.mem_eraseDups, List.mem_flatMap]
  constructor
  · rintro ⟨y, ⟨t, ht, hy⟩, h⟩
    exact ⟨t, ht, (truth_disjuncts atom t).1 ⟨y, hy, h⟩⟩
  · rintro ⟨t, ht, h⟩
    obtain ⟨y, hy, h⟩ := (truth_disjuncts atom t).2 h
    exact ⟨y, ⟨t, ht, hy⟩, h⟩

end

/-- A connective of new operands is true if it is with the old operands read as the new ones. -/
theorem truth_withChildren {atom atom' : Term → Prop} {t : Term} (ht : t.isAtom = false) {f : Term → Term}
    (h : ∀ c ∈ t.children, (truth atom (f c) ↔ truth atom' c)) :
    truth atom (t.withChildren (t.children.map f)) ↔ truth atom' t := by
  cases t with
  | not a => simpa [withChildren, children, truth_negate] using not_congr (h a (by simp [children]))
  | and xs =>
      rw [withChildren, children, truth_conj, List.forall_mem_map, truth_and]
      exact forall_congr' fun x => imp_congr_right fun hx => h x hx
  | or xs =>
      rw [withChildren, children, truth_disj, truth_or]
      simp only [List.mem_map, exists_exists_and_eq_and]
      exact exists_congr fun x => and_congr_right fun hx => h x hx
  | ite c a b =>
      simp only [withChildren, children, List.map_cons, List.map_nil, List.getD_cons_zero, List.getD_cons_succ,
        truth_ite, h c (by simp [children]), h a (by simp [children]), h b (by simp [children])]
  | const _ | bool _ => exact Iff.rfl
  | _ => simp [isAtom] at ht

theorem truth_of_isRebuilt {atom atom' : Term → Prop} {t u : Term} (ht : t.isAtom = false) {f : Term → Term}
    (hu : IsRebuilt f t u) (h : ∀ c ∈ t.children, (truth atom (f c) ↔ truth atom' c)) :
    truth atom u ↔ truth atom' t := by
  rcases hu with rfl | ⟨rfl, hsame⟩
  · exact truth_withChildren ht h
  · refine truth_congr_of_children ht fun c hc => ?_
    rw [← h c hc, hsame c hc]

/-- Whether a map acts on the formulas with atoms in `p` through these atoms, and leads to atoms in `q`. -/
def ActsOnAtoms (f : Term → Term) (p q : Term → Prop) : Prop :=
  ∀ t : Term, (∀ u ∈ t.formulaAtoms, p u) →
    (∀ atom, truth atom (f t) ↔ truth (fun u => truth atom (f u)) t) ∧ ∀ w ∈ (f t).formulaAtoms, q w

/-- It is enough that connectives are put together from the images of their operands. -/
theorem actsOnAtoms_of_isRebuilt {f : Term → Term} {p q : Term → Prop}
    (hatom : ∀ u : Term, u.isAtom = true → p u → ∀ w ∈ (f u).formulaAtoms, q w)
    (hrebuilt : ∀ t : Term, t.isAtom = false → (∀ c ∈ t.children, ∀ w ∈ (f c).formulaAtoms, q w) →
      IsRebuilt f t (f t)) : ActsOnAtoms f p q := by
  intro t
  induction t using inductionOnChildren with
  | step t ih =>
      intro ht
      by_cases hatomic : t.isAtom = true
      · exact ⟨fun atom => (truth_of_isAtom (fun u => truth atom (f u)) hatomic).symm,
          hatom t hatomic (ht t (by simp [formulaAtoms_of_isAtom hatomic]))⟩
      · have hconn : t.isAtom = false := by simpa using hatomic
        have child : ∀ c ∈ t.children, _ := fun c hc =>
          ih c hc fun u hu => ht u (collects_formulaAtoms.of_child hconn hc hu)
        have h := hrebuilt t hconn fun c hc => (child c hc).2
        refine ⟨fun atom => truth_of_isRebuilt hconn h fun c hc => (child c hc).1 atom, fun w hw => ?_⟩
        obtain ⟨c, hc, hw⟩ := collects_formulaAtoms.exists_of_isRebuilt hconn h hw
        exact (child c hc).2 w hw

theorem ActsOnAtoms.comp {f g : Term → Term} {p q r : Term → Prop} (hf : ActsOnAtoms f p q)
    (hg : ActsOnAtoms g q r) : ActsOnAtoms (fun t => g (f t)) p r := by
  intro t ht
  refine ⟨fun atom => ?_, (hg (f t) (hf t ht).2).2⟩
  rw [(hg (f t) (hf t ht).2).1, (hf t ht).1]
  refine truth_congr fun u hu => ?_
  have hu' : ∀ w ∈ u.formulaAtoms, p w := by
    rw [formulaAtoms_of_isAtom (isAtom_of_mem_formulaAtoms hu)]
    intro w hw
    rw [List.mem_singleton.1 hw]
    exact ht u hu
  exact ((hg (f u) (hf u hu').2).1 atom).symm

end Backslice.Term
