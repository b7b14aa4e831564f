import Backslice.Proofs.ExplicitTransfer
import Backslice.Proofs.SubtermAgreement

/-!
# What a watched memory cell becomes before a store

Behind a store, the address of a watched cell reads memory by cases. Of the
conditions of the cases, those are decided by simplification that compare a term
with itself or two constants; the leaves that remain are feasible. For each of
them, what the value depends on and the cell itself are watched in front of the
store, up to a last decision of the same kind.

The cases that a state chooses are feasible. So are the cases in which no read
is of the stored cell, unless this is known: they still have all registers of the
address, up to those of the address of the store.
-/

namespace Backslice

open Term ConditionalSet

namespace Term

theorem eq_of_simplifyEq_true {a b : Term} (ha : a.IsWord) (h : simplifyEq a b = .bool true) : a = b := by
  unfold simplifyEq at h
  split at h
  next hsame => rwa [equals_eq_decide, decide_eq_true_eq] at hsame
  next =>
    split at h
    next v w _ =>
      have hvw : v = w := by simpa using h
      rw [hvw]
    next => exact absurd ha.isExpression (by simp [isExpression])
    next => cases h

theorem const_of_simplifyEq_false {a b : Term} (ha : a.IsWord) (h : simplifyEq a b = .bool false) :
    ∃ v w, a = .const v ∧ b = .const w := by
  unfold simplifyEq at h
  split at h
  next => cases h
  next =>
    split at h
    next v w _ => exact ⟨v, w, rfl, rfl⟩
    next => exact absurd ha.isExpression (by simp [isExpression])
    next => cases h

section
variable {a b : Term} (ha : a.IsWord) (hb : b.IsWord) {z : ZeroDivision} {s : Valuation}
include ha hb

theorem value_eq_iff_of_decided {c : Bool} (h : simplifyEq a.simplify b.simplify = .bool c) :
    a.value z s = b.value z s ↔ c = true := by
  have hvalue := value_simplifyEq z s (b := b.simplify) (isWord_simplify ha)
  rw [h] at hvalue
  simp only [Term.value, value_simplify z s ha, value_simplify z s hb] at hvalue
  cases c <;> simp [wordOfBool, wordOf] at hvalue ⊢ <;> exact hvalue

theorem not_refuted_of_value_eq (h : a.value z s = b.value z s) :
    simplifyEq a.simplify b.simplify ≠ .bool false :=
  fun hfalse => Bool.false_ne_true ((value_eq_iff_of_decided ha hb hfalse).1 h)

theorem not_forced_of_value_ne (h : a.value z s ≠ b.value z s) : simplifyEq a.simplify b.simplify ≠ .bool true :=
  fun htrue => h ((value_eq_iff_of_decided ha hb htrue).2 rfl)

end

end Term

namespace Cases

/-- The leaves of a tree that simplification cannot exclude. -/
inductive Feasible : Cases → Term → Prop
  | leaf (t : Term) : Feasible (.leaf t) t
  | positive {c t : Term} {p q : Cases} (hc : c.simplify ≠ .bool false) (h : Feasible p t) : Feasible (.split c p q) t
  | negative {c t : Term} {p q : Cases} (hc : c.simplify ≠ .bool true) (h : Feasible q t) : Feasible (.split c p q) t

/-- The leaf of the negative cases, wherever simplification does not force the positive one. -/
def spared : Cases → Term
  | .leaf t => t
  | .split c p q => if c.simplify = .bool true then p.spared else q.spared

theorem feasible_spared (cases : Cases) : cases.Feasible cases.spared := by
  induction cases with
  | leaf t => exact .leaf t
  | split c p q ihp ihq =>
      rw [spared]
      split
      next hc => exact .positive (by simp [hc]) ihp
      next hc => exact .negative hc ihq

theorem spared_map (f : Term → Term) (cases : Cases) : (cases.map f).spared = f cases.spared := by
  induction cases with
  | leaf t => rfl
  | split c p q ihp ihq =>
      rw [map, spared, spared, ihp, ihq]
      split <;> rfl

theorem spared_combine (f : Term → Term → Term) (cases other : Cases) :
    (cases.combine f other).spared = f cases.spared other.spared := by
  induction cases with
  | leaf t => rw [combine, spared_map, spared]
  | split c p q ihp ihq =>
      rw [combine, spared, spared, ihp, ihq]
      split <;> rfl

theorem Feasible.of_forall {condition leaf : Term → Prop} {cases : Cases} {t : Term} (h : cases.Feasible t)
    (hcases : cases.Forall condition leaf) : leaf t := by
  induction h with
  | leaf t => exact hcases
  | positive _ _ ih => exact ih hcases.2.1
  | negative _ _ ih => exact ih hcases.2.2

theorem feasible_chosen {p leaf : Term → Prop} {cases : Cases}
    (h : cases.Forall (fun c => (p c → c.simplify ≠ .bool false) ∧ (¬p c → c.simplify ≠ .bool true)) leaf) :
    cases.Feasible (cases.chosen p) := by
  induction cases with
  | leaf t => exact .leaf t
  | split c q r ihq ihr =>
      rw [chosen]
      split
      next hc => exact .positive (h.1.1 hc) (ihq h.2.1)
      next hc => exact .negative (h.1.2 hc) (ihr h.2.2)

theorem mem_atoms_simplifyIte {c p q l : Term} (hc : c.asFormula = c) :
    l ∈ atoms (simplifyIte c p q) ↔ (c ≠ .bool false ∧ l ∈ atoms p) ∨ (c ≠ .bool true ∧ l ∈ atoms q) := by
  unfold simplifyIte
  rw [hc]
  split
  next => simp
  next => simp
  next c hfalse htrue =>
    split
    next hsame =>
      rw [equals_eq_decide, decide_eq_true_eq] at hsame
      subst hsame
      simp_all
    next =>
      rw [atoms, List.mem_append]
      simp_all

theorem asFormula_simplifyEq (a b : Term) : (simplifyEq a b).asFormula = simplifyEq a b := by
  rcases simplifyEq_cases a b with ⟨c, hc⟩ | hc <;> rw [hc] <;> rfl

theorem mem_atoms_toTerm {f : Term → Term} {a l : Term} {leaf : Term → Prop} {cases : Cases}
    (h : cases.Forall (fun c => ∃ x, c = .eq a x) leaf) :
    l ∈ atoms (cases.map f).toTerm.simplify ↔ ∃ t, cases.Feasible t ∧ l ∈ atoms (f t).simplify := by
  induction cases with
  | leaf t =>
      constructor
      · intro hl
        exact ⟨t, .leaf t, hl⟩
      · rintro ⟨_, ⟨⟩, hl⟩
        exact hl
  | split c p q ihp ihq =>
      obtain ⟨⟨x, rfl⟩, hp, hq⟩ := h
      rw [map, toTerm, simplify, simplify, mem_atoms_simplifyIte (asFormula_simplifyEq _ _), ihp hp, ihq hq]
      constructor
      · rintro (⟨hc, t, ht, hl⟩ | ⟨hc, t, ht, hl⟩)
        · exact ⟨t, .positive hc ht, hl⟩
        · exact ⟨t, .negative hc ht, hl⟩
      · rintro ⟨t, ht, hl⟩
        cases ht with
        | positive hc ht => exact Or.inl ⟨hc, t, ht, hl⟩
        | negative hc ht => exact Or.inr ⟨hc, t, ht, hl⟩

end Cases

namespace Term

section
variable {a v : Term}

/-- The conditions compare the address of the store with the addresses of the reads. -/
theorem forall_conditions_readCases (e : Term) :
    (e.readCases a v).Forall (fun c => ∃ x, c = .eq a x ∧ .mem x ∈ e.subterms) fun _ => True := by
  induction e using inductionOnChildren with
  | step e ih =>
      have hchild : ∀ c ∈ e.children,
          (c.readCases a v).Forall (fun d => ∃ x, d = .eq a x ∧ .mem x ∈ e.subterms) fun _ => True := by
        intro c hc
        refine (ih c hc).imp (fun d hd => ?_) fun _ => id
        obtain ⟨x, hx, hsub⟩ := hd
        exact ⟨x, hx, mem_subterms_of_mem_children hc hsub⟩
      cases e with
      | mem x => exact ⟨⟨x, rfl, mem_subterms_self _⟩, trivial, trivial⟩
      | unary op t =>
          rw [readCases]
          exact (hchild t (by simp [children])).map fun _ => id
      | binary op t u =>
          rw [readCases]
          exact (hchild t (by simp [children])).combine (hchild u (by simp [children])) fun _ _ _ => id
      | _ => exact trivial

theorem feasible_chosen_readCases (z : ZeroDivision) (s : Valuation) (ha : a.IsWord) {e : Term} (he : e.IsWord) :
    (e.readCases a v).Feasible ((e.readCases a v).chosen (holds z s)) := by
  refine Cases.feasible_chosen ((forall_conditions_readCases e).imp (fun c hc => ?_) fun _ => id)
  obtain ⟨x, rfl, hx⟩ := hc
  have hxw : x.IsWord := (isWord_mem x).1 (he.of_mem_subterms hx)
  rw [holds_eq_iff]
  exact ⟨not_refuted_of_value_eq ha hxw, not_forced_of_value_ne ha hxw⟩

/-- Cases of subterms outside of all addresses are subterms of the case of the whole. -/
theorem chosen_mem_subterms (p : Term → Prop) {e u : Term} (he : e.IsWord) (hu : u ∈ e.subterms) :
    (u.readCases a v).chosen p ∈ ((e.readCases a v).chosen p).subterms ∨ ∃ x, .mem x ∈ e.subterms ∧ u ∈ x.subterms := by
  induction e using inductionOnChildren with
  | step e ih =>
      rw [subterms_eq] at hu
      rcases List.mem_cons.1 hu with rfl | hu
      · exact Or.inl (mem_subterms_self _)
      · obtain ⟨c, hc, huc⟩ := List.mem_flatMap.1 hu
        have hinner : (∃ x, .mem x ∈ c.subterms ∧ u ∈ x.subterms) → ∃ x, .mem x ∈ e.subterms ∧ u ∈ x.subterms :=
          fun ⟨x, hx, hux⟩ => ⟨x, mem_subterms_of_mem_children hc hx, hux⟩
        have hcase := (ih c hc (he.child hc) huc).imp_right hinner
        cases e with
        | mem x =>
            rw [List.mem_singleton.1 hc] at huc
            exact Or.inr ⟨x, mem_subterms_self _, huc⟩
        | unary op t =>
            rw [List.mem_singleton.1 hc] at hcase
            rw [readCases, Cases.chosen_map]
            exact hcase.imp_left (mem_subterms_of_mem_children (by simp [children]))
        | binary op t w =>
            have hab : c = t ∨ c = w := by simpa [children] using hc
            rw [readCases, Cases.chosen_combine]
            rcases hab with rfl | rfl
            · exact hcase.imp_left (mem_subterms_of_mem_children (by simp [children]))
            · exact hcase.imp_left (mem_subterms_of_mem_children (by simp [children]))
        | const _ | var _ | reg _ _ _ => exact absurd hc List.not_mem_nil
        | _ => exact absurd he.isExpression (by simp [isExpression])

/-- The spared case has all registers of an expression but those of the address of the store. -/
theorem register_mem_spared (ha : a.IsWord) {e r : Term} (he : e.IsWord) (hr : r.isRegister = true)
    (hmem : r ∈ e.subterms) : r ∈ (e.readCases a v).spared.subterms ∨ r ∈ a.subterms := by
  induction e using inductionOnChildren with
  | step e ih =>
      cases e with
      | mem x =>
          have hx : x.IsWord := (isWord_mem x).1 he
          rw [readCases, Cases.spared]
          split
          next hforced =>
            -- The address of the read is that of the store, and so are its registers.
            have hsame := eq_of_simplifyEq_true (isWord_simplify ha) hforced
            refine Or.inr ((register_mem_simplify ha hr).1 ?_)
            rw [hsame, register_mem_simplify hx hr]
            rcases List.mem_cons.1 hmem with rfl | h
            · exact absurd hr Bool.false_ne_true
            · exact h
          next => exact Or.inl hmem
      | unary op t =>
          rw [readCases, Cases.spared_map]
          have hrt : r ∈ t.subterms := by
            rcases List.mem_cons.1 hmem with rfl | h
            · exact absurd hr Bool.false_ne_true
            · exact h
          exact (ih t (by simp [children]) (he.child (by simp [children])) hrt).imp_left
            (mem_subterms_of_mem_children (by simp [children]))
      | binary op t u =>
          rw [readCases, Cases.spared_combine]
          have hrtu : r ∈ t.subterms ∨ r ∈ u.subterms := by
            rcases List.mem_cons.1 hmem with rfl | h
            · exact absurd hr Bool.false_ne_true
            · exact List.mem_append.1 h
          rcases hrtu with h | h
          · exact (ih t (by simp [children]) (he.child (by simp [children])) h).imp_left
              (mem_subterms_of_mem_children (by simp [children]))
          · exact (ih u (by simp [children]) (he.child (by simp [children])) h).imp_left
              (mem_subterms_of_mem_children (by simp [children]))
      | const _ | var _ | reg _ _ _ => exact Or.inl hmem
      | _ => exact absurd he.isExpression (by simp [isExpression])

theorem hasNestedReads_children {e : Term} (h : e.HasNestedReads) (he : e.isMemoryCell = false) :
    ∃ c ∈ e.children, c.HasNestedReads := by
  obtain ⟨x, hx, hreads⟩ := h
  rw [subterms_eq] at hx
  rcases List.mem_cons.1 hx with rfl | hx
  · exact absurd he (by simp [isMemoryCell])
  · obtain ⟨c, hc, hx⟩ := List.mem_flatMap.1 hx
    exact ⟨c, hc, x, hx, hreads⟩

/-- The spared case keeps the addresses that read memory, if that of the store does not. -/
theorem hasNestedReads_spared (ha : a.IsWord) (hflat : ¬a.ReadsMemory) {e : Term} (he : e.IsWord)
    (h : e.HasNestedReads) : (e.readCases a v).spared.HasNestedReads := by
  induction e using inductionOnChildren with
  | step e ih =>
      cases e with
      | mem x =>
          have hx : x.IsWord := (isWord_mem x).1 he
          have hreads : x.ReadsMemory := by
            obtain ⟨y, hy, hnested⟩ := h
            rcases List.mem_cons.1 hy with heq | hy
            · exact Term.mem.inj heq ▸ hnested
            · exact ⟨y, hy⟩
          rw [readCases, Cases.spared, if_neg]
          · exact h
          · intro hforced
            have hsame := eq_of_simplifyEq_true (isWord_simplify ha) hforced
            refine hflat ((readsMemory_simplify ha).1 ?_)
            rw [hsame]
            exact (readsMemory_simplify hx).2 hreads
      | unary op t =>
          obtain ⟨c, hc, hnested⟩ := hasNestedReads_children h rfl
          rw [List.mem_singleton.1 hc] at hnested
          rw [readCases, Cases.spared_map]
          exact (ih t (by simp [children]) (he.child (by simp [children])) hnested).of_mem_subterms
            (mem_subterms_of_mem_children (by simp [children]) (mem_subterms_self _))
      | binary op t u =>
          obtain ⟨c, hc, hnested⟩ := hasNestedReads_children h rfl
          have hab : c = t ∨ c = u := by simpa [children] using hc
          rw [readCases, Cases.spared_combine]
          rcases hab with rfl | rfl
          · exact (ih c (by simp [children]) (he.child (by simp [children])) hnested).of_mem_subterms
              (mem_subterms_of_mem_children (by simp [children]) (mem_subterms_self _))
          · exact (ih c (by simp [children]) (he.child (by simp [children])) hnested).of_mem_subterms
              (mem_subterms_of_mem_children (by simp [children]) (mem_subterms_self _))
      | const _ | var _ | reg _ _ _ => exact h
      | _ => exact absurd he.isExpression (by simp [isExpression])

end

end Term

/-- What a watched memory cell comes from before a store: for every feasible case of its address, what the value
depends on and the cell there, as far as the two addresses are not known to differ or to be the same. -/
theorem Statement.mem_elementsBefore_store {a v y l : Term} (hv : v.Plain) :
    l ∈ (Statement.assign (.mem a) v).elementsBefore (.mem y) ↔ ∃ t, (y.readCases a v).Feasible t ∧
      ((simplifyEq a.simplify t.simplify ≠ .bool false ∧ l ∈ v.dependencies.map simplify) ∨
        (simplifyEq a.simplify t.simplify ≠ .bool true ∧ l = (Term.mem t).simplify)) := by
  have hconditions : (y.readCases a v).Forall (fun c => ∃ x, c = .eq a x) fun _ => True :=
    (forall_conditions_readCases y).imp (fun c ⟨x, hx, _⟩ => ⟨x, hx⟩) fun _ => id
  rw [Statement.elementsBefore, Cases.mem_atoms_toTerm hconditions]
  refine exists_congr fun t => and_congr_right fun _ => ?_
  have hsimplify : (resolve a v t).simplify = simplifyIte (simplifyEq a.simplify t.simplify)
      (simplify (ofList v.dependencies)) (simplify (member (.mem t))) := rfl
  rw [hsimplify, Cases.mem_atoms_simplifyIte (Cases.asFormula_simplifyEq _ _),
    mem_atoms_simplify_ofList fun e he => isLocation_of_mem_dependencies hv he, simplify_member rfl, atoms_member,
    List.mem_singleton]

end Backslice
