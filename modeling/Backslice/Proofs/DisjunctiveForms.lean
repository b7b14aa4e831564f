import Backslice.Proofs.Simplification

/-!
# What the disjunctive normal form says

The literals in the clauses of a formula are its atoms and the negations of
these. The clauses of a formula, one of them true in all its literals, say what
the formula says, and those of its negation say the contrary; both by one
induction, as a negation turns the one into the other. So the form of a formula
is true in the same readings of the atoms, and in the same valuations.
-/

namespace Backslice

namespace Clause

theorem mem_sum {parts : List (List Clause)} {c : Clause} : c ∈ sum parts ↔ ∃ part ∈ parts, c ∈ part := by
  simp [sum, Term.distinctLists_eq_eraseDups]

theorem mem_product₂ {left right : List Clause} {c : Clause} :
    c ∈ product₂ left right ↔ ∃ d ∈ left, ∃ e ∈ right, c = (d ++ e).eraseDups := by
  simp [product₂, eq_comm]

/-- To join further parts is to add one clause from each of them, and nothing else, to one of the clauses so far. -/
theorem of_mem_foldl_product₂ {parts : List (List Clause)} {joined : List Clause} {c : Clause}
    (h : c ∈ parts.foldl product₂ joined) :
    ∃ d ∈ joined, (∀ y ∈ d, y ∈ c) ∧ (∀ part ∈ parts, ∃ e ∈ part, ∀ y ∈ e, y ∈ c) ∧
      ∀ y ∈ c, y ∈ d ∨ ∃ part ∈ parts, ∃ e ∈ part, y ∈ e := by
  induction parts generalizing joined with
  | nil => exact ⟨c, h, fun _ hy => hy, by simp, fun _ hy => Or.inl hy⟩
  | cons part parts ih =>
      obtain ⟨f, hf, hsub, hall, hfrom⟩ := ih h
      obtain ⟨d, hd, e, he, rfl⟩ := mem_product₂.1 hf
      simp only [List.mem_eraseDups, List.mem_append] at hsub hfrom
      refine ⟨d, hd, fun y hy => hsub y (Or.inl hy), ?_, fun y hy => ?_⟩
      · exact List.forall_mem_cons.2 ⟨⟨e, he, fun y hy => hsub y (Or.inr hy)⟩, hall⟩
      · rcases hfrom y hy with (hyd | hye) | ⟨other, hother, hy⟩
        · exact Or.inl hyd
        · exact Or.inr ⟨part, List.mem_cons_self, e, he, hye⟩
        · exact Or.inr ⟨other, List.mem_cons_of_mem part hother, hy⟩

/-- A clause of a product consists of one clause from each of the factors. -/
theorem of_mem_product {parts : List (List Clause)} {c : Clause} (h : c ∈ product parts) :
    (∀ y ∈ c, ∃ part ∈ parts, ∃ d ∈ part, y ∈ d) ∧ ∀ part ∈ parts, ∃ d ∈ part, ∀ y ∈ d, y ∈ c := by
  obtain ⟨d, hd, -, hall, hfrom⟩ := of_mem_foldl_product₂ h
  obtain rfl := List.mem_singleton.1 hd
  exact ⟨fun y hy => (hfrom y hy).resolve_left List.not_mem_nil, hall⟩

theorem mem_product_literal {e : Term} {cs : List Clause} {c : Clause} :
    c ∈ product [[[e]], cs] ↔ ∃ d ∈ cs, c = (e :: d).eraseDups := by
  simp [product, mem_product₂, List.eraseDups_cons]

end Clause

namespace Term

theorem negate_of_isAtom {t : Term} (h : t.isAtom = true) : t.negate = .not t := by
  cases t <;> first | rfl | simp [isAtom] at h

theorem clauses_of_isAtom {t : Term} (h : t.isAtom = true) (negated : Bool) :
    t.clauses negated = [[if negated then t.negate else t]] := by
  cases t <;> first | rfl | simp [isAtom] at h

section
variable {P : Term → Prop} {parts : List (List Clause)}

theorem forall_sum (hparts : ∀ part ∈ parts, ∀ c ∈ part, ∀ l ∈ c, P l) : ∀ c ∈ Clause.sum parts, ∀ l ∈ c, P l := by
  intro c hc
  obtain ⟨part, hpart, hc⟩ := Clause.mem_sum.1 hc
  exact hparts part hpart c hc

theorem forall_product (hparts : ∀ part ∈ parts, ∀ c ∈ part, ∀ l ∈ c, P l) :
    ∀ c ∈ Clause.product parts, ∀ l ∈ c, P l := by
  intro c hc l hl
  obtain ⟨part, hpart, d, hd, hl⟩ := (Clause.of_mem_product hc).1 l hl
  exact hparts part hpart d hd l hl

/-- What is true of the atoms of a formula and of their negations is true of all literals of its clauses. -/
theorem forall_clauses {t : Term} (hP : ∀ u ∈ t.formulaAtoms, P u ∧ P (.not u)) :
    ∀ negated, ∀ c ∈ t.clauses negated, ∀ l ∈ c, P l := by
  induction t using inductionOnChildren with
  | step t ih =>
      intro negated
      by_cases ht : t.isAtom = true
      · have hself := hP t (by simp [formulaAtoms_of_isAtom ht])
        rw [clauses_of_isAtom ht, negate_of_isAtom ht]
        cases negated
        · simpa using hself.1
        · simpa using hself.2
      · have hconn : t.isAtom = false := by simpa using ht
        have hchild : ∀ c ∈ t.children, ∀ negated, ∀ d ∈ c.clauses negated, ∀ l ∈ d, P l := fun c hc =>
          ih c hc fun u hu => hP u (collects_formulaAtoms.of_child hconn hc hu)
        have hchildren : ∀ part ∈ t.children.map (·.clauses negated), ∀ c ∈ part, ∀ l ∈ c, P l :=
          List.forall_mem_map.2 fun c hc => hchild c hc negated
        have hofBool : ∀ b, ∀ c ∈ Clause.ofBool b, ∀ l ∈ c, P l := fun b => by cases b <;> simp [Clause.ofBool]
        cases t with
        | const v => exact hofBool _
        | bool b => exact hofBool _
        | not a => exact hchild a (by simp [children]) _
        | and xs =>
            rw [clauses, joinClauses_eq_product, clausesAll_eq_map]
            split
            · exact forall_sum hchildren
            · exact forall_product hchildren
        | or xs =>
            rw [clauses, joinClauses_eq_product, clausesAll_eq_map]
            split
            · exact forall_product hchildren
            · exact forall_sum hchildren
        | ite c a b =>
            have hboth : ∀ d ∈ [c, a, b], ∀ e ∈ [c, a, b], ∀ n n',
                ∀ clause ∈ Clause.product [d.clauses n, e.clauses n'], ∀ l ∈ clause, P l := by
              intro d hd e he n n'
              refine forall_product (List.forall_mem_cons.2 ⟨hchild d hd n, ?_⟩)
              exact List.forall_mem_singleton.2 (hchild e he n')
            rw [clauses]
            refine forall_sum (List.forall_mem_cons.2 ⟨hboth c (by simp) a (by simp) false negated, ?_⟩)
            exact List.forall_mem_singleton.2 (hboth c (by simp) b (by simp) true negated)
        | _ => simp [isAtom] at hconn

end

/-- The disjunctive normal form brings in no atoms. -/
theorem formulaAtoms_disjunctiveForm {t u : Term} (h : u ∈ t.disjunctiveForm.formulaAtoms) : u ∈ t.formulaAtoms := by
  rw [disjunctiveForm, share_eq] at h
  obtain ⟨_, hmem, h⟩ := collects_formulaAtoms.exists_of_disj h
  obtain ⟨c, hc, rfl⟩ := List.mem_map.1 hmem
  obtain ⟨l, hl, h⟩ := collects_formulaAtoms.exists_of_conj h
  refine forall_clauses (P := fun l => ∀ u ∈ l.formulaAtoms, u ∈ t.formulaAtoms) (fun w hw => ?_) false c hc l hl u h
  rw [collects_formulaAtoms.not, formulaAtoms_of_isAtom (isAtom_of_mem_formulaAtoms hw)]
  exact ⟨List.forall_mem_singleton.2 hw, List.forall_mem_singleton.2 hw⟩

/-- Whether all literals of some clause are true. -/
def clausesTrue (atom : Term → Prop) (cs : List Clause) : Prop :=
  ∃ c ∈ cs, ∀ l ∈ c, truth atom l

section
variable (atom : Term → Prop)

theorem clausesTrue_ofBool (b : Bool) : clausesTrue atom (Clause.ofBool b) ↔ b = true := by
  cases b <;> simp [clausesTrue, Clause.ofBool]

theorem clausesTrue_sum (parts : List (List Clause)) :
    clausesTrue atom (Clause.sum parts) ↔ ∃ part ∈ parts, clausesTrue atom part := by
  simp only [clausesTrue, Clause.mem_sum]
  constructor
  · rintro ⟨c, ⟨part, hpart, hc⟩, h⟩
    exact ⟨part, hpart, c, hc, h⟩
  · rintro ⟨part, hpart, c, hc, h⟩
    exact ⟨c, ⟨part, hpart, hc⟩, h⟩

theorem clausesTrue_product₂ (left right : List Clause) :
    clausesTrue atom (Clause.product₂ left right) ↔ clausesTrue atom left ∧ clausesTrue atom right := by
  simp only [clausesTrue, Clause.mem_product₂]
  constructor
  · rintro ⟨_, ⟨c, hc, d, hd, rfl⟩, h⟩
    simp only [List.mem_eraseDups, List.mem_append] at h
    exact ⟨⟨c, hc, fun l hl => h l (Or.inl hl)⟩, ⟨d, hd, fun l hl => h l (Or.inr hl)⟩⟩
  · rintro ⟨⟨c, hc, hcl⟩, ⟨d, hd, hdl⟩⟩
    refine ⟨_, ⟨c, hc, d, hd, rfl⟩, fun l hl => ?_⟩
    simp only [List.mem_eraseDups, List.mem_append] at hl
    exact hl.elim (hcl l) (hdl l)

theorem clausesTrue_product (parts : List (List Clause)) :
    clausesTrue atom (Clause.product parts) ↔ ∀ part ∈ parts, clausesTrue atom part := by
  have hfold : ∀ joined, clausesTrue atom (parts.foldl Clause.product₂ joined) ↔
      clausesTrue atom joined ∧ ∀ part ∈ parts, clausesTrue atom part := by
    induction parts with
    | nil => simp
    | cons part parts ih =>
        intro joined
        rw [List.foldl_cons, ih, clausesTrue_product₂, List.forall_mem_cons, and_assoc]
  rw [Clause.product, hfold]
  simp [clausesTrue]

/-- The clauses of a formula say what the formula says, and those of its negation the contrary. -/
theorem clausesTrue_clauses (t : Term) :
    ∀ negated, clausesTrue atom (t.clauses negated) ↔ if negated then ¬truth atom t else truth atom t := by
  induction t using inductionOnChildren with
  | step t ih =>
      intro negated
      by_cases ht : t.isAtom = true
      · rw [clauses_of_isAtom ht]
        cases negated <;> simp [clausesTrue, truth_negate]
      · cases t with
        | const w => cases negated <;> simp [clauses, clausesTrue_ofBool]
        | bool b => cases negated <;> simp [clauses, clausesTrue_ofBool]
        | not a =>
            rw [clauses, ih a (by simp [children])]
            cases negated <;> simp
        | and xs =>
            -- The clauses are a product of those of the operands, and a sum if they are negated.
            have hxs : ∀ x ∈ xs, clausesTrue atom (x.clauses negated) ↔
                if negated then ¬truth atom x else truth atom x := fun x hx =>
              ih x (by simpa [children] using hx) negated
            cases negated with
            | true =>
                simp only [clauses, clausesTrue_sum, clausesAll_eq_map, List.mem_map, exists_exists_and_eq_and,
                  if_true, truth_and, Classical.not_forall, exists_prop]
                exact exists_congr fun x => and_congr_right fun hx => by simpa using hxs x hx
            | false =>
                simp only [clauses, joinClauses_eq_product, clausesTrue_product, List.forall_mem_map, truth_and,
                  Bool.false_eq_true, if_false]
                exact forall_congr' fun x => imp_congr_right fun hx => by simpa using hxs x hx
        | or xs =>
            have hxs : ∀ x ∈ xs, clausesTrue atom (x.clauses negated) ↔
                if negated then ¬truth atom x else truth atom x := fun x hx =>
              ih x (by simpa [children] using hx) negated
            cases negated with
            | true =>
                simp only [clauses, joinClauses_eq_product, clausesTrue_product, List.forall_mem_map, truth_or,
                  if_true, not_exists, not_and]
                exact forall_congr' fun x => imp_congr_right fun hx => by simpa using hxs x hx
            | false =>
                simp only [clauses, clausesTrue_sum, clausesAll_eq_map, List.mem_map, exists_exists_and_eq_and,
                  truth_or, Bool.false_eq_true, if_false]
                exact exists_congr fun x => and_congr_right fun hx => by simpa using hxs x hx
        | ite c a b =>
            have hc := ih c (by simp [children])
            have ha := ih a (by simp [children]) negated
            have hb := ih b (by simp [children]) negated
            rw [clauses, clausesTrue_sum]
            simp only [List.mem_cons, List.not_mem_nil, or_false, exists_eq_or_imp, exists_eq_left,
              clausesTrue_product, forall_eq_or_imp, forall_eq, hc, ha, hb, truth_ite]
            by_cases h : truth atom c <;> cases negated <;> simp [h]
        | _ => simp [isAtom] at ht

/-- The disjunctive normal form of a formula says what the formula says. -/
theorem truth_disjunctiveForm (t : Term) : truth atom t.disjunctiveForm ↔ truth atom t := by
  rw [disjunctiveForm, truth_disj, share_eq]
  simp only [List.mem_map, exists_exists_and_eq_and, truth_conj]
  exact clausesTrue_clauses atom t false

end

/-- The disjunctive normal form of a formula is a formula over some of the same atoms. It is true in the same readings
of the atoms, and holds in the same valuations, whatever divisions by zero yield. -/
theorem disjunctiveForm_equivalent (t : Term) :
    (∀ u ∈ t.disjunctiveForm.formulaAtoms, u ∈ t.formulaAtoms) ∧
      (∀ atom, truth atom t.disjunctiveForm ↔ truth atom t) ∧
      ∀ z v, t.disjunctiveForm.holds z v ↔ t.holds z v := by
  refine ⟨fun u => formulaAtoms_disjunctiveForm, fun atom => truth_disjunctiveForm atom t, fun z v => ?_⟩
  rw [← truth_holds z v, ← truth_holds z v, truth_disjunctiveForm]

end Term
end Backslice
