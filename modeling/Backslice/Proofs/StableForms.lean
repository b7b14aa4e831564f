import Backslice.Proofs.FoldedTerms
import Backslice.Proofs.Lists
import Mathlib

/-!
# The shape of disjunctive normal forms

A normal form is decided, or a disjunction of different clauses, each of them a
conjunction of different literals. The literals are the atoms and their
negations. A clause of this shape has one clause, that of its literals in their
order, so that a disjunction of such clauses has these clauses in their order,
and the constructors put them together as they were: the terms of this shape
are their own normal forms, and no others are.
-/

namespace Backslice

namespace Term

/-- Equalities, quantified formulas, expressions other than constants, and the negations of these. -/
def isLiteral : Term → Bool
  | .not a => a.isAtom
  | t => t.isAtom

/-- Whether a term is a conjunction of different literals. The conjunction of one literal is the literal. -/
def IsClause (t : Term) : Prop :=
  t.isLiteral = true ∨ ∃ ls, t = .and ls ∧ ls.Nodup ∧ ∀ l ∈ ls, l.isLiteral = true

/-- Whether a term is decided, or a disjunction of different clauses. The disjunction of one clause is the clause. -/
def IsDisjunctive (t : Term) : Prop :=
  (∃ b, t = .bool b) ∨ t.IsClause ∨ ∃ cs, t = .or cs ∧ cs.Nodup ∧ ∀ c ∈ cs, c.IsClause

theorem isLiteral_iff (t : Term) : t.isLiteral = true ↔ t.isAtom = true ∨ ∃ a, t = .not a ∧ a.isAtom = true := by
  cases t <;> simp [isLiteral, isAtom]

theorem conjuncts_of_isLiteral {l : Term} (h : l.isLiteral = true) : l.conjuncts = [l] := by
  cases l <;> first | rfl | cases h

theorem IsClause.isSummand {c : Term} (h : c.IsClause) : c.isSummand = true := by
  obtain h | ⟨ls, rfl, -⟩ := h
  · cases c <;> first | rfl | cases h
  · rfl

theorem conj_of_literals {c : Clause} (hc : ∀ l ∈ c, l.isLiteral = true) :
    (∃ b, conj c = .bool b) ∨ (conj c).IsClause := by
  have hparts : c.flatMap conjuncts = c := by
    rw [List.flatMap_congr fun l hl => conjuncts_of_isLiteral (hc l hl), List.flatMap_singleton']
  have hliteral : ∀ l ∈ c.eraseDups, l.isLiteral = true := fun l hl => hc l (List.mem_eraseDups.1 hl)
  rw [conj_eq, hparts]
  refine property_joined (P := fun t => (∃ b, t = .bool b) ∨ t.IsClause) ?_ ?_ ?_
  · exact fun b => Or.inl ⟨b, rfl⟩
  · exact fun l hl => Or.inr (Or.inl (hliteral l hl))
  · exact fun _ _ => Or.inr (Or.inr ⟨c.eraseDups, rfl, List.nodup_eraseDups c, hliteral⟩)

theorem isLiteral_of_mem_clauses {t : Term} {negated : Bool} :
    ∀ c ∈ t.clauses negated, ∀ l ∈ c, l.isLiteral = true := by
  refine forall_clauses (fun u hu => ?_) negated
  have hatom : u.isAtom = true := isAtom_of_mem_formulaAtoms hu
  exact ⟨(isLiteral_iff u).2 (Or.inl hatom), hatom⟩

theorem isDisjunctive_disjunctiveForm (t : Term) : t.disjunctiveForm.IsDisjunctive := by
  have hoperand : ∀ y ∈ (((t.clauses false).map conj).flatMap disjuncts).eraseDups, y = .bool true ∨ y.IsClause := by
    intro y hy
    obtain ⟨u, hu, hy⟩ := List.mem_flatMap.1 (List.mem_eraseDups.1 hy)
    obtain ⟨c, hc, rfl⟩ := List.mem_map.1 hu
    obtain ⟨b, hb⟩ | hclause := conj_of_literals (isLiteral_of_mem_clauses c hc)
    · rw [hb] at hy
      cases b with
      | false => exact absurd hy List.not_mem_nil
      | true => exact Or.inl (List.mem_singleton.1 hy)
    · rw [disjuncts_of_isSummand hclause.isSummand, List.mem_singleton] at hy
      exact Or.inr (hy ▸ hclause)
  rw [disjunctiveForm, share_eq, disj_eq]
  refine property_joined (fun b => Or.inl ⟨b, rfl⟩) ?_ ?_
  · intro y hy
    obtain htrue | hclause := hoperand y hy
    · exact Or.inl ⟨true, htrue⟩
    · exact Or.inr (Or.inl hclause)
  · intro _ htrue
    refine Or.inr (Or.inr ⟨_, rfl, List.nodup_eraseDups _, fun y hy => ?_⟩)
    exact (hoperand y hy).resolve_left fun h => htrue (h ▸ hy)

/-- The literals of a clause. -/
def literals : Term → Clause
  | .and ls => ls
  | t => [t]

theorem literals_of_isLiteral {l : Term} (h : l.isLiteral = true) : l.literals = [l] := by
  cases l <;> first | rfl | cases h

theorem clauses_of_isLiteral {l : Term} (h : l.isLiteral = true) : l.clauses false = [[l]] := by
  obtain hatom | ⟨a, rfl, ha⟩ := (isLiteral_iff l).1 h
  · exact clauses_of_isAtom hatom false
  · rw [clauses, clauses_of_isAtom ha, negate_of_isAtom ha]
    rfl

/-- The product of different literals is the clause of them, in their order. -/
theorem product_literals {ls : List Term} (h : ls.Nodup) : Clause.product (ls.map fun l => [[l]]) = [ls] := by
  have hfold : ∀ c : Clause, (c ++ ls).Nodup → (ls.map fun l => [[l]]).foldl Clause.product₂ [c] = [c ++ ls] := by
    clear h
    induction ls with
    | nil => simp
    | cons l ls ih =>
        intro c hc
        rw [List.append_cons] at hc
        have hjoined : Clause.product₂ [c] [[l]] = [c ++ [l]] := by
          have hnodup : (c ++ [l]).Nodup := hc.of_append_left
          have hone : [c ++ [l]].Nodup := List.nodup_singleton _
          simp [Clause.product₂, List.eraseDups_of_nodup hnodup, List.eraseDups_of_nodup hone]
        rw [List.map_cons, List.foldl_cons, hjoined, ih _ hc, ← List.append_cons]
  exact hfold [] h

theorem IsClause.clauses_eq {c : Term} (h : c.IsClause) : c.clauses false = [c.literals] := by
  obtain h | ⟨ls, rfl, hls, hliteral⟩ := h
  · rw [clauses_of_isLiteral h, literals_of_isLiteral h]
  · have hparts : ls.map (clauses · false) = ls.map fun l => [[l]] :=
      List.map_congr_left fun l hl => clauses_of_isLiteral (hliteral l hl)
    rw [clauses, if_neg Bool.false_ne_true, joinClauses_eq_product, hparts, product_literals hls, literals]

theorem IsClause.conj_literals {c : Term} (h : c.IsClause) (hc : c.IsNormal) : conj c.literals = c := by
  obtain h | ⟨ls, rfl, -, -⟩ := h
  · rw [literals_of_isLiteral h, conj_eq, List.flatMap_singleton, conjuncts_of_isLiteral h]
    rfl
  · exact conj_of_isNormal hc

theorem disj_of_isClause {c : Term} (h : c.IsClause) : disj [c] = c := by
  rw [disj_eq, List.flatMap_singleton, disjuncts_of_isSummand h.isSummand]
  rfl

theorem disjunctiveForm_of_isDisjunctive {t : Term} (ht : t.IsNormal) (h : t.IsDisjunctive) :
    t.disjunctiveForm = t := by
  rw [disjunctiveForm, share_eq]
  obtain ⟨b, rfl⟩ | hclause | ⟨cs, rfl, hcs, hclauses⟩ := h
  · cases b <;> rfl
  · rw [hclause.clauses_eq, List.map_singleton, hclause.conj_literals ht, disj_of_isClause hclause]
  · have hparts : cs.map (clauses · false) = (cs.map literals).map fun c => [c] := by
      rw [List.map_map]
      exact List.map_congr_left fun c hc => (hclauses c hc).clauses_eq
    have hback : (cs.map literals).map conj = cs := by
      rw [List.map_map]
      refine (List.map_congr_left fun c hc => ?_).trans (List.map_id cs)
      exact (hclauses c hc).conj_literals (ht.child hc)
    -- Different clauses have different lists of literals, as the constructor takes these back to the clauses.
    have hdistinct : (cs.map literals).Nodup := by
      refine List.Nodup.of_map conj ?_
      rwa [hback]
    rw [clauses, if_neg Bool.false_ne_true, clausesAll_eq_map, hparts, Clause.sum, ← List.flatMap_def,
      List.flatMap_singleton', distinctLists_eq_eraseDups, List.eraseDups_of_nodup hdistinct, hback]
    exact disj_of_isNormal ht

end Term

namespace Manager

variable {m : Manager} {i : Nat} {t : Term}

theorem outcome_disjunctiveForm (hi : m.arena.term? i = some t) :
    (m.outcome (.disjunctiveForm i)).1 = .ok [t.disjunctiveForm] := by
  unfold outcome Operation.results
  rw [Building.run_bind_ok (Building.Reads.term hi _)]
  rfl

/-- Disjunctive normal forms have their shape and are stable. In a manager, after any operations on it, the normal form
of a term is decided, or a disjunction of different clauses, each a conjunction of different literals. Whatever is asked
of the manager later, the handle of a term of this shape is returned when the normal form of this term is asked for;
the handle of the first normal form is among these. -/
theorem disjunctiveForm_settles (hm : m.arena.IsManaged) (hi : m.arena.term? i = some t) :
    ∃ j, (m.perform (.disjunctiveForm i)).1 = .ok [j] ∧
      (m.perform (.disjunctiveForm i)).2.arena.term? j = some t.disjunctiveForm ∧
      t.disjunctiveForm.IsDisjunctive ∧ t.disjunctiveForm.IsNormal ∧
      ∀ later, (((m.perform (.disjunctiveForm i)).2.run later).2.perform (.disjunctiveForm j)).1 = .ok [j] ∧
        ∀ k u, ((m.perform (.disjunctiveForm i)).2.run later).2.arena.term? k = some u → u.IsDisjunctive →
          (((m.perform (.disjunctiveForm i)).2.run later).2.perform (.disjunctiveForm k)).1 = .ok [k] := by
  obtain ⟨ts, hts⟩ := hm.exists_holds
  obtain ⟨us, j, hus, -, hreturned, hj⟩ := exists_handle hts (outcome_disjunctiveForm hi)
  have hform : (m.perform (.disjunctiveForm i)).2.arena.term? j = some t.disjunctiveForm := (hus.term?_eq j).trans hj
  have hstable : ∀ later k u, ((m.perform (.disjunctiveForm i)).2.run later).2.arena.term? k = some u →
      u.IsDisjunctive →
        (((m.perform (.disjunctiveForm i)).2.run later).2.perform (.disjunctiveForm k)).1 = .ok [k] := by
    intro later k u hk hu
    have hnormal : u.IsNormal := property_run Term.isHereditary_isNormal hm (.disjunctiveForm i :: later) hk
    obtain ⟨vs, hvs, -⟩ := holds_run hus later
    refine perform_of_held hvs ?_ ((hvs.term?_eq k).symm.trans hk)
    rw [outcome_disjunctiveForm hk, Term.disjunctiveForm_of_isDisjunctive hnormal hu]
  refine ⟨j, hreturned, hform, t.isDisjunctive_disjunctiveForm, ?_, fun later => ⟨?_, hstable later⟩⟩
  · exact property_run Term.isHereditary_isNormal hm [.disjunctiveForm i] hform
  · obtain ⟨vs, hvs, hmore, -⟩ := holds_run hus later
    exact hstable later j _ ((hvs.term?_eq j).trans (termAt_mono hmore hj)) t.isDisjunctive_disjunctiveForm

/-- A conditional with a negated conjunction as its first branch. -/
def guardedChoice : List Operation :=
  [.var "a", .reg "r1" 0 0, .eq 5 4, .conj [4, 6], .negate 7, .ite 4 8 5]

/-- It has three clauses, in the first of which a literal meets its own negation. -/
theorem disjunctiveForm_settles_guardedChoice :
    ∃ created, Manager.new 0 = .ok created ∧ (created.run guardedChoice).2.arena.IsManaged ∧
      (created.run guardedChoice).2.arena.term? 9 = some
        (.ite (.var "a") (.not (.and [.var "a", .eq (.reg "r1" 0 0) (.var "a")])) (.reg "r1" 0 0)) ∧
      ((created.run guardedChoice).2.perform (.disjunctiveForm 9)).1 = .ok [15] ∧
      ((created.run guardedChoice).2.perform (.disjunctiveForm 9)).2.arena.term? 15 = some
        (.or [.and [.var "a", .not (.var "a")], .and [.var "a", .not (.eq (.reg "r1" 0 0) (.var "a"))],
          .and [.not (.var "a"), .reg "r1" 0 0]]) ∧
      ∀ later, ((((created.run guardedChoice).2.perform (.disjunctiveForm 9)).2.run later).2.perform
        (.disjunctiveForm 15)).1 = .ok [15] := by
  have hterm : (Manager.new 0).map (fun created => (created.run guardedChoice).2.arena.term? 9) = .ok (some
      (.ite (.var "a") (.not (.and [.var "a", .eq (.reg "r1" 0 0) (.var "a")])) (.reg "r1" 0 0))) := by
    decide +kernel
  have hreturned : (Manager.new 0).map (fun created =>
      (((created.run guardedChoice).2.perform (.disjunctiveForm 9)).1,
        ((created.run guardedChoice).2.perform (.disjunctiveForm 9)).2.arena.term? 15)) = .ok (.ok [15], some
        (.or [.and [.var "a", .not (.var "a")], .and [.var "a", .not (.eq (.reg "r1" 0 0) (.var "a"))],
          .and [.not (.var "a"), .reg "r1" 0 0]])) := by
    decide +kernel
  obtain ⟨created, hcreated, hterm⟩ := Except.exists_of_map_eq_ok hterm
  rw [hcreated] at hreturned
  obtain ⟨hfirst, hform⟩ := Prod.mk.inj (Except.ok.inj hreturned)
  have hmanaged : (created.run guardedChoice).2.arena.IsManaged := ⟨0, created, guardedChoice, hcreated, rfl⟩
  obtain ⟨j, hj, -, -, -, hlater⟩ := disjunctiveForm_settles hmanaged hterm
  obtain rfl : j = 15 := by simpa using hj.symm.trans hfirst
  exact ⟨created, hcreated, hmanaged, hterm, hfirst, hform, fun later => (hlater later).1⟩

end Manager
end Backslice
