import Backslice.Proofs.FlattenedSets
import Mathlib

/-!
# Unions

A formula is known from its top-level disjuncts, and the disjuncts of a union
are those of the two sets, each at its first occurrence, unless one of them is
true. The laws of a join follow from those of appending lists without
repetitions. A union is the first set itself exactly when the second set has no
disjunct of its own, so that the change of a set by a union is seen from the
handles. What may belong to a union comes in the order of its sets.
-/

namespace Backslice

namespace Term

section
variable {t : Term}

theorem IsNormal.nodup_disjuncts (h : t.IsNormal) : t.disjuncts.Nodup := by
  have hbool : ∀ b, (Term.bool b).disjuncts.Nodup := fun b => by cases b <;> simp [disjuncts, asFormula]
  cases t with
  | const v => exact hbool _
  | bool b => exact hbool b
  | or xs =>
      have hdistinct := List.nodup_eraseDups xs
      rwa [h.head.2.1] at hdistinct
  | _ => exact List.nodup_singleton _

theorem disj_singleton (h : t.IsNormal) (ht : t.isConstant = false) : disj [t] = t := by
  rw [disj_eq, List.flatMap_singleton, List.eraseDups_of_nodup h.nodup_disjuncts]
  cases t with
  | const v => cases ht
  | bool b => cases b <;> rfl
  | or xs => exact joined_eq_wrap h.head.1 h.head.2.2.1
  | _ => rfl

theorem true_mem_disjuncts_iff (h : t.IsNormal) (ht : t.isConstant = false) :
    .bool true ∈ t.disjuncts ↔ t = .bool true := by
  cases t with
  | const v => cases ht
  | bool b => cases b <;> simp [disjuncts, asFormula]
  | or xs => exact iff_of_false h.head.2.2.1 (by simp)
  | _ => simp [disjuncts, asFormula]

theorem atoms_eq_flatMap_disjuncts (t : Term) :
    ConditionalSet.atoms t = t.disjuncts.flatMap ConditionalSet.atoms := by
  cases t with
  | const v => cases hv : v != 0 <;> simp [disjuncts, asFormula, hv, ConditionalSet.atoms]
  | bool b => cases b <;> rfl
  | or xs =>
      rw [ConditionalSet.atoms, ConditionalSet.atomsAll_eq_flatMap]
      rfl
  | _ => exact (List.flatMap_singleton _ _).symm

end

section
variable {ts : List Term}

theorem joined_of_true_mem (h : .bool true ∈ ts) : joined false .or ts = .bool true := by
  unfold joined
  split
  next => exact absurd h List.not_mem_nil
  next t => exact (List.mem_singleton.1 h).symm
  next =>
    have hmem : .bool (!false) ∈ ts := h
    rw [if_pos hmem, Bool.not_false]

theorem disj_of_true_mem (h : .bool true ∈ ts.flatMap disjuncts) : disj ts = .bool true := by
  rw [disj_eq, joined_of_true_mem (List.mem_eraseDups.2 h)]

theorem disjuncts_disj_of_isNormal (hts : ∀ t ∈ ts, t.IsNormal) (htrue : .bool true ∉ ts.flatMap disjuncts) :
    (disj ts).disjuncts = (ts.flatMap disjuncts).eraseDups := by
  have hself : ∀ y ∈ (ts.flatMap disjuncts).eraseDups, y.disjuncts = [y] := by
    intro y hy
    obtain ⟨t, ht, hy⟩ := List.mem_flatMap.1 (List.mem_eraseDups.1 hy)
    exact ((hts t ht).disjunct hy).2
  rw [disj_eq]
  unfold joined
  split
  next heq => rw [heq]; rfl
  next y heq => rw [heq, hself y (by rw [heq]; exact List.mem_singleton_self y)]
  next =>
    have hmem : .bool (!false) ∉ (ts.flatMap disjuncts).eraseDups := mt List.mem_eraseDups.1 htrue
    rw [if_neg hmem]
    rfl

end

section
variable {a b c : Term}

theorem flatMap_disjuncts_pair (a b : Term) : [a, b].flatMap disjuncts = a.disjuncts ++ b.disjuncts := by
  rw [List.flatMap_cons, List.flatMap_singleton]

theorem true_mem_disjuncts_disj (h : .bool true ∈ a.disjuncts ∨ .bool true ∈ b.disjuncts) :
    .bool true ∈ (disj [a, b]).disjuncts := by
  rw [← List.mem_append, ← flatMap_disjuncts_pair] at h
  rw [disj_of_true_mem h]
  exact List.mem_singleton_self _

theorem disjuncts_disj_pair (ha : a.IsNormal) (hb : b.IsNormal)
    (h : ¬(.bool true ∈ a.disjuncts ∨ .bool true ∈ b.disjuncts)) :
    (disj [a, b]).disjuncts = (a.disjuncts ++ b.disjuncts).eraseDups := by
  rw [← List.mem_append, ← flatMap_disjuncts_pair] at h
  rw [← flatMap_disjuncts_pair]
  exact disjuncts_disj_of_isNormal (by simp [ha, hb]) h

/-- A true disjunct of any of the three makes both sides true. Otherwise both sides have the disjuncts of the three. -/
theorem disj_assoc (ha : a.IsNormal) (hb : b.IsNormal) (hc : c.IsNormal) :
    disj [disj [a, b], c] = disj [a, disj [b, c]] := by
  by_cases htrue : (.bool true ∈ a.disjuncts ∨ .bool true ∈ b.disjuncts) ∨ .bool true ∈ c.disjuncts
  · have hleft : .bool true ∈ [disj [a, b], c].flatMap disjuncts := by
      rw [flatMap_disjuncts_pair, List.mem_append]
      exact htrue.imp_left true_mem_disjuncts_disj
    have hright : .bool true ∈ [a, disj [b, c]].flatMap disjuncts := by
      rw [flatMap_disjuncts_pair, List.mem_append]
      exact (or_assoc.1 htrue).imp_right true_mem_disjuncts_disj
    rw [disj_of_true_mem hleft, disj_of_true_mem hright]
  · have hab := mt Or.inl htrue
    have hbc := mt Or.inr (mt or_assoc.2 htrue)
    rw [disj_eq, disj_eq [a, disj [b, c]], flatMap_disjuncts_pair, flatMap_disjuncts_pair,
      disjuncts_disj_pair ha hb hab, disjuncts_disj_pair hb hc hbc, List.eraseDups_eraseDups_append,
      List.eraseDups_append_eraseDups, List.append_assoc]

theorem disj_self (ha : a.IsNormal) (hformula : a.isConstant = false) : disj [a, a] = a :=
  disj_eq_left (disj_singleton ha hformula) fun _ hy => hy

theorem disj_false_right (ha : a.IsNormal) (hformula : a.isConstant = false) : disj [a, .bool false] = a :=
  disj_eq_left (disj_singleton ha hformula) fun _ hy => absurd hy List.not_mem_nil

theorem disj_false_left (ha : a.IsNormal) (hformula : a.isConstant = false) : disj [.bool false, a] = a := by
  have hself := disj_singleton ha hformula
  rw [disj_eq, List.flatMap_singleton] at hself
  rw [disj_eq, flatMap_disjuncts_pair]
  exact hself

theorem disj_true_right (a : Term) : disj [a, .bool true] = .bool true := by
  refine disj_of_true_mem ?_
  rw [flatMap_disjuncts_pair]
  exact List.mem_append_right _ List.mem_cons_self

theorem disj_true_left (a : Term) : disj [.bool true, a] = .bool true :=
  disj_of_true_mem List.mem_cons_self

theorem joined_perm {xs ys : List Term} (h : xs.Perm ys) :
    joined false .or xs = joined false .or ys ∨ (joined false .or xs = .or xs ∧ joined false .or ys = .or ys) := by
  by_cases htrue : .bool true ∈ xs
  · rw [joined_of_true_mem htrue, joined_of_true_mem (h.mem_iff.1 htrue)]
    exact Or.inl rfl
  · by_cases hlength : 2 ≤ xs.length
    · exact Or.inr ⟨joined_eq_wrap hlength htrue, joined_eq_wrap (h.length_eq ▸ hlength) (mt h.mem_iff.2 htrue)⟩
    · match xs with
      | [] => exact Or.inl (by rw [List.nil_perm.1 h])
      | [x] => exact Or.inl (by rw [List.singleton_perm.1 h])
      | x :: y :: xs => exact absurd (by simp) hlength

theorem disj_comm (a b : Term) :
    disj [a, b] = disj [b, a] ∨ ∃ xs ys, xs.Perm ys ∧ disj [a, b] = .or xs ∧ disj [b, a] = .or ys := by
  have hperm : (a.disjuncts ++ b.disjuncts).eraseDups.Perm (b.disjuncts ++ a.disjuncts).eraseDups := by
    refine (List.perm_ext_iff_of_nodup (List.nodup_eraseDups _) (List.nodup_eraseDups _)).2 fun y => ?_
    simp only [List.mem_eraseDups, List.mem_append, or_comm]
  rw [disj_eq, disj_eq [b, a], flatMap_disjuncts_pair, flatMap_disjuncts_pair]
  exact (joined_perm hperm).imp_right fun h => ⟨_, _, hperm, h.1, h.2⟩

/-- A union leaves a formula as it is if the formula is true, or has the disjuncts of the other one. -/
theorem disj_eq_left_iff (ha : a.IsNormal) (hb : b.IsNormal) (hformula : a.isConstant = false) :
    disj [a, b] = a ↔ a = .bool true ∨ ∀ y ∈ b.disjuncts, y ∈ a.disjuncts := by
  constructor
  · intro h
    refine or_iff_not_imp_left.2 fun htrue y hy => ?_
    have hta : .bool true ∉ a.disjuncts := mt (true_mem_disjuncts_iff ha hformula).1 htrue
    have hnone : ¬(.bool true ∈ a.disjuncts ∨ .bool true ∈ b.disjuncts) := fun hmem => by
      have hunion := true_mem_disjuncts_disj hmem
      rw [h] at hunion
      exact hta hunion
    have hdisjuncts := disjuncts_disj_pair ha hb hnone
    rw [h] at hdisjuncts
    rw [hdisjuncts]
    exact List.mem_eraseDups.2 (List.mem_append_right _ hy)
  · rintro (rfl | hsub)
    · exact disj_true_left b
    · exact disj_eq_left (disj_singleton ha hformula) hsub

end

end Term

namespace ConditionalSet

open Term

/-- The values of a union are those of the first set, and then those of the second that are new. -/
theorem possibleValues_union {s t : ConditionalSet} (hs : s.IsNormal) (ht : t.IsNormal)
    (hs' : s.isConstant = false) (ht' : t.isConstant = false) (hstrue : s ≠ .bool true) (httrue : t ≠ .bool true) :
    (s.union t).possibleValues = s.possibleValues ++ t.possibleValues.filter (· ∉ s.possibleValues) := by
  have hnone : ¬(.bool true ∈ s.disjuncts ∨ .bool true ∈ t.disjuncts) := by
    rw [true_mem_disjuncts_iff hs hs', true_mem_disjuncts_iff ht ht', not_or]
    exact ⟨hstrue, httrue⟩
  have hatoms : (atoms (s.union t)).eraseDups = (atoms s ++ atoms t).eraseDups := by
    rw [atoms_eq_flatMap_disjuncts, union, disjuncts_disj_pair hs ht hnone, List.eraseDups_flatMap_eraseDups,
      List.flatMap_append, ← atoms_eq_flatMap_disjuncts, ← atoms_eq_flatMap_disjuncts]
  rw [possibleValues, possibleValues, possibleValues, distinct_eq_eraseDups, distinct_eq_eraseDups,
    distinct_eq_eraseDups, hatoms, List.eraseDups_append_eq]

end ConditionalSet

namespace Manager

variable {m : Manager} {i j k : Nat} {a b c : Term}

theorem outcome_disj (hi : m.arena.term? i = some a) (hj : m.arena.term? j = some b) :
    (m.outcome (.disj [i, j])).1 = .ok [Term.disj [a, b]] := by
  unfold outcome Operation.results
  rw [Building.run_bind_ok (Building.Reads.terms (.cons hi (.cons hj .nil)) _)]
  rfl

theorem outcome_union (hi : m.arena.term? i = some a) (hj : m.arena.term? j = some b) :
    (m.outcome (.union i j)).1 = .ok [ConditionalSet.union a b] := by
  unfold outcome Operation.results
  rw [Building.run_bind_ok (Building.Reads.term hi _), Building.run_bind_ok (Building.Reads.term hj _)]
  rfl

section
variable {ts : List Term} (hts : m.arena.Holds ts) (hi : m.arena.term? i = some a) (hj : m.arena.term? j = some b)
include hts hi hj

/-- A disjunction that is one of the terms held is answered with its handle. -/
theorem answers_disj {l : Nat} (hl : m.arena.term? l = some (Term.disj [a, b])) : m.Answers (.disj [i, j]) [l] :=
  answers_of_held hts (fun _ hm' => outcome_disj (hm' hi) (hm' hj)) (by rw [List.map_singleton, hl]; rfl)

theorem disj_assoc_handles (hk : m.arena.term? k = some c) (ha : a.IsNormal) (hb : b.IsNormal) (hc : c.IsNormal) :
    ∃ ij m₁ jk m₂ l m₃, m.perform (.disj [i, j]) = (.ok [ij], m₁) ∧ m₁.perform (.disj [j, k]) = (.ok [jk], m₂) ∧
      m₂.perform (.disj [ij, k]) = (.ok [l], m₃) ∧ m₃.Answers (.disj [i, jk]) [l] := by
  obtain ⟨ij, m₁, us, hperform₁, hus, hm₁, hij⟩ := exists_performed_one hts (outcome_disj hi hj)
  obtain ⟨jk, m₂, vs, hperform₂, hvs, hm₂, hjk⟩ := exists_performed_one hus (outcome_disj (hm₁ hj) (hm₁ hk))
  obtain ⟨l, m₃, ws, hperform₃, hws, hm₃, hl⟩ := exists_performed_one hvs (outcome_disj (hm₂ hij) (hm₂ (hm₁ hk)))
  refine ⟨ij, m₁, jk, m₂, l, m₃, hperform₁, hperform₂, hperform₃, ?_⟩
  rw [Term.disj_assoc ha hb hc] at hl
  exact answers_disj hws (hm₃ (hm₂ (hm₁ hi))) (hm₃ hjk) hl

theorem disj_comm_handles :
    ∃ l m₁ r m₂, m.perform (.disj [i, j]) = (.ok [l], m₁) ∧ m₁.perform (.disj [j, i]) = (.ok [r], m₂) ∧
      (l = r ∨ ∃ xs ys, xs.Perm ys ∧ m₂.arena.term? l = some (.or xs) ∧ m₂.arena.term? r = some (.or ys)) := by
  obtain ⟨l, m₁, us, hperform₁, hus, hm₁, hl⟩ := exists_performed_one hts (outcome_disj hi hj)
  obtain ⟨r, m₂, vs, hperform₂, hvs, hm₂, hr⟩ := exists_performed_one hus (outcome_disj (hm₁ hj) (hm₁ hi))
  refine ⟨l, m₁, r, m₂, hperform₁, hperform₂, ?_⟩
  rcases Term.disj_comm a b with hsame | ⟨xs, ys, hperm, hxs, hys⟩
  · rw [← hsame] at hr
    exact Or.inl (hvs.isFaithful.unique l r _ (hm₂ hl) hr)
  · exact Or.inr ⟨xs, ys, hperm, hxs ▸ hm₂ hl, hys ▸ hr⟩

theorem perform_union_eq_left_iff : (m.perform (.union i j)).1 = .ok [i] ↔ Term.disj [a, b] = a := by
  obtain ⟨l, m₁, us, hperform, hus, hm₁, hl⟩ := exists_performed_one hts (outcome_union hi hj)
  rw [hperform]
  constructor
  · intro h
    obtain rfl : l = i := by simpa using h
    exact Option.some.inj (hl.symm.trans (hm₁ hi))
  · intro h
    have hsame : m₁.arena.term? l = some a := hl.trans (congrArg some h)
    rw [hus.isFaithful.unique l i a hsame (hm₁ hi)]

theorem possibleValues_union_handles (ha : a.IsNormal) (hb : b.IsNormal) (ha' : a.isConstant = false)
    (hb' : b.isConstant = false) (hatrue : a ≠ .bool true) (hbtrue : b ≠ .bool true) :
    ∃ vs m₁ ws m₂ u m₃, m.perform (.possibleValues i) = (.ok vs, m₁) ∧
      m₁.perform (.possibleValues j) = (.ok ws, m₂) ∧ m₂.perform (.union i j) = (.ok [u], m₃) ∧
      m₃.Answers (.possibleValues u) (vs ++ ws.filter (· ∉ vs)) := by
  obtain ⟨vs, m₁, us, hperform₁, hus, hm₁, hvs⟩ := exists_performed hts (outcome_possibleValues hi)
  obtain ⟨ws, m₂, xs, hperform₂, hxs, hm₂, hws⟩ := exists_performed hus (outcome_possibleValues (hm₁ hj))
  obtain ⟨u, m₃, ys, hperform₃, hys, hm₃, hu⟩ :=
    exists_performed_one hxs (outcome_union (hm₂ (hm₁ hi)) (hm₂ (hm₁ hj)))
  refine ⟨vs, m₁, ws, m₂, u, m₃, hperform₁, hperform₂, hperform₃, ?_⟩
  refine answers_of_held hys (fun _ hm' => outcome_possibleValues (hm' hu)) ?_
  have hvs₃ := List.map_eq_some_mono hm₃ (List.map_eq_some_mono hm₂ hvs)
  have hws₃ := List.map_eq_some_mono hm₃ hws
  rw [funext hys.term?_eq] at hvs₃ hws₃ ⊢
  rw [ConditionalSet.possibleValues_union ha hb ha' hb' hatrue hbtrue, List.map_append, List.map_append, hvs₃,
    map_termAt_filter hys.terms_nodup hvs₃ hws₃]

end

/-- Unions are joins, and their changes are seen. In a manager, after any operations on it, let three formulas be given,
the first two of them no constant expressions. The handles of their disjunctions obey the laws of a join: they do not
depend on how the formulas are bracketed, a formula joined with itself or with a false one is this formula, and joined
with a true one it is true; in another order, only the order of the disjuncts is another one. A union has the handle of
its first set exactly if this is true or has every disjunct of the second set. If neither is true, the values of the
union are those of the first set, followed by those of the second set that are not among them. -/
theorem union_is_join (hm : m.arena.IsManaged) (hi : m.arena.term? i = some a) (hj : m.arena.term? j = some b)
    (hk : m.arena.term? k = some c) (ha : a.isConstant = false) (hb : b.isConstant = false) :
    (∃ ij m₁ jk m₂ l m₃, m.perform (.disj [i, j]) = (.ok [ij], m₁) ∧ m₁.perform (.disj [j, k]) = (.ok [jk], m₂) ∧
      m₂.perform (.disj [ij, k]) = (.ok [l], m₃) ∧ m₃.Answers (.disj [i, jk]) [l]) ∧
    m.Answers (.disj [i, i]) [i] ∧
    (∀ f, m.arena.term? f = some (.bool false) → m.Answers (.disj [i, f]) [i] ∧ m.Answers (.disj [f, i]) [i]) ∧
    (∀ t, m.arena.term? t = some (.bool true) → m.Answers (.disj [i, t]) [t] ∧ m.Answers (.disj [t, i]) [t]) ∧
    (∃ l m₁ r m₂, m.perform (.disj [i, j]) = (.ok [l], m₁) ∧ m₁.perform (.disj [j, i]) = (.ok [r], m₂) ∧
      (l = r ∨ ∃ xs ys, xs.Perm ys ∧ m₂.arena.term? l = some (.or xs) ∧ m₂.arena.term? r = some (.or ys))) ∧
    ((m.perform (.union i j)).1 = .ok [i] ↔ a = .bool true ∨ ∀ y ∈ b.disjuncts, y ∈ a.disjuncts) ∧
    (a ≠ .bool true → b ≠ .bool true → ∃ vs m₁ ws m₂ u m₃, m.perform (.possibleValues i) = (.ok vs, m₁) ∧
      m₁.perform (.possibleValues j) = (.ok ws, m₂) ∧ m₂.perform (.union i j) = (.ok [u], m₃) ∧
      m₃.Answers (.possibleValues u) (vs ++ ws.filter (· ∉ vs))) := by
  obtain ⟨ts, hts⟩ := hm.exists_holds
  have ha' : a.IsNormal := property_run Term.isHereditary_isNormal hm [] hi
  have hb' : b.IsNormal := property_run Term.isHereditary_isNormal hm [] hj
  have hc' : c.IsNormal := property_run Term.isHereditary_isNormal hm [] hk
  refine ⟨disj_assoc_handles hts hi hj hk ha' hb' hc', ?_, fun f hf => ⟨?_, ?_⟩, fun t ht => ⟨?_, ?_⟩,
    disj_comm_handles hts hi hj, ?_, possibleValues_union_handles hts hi hj ha' hb' ha hb⟩
  · exact answers_disj hts hi hi (by rw [Term.disj_self ha' ha, hi])
  · exact answers_disj hts hi hf (by rw [Term.disj_false_right ha' ha, hi])
  · exact answers_disj hts hf hi (by rw [Term.disj_false_left ha' ha, hi])
  · exact answers_disj hts hi ht (by rw [Term.disj_true_right, ht])
  · exact answers_disj hts ht hi (by rw [Term.disj_true_left, ht])
  · rw [perform_union_eq_left_iff hts hi hj, Term.disj_eq_left_iff ha' hb' ha]

/-- Two registers, one of them on a condition or a third one, and the first one on a condition. -/
def overlappingSets : List Operation :=
  [.var "c", .reg "r1" 0 0, .member 5, .reg "r2" 0 0, .member 7, .disj [6, 8], .conj [4, 8], .reg "r3" 0 0, .member 11,
    .disj [10, 12], .conj [4, 6]]

theorem union_is_join_overlappingSets :
    ∃ created, Manager.new 0 = .ok created ∧ (created.run overlappingSets).2.arena.IsManaged ∧
      (∃ ij m₁ jk m₂ l m₃, (created.run overlappingSets).2.perform (.disj [9, 13]) = (.ok [ij], m₁) ∧
        m₁.perform (.disj [13, 14]) = (.ok [jk], m₂) ∧ m₂.perform (.disj [ij, 14]) = (.ok [l], m₃) ∧
        m₃.Answers (.disj [9, jk]) [l]) ∧
      (created.run overlappingSets).2.Answers (.disj [9, 1]) [9] ∧
      (created.run overlappingSets).2.Answers (.disj [2, 9]) [2] ∧
      ((created.run overlappingSets).2.perform (.union 9 13)).1 ≠ .ok [9] ∧
      ∃ vs m₁ ws m₂ u m₃, (created.run overlappingSets).2.perform (.possibleValues 9) = (.ok vs, m₁) ∧ vs = [5, 7] ∧
        m₁.perform (.possibleValues 13) = (.ok ws, m₂) ∧ m₂.perform (.union 9 13) = (.ok [u], m₃) ∧
        m₃.Answers (.possibleValues u) (vs ++ ws.filter (· ∉ vs)) := by
  have hterms : (Manager.new 0).map (fun created => [1, 2, 9, 13, 14].map (created.run overlappingSets).2.arena.term?) =
      .ok [some (.bool false), some (.bool true),
        some (.or [ConditionalSet.member (.reg "r1" 0 0), ConditionalSet.member (.reg "r2" 0 0)]),
        some (.or [.and [.var "c", ConditionalSet.member (.reg "r2" 0 0)], ConditionalSet.member (.reg "r3" 0 0)]),
        some (.and [.var "c", ConditionalSet.member (.reg "r1" 0 0)])] := by
    decide +kernel
  have hreturned : (Manager.new 0).map (fun created =>
      ((created.run overlappingSets).2.perform (.possibleValues 9)).1) = .ok (.ok [5, 7]) := by
    decide +kernel
  obtain ⟨created, hcreated, hread⟩ := Except.exists_of_map_eq_ok hterms
  rw [hcreated] at hreturned
  have hmanaged : (created.run overlappingSets).2.arena.IsManaged := ⟨0, created, overlappingSets, hcreated, rfl⟩
  simp only [List.map_cons, List.map_nil, List.cons.injEq, and_true] at hread
  obtain ⟨hfalse, htrue, ha, hb, hc⟩ := hread
  obtain ⟨hassoc, -, hunit, habsorbing, -, hchange, hvalues⟩ := union_is_join hmanaged ha hb hc rfl rfl
  refine ⟨created, hcreated, hmanaged, hassoc, (hunit 1 hfalse).1, (habsorbing 2 htrue).2, ?_, ?_⟩
  · rw [Ne, hchange]
    rintro (h | h)
    · cases h
    · have hthird := h (ConditionalSet.member (.reg "r3" 0 0)) (List.mem_cons_of_mem _ List.mem_cons_self)
      simp [Term.disjuncts, Term.asFormula, ConditionalSet.member] at hthird
  · obtain ⟨vs, m₁, ws, m₂, u, m₃, hvs, hws, hu, hanswer⟩ := hvalues (by simp) (by simp)
    have hfirst : ((created.run overlappingSets).2.perform (.possibleValues 9)).1 = .ok [5, 7] :=
      Except.ok.inj hreturned
    rw [hvs] at hfirst
    exact ⟨vs, m₁, ws, m₂, u, m₃, hvs, Except.ok.inj hfirst, hws, hu, hanswer⟩

end Manager
end Backslice
