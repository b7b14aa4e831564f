import Backslice.Proofs.Closure
import Backslice.Proofs.Sums
import Mathlib.Data.List.Basic

/-!
# Normal terms

A term is normal if the constructors leave it as it is: each of its negations,
conjunctions and disjunctions is what the constructor makes of the operands. The
constructors build normal terms from normal terms, so that every operation does.
-/

namespace Backslice.Term

/-- Whether the constructor of a connective makes the connective of its operands: a negation is not of a negation
or of a decided term; the operands of a conjunction (disjunction) are two at least, all different, and none of them
decided or a conjunction (disjunction) itself. -/
def HasNormalHead : Term → Prop
  | .not a => a.negate = .not a
  | .and xs => 2 ≤ xs.length ∧ xs.eraseDups = xs ∧ .bool false ∉ xs ∧ ∀ x ∈ xs, x.conjuncts = [x]
  | .or xs => 2 ≤ xs.length ∧ xs.eraseDups = xs ∧ .bool true ∉ xs ∧ ∀ x ∈ xs, x.disjuncts = [x]
  | _ => True

/-- Whether every connective in a term is what its constructor makes of the operands. -/
def IsNormal (t : Term) : Prop :=
  ∀ u ∈ t.subterms, u.HasNormalHead

theorem isNormal_iff (t : Term) : t.IsNormal ↔ t.HasNormalHead ∧ ∀ c ∈ t.children, c.IsNormal :=
  forall_subterms_iff t

theorem IsNormal.head {t : Term} (h : t.IsNormal) : t.HasNormalHead :=
  ((isNormal_iff t).1 h).1

theorem IsNormal.child {t c : Term} (h : t.IsNormal) (hc : c ∈ t.children) : c.IsNormal :=
  ((isNormal_iff t).1 h).2 c hc

theorem isNormal_bool (b : Bool) : (Term.bool b).IsNormal :=
  (isNormal_iff _).2 ⟨trivial, by simp [children]⟩

theorem IsNormal.negate {t : Term} (h : t.IsNormal) : t.negate.IsNormal := by
  have hnot : t.negate = .not t → t.negate.IsNormal := fun hnegate => by
    rw [hnegate]
    exact (isNormal_iff _).2 ⟨hnegate, by simpa [children] using h⟩
  cases t with
  | const v => exact isNormal_bool _
  | bool b => exact isNormal_bool _
  | not u =>
      have hu : u.IsNormal := h.child (by simp [children])
      exact hu
  | _ => exact hnot rfl

theorem IsNormal.conjunct {t y : Term} (h : t.IsNormal) (hy : y ∈ t.conjuncts) : y.IsNormal ∧ y.conjuncts = [y] := by
  have hbool : ∀ b : Bool, y ∈ (Term.bool b).conjuncts → y.IsNormal ∧ y.conjuncts = [y] := by
    intro b hy
    cases b with
    | true => exact absurd hy List.not_mem_nil
    | false =>
        obtain rfl := List.mem_singleton.1 hy
        exact ⟨isNormal_bool false, rfl⟩
  cases t with
  | const v => exact hbool _ hy
  | bool b => exact hbool b hy
  | and xs => exact ⟨h.child hy, h.head.2.2.2 y hy⟩
  | _ =>
      obtain rfl := List.mem_singleton.1 hy
      exact ⟨h, rfl⟩

theorem IsNormal.disjunct {t y : Term} (h : t.IsNormal) (hy : y ∈ t.disjuncts) : y.IsNormal ∧ y.disjuncts = [y] := by
  have hbool : ∀ b : Bool, y ∈ (Term.bool b).disjuncts → y.IsNormal ∧ y.disjuncts = [y] := by
    intro b hy
    cases b with
    | false => exact absurd hy List.not_mem_nil
    | true =>
        obtain rfl := List.mem_singleton.1 hy
        exact ⟨isNormal_bool true, rfl⟩
  cases t with
  | const v => exact hbool _ hy
  | bool b => exact hbool b hy
  | or xs => exact ⟨h.child hy, h.head.2.2.2 y hy⟩
  | _ =>
      obtain rfl := List.mem_singleton.1 hy
      exact ⟨h, rfl⟩

theorem joined_eq_wrap {unit : Bool} {wrap : List Term → Term} {ts : List Term} (hlength : 2 ≤ ts.length)
    (hmem : .bool (!unit) ∉ ts) : joined unit wrap ts = wrap ts := by
  match ts with
  | [] | [_] => simp at hlength
  | t :: u :: ts =>
      rw [joined, if_neg hmem]
      all_goals simp

theorem isNormal_conj {ts : List Term} (hts : ∀ t ∈ ts, t.IsNormal) : (conj ts).IsNormal := by
  have hparts : ∀ y ∈ (ts.flatMap conjuncts).eraseDups, y.IsNormal ∧ y.conjuncts = [y] := by
    intro y hy
    obtain ⟨t, ht, hy⟩ := List.mem_flatMap.1 (List.mem_eraseDups.1 hy)
    exact (hts t ht).conjunct hy
  rw [conj_eq]
  refine property_joined isNormal_bool (fun y hy => (hparts y hy).1) fun hlength hmem => (isNormal_iff _).2 ⟨?_, ?_⟩
  · exact ⟨hlength, List.eraseDups_eraseDups _, hmem, fun y hy => (hparts y hy).2⟩
  · exact fun y hy => (hparts y hy).1

theorem isNormal_disj {ts : List Term} (hts : ∀ t ∈ ts, t.IsNormal) : (disj ts).IsNormal := by
  have hparts : ∀ y ∈ (ts.flatMap disjuncts).eraseDups, y.IsNormal ∧ y.disjuncts = [y] := by
    intro y hy
    obtain ⟨t, ht, hy⟩ := List.mem_flatMap.1 (List.mem_eraseDups.1 hy)
    exact (hts t ht).disjunct hy
  rw [disj_eq]
  refine property_joined isNormal_bool (fun y hy => (hparts y hy).1) fun hlength hmem => (isNormal_iff _).2 ⟨?_, ?_⟩
  · exact ⟨hlength, List.eraseDups_eraseDups _, hmem, fun y hy => (hparts y hy).2⟩
  · exact fun y hy => (hparts y hy).1

theorem conj_of_isNormal {xs : List Term} (h : (Term.and xs).IsNormal) : conj xs = .and xs := by
  obtain ⟨hlength, hdistinct, hmem, hparts⟩ := h.head
  rw [conj_eq, List.flatMap_congr hparts, List.flatMap_singleton', hdistinct]
  exact joined_eq_wrap hlength hmem

theorem disj_of_isNormal {xs : List Term} (h : (Term.or xs).IsNormal) : disj xs = .or xs := by
  obtain ⟨hlength, hdistinct, hmem, hparts⟩ := h.head
  rw [disj_eq, List.flatMap_congr hparts, List.flatMap_singleton', hdistinct]
  exact joined_eq_wrap hlength hmem

/-- Every constructor keeps normal terms normal, and their parts are normal. -/
theorem isHereditary_isNormal : IsHereditary IsNormal where
  const v := (isNormal_iff _).2 ⟨trivial, by simp [children]⟩
  bool := isNormal_bool
  mem ha := (isNormal_iff _).2 ⟨trivial, by simpa [children] using ha⟩
  unary op _ ha := (isNormal_iff _).2 ⟨trivial, by simpa [children] using ha⟩
  binary op _ _ ha hb := (isNormal_iff _).2 ⟨trivial, by simpa [children] using ⟨ha, hb⟩⟩
  eq ha hb := (isNormal_iff _).2 ⟨trivial, by simpa [children] using ⟨ha, hb⟩⟩
  negate ha := ha.negate
  conj := isNormal_conj
  disj := isNormal_disj
  var n := (isNormal_iff _).2 ⟨trivial, by simp [children]⟩
  reg n o s := (isNormal_iff _).2 ⟨trivial, by simp [children]⟩
  quantified q _ _ ha hb := (isNormal_iff _).2 ⟨trivial, by simpa [children] using ⟨ha, hb⟩⟩
  ite hc ha hb := (isNormal_iff _).2 ⟨trivial, by simpa [children] using ⟨hc, ha, hb⟩⟩
  child h hc := h.child hc

end Backslice.Term
