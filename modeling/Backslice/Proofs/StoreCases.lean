import Backslice.AliasSplit
import Backslice.Proofs.Simplification
import Mathlib.Tactic.Tauto

/-!
# Reads after a store

The conditions of a tree of cases choose one of its leaves. The cases of an
expression read after a store choose an expression that has, before the store,
the value that the expression has after it. This takes addresses that do not
read memory themselves: the address of a read stays as it is.

Splitting a formula acts on it through its atoms, and changes nothing where
memory is not read.
-/

namespace Backslice

namespace Cases

open Classical in
/-- The leaf that the conditions lead to. -/
noncomputable def chosen (condition : Term → Prop) : Cases → Term
  | .leaf t => t
  | .split c a b => if condition c then a.chosen condition else b.chosen condition

/-- Whether all conditions and all leaves of a tree have a property. -/
def Forall (condition leaf : Term → Prop) : Cases → Prop
  | .leaf t => leaf t
  | .split c a b => condition c ∧ a.Forall condition leaf ∧ b.Forall condition leaf

section
variable (condition : Term → Prop)

theorem chosen_map (f : Term → Term) (cases : Cases) :
    (cases.map f).chosen condition = f (cases.chosen condition) := by
  induction cases with
  | leaf t => rfl
  | split c a b iha ihb =>
      simp only [map, chosen, iha, ihb]
      split <;> rfl

theorem chosen_combine (f : Term → Term → Term) (cases other : Cases) :
    (cases.combine f other).chosen condition = f (cases.chosen condition) (other.chosen condition) := by
  induction cases with
  | leaf t => rw [combine, chosen_map, chosen]
  | split c a b iha ihb =>
      simp only [combine, chosen, iha, ihb]
      split <;> rfl

theorem truth_toTerm (atom : Term → Prop) (cases : Cases) :
    cases.toTerm.truth atom ↔ (cases.chosen (Term.truth atom)).truth atom := by
  induction cases with
  | leaf t => rfl
  | split c a b iha ihb =>
      rw [toTerm, Term.truth_ite, iha, ihb, chosen]
      split <;> simp_all

variable {condition} {leaf leaf' : Term → Prop}

theorem Forall.imp {condition' : Term → Prop} {cases : Cases} (h : cases.Forall condition leaf)
    (hc : ∀ c, condition c → condition' c) (hl : ∀ t, leaf t → leaf' t) : cases.Forall condition' leaf' := by
  induction cases with
  | leaf t => exact hl t h
  | split c a b iha ihb => exact ⟨hc c h.1, iha h.2.1, ihb h.2.2⟩

theorem Forall.map {f : Term → Term} {cases : Cases} (h : cases.Forall condition leaf)
    (hf : ∀ t, leaf t → leaf' (f t)) : (cases.map f).Forall condition leaf' := by
  induction cases with
  | leaf t => exact hf t h
  | split c a b iha ihb => exact ⟨h.1, iha h.2.1, ihb h.2.2⟩

theorem Forall.combine {f : Term → Term → Term} {cases other : Cases} (h : cases.Forall condition leaf)
    (hother : other.Forall condition leaf) (hf : ∀ t u, leaf t → leaf u → leaf' (f t u)) :
    (cases.combine f other).Forall condition leaf' := by
  induction cases with
  | leaf t => exact hother.map (hf t · h)
  | split c a b iha ihb => exact ⟨h.1, iha h.2.1, ihb h.2.2⟩

theorem Forall.chosen {cases : Cases} (h : cases.Forall condition leaf) (p : Term → Prop) :
    leaf (cases.chosen p) := by
  induction cases with
  | leaf t => exact h
  | split c a b iha ihb =>
      rw [Cases.chosen]
      split
      next => exact iha h.2.1
      next => exact ihb h.2.2

end

theorem chosen_congr {p q : Term → Prop} {leaf : Term → Prop} {cases : Cases}
    (h : cases.Forall (fun c => p c ↔ q c) leaf) : cases.chosen p = cases.chosen q := by
  induction cases with
  | leaf t => rfl
  | split c a b iha ihb => rw [chosen, chosen, iha h.2.1, ihb h.2.2, propext h.1]

theorem formulaAtoms_toTerm {p : Term → Prop} {cases : Cases}
    (h : cases.Forall (fun c => ∀ u ∈ c.formulaAtoms, p u) fun t => ∀ u ∈ t.formulaAtoms, p u) :
    ∀ u ∈ cases.toTerm.formulaAtoms, p u := by
  induction cases with
  | leaf t => exact h
  | split c a b iha ihb =>
      intro u hu
      obtain ⟨d, hd, hud⟩ := Term.collects_formulaAtoms.exists_child (t := .ite c a.toTerm b.toTerm) rfl hu
      simp only [Term.children, List.mem_cons, List.not_mem_nil, or_false] at hd
      rcases hd with rfl | rfl | rfl
      · exact h.1 u hud
      · exact iha h.2.1 u hud
      · exact ihb h.2.2 u hud

theorem plain_toTerm {cases : Cases} (h : cases.Forall Term.Plain Term.Plain) : cases.toTerm.Plain := by
  induction cases with
  | leaf t => exact h
  | split c a b iha ihb => exact (Term.plain_ite c a.toTerm b.toTerm).2 ⟨h.1, iha h.2.1, ihb h.2.2⟩

end Cases

namespace Term

/-- Whether no address of a memory cell reads memory. -/
def FlatAddresses (t : Term) : Prop :=
  ∀ u ∈ t.subterms, ∀ x ∈ u.cellAddress?, ∀ w ∈ x.subterms, w.isMemoryCell = false

theorem FlatAddresses.child {t c : Term} (h : t.FlatAddresses) (hc : c ∈ t.children) : c.FlatAddresses :=
  fun u hu => h u (mem_subterms_of_mem_children hc hu)

theorem FlatAddresses.address {x : Term} (h : (mem x).FlatAddresses) : ∀ w ∈ x.subterms, w.isMemoryCell = false :=
  h _ (mem_subterms_self _) x rfl

section
variable {a v : Term}

/-- What goes through the operators holds of all cases, with the address of a read in each of the conditions. -/
theorem forall_readCases {p : Term → Prop} (hmem : ∀ x, p (.mem x) → p x) (hunary : ∀ op t, p (.unary op t) ↔ p t)
    (hbinary : ∀ op t u, p (.binary op t u) ↔ p t ∧ p u) (hv : p v) {e : Term} (he : p e) :
    (e.readCases a v).Forall (fun c => ∃ x, c = .eq a x ∧ p x) p := by
  induction e using inductionOnChildren with
  | step e ih =>
      cases e with
      | mem x => exact ⟨⟨x, rfl, hmem x he⟩, hv, he⟩
      | unary op t =>
          rw [readCases]
          exact (ih t (by simp [children]) ((hunary op t).1 he)).map fun u hu => (hunary op u).2 hu
      | binary op t u =>
          obtain ⟨ht, hu⟩ := (hbinary op t u).1 he
          rw [readCases]
          exact (ih t (by simp [children]) ht).combine (ih u (by simp [children]) hu)
            fun t' u' ht' hu' => (hbinary op t' u').2 ⟨ht', hu'⟩
      | _ => exact he

theorem forall_readCases_plain (ha : a.Plain) (hv : v.Plain) {e : Term} (he : e.Plain) :
    (e.readCases a v).Forall Plain Plain :=
  (forall_readCases (fun x => (plain_mem x).1) plain_unary plain_binary hv he).imp
    (by rintro _ ⟨x, rfl, hx⟩; exact (plain_eq a x).2 ⟨ha, hx⟩) fun _ => id

theorem forall_readCases_word (hvw : v.IsWord) (hv : v.Plain) {e : Term} (hw : e.IsWord) (he : e.Plain) :
    (e.readCases a v).Forall (fun c => ∃ x, c = .eq a x ∧ x.IsWord ∧ x.Plain) fun t => t.IsWord ∧ t.Plain :=
  forall_readCases (p := fun t => t.IsWord ∧ t.Plain) (fun x => by simp) (fun op t => by simp)
    (fun op t u => by rw [isWord_binary, plain_binary]; tauto) ⟨hvw, hv⟩ ⟨hw, he⟩

theorem readCases_of_forall {e : Term} (h : ∀ w ∈ e.subterms, w.isMemoryCell = false) :
    e.readCases a v = .leaf e := by
  induction e using inductionOnChildren with
  | step e ih =>
      have child : ∀ c ∈ e.children, c.readCases a v = .leaf c := fun c hc =>
        ih c hc fun w hw => h w (mem_subterms_of_mem_children hc hw)
      cases e with
      | mem x => exact absurd (h _ (mem_subterms_self _)) (by simp [isMemoryCell])
      | unary op t => rw [readCases, child t (by simp [children]), Cases.map]
      | binary op t u => rw [readCases, child t (by simp [children]), child u (by simp [children]), Cases.combine,
          Cases.map]
      | _ => rfl

/-- The chosen case of an expression has before a store the value of the expression after it. -/
theorem value_chosen_readCases {z : ZeroDivision} {s s' : Valuation} (hvars : s'.vars = s.vars)
    (hcells : s'.cells = s.cells)
    (hmemory : s'.memory = fun b => if b = a.value z s then v.value z s else s.memory b) {e : Term} (he : e.IsWord)
    (hflat : e.FlatAddresses) : ((e.readCases a v).chosen (holds z s)).value z s = e.value z s' := by
  induction e using inductionOnChildren with
  | step e ih =>
      cases e with
      | mem x =>
          have hx : x.value z s' = x.value z s :=
            value_congr z x hvars
              (fun y hy => absurd (hflat.address _ hy) (by simp [isMemoryCell])) fun n o k _ => by rw [hcells]
          simp only [readCases, Cases.chosen, holds, value, Ne, wordOf_eq_zero, not_not, hmemory, hx]
          by_cases h : a.value z s = x.value z s
          · rw [if_pos h, if_pos h.symm]
          · rw [if_neg h, if_neg (Ne.symm h), value]
      | unary op t =>
          rw [readCases, Cases.chosen_map, value, value,
            ih t (by simp [children]) (he.child (by simp [children])) (hflat.child (by simp [children]))]
      | binary op t u =>
          rw [readCases, Cases.chosen_combine, value, value,
            ih t (by simp [children]) (he.child (by simp [children])) (hflat.child (by simp [children])),
            ih u (by simp [children]) (he.child (by simp [children])) (hflat.child (by simp [children]))]
      | const w => rfl
      | var n => simp [readCases, Cases.chosen, value, hvars]
      | reg n o k => simp [readCases, Cases.chosen, value, hcells]
      | _ => exact absurd he.isExpression (by simp [Term.isExpression])

theorem readCases_of_not_isSplit {e : Term} (h : (e.readCases a v).isSplit = false) : e.readCases a v = .leaf e := by
  induction e using inductionOnChildren with
  | step e ih =>
      cases e with
      | mem x => simp [readCases, Cases.isSplit] at h
      | unary op t =>
          have ht := ih t (by simp [children])
          rw [readCases] at h ⊢
          cases hcases : t.readCases a v <;> simp_all [Cases.map, Cases.isSplit]
      | binary op t u =>
          have ht := ih t (by simp [children])
          have hu := ih u (by simp [children])
          rw [readCases] at h ⊢
          cases hcases : t.readCases a v <;> cases hcases' : u.readCases a v <;>
            simp_all [Cases.combine, Cases.map, Cases.isSplit]
      | _ => rfl

theorem splitAliasesAll_eq_map (ts : List Term) :
    splitAliasesAll ts a v = (ts.map fun t => (t.splitAliases a v).1, ts.any fun t => (t.splitAliases a v).2) := by
  induction ts with
  | nil => rfl
  | cons t ts ih => simp [splitAliasesAll, ih]

theorem splitAliases_not (t : Term) :
    (not t).splitAliases a v =
      if (t.splitAliases a v).2 then ((t.splitAliases a v).1.negate, true) else (.not t, false) := rfl

theorem splitAliases_and (ts : List Term) :
    (and ts).splitAliases a v =
      if ts.any fun t => (t.splitAliases a v).2 then (conj (ts.map fun t => (t.splitAliases a v).1), true)
      else (.and ts, false) := by
  rw [splitAliases, splitAliasesAll_eq_map]

theorem splitAliases_or (ts : List Term) :
    (or ts).splitAliases a v =
      if ts.any fun t => (t.splitAliases a v).2 then (disj (ts.map fun t => (t.splitAliases a v).1), true)
      else (.or ts, false) := by
  rw [splitAliases, splitAliasesAll_eq_map]

theorem splitAliases_ite (c t u : Term) :
    (ite c t u).splitAliases a v =
      (.ite (c.splitAliases a v).1 (t.splitAliases a v).1 (u.splitAliases a v).1,
        (c.splitAliases a v).2 || (t.splitAliases a v).2 || (u.splitAliases a v).2) := rfl

theorem splitAliases_eq (t u : Term) :
    (eq t u).splitAliases a v =
      (((t.readCases a v).combine .eq (u.readCases a v)).toTerm,
        ((t.readCases a v).combine .eq (u.readCases a v)).isSplit) := by
  rw [splitAliases, readCasesShared_eq_readCases, readCasesShared_eq_readCases]

theorem splitAliases_of_isExpression {t : Term} (h : t.isExpression = true) :
    t.splitAliases a v = ((t.readCases a v).toTerm, (t.readCases a v).isSplit) := by
  cases t <;> simp only [isExpression, Bool.false_eq_true] at h <;>
    simp [splitAliases, splitExpression, readCases, Cases.toTerm, Cases.isSplit]

theorem splitAliases_of_not_split {t : Term} (h : (t.splitAliases a v).2 = false) : (t.splitAliases a v).1 = t := by
  induction t using inductionOnChildren with
  | step t ih =>
      cases t with
      | not t =>
          rw [splitAliases_not] at h ⊢
          split <;> simp_all
      | and ts =>
          rw [splitAliases_and] at h ⊢
          split <;> simp_all
      | or ts =>
          rw [splitAliases_or] at h ⊢
          split <;> simp_all
      | ite c t u =>
          rw [splitAliases_ite] at h ⊢
          simp_all [children]
      | quantified q t u =>
          simp_all [children, splitAliases]
      | eq t u =>
          rw [splitAliases_eq] at h ⊢
          have ht := @readCases_of_not_isSplit a v t
          have hu := @readCases_of_not_isSplit a v u
          cases hcases : t.readCases a v <;> cases hcases' : u.readCases a v <;>
            simp_all [Cases.combine, Cases.map, Cases.isSplit, Cases.toTerm]
      | bool b => rfl
      | _ =>
          rw [splitAliases_of_isExpression rfl] at h ⊢
          rw [readCases_of_not_isSplit h]
          rfl

theorem isRebuilt_splitAliases {t : Term} (ht : t.isAtom = false) :
    IsRebuilt (fun c => (c.splitAliases a v).1) t (t.splitAliases a v).1 := by
  cases t with
  | not t =>
      rw [splitAliases_not]
      by_cases h : (t.splitAliases a v).2 = true
      · rw [if_pos h]
        exact Or.inl rfl
      · rw [if_neg h]
        refine Or.inr ⟨rfl, fun c hc => ?_⟩
        rw [List.mem_singleton.1 hc]
        exact splitAliases_of_not_split (by simpa using h)
  | and ts =>
      rw [splitAliases_and]
      by_cases h : (ts.any fun t => (t.splitAliases a v).2) = true
      · rw [if_pos h]
        exact Or.inl rfl
      · rw [if_neg h]
        exact Or.inr ⟨rfl, fun c hc => splitAliases_of_not_split (by simp_all [children])⟩
  | or ts =>
      rw [splitAliases_or]
      by_cases h : (ts.any fun t => (t.splitAliases a v).2) = true
      · rw [if_pos h]
        exact Or.inl rfl
      · rw [if_neg h]
        exact Or.inr ⟨rfl, fun c hc => splitAliases_of_not_split (by simp_all [children])⟩
  | ite c t u => exact Or.inl rfl
  | const _ | bool _ => exact Or.inl rfl
  | _ => simp [isAtom] at ht

theorem actsOnAtoms_splitAliases {p q : Term → Prop}
    (himage : ∀ u : Term, u.isAtom = true → p u → ∀ w ∈ (u.splitAliases a v).1.formulaAtoms, q w) :
    ActsOnAtoms (fun t => (t.splitAliases a v).1) p q :=
  actsOnAtoms_of_isRebuilt himage fun _ ht _ => isRebuilt_splitAliases ht

end

end Term
end Backslice
