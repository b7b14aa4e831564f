import Backslice.BuildOrder
import Backslice.Proofs.DisjunctiveForms
import Backslice.Proofs.ExplicitSet
import Backslice.Proofs.Lists
import Backslice.Proofs.Replacement
import Backslice.Proofs.StoreCases

/-!
# Properties that every operation keeps

Operations on terms put their results together by the constructors, from terms
they are given and from parts of these. A property that the constructors keep,
and that a term hands down to its children, is therefore kept by every
operation: the result has it, and so has whatever is built on the way.
-/

namespace Backslice

/-- The variables taken where a set is passed through a statement. -/
def Statement.placeholders (statement : Statement) (names : Fresh) : List Term :=
  match statement with
  | .assign (.reg _ _ _) _ => [(names.take "TMP").1]
  | .assign (.mem _) _ => [(names.take "X").1, ((names.take "X").2.take "ELT_ADDR").1]
  | _ => []

theorem Statement.exists_take {statement : Statement} {names : Fresh} {x : Term}
    (hx : x ∈ statement.placeholders names) :
    ∃ (later : Fresh) (stem : String), names.taken ≤ later.taken ∧ x = (later.take stem).1 := by
  unfold Statement.placeholders at hx
  split at hx <;> simp only [List.mem_cons, List.not_mem_nil, or_false] at hx
  · exact ⟨names, "TMP", Nat.le_refl _, hx⟩
  · rcases hx with hx | hx
    · exact ⟨names, "X", Nat.le_refl _, hx⟩
    · exact ⟨_, "ELT_ADDR", Nat.le_succ names.taken, hx⟩

namespace Term

variable {P : Term → Prop}

/-- Whether the constructors of expressions and connectives keep a property, and words and truth values have it. -/
structure IsClosed (P : Term → Prop) : Prop where
  const (v : UInt64) : P (.const v)
  bool (b : Bool) : P (.bool b)
  mem {a : Term} : P a → P (.mem a)
  unary (op : UnaryOp) {a : Term} : P a → P (.unary op a)
  binary (op : BinaryOp) {a b : Term} : P a → P b → P (.binary op a b)
  eq {a b : Term} : P a → P b → P (.eq a b)
  negate {a : Term} : P a → P a.negate
  conj {ts : List Term} : (∀ t ∈ ts, P t) → P (conj ts)
  disj {ts : List Term} : (∀ t ∈ ts, P t) → P (disj ts)

/-- Whether the constructors of conditionals keep such a property as well, and every term hands it down to its
children. -/
structure IsHandedDown (P : Term → Prop) : Prop extends IsClosed P where
  ite {c a b : Term} : P c → P a → P b → P (.ite c a b)
  child {t c : Term} : P t → c ∈ t.children → P c

/-- Whether the marker has such a property, so that conditional sets keep it. -/
structure IsKeptBySets (P : Term → Prop) : Prop extends IsHandedDown P where
  marker : P marker

/-- Whether all constructors of terms from others keep a property, and every term hands it down to its children. -/
structure IsInherited (P : Term → Prop) : Prop extends IsHandedDown P where
  quantified (q : Quantifier) {a b : Term} : P a → P b → P (.quantified q a b)

/-- Whether the marker has such a property as well, so that sets in front of an arrow keep it. -/
structure IsMarked (P : Term → Prop) : Prop extends IsInherited P, IsKeptBySets P

/-- Whether variables, whatever their names, have such a property, so that placeholders may be taken. -/
structure IsNamed (P : Term → Prop) : Prop extends IsMarked P where
  var (name : String) : P (.var name)
  marker := var _

/-- Whether register cells, whatever their names, have such a property as well. -/
structure IsHereditary (P : Term → Prop) : Prop extends IsNamed P where
  reg (name : String) (offset size : UInt16) : P (.reg name offset size)

/-- Whether the terms of a statement have a property. -/
def IsHereditary.OfStatement (P : Term → Prop) : Statement → Prop
  | .assign location value => P location ∧ P value
  | _ => True

theorem IsHereditary.OfStatement.imp {Q : Term → Prop} {statement : Statement} (h : OfStatement P statement)
    (himp : ∀ t, P t → Q t) : OfStatement Q statement := by
  cases statement with
  | assign location value => exact ⟨himp location h.1, himp value h.2⟩
  | jump | skip | external name => exact trivial

theorem IsClosed.asFormula (h : IsClosed P) {t : Term} (ht : P t) : P t.asFormula := by
  cases t <;> first | exact ht | exact h.bool _

/-- Terms of the kinds that `IsClosed` is about. -/
def isBuilt : Term → Bool
  | .var _ | .reg _ _ _ | .quantified _ _ _ | .ite _ _ _ => false
  | _ => true

/-- An operand of a conjunction contributes its truth value or itself, or its own operands. -/
theorem eq_or_mem_children_of_mem_conjuncts {t y : Term} (hy : y ∈ t.conjuncts) : y = t.asFormula ∨ y ∈ t.children := by
  unfold conjuncts at hy
  split at hy
  next => exact absurd hy List.not_mem_nil
  next xs h =>
    cases t <;> cases h
    exact Or.inr hy
  next => exact Or.inl (List.mem_singleton.1 hy)

theorem eq_or_mem_children_of_mem_disjuncts {t y : Term} (hy : y ∈ t.disjuncts) : y = t.asFormula ∨ y ∈ t.children := by
  unfold disjuncts at hy
  split at hy
  next => exact absurd hy List.not_mem_nil
  next xs h =>
    cases t <;> cases h
    exact Or.inr hy
  next => exact Or.inl (List.mem_singleton.1 hy)

/-- A property of operands is one of what they are joined to, if truth values have it and the connective keeps it. -/
theorem property_joined {unit : Bool} {wrap : List Term → Term} {ts : List Term} (hbool : ∀ b, P (.bool b))
    (hts : ∀ t ∈ ts, P t) (hwrap : 2 ≤ ts.length → .bool (!unit) ∉ ts → P (wrap ts)) : P (joined unit wrap ts) := by
  match ts with
  | [] => exact hbool unit
  | [t] => exact hts t (by simp)
  | t :: u :: ts =>
      rw [joined]
      split
      next => exact hbool _
      next hmem => exact hwrap (by simp) hmem
      all_goals simp

section
variable {Q : Term → Prop} (hbool : ∀ b, Q (.bool b))
include hbool

theorem forall_subterms_asFormula {t : Term} (ht : ∀ u ∈ t.subterms, Q u) : ∀ u ∈ t.asFormula.subterms, Q u := by
  cases t <;> first | exact ht | simpa [asFormula, subterms] using hbool _

theorem forall_subterms_negate (hnot : ∀ t, Q (.not t)) {t : Term} (ht : ∀ u ∈ t.subterms, Q u) :
    ∀ u ∈ t.negate.subterms, Q u := by
  have htruth : ∀ b, ∀ u ∈ (Term.bool b).subterms, Q u := fun b => by simpa [subterms] using hbool b
  have hself : ∀ u ∈ (Term.not t).subterms, Q u :=
    (forall_subterms_iff _).2 ⟨hnot t, by simpa [children] using ht⟩
  cases t with
  | const v => exact htruth _
  | bool b => exact htruth _
  | not u => exact ((forall_subterms_iff _).1 ht).2 u (by simp [children])
  | _ => exact hself

theorem forall_subterms_parts {ts : List Term} {parts : Term → List Term}
    (hparts : ∀ t y, y ∈ parts t → y = t.asFormula ∨ y ∈ t.children) (hts : ∀ t ∈ ts, ∀ u ∈ t.subterms, Q u) :
    ∀ y ∈ (ts.flatMap parts).eraseDups, ∀ u ∈ y.subterms, Q u := by
  intro y hy
  obtain ⟨t, ht, hy⟩ := List.mem_flatMap.1 (List.mem_eraseDups.1 hy)
  rcases hparts t y hy with rfl | hy
  · exact forall_subterms_asFormula hbool (hts t ht)
  · exact ((forall_subterms_iff t).1 (hts t ht)).2 y hy

theorem forall_subterms_conj (hand : ∀ xs, Q (.and xs)) {ts : List Term} (hts : ∀ t ∈ ts, ∀ u ∈ t.subterms, Q u) :
    ∀ u ∈ (conj ts).subterms, Q u := by
  have hparts := forall_subterms_parts hbool (fun _ _ => eq_or_mem_children_of_mem_conjuncts) hts
  rw [conj_eq]
  exact property_joined (P := fun t => ∀ u ∈ t.subterms, Q u) (fun b => by simpa [subterms] using hbool b) hparts
    fun _ _ => (forall_subterms_iff _).2 ⟨hand _, hparts⟩

theorem forall_subterms_disj (hor : ∀ xs, Q (.or xs)) {ts : List Term} (hts : ∀ t ∈ ts, ∀ u ∈ t.subterms, Q u) :
    ∀ u ∈ (disj ts).subterms, Q u := by
  have hparts := forall_subterms_parts hbool (fun _ _ => eq_or_mem_children_of_mem_disjuncts) hts
  rw [disj_eq]
  exact property_joined (P := fun t => ∀ u ∈ t.subterms, Q u) (fun b => by simpa [subterms] using hbool b) hparts
    fun _ _ => (forall_subterms_iff _).2 ⟨hor _, hparts⟩

end

/-- The constructors keep a property of all subterms, if it excludes none of the terms that they make. -/
theorem isClosed_forall_subterms {Q : Term → Prop} (hQ : ∀ t : Term, t.isBuilt = true → Q t) :
    IsClosed fun t => ∀ u ∈ t.subterms, Q u := by
  have hbuilt : ∀ t : Term, t.isBuilt = true → (∀ c ∈ t.children, ∀ u ∈ c.subterms, Q u) → ∀ u ∈ t.subterms, Q u :=
    fun t ht hchildren => (forall_subterms_iff t).2 ⟨hQ t ht, hchildren⟩
  constructor
  case const => exact fun v => hbuilt _ rfl (by simp [children])
  case bool => exact fun b => hbuilt _ rfl (by simp [children])
  case mem => exact fun ha => hbuilt _ rfl (by simpa [children] using ha)
  case unary => exact fun op _ ha => hbuilt _ rfl (by simpa [children] using ha)
  case binary => exact fun op _ _ ha hb => hbuilt _ rfl (by simpa [children] using ⟨ha, hb⟩)
  case eq => exact fun ha hb => hbuilt _ rfl (by simpa [children] using ⟨ha, hb⟩)
  case negate => exact forall_subterms_negate (fun _ => hQ _ rfl) fun _ => hQ _ rfl
  case conj => exact forall_subterms_conj (fun _ => hQ _ rfl) fun _ => hQ _ rfl
  case disj => exact forall_subterms_disj (fun _ => hQ _ rfl) fun _ => hQ _ rfl

/-- Such a property is handed down as well. Only variables and register cells may lack it. -/
theorem isInherited_forall_subterms {Q : Term → Prop} (hQ : ∀ t : Term, t.isSymbol = false → Q t) :
    IsInherited fun t => ∀ u ∈ t.subterms, Q u where
  toIsClosed := isClosed_forall_subterms fun t ht => hQ t (by cases t <;> first | rfl | cases ht)
  quantified q a b ha hb := (forall_subterms_iff _).2 ⟨hQ _ rfl, by simpa [children] using ⟨ha, hb⟩⟩
  ite hc ha hb := (forall_subterms_iff _).2 ⟨hQ _ rfl, by simpa [children] using ⟨hc, ha, hb⟩⟩
  child ht hc := ((forall_subterms_iff _).1 ht).2 _ hc

/-! ## Where quantified terms are put together anew -/

/-- The subterms that are looked at where bound terms are replaced. Nothing is looked at below a bound term. -/
def opened (bindings : Bindings) : Term → List Term :=
  foldUp fun t below => if (bindings.lookup t).isSome then [] else below.flatten ++ [t]

theorem mem_opened_iff {bindings : Bindings} {t u : Term} :
    u ∈ t.opened bindings ↔ bindings.lookup t = none ∧ (u = t ∨ ∃ c ∈ t.children, u ∈ c.opened bindings) := by
  rw [opened, foldUp_eq]
  cases bindings.lookup t with
  | some v => simp
  | none => simp [or_comm]

theorem mem_subterms_of_mem_opened {bindings : Bindings} {t u : Term} (h : u ∈ t.opened bindings) : u ∈ t.subterms := by
  induction t using inductionOnChildren with
  | step t ih =>
      obtain ⟨-, rfl | ⟨c, hc, hu⟩⟩ := mem_opened_iff.1 h
      · exact mem_subterms_self u
      · exact mem_subterms_of_mem_children hc (ih c hc hu)

theorem lookup_of_mem_opened {bindings : Bindings} {t u : Term} (h : u ∈ t.opened bindings) :
    bindings.lookup u = none := by
  induction t using inductionOnChildren with
  | step t ih =>
      obtain ⟨hnone, rfl | ⟨c, hc, hu⟩⟩ := mem_opened_iff.1 h
      · exact hnone
      · exact ih c hc hu

theorem mem_opened_trans {bindings : Bindings} {t u w : Term} (hu : u ∈ t.opened bindings)
    (hw : w ∈ u.opened bindings) : w ∈ t.opened bindings := by
  induction t using inductionOnChildren with
  | step t ih =>
      obtain ⟨hnone, rfl | ⟨c, hc, hu⟩⟩ := mem_opened_iff.1 hu
      · exact hw
      · exact mem_opened_iff.2 ⟨hnone, Or.inr ⟨c, hc, ih c hc hu⟩⟩

/-- What is built where bound terms are replaced is what becomes of the terms that are looked at. -/
theorem mem_instantiateBuilds_iff {bindings : Bindings} {t w : Term} :
    w ∈ t.instantiateBuilds bindings ↔ ∃ u ∈ t.opened bindings, w = u.instantiate bindings := by
  induction t using inductionOnChildren with
  | step t ih =>
      simp only [mem_opened_iff (t := t)]
      rw [Term.instantiateBuilds, foldUp_eq]
      cases bindings.lookup t with
      | some v => simp
      | none =>
          simp only [Option.isSome_none, Bool.false_eq_true, if_false, List.mem_append, List.mem_flatten, List.mem_map,
            List.mem_singleton, true_and]
          constructor
          · rintro (⟨_, ⟨c, hc, rfl⟩, hw⟩ | rfl)
            · obtain ⟨u, hu, rfl⟩ := (ih c hc).1 hw
              exact ⟨u, Or.inr ⟨c, hc, hu⟩, rfl⟩
            · exact ⟨t, Or.inl rfl, rfl⟩
          · rintro ⟨u, rfl | ⟨c, hc, hu⟩, rfl⟩
            · exact Or.inr rfl
            · exact Or.inl ⟨_, ⟨c, hc, rfl⟩, (ih c hc).2 ⟨u, hu, rfl⟩⟩

/-- Whether the quantified terms in a term keep a property where bound terms are replaced. -/
def KeepsQuantified (P : Term → Prop) (bindings : Bindings) (t : Term) : Prop :=
  ∀ q x b, .quantified q x b ∈ t.opened bindings → ∀ b', P (x.instantiate bindings) → P b' →
    P (.quantified q (x.instantiate bindings) b')

end Term

namespace Rule

/-- The term with all matches replaced that are not the whole term. -/
def applyInside (rule : Rule) (t : Term) : Term :=
  t.updateChildren (t.children.map rule.apply)

theorem replaceAllBuilds_eq (rule : Rule) (t : Term) :
    rule.replaceAllBuilds t = t.children.flatMap rule.replaceAllBuilds ++ [rule.applyInside t] ++
      match rule.pattern.matchWith? rule.free (rule.applyInside t) [] with
      | some bindings => rule.replacement.instantiateBuilds bindings
      | none => [] := by
  refine (Term.foldUp_eq _ t).trans ?_
  rw [List.flatMap_def]
  rfl

/-- What is built where a rule replaces every match: what becomes of the subterms, and the replacements. -/
theorem mem_replaceAllBuilds_iff {rule : Rule} {t w : Term} :
    w ∈ rule.replaceAllBuilds t ↔ ∃ u ∈ t.subterms, w = rule.applyInside u ∨
      ∃ bindings, rule.pattern.matchWith? rule.free (rule.applyInside u) [] = some bindings ∧
        w ∈ rule.replacement.instantiateBuilds bindings := by
  induction t using Term.inductionOnChildren with
  | step t ih =>
      have hself : w ∈ rule.replaceAllBuilds t ↔
          (w = rule.applyInside t ∨
            ∃ bindings, rule.pattern.matchWith? rule.free (rule.applyInside t) [] = some bindings ∧
              w ∈ rule.replacement.instantiateBuilds bindings) ∨
            ∃ c ∈ t.children, w ∈ rule.replaceAllBuilds c := by
        rw [replaceAllBuilds_eq, or_comm]
        cases rule.pattern.matchWith? rule.free (rule.applyInside t) [] <;> simp
      rw [hself, Term.subterms_eq]
      simp only [List.mem_cons, exists_eq_or_imp, List.mem_flatMap]
      refine or_congr_right ?_
      constructor
      · rintro ⟨c, hc, hw⟩
        obtain ⟨u, hu, hw⟩ := (ih c hc).1 hw
        exact ⟨u, ⟨c, hc, hu⟩, hw⟩
      · rintro ⟨u, ⟨c, hc, hu⟩, hw⟩
        exact ⟨c, hc, (ih c hc).2 ⟨u, hu, hw⟩⟩

/-- Whether the quantified terms keep a property where a rule is applied: those in the term, and those in the
replacements. -/
structure KeepsQuantified (P : Term → Prop) (rule : Rule) (t : Term) : Prop where
  inside : ∀ q x b, .quantified q x b ∈ t.subterms → ∀ b', P (rule.apply x) → P b' → P (.quantified q (rule.apply x) b')
  replaced : ∀ u ∈ t.subterms, ∀ bindings,
    rule.pattern.matchWith? rule.free (rule.applyInside u) [] = some bindings →
    rule.replacement.KeepsQuantified P bindings

theorem KeepsQuantified.of_mem {P : Term → Prop} {rule : Rule} {t u : Term} (h : rule.KeepsQuantified P t)
    (hu : u ∈ t.subterms) : rule.KeepsQuantified P u where
  inside q x b hq := h.inside q x b (Term.mem_subterms_trans hu hq)
  replaced w hw := h.replaced w (Term.mem_subterms_trans hu hw)

end Rule

namespace Term

variable {P : Term → Prop}

namespace IsHandedDown

theorem forall_bind? {Q : Term × Term → Prop} {p t : Term} {bindings found : Bindings} (ht : Q (p, t))
    (hbound : ∀ b ∈ bindings, Q b) (hfound : bind? p t bindings = some found) : ∀ b ∈ found, Q b := by
  unfold bind? at hfound
  split at hfound
  · split at hfound
    · exact Option.some.inj hfound ▸ hbound
    · cases hfound
  · obtain rfl := Option.some.inj hfound
    exact List.forall_mem_cons.2 ⟨ht, hbound⟩

theorem forall_matchWith? (h : IsHandedDown P) (pattern : Term) {free : List Term} {t : Term} (ht : P t)
    {bindings found : Bindings} (hbound : ∀ b ∈ bindings, P b.2)
    (hfound : matchWith? pattern free t bindings = some found) : ∀ b ∈ found, P b.2 := by
  refine preserved_of_matchWith? (P := fun bs => ∀ b ∈ bs, P b.2) (fun t ht c hc => h.child ht hc) ?_ ht hfound hbound
  exact fun x _ t b found ht hfound hb => forall_bind? (Q := fun e => P e.2) ht hb hfound

variable (h : IsHandedDown P)
include h

theorem subterm {t u : Term} (ht : P t) (hu : u ∈ t.subterms) : P u := by
  induction t using inductionOnChildren with
  | step t ih =>
      rw [subterms_eq] at hu
      rcases List.mem_cons.1 hu with rfl | hu
      · exact ht
      · obtain ⟨c, hc, hu⟩ := List.mem_flatMap.1 hu
        exact ih c hc (h.child ht hc) hu

theorem dependencies {t : Term} (ht : P t) : ∀ l ∈ t.dependencies, P l :=
  fun _ hl => h.subterm ht (mem_outermostLvalues (mem_dependencies.1 hl)).1

theorem lvalues {t : Term} (ht : P t) : ∀ l ∈ t.lvalues, P l := by
  intro l hl
  rw [Term.lvalues, distinct_eq_eraseDups, List.mem_eraseDups] at hl
  exact h.subterm ht (List.mem_filter.1 hl).1

theorem withChildren_of_quantified {t : Term} (ht : P t) {cs : List Term} (hcs : ∀ c ∈ cs, P c)
    (hquantified : ∀ q x b, t = .quantified q x b → P (.quantified q (cs.getD 0 x) (cs.getD 1 b))) :
    P (t.withChildren cs) := by
  have hnew : ∀ c ∈ t.children, ∀ i, P (cs.getD i c) := fun c hc i => List.forall_getD hcs (h.child ht hc) i
  cases t with
  | const v | var n | reg n o s | bool b => exact ht
  | mem a => exact h.mem (hnew a (by simp [children]) 0)
  | unary op a => exact h.unary op (hnew a (by simp [children]) 0)
  | binary op a b => exact h.binary op (hnew a (by simp [children]) 0) (hnew b (by simp [children]) 1)
  | eq a b => exact h.eq (hnew a (by simp [children]) 0) (hnew b (by simp [children]) 1)
  | not a => exact h.negate (hnew a (by simp [children]) 0)
  | and xs => exact h.conj hcs
  | or xs => exact h.disj hcs
  | quantified q a b => exact hquantified q a b rfl
  | ite c a b =>
      exact h.ite (hnew c (by simp [children]) 0) (hnew a (by simp [children]) 1) (hnew b (by simp [children]) 2)

theorem updateChildren_map_of_quantified {t : Term} (ht : P t) {f : Term → Term} (hf : ∀ c ∈ t.children, P (f c))
    (hquantified : ∀ q x b, t = .quantified q x b → P (.quantified q (f x) (f b))) :
    P (t.updateChildren (t.children.map f)) := by
  unfold Term.updateChildren
  split
  next => exact ht
  next =>
    refine h.withChildren_of_quantified ht (List.forall_mem_map.2 hf) fun q x b heq => ?_
    subst heq
    exact hquantified q x b rfl

theorem instantiate_of_quantified {bindings : Bindings} (hbound : ∀ b ∈ bindings, P b.2) {t : Term} (ht : P t)
    (hquantified : t.KeepsQuantified P bindings) : P (t.instantiate bindings) := by
  induction t using inductionOnChildren with
  | step t ih =>
      rw [instantiate_eq]
      cases hfound : bindings.lookup t with
      | some u =>
          obtain ⟨before, after, rfl, -⟩ := List.lookup_eq_some_iff.1 hfound
          exact hbound (t, u) (by simp)
      | none =>
          have hchild : ∀ c ∈ t.children, P (c.instantiate bindings) := fun c hc =>
            ih c hc (h.child ht hc) fun q x b hq => hquantified q x b (mem_opened_iff.2 ⟨hfound, Or.inr ⟨c, hc, hq⟩⟩)
          refine h.updateChildren_map_of_quantified ht hchild fun q x b heq => ?_
          subst heq
          exact hquantified q x b (mem_opened_iff.2 ⟨hfound, Or.inl rfl⟩) _ (hchild x (by simp [children]))
            (hchild b (by simp [children]))

theorem instantiateBuilds_of_quantified {bindings : Bindings} (hbound : ∀ b ∈ bindings, P b.2) {t : Term} (ht : P t)
    (hquantified : t.KeepsQuantified P bindings) : ∀ u ∈ t.instantiateBuilds bindings, P u := by
  intro w hw
  obtain ⟨u, hu, rfl⟩ := mem_instantiateBuilds_iff.1 hw
  exact h.instantiate_of_quantified hbound (h.subterm ht (mem_subterms_of_mem_opened hu)) fun q x b hq =>
    hquantified q x b (mem_opened_trans hu hq)

section
variable {rule : Rule} (hrule : P rule.replacement)
include hrule

theorem apply_of_quantified {t : Term} (ht : P t) (hquantified : rule.KeepsQuantified P t) :
    P (rule.applyInside t) ∧ P (rule.apply t) := by
  induction t using inductionOnChildren with
  | step t ih =>
      have hchild : ∀ c ∈ t.children, P (rule.apply c) := fun c hc =>
        (ih c hc (h.child ht hc) (hquantified.of_mem (mem_subterms_of_mem_children hc (mem_subterms_self c)))).2
      have hinside : P (rule.applyInside t) := by
        refine h.updateChildren_map_of_quantified ht hchild fun q x b heq => ?_
        subst heq
        exact hquantified.inside q x b (mem_subterms_self _) _ (hchild x (by simp [children]))
          (hchild b (by simp [children]))
      refine ⟨hinside, ?_⟩
      rw [Rule.apply_eq, Rule.applyHead, Rule.replacementFor?_eq]
      change P (((rule.pattern.matchWith? rule.free (rule.applyInside t) []).map
        (rule.replacement.instantiate ·)).getD (rule.applyInside t))
      cases hfound : rule.pattern.matchWith? rule.free (rule.applyInside t) [] with
      | none => exact hinside
      | some bindings =>
          exact h.instantiate_of_quantified (h.forall_matchWith? rule.pattern hinside (by simp) hfound) hrule
            (hquantified.replaced t (mem_subterms_self t) bindings hfound)

theorem replaceAllBuilds_of_quantified {t : Term} (ht : P t) (hquantified : rule.KeepsQuantified P t) :
    ∀ w ∈ rule.replaceAllBuilds t, P w := by
  intro w hw
  obtain ⟨u, hu, hw⟩ := Rule.mem_replaceAllBuilds_iff.1 hw
  have hinside := (h.apply_of_quantified hrule (h.subterm ht hu) (hquantified.of_mem hu)).1
  rcases hw with rfl | ⟨bindings, hfound, hw⟩
  · exact hinside
  · exact h.instantiateBuilds_of_quantified (h.forall_matchWith? rule.pattern hinside (by simp) hfound) hrule
      (hquantified.replaced u hu bindings hfound) w hw

end

/-- A simplified term has the property if the symbols in the term have it, and the quantified terms in it keep it. -/
theorem simplify_of_quantified {t : Term} (ht : ∀ u ∈ t.symbols, P u)
    (hquantified : ∀ q x b, .quantified q x b ∈ t.subterms → ∀ {b'}, P x.simplify → P b' →
      P (.quantified q x.simplify b')) :
    P t.simplify := by
  induction t using inductionOnChildren with
  | step t ih =>
      have hchild : ∀ c ∈ t.children, P c.simplify := fun c hc => by
        refine ih c hc (fun u hu => ?_) fun q x b hq => hquantified q x b (mem_subterms_of_mem_children hc hq)
        obtain ⟨hmem, hsymbol⟩ := mem_symbols_iff.1 hu
        exact ht u (mem_symbols_iff.2 ⟨mem_subterms_of_mem_children hc hmem, hsymbol⟩)
      cases t with
      | const v => exact h.const v
      | bool b => exact h.bool b
      | var n | reg n o s => exact ht _ (mem_symbols_iff.2 ⟨mem_subterms_self _, rfl⟩)
      | mem a => exact h.mem (hchild a (by simp [children]))
      | unary op a =>
          rw [Term.simplify]
          -- The node is folded to a constant, or stays what it is over the simplified operand.
          rcases simplifyUnary_cases op a.simplify with ⟨c, hc, -⟩ | hkept
          · exact hc ▸ h.const c
          · exact hkept ▸ h.unary op (hchild a (by simp [children]))
      | binary op a b =>
          rw [Term.simplify]
          rcases simplifyBinary_cases op a.simplify b.simplify with ⟨c, hc, -⟩ | hkept
          · exact hc ▸ h.const c
          · exact hkept ▸ h.binary op (hchild a (by simp [children])) (hchild b (by simp [children]))
      | eq a b =>
          rw [Term.simplify]
          rcases simplifyEq_cases a.simplify b.simplify with ⟨c, hc⟩ | hkept
          · exact hc ▸ h.bool c
          · exact hkept ▸ h.eq (hchild a (by simp [children])) (hchild b (by simp [children]))
      | not a => exact h.negate (hchild a (by simp [children]))
      | and xs =>
          rw [Term.simplify, simplifyAll_eq_map]
          exact h.conj (List.forall_mem_map.2 hchild)
      | or xs =>
          rw [Term.simplify, simplifyAll_eq_map]
          exact h.disj (List.forall_mem_map.2 hchild)
      | quantified q a b =>
          rw [Term.simplify]
          rcases simplifyQuantified_cases q a.simplify b.simplify with ⟨c, hc⟩ | hkept
          · exact hc ▸ h.bool c
          · have hbody := h.asFormula (hchild b (by simp [children]))
            exact hkept ▸ hquantified q a b (mem_subterms_self _) (hchild a (by simp [children])) hbody
      | ite c a b =>
          have ha := hchild a (by simp [children])
          have hb := hchild b (by simp [children])
          rw [Term.simplify]
          rcases simplifyIte_cases c.simplify a.simplify b.simplify with hpositive | hnegative | hkept
          · exact hpositive.symm ▸ ha
          · exact hnegative.symm ▸ hb
          · exact hkept ▸ h.ite (h.asFormula (hchild c (by simp [children]))) ha hb

/-- Where the builds of a term are those of its children and what it becomes. -/
theorem forall_foldUp_builds {f : Term → Term} (hf : ∀ {t : Term}, P t → P (f t)) {t : Term} (ht : P t) :
    ∀ u ∈ foldUp (fun t below => below.flatten ++ [f t]) t, P u := by
  induction t using inductionOnChildren with
  | step t ih =>
      rw [foldUp_eq]
      intro u hu
      rcases List.mem_append.1 hu with hu | hu
      · obtain ⟨c, hc, hu⟩ := List.mem_flatMap.1 hu
        exact ih c hc (h.child ht hc) u hu
      · exact List.mem_singleton.1 hu ▸ hf ht

theorem clauses {t : Term} (ht : P t) (negated : Bool) : ∀ c ∈ t.clauses negated, ∀ l ∈ c, P l := by
  refine forall_clauses (fun u hu => ?_) negated
  have hatom : P u := h.subterm ht (mem_subterms_of_mem_formulaAtoms hu)
  exact ⟨hatom, negate_of_isAtom (isAtom_of_mem_formulaAtoms hu) ▸ h.negate hatom⟩

theorem conj_clauses {t : Term} (ht : P t) : ∀ u ∈ (t.clauses false).map Term.conj, P u :=
  List.forall_mem_map.2 fun c hc => h.conj (h.clauses ht false c hc)

theorem disjunctiveForm {t : Term} (ht : P t) : P t.disjunctiveForm :=
  h.disj (h.conj_clauses ht)

theorem clausesBuilds {t : Term} (ht : P t) (negated : Bool) : ∀ u ∈ t.clausesBuilds negated, P u := by
  induction t using inductionOnChildren generalizing negated with
  | step t ih =>
      have hchild : ∀ c ∈ t.children, ∀ negated, ∀ u ∈ c.clausesBuilds negated, P u := fun c hc =>
        ih c hc (h.child ht hc)
      have hall : ∀ xs : List Term, (∀ x ∈ xs, ∀ negated, ∀ u ∈ x.clausesBuilds negated, P u) →
          ∀ negated, ∀ u ∈ clausesAllBuilds xs negated, P u := by
        intro xs hxs negated
        induction xs with
        | nil => simp [clausesAllBuilds]
        | cons x xs ihxs =>
            rw [clausesAllBuilds]
            exact List.forall_mem_append.2
              ⟨hxs x (by simp) negated, ihxs fun y hy => hxs y (List.mem_cons_of_mem x hy)⟩
      have hjoin : ∀ xs : List Term, (∀ x ∈ xs, ∀ negated, ∀ u ∈ x.clausesBuilds negated, P u) →
          ∀ negated joined, ∀ u ∈ joinClausesBuilds xs negated joined, P u := by
        intro xs hxs negated
        induction xs with
        | nil => simp [joinClausesBuilds]
        | cons x xs ihxs =>
            intro joined
            rw [joinClausesBuilds]
            split
            · simp
            · exact List.forall_mem_append.2
                ⟨hxs x (by simp) negated, ihxs (fun y hy => hxs y (List.mem_cons_of_mem x hy)) _⟩
      cases t with
      | const v | bool b => simp [Term.clausesBuilds]
      | not a => exact hchild a (by simp [children]) _
      | and xs =>
          rw [Term.clausesBuilds]
          split
          · exact hall xs hchild negated
          · exact hjoin xs hchild negated _
      | or xs =>
          rw [Term.clausesBuilds]
          split
          · exact hjoin xs hchild negated _
          · exact hall xs hchild negated
      | ite c a b =>
          have hc := hchild c (by simp [children])
          have ha := hchild a (by simp [children]) negated
          have hb := hchild b (by simp [children]) negated
          rw [Term.clausesBuilds]
          simp only [List.forall_mem_append]
          exact ⟨⟨⟨hc false, ha⟩, hc true⟩, hb⟩
      | _ =>
          rw [Term.clausesBuilds]
          split
          · exact fun u hu => List.mem_singleton.1 hu ▸ h.negate ht
          · simp
          all_goals simp

theorem disjunctiveFormBuilds {t : Term} (ht : P t) : ∀ u ∈ t.disjunctiveFormBuilds, P u := by
  rw [Term.disjunctiveFormBuilds]
  simp only [List.forall_mem_append]
  refine ⟨⟨h.clausesBuilds ht false, fun u hu => ?_⟩, fun u hu => ?_⟩
  · exact h.conj_clauses ht u (List.takeWhile_subset _ hu)
  · exact List.mem_singleton.1 hu ▸ h.disjunctiveForm ht

theorem toTerm {cases : Cases} (hcases : cases.Forall P P) : P cases.toTerm := by
  induction cases with
  | leaf t => exact hcases
  | split c a b iha ihb => exact h.ite hcases.1 (iha hcases.2.1) (ihb hcases.2.2)

omit h in
theorem forall_leaves {cases : Cases} (hcases : cases.Forall P P) : ∀ t ∈ cases.leaves, P t := by
  induction cases with
  | leaf t => exact fun u hu => List.mem_singleton.1 hu ▸ hcases
  | split c a b iha ihb => exact List.forall_mem_append.2 ⟨iha hcases.2.1, ihb hcases.2.2⟩

theorem toTermBuilds {cases : Cases} (hcases : cases.Forall P P) : ∀ t ∈ cases.toTermBuilds, P t := by
  induction cases with
  | leaf t => simp [Cases.toTermBuilds]
  | split c a b iha ihb =>
      rw [Cases.toTermBuilds]
      simp only [List.forall_mem_append]
      exact ⟨⟨iha hcases.2.1, ihb hcases.2.2⟩, fun u hu => List.mem_singleton.1 hu ▸ h.toTerm hcases⟩

section
variable {a v : Term} (ha : P a) (hv : P v)
include ha hv

theorem readCases {e : Term} (he : P e) : (e.readCases a v).Forall P P := by
  induction e using inductionOnChildren with
  | step e ih =>
      have hchild : ∀ c ∈ e.children, (c.readCases a v).Forall P P := fun c hc => ih c hc (h.child he hc)
      cases e with
      | mem x => exact ⟨h.eq ha (h.child he (by simp [children])), hv, he⟩
      | unary op t => exact (hchild t (by simp [children])).map fun _ ht => h.unary op ht
      | binary op t u =>
          exact (hchild t (by simp [children])).combine (hchild u (by simp [children])) fun _ _ ht hu => h.binary op ht hu
      | _ => exact he

theorem readCasesBuilds {e : Term} (he : P e) : ∀ u ∈ e.readCasesBuilds a v, P u := by
  induction e using inductionOnChildren with
  | step e ih =>
      have hchild : ∀ c ∈ e.children, ∀ u ∈ c.readCasesBuilds a v, P u := fun c hc => ih c hc (h.child he hc)
      have hleaves := forall_leaves (h.readCases ha hv he)
      cases e with
      | mem x => exact fun u hu => List.mem_singleton.1 hu ▸ h.eq ha (h.child he (by simp [children]))
      | unary op t => exact List.forall_mem_append.2 ⟨hchild t (by simp [children]), hleaves⟩
      | binary op t u =>
          rw [Term.readCasesBuilds]
          simp only [List.forall_mem_append]
          exact ⟨⟨hchild t (by simp [children]), hchild u (by simp [children])⟩, hleaves⟩
      | _ => simp [Term.readCasesBuilds]

theorem eqCases {t u : Term} (ht : P t) (hu : P u) :
    ((t.readCases a v).combine .eq (u.readCases a v)).Forall P P :=
  (h.readCases ha hv ht).combine (h.readCases ha hv hu) fun _ _ hx hy => h.eq hx hy

/-- Reads are split, where the quantified terms keep the property. Their variables are no reads. -/
theorem splitAliases_of_quantified {t : Term} (ht : P t)
    (hquantified : ∀ q x b, .quantified q x b ∈ t.subterms → ∀ {b'}, P b' → P (.quantified q x b')) :
    P (t.splitAliases a v).1 := by
  induction t using inductionOnChildren with
  | step t ih =>
      have hchild : ∀ c ∈ t.children, P (c.splitAliases a v).1 := fun c hc =>
        ih c hc (h.child ht hc) fun q x b hq => hquantified q x b (mem_subterms_of_mem_children hc hq)
      by_cases hatom : t.isAtom = true
      · cases t with
        | eq t u =>
            rw [splitAliases_eq]
            exact h.toTerm (h.eqCases ha hv (h.child ht (by simp [children])) (h.child ht (by simp [children])))
        | quantified q x t => exact hquantified q x t (mem_subterms_self _) (hchild t (by simp [children]))
        | mem _ | unary _ _ | binary _ _ _ | var _ | reg _ _ _ =>
            rw [splitAliases_of_isExpression rfl]
            exact h.toTerm (h.readCases ha hv ht)
        | _ => simp [isAtom] at hatom
      · rcases isRebuilt_splitAliases (a := a) (v := v) (by simpa using hatom) with hrebuilt | ⟨hsame, -⟩
        · rw [hrebuilt]
          refine h.withChildren_of_quantified ht (List.forall_mem_map.2 hchild) fun q x b heq => ?_
          exact absurd (heq ▸ rfl) hatom
        · rw [hsame]
          exact ht

theorem splitAliasesBuilds_of_splitAliases (hsplit : ∀ {t : Term}, P t → P (t.splitAliases a v).1) {t : Term}
    (ht : P t) : ∀ u ∈ t.splitAliasesBuilds a v, P u := by
  induction t using inductionOnChildren with
  | step t ih =>
      have hchild : ∀ c ∈ t.children, ∀ u ∈ c.splitAliasesBuilds a v, P u := fun c hc => ih c hc (h.child ht hc)
      rw [Term.splitAliasesBuilds, foldUp_eq]
      split
      next below t u =>
        have ht' : P t := h.child ht (by simp [children])
        have hu' : P u := h.child ht (by simp [children])
        have hcases := h.eqCases ha hv ht' hu'
        simp only [List.forall_mem_append]
        exact ⟨⟨⟨h.readCasesBuilds ha hv ht', h.readCasesBuilds ha hv hu'⟩, forall_leaves hcases⟩, h.toTermBuilds hcases⟩
      next q x t ofBound ofBody hbelow =>
        have hbody : ofBody = t.splitAliasesBuilds a v := by
          simp only [children, List.map_cons, List.map_nil, List.cons.injEq] at hbelow
          exact hbelow.2.1.symm
        refine List.forall_mem_append.2 ⟨?_, fun u hu => List.mem_singleton.1 hu ▸ hsplit ht⟩
        exact hbody ▸ hchild t (by simp [children])
      next =>
        split
        · exact List.forall_mem_append.2 ⟨h.readCasesBuilds ha hv ht, h.toTermBuilds (h.readCases ha hv ht)⟩
        · intro u hu
          rcases List.mem_append.1 hu with hu | hu
          · obtain ⟨c, hc, hu⟩ := List.mem_flatMap.1 hu
            exact hchild c hc u hu
          · exact List.mem_singleton.1 hu ▸ hsplit ht

end

theorem memberValue? {t e : Term} (ht : P t) (he : ConditionalSet.memberValue? t = some e) : P e := by
  cases t with
  | eq a b =>
      have ha : P a := h.child ht (by simp [children])
      have hb : P b := h.child ht (by simp [children])
      rw [ConditionalSet.memberValue?] at he
      split at he
      · exact Option.some.inj he ▸ hb
      · split at he
        · exact Option.some.inj he ▸ ha
        · cases he
  | _ => cases he

theorem atoms {s : Term} (hs : P s) : ∀ e ∈ ConditionalSet.atoms s, P e := by
  induction s using inductionOnChildren with
  | step s ih =>
      have hchild : ∀ c ∈ s.children, ∀ e ∈ ConditionalSet.atoms c, P e := fun c hc => ih c hc (h.child hs hc)
      cases s with
      | eq a b =>
          exact fun e he => h.memberValue? hs (Option.mem_toList.1 he)
      | and xs | or xs =>
          rw [ConditionalSet.atoms, ConditionalSet.atomsAll_eq_flatMap]
          exact List.forall_mem_flatMap.2 hchild
      | quantified q a b => exact hchild b (by simp [children])
      | ite c a b => exact List.forall_mem_append.2 ⟨hchild a (by simp [children]), hchild b (by simp [children])⟩
      | _ => simp [ConditionalSet.atoms]

theorem possibleValues {s : Term} (hs : P s) : ∀ e ∈ ConditionalSet.possibleValues s, P e := by
  intro e he
  rw [ConditionalSet.possibleValues, distinct_eq_eraseDups, List.mem_eraseDups] at he
  exact h.atoms hs e he

end IsHandedDown

namespace IsKeptBySets
variable (h : IsKeptBySets P)
include h

/-! ## Conditional sets -/

theorem member {e : Term} (he : P e) : P (ConditionalSet.member e) :=
  h.eq h.marker he

theorem union {s t : Term} (hs : P s) (ht : P t) : P (ConditionalSet.union s t) :=
  h.disj (List.forall_mem_cons.2 ⟨hs, List.forall_mem_cons.2 ⟨ht, by simp⟩⟩)

theorem add {s e : Term} (hs : P s) (he : P e) : P (ConditionalSet.add s e) :=
  h.union hs (h.member he)

theorem addBuilds {s e : Term} (hs : P s) (he : P e) : ∀ u ∈ ConditionalSet.addBuilds s e, P u :=
  List.forall_mem_cons.2 ⟨h.member he, List.forall_mem_cons.2 ⟨h.add hs he, by simp⟩⟩

theorem ofList {es : List Term} (hes : ∀ e ∈ es, P e) : P (ConditionalSet.ofList es) :=
  List.foldlRecOn (motive := P) _ _ (h.bool false) fun _ hs e he => h.add hs (hes e he)

theorem ofListBuilds {es : List Term} (hes : ∀ e ∈ es, P e) : ∀ u ∈ ConditionalSet.ofListBuilds es, P u := by
  have hboth := List.foldlRecOn (motive := fun built : Term × List Term => P built.1 ∧ ∀ u ∈ built.2, P u) es
    (fun (s, builds) e => (ConditionalSet.add s e, builds ++ ConditionalSet.addBuilds s e))
    (b := (ConditionalSet.empty, [])) ⟨h.bool false, by simp⟩ fun built hbuilt e he =>
      ⟨h.add hbuilt.1 (hes e he), List.forall_mem_append.2 ⟨hbuilt.2, h.addBuilds hbuilt.1 (hes e he)⟩⟩
  exact hboth.2

theorem flatten {s : Term} (hs : P s) : P (ConditionalSet.flatten s) :=
  h.disj (List.forall_mem_map.2 fun e he => h.member (h.possibleValues hs e he))

theorem flattenBuilds {s : Term} (hs : P s) : ∀ u ∈ ConditionalSet.flattenBuilds s, P u :=
  List.forall_mem_append.2
    ⟨List.forall_mem_map.2 fun e he => h.member (h.possibleValues hs e he),
      fun _ hu => List.mem_singleton.1 hu ▸ h.flatten hs⟩

theorem resolved {a v x : Term} (ha : P a) (hv : P v) (hx : P x) :
    P (.ite (.eq a x) (ConditionalSet.ofList v.dependencies) (ConditionalSet.member (.mem x))) :=
  h.ite (h.eq ha hx) (h.ofList (h.dependencies hv)) (h.member (h.mem hx))

theorem underGuard {s : Term} (hs : P s) (options : Options) {guard : Option Term} (hguard : ∀ g ∈ guard, P g) :
    P (ConditionalSet.underGuard s options guard) := by
  cases guard with
  | none => exact hs
  | some g =>
      unfold ConditionalSet.underGuard
      dsimp only
      split
      · exact h.conj (List.forall_mem_cons.2 ⟨h.asFormula (hguard g rfl), List.forall_mem_cons.2 ⟨hs, by simp⟩⟩)
      · exact hs

theorem normalize_of_simplify {s : Term} (hs : P s.simplify) (options : Options) :
    P (ConditionalSet.normalize s options) := by
  have hform : P s.simplifyShared.disjunctiveForm := h.disjunctiveForm (by simpa using hs)
  unfold ConditionalSet.normalize
  dsimp only
  split
  · exact h.flatten hform
  · exact hform

theorem normalizeBuilds_of_simplify (hsimplify : ∀ {t : Term}, P t → P t.simplify) {s : Term} (hs : P s)
    (options : Options) : ∀ u ∈ ConditionalSet.normalizeBuilds s options, P u := by
  have hsimple := hsimplify hs
  rw [ConditionalSet.normalizeBuilds]
  simp only [List.forall_mem_append]
  refine ⟨⟨h.forall_foldUp_builds hsimplify hs, h.disjunctiveFormBuilds hsimple⟩, ?_⟩
  split
  · exact h.flattenBuilds (h.disjunctiveForm hsimple)
  · simp

end IsKeptBySets

namespace IsInherited
variable (h : IsInherited P)
include h

theorem withChildren {t : Term} (ht : P t) {cs : List Term} (hcs : ∀ c ∈ cs, P c) : P (t.withChildren cs) := by
  refine h.withChildren_of_quantified ht hcs fun q x b heq => ?_
  subst heq
  exact h.quantified q (List.forall_getD hcs (h.child ht (by simp [children])) 0)
    (List.forall_getD hcs (h.child ht (by simp [children])) 1)

theorem keepsQuantified (bindings : Bindings) (t : Term) : t.KeepsQuantified P bindings :=
  fun q _ _ _ _ hx hb => h.quantified q hx hb

theorem keepsQuantified_rule (rule : Rule) (t : Term) : rule.KeepsQuantified P t where
  inside q _ _ _ _ hx hb := h.quantified q hx hb
  replaced _ _ bindings _ := h.keepsQuantified bindings rule.replacement

theorem instantiate {bindings : Bindings} (hbound : ∀ b ∈ bindings, P b.2) {t : Term} (ht : P t) :
    P (t.instantiate bindings) :=
  h.instantiate_of_quantified hbound ht (h.keepsQuantified bindings t)

theorem instantiateBuilds {bindings : Bindings} (hbound : ∀ b ∈ bindings, P b.2) {t : Term} (ht : P t) :
    ∀ u ∈ t.instantiateBuilds bindings, P u :=
  h.instantiateBuilds_of_quantified hbound ht (h.keepsQuantified bindings t)

theorem apply {rule : Rule} (hrule : P rule.replacement) {t : Term} (ht : P t) : P (rule.apply t) :=
  (h.apply_of_quantified hrule ht (h.keepsQuantified_rule rule t)).2

theorem replace {t old new : Term} (ht : P t) (hnew : P new) : P (t.replace old new) :=
  @apply P h ⟨old, [], new⟩ hnew t ht

theorem replaceAllBuilds {rule : Rule} (hrule : P rule.replacement) {t : Term} (ht : P t) :
    ∀ u ∈ rule.replaceAllBuilds t, P u :=
  h.replaceAllBuilds_of_quantified hrule ht (h.keepsQuantified_rule rule t)

theorem simplify_of_symbols {t : Term} (ht : ∀ u ∈ t.symbols, P u) : P t.simplify :=
  h.simplify_of_quantified ht fun q _ _ _ _ hx hb => h.quantified q hx hb

theorem simplify {t : Term} (ht : P t) : P t.simplify :=
  h.simplify_of_symbols fun _ hu => h.subterm ht (mem_symbols_iff.1 hu).1

section
variable {a v : Term} (ha : P a) (hv : P v)
include ha hv

theorem splitAliases {t : Term} (ht : P t) : P (t.splitAliases a v).1 := by
  refine h.splitAliases_of_quantified ha hv ht fun q x b hq _ hb => ?_
  exact h.quantified q (h.child (h.subterm ht hq) (by simp [children])) hb

theorem splitAliasesBuilds {t : Term} (ht : P t) : ∀ u ∈ t.splitAliasesBuilds a v, P u :=
  h.splitAliasesBuilds_of_splitAliases ha hv (h.splitAliases ha hv) ht

end

end IsInherited

namespace IsMarked
variable (h : IsMarked P)
include h

theorem beforeRegister {s r v hidden : Term} (hs : P s) (hv : P v) (hhidden : P hidden) :
    P (ConditionalSet.beforeRegister s r v hidden) :=
  h.replace (h.replace (h.replace hs hhidden) hv) (h.ofList (h.dependencies hv))

theorem beforeRegisterBuilds {s r v hidden : Term} (hs : P s) (hr : P r) (hv : P v) (hhidden : P hidden) :
    ∀ u ∈ ConditionalSet.beforeRegisterBuilds s r v hidden, P u := by
  have hmasked : P (Term.replace s (ConditionalSet.member r) hidden) := h.replace hs hhidden
  have hmoved : P ((Term.replace s (ConditionalSet.member r) hidden).replace r v) := h.replace hmasked hv
  have hdependencies := h.ofList (h.dependencies hv)
  rw [ConditionalSet.beforeRegisterBuilds]
  simp only [List.forall_mem_append, List.forall_mem_cons]
  exact ⟨⟨⟨⟨hhidden, h.member hr, by simp⟩, h.replaceAllBuilds hhidden hs⟩, h.replaceAllBuilds hv hmasked⟩,
    h.replaceAllBuilds hdependencies hmoved⟩

theorem beforeStore {s a v x tag : Term} (hs : P s) (ha : P a) (hv : P v) (hx : P x) (htag : P tag) :
    P (ConditionalSet.beforeStore s a v x tag) :=
  h.apply (h.resolved ha hv hx) (h.splitAliases ha hv (h.apply (h.eq htag hx) hs))

theorem beforeStoreBuilds {s a v x tag : Term} (hs : P s) (ha : P a) (hv : P v) (hx : P x) (htag : P tag) :
    ∀ u ∈ ConditionalSet.beforeStoreBuilds s a v x tag, P u := by
  have hhidden := h.eq htag hx
  have hwatched := h.member (h.mem hx)
  have hresolved := h.resolved ha hv hx
  have hmasked : P (Rule.replaceAll ⟨ConditionalSet.member (.mem x), [x], .eq tag x⟩ s).1 := h.apply hhidden hs
  rw [ConditionalSet.beforeStoreBuilds]
  simp only [List.forall_mem_append, List.forall_mem_cons]
  exact ⟨⟨⟨⟨⟨hx, htag, h.mem hx, hwatched, hhidden, by simp⟩, h.replaceAllBuilds hhidden hs⟩,
    h.splitAliasesBuilds ha hv hmasked⟩, h.eq ha hx, hresolved, by simp⟩,
    h.replaceAllBuilds hresolved (h.splitAliases ha hv hmasked)⟩

theorem normalize {s : Term} (hs : P s) (options : Options) : P (ConditionalSet.normalize s options) :=
  h.normalize_of_simplify (h.simplify hs) options

theorem normalizeBuilds {s : Term} (hs : P s) (options : Options) :
    ∀ u ∈ ConditionalSet.normalizeBuilds s options, P u :=
  h.normalizeBuilds_of_simplify h.simplify hs options

theorem beforeAssignment {s location value : Term} (hs : P s) (hlocation : P location) (hvalue : P value)
    {names : Fresh} (hnames : ∀ x ∈ (Statement.assign location value).placeholders names, P x)
    {result : ConditionalSet × Fresh} (hresult : ConditionalSet.beforeAssignment s location value names = .ok result) :
    P result.1 := by
  cases location with
  | reg n o size =>
      obtain rfl := Except.ok.inj hresult
      exact h.beforeRegister hs hvalue (hnames _ (List.mem_singleton_self _))
  | mem a =>
      obtain rfl := Except.ok.inj hresult
      exact h.beforeStore hs (h.child hlocation (by simp [children])) hvalue
        (hnames _ List.mem_cons_self) (hnames _ (List.mem_cons_of_mem _ List.mem_cons_self))
  | _ => cases hresult

theorem beforeAssignmentBuilds {s location value : Term} (hs : P s) (hlocation : P location) (hvalue : P value)
    {names : Fresh} (hnames : ∀ x ∈ (Statement.assign location value).placeholders names, P x) :
    ∀ u ∈ ConditionalSet.beforeAssignmentBuilds s location value names, P u := by
  refine List.forall_mem_append.2 ⟨h.ofListBuilds (h.dependencies hvalue), ?_⟩
  cases location with
  | reg n o size => exact h.beforeRegisterBuilds hs hlocation hvalue (hnames _ (List.mem_singleton_self _))
  | mem a =>
      exact h.beforeStoreBuilds hs (h.child hlocation (by simp [children])) hvalue
        (hnames _ List.mem_cons_self) (hnames _ (List.mem_cons_of_mem _ List.mem_cons_self))
  | _ => simp

theorem before {s : Term} (hs : P s) (options : Options) {arrow : Arrow} (hguard : ∀ g ∈ arrow.guard, P g)
    (hstatement : IsHereditary.OfStatement P arrow.statement) {names : Fresh}
    (hnames : ∀ x ∈ arrow.statement.placeholders names, P x) {result : ConditionalSet × Fresh}
    (hresult : ConditionalSet.before s options arrow names = .ok result) : P result.1 := by
  unfold ConditionalSet.before at hresult
  split at hresult
  next location value hassign =>
    rw [hassign] at hstatement hnames
    cases hbefore : ConditionalSet.beforeAssignment s location value names with
    | error e =>
        rw [hbefore] at hresult
        cases hresult
    | ok assigned =>
        rw [hbefore] at hresult
        obtain rfl := Except.ok.inj hresult
        have hassigned := h.beforeAssignment hs hstatement.1 hstatement.2 hnames hbefore
        exact h.normalize (h.underGuard hassigned options hguard) options
  all_goals
    obtain rfl := Except.ok.inj hresult
    exact h.underGuard hs options hguard

theorem beforeBuilds {s : Term} (hs : P s) (options : Options) {arrow : Arrow} (hguard : ∀ g ∈ arrow.guard, P g)
    (hstatement : IsHereditary.OfStatement P arrow.statement) {names : Fresh}
    (hnames : ∀ x ∈ arrow.statement.placeholders names, P x) :
    ∀ u ∈ ConditionalSet.beforeBuilds s options arrow names, P u := by
  unfold ConditionalSet.beforeBuilds
  split
  next location value hassign =>
    rw [hassign] at hstatement hnames
    refine List.forall_mem_append.2 ⟨h.beforeAssignmentBuilds hs hstatement.1 hstatement.2 hnames, ?_⟩
    cases hbefore : ConditionalSet.beforeAssignment s location value names with
    | error e => simp
    | ok assigned =>
        have hassigned := h.beforeAssignment hs hstatement.1 hstatement.2 hnames hbefore
        have hguarded := h.underGuard hassigned options hguard
        exact List.forall_mem_cons.2 ⟨hguarded, h.normalizeBuilds hguarded options⟩
  all_goals exact fun u hu => List.mem_singleton.1 hu ▸ h.underGuard hs options hguard

end IsMarked

theorem IsNamed.take (h : IsNamed P) (names : Fresh) (stem : String) : P (names.take stem).1 :=
  h.var _

theorem IsNamed.placeholders (h : IsNamed P) (statement : Statement) (names : Fresh) :
    ∀ x ∈ statement.placeholders names, P x := by
  intro x hx
  obtain ⟨later, stem, -, rfl⟩ := Statement.exists_take hx
  exact h.take later stem

end Term
end Backslice
