import Backslice.Proofs.HandleIndependence
import Backslice.Proofs.NormalTerms
import Mathlib

/-!
# Matching and substitutions

A substitution of the free variables turns a pattern into a tree. If some
substitution turns it into a term, the pattern matches the term, and
instantiating it with what was bound gives the term back: a normal tree is what
the constructors make of it.

The converse needs more than a match. Where the pattern has a subterm that is
the very subterm of the term, matching passes over it and binds nothing, also if
free variables occur in it; these are then as good as bound to themselves. If
one of them is bound to something else in another place, the match is not
consistent, and no substitution turns the pattern into the term. Nothing of the
kind happens if the free variables of the pattern do not occur in the term.
-/

namespace Backslice

namespace Bindings

/-- What stands for a term; a term that is not bound stands for itself. -/
def image (b : Bindings) (x : Term) : Term :=
  (b.lookup x).getD x

/-- Whether everything is bound that was bound before, to the same terms. -/
def Extends (found b : Bindings) : Prop :=
  ∀ x u, b.lookup x = some u → found.lookup x = some u

/-- Whether everything is bound to what a substitution takes it to. -/
def Agrees (b : Bindings) (σ : Term → Term) : Prop :=
  ∀ x u, b.lookup x = some u → σ x = u

theorem Extends.refl (b : Bindings) : b.Extends b :=
  fun _ _ h => h

theorem Extends.trans {b first found : Bindings} (h : found.Extends first) (hfirst : first.Extends b) :
    found.Extends b :=
  fun x u hx => h x u (hfirst x u hx)

theorem Extends.agrees {b found : Bindings} {σ : Term → Term} (h : found.Extends b) (hσ : found.Agrees σ) :
    b.Agrees σ :=
  fun x u hx => hσ x u (h x u hx)

theorem agrees_nil (σ : Term → Term) : Agrees [] σ := by
  intro x u hx
  cases hx

theorem agrees_image (b : Bindings) : b.Agrees b.image := by
  intro x u hx
  rw [image, hx, Option.getD_some]

end Bindings

namespace Term

theorem updateChildren_eq_withOperands {t : Term} {f : Term → Term}
    (h : (t.withOperands (t.children.map f)).IsNormal) :
    t.updateChildren (t.children.map f) = t.withOperands (t.children.map f) := by
  unfold updateChildren
  split
  next hsame => rw [hsame, withOperands_children]
  next =>
    cases t with
    | not a => exact h.head
    | and xs => exact conj_of_isNormal h
    | or xs => exact disj_of_isNormal h
    | _ => rfl

/-- A pattern as a tree, with what a substitution has for each of its free terms. -/
def filled (free : List Term) (σ : Term → Term) : Term → Term :=
  foldUp fun t children => if t ∈ free then σ t else t.withOperands children

section
variable {free : List Term} {σ : Term → Term} {p t : Term} {b found : Bindings}

theorem filled_of_mem (h : p ∈ free) : p.filled free σ = σ p := by
  rw [filled, foldUp_eq, if_pos h]

theorem filled_of_not_mem (h : p ∉ free) :
    p.filled free σ = p.withOperands (p.children.map (filled free σ)) := by
  rw [filled, foldUp_eq, if_neg h]

theorem children_filled (h : p ∉ free) : (p.filled free σ).children = p.children.map (filled free σ) := by
  rw [filled_of_not_mem h, children_withOperands]

theorem subterms_of_mem_free (hfree : ∀ x ∈ free, x.isVariable = true) (hp : p ∈ free) : p.subterms = [p] := by
  have hvariable := hfree p hp
  cases p <;> first | rfl | cases hvariable

/-- A substitution leaves a pattern alone if it does so with the free variables in it. -/
theorem filled_eq_self_iff (hfree : ∀ x ∈ free, x.isVariable = true) :
    p.filled free σ = p ↔ ∀ x ∈ free, x ∈ p.subterms → σ x = x := by
  induction p using inductionOnChildren with
  | step p ih =>
      by_cases hp : p ∈ free
      · rw [filled_of_mem hp, subterms_of_mem_free hfree hp]
        exact ⟨fun h x _ hx => by rwa [List.mem_singleton.1 hx], fun h => h p hp (List.mem_singleton_self p)⟩
      · have hchildren : p.filled free σ = p ↔ ∀ c ∈ p.children, c.filled free σ = c := by
          constructor
          · intro h c hc
            have hsame : p.children.map (filled free σ) = p.children.map id := by
              rw [← children_filled hp, h, List.map_id]
            exact List.map_eq_map_iff.1 hsame c hc
          · intro h
            rw [filled_of_not_mem hp, List.map_congr_left h, List.map_id', withOperands_children]
        rw [hchildren]
        constructor
        · intro h x hx hmem
          rw [subterms_eq] at hmem
          obtain rfl | hbelow := List.mem_cons.1 hmem
          · exact absurd hx hp
          · obtain ⟨c, hc, hxc⟩ := List.mem_flatMap.1 hbelow
            exact (ih c hc).1 (h c hc) x hx hxc
        · intro h c hc
          exact (ih c hc).2 fun x hx hxc => h x hx (mem_subterms_of_mem_children hc hxc)

theorem bind?_spec (h : bind? p t b = some found) : found.lookup p = some t ∧ found.Extends b := by
  unfold bind? at h
  split at h
  next u hu =>
    split at h
    next hut =>
      obtain rfl := Option.some.inj h
      exact ⟨hut ▸ hu, .refl b⟩
    next => cases h
  next hnone =>
    obtain rfl := Option.some.inj h
    refine ⟨List.lookup_cons_self, fun x u hx => ?_⟩
    have hne : x ≠ p := by
      rintro rfl
      cases hnone.symm.trans hx
    rwa [List.lookup_cons, beq_eq_false_iff_ne.2 hne]

theorem exists_bind? (hσ : b.Agrees σ) (hp : σ p = t) : ∃ found, bind? p t b = some found ∧ found.Agrees σ := by
  unfold bind?
  cases hlookup : b.lookup p with
  | some u =>
      have hut : u = t := (hσ p u hlookup).symm.trans hp
      exact ⟨b, if_pos hut, hσ⟩
  | none =>
      refine ⟨(p, t) :: b, rfl, fun x u hx => ?_⟩
      by_cases hxp : x = p
      · rw [hxp, List.lookup_cons_self] at hx
        rw [hxp, hp, Option.some.inj hx]
      · rw [List.lookup_cons, beq_eq_false_iff_ne.2 hxp] at hx
        exact hσ x u hx

/-- The subterms that matching passes over, as they are the same in the pattern and in the term. -/
def passedOver (free : List Term) : Term → Term → List Term :=
  foldUp fun p below t =>
    if p ∈ free then [] else if p = t then [p] else (below.zipWith (fun passed c => passed c) t.children).flatten

theorem passedOver_self (hp : p ∉ free) : p.passedOver free p = [p] := by
  rw [passedOver, foldUp_eq, if_neg hp, if_pos rfl]

theorem passedOver_of_ne (hp : p ∉ free) (hne : p ≠ t) :
    p.passedOver free t = (p.children.zipWith (passedOver free) t.children).flatten := by
  rw [passedOver, foldUp_eq, if_neg hp, if_neg hne, List.zipWith_map_left]

theorem extends_of_matchAll? {ps ts : List Term} (hfound : matchAll? ps free ts b = some found) :
    found.Extends b := by
  have hbind : ∀ x ∈ free, ∀ t first found, True → bind? x t first = some found → first.Extends b → found.Extends b :=
    fun _ _ _ _ _ _ hbound hfirst => (bind?_spec hbound).2.trans hfirst
  refine preserved_of_matchAll? (P := (Bindings.Extends · b)) (Q := fun _ => True) ?_ (by simp) hfound (.refl b)
  exact fun p _ t first found => preserved_of_matchWith? (by simp) hbind

theorem keys_of_matchWith? (hfound : matchWith? p free t [] = some found) : ∀ e ∈ found, e.1 ∈ free := by
  refine preserved_of_matchWith? (P := fun b => ∀ e ∈ b, e.1 ∈ free) (Q := fun _ => True) (by simp) ?_ trivial hfound
    (by simp)
  intro x hx t b found _ hfound hb
  unfold bind? at hfound
  split at hfound
  next =>
    split at hfound
    next => exact Option.some.inj hfound ▸ hb
    next => cases hfound
  next =>
    obtain rfl := Option.some.inj hfound
    exact List.forall_mem_cons.2 ⟨hx, hb⟩

/-! ## From a match to a substitution -/

theorem map_filled_of_matchAll? {ps : List Term}
    (h : ∀ p ∈ ps, ∀ t b found, matchWith? p free t b = some found → found.Agrees σ →
      (∀ w ∈ p.passedOver free t, w.filled free σ = w) → p.filled free σ = t) :
    ∀ {ts b found}, matchAll? ps free ts b = some found → found.Agrees σ →
      (∀ w ∈ (ps.zipWith (passedOver free) ts).flatten, w.filled free σ = w) → ps.map (filled free σ) = ts := by
  induction ps with
  | nil =>
      intro ts b found hfound _ _
      cases ts with
      | nil => rfl
      | cons t ts => cases hfound
  | cons p ps ih =>
      intro ts b found hfound hσ hpassed
      cases ts with
      | nil => cases hfound
      | cons t ts =>
          obtain ⟨first, hfirst, hrest⟩ := Option.bind_eq_some_iff.1 hfound
          rw [List.zipWith_cons_cons, List.flatten_cons, List.forall_mem_append] at hpassed
          have hfirstσ : first.Agrees σ := (extends_of_matchAll? hrest).agrees hσ
          have hhead : p.filled free σ = t := h p List.mem_cons_self t b first hfirst hfirstσ hpassed.1
          have htail : ps.map (filled free σ) = ts :=
            ih (fun q hq => h q (List.mem_cons_of_mem p hq)) hrest hσ hpassed.2
          rw [List.map_cons, hhead, htail]

/-- A substitution that agrees with what was bound, and leaves alone what was passed over, turns the pattern into
the term. -/
theorem filled_of_matchWith? : ∀ {t b found}, matchWith? p free t b = some found → found.Agrees σ →
    (∀ w ∈ p.passedOver free t, w.filled free σ = w) → p.filled free σ = t := by
  induction p using inductionOnChildren with
  | step p ih =>
      intro t b found hfound hσ hpassed
      by_cases hp : p ∈ free
      · rw [matchWith?.eq_def, if_pos hp] at hfound
        rw [filled_of_mem hp]
        exact hσ p t (bind?_spec hfound).1
      by_cases hsame : p = t
      · obtain rfl := hsame
        exact hpassed p (by simp [passedOver_self hp])
      · rw [matchWith?_of_ne hp hsame, Option.ite_none_right_eq_some] at hfound
        rw [passedOver_of_ne hp hsame] at hpassed
        have hchildren := map_filled_of_matchAll? (fun c hc t b found => ih c hc) hfound.2 hσ hpassed
        rw [filled_of_not_mem hp, hchildren]
        exact hfound.1.symm

/-! ## From a substitution to a match -/

theorem exists_matchAll? {ps : List Term}
    (h : ∀ p ∈ ps, ∀ b, b.Agrees σ → ∃ found, matchWith? p free (p.filled free σ) b = some found ∧ found.Agrees σ) :
    ∀ {b}, b.Agrees σ → ∃ found, matchAll? ps free (ps.map (filled free σ)) b = some found ∧ found.Agrees σ := by
  induction ps with
  | nil => exact fun hσ => ⟨_, rfl, hσ⟩
  | cons p ps ih =>
      intro b hσ
      obtain ⟨first, hfirst, hfirstσ⟩ := h p List.mem_cons_self b hσ
      obtain ⟨found, hrest, hfoundσ⟩ := ih (fun q hq => h q (List.mem_cons_of_mem p hq)) hfirstσ
      refine ⟨found, ?_, hfoundσ⟩
      rw [List.map_cons, matchAll?, hfirst, Option.bind_some, hrest]

/-- A pattern matches what a substitution turns it into, and what is bound agrees with the substitution. -/
theorem exists_matchWith? :
    ∀ {b}, b.Agrees σ → ∃ found, matchWith? p free (p.filled free σ) b = some found ∧ found.Agrees σ := by
  induction p using inductionOnChildren with
  | step p ih =>
      intro b hσ
      by_cases hp : p ∈ free
      · have hself : σ p = p.filled free σ := (filled_of_mem hp).symm
        obtain ⟨found, hfound, hfoundσ⟩ := exists_bind? hσ hself
        refine ⟨found, ?_, hfoundσ⟩
        rw [matchWith?.eq_def, if_pos hp, hfound]
      by_cases hsame : p = p.filled free σ
      · exact ⟨b, matchWith?_self hp hsame b, hσ⟩
      · obtain ⟨found, hfound, hfoundσ⟩ := exists_matchAll? (fun c hc b => ih c hc) hσ
        refine ⟨found, ?_, hfoundσ⟩
        rw [matchWith?_of_ne hp hsame, children_filled hp, if_pos (filled_of_not_mem hp), hfound]

/-- What is passed over is left alone by any substitution that turns the pattern into the term. -/
theorem filled_of_mem_passedOver (w : Term) : w ∈ p.passedOver free (p.filled free σ) → w.filled free σ = w := by
  induction p using inductionOnChildren with
  | step p ih =>
      intro hw
      by_cases hp : p ∈ free
      · rw [passedOver, foldUp_eq, if_pos hp] at hw
        cases hw
      by_cases hsame : p = p.filled free σ
      · rw [← hsame, passedOver_self hp, List.mem_singleton] at hw
        rw [hw]
        exact hsame.symm
      · rw [passedOver_of_ne hp hsame, children_filled hp, List.zipWith_map_right, List.zipWith_self] at hw
        obtain ⟨passed, hpassed, hw⟩ := List.mem_flatten.1 hw
        obtain ⟨c, hc, rfl⟩ := List.mem_map.1 hpassed
        exact ih c hc hw

/-- Whether no free term that occurs in what was passed over is bound to anything but itself. -/
def IsConsistent (p : Term) (free : List Term) (t : Term) (b : Bindings) : Prop :=
  ∀ w ∈ p.passedOver free t, ∀ x ∈ free, x ∈ w.subterms → b.image x = x

/-- Some substitution turns a pattern into a term if and only if the pattern matches it consistently. -/
theorem exists_filled_iff (hfree : ∀ x ∈ free, x.isVariable = true) :
    (∃ σ, p.filled free σ = t) ↔ ∃ b, matchWith? p free t [] = some b ∧ p.IsConsistent free t b := by
  constructor
  · rintro ⟨σ, rfl⟩
    obtain ⟨b, hb, hσ⟩ : ∃ b, matchWith? p free (p.filled free σ) [] = some b ∧ b.Agrees σ :=
      exists_matchWith? (Bindings.agrees_nil σ)
    refine ⟨b, hb, fun w hw x hx hmem => ?_⟩
    have hkept : σ x = x := (filled_eq_self_iff hfree).1 (filled_of_mem_passedOver w hw) x hx hmem
    unfold Bindings.image
    cases hlookup : b.lookup x with
    | none => rfl
    | some u => exact (hσ x u hlookup).symm.trans hkept
  · rintro ⟨b, hb, hconsistent⟩
    refine ⟨b.image, filled_of_matchWith? hb b.agrees_image fun w hw => ?_⟩
    exact (filled_eq_self_iff hfree).2 (hconsistent w hw)

/-- A negated variable next to the variable. -/
def negatedNext : Term :=
  .binary .add (.unary .neg (.var "X")) (.var "X")

/-- The same negation next to a register. -/
def negatedNextToRegister : Term :=
  .binary .add (.unary .neg (.var "X")) (.reg "r1" 0 0)

/-- The negation is passed over, and the variable in it is bound to the register beside it. The pattern matches though
no substitution turns it into the term, and instantiating it makes another term. -/
theorem match_without_substitution :
    negatedNext.matchWith? [.var "X"] negatedNextToRegister [] = some [(.var "X", .reg "r1" 0 0)] ∧
      (¬∃ σ, negatedNext.filled [.var "X"] σ = negatedNextToRegister) ∧
      negatedNext.instantiate [(.var "X", .reg "r1" 0 0)] =
        .binary .add (.unary .neg (.reg "r1" 0 0)) (.reg "r1" 0 0) := by
  refine ⟨by cbv, ?_, by cbv⟩
  rintro ⟨σ, hσ⟩
  have hoperands := congrArg children hσ
  simp only [negatedNext, negatedNextToRegister, filled, foldUp, withOperands, children, List.getD_cons_zero,
    List.getD_cons_succ, List.mem_singleton, reduceCtorEq, if_true, if_false, List.cons.injEq, unary.injEq,
    true_and, and_true] at hoperands
  have hsame : Term.var "X" = .reg "r1" 0 0 := hoperands.1.symm.trans hoperands.2
  cases hsame

/-- If the bindings turn a pattern into a normal tree, this is what instantiating the pattern makes. -/
theorem instantiate_of_filled (hfree : ∀ x ∈ free, x.isVariable = true) (hkeys : ∀ e ∈ b, e.1 ∈ free)
    (ht : (p.filled free b.image).IsNormal) : p.instantiate b = p.filled free b.image := by
  induction p using inductionOnChildren with
  | step p ih =>
      rw [instantiate_eq]
      by_cases hp : p ∈ free
      · have hleaf : p.updateChildren (p.children.map (instantiate b)) = p := by
          have hvariable := hfree p hp
          cases p <;> first | rfl | cases hvariable
        rw [filled_of_mem hp, hleaf, Bindings.image]
      · have hnone : b.lookup p = none := by
          refine List.lookup_eq_none_iff.2 fun e he => bne_iff_ne.2 ?_
          rintro rfl
          exact hp (hkeys e he)
        have hchildren : p.children.map (instantiate b) = p.children.map (filled free b.image) :=
          List.map_congr_left fun c hc => ih c hc (ht.child (by
            rw [children_filled hp]
            exact List.mem_map_of_mem hc))
        rw [filled_of_not_mem hp] at ht
        rw [hnone, Option.getD_none, hchildren, updateChildren_eq_withOperands ht, filled_of_not_mem hp]

theorem filled_of_isConsistent (hfree : ∀ x ∈ free, x.isVariable = true) (hb : matchWith? p free t [] = some b)
    (h : p.IsConsistent free t b) : p.filled free b.image = t :=
  filled_of_matchWith? hb b.agrees_image fun w hw => (filled_eq_self_iff hfree).2 (h w hw)

theorem mem_of_mem_passedOver {w : Term} : ∀ {t}, w ∈ p.passedOver free t → w ∈ p.subterms ∧ w ∈ t.subterms := by
  induction p using inductionOnChildren with
  | step p ih =>
      intro t hw
      by_cases hp : p ∈ free
      · rw [passedOver, foldUp_eq, if_pos hp] at hw
        cases hw
      by_cases hsame : p = t
      · rw [← hsame, passedOver_self hp, List.mem_singleton] at hw
        rw [← hsame, hw]
        exact ⟨mem_subterms_self p, mem_subterms_self p⟩
      · rw [passedOver_of_ne hp hsame] at hw
        obtain ⟨passed, hpassed, hw⟩ := List.mem_flatten.1 hw
        rw [← List.map_uncurry_zip_eq_zipWith] at hpassed
        obtain ⟨e, he, rfl⟩ := List.mem_map.1 hpassed
        obtain ⟨hc, hd⟩ := List.of_mem_zip he
        obtain ⟨hwp, hwt⟩ := ih e.1 hc hw
        exact ⟨mem_subterms_of_mem_children hc hwp, mem_subterms_of_mem_children hd hwt⟩

/-- Matches with terms in which no free term of the pattern occurs are consistent. -/
theorem isConsistent_of_not_mem (h : ∀ x ∈ free, x ∈ p.subterms → x ∉ t.subterms) : p.IsConsistent free t b := by
  intro w hw x hx hmem
  obtain ⟨hwp, hwt⟩ := mem_of_mem_passedOver hw
  exact absurd (mem_subterms_trans hwt hmem) (h x hx (mem_subterms_trans hwp hmem))

end

end Term

theorem Arena.Denote.of_map {a : Arena} {handles : List Nat} {ts : List Term}
    (h : handles.map a.term? = ts.map some) : a.Denote handles ts := by
  have hall : List.Forall₂ (· = ·) (handles.map a.term?) (ts.map some) := List.forall₂_eq_eq_eq ▸ h
  rwa [List.forall₂_map_left_iff, List.forall₂_map_right_iff] at hall

theorem Arena.Denote.exists_handle {a : Arena} {handles : List Nat} {ts : List Term} (h : a.Denote handles ts)
    {t : Term} (ht : t ∈ ts) : ∃ i, a.term? i = some t := by
  induction h with
  | nil => cases ht
  | cons hi _ ih =>
      obtain rfl | ht := List.mem_cons.1 ht
      · exact ⟨_, hi⟩
      · exact ih ht

/-- Bindings are denoted by handles of their values, together with handles of their keys. -/
theorem Arena.Denote.exists_bindings {a : Arena} {b : Bindings} (hkeys : ∀ e ∈ b, ∃ k, a.term? k = some e.1) :
    ∀ {handles}, a.Denote handles (b.map (·.2)) → ∃ bound, bound.map (·.2) = handles ∧ a.DenoteBindings bound b := by
  induction b with
  | nil =>
      intro handles h
      cases h
      exact ⟨[], rfl, .nil⟩
  | cons e b ih =>
      intro handles h
      cases h with
      | cons hvalue hrest =>
          obtain ⟨k, hk⟩ := hkeys e List.mem_cons_self
          obtain ⟨bound, hvalues, hbound⟩ := ih (fun e he => hkeys e (List.mem_cons_of_mem _ he)) hrest
          exact ⟨(k, _) :: bound, congrArg (_ :: ·) hvalues, .cons ⟨hk, hvalue⟩ hbound⟩

namespace Manager

variable {m : Manager} {i j : Nat} {handles : List Nat} {bound : List (Nat × Nat)} {p t : Term} {free : List Term}
  {b : Bindings}

theorem outcome_matching (hi : m.arena.term? i = some p) (hfree : m.arena.Denote handles free)
    (hj : m.arena.term? j = some t) :
    (m.outcome (.matching i handles j [])).1 = .ok (((p.matchWith? free t []).getD []).map (·.2)) := by
  unfold outcome Operation.results
  rw [Building.run_bind_ok (Building.Reads.term hi _), Building.run_bind_ok (Building.Reads.terms hfree _),
    Building.run_bind_ok (Building.Reads.term hj _), Building.run_bind_ok (Building.Reads.bindings (.nil) _)]
  rfl

theorem outcome_instantiate (hi : m.arena.term? i = some p) (hbound : m.arena.DenoteBindings bound b) :
    (m.outcome (.instantiate i bound)).1 = .ok [p.instantiate b] := by
  unfold outcome Operation.results
  rw [Building.run_bind_ok (Building.Reads.term hi _), Building.run_bind_ok (Building.Reads.bindings hbound _)]
  rfl

/-- Matching against the substitutions of the free variables, in a manager after any operations on it. Some substitution
turns a pattern, as a tree, into a term if and only if the pattern matches the term, and none of its free variables that
occurs in what the match passed over is bound to anything but itself. This is so for every match with a term in which no
free variable of the pattern occurs. In such a match the bindings are such a substitution, and instantiating the pattern
with the handles returned gives the handle of the term. -/
theorem matching_finds_substitution (hm : m.arena.IsManaged) (hi : m.arena.term? i = some p)
    (hj : m.arena.term? j = some t) (hhandles : m.arena.Denote handles free)
    (hfree : ∀ x ∈ free, x.isVariable = true) :
    ((∃ σ, p.filled free σ = t) ↔ ∃ b, p.matchWith? free t [] = some b ∧ p.IsConsistent free t b) ∧
      ((∀ x ∈ free, x ∈ p.subterms → x ∉ t.subterms) → ∀ b, p.IsConsistent free t b) ∧
      ∀ b, p.matchWith? free t [] = some b →
        ∃ bound, (m.perform (.matching i handles j [])).1 = .ok (bound.map (·.2)) ∧
          (m.perform (.matching i handles j [])).2.arena.DenoteBindings bound b ∧
          (p.IsConsistent free t b → p.filled free b.image = t ∧
            ((m.perform (.matching i handles j [])).2.perform (.instantiate i bound)).1 = .ok [j]) := by
  refine ⟨Term.exists_filled_iff hfree, fun h b => Term.isConsistent_of_not_mem h, fun b hb => ?_⟩
  obtain ⟨ts, hts⟩ := hm.exists_holds
  obtain ⟨us, hus, hmore, hreturned⟩ := holds_perform hts (.matching i handles j [])
  have hkept : ∀ {k : Nat} {u : Term}, m.arena.term? k = some u →
      (m.perform (.matching i handles j [])).2.arena.term? k = some u := by
    intro k u hk
    rw [hts.term?_eq] at hk
    rw [hus.term?_eq]
    exact termAt_mono hmore hk
  rw [outcome_matching hi hhandles hj, hb, ← funext hus.term?_eq] at hreturned
  cases hperformed : (m.perform (.matching i handles j [])).1 with
  | error e =>
      rw [hperformed] at hreturned
      cases hreturned
  | ok values =>
      rw [hperformed] at hreturned
      have hvalues : (m.perform (.matching i handles j [])).2.arena.Denote values (b.map (·.2)) :=
        .of_map (Except.ok.inj hreturned)
      have hkeys : ∀ e ∈ b, ∃ k, (m.perform (.matching i handles j [])).2.arena.term? k = some e.1 := by
        intro e he
        obtain ⟨k, hk⟩ := hhandles.exists_handle (Term.keys_of_matchWith? hb e he)
        exact ⟨k, hkept hk⟩
      obtain ⟨bound, hbound, hdenote⟩ := Arena.Denote.exists_bindings hkeys hvalues
      refine ⟨bound, congrArg Except.ok hbound.symm, hdenote, fun hconsistent => ?_⟩
      have hfilled := Term.filled_of_isConsistent hfree hb hconsistent
      have hnormal : t.IsNormal := property_run Term.isHereditary_isNormal hm [] hj
      have hinstantiate : p.instantiate b = t := by
        rw [Term.instantiate_of_filled hfree (Term.keys_of_matchWith? hb) (hfilled.symm ▸ hnormal), hfilled]
      refine ⟨hfilled, perform_of_held hus ?_ ((hus.term?_eq j).symm.trans (hkept hj))⟩
      rw [outcome_instantiate (hkept hi) hdenote, hinstantiate]

/-- A cell compared with a sum in which its address occurs. -/
def addressInSum : Term :=
  .eq (.mem (.var "X")) (.binary .add (.var "X") (.binary .mul (.reg "r1" 0 0) (.const 2)))

/-- The same comparison at the address `%r1 + 4`. -/
def sumInSum : Term :=
  .eq (.mem (.binary .add (.reg "r1" 0 0) (.const 4)))
    (.binary .add (.binary .add (.reg "r1" 0 0) (.const 4)) (.binary .mul (.reg "r1" 0 0) (.const 2)))

/-- Their terms; the product is in both. -/
def sumsBuilt : List Operation :=
  [.var "X", .mem 4, .reg "r1" 0 0, .const 2, .binary .mul 6 7, .binary .add 4 8, .eq 5 9,
    .const 4, .binary .add 6 11, .mem 12, .binary .add 12 8, .eq 13 14]

theorem matching_finds_substitution_sumInSum :
    ∃ created, Manager.new 0 = .ok created ∧ (created.run sumsBuilt).2.arena.IsManaged ∧
      (created.run sumsBuilt).2.arena.term? 10 = some addressInSum ∧
      (created.run sumsBuilt).2.arena.term? 15 = some sumInSum ∧
      (created.run sumsBuilt).2.arena.Denote [4] [.var "X"] ∧
      addressInSum.passedOver [.var "X"] sumInSum = [.binary .mul (.reg "r1" 0 0) (.const 2)] ∧
      (∃ σ, addressInSum.filled [.var "X"] σ = sumInSum) ∧
      ∃ b bound, addressInSum.matchWith? [.var "X"] sumInSum [] = some b ∧
        ((created.run sumsBuilt).2.perform (.matching 10 [4] 15 [])).1 = .ok (bound.map (·.2)) ∧
        ((created.run sumsBuilt).2.perform (.matching 10 [4] 15 [])).2.arena.DenoteBindings bound b ∧
        (((created.run sumsBuilt).2.perform (.matching 10 [4] 15 [])).2.perform (.instantiate 10 bound)).1 =
          .ok [15] := by
  have hterms : (Manager.new 0).map (fun created =>
      ((created.run sumsBuilt).2.arena.term? 10, (created.run sumsBuilt).2.arena.term? 15,
        (created.run sumsBuilt).2.arena.term? 4)) =
      .ok (some addressInSum, some sumInSum, some (.var "X")) := by
    decide +kernel
  have hmatch : addressInSum.matchWith? [.var "X"] sumInSum [] =
      some [(.var "X", .binary .add (.reg "r1" 0 0) (.const 4))] := by
    cbv
  have hpassed : addressInSum.passedOver [.var "X"] sumInSum = [.binary .mul (.reg "r1" 0 0) (.const 2)] := by
    cbv
  have hfree : ∀ x ∈ [Term.var "X"], x.isVariable = true := by decide
  obtain ⟨created, hcreated, hterms⟩ := Except.exists_of_map_eq_ok hterms
  obtain ⟨hi, hterms⟩ := Prod.mk.inj hterms
  obtain ⟨hj, hx⟩ := Prod.mk.inj hterms
  have hmanaged : (created.run sumsBuilt).2.arena.IsManaged := ⟨0, created, sumsBuilt, hcreated, rfl⟩
  have hhandles : (created.run sumsBuilt).2.arena.Denote [4] [.var "X"] := .cons hx .nil
  obtain ⟨hiff, hapart, hmatched⟩ := matching_finds_substitution hmanaged hi hj hhandles hfree
  obtain ⟨bound, hreturned, hdenote, hback⟩ := hmatched _ hmatch
  have hconsistent := hapart (by decide) [(.var "X", .binary .add (.reg "r1" 0 0) (.const 4))]
  exact ⟨created, hcreated, hmanaged, hi, hj, hhandles, hpassed, hiff.2 ⟨_, hmatch, hconsistent⟩, _, bound, hmatch,
    hreturned, hdenote, (hback hconsistent).2⟩

end Manager
end Backslice
