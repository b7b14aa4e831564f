import Backslice.Pattern
import Backslice.Proofs.Simplification

/-!
# Replacement

A rule is applied to a term after it has been applied to the children. A rule
without free terms replaces one term by another, and replacing a register in a
word term gives the value that the term has once the register holds the new
word. Where nothing matches, nothing changes.

A rule whose matches are atoms acts on a formula through its atoms: the formula
after replacement is true if the formula before is, each atom read as its image.
-/

namespace Backslice

namespace Term

section
variable (a b c x y w : Term)

@[simp]
theorem updateChildren_mem : (mem a).updateChildren [x] = mem x := by
  unfold updateChildren
  split
  next h => simpa [children] using h.symm
  next => rfl

@[simp]
theorem updateChildren_unary (op : UnaryOp) : (unary op a).updateChildren [x] = unary op x := by
  unfold updateChildren
  split
  next h => simpa [children] using h.symm
  next => rfl

@[simp]
theorem updateChildren_binary (op : BinaryOp) : (binary op a b).updateChildren [x, y] = binary op x y := by
  unfold updateChildren
  split
  next h => simpa [children, eq_comm] using h
  next => rfl

@[simp]
theorem updateChildren_eq : (eq a b).updateChildren [x, y] = eq x y := by
  unfold updateChildren
  split
  next h => simpa [children, eq_comm] using h
  next => rfl

@[simp]
theorem updateChildren_quantified (q : Quantifier) :
    (quantified q a b).updateChildren [x, y] = quantified q x y := by
  unfold updateChildren
  split
  next h => simpa [children, eq_comm] using h
  next => rfl

@[simp]
theorem updateChildren_ite : (ite c a b).updateChildren [w, x, y] = ite w x y := by
  unfold updateChildren
  split
  next h => simpa [children, eq_comm] using h
  next => rfl

end

/-- The tree with the head of a term and these operands, whatever a constructor makes of them. -/
def withOperands (t : Term) (cs : List Term) : Term :=
  match t with
  | .const _ | .var _ | .reg _ _ _ | .bool _ => t
  | .mem a => .mem (cs.getD 0 a)
  | .unary op a => .unary op (cs.getD 0 a)
  | .binary op a b => .binary op (cs.getD 0 a) (cs.getD 1 b)
  | .eq a b => .eq (cs.getD 0 a) (cs.getD 1 b)
  | .not a => .not (cs.getD 0 a)
  | .and _ => .and cs
  | .or _ => .or cs
  | .quantified q a b => .quantified q (cs.getD 0 a) (cs.getD 1 b)
  | .ite c a b => .ite (cs.getD 0 c) (cs.getD 1 a) (cs.getD 2 b)

@[simp]
theorem withOperands_children (t : Term) : t.withOperands t.children = t := by
  cases t <;> rfl

@[simp]
theorem children_withOperands (t : Term) (f : Term → Term) :
    (t.withOperands (t.children.map f)).children = t.children.map f := by
  cases t <;> rfl

theorem matchWith?_self {pattern : Term} {free : List Term} {t : Term} (hfree : pattern ∉ free) (h : pattern = t)
    (bindings : Bindings) : matchWith? pattern free t bindings = some bindings := by
  rw [matchWith?.eq_def, if_neg hfree, if_pos h]

/-- Two different nodes match if their heads are the same and their operands match. -/
theorem matchWith?_of_ne {p t : Term} {free : List Term} (hfree : p ∉ free) (hne : p ≠ t) (b : Bindings) :
    matchWith? p free t b =
      if t = p.withOperands t.children then matchAll? p.children free t.children b else none := by
  rw [matchWith?.eq_def, if_neg hfree, if_neg hne]
  cases p with
  | const _ | var _ | reg _ _ _ | bool _ => cases t <;> simp_all [withOperands, children, eq_comm]
  | _ => cases t <;> simp [withOperands, children, matchAll?, eq_comm, Option.bind_assoc]

section
variable {P : Bindings → Prop} {Q : Term → Prop} {free : List Term}

theorem preserved_of_matchAll? {ps : List Term}
    (h : ∀ p ∈ ps, ∀ t b found, Q t → matchWith? p free t b = some found → P b → P found) :
    ∀ {ts b found}, (∀ t ∈ ts, Q t) → matchAll? ps free ts b = some found → P b → P found := by
  induction ps with
  | nil =>
      intro ts b found _ hfound hb
      cases ts with
      | nil => exact Option.some.inj hfound ▸ hb
      | cons t ts => cases hfound
  | cons p ps ih =>
      intro ts b found hts hfound hb
      cases ts with
      | nil => cases hfound
      | cons t ts =>
          obtain ⟨first, hfirst, hrest⟩ := Option.bind_eq_some_iff.1 hfound
          obtain ⟨ht, hts⟩ := List.forall_mem_cons.1 hts
          have hkept : P first := h p List.mem_cons_self t b first ht hfirst hb
          exact ih (fun q hq => h q (List.mem_cons_of_mem p hq)) hts hrest hkept

/-- What is preserved when a free term is bound to a part of a term, is preserved when a pattern matches the term. -/
theorem preserved_of_matchWith? (hQ : ∀ t, Q t → ∀ c ∈ t.children, Q c)
    (hP : ∀ x ∈ free, ∀ t b found, Q t → bind? x t b = some found → P b → P found) {pattern : Term} :
    ∀ {t b found}, Q t → matchWith? pattern free t b = some found → P b → P found := by
  induction pattern using inductionOnChildren with
  | step p ih =>
      intro t b found ht hfound hb
      by_cases hp : p ∈ free
      · rw [matchWith?.eq_def, if_pos hp] at hfound
        exact hP p hp t b found ht hfound hb
      by_cases hsame : p = t
      · rw [matchWith?_self hp hsame] at hfound
        exact Option.some.inj hfound ▸ hb
      · rw [matchWith?_of_ne hp hsame, Option.ite_none_right_eq_some] at hfound
        exact preserved_of_matchAll? (fun c hc t b found => ih c hc) (hQ t ht) hfound.2 hb

end

private theorem matchAll?_nil_of_ne {ps : List Term}
    (h : ∀ p ∈ ps, ∀ t bindings, matchWith? p [] t bindings = if p = t then some bindings else none) :
    ∀ ts bindings, ps ≠ ts → matchAll? ps [] ts bindings = none := by
  induction ps with
  | nil => intro ts bindings hne; cases ts <;> simp_all [matchAll?]
  | cons p ps ih =>
      intro ts bindings hne
      cases ts with
      | nil => simp [matchAll?]
      | cons u us =>
          rw [matchAll?, h p (by simp)]
          by_cases hp : p = u
          · simp only [hp, if_true, Option.bind_some]
            exact ih (fun q hq => h q (by simp [hq])) us bindings fun hps => hne (by rw [hp, hps])
          · simp [hp]

theorem matchWith?_nil (pattern : Term) :
    ∀ t bindings, matchWith? pattern [] t bindings = if pattern = t then some bindings else none := by
  induction pattern using inductionOnChildren with
  | step pattern ih =>
      intro t bindings
      by_cases h : pattern = t
      · rw [matchWith?_self (by simp) h, if_pos h]
      · rw [matchWith?_of_ne (by simp) h, if_neg h]
        split
        next hhead =>
          refine matchAll?_nil_of_ne ih _ _ fun hsame => h ?_
          rw [hhead, ← hsame, withOperands_children]
        next => rfl

theorem matchWith?_var {name : String} {free : List Term} (h : var name ∉ free) (t : Term) (bindings : Bindings) :
    matchWith? (.var name) free t bindings = if var name = t then some bindings else none := by
  rw [matchWith?.eq_def, if_neg h]

/-- A free term that stands for nothing yet comes to stand for what it meets. -/
theorem matchWith?_free {x : Term} {free : List Term} (h : x ∈ free) (t : Term) :
    matchWith? x free t [] = some [(x, t)] := by
  rw [matchWith?.eq_def, if_pos h]
  rfl

theorem instantiate_nil (t : Term) : t.instantiate [] = t := by
  induction t using inductionOnChildren with
  | step t ih =>
      rw [instantiate_eq, List.map_congr_left ih]
      simp

theorem instantiate_self (x u : Term) : x.instantiate [(x, u)] = u := by
  rw [instantiate_eq]
  simp

theorem instantiate_of_ne {x u t : Term} (h : t ≠ x) :
    t.instantiate [(x, u)] = t.updateChildren (t.children.map (instantiate [(x, u)])) := by
  rw [instantiate_eq]
  simp [List.lookup_cons, beq_eq_false_iff_ne.2 h]

/-- Where a bound term does not occur, it does not matter what it stands for. -/
theorem instantiate_of_not_mem {x u t : Term} (h : x ∉ t.subterms) : t.instantiate [(x, u)] = t := by
  induction t using inductionOnChildren with
  | step t ih =>
      have hx : t ≠ x := fun ht => h (ht ▸ mem_subterms_self t)
      rw [instantiate_of_ne hx,
        List.map_congr_left fun c hc => ih c hc fun hm => h (mem_subterms_of_mem_children hc hm)]
      simp

end Term

namespace Rule

/-- The term with all matches replaced. -/
def apply (rule : Rule) (t : Term) : Term :=
  (rule.replaceAll t).1

/-- What becomes of a term to whose children the rule has been applied. -/
def applyHead (rule : Rule) (t : Term) : Term :=
  (rule.replacementFor? t).getD t

theorem apply_eq (rule : Rule) (t : Term) :
    rule.apply t = rule.applyHead (t.updateChildren (t.children.map rule.apply)) := by
  have hchildren : (t.children.map rule.replaceAll).map (·.1) = t.children.map rule.apply := by
    rw [List.map_map]
    rfl
  rw [apply, replaceAll_eq]
  dsimp only
  rw [hchildren, applyHead]
  cases rule.replacementFor? (t.updateChildren (t.children.map rule.apply)) <;> rfl

theorem applyHead_of_none {rule : Rule} {t : Term} (h : rule.replacementFor? t = none) : rule.applyHead t = t := by
  rw [applyHead, h]
  rfl

theorem apply_of_forall {rule : Rule} {t : Term} (h : ∀ u ∈ t.subterms, rule.replacementFor? u = none) :
    rule.apply t = t := by
  induction t using Term.inductionOnChildren with
  | step t ih =>
      have hchildren : t.children.map rule.apply = t.children := by
        refine (List.map_congr_left fun c hc => ?_).trans (List.map_id _)
        exact ih c hc fun u hu => h u (Term.mem_subterms_of_mem_children hc hu)
      rw [apply_eq, hchildren, Term.updateChildren_children, applyHead_of_none (h t (Term.mem_subterms_self t))]

theorem replacementFor?_nil (old new t : Term) :
    replacementFor? ⟨old, [], new⟩ t = if t = old then some new else none := by
  rw [replacementFor?_eq, Term.matchWith?_nil]
  by_cases h : old = t
  · simp [h, Term.instantiate_nil]
  · simp [h, Ne.symm h]

theorem applyHead_nil (old new t : Term) : applyHead ⟨old, [], new⟩ t = if t = old then new else t := by
  rw [applyHead, replacementFor?_nil]
  split <;> rfl

/-- Whether a rule matches atoms of formulas only. -/
def MatchesAtoms (rule : Rule) : Prop :=
  ∀ u : Term, u.isAtom = false → rule.replacementFor? u = none

theorem matchesAtoms_nil {old new : Term} (hold : old.isAtom = true) : MatchesAtoms ⟨old, [], new⟩ := by
  intro u hu
  rw [replacementFor?_nil, if_neg]
  rintro rfl
  exact Bool.false_ne_true (hu.symm.trans hold)

/-- A rule acts on a formula through its atoms, if it matches atoms only and none of the images once more. -/
theorem actsOnAtoms_apply {rule : Rule} (hatoms : rule.MatchesAtoms) {p q : Term → Prop}
    (hstable : ∀ w : Term, w.isAtom = true → q w → rule.applyHead w = w)
    (himage : ∀ u : Term, u.isAtom = true → p u → ∀ w ∈ (rule.apply u).formulaAtoms, q w) :
    Term.ActsOnAtoms rule.apply p q := by
  refine Term.actsOnAtoms_of_isRebuilt himage fun t ht hchildren => ?_
  have hrebuilt := Term.isRebuilt_updateChildren rule.apply t
  have hhead : rule.applyHead (t.updateChildren (t.children.map rule.apply)) =
      t.updateChildren (t.children.map rule.apply) := by
    by_cases h : (t.updateChildren (t.children.map rule.apply)).isAtom = true
    · refine hstable _ h ?_
      have hself := List.mem_singleton_self (t.updateChildren (t.children.map rule.apply))
      rw [← Term.formulaAtoms_of_isAtom h] at hself
      obtain ⟨c, hc, hw⟩ := Term.collects_formulaAtoms.exists_of_isRebuilt ht hrebuilt hself
      exact hchildren c hc _ hw
    · exact applyHead_of_none (hatoms _ (by simpa using h))
  rw [apply_eq, hhead]
  exact hrebuilt

end Rule

namespace Term

theorem replace_eq (t old new : Term) :
    t.replace old new =
      if t.updateChildren (t.children.map (·.replace old new)) = old then new
      else t.updateChildren (t.children.map (·.replace old new)) := by
  change Rule.apply ⟨old, [], new⟩ t = _
  rw [Rule.apply_eq, Rule.applyHead_nil]
  rfl

/-- A term that becomes the replaced one is only left if it is the replacement. -/
theorem eq_of_replace_eq {t old new : Term} (h : t.replace old new = old) : new = old := by
  rw [replace_eq] at h
  split at h
  next => exact h
  next hne => exact absurd h hne

theorem actsOnAtoms_replace {old new : Term} {p q : Term → Prop} (hold : old.isAtom = true)
    (hstable : q old → new = old)
    (himage : ∀ u : Term, u.isAtom = true → p u → ∀ w ∈ (u.replace old new).formulaAtoms, q w) :
    ActsOnAtoms (·.replace old new) p q := by
  refine Rule.actsOnAtoms_apply (Rule.matchesAtoms_nil hold) (fun w _ hw => ?_) himage
  rw [Rule.applyHead_nil]
  split
  next h => rw [h, hstable (h ▸ hw)]
  next => rfl

theorem replace_of_not_mem {t old new : Term} (h : old ∉ t.subterms) : t.replace old new = t := by
  refine Rule.apply_of_forall fun u hu => ?_
  rw [Rule.replacementFor?_nil, if_neg]
  rintro rfl
  exact h hu

theorem symbols_replace {t old new u : Term} (h : u ∈ (t.replace old new).symbols) :
    u ∈ t.symbols ∨ u ∈ new.symbols := by
  induction t using inductionOnChildren with
  | step t ih =>
      rw [replace_eq] at h
      split at h
      next => exact Or.inr h
      next =>
        have child : (∃ c ∈ t.children, u ∈ (c.replace old new).symbols) → u ∈ t.symbols ∨ u ∈ new.symbols := by
          rintro ⟨c, hc, hu⟩
          refine (ih c hc hu).imp (fun hu => ?_) id
          rw [symbols_eq]
          exact List.mem_append_right _ (List.mem_flatMap.2 ⟨c, hc, hu⟩)
        by_cases ht : t.isAtom = false
        · exact child (collects_symbols.exists_of_isRebuilt ht (isRebuilt_updateChildren _ t) h)
        · cases t with
          | var _ | reg _ _ _ => exact Or.inl h
          | mem a | unary _ a =>
              refine child ⟨a, by simp [children], ?_⟩
              simpa [children] using h
          | binary _ a b | eq a b | quantified _ a b =>
              simp only [children, List.map_cons, List.map_nil, updateChildren_binary, updateChildren_eq,
                updateChildren_quantified, symbols_binary, symbols_equality, symbols_quantified, List.mem_append] at h
              exact child (h.elim (fun h => ⟨a, by simp [children], h⟩) fun h => ⟨b, by simp [children], h⟩)
          | _ => simp [isAtom] at ht

theorem Plain.replace {t old new : Term} (ht : t.Plain) (hnew : new.Plain) : (t.replace old new).Plain :=
  (plain_iff_symbols _).2 fun u hu =>
    (symbols_replace hu).elim ((plain_iff_symbols t).1 ht u) ((plain_iff_symbols new).1 hnew u)

section
variable {r : Term} (hr : r.isRegister = true) (v : Term)
include hr

theorem replace_register_self : r.replace r v = v := by
  cases r <;> simp only [isRegister, Bool.false_eq_true] at hr
  rw [replace_eq]
  simp [children, updateChildren]

theorem replace_register_mem (a : Term) : (mem a).replace r v = mem (a.replace r v) := by
  cases r <;> simp only [isRegister, Bool.false_eq_true] at hr
  rw [replace_eq]
  simp [children]

theorem replace_register_unary (op : UnaryOp) (a : Term) : (unary op a).replace r v = unary op (a.replace r v) := by
  cases r <;> simp only [isRegister, Bool.false_eq_true] at hr
  rw [replace_eq]
  simp [children]

theorem replace_register_binary (op : BinaryOp) (a b : Term) :
    (binary op a b).replace r v = binary op (a.replace r v) (b.replace r v) := by
  cases r <;> simp only [isRegister, Bool.false_eq_true] at hr
  rw [replace_eq]
  simp [children]

theorem replace_register_eq (a b : Term) : (eq a b).replace r v = eq (a.replace r v) (b.replace r v) := by
  cases r <;> simp only [isRegister, Bool.false_eq_true] at hr
  rw [replace_eq]
  simp [children]

theorem isLvalue_replace_register {l : Term} (hl : l.isLvalue = true) (hne : l ≠ r) :
    (l.replace r v).isLvalue = true := by
  cases l with
  | reg n o s =>
      rw [replace_of_not_mem (by simpa [subterms] using hne.symm)]
      exact hl
  | mem a =>
      rw [replace_register_mem hr]
      rfl
  | _ => simp [isLvalue, isRegister, isMemoryCell] at hl

theorem IsWord.replace_register {t : Term} (ht : t.IsWord) (hv : v.IsWord) : (t.replace r v).IsWord := by
  induction t using inductionOnChildren with
  | step t ih =>
      by_cases htr : t = r
      · rw [htr, replace_register_self hr]
        exact hv
      · cases t with
        | const _ | var _ | reg _ _ _ =>
            rw [replace_of_not_mem (by simpa [subterms] using Ne.symm htr)]
            exact ht
        | mem a =>
            rw [replace_register_mem hr, isWord_mem]
            exact ih a (by simp [children]) ((isWord_mem a).1 ht)
        | unary op a =>
            rw [replace_register_unary hr, isWord_unary]
            exact ih a (by simp [children]) ((isWord_unary op a).1 ht)
        | binary op a b =>
            obtain ⟨ha, hb⟩ := (isWord_binary op a b).1 ht
            rw [replace_register_binary hr, isWord_binary]
            exact ⟨ih a (by simp [children]) ha, ih b (by simp [children]) hb⟩
        | _ => exact absurd ht.isExpression (by simp [Term.isExpression])

/-- Replacing a register cell by a word term gives the value with the word in the cell. -/
theorem value_replace_register {z : ZeroDivision} {s s' : Valuation} {t : Term} (ht : t.IsWord)
    (hvars : s'.vars = s.vars) (hmem : s'.memory = s.memory) (hself : r.value z s' = v.value z s)
    (hother : ∀ u ∈ t.symbols, u.isRegister = true → u ≠ r → u.value z s' = u.value z s) :
    (t.replace r v).value z s = t.value z s' := by
  induction t using inductionOnChildren with
  | step t ih =>
      have child : ∀ c ∈ t.children, (c.replace r v).value z s = c.value z s' := fun c hc =>
        ih c hc (ht.child hc) fun u hu =>
          hother u (mem_symbols_of_mem_subterms (mem_subterms_of_mem_children hc (mem_subterms_self c)) hu)
      by_cases htr : t = r
      · rw [htr, replace_register_self hr, hself]
      · cases t with
        | const _ => rw [replace_of_not_mem (by simpa [subterms] using Ne.symm htr), value, value]
        | var _ => rw [replace_of_not_mem (by simpa [subterms] using Ne.symm htr), value, value, hvars]
        | reg n o s =>
            rw [replace_of_not_mem (by simpa [subterms] using Ne.symm htr)]
            exact (hother _ (by simp [symbols, subterms, isSymbol, isRegister]) rfl htr).symm
        | mem a => simp only [replace_register_mem hr, value, child a (by simp [children]), hmem]
        | unary op a => simp only [replace_register_unary hr, value, child a (by simp [children])]
        | binary op a b =>
            simp only [replace_register_binary hr, value, child a (by simp [children]), child b (by simp [children])]
        | _ => exact absurd ht.isExpression (by simp [Term.isExpression])

end

end Term
end Backslice
