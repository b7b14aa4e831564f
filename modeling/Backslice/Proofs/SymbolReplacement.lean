import Backslice.Proofs.Matching
import Backslice.Proofs.StableForms
import Mathlib

/-!
# Replacing a symbol

To replace a variable or a register cell is to instantiate it, but for one case.
Replacing puts a term together from replaced children and then looks whether the
result is the symbol. A result that was not the symbol before becomes it only if
a negation meets a negation: if the symbol is replaced by its own negation, in a
term that has this negation as well. The negation of the symbol is then left as
it is, while instantiating turns it into the symbol.

Both put terms together from operands by the constructors. In a normal term the
operands of a conjunction (disjunction) are at least two, all different and none
of them decided, so that it becomes a literal only if all operands become this
literal.
-/

namespace Backslice

namespace Term

theorem updateChildren_of_isNormal {t : Term} (h : t.IsNormal) (cs : List Term) :
    t.updateChildren cs = t.withChildren cs := by
  unfold updateChildren
  split
  next hsame =>
    rw [hsame]
    cases t with
    | not a => exact h.head.symm
    | and xs => exact (conj_of_isNormal h).symm
    | or xs => exact (disj_of_isNormal h).symm
    | _ => rfl
  next => rfl

/-- What is common to conjunctions and disjunctions: the connective, what an operand contributes to it, and its
constructor. -/
structure IsJoin (unit : Bool) (wrap : List Term → Term) (parts : Term → List Term) (join : List Term → Term) :
    Prop where
  join_eq ts : join ts = joined unit wrap (ts.flatMap parts).eraseDups
  children_wrap ts : (wrap ts).children = ts
  isLiteral_wrap ts : (wrap ts).isLiteral = false
  isDecided_wrap ts : (wrap ts).isDecided = false
  parts_cases {t} (ht : t.isDecided = false) : parts t = [t] ∨ t = wrap (parts t)
  parts_decided {t} (ht : t.isDecided = true) : ∀ y ∈ parts t, y.isDecided = true
  operands_length {ts} (h : (wrap ts).IsNormal) : 2 ≤ ts.length
  operands_nodup {ts} (h : (wrap ts).IsNormal) : ts.Nodup
  operands_undecided {ts} (h : (wrap ts).IsNormal) : ∀ t ∈ ts, t.isDecided = false

theorem isJoin_conj : IsJoin true .and conjuncts conj where
  join_eq := conj_eq
  children_wrap _ := rfl
  isLiteral_wrap _ := rfl
  isDecided_wrap _ := rfl
  parts_cases {t} ht := by
    cases t <;> first | exact Or.inl rfl | exact Or.inr rfl | cases ht
  parts_decided {t} ht y hy := by
    obtain rfl | hchild := eq_or_mem_children_of_mem_conjuncts hy
    · cases t <;> first | rfl | cases ht
    · cases t <;> first | exact absurd hchild List.not_mem_nil | cases ht
  operands_length h := h.head.1
  operands_nodup h := h.head.2.1 ▸ List.nodup_eraseDups _
  operands_undecided {ts} h t ht := by
    have hself := h.head.2.2.2 t ht
    cases t with
    | const v => cases hv : (v != 0) <;> simp [conjuncts, asFormula, hv] at hself
    | bool b =>
        cases b with
        | true => simp [conjuncts, asFormula] at hself
        | false => exact absurd ht h.head.2.2.1
    | _ => rfl

theorem isJoin_disj : IsJoin false .or disjuncts disj where
  join_eq := disj_eq
  children_wrap _ := rfl
  isLiteral_wrap _ := rfl
  isDecided_wrap _ := rfl
  parts_cases {t} ht := by
    cases t <;> first | exact Or.inl rfl | exact Or.inr rfl | cases ht
  parts_decided {t} ht y hy := by
    obtain rfl | hchild := eq_or_mem_children_of_mem_disjuncts hy
    · cases t <;> first | rfl | cases ht
    · cases t <;> first | exact absurd hchild List.not_mem_nil | cases ht
  operands_length h := h.head.1
  operands_nodup h := h.head.2.1 ▸ List.nodup_eraseDups _
  operands_undecided {ts} h t ht := by
    have hself := h.head.2.2.2 t ht
    cases t with
    | const v => cases hv : (v != 0) <;> simp [disjuncts, asFormula, hv] at hself
    | bool b =>
        cases b with
        | false => simp [disjuncts, asFormula] at hself
        | true => exact absurd ht h.head.2.2.1
    | _ => rfl

namespace IsJoin

variable {unit : Bool} {wrap : List Term → Term} {parts : Term → List Term} {join : List Term → Term}
  (J : IsJoin unit wrap parts join) {ts : List Term} {t y : Term}
include J

theorem exists_ne (h : (wrap ts).IsNormal) : ∃ c ∈ ts, ∃ d ∈ ts, c ≠ d := by
  have hlength := J.operands_length h
  have hnodup := J.operands_nodup h
  match ts with
  | [] | [_] => simp at hlength
  | c :: d :: ts =>
      have hne : c ≠ d := by
        rintro rfl
        simp at hnodup
      exact ⟨c, by simp, d, by simp, hne⟩

theorem parts_undecided (ht : t.IsNormal) (hd : t.isDecided = false) :
    (∃ y, y ∈ parts t) ∧ ∀ y ∈ parts t, y.isDecided = false := by
  obtain hself | hwrap := J.parts_cases hd
  · rw [hself]
    exact ⟨⟨t, List.mem_singleton_self t⟩, by simpa using hd⟩
  · rw [hwrap] at ht
    obtain ⟨c, hc, -⟩ := J.exists_ne ht
    exact ⟨⟨c, hc⟩, J.operands_undecided ht⟩

/-- Only a term itself contributes nothing but one term that is not decided. -/
theorem eq_or_isDecided_of_parts (ht : t.IsNormal) (h : ∀ z ∈ parts t, z = y) : t = y ∨ t.isDecided = true := by
  by_cases hd : t.isDecided = true
  · exact Or.inr hd
  · obtain hself | hwrap := J.parts_cases (by simpa using hd)
    · exact Or.inl (h t (hself ▸ List.mem_singleton_self t))
    · rw [hwrap] at ht
      obtain ⟨c, hc, d, hd, hne⟩ := J.exists_ne ht
      exact absurd ((h c hc).trans (h d hd).symm) hne

theorem eq_of_join_eq (hts : ∀ t ∈ ts, t.IsNormal) (hy : y.isDecided = false) (hliteral : y.isLiteral = true)
    (h : join ts = y) : y ∈ ts ∧ ∀ t ∈ ts, t = y ∨ t.isDecided = true := by
  have hone : (ts.flatMap parts).eraseDups = [y] := by
    rw [J.join_eq] at h
    unfold joined at h
    split at h
    next => exact absurd hy (by simp [← h, isDecided])
    next z hz => rw [hz, h]
    next =>
      split at h
      next => exact absurd hy (by simp [← h, isDecided])
      next =>
        rw [← h, J.isLiteral_wrap] at hliteral
        cases hliteral
  have hparts : ∀ t ∈ ts, ∀ z ∈ parts t, z = y := by
    intro t ht z hz
    have hmem : z ∈ (ts.flatMap parts).eraseDups := List.mem_eraseDups.2 (List.mem_flatMap.2 ⟨t, ht, hz⟩)
    rw [hone] at hmem
    exact List.mem_singleton.1 hmem
  have hcases : ∀ t ∈ ts, t = y ∨ t.isDecided = true := fun t ht =>
    J.eq_or_isDecided_of_parts (hts t ht) (hparts t ht)
  refine ⟨?_, hcases⟩
  have hmem : y ∈ (ts.flatMap parts).eraseDups := by simp [hone]
  obtain ⟨t, ht, hyt⟩ := List.mem_flatMap.1 (List.mem_eraseDups.1 hmem)
  obtain rfl | hdecided := hcases t ht
  · exact ht
  · exact absurd (J.parts_decided hdecided y hyt) (by simp [hy])

/-- What is joined, of operands that are not decided: one of what they contribute, or all of it. -/
theorem join_cases (hts : ∀ t ∈ ts, t.IsNormal) (hd : ∀ t ∈ ts, t.isDecided = false) (hne : ∃ t, t ∈ ts) :
    (∃ y, join ts = y ∧ ∀ z, z ∈ ts.flatMap parts ↔ z = y) ∨ join ts = wrap (ts.flatMap parts).eraseDups := by
  have hundecided : ∀ z ∈ (ts.flatMap parts).eraseDups, z.isDecided = false := by
    intro z hz
    obtain ⟨t, ht, hz⟩ := List.mem_flatMap.1 (List.mem_eraseDups.1 hz)
    exact (J.parts_undecided (hts t ht) (hd t ht)).2 z hz
  rw [J.join_eq]
  unfold joined
  split
  next hnil =>
    obtain ⟨t, ht⟩ := hne
    obtain ⟨y, hy⟩ := (J.parts_undecided (hts t ht) (hd t ht)).1
    have hmem : y ∈ (ts.flatMap parts).eraseDups := List.mem_eraseDups.2 (List.mem_flatMap.2 ⟨t, ht, hy⟩)
    rw [hnil] at hmem
    cases hmem
  next y hone => exact Or.inl ⟨y, rfl, fun z => by rw [← List.mem_eraseDups, hone, List.mem_singleton]⟩
  next =>
    split
    next hmem => exact absurd (hundecided _ hmem) (by simp [isDecided])
    next => exact Or.inr rfl

theorem isDecided_join (hts : ∀ t ∈ ts, t.IsNormal) (hd : ∀ t ∈ ts, t.isDecided = false) (hne : ∃ t, t ∈ ts) :
    (join ts).isDecided = false := by
  obtain ⟨y, hjoin, hall⟩ | hwrap := J.join_cases hts hd hne
  · obtain ⟨t, ht, hy⟩ := List.mem_flatMap.1 ((hall y).2 rfl)
    rw [hjoin]
    exact (J.parts_undecided (hts t ht) (hd t ht)).2 y hy
  · rw [hwrap]
    exact J.isDecided_wrap _

theorem undecided_images {f : Term → Term} (h : (wrap ts).IsNormal) (hf : ∀ c ∈ ts, (f c).IsNormal)
    (hfd : ∀ c ∈ ts, c.isDecided = false → (f c).isDecided = false) :
    (∀ t ∈ ts.map f, t.IsNormal) ∧ (∀ t ∈ ts.map f, t.isDecided = false) ∧ ∃ t, t ∈ ts.map f := by
  refine ⟨List.forall_mem_map.2 hf, List.forall_mem_map.2 fun c hc => ?_, ?_⟩
  · exact hfd c hc (J.operands_undecided h c hc)
  · obtain ⟨c, hc, -⟩ := J.exists_ne h
    exact ⟨f c, List.mem_map_of_mem hc⟩

end IsJoin

section
variable {f : Term → Term} {t x y : Term}

theorem isAtom_of_isSymbol (hx : x.isSymbol = true) : x.isAtom = true := by
  cases x <;> first | rfl | cases hx

theorem negate_negate {u : Term} (hu : u.IsNormal) (hd : u.negate.isDecided = false) : u.negate.negate = u := by
  cases u with
  | not v =>
      have hv : v.negate = .not v := hu.head
      exact hv
  | const _ | bool _ => cases hd
  | _ => rfl

/-- Whether the operands of a term, two at least and none of them decided, become one term or something decided. -/
structure OperandsBecome (f : Term → Term) (t y : Term) : Prop where
  exists_eq : ∃ c ∈ t.children, f c = y
  exists_ne : ∃ c ∈ t.children, ∃ d ∈ t.children, c ≠ d
  undecided : ∀ c ∈ t.children, c.isDecided = false
  eq_or_decided : ∀ c ∈ t.children, f c = y ∨ (f c).isDecided = true

theorem OperandsBecome.of_join {unit : Bool} {wrap : List Term → Term} {parts : Term → List Term}
    {join : List Term → Term} (J : IsJoin unit wrap parts join) {ts : List Term} (ht : (wrap ts).IsNormal)
    (hf : ∀ c ∈ ts, (f c).IsNormal) (hy : y.isDecided = false) (hliteral : y.isLiteral = true)
    (h : join (ts.map f) = y) : OperandsBecome f (wrap ts) y := by
  obtain ⟨hmem, hcases⟩ := J.eq_of_join_eq (List.forall_mem_map.2 hf) hy hliteral h
  refine ⟨?_, ?_, ?_, ?_⟩ <;> rw [J.children_wrap]
  · exact List.mem_map.1 hmem
  · exact J.exists_ne ht
  · exact J.operands_undecided ht
  · exact List.forall_mem_map.1 hcases

/-- How a normal term becomes a symbol or its negation when its operands are exchanged: it is the symbol, or the
negation of what becomes the opposite, or a connective all of whose operands become this literal. -/
theorem withChildren_eq_cases (hx : x.isSymbol = true) (hy : y = x ∨ y = .not x) (ht : t.IsNormal)
    (hf : ∀ c ∈ t.children, (f c).IsNormal) (h : t.withChildren (t.children.map f) = y) :
    t = x ∨ (∃ c, t = .not c ∧ f c = y.negate) ∨ OperandsBecome f t y := by
  have hatom : x.isAtom = true := isAtom_of_isSymbol hx
  have hundecided : y.isDecided = false := by
    obtain rfl | rfl := hy
    · cases y <;> first | rfl | cases hatom
    · rfl
  have hliteral : y.isLiteral = true := by
    obtain rfl | rfl := hy
    · exact (isLiteral_iff y).2 (Or.inl hatom)
    · exact hatom
  have hne : ∀ u : Term, u.isSymbol = false → (∀ v, u ≠ .not v) → u ≠ y := by
    rintro u hu hnot rfl
    obtain rfl | rfl := hy
    · exact Bool.false_ne_true (hu.symm.trans hx)
    · exact hnot x rfl
  cases t with
  | var n | reg n o s =>
      obtain rfl | rfl := hy
      · exact Or.inl h
      · cases h
  | not c =>
      have hc : (f c).negate = y := h
      have hback := negate_negate (hf c (by simp [children])) (by rw [hc, hundecided])
      exact Or.inr (Or.inl ⟨c, rfl, by rw [← hc, hback]⟩)
  | and ts => exact Or.inr (Or.inr (.of_join isJoin_conj ht hf hundecided hliteral h))
  | or ts => exact Or.inr (Or.inr (.of_join isJoin_disj ht hf hundecided hliteral h))
  | _ => exact absurd h (hne _ rfl (by simp [withChildren]))

/-- A term that is not decided does not become decided when its operands are exchanged, if these do not. -/
theorem isDecided_withChildren (ht : t.IsNormal) (hd : t.isDecided = false) (hf : ∀ c ∈ t.children, (f c).IsNormal)
    (hfd : ∀ c ∈ t.children, c.isDecided = false → (f c).isDecided = false) :
    (t.withChildren (t.children.map f)).isDecided = false := by
  cases t with
  | const _ | bool _ => cases hd
  | not c =>
      have hnegate : c.negate = .not c := ht.head
      have hc : c.isDecided = false := by
        cases c <;> first | rfl | cases hnegate
      have himage := hfd c (by simp [children]) hc
      have hnormal := hf c (by simp [children])
      have hback : (f c).negate.isDecided = false := by
        cases hfc : f c with
        | not v =>
            rw [hfc] at hnormal
            have hv : v.negate = .not v := hnormal.head
            cases v <;> first | rfl | cases hv
        | const _ | bool _ => simp [hfc, isDecided] at himage
        | _ => rfl
      exact hback
  | and ts =>
      obtain ⟨hnormal, hundecided, hne⟩ := isJoin_conj.undecided_images ht hf hfd
      exact isJoin_conj.isDecided_join hnormal hundecided hne
  | or ts =>
      obtain ⟨hnormal, hundecided, hne⟩ := isJoin_disj.undecided_images ht hf hfd
      exact isJoin_disj.isDecided_join hnormal hundecided hne
  | _ => rfl

end

/-! ## Both ways to replace a symbol -/

section
variable {t x new : Term}

theorem replace_eq_of_isNormal (ht : t.IsNormal) :
    t.replace x new =
      if t.withChildren (t.children.map (·.replace x new)) = x then new
      else t.withChildren (t.children.map (·.replace x new)) := by
  rw [replace_eq, updateChildren_of_isNormal ht]

theorem instantiate_eq_of_isNormal (ht : t.IsNormal) (hne : t ≠ x) :
    t.instantiate [(x, new)] = t.withChildren (t.children.map (instantiate [(x, new)])) := by
  rw [instantiate_of_ne hne, updateChildren_of_isNormal ht]

theorem IsNormal.replace (ht : t.IsNormal) (hnew : new.IsNormal) : (t.replace x new).IsNormal :=
  isHereditary_isNormal.toIsInherited.replace ht hnew

theorem IsNormal.instantiate (ht : t.IsNormal) (hnew : new.IsNormal) : (t.instantiate [(x, new)]).IsNormal :=
  isHereditary_isNormal.toIsInherited.instantiate (by simpa using hnew) ht

theorem isDecided_replace (ht : t.IsNormal) (hd : t.isDecided = false) (hnew : new.IsNormal)
    (hnewd : new.isDecided = false) : (t.replace x new).isDecided = false := by
  induction t using inductionOnChildren with
  | step t ih =>
      rw [replace_eq_of_isNormal ht]
      split
      next => exact hnewd
      next =>
        exact isDecided_withChildren ht hd (fun c hc => (ht.child hc).replace hnew)
          fun c hc hcd => ih c hc (ht.child hc) hcd

theorem isDecided_instantiate (ht : t.IsNormal) (hd : t.isDecided = false) (hnew : new.IsNormal)
    (hnewd : new.isDecided = false) : (t.instantiate [(x, new)]).isDecided = false := by
  induction t using inductionOnChildren with
  | step t ih =>
      by_cases htx : t = x
      · rw [htx, instantiate_self]
        exact hnewd
      · rw [instantiate_eq_of_isNormal ht htx]
        exact isDecided_withChildren ht hd (fun c hc => (ht.child hc).instantiate hnew)
          fun c hc hcd => ih c hc (ht.child hc) hcd

theorem negate_of_isSymbol (hx : x.isSymbol = true) : x.negate = .not x := by
  cases x <;> first | rfl | cases hx

theorem isNormal_not_of_isSymbol (hx : x.isSymbol = true) : (Term.not x).IsNormal := by
  have hnormal : x.IsNormal := by
    cases x with
    | var n => exact isHereditary_isNormal.var n
    | reg n o s => exact isHereditary_isNormal.reg n o s
    | _ => cases hx
  exact negate_of_isSymbol hx ▸ hnormal.negate

/-- A term becomes the negation of the symbol only if this is what replaces it, and the term is the symbol or has the
negation of it. -/
theorem of_replace_eq_not (hx : x.isSymbol = true) (ht : t.IsNormal) (hnew : new.IsNormal) (hne : new ≠ x)
    (h : t.replace x new = .not x) : new = .not x ∧ (t = x ∨ .not x ∈ t.subterms) := by
  induction t using inductionOnChildren with
  | step t ih =>
      have child : ∀ c ∈ t.children, c.replace x new = .not x → new = .not x ∧ .not x ∈ (Term.not c).subterms := by
        intro c hc hcx
        obtain ⟨hnot, rfl | hmem⟩ := ih c hc (ht.child hc) hcx
        · exact ⟨hnot, mem_subterms_self _⟩
        · exact ⟨hnot, mem_subterms_of_mem_children (by simp [children]) hmem⟩
      have himages : ∀ c ∈ t.children, (c.replace x new).IsNormal := fun c hc => (ht.child hc).replace hnew
      have hapart : ∀ c : Term, c.replace x new ≠ x := fun c hc => hne (eq_of_replace_eq hc)
      rw [replace_eq_of_isNormal ht] at h
      split at h
      next hself =>
        obtain rfl | ⟨c, rfl, hc⟩ | hall := withChildren_eq_cases hx (Or.inl rfl) ht himages hself
        · exact ⟨h, Or.inl rfl⟩
        · exact ⟨h, Or.inr (child c (by simp [children]) (hc.trans (negate_of_isSymbol hx))).2⟩
        · obtain ⟨c, -, hc⟩ := hall.exists_eq
          exact absurd hc (hapart c)
      next =>
        obtain rfl | ⟨c, rfl, hc⟩ | hall := withChildren_eq_cases hx (Or.inr rfl) ht himages h
        · exact absurd h (by cases t <;> first | exact fun h => by cases h | cases hx)
        · exact absurd hc (hapart c)
        · obtain ⟨c, hc, hcx⟩ := hall.exists_eq
          have hnot : new = .not x := (ih c hc (ht.child hc) hcx).1
          have hbecome : ∀ d ∈ t.children, d = x ∨ .not x ∈ d.subterms := by
            intro d hd
            have hundecided : (d.replace x new).isDecided = false :=
              isDecided_replace (ht.child hd) (hall.undecided d hd) hnew (by rw [hnot]; rfl)
            obtain hdx | hdecided := hall.eq_or_decided d hd
            · exact (ih d hd (ht.child hd) hdx).2
            · exact absurd hdecided (by simp [hundecided])
          -- Of two different operands one is not the symbol.
          obtain ⟨d, hd, e, he, hde⟩ := hall.exists_ne
          refine ⟨hnot, Or.inr ?_⟩
          obtain rfl | hmem := hbecome d hd
          · obtain rfl | hmem := hbecome e he
            · exact absurd rfl hde
            · exact mem_subterms_of_mem_children he hmem
          · exact mem_subterms_of_mem_children hd hmem

theorem replace_symbol_self (hx : x.isSymbol = true) : x.replace x new = new := by
  rw [replace_eq]
  cases x <;> first | exact if_pos rfl | cases hx

/-- Replacing a symbol is instantiating it, where its negation does not meet a negation. -/
theorem replace_eq_instantiate (hx : x.isSymbol = true) (ht : t.IsNormal) (hnew : new.IsNormal)
    (hmeet : ¬(new = .not x ∧ .not x ∈ t.subterms)) : t.replace x new = t.instantiate [(x, new)] := by
  induction t using inductionOnChildren with
  | step t ih =>
      by_cases htx : t = x
      · rw [htx, replace_symbol_self hx, instantiate_self]
      have hchildren : t.children.map (·.replace x new) = t.children.map (instantiate [(x, new)]) := by
        refine List.map_congr_left fun c hc => ih c hc (ht.child hc) fun h => hmeet ⟨h.1, ?_⟩
        exact mem_subterms_of_mem_children hc h.2
      rw [replace_eq_of_isNormal ht, hchildren, ← instantiate_eq_of_isNormal ht htx]
      split
      next hself =>
        rw [hself]
        -- The term has become the symbol, so the symbol is its own replacement.
        by_contra hne
        rw [instantiate_eq_of_isNormal ht htx, ← hchildren] at hself
        obtain rfl | ⟨c, rfl, hc⟩ | hall :=
          withChildren_eq_cases hx (Or.inl rfl) ht (fun c hc => (ht.child hc).replace hnew) hself
        · exact htx rfl
        · obtain ⟨hnot, rfl | hmem⟩ :=
            of_replace_eq_not hx (ht.child (by simp [children])) hnew hne (hc.trans (negate_of_isSymbol hx))
          · exact hmeet ⟨hnot, mem_subterms_self _⟩
          · exact hmeet ⟨hnot, mem_subterms_of_mem_children (by simp [children]) hmem⟩
        · obtain ⟨c, -, hc⟩ := hall.exists_eq
          exact hne (eq_of_replace_eq hc)
      next => rfl

end

/-- Whether a term occurs in another one in a place that is not right below a negation. -/
inductive Bare (x : Term) : Term → Prop
  | itself : Bare x x
  | inside {t c : Term} : t ≠ .not x → c ∈ t.children → Bare x c → Bare x t

section
variable {t x : Term} (hx : x.isSymbol = true)
include hx

theorem not_bare_of_isDecided (ht : t.isDecided = true) : ¬Bare x t := by
  intro h
  cases h with
  | itself => cases t <;> first | exact absurd hx Bool.false_ne_true | exact absurd ht Bool.false_ne_true
  | inside _ hc _ => cases t <;> first | exact absurd hc List.not_mem_nil | cases ht

omit hx in
theorem not_bare_not : ¬Bare x (.not x) := by
  intro h
  cases h with
  | inside hne _ _ => exact hne rfl

omit hx in
theorem Bare.exists_child (h : Bare x t) (hne : t ≠ x) : t ≠ .not x ∧ ∃ c ∈ t.children, Bare x c := by
  cases h with
  | itself => exact absurd rfl hne
  | inside hnot hc hbare => exact ⟨hnot, _, hc, hbare⟩

namespace IsJoin

variable {unit : Bool} {wrap : List Term → Term} {parts : Term → List Term} {join : List Term → Term}
  (J : IsJoin unit wrap parts join) {ts : List Term}
include J

theorem wrap_ne (ts : List Term) : wrap ts ≠ x ∧ wrap ts ≠ .not x := by
  have hatom : x.isAtom = true := isAtom_of_isSymbol hx
  have hliteral := J.isLiteral_wrap ts
  constructor
  · intro h
    rw [h, (isLiteral_iff x).2 (Or.inl hatom)] at hliteral
    cases hliteral
  · intro h
    rw [h, (isLiteral_iff _).2 (Or.inr ⟨x, rfl, hatom⟩)] at hliteral
    cases hliteral

theorem bare_parts_iff (hd : t.isDecided = false) : (∃ y ∈ parts t, Bare x y) ↔ Bare x t := by
  obtain hself | hwrap := J.parts_cases hd
  · rw [hself]
    simp
  · have hne := J.wrap_ne hx (parts t)
    rw [← hwrap] at hne
    have hchildren : t.children = parts t := (congrArg children hwrap).trans (J.children_wrap _)
    constructor
    · rintro ⟨y, hy, hbare⟩
      exact .inside hne.2 (hchildren ▸ hy) hbare
    · intro h
      obtain ⟨-, c, hc, hbare⟩ := h.exists_child hne.1
      exact ⟨c, hchildren ▸ hc, hbare⟩

/-- What is bare in operands that are not decided is bare in what they are joined to. -/
theorem bare_join_iff (hts : ∀ t ∈ ts, t.IsNormal) (hd : ∀ t ∈ ts, t.isDecided = false) (hne : ∃ t, t ∈ ts) :
    Bare x (join ts) ↔ ∃ t ∈ ts, Bare x t := by
  have hparts : (∃ y ∈ ts.flatMap parts, Bare x y) ↔ ∃ t ∈ ts, Bare x t := by
    simp only [List.mem_flatMap]
    constructor
    · rintro ⟨y, ⟨t, ht, hy⟩, hbare⟩
      exact ⟨t, ht, (J.bare_parts_iff hx (hd t ht)).1 ⟨y, hy, hbare⟩⟩
    · rintro ⟨t, ht, hbare⟩
      obtain ⟨y, hy, hbare⟩ := (J.bare_parts_iff hx (hd t ht)).2 hbare
      exact ⟨y, ⟨t, ht, hy⟩, hbare⟩
  rw [← hparts]
  obtain ⟨y, hjoin, hall⟩ | hwrap := J.join_cases hts hd hne
  · rw [hjoin]
    simp only [hall, exists_eq_left]
  · have hapart := J.wrap_ne hx (ts.flatMap parts).eraseDups
    rw [hwrap]
    constructor
    · intro h
      obtain ⟨-, c, hc, hbare⟩ := h.exists_child hapart.1
      rw [J.children_wrap] at hc
      exact ⟨c, List.mem_eraseDups.1 hc, hbare⟩
    · rintro ⟨y, hy, hbare⟩
      refine .inside hapart.2 ?_ hbare
      rw [J.children_wrap]
      exact List.mem_eraseDups.2 hy

end IsJoin

/-- What is bare in the operands is bare in the term put together from them, unless this is a literal of the symbol. -/
theorem bare_withChildren_iff {f : Term → Term} (ht : t.IsNormal) (hf : ∀ c ∈ t.children, (f c).IsNormal)
    (hfd : ∀ c ∈ t.children, c.isDecided = false → (f c).isDecided = false)
    (hself : t.withChildren (t.children.map f) ≠ x) (hnot : t.withChildren (t.children.map f) ≠ .not x) :
    Bare x (t.withChildren (t.children.map f)) ↔ ∃ c ∈ t.children, Bare x (f c) := by
  have htree : (t.withChildren (t.children.map f)).children = t.children.map f →
      (Bare x (t.withChildren (t.children.map f)) ↔ ∃ c ∈ t.children, Bare x (f c)) := by
    intro hchildren
    constructor
    · intro h
      obtain ⟨-, d, hd, hbare⟩ := h.exists_child hself
      rw [hchildren] at hd
      obtain ⟨c, hc, rfl⟩ := List.mem_map.1 hd
      exact ⟨c, hc, hbare⟩
    · rintro ⟨c, hc, hbare⟩
      refine .inside hnot ?_ hbare
      rw [hchildren]
      exact List.mem_map_of_mem hc
  cases t with
  | not c =>
      have hc : (Term.not c).withChildren ((Term.not c).children.map f) = (f c).negate := rfl
      cases hfc : f c with
      | const _ | bool _ =>
          rw [hfc] at hc
          rw [hc]
          simp only [children, List.mem_singleton, exists_eq_left, hfc]
          exact iff_of_false (not_bare_of_isDecided hx rfl) (not_bare_of_isDecided hx rfl)
      | not w =>
          -- Two negations cancel, and what was below them is bare in the place of the inner one.
          rw [hfc] at hc
          have hw : (Term.not w).negate = w := rfl
          rw [hc, hw] at hself ⊢
          have hne : Term.not w ≠ .not x := fun h => hself (not.inj h)
          simp only [children, List.mem_singleton, exists_eq_left, hfc]
          constructor
          · exact fun h => .inside hne (by simp [children]) h
          · intro h
            obtain ⟨-, d, hd, hbare⟩ := h.exists_child (by rintro rfl; cases hx)
            rwa [List.mem_singleton.1 hd] at hbare
      | _ => exact htree (by rw [hc, hfc]; simp [negate, asFormula, children, hfc])
  | and ts =>
      obtain ⟨hnormal, hundecided, hne⟩ := isJoin_conj.undecided_images ht hf hfd
      exact (isJoin_conj.bare_join_iff hx hnormal hundecided hne).trans (by simp [children])
  | or ts =>
      obtain ⟨hnormal, hundecided, hne⟩ := isJoin_disj.undecided_images ht hf hfd
      exact (isJoin_disj.bare_join_iff hx hnormal hundecided hne).trans (by simp [children])
  | _ => exact htree rfl

theorem not_bare_replace (ht : t.IsNormal) : ¬Bare x (t.replace x (.not x)) := by
  have hnew := isNormal_not_of_isSymbol hx
  induction t using inductionOnChildren with
  | step t ih =>
      have himages : ∀ c ∈ t.children, (c.replace x (.not x)).IsNormal := fun c hc => (ht.child hc).replace hnew
      have hundecided : ∀ c ∈ t.children, c.isDecided = false → (c.replace x (.not x)).isDecided = false :=
        fun c hc hd => isDecided_replace (ht.child hc) hd hnew rfl
      rw [replace_eq_of_isNormal ht]
      split
      next => exact not_bare_not
      next hself =>
        by_cases hnot : t.withChildren (t.children.map (·.replace x (.not x))) = .not x
        · rw [hnot]
          exact not_bare_not
        · rw [bare_withChildren_iff hx ht himages hundecided hself hnot]
          rintro ⟨c, hc, hbare⟩
          exact ih c hc (ht.child hc) hbare

/-- Instantiating a symbol by its negation exchanges the two, and makes them of nothing else. -/
theorem instantiate_not_cases (ht : t.IsNormal) :
    (t.instantiate [(x, .not x)] = x → t = .not x) ∧ (t.instantiate [(x, .not x)] = .not x → t = x) := by
  have hnew := isNormal_not_of_isSymbol hx
  induction t using inductionOnChildren with
  | step t ih =>
      by_cases htx : t = x
      · rw [htx, instantiate_self]
        exact ⟨fun h => h.symm, fun _ => rfl⟩
      have himages : ∀ c ∈ t.children, (c.instantiate [(x, .not x)]).IsNormal := fun c hc =>
        (ht.child hc).instantiate hnew
      -- Two different operands do not both come from one term.
      have hjoined : ∀ y u, (∀ c ∈ t.children, c.instantiate [(x, .not x)] = y → c = u) →
          ¬OperandsBecome (instantiate [(x, .not x)]) t y := by
        intro y u hback hall
        have hone : ∀ c ∈ t.children, c = u := by
          intro c hc
          have hundecided := isDecided_instantiate (x := x) (ht.child hc) (hall.undecided c hc) hnew rfl
          obtain hcy | hdecided := hall.eq_or_decided c hc
          · exact hback c hc hcy
          · exact absurd hdecided (by simp [hundecided])
        obtain ⟨c, hc, d, hd, hne⟩ := hall.exists_ne
        exact hne ((hone c hc).trans (hone d hd).symm)
      rw [instantiate_eq_of_isNormal ht htx]
      constructor
      · intro h
        obtain hself | ⟨c, rfl, hc⟩ | hall := withChildren_eq_cases hx (Or.inl rfl) ht himages h
        · exact absurd hself htx
        · rw [negate_of_isSymbol hx] at hc
          rw [(ih c (by simp [children]) (ht.child (by simp [children]))).2 hc]
        · exact absurd hall (hjoined x (.not x) fun c hc => (ih c hc (ht.child hc)).1)
      · intro h
        obtain hself | ⟨c, rfl, hc⟩ | hall := withChildren_eq_cases hx (Or.inr rfl) ht himages h
        · exact absurd hself htx
        · have hinner := (ih c (by simp [children]) (ht.child (by simp [children]))).1 hc
          have hhead : c.negate = .not c := ht.head
          rw [hinner] at hhead
          cases hhead
        · exact absurd hall (hjoined (.not x) x fun c hc => (ih c hc (ht.child hc)).2)

/-- Where there is a negation of the symbol, instantiating by it leaves the symbol bare. -/
theorem bare_instantiate (ht : t.IsNormal) (hmem : .not x ∈ t.subterms) :
    Bare x (t.instantiate [(x, .not x)]) := by
  have hnew := isNormal_not_of_isSymbol hx
  induction t using inductionOnChildren with
  | step t ih =>
      have htx : t ≠ x := by
        intro h
        have hsubterms : x.subterms = [x] := by
          cases x <;> first | rfl | cases hx
        rw [h, hsubterms, List.mem_singleton] at hmem
        rw [← hmem] at hx
        cases hx
      have hvalue : t.instantiate [(x, .not x)] = t.withChildren (t.children.map (instantiate [(x, .not x)])) :=
        instantiate_eq_of_isNormal ht htx
      rw [subterms_eq] at hmem
      obtain rfl | hbelow := List.mem_cons.1 hmem
      · have hself : (Term.not x).instantiate [(x, .not x)] = x := by
          rw [hvalue]
          simp [children, withChildren, instantiate_self, negate, asFormula]
        rw [hself]
        exact .itself
      · obtain ⟨c, hc, hmemc⟩ := List.mem_flatMap.1 hbelow
        have hbare := ih c hc (ht.child hc) hmemc
        by_cases hself : t.instantiate [(x, .not x)] = x
        · rw [hself]
          exact .itself
        have hnot : t.instantiate [(x, .not x)] ≠ .not x := fun h => htx ((instantiate_not_cases hx ht).2 h)
        have himages : ∀ c ∈ t.children, (c.instantiate [(x, .not x)]).IsNormal := fun c hc =>
          (ht.child hc).instantiate hnew
        have hundecided : ∀ c ∈ t.children, c.isDecided = false → (c.instantiate [(x, .not x)]).isDecided = false :=
          fun c hc hd => isDecided_instantiate (ht.child hc) hd hnew rfl
        rw [hvalue] at hself hnot ⊢
        exact (bare_withChildren_iff hx ht himages hundecided hself hnot).2 ⟨c, hc, hbare⟩

end

/-- Replacing a symbol is instantiating it if and only if no negation of the symbol meets a negation. -/
theorem replace_eq_instantiate_iff {t x new : Term} (hx : x.isSymbol = true) (ht : t.IsNormal) (hnew : new.IsNormal) :
    t.replace x new = t.instantiate [(x, new)] ↔ ¬(new = .not x ∧ .not x ∈ t.subterms) := by
  constructor
  · rintro h ⟨rfl, hmem⟩
    refine not_bare_replace hx ht ?_
    rw [h]
    exact bare_instantiate hx ht hmem
  · exact replace_eq_instantiate hx ht hnew

/-- The negation of a variable that is replaced by its negation. Instantiating gives the variable; when replacing, this
is met again and replaced once more. -/
theorem negation_replaced_twice :
    (Term.not (.var "X")).replace (.var "X") (.not (.var "X")) = .not (.var "X") ∧
      (Term.not (.var "X")).instantiate [(.var "X", .not (.var "X"))] = .var "X" ∧
      (Term.not (.var "X")).replace (.var "X") (.not (.var "X")) ≠
        (Term.not (.var "X")).instantiate [(.var "X", .not (.var "X"))] := by
  have hreplaced : (Term.not (.var "X")).replace (.var "X") (.not (.var "X")) = .not (.var "X") := by cbv
  have hinstantiated : (Term.not (.var "X")).instantiate [(.var "X", .not (.var "X"))] = .var "X" := by cbv
  refine ⟨hreplaced, hinstantiated, ?_⟩
  rw [hreplaced, hinstantiated]
  exact Term.noConfusion

end Term

namespace Manager

variable {m : Manager} {i j k : Nat} {t x new : Term}

theorem outcome_replace (hi : m.arena.term? i = some t) (hj : m.arena.term? j = some x)
    (hk : m.arena.term? k = some new) : (m.outcome (.replace i j k)).1 = .ok [t.replace x new] := by
  unfold outcome Operation.results
  rw [Building.run_bind_ok (Building.Reads.term hi _), Building.run_bind_ok (Building.Reads.term hj _),
    Building.run_bind_ok (Building.Reads.term hk _)]
  rfl

/-- Replacing a variable or a register cell is substitution. In a manager, after any operations on it, the handle of a
term with the symbol replaced is the one that instantiating the symbol returns, at once or later, unless the symbol is
replaced by its negation and the term has this negation too. Then it is another one. -/
theorem replace_is_substitution (hm : m.arena.IsManaged) (hi : m.arena.term? i = some t)
    (hj : m.arena.term? j = some x) (hk : m.arena.term? k = some new) (hx : x.isSymbol = true) :
    ∃ r, (m.perform (.replace i j k)).1 = .ok [r] ∧
      (m.perform (.replace i j k)).2.arena.term? r = some (t.replace x new) ∧
      ∀ later, ∃ r', (((m.perform (.replace i j k)).2.run later).2.perform (.instantiate i [(j, k)])).1 = .ok [r'] ∧
        (r' = r ↔ ¬(new = .not x ∧ .not x ∈ t.subterms)) := by
  obtain ⟨ts, hts⟩ := hm.exists_holds
  obtain ⟨us, r, hus, hmore, hreturned, hr⟩ := exists_handle hts (outcome_replace hi hj hk)
  refine ⟨r, hreturned, (hus.term?_eq r).trans hr, fun later => ?_⟩
  obtain ⟨vs, hvs, hmore', -⟩ := holds_run hus later
  have hkept : ∀ {l : Nat} {u : Term}, m.arena.term? l = some u →
      ((m.perform (.replace i j k)).2.run later).2.arena.term? l = some u := by
    intro l u hl
    rw [hts.term?_eq] at hl
    rw [hvs.term?_eq]
    exact termAt_mono hmore' (termAt_mono hmore hl)
  have hbound : ((m.perform (.replace i j k)).2.run later).2.arena.DenoteBindings [(j, k)] [(x, new)] :=
    .cons ⟨hkept hj, hkept hk⟩ .nil
  obtain ⟨ws, r', hws, hmore'', hreturned', hr'⟩ := exists_handle hvs (outcome_instantiate (hkept hi) hbound)
  have hnormal : t.IsNormal := property_run Term.isHereditary_isNormal hm [] hi
  have hnew : new.IsNormal := property_run Term.isHereditary_isNormal hm [] hk
  have hreplaced : termAt ws r = some (t.replace x new) := termAt_mono hmore'' (termAt_mono hmore' hr)
  refine ⟨r', hreturned', ?_⟩
  rw [← Term.replace_eq_instantiate_iff hx hnormal hnew]
  constructor
  · rintro rfl
    exact Option.some.inj (hreplaced.symm.trans hr')
  · intro h
    rw [← h] at hr'
    exact termAt_inj hws.terms_nodup hr' hreplaced

/-- A negated register next to the cell that it points to, and what the register is replaced by: the negation of a
conjunction with the register in it. -/
def negatedPointer : List Operation :=
  [.reg "r1" 0 0, .negate 4, .mem 4, .const 0, .eq 6 7, .conj [5, 8], .var "a", .conj [4, 10], .negate 11]

/-- The two negations cancel, and the conjunctions become one. -/
theorem replace_is_substitution_negatedPointer :
    ∃ created, Manager.new 0 = .ok created ∧ (created.run negatedPointer).2.arena.IsManaged ∧
      (created.run negatedPointer).2.arena.term? 9 =
        some (.and [.not (.reg "r1" 0 0), .eq (.mem (.reg "r1" 0 0)) (.const 0)]) ∧
      (created.run negatedPointer).2.arena.term? 12 = some (.not (.and [.reg "r1" 0 0, .var "a"])) ∧
      ∃ r, ((created.run negatedPointer).2.perform (.replace 9 4 12)).1 = .ok [r] ∧
        ((created.run negatedPointer).2.perform (.replace 9 4 12)).2.arena.term? r = some
          (.and [.reg "r1" 0 0, .var "a", .eq (.mem (.not (.and [.reg "r1" 0 0, .var "a"]))) (.const 0)]) ∧
        ∀ later, ((((created.run negatedPointer).2.perform (.replace 9 4 12)).2.run later).2.perform
          (.instantiate 9 [(4, 12)])).1 = .ok [r] := by
  have hterms : (Manager.new 0).map (fun created =>
      ((created.run negatedPointer).2.arena.term? 9, (created.run negatedPointer).2.arena.term? 4,
        (created.run negatedPointer).2.arena.term? 12)) =
      .ok (some (.and [.not (.reg "r1" 0 0), .eq (.mem (.reg "r1" 0 0)) (.const 0)]), some (.reg "r1" 0 0),
        some (.not (.and [.reg "r1" 0 0, .var "a"]))) := by
    decide +kernel
  have hreplaced : (Term.and [.not (.reg "r1" 0 0), .eq (.mem (.reg "r1" 0 0)) (.const 0)]).replace (.reg "r1" 0 0)
      (.not (.and [.reg "r1" 0 0, .var "a"])) =
        .and [.reg "r1" 0 0, .var "a", .eq (.mem (.not (.and [.reg "r1" 0 0, .var "a"]))) (.const 0)] := by
    cbv
  obtain ⟨created, hcreated, hterms⟩ := Except.exists_of_map_eq_ok hterms
  obtain ⟨hi, hterms⟩ := Prod.mk.inj hterms
  obtain ⟨hj, hk⟩ := Prod.mk.inj hterms
  have hmanaged : (created.run negatedPointer).2.arena.IsManaged := ⟨0, created, negatedPointer, hcreated, rfl⟩
  obtain ⟨r, hr, hterm, hlater⟩ := replace_is_substitution hmanaged hi hj hk rfl
  refine ⟨created, hcreated, hmanaged, hi, hk, r, hr, hreplaced ▸ hterm, fun later => ?_⟩
  obtain ⟨r', hr', hsame⟩ := hlater later
  obtain rfl := hsame.2 fun h => by cases h.1
  exact hr'

end Manager
end Backslice
