import Backslice.Proofs.ContextGrowth
import Backslice.Proofs.FlatSet
import Backslice.Proofs.StoreElements

/-!
# The effect of an assignment, element by element

What a flattened set becomes in front of an assignment is said here without the
placeholders, the case trees and the normal forms by which it is computed. In
front of the assignment of a register, the register becomes what the value
depends on, and in every other element the value is substituted for it. In front
of a store, a watched cell is looked at under every choice of what the reads
outermost in its address yield, the stored value or what they yielded before.
The choices are independent of each other, and those are left out that
simplification decides. Where the two addresses may be equal, what the value
depends on is watched, and where they may differ, the cell.

A set of simplified elements in which an assigned register does not occur is
left as it is, down to the order of its elements.
-/

namespace Backslice

open Term ConditionalSet

namespace Term

/-- An expression with another one in the places of a register. -/
def substitute (t r v : Term) : Term :=
  match t with
  | .reg n o s => if .reg n o s = r then v else .reg n o s
  | .mem a => .mem (a.substitute r v)
  | .unary op a => .unary op (a.substitute r v)
  | .binary op a b => .binary op (a.substitute r v) (b.substitute r v)
  | t => t

theorem replace_eq_substitute {r : Term} (hr : r.isRegister = true) (v : Term) {t : Term} (ht : t.IsWord) :
    t.replace r v = t.substitute r v := by
  induction t using inductionOnChildren with
  | step t ih =>
      have child : ∀ c ∈ t.children, c.replace r v = c.substitute r v := fun c hc => ih c hc (ht.child hc)
      cases t with
      | const w | var n =>
          refine replace_of_not_mem fun h => ?_
          rw [List.mem_singleton.1 h] at hr
          exact Bool.false_ne_true hr
      | reg n o s =>
          rw [substitute]
          split
          next h => rw [h, replace_register_self hr]
          next h => exact replace_of_not_mem fun hmem => h (List.mem_singleton.1 hmem).symm
      | mem a => rw [replace_register_mem hr, substitute, child a (by simp [children])]
      | unary op a => rw [replace_register_unary hr, substitute, child a (by simp [children])]
      | binary op a b =>
          rw [replace_register_binary hr, substitute, child a (by simp [children]), child b (by simp [children])]
      | _ => exact absurd ht.isExpression Bool.false_ne_true

/-- The expressions that an expression may stand for after `value` was stored at `address`: each of its outermost
reads of memory yields the value or stays, unless the other is known. -/
def aliasChoices (t address value : Term) : List Term :=
  match t with
  | .mem x =>
      (if (Term.eq address x).simplify = .bool false then [] else [value]) ++
        if (Term.eq address x).simplify = .bool true then [] else [.mem x]
  | .unary op a => (a.aliasChoices address value).map (.unary op)
  | .binary op a b =>
      (a.aliasChoices address value).flatMap fun a' => (b.aliasChoices address value).map (.binary op a')
  | t => [t]

end Term

namespace Cases

@[simp]
theorem feasible_leaf {t u : Term} : (leaf t).Feasible u ↔ u = t := by
  constructor
  · rintro ⟨⟩
    rfl
  · rintro rfl
    exact .leaf u

@[simp]
theorem feasible_split {c t : Term} {p q : Cases} :
    (split c p q).Feasible t ↔
      (c.simplify ≠ .bool false ∧ p.Feasible t) ∨ (c.simplify ≠ .bool true ∧ q.Feasible t) := by
  constructor
  · intro h
    cases h with
    | positive hc h => exact Or.inl ⟨hc, h⟩
    | negative hc h => exact Or.inr ⟨hc, h⟩
  · rintro (⟨hc, h⟩ | ⟨hc, h⟩)
    · exact .positive hc h
    · exact .negative hc h

theorem feasible_map {f : Term → Term} {cases : Cases} {t : Term} :
    (cases.map f).Feasible t ↔ ∃ u, cases.Feasible u ∧ f u = t := by
  induction cases with
  | leaf u => simp [map, eq_comm]
  | split c p q ihp ihq =>
      simp only [map, feasible_split, ihp, ihq, or_and_right, exists_or, and_assoc, exists_and_left]

theorem feasible_combine {f : Term → Term → Term} {cases other : Cases} {t : Term} :
    (cases.combine f other).Feasible t ↔ ∃ u, cases.Feasible u ∧ ∃ w, other.Feasible w ∧ f u w = t := by
  induction cases with
  | leaf u => simp [combine, feasible_map]
  | split c p q ihp ihq =>
      simp only [combine, feasible_split, ihp, ihq, or_and_right, exists_or, and_assoc, exists_and_left]

end Cases

theorem Term.mem_aliasChoices {e a v t : Term} : t ∈ e.aliasChoices a v ↔ (e.readCases a v).Feasible t := by
  induction e using inductionOnChildren generalizing t with
  | step e ih =>
      cases e with
      | mem x => simp [aliasChoices, readCases]
      | unary op b =>
          rw [aliasChoices, readCases, Cases.feasible_map, List.mem_map]
          simp only [ih b (by simp [children])]
      | binary op b c =>
          rw [aliasChoices, readCases, Cases.feasible_combine, List.mem_flatMap]
          simp only [List.mem_map, ih b (by simp [children]), ih c (by simp [children])]
      | _ => simp [aliasChoices, readCases]

/-- What an element behind an assignment comes from in front of it. -/
def Statement.origins (location value element : Term) : List Term :=
  match location, element with
  | .mem a, .mem x =>
      (x.aliasChoices a value).flatMap fun y =>
        (if (Term.eq a y).simplify = .bool false then [] else value.dependencies.map simplify) ++
          if (Term.eq a y).simplify = .bool true then [] else [(Term.mem y).simplify]
  | .mem _, register => [register]
  | register, element =>
      if element = register then value.dependencies.map simplify else [(element.substitute register value).simplify]

/-- The origins of an element are the elements of the set in front of the assignment that come from it. -/
theorem Statement.mem_elementsBefore_iff_origins {location value m l : Term} (hlocation : location.isLvalue = true)
    (hvalue : value.Plain) (hm : m.isLvalue = true) (hword : m.IsWord) :
    l ∈ (Statement.assign location value).elementsBefore m ↔ l ∈ Statement.origins location value m := by
  rcases isLvalue_cases hlocation with hreg | ⟨a, rfl⟩
  · rw [Statement.elementsBefore_register hreg, replace_eq_substitute hreg value hword]
    obtain ⟨n, o, k, rfl⟩ := exists_of_isRegister hreg
    rfl
  · rcases isLvalue_cases hm with hmreg | ⟨x, rfl⟩
    · obtain ⟨n, o, k, rfl⟩ := exists_of_isRegister hmreg
      rfl
    · rw [Statement.mem_elementsBefore_store hvalue, Statement.origins, List.mem_flatMap]
      simp only [mem_aliasChoices, List.mem_append, List.mem_ite_nil_left, List.mem_singleton]
      rfl

namespace ConditionalSet

theorem member_injective : Function.Injective member := fun _ _ h => (Term.eq.inj h).2

namespace IsFlat
variable {s : ConditionalSet} (hs : s.IsFlat)
include hs

theorem disj_disjuncts : disj s.disjuncts = s := by
  rw [disj_of_members hs.members]
  exact (hs.eq_joined.2 ▸ hs.eq_joined.1).symm

theorem map_member_possibleValues : s.possibleValues.map ConditionalSet.member = s.disjuncts := by
  have hatoms : (atoms s).map ConditionalSet.member = s.disjuncts := by
    rw [atoms_eq_of_isSum hs.isSum, List.map_flatMap]
    have hone : ∀ u ∈ s.disjuncts, (atoms u).map ConditionalSet.member = [u] := fun u hu => by
      obtain ⟨e, rfl⟩ := hs.members u hu
      rw [atoms_member, List.map_singleton]
    rw [List.flatMap_congr hone]
    simp
  rw [possibleValues, distinct_eq_eraseDups, ← List.eraseDups_map member_injective, hatoms, hs.eq_joined.2]

theorem flatten_eq : ConditionalSet.flatten s = s := by
  rw [ConditionalSet.flatten, hs.map_member_possibleValues, hs.disj_disjuncts]

theorem simplify_eq (helements : ∀ l ∈ s.possibleValues, l.isLvalue = true ∧ l.simplify = l) : s.simplify = s := by
  have hmember : ∀ u ∈ s.disjuncts, u.simplify = u := fun u hu => by
    obtain ⟨e, rfl⟩ := hs.members u hu
    obtain ⟨hlvalue, hsimple⟩ := helements e (hs.mem_possibleValues_iff.2 hu)
    rw [simplify_member hlvalue, hsimple]
  rcases hs.isSum.cases with rfl | ⟨hsummand, -⟩ | ⟨xs, rfl, -⟩
  · rfl
  · exact hmember s (by rw [disjuncts_of_isSummand hsummand, List.mem_singleton])
  · have hmap : xs.map Term.simplify = xs := by
      conv_rhs => rw [← List.map_id xs]
      exact List.map_congr_left hmember
    rw [Term.simplify, simplifyAll_eq_map, hmap]
    exact hs.disj_disjuncts

theorem disjunctiveForm_eq : s.disjunctiveForm = s := by
  have hclauses : s.clauses false = s.disjuncts.map fun u => [u] := by
    rcases hs.isSum.cases with rfl | ⟨hsummand, e, rfl⟩ | ⟨xs, rfl, hxs⟩
    · rfl
    · rfl
    · have hone : xs.map (clauses · false) = xs.map fun u => [[u]] := by
        refine List.map_congr_left fun u hu => ?_
        obtain ⟨e, rfl⟩ := (hxs u hu).2
        rfl
      have hflatten : (xs.map fun u => [[u]]).flatten = xs.map fun u => [u] := by
        rw [← List.flatMap_def, List.map_eq_flatMap]
      have hinjective : Function.Injective fun u : Term => [u] := fun _ _ h => (List.cons.inj h).1
      have hdistinct : xs.eraseDups = xs := hs.eq_joined.2
      rw [clauses, if_neg Bool.false_ne_true, clausesAll_eq_map, hone, Clause.sum, hflatten, distinctLists_eq_eraseDups,
        List.eraseDups_map hinjective, hdistinct]
      rfl
  have hconj : ∀ u ∈ s.disjuncts, conj [u] = u := fun u hu => by
    obtain ⟨e, rfl⟩ := hs.members u hu
    rfl
  rw [disjunctiveForm, share_eq, hclauses, List.map_map]
  conv_rhs => rw [← hs.disj_disjuncts, ← List.map_id s.disjuncts]
  exact congrArg disj (List.map_congr_left hconj)

theorem normalize_eq (helements : ∀ l ∈ s.possibleValues, l.isLvalue = true ∧ l.simplify = l) (guarded : Bool) :
    normalize s ⟨guarded, true⟩ = s := by
  rw [normalize, simplifyShared_eq_simplify, hs.simplify_eq helements, hs.disjunctiveForm_eq, if_pos rfl, hs.flatten_eq]

theorem isExplicit (helements : ∀ l ∈ s.possibleValues, l.IsLocation) : s.IsExplicit := by
  refine ⟨hs.isSum.1, fun u hu => ⟨(hs.isSum.2 u hu).1, ?_⟩⟩
  obtain ⟨e, rfl⟩ := hs.members u hu
  exact ⟨e, helements e (hs.mem_possibleValues_iff.2 hu), rfl⟩

/-- What occurs in no membership atom of a flat set does not occur in it. -/
theorem not_mem_subterms {u : Term} (hatom : u.isAtom = true)
    (hnot : ∀ l ∈ s.possibleValues, u ∉ (ConditionalSet.member l).subterms) : u ∉ s.subterms := by
  have hmember : ∀ w ∈ s.disjuncts, u ∉ w.subterms := fun w hw => by
    obtain ⟨e, rfl⟩ := hs.members w hw
    exact hnot e (hs.mem_possibleValues_iff.2 hw)
  rcases hs.isSum.cases with rfl | ⟨hsummand, -⟩ | ⟨xs, rfl, -⟩
  · intro h
    rw [List.mem_singleton.1 h] at hatom
    exact Bool.false_ne_true hatom
  · exact hmember s (by rw [disjuncts_of_isSummand hsummand, List.mem_singleton])
  · rw [subterms_eq, List.mem_cons, List.mem_flatMap]
    rintro (rfl | ⟨w, hw, hu⟩)
    · exact Bool.false_ne_true hatom
    · exact hmember w hw hu

theorem beforeRegister_eq {r v hidden : Term} (hr : r.isRegister = true) (hhidden : hidden.IsPlaceholder)
    (helements : ∀ l ∈ s.possibleValues, l.IsLocation ∧ r ∉ l.subterms) : beforeRegister s r v hidden = s := by
  have hmember : ConditionalSet.member r ∉ s.subterms := by
    refine hs.not_mem_subterms rfl fun l hl h => ?_
    obtain ⟨hlocation, hnot⟩ := helements l hl
    rcases mem_subterms_member.1 h with heq | heq | h
    · exact hnot (member_injective heq ▸ mem_subterms_self r)
    · cases heq
    · exact member_not_mem hlocation.2 r h
  have hregister : r ∉ s.subterms := by
    obtain ⟨n, o, k, rfl⟩ := exists_of_isRegister hr
    refine hs.not_mem_subterms rfl fun l hl h => ?_
    rcases mem_subterms_member.1 h with heq | heq | h
    · cases heq
    · cases heq
    · exact (helements l hl).2 h
  have hplaceholder : hidden ∉ s.subterms :=
    hs.not_mem_subterms hhidden.isAtom fun l hl => not_mem_subterms_member hhidden (helements l hl).1.2
  rw [beforeRegister, replace_of_not_mem hmember, replace_of_not_mem hregister, replace_of_not_mem hplaceholder]

/-- A set of simplified locations is left as it is by the assignment of a register that does not occur in them. -/
theorem before_eq {arrow : Arrow} {r v : Term} (harrow : arrow.statement = .assign r v) (hr : r.isRegister = true)
    (helements : ∀ l ∈ s.possibleValues, l.IsLocation ∧ l.simplify = l ∧ r ∉ l.subterms) (guarded : Bool)
    (names : Fresh) : s.before ⟨guarded, true⟩ arrow names = .ok (s, (names.take "TMP").2) := by
  have hhidden : (names.take "TMP").1.IsPlaceholder := Fresh.isPlaceholder_take (by simp) names
  have hassign : s.beforeAssignment r v names =
      .ok (beforeRegister s r v (names.take "TMP").1, (names.take "TMP").2) := by
    obtain ⟨n, o, k, rfl⟩ := exists_of_isRegister hr
    rfl
  have hguard : s.underGuard ⟨guarded, true⟩ arrow.guard = s := by
    cases arrow.guard <;> simp [underGuard, Options.keepsGuards]
  rw [hs.beforeRegister_eq hr hhidden fun l hl => ⟨(helements l hl).1, (helements l hl).2.2⟩] at hassign
  rw [before_assign harrow hassign, hguard,
    hs.normalize_eq fun l hl => ⟨(helements l hl).1.1, (helements l hl).2.1⟩]

end IsFlat

/-- Where sets are flattened, the set in front of an assignment is again one of locations, and its elements are the
origins of the elements behind. If these are simplified and do not have the assigned register in them, it is the very
set behind. -/
theorem before_elementwise {s : ConditionalSet} {arrow : Arrow} {location value : Term} (guarded : Bool) (names : Fresh)
    (hflat : s.IsFlat) (helements : ∀ m ∈ s.possibleValues, m.IsLocation ∧ m.IsWord)
    (harrow : arrow.statement = .assign location value) (hlocation : location.IsLocation) (hvalue : value.Plain) :
    ∃ t names', s.before ⟨guarded, true⟩ arrow names = .ok (t, names') ∧ t.IsFlat ∧
      (∀ l ∈ t.possibleValues, l.IsLocation) ∧
      (∀ l, l ∈ t.possibleValues ↔ ∃ m ∈ s.possibleValues, l ∈ Statement.origins location value m) ∧
      (location.isRegister = true → (∀ m ∈ s.possibleValues, m.simplify = m ∧ location ∉ m.subterms) → t = s) := by
  have hexplicit := hflat.isExplicit fun m hm => (helements m hm).1
  have hplain : arrow.statement.IsPlain := by
    rw [harrow]
    exact ⟨hlocation, hvalue⟩
  obtain ⟨t, names', hbefore, ht, hmem⟩ := exists_before_explicit guarded names hexplicit hplain
  refine ⟨t, names', hbefore, hflat.before hbefore, fun l => ht.isLocation, fun l => ?_, fun hr hunrelated => ?_⟩
  · rw [hmem, harrow]
    refine exists_congr fun m => and_congr_right fun hm => ?_
    obtain ⟨hlvalue, hword⟩ := helements m hm
    exact Statement.mem_elementsBefore_iff_origins hlocation.1 hvalue hlvalue.1 hword
  · have hsame := hflat.before_eq harrow hr (fun m hm => ⟨(helements m hm).1, hunrelated m hm⟩) guarded names
    exact (Prod.mk.inj (Except.ok.inj (hbefore.symm.trans hsame))).1

/-- A cell whose address is read from memory, eight bytes on. -/
def fieldOfPointee : Term :=
  .mem (.binary .add (.mem (.reg "p" 0 0)) (.const 8))

/-- This cell and a register. -/
def watchedField : ConditionalSet :=
  .or [member (.reg "s" 0 0), member fieldOfPointee]

/-- The cell may be the one stored to, and so may the pointer to it. -/
def storeAside : Arrow :=
  ⟨⟨0, 0⟩, some (.var "c"), .assign (.mem (.reg "a" 0 0)) (.reg "v" 0 0), .fixed ⟨1, 0⟩⟩

def stepAside : Arrow :=
  ⟨⟨0, 0⟩, none, .assign (.reg "a" 0 0) (.binary .add (.reg "a" 0 0) (.const 1)), .fixed ⟨1, 0⟩⟩

theorem before_elementwise_watchedField :
    watchedField.IsFlat ∧ (∀ m ∈ watchedField.possibleValues, m.IsLocation ∧ m.IsWord) ∧
      (Term.mem (.reg "a" 0 0)).IsLocation ∧ (Term.reg "v" 0 0).Plain ∧
      (∃ t names', watchedField.before ⟨true, true⟩ storeAside ⟨0⟩ = .ok (t, names') ∧
        ∀ l, l ∈ t.possibleValues ↔ l ∈ [.reg "s" 0 0, .reg "v" 0 0,
          .mem (.binary .add (.reg "v" 0 0) (.const 8)), fieldOfPointee]) ∧
      (Term.reg "a" 0 0).IsLocation ∧ (Term.binary .add (.reg "a" 0 0) (.const 1)).Plain ∧
      ∃ names', watchedField.before ⟨true, true⟩ stepAside ⟨0⟩ = .ok (watchedField, names') := by
  have hflat : watchedField.IsFlat :=
    ⟨[member (.reg "s" 0 0), member fieldOfPointee], by simp, by cbv⟩
  have hvalues : watchedField.possibleValues = [.reg "s" 0 0, fieldOfPointee] := by cbv
  have helements : ∀ m ∈ watchedField.possibleValues, m.IsLocation ∧ m.IsWord := by
    rw [hvalues]
    simp only [List.forall_mem_cons]
    exact ⟨⟨⟨rfl, by decide⟩, by decide⟩, ⟨⟨rfl, by decide⟩, by decide⟩, List.forall_mem_nil _⟩
  have haddress : (Term.mem (.reg "a" 0 0)).IsLocation := ⟨rfl, by decide⟩
  have hstored : (Term.reg "v" 0 0).Plain := by decide
  have hregister : (Term.reg "a" 0 0).IsLocation := ⟨rfl, by decide⟩
  have hstep : (Term.binary .add (.reg "a" 0 0) (.const 1)).Plain := by decide
  have hstoreAside : storeAside.statement = .assign (.mem (.reg "a" 0 0)) (.reg "v" 0 0) := rfl
  have hstepAside : stepAside.statement = .assign (.reg "a" 0 0) (.binary .add (.reg "a" 0 0) (.const 1)) := rfl
  obtain ⟨t, names', hbefore, -, -, horigins, -⟩ :=
    before_elementwise true ⟨0⟩ hflat helements hstoreAside haddress hstored
  obtain ⟨u, names'', hkept, -, -, -, hsame⟩ :=
    before_elementwise true ⟨0⟩ hflat helements hstepAside hregister hstep
  have hunrelated : ∀ m ∈ watchedField.possibleValues, m.simplify = m ∧ Term.reg "a" 0 0 ∉ m.subterms := by
    rw [hvalues]
    simp only [List.forall_mem_cons]
    exact ⟨⟨by cbv, by decide⟩, ⟨by cbv, by decide⟩, List.forall_mem_nil _⟩
  refine ⟨hflat, helements, haddress, hstored, ⟨t, names', hbefore, fun l => ?_⟩, hregister, hstep, names'', ?_⟩
  · have hregisterOrigins :
        Statement.origins (.mem (.reg "a" 0 0)) (.reg "v" 0 0) (.reg "s" 0 0) = [.reg "s" 0 0] := rfl
    have hcellOrigins : Statement.origins (.mem (.reg "a" 0 0)) (.reg "v" 0 0) fieldOfPointee =
        [.reg "v" 0 0, .mem (.binary .add (.reg "v" 0 0) (.const 8)), .reg "v" 0 0, fieldOfPointee] := by cbv
    rw [horigins, hvalues]
    simp only [List.exists_mem_cons_iff, hregisterOrigins, hcellOrigins]
    simp only [List.mem_cons, List.not_mem_nil, false_and, exists_false, or_false]
    tauto
  · rw [hkept, hsame rfl hunrelated]

end ConditionalSet
end Backslice
