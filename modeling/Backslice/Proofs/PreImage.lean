import Backslice.Proofs.Execution
import Backslice.Proofs.SetMeaning

/-!
# Sets before an arrow are pre-images

A conditional set speaks of a state of the machine and of a set of watched
locations: its membership atoms say what is watched, and all other atoms are
read in the state. Where sets are not flattened, the set before an arrow says of
the state and the watched locations before the statement what the set behind the
arrow says of those after it, and that the guard holds, if guards are kept.

After a register has been assigned, it is watched if something is that the value
depends on, and another location is if it is after replacing the register by the
value. After a store this holds of cells at the stored address.

Membership is read up to simplification, because the set before an arrow is
simplified. The formulas are well-sorted. No register cell in them shares bits
with the assigned one without being it, and before a store no address in them
reads memory.
-/

namespace Backslice

open Term ConditionalSet

/-- The locations watched behind a statement, where those before it are given. -/
def Statement.watchedAfter (z : ZeroDivision) (s : Valuation) (watched : Term → Prop) : Statement → Term → Prop
  | .assign (.mem a) v, .mem x =>
      (a.value z s = x.value z s ∧ ∃ d ∈ v.dependencies, watched d) ∨
        (a.value z s ≠ x.value z s ∧ watched (.mem x))
  | .assign (.mem _) _, l => watched l
  | .assign r v, l => (l = r ∧ ∃ d ∈ v.dependencies, watched d) ∨ (l ≠ r ∧ watched (l.replace r v))
  | _, l => watched l

namespace ConditionalSet

/-- Whether an assignment can be followed in a set: a register cell read in the set shares no bit with the assigned
one unless it is this one, and at a store no address reads memory. -/
def Separated (set : ConditionalSet) : Statement → Prop
  | .assign (.reg n o k) _ =>
      ∀ u ∈ set.formulaAtoms, u.Plain → ∀ c ∈ u.symbols, (Term.reg n o k).overlaps c = true → c = .reg n o k
  | .assign (.mem _) _ => set.FlatAddresses
  | _ => True

section
variable {z : ZeroDivision} {s s' : Valuation} {watched : Term → Prop} {n : String} {o k : UInt16} {v hidden : Term}

/-- The set before the assignment of a register says what the set behind it says of the state after it. -/
theorem means_beforeRegister {set : ConditionalSet} (hset : IsSet set) (hhidden : hidden.IsPlaceholder)
    (hvw : v.IsWord) (hv : v.Plain) (hexec : Statement.Executes z (.assign (.reg n o k) v) s s')
    (hsep : Separated set (.assign (.reg n o k) v)) :
    Means z s watched (set.beforeRegister (.reg n o k) v hidden) ↔
      Means z s' (Statement.watchedAfter z s watched (.assign (.reg n o k) v)) set := by
  have hr : (Term.reg n o k).isRegister = true := rfl
  rw [Means, (actsOnAtoms_beforeRegister hr hhidden hvw hv set hset).1]
  refine truth_congr fun u hu => ?_
  dsimp only
  have hsub := hsep u hu
  cases hset u hu with
  | @member l hl hw hp =>
      rw [atomMeans_member]
      by_cases hlr : l = .reg n o k
      · rw [hlr, beforeRegister_self hr hhidden, truth_ofList]
        simp [atomMeans_member, Statement.watchedAfter]
      · rw [beforeRegister_member hr hhidden hp hv hlr, member, truth_eq, ← member, atomMeans_member]
        simp [Statement.watchedAfter, hlr]
  | @equality a b ha hb hp =>
      have himage : ((Term.eq a b).replace (.reg n o k) v).Plain := hp.replace hv
      rw [beforeRegister_of_plain hhidden hp hv, ← Means, means_of_plain himage, atomMeans_of_plain hp,
        replace_register_eq hr, holds_eq_iff, holds_eq_iff,
        value_replace_of_executes ha hexec fun c hc => hsub hp c (by simp [hc]),
        value_replace_of_executes hb hexec fun c hc => hsub hp c (by simp [hc])]
  | word hw hp =>
      rw [beforeRegister_of_plain hhidden hp hv, ← Means, means_of_plain (hp.replace hv), atomMeans_of_plain hp,
        holds, holds, value_replace_of_executes hw hexec (hsub hp)]

/-- The case of an expression that is chosen by what the conditions mean. -/
theorem chosen_readCases_means {a p : Term} (ha : a.Plain) (hvw : v.IsWord) (hv : v.Plain) (hpw : p.IsWord)
    (hp : p.Plain) :
    (p.readCases a v).chosen (truth (AtomMeans z s watched)) = (p.readCases a v).chosen (holds z s) := by
  refine Cases.chosen_congr ((forall_readCases_word hvw hv hpw hp).imp ?_ fun _ => id)
  rintro _ ⟨y, rfl, -, hy⟩
  exact means_of_plain ((plain_eq a y).2 ⟨ha, hy⟩)

/-- The set before a store says what the set behind it says of the state after it. -/
theorem means_beforeStore {set : ConditionalSet} {a x tag : Term} (hset : IsSet set) (haw : a.IsWord) (ha : a.Plain)
    (hvw : v.IsWord) (hv : v.Plain) (hx : x.IsPlaceholder) (htag : tag.IsPlaceholder) (hxtag : x ≠ tag)
    (hexec : Statement.Executes z (.assign (.mem a) v) s s') (hsep : Separated set (.assign (.mem a) v)) :
    Means z s watched (set.beforeStore a v x tag) ↔
      Means z s' (Statement.watchedAfter z s watched (.assign (.mem a) v)) set := by
  cases hexec with
  | store =>
      have hflat : ∀ u ∈ set.formulaAtoms, IsFlatAtom u := fun u hu =>
        ⟨hset u hu, fun w hw => hsep w (mem_subterms_trans (mem_subterms_of_mem_formulaAtoms hu) hw)⟩
      rw [Means,
        (actsOnAtoms_beforeStore haw ha hvw hv hx htag hxtag set hflat).1]
      -- Both sides are readings of one formula, so it is enough to compare them atom by atom.
      refine truth_congr fun u hu => ?_
      dsimp only
      have hvalue : ∀ p : Term, p.IsWord → p.FlatAddresses → ((p.readCases a v).chosen (holds z s)).value z s =
          p.value z { s with memory := fun b => if b = a.value z s then v.value z s else s.memory b } := by
        intro p hp hflat
        refine value_chosen_readCases ?_ ?_ ?_ hp hflat <;> rfl
      have huflat := (hflat u hu).2
      cases hset u hu with
      | @member l hl hw hp =>
          rw [atomMeans_member]
          rcases isLvalue_cases hl with hreg | ⟨y, rfl⟩
          · rw [beforeStore_register hx htag hxtag hreg, member, truth_eq, ← member,
              atomMeans_member]
            obtain ⟨n, o, k, rfl⟩ := exists_of_isRegister hreg
            rfl
          · have hy := (plain_mem y).1 hp
            have haddress : (Term.mem y).FlatAddresses := huflat.child (by simp [member, children])
            have hcase : AtomMeans z s watched (.eq a y) ↔ a.value z s = y.value z s := by
              rw [atomMeans_of_plain ((plain_eq a y).2 ⟨ha, hy⟩), holds_eq_iff]
            rw [beforeStore_mem ha hv hx htag hxtag hy, readCases_of_forall haddress.address, Cases.map,
              Cases.toTerm, resolve, truth_ite, truth_eq, hcase, truth_ofList, member, truth_eq, ← member]
            simp only [atomMeans_member, Statement.watchedAfter]
      | @equality p q hpw hqw hpq =>
          obtain ⟨hp, hq⟩ := (plain_eq p q).1 hpq
          have hsplit : ((Term.eq p q).splitAliases a v).1.Plain := by
            rw [splitAliases_eq]
            exact Cases.plain_toTerm ((forall_readCases_plain ha hv hp).combine (forall_readCases_plain ha hv hq)
              fun t u ht hu => (plain_eq t u).2 ⟨ht, hu⟩)
          have hpcase := ((forall_readCases_word (a := a) hvw hv hpw hp).chosen (holds z s)).2
          have hqcase := ((forall_readCases_word (a := a) hvw hv hqw hq).chosen (holds z s)).2
          rw [beforeStore_of_plain hx htag hxtag hpq hsplit, splitAliases_eq, Cases.truth_toTerm,
            Cases.chosen_combine, chosen_readCases_means ha hvw hv hpw hp, chosen_readCases_means ha hvw hv hqw hq,
            truth_eq, atomMeans_of_plain ((plain_eq _ _).2 ⟨hpcase, hqcase⟩), holds_eq_iff, atomMeans_of_plain hpq,
            holds_eq_iff, hvalue p hpw (huflat.child (by simp [children])),
            hvalue q hqw (huflat.child (by simp [children]))]
      | word hw hp =>
          have hsplit : (u.splitAliases a v).1.Plain := by
            rw [splitAliases_of_isExpression hw.isExpression]
            exact Cases.plain_toTerm (forall_readCases_plain ha hv hp)
          have hcase := ((forall_readCases_word (a := a) hvw hv hw hp).chosen (holds z s)).2
          rw [beforeStore_of_plain hx htag hxtag hp hsplit, splitAliases_of_isExpression hw.isExpression,
            Cases.truth_toTerm, chosen_readCases_means ha hvw hv hw hp, ← Means, means_of_plain hcase,
            atomMeans_of_plain hp, holds, holds, hvalue u hw huflat]

end

theorem atoms_underGuard {set : ConditionalSet} {options : Options} {guard : Option Term} (hset : IsSet set)
    (hguard : ∀ g ∈ guard, g.IsFormula ∧ g.Plain) :
    ∀ u ∈ (set.underGuard options guard).formulaAtoms, IsSetAtom u ∨ (u.IsFormula ∧ u.Plain) := by
  intro u hu
  cases guard with
  | none => exact Or.inl (hset u hu)
  | some g =>
      rw [underGuard] at hu
      split at hu
      next =>
        obtain ⟨t, ht, hu⟩ := collects_formulaAtoms.exists_of_conj hu
        rcases List.mem_cons.1 ht with rfl | ht
        · rw [collects_formulaAtoms.asFormula] at hu
          obtain ⟨hg, hp⟩ := hguard g rfl
          exact Or.inr ⟨hg.of_mem_formulaAtoms hu, hp.of_mem_subterms (mem_subterms_of_mem_formulaAtoms hu)⟩
        · rw [List.mem_singleton.1 ht] at hu
          exact Or.inl (hset u hu)
      next => exact Or.inl (hset u hu)

end ConditionalSet

/-- Whether an assignment is to a location, from a value, both well-sorted and plain. -/
def Statement.IsWellSorted : Statement → Prop
  | .assign l v => l.isLvalue = true ∧ l.IsWord ∧ l.Plain ∧ v.IsWord ∧ v.Plain
  | _ => True

/-- Whether the statement and the guard of an arrow are well-sorted and plain. -/
structure Arrow.IsWellSorted (arrow : Arrow) : Prop where
  statement : arrow.statement.IsWellSorted
  guard : ∀ g ∈ arrow.guard, g.IsFormula ∧ g.Plain

namespace ConditionalSet

/-- Before an assignment, a set is made of what becomes of its atoms, and says what it says behind. -/
theorem exists_beforeAssignment {set : ConditionalSet} {l v : Term} (names : Fresh) (hset : IsSet set)
    (hsorted : (Statement.assign l v).IsWellSorted) (hsep : Separated set (.assign l v)) :
    ∃ t names', set.beforeAssignment l v names = .ok (t, names') ∧ IsSet t ∧
      ∀ {z : ZeroDivision} {s s' : Valuation} {watched : Term → Prop}, (Statement.assign l v).Executes z s s' →
        (Means z s watched t ↔ Means z s' (Statement.watchedAfter z s watched (.assign l v)) set) := by
  obtain ⟨hl, hlw, hlp, hvw, hvp⟩ := hsorted
  rcases isLvalue_cases hl with hreg | ⟨a, rfl⟩
  · obtain ⟨n, o, k, rfl⟩ := exists_of_isRegister hreg
    have hhidden : (names.take "TMP").1.IsPlaceholder := Fresh.isPlaceholder_take (by simp) names
    exact ⟨_, _, rfl, (actsOnAtoms_beforeRegister hreg hhidden hvw hvp set hset).2,
      fun hexec => means_beforeRegister hset hhidden hvw hvp hexec hsep⟩
  · obtain ⟨haw, ha⟩ := And.intro ((isWord_mem a).1 hlw) ((plain_mem a).1 hlp)
    have hx : (names.take "X").1.IsPlaceholder := Fresh.isPlaceholder_take (by simp) names
    have htag : ((names.take "X").2.take "ELT_ADDR").1.IsPlaceholder := Fresh.isPlaceholder_take (by simp) _
    have hxtag : (names.take "X").1 ≠ ((names.take "X").2.take "ELT_ADDR").1 := Fresh.take_ne (by simp) names
    have hflat : ∀ u ∈ set.formulaAtoms, IsFlatAtom u := fun u hu =>
      ⟨hset u hu, fun w hw => hsep w (mem_subterms_trans (mem_subterms_of_mem_formulaAtoms hu) hw)⟩
    exact ⟨_, _, rfl, (actsOnAtoms_beforeStore haw ha hvw hvp hx htag hxtag set hflat).2,
      fun hexec => means_beforeStore hset haw ha hvw hvp hx htag hxtag hexec hsep⟩

/-- Where sets are not flattened, the set before an arrow says of the state and the watched
locations before the statement what the set behind it says of those after it, and that the guard holds, if
guards are kept. -/
theorem means_before {set : ConditionalSet} {arrow : Arrow} (guarded : Bool) (names : Fresh) (hset : IsSet set)
    (hsorted : arrow.IsWellSorted) (hsep : Separated set arrow.statement) :
    ∃ t names', set.before ⟨guarded, false⟩ arrow names = .ok (t, names') ∧
      ∀ (z : ZeroDivision) (s s' : Valuation) (watched : Term → Prop),
        (∀ l : Term, l.isLvalue = true → (watched l.simplify ↔ watched l)) → arrow.statement.Executes z s s' →
        (Means z s watched t ↔
          Means z s' (arrow.statement.watchedAfter z s watched) set ∧
            (guarded = true → ∀ g ∈ arrow.guard, g.holds z s)) := by
  obtain ⟨source, guard, statement, target⟩ := arrow
  have hguard : ∀ g ∈ guard, g.IsFormula ∧ g.Plain := hsorted.guard
  have hplain : ∀ g ∈ guard, g.Plain := fun g hg => (hguard g hg).2
  cases statement with
  | assign l v =>
      obtain ⟨t, names', hbefore, ht, hmeans⟩ := exists_beforeAssignment names hset hsorted.statement hsep
      refine ⟨_, names', before_assign rfl hbefore, fun z s s' watched hwatched hexec => ?_⟩
      rw [means_normalize (atoms_underGuard ht hguard) hwatched, means_underGuard hplain, hmeans hexec]
  | jump | skip =>
      refine ⟨_, names, rfl, fun z s s' watched _ hexec => ?_⟩
      cases hexec
      exact means_underGuard hplain
  | external name =>
      refine ⟨_, names, rfl, fun z s s' watched _ hexec => ?_⟩
      cases hexec
      exact means_underGuard hplain

/-- A cell is watched unless another one holds 5. -/
def watchedUnless : ConditionalSet :=
  .ite (.eq (.mem (.var "p")) (.const 5)) (.bool false) (member (.mem (.var "x")))

/-- A store that may hit both cells, under a guard. -/
def guardedStore : Arrow :=
  ⟨⟨0, 0⟩, some (.var "g"), .assign (.mem (.var "q")) (.mem (.var "y")), .fixed ⟨1, 0⟩⟩

/-- All variables hold 1, and all of memory holds 7. -/
def onesAndSevens : Valuation :=
  ⟨fun _ => 1, fun _ _ _ => 0, fun _ => 7⟩

theorem means_before_guardedStore :
    watchedUnless.IsSet ∧ guardedStore.IsWellSorted ∧ watchedUnless.Separated guardedStore.statement ∧
      ∃ t names', watchedUnless.before ⟨true, false⟩ guardedStore ⟨0⟩ = .ok (t, names') ∧
        (Means (fun _ _ => 0) onesAndSevens (·.isMemoryCell = true) t ↔
          Means (fun _ _ => 0) { onesAndSevens with memory := fun b => if b = 1 then 7 else 7 }
              (guardedStore.statement.watchedAfter (fun _ _ => 0) onesAndSevens (·.isMemoryCell = true))
              watchedUnless ∧
            (true = true → ∀ g ∈ guardedStore.guard, g.holds (fun _ _ => 0) onesAndSevens)) := by
  have hset : watchedUnless.IsSet := by
    intro u hu
    have hatoms : u = .eq (.mem (.var "p")) (.const 5) ∨ u = member (.mem (.var "x")) := by
      simpa [watchedUnless, formulaAtoms_eq, isAtom, children, member] using hu
    rcases hatoms with rfl | rfl
    · exact .equality (by decide) (by decide) (by decide)
    · exact .member rfl (by decide) (by decide)
  have harrow : guardedStore.IsWellSorted :=
    ⟨⟨rfl, by decide, by decide, by decide, by decide⟩, fun g hg => by
      obtain rfl := Option.some.inj hg
      exact ⟨isWord_var "g", by decide⟩⟩
  have hsep : watchedUnless.Separated guardedStore.statement := by
    simp [Separated, guardedStore, watchedUnless, FlatAddresses, subterms, member, marker, cellAddress?, isMemoryCell]
  refine ⟨hset, harrow, hsep, ?_⟩
  obtain ⟨t, names', hbefore, hmeans⟩ := means_before true ⟨0⟩ hset harrow hsep
  refine ⟨t, names', hbefore, hmeans _ _ _ _ (fun l hl => ?_) .store⟩
  rcases isLvalue_cases hl with hreg | ⟨a, rfl⟩
  · rw [isRegister_simplify hreg]
  · exact ⟨fun _ => rfl, fun _ => rfl⟩

end ConditionalSet
end Backslice
