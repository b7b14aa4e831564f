import Backslice.Proofs.HandleIndependence
import Backslice.Proofs.SubtermAgreement
import Mathlib

/-!
# Splitting on aliases is executing the store

A formula split on the aliases of an address says in front of a store to this
address what the formula says behind the store. At an atom the chosen case has
the value that the atom gets, and connectives are put together from what was
split. Under a quantifier another word is bound on both sides of the store. This
leaves the store as it is if neither its address nor the stored value reads the
bound variable.

The splits of an expression are lifted to the formula around it: the leaves of a
tree of cases are the expression with some of its reads exchanged, and the
conditions compare addresses, so that no conditional comes to stand below an
operator. In a well-sorted formula every memory cell is found, and where there is
none the formula is returned as it is.
-/

namespace Backslice

open Term

namespace Cases

theorem isSplit_map (f : Term → Term) (cases : Cases) : (cases.map f).isSplit = cases.isSplit := by
  cases cases <;> rfl

theorem isSplit_combine (f : Term → Term → Term) (cases other : Cases) :
    (cases.combine f other).isSplit = (cases.isSplit || other.isSplit) := by
  cases cases with
  | leaf t => exact (isSplit_map (f t) other).trans (Bool.false_or _).symm
  | split c l r => rfl

/-- A tree of cases holds in a valuation if the case does that the valuation chooses. -/
theorem holds_toTerm {z : ZeroDivision} {s : Valuation} (cases : Cases) :
    cases.toTerm.holds z s ↔ (cases.chosen (holds z s)).holds z s := by
  have hatoms : truth (holds z s) = holds z s := funext fun t => propext (truth_holds z s t)
  rw [← truth_holds, truth_toTerm, hatoms]

end Cases

namespace Term

/-- Whether no quantifier in a term binds anything that occurs in the other term. -/
def BindsNoneOf (t u : Term) : Prop :=
  ∀ q x body, .quantified q x body ∈ t.subterms → x ∉ u.subterms

theorem BindsNoneOf.child {t c u : Term} (h : t.BindsNoneOf u) (hc : c ∈ t.children) : c.BindsNoneOf u :=
  fun q x body hmem => h q x body (mem_subterms_of_mem_children hc hmem)

theorem value_bind_of_not_mem {z : ZeroDivision} {t x : Term} (ht : t.IsWord) (hx : x ∉ t.subterms) (s : Valuation)
    (w : UInt64) : t.value z (s.bind x w) = t.value z s := by
  induction t using inductionOnChildren with
  | step t ih =>
      have child : ∀ c ∈ t.children, c.value z (s.bind x w) = c.value z s := fun c hc =>
        ih c hc (ht.child hc) fun h => hx (mem_subterms_of_mem_children hc h)
      cases t with
      | var n =>
          cases x with
          | var m =>
              have hne : n ≠ m := by
                rintro rfl
                exact hx (mem_subterms_self _)
              simp [value, Valuation.bind, hne]
          | _ => rfl
      | const c => rfl
      | reg n o k => simp [value]
      | mem a => simp [value, child a (by simp [children])]
      | unary op a => simp [value, child a (by simp [children])]
      | binary op a b => simp [value, child a (by simp [children]), child b (by simp [children])]
      | _ => exact absurd ht.isExpression (by simp [isExpression])

end Term

section
variable {z : ZeroDivision} {a v : Term} {s s' : Valuation}

/-- A store that does not read a variable is the same store when another word is bound to it. -/
theorem Statement.Executes.bind_store (hexec : Executes z (.assign (.mem a) v) s s') (ha : a.IsWord) (hv : v.IsWord)
    {x : Term} (hxa : x ∉ a.subterms) (hxv : x ∉ v.subterms) (w : UInt64) :
    Executes z (.assign (.mem a) v) (s.bind x w) (s'.bind x w) := by
  cases hexec with
  | store =>
      have hbound : ({ s with memory := fun b => if b = a.value z s then v.value z s else s.memory b } :
          Valuation).bind x w =
            { s.bind x w with
              memory := fun b => if b = a.value z (s.bind x w) then v.value z (s.bind x w)
                else (s.bind x w).memory b } := by
        rw [value_bind_of_not_mem ha hxa, value_bind_of_not_mem hv hxv]
        cases x <;> rfl
      rw [hbound]
      exact .store

namespace Term

/-- The chosen case of an expression has in front of a store the value of the expression behind it. -/
theorem value_chosen_of_executes (hexec : Statement.Executes z (.assign (.mem a) v) s s') {e : Term} (he : e.IsWord)
    (hflat : e.FlatAddresses) : ((e.readCases a v).chosen (holds z s)).value z s = e.value z s' := by
  have hvars : s'.vars = s.vars := hexec.vars
  have hcells : s'.cells = s.cells := by
    cases hexec
    rfl
  have hmemory : s'.memory = fun b => if b = a.value z s then v.value z s else s.memory b := by
    cases hexec
    rfl
  exact value_chosen_readCases hvars hcells hmemory he hflat

theorem splitAliases_quantified (q : Quantifier) (x body : Term) :
    (quantified q x body).splitAliases a v =
      (.quantified q x (body.splitAliases a v).1, (body.splitAliases a v).2) := rfl

/-- The split formula says in front of a store what the formula says behind it. -/
theorem holds_splitAliases (ha : a.IsWord) (hv : v.IsWord) {t : Term} (ht : t.IsFormula) (hflat : t.FlatAddresses)
    (hfreeAddress : t.BindsNoneOf a) (hfreeValue : t.BindsNoneOf v) :
    ∀ {s s' : Valuation}, Statement.Executes z (.assign (.mem a) v) s s' →
      ((t.splitAliases a v).1.holds z s ↔ t.holds z s') := by
  induction t using inductionOnChildren with
  | step t ih =>
      intro s s' hexec
      have child : ∀ c ∈ t.children, c.IsFormula → ∀ {s s' : Valuation},
          Statement.Executes z (.assign (.mem a) v) s s' → ((c.splitAliases a v).1.holds z s ↔ c.holds z s') :=
        fun c hc hformula => ih c hc hformula (hflat.child hc) (hfreeAddress.child hc) (hfreeValue.child hc)
      by_cases hconnective : t.isAtom = false
      · rw [← truth_holds, ← truth_holds z s' t]
        refine truth_of_isRebuilt hconnective (isRebuilt_splitAliases hconnective) fun c hc => ?_
        rw [truth_holds, truth_holds]
        exact child c hc (ht.child hconnective hc) hexec
      · cases t with
        | eq l r =>
            obtain ⟨hl, hr⟩ := (isFormula_eq_iff l r).1 ht
            have hleft := value_chosen_of_executes hexec hl (hflat.child (by simp [children]))
            have hright := value_chosen_of_executes hexec hr (hflat.child (by simp [children]))
            rw [splitAliases_eq, Cases.holds_toTerm, Cases.chosen_combine, holds_eq_iff, holds_eq_iff, hleft, hright]
        | quantified q x body =>
            have hbody := ((isFormula_quantified_iff q x body).1 ht).2
            -- Under the quantifier the store is the same whatever the variable stands for.
            have hxa : x ∉ a.subterms := hfreeAddress q x body (mem_subterms_self _)
            have hxv : x ∉ v.subterms := hfreeValue q x body (mem_subterms_self _)
            rw [splitAliases_quantified, holds_quantified_iff, holds_quantified_iff]
            refine Quantifier.over_congr fun w => ?_
            exact child body (by simp [children]) hbody (hexec.bind_store ha hv hxa hxv w)
        | var _ | reg _ _ _ | mem _ | unary _ _ | binary _ _ _ =>
            rw [splitAliases_of_isExpression rfl, Cases.holds_toTerm]
            exact not_congr (by rw [value_chosen_of_executes hexec (ht.isWord rfl) hflat])
        | _ => simp [isAtom] at hconnective

end Term
end

namespace Term

variable {a v t : Term}

def isConditional : Term → Bool
  | .ite _ _ _ => true
  | _ => false

/-- Nodes whose operands are words: addresses of memory, operators and equalities. -/
def takesWords : Term → Bool
  | .mem _ | .unary _ _ | .binary _ _ _ | .eq _ _ => true
  | _ => false

/-- Whether a term has no conditional. -/
def NoConditionals (t : Term) : Prop :=
  ∀ u ∈ t.subterms, u.isConditional = false

/-- Whether no conditional stands below an operator, an equality or an address. -/
def LiftedConditionals (t : Term) : Prop :=
  ∀ u ∈ t.subterms, u.takesWords = true → u.NoConditionals

theorem noConditionals_iff (t : Term) :
    t.NoConditionals ↔ t.isConditional = false ∧ ∀ c ∈ t.children, c.NoConditionals :=
  forall_subterms_iff t

theorem liftedConditionals_iff (t : Term) :
    t.LiftedConditionals ↔ (t.takesWords = true → t.NoConditionals) ∧ ∀ c ∈ t.children, c.LiftedConditionals :=
  forall_subterms_iff t

theorem NoConditionals.child {c : Term} (h : t.NoConditionals) (hc : c ∈ t.children) : c.NoConditionals :=
  ((noConditionals_iff t).1 h).2 c hc

theorem NoConditionals.lifted (h : t.NoConditionals) : t.LiftedConditionals :=
  fun _ hu _ w hw => h w (mem_subterms_trans hu hw)

theorem IsWord.noConditionals (h : t.IsWord) : t.NoConditionals := by
  intro u hu
  have hu := h u hu
  cases u <;> first | rfl | exact absurd hu Bool.false_ne_true

theorem LiftedConditionals.child {c : Term} (h : t.LiftedConditionals) (hc : c ∈ t.children) : c.LiftedConditionals :=
  ((liftedConditionals_iff t).1 h).2 c hc

theorem LiftedConditionals.noConditionals (h : t.LiftedConditionals) (ht : t.isExpression = true) :
    t.NoConditionals := by
  have hself := ((liftedConditionals_iff t).1 h).1
  cases t <;> first
    | exact hself rfl
    | exact absurd ht Bool.false_ne_true
    | exact (noConditionals_iff _).2 ⟨rfl, by simp [children]⟩

theorem forall_readCases_noConditionals (hv : v.NoConditionals) {e : Term} (he : e.NoConditionals) :
    (e.readCases a v).Forall (fun c => ∃ x, c = .eq a x ∧ x.NoConditionals) NoConditionals := by
  refine forall_readCases (fun x hx => hx.child (by simp [children])) (fun op t => ?_) (fun op t u => ?_) hv he
  · rw [noConditionals_iff]
    simp [isConditional, children]
  · rw [noConditionals_iff]
    simp [isConditional, children]

theorem noConditionals_eq_iff (t u : Term) : (eq t u).NoConditionals ↔ t.NoConditionals ∧ u.NoConditionals := by
  rw [noConditionals_iff]
  simp [isConditional, children]

theorem lifted_toTerm (ha : a.NoConditionals) {cases : Cases}
    (h : cases.Forall (fun c => ∃ x, c = .eq a x ∧ x.NoConditionals) NoConditionals) :
    cases.toTerm.LiftedConditionals := by
  induction cases with
  | leaf t =>
      have ht : t.NoConditionals := h
      exact ht.lifted
  | split c l r ihl ihr =>
      obtain ⟨⟨x, rfl, hx⟩, hl, hr⟩ := h
      have hcondition : (eq a x).LiftedConditionals := ((noConditionals_eq_iff a x).2 ⟨ha, hx⟩).lifted
      rw [Cases.toTerm, liftedConditionals_iff]
      refine ⟨fun hwords => absurd hwords Bool.false_ne_true, ?_⟩
      simpa [children] using ⟨hcondition, ihl hl, ihr hr⟩

theorem LiftedConditionals.splitAliases (ha : a.NoConditionals) (hv : v.NoConditionals) (h : t.LiftedConditionals) :
    (t.splitAliases a v).1.LiftedConditionals := by
  induction t using inductionOnChildren with
  | step t ih =>
      have child : ∀ c ∈ t.children, (c.splitAliases a v).1.LiftedConditionals := fun c hc => ih c hc (h.child hc)
      have hformula : ∀ u : Term, u.takesWords = false → u.takesWords = true → u.NoConditionals :=
        fun u hu hwords => absurd (hu.symm.trans hwords) Bool.false_ne_true
      by_cases hconnective : t.isAtom = false
      · obtain hnew | ⟨hsame, -⟩ := isRebuilt_splitAliases (a := a) (v := v) hconnective
        · rw [hnew]
          have hbool : ∀ b, (Term.bool b).takesWords = true → (Term.bool b).NoConditionals := fun b => hformula _ rfl
          cases t with
          | not u => exact forall_subterms_negate hbool (fun _ => hformula _ rfl) (child u (by simp [children]))
          | and ts => exact forall_subterms_conj hbool (fun _ => hformula _ rfl) (List.forall_mem_map.2 child)
          | or ts => exact forall_subterms_disj hbool (fun _ => hformula _ rfl) (List.forall_mem_map.2 child)
          | ite c l r => exact (liftedConditionals_iff _).2 ⟨hformula _ rfl, List.forall_mem_map.2 child⟩
          | const _ | bool _ => exact h
          | _ => exact absurd hconnective (by simp [isAtom])
        · rwa [hsame]
      · cases t with
        | eq l r =>
            obtain ⟨hl, hr⟩ := (noConditionals_eq_iff l r).1 (((liftedConditionals_iff _).1 h).1 rfl)
            rw [splitAliases_eq]
            refine lifted_toTerm ha ?_
            exact (forall_readCases_noConditionals hv hl).combine (forall_readCases_noConditionals hv hr)
              fun l' r' hl' hr' => (noConditionals_eq_iff l' r').2 ⟨hl', hr'⟩
        | quantified q x body =>
            have hbound : x.LiftedConditionals := h.child (by simp [children])
            rw [splitAliases_quantified, liftedConditionals_iff]
            exact ⟨hformula _ rfl, by simpa [children] using ⟨hbound, child body (by simp [children])⟩⟩
        | var _ | reg _ _ _ | mem _ | unary _ _ | binary _ _ _ =>
            rw [splitAliases_of_isExpression rfl]
            exact lifted_toTerm ha (forall_readCases_noConditionals hv (h.noConditionals rfl))
        | _ => simp [isAtom] at hconnective

theorem readsMemory_iff (t : Term) : t.ReadsMemory ↔ t.isMemoryCell = true ∨ ∃ c ∈ t.children, c.ReadsMemory := by
  constructor
  · rintro ⟨x, hx⟩
    rw [subterms_eq] at hx
    obtain hself | hbelow := List.mem_cons.1 hx
    · exact Or.inl (hself ▸ rfl)
    · obtain ⟨c, hc, hxc⟩ := List.mem_flatMap.1 hbelow
      exact Or.inr ⟨c, hc, x, hxc⟩
  · rintro (hcell | ⟨c, hc, x, hx⟩)
    · obtain ⟨x, rfl⟩ := exists_of_isMemoryCell hcell
      exact ⟨x, mem_subterms_self _⟩
    · exact ⟨x, mem_subterms_of_mem_children hc hx⟩

theorem isSplit_readCases_iff {e : Term} (he : e.IsWord) : (e.readCases a v).isSplit = true ↔ e.ReadsMemory := by
  induction e using inductionOnChildren with
  | step e ih =>
      have child : ∀ c ∈ e.children, ((c.readCases a v).isSplit = true ↔ c.ReadsMemory) := fun c hc =>
        ih c hc (he.child hc)
      rw [readsMemory_iff]
      cases e with
      | mem x => simp [readCases, Cases.isSplit, isMemoryCell]
      | unary op t => simp [readCases, Cases.isSplit_map, isMemoryCell, children, child t (by simp [children])]
      | binary op t u =>
          simp [readCases, Cases.isSplit_combine, isMemoryCell, children, child t (by simp [children]),
            child u (by simp [children])]
      | const _ | var _ | reg _ _ _ => simp [readCases, Cases.isSplit, isMemoryCell, children]
      | _ => exact absurd he.isExpression (by simp [isExpression])

theorem split_of_not_isAtom (ht : t.isAtom = false) :
    (t.splitAliases a v).2 = t.children.any fun c => (c.splitAliases a v).2 := by
  cases t with
  | not u =>
      rw [splitAliases_not]
      split <;> simp_all [children]
  | and ts =>
      rw [splitAliases_and]
      split <;> simp_all [children]
  | or ts =>
      rw [splitAliases_or]
      split <;> simp_all [children]
  | ite c l r => simp [splitAliases_ite, children, Bool.or_assoc]
  | const _ | bool _ => rfl
  | _ => simp [isAtom] at ht

theorem split_iff_readsMemory (ht : t.IsFormula) : (t.splitAliases a v).2 = true ↔ t.ReadsMemory := by
  induction t using inductionOnChildren with
  | step t ih =>
      by_cases hconnective : t.isAtom = false
      · have hcell : t.isMemoryCell ≠ true := by
          cases t <;> first | exact Bool.false_ne_true | exact absurd hconnective (by simp [isAtom])
        rw [split_of_not_isAtom hconnective, List.any_eq_true, readsMemory_iff, or_iff_right hcell]
        exact exists_congr fun c => and_congr_right fun hc => ih c hc (ht.child hconnective hc)
      · cases t with
        | eq l r =>
            obtain ⟨hl, hr⟩ := (isFormula_eq_iff l r).1 ht
            rw [splitAliases_eq, Cases.isSplit_combine, Bool.or_eq_true, isSplit_readCases_iff hl,
              isSplit_readCases_iff hr, readsMemory_iff (eq l r)]
            simp [isMemoryCell, children]
        | quantified q x body =>
            obtain ⟨hx, hbody⟩ := (isFormula_quantified_iff q x body).1 ht
            have hvariable : ¬x.ReadsMemory := by
              cases x with
              | var n => simp [ReadsMemory, subterms]
              | _ => exact absurd hx Bool.false_ne_true
            rw [readsMemory_iff (quantified q x body)]
            simpa [splitAliases_quantified, isMemoryCell, children, hvariable] using ih body (by simp [children]) hbody
        | var _ | reg _ _ _ | mem _ | unary _ _ | binary _ _ _ =>
            rw [splitAliases_of_isExpression rfl]
            exact isSplit_readCases_iff (a := a) (v := v) (ht.isWord rfl)
        | _ => simp [isAtom] at hconnective

end Term

namespace Manager

variable {m : Manager} {i j k : Nat} {t a v : Term}

theorem outcome_splitAliases (hi : m.arena.term? i = some t) (hj : m.arena.term? j = some a)
    (hk : m.arena.term? k = some v) : (m.outcome (.splitAliases i j k)).1 = .ok [(t.splitAliases a v).1] := by
  unfold outcome Operation.results
  rw [Building.run_bind_ok (Building.Reads.term hi _), Building.run_bind_ok (Building.Reads.term hj _),
    Building.run_bind_ok (Building.Reads.term hk _)]
  rfl

/-- Splitting on aliases implements the store. In a manager, after any operations on it, let an address and a value be
expressions. The split formula holds in front of the store where the formula holds behind it, if the formula is
well-sorted, no address in it reads memory, and it binds no variable of the address or of the value. If no conditional
stands below an operator, an equality or an address, none comes to stand there. A well-sorted formula is found not to
read memory, and its own handle is returned, if and only if there is no memory cell in it. -/
theorem splitAliases_implements_store (hm : m.arena.IsManaged) (hi : m.arena.term? i = some t)
    (hj : m.arena.term? j = some a) (hk : m.arena.term? k = some v) (ha : a.IsWord) (hv : v.IsWord) :
    ∃ r, (m.perform (.splitAliases i j k)).1 = .ok [r] ∧
      (m.perform (.splitAliases i j k)).2.arena.term? r = some (t.splitAliases a v).1 ∧
      (t.IsFormula → t.FlatAddresses → t.BindsNoneOf a → t.BindsNoneOf v →
        ∀ z s s', Statement.Executes z (.assign (.mem a) v) s s' →
          ((t.splitAliases a v).1.holds z s ↔ t.holds z s')) ∧
      (t.LiftedConditionals → (t.splitAliases a v).1.LiftedConditionals) ∧
      (t.IsFormula → ((t.splitAliases a v).2 = false ∧ r = i ↔ ¬t.ReadsMemory)) := by
  obtain ⟨ts, hts⟩ := hm.exists_holds
  obtain ⟨us, r, hus, -, hreturned, hr⟩ := exists_handle hts (outcome_splitAliases hi hj hk)
  refine ⟨r, hreturned, (hus.term?_eq r).trans hr, ?_, ?_, ?_⟩
  · intro ht hflat hfreeAddress hfreeValue z s s' hexec
    exact Term.holds_splitAliases ha hv ht hflat hfreeAddress hfreeValue hexec
  · exact Term.LiftedConditionals.splitAliases ha.noConditionals hv.noConditionals
  · intro ht
    have hsplit := Term.split_iff_readsMemory (a := a) (v := v) ht
    constructor
    · intro hkept
      rw [← hsplit, hkept.1]
      exact Bool.false_ne_true
    · intro hnone
      have hnot : (t.splitAliases a v).2 = false := by simpa using mt hsplit.1 hnone
      have hoperand : termAt ts i = some t := (hts.term?_eq i).symm.trans hi
      have hsame : (m.perform (.splitAliases i j k)).1 = .ok [i] := by
        refine perform_of_held hts ?_ hoperand
        rw [outcome_splitAliases hi hj hk, Term.splitAliases_of_not_split hnot]
      exact ⟨hnot, by simpa using hreturned.symm.trans hsame⟩

/-- A quantified comparison of two cells, in the scope of the bound variable, next to a negated cell. -/
def comparedCells : Term :=
  .quantified .existential (.var "x")
    (.and [.eq (.binary .add (.mem (.reg "p" 0 0)) (.var "x")) (.mem (.reg "q" 0 0)), .not (.mem (.var "x"))])

/-- The cell at `%q`, as the address of a store. -/
def pointedTo : Term :=
  .mem (.reg "q" 0 0)

/-- What is stored there. -/
def sumOfPointers : Term :=
  .binary .add (.reg "p" 0 0) (.reg "q" 0 0)

/-- All of their terms. -/
def comparedCellsBuilt : List Operation :=
  [.var "x", .reg "p" 0 0, .mem 5, .binary .add 6 4, .reg "q" 0 0, .mem 8, .eq 7 9, .mem 4, .negate 11,
    .conj [10, 12], .quantify .existential 4 13, .binary .add 5 8]

/-- The store may be to any of the cells that are compared, also to the one that its address is read from. -/
theorem splitAliases_implements_store_comparedCells :
    ∃ created, Manager.new 0 = .ok created ∧ (created.run comparedCellsBuilt).2.arena.IsManaged ∧
      (created.run comparedCellsBuilt).2.arena.term? 14 = some comparedCells ∧
      (created.run comparedCellsBuilt).2.arena.term? 9 = some pointedTo ∧
      (created.run comparedCellsBuilt).2.arena.term? 15 = some sumOfPointers ∧
      comparedCells.IsFormula ∧ comparedCells.FlatAddresses ∧ comparedCells.LiftedConditionals ∧
      ∃ r, ((created.run comparedCellsBuilt).2.perform (.splitAliases 14 9 15)).1 = .ok [r] ∧
        (∀ z s s', Statement.Executes z (.assign (.mem pointedTo) sumOfPointers) s s' →
          ((comparedCells.splitAliases pointedTo sumOfPointers).1.holds z s ↔ comparedCells.holds z s')) ∧
        (comparedCells.splitAliases pointedTo sumOfPointers).1.LiftedConditionals ∧
        ¬((comparedCells.splitAliases pointedTo sumOfPointers).2 = false ∧ r = 14) := by
  have hterms : (Manager.new 0).map (fun created =>
      ((created.run comparedCellsBuilt).2.arena.term? 14, (created.run comparedCellsBuilt).2.arena.term? 9,
        (created.run comparedCellsBuilt).2.arena.term? 15)) =
      .ok (some comparedCells, some pointedTo, some sumOfPointers) := by
    decide +kernel
  have haddress : pointedTo.IsWord := by decide
  have hvalue : sumOfPointers.IsWord := by decide
  have hformula : comparedCells.IsFormula := by
    simp [comparedCells, IsFormula, foldUp, foldUpAll, isVariable]
  have hflat : comparedCells.FlatAddresses := by
    simp [comparedCells, FlatAddresses, subterms, subtermsAll, cellAddress?, isMemoryCell]
  have hlifted : comparedCells.LiftedConditionals := by
    refine NoConditionals.lifted ?_
    simp [comparedCells, NoConditionals, subterms, subtermsAll, isConditional]
  have hfree : ∀ u : Term, .var "x" ∉ u.subterms → comparedCells.BindsNoneOf u := by
    intro u hu q x body hmem
    have hx : x = .var "x" := by
      simp only [comparedCells, subterms, subtermsAll, List.cons_append, List.nil_append, List.append_nil,
        List.mem_cons, List.not_mem_nil, or_false, quantified.injEq, reduceCtorEq] at hmem
      exact hmem.2.1
    rwa [hx]
  have hreads : comparedCells.ReadsMemory := ⟨.reg "q" 0 0, by simp [comparedCells, subterms, subtermsAll]⟩
  obtain ⟨created, hcreated, hterms⟩ := Except.exists_of_map_eq_ok hterms
  obtain ⟨hi, hterms⟩ := Prod.mk.inj hterms
  obtain ⟨hj, hk⟩ := Prod.mk.inj hterms
  have hmanaged : (created.run comparedCellsBuilt).2.arena.IsManaged := ⟨0, created, comparedCellsBuilt, hcreated, rfl⟩
  obtain ⟨r, hr, -, hmeaning, hshape, hkept⟩ := splitAliases_implements_store hmanaged hi hj hk haddress hvalue
  refine ⟨created, hcreated, hmanaged, hi, hj, hk, hformula, hflat, hlifted, r, hr, ?_, hshape hlifted, ?_⟩
  · exact hmeaning hformula hflat (hfree pointedTo (by decide)) (hfree sumOfPointers (by decide))
  · exact fun h => (hkept hformula).1 h hreads

end Manager
end Backslice
