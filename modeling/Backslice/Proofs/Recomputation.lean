import Backslice.Proofs.PreImage
import Backslice.Proofs.SliceCompleteness
import Backslice.Proofs.StoreAgreement
import Mathlib

/-!
# Running the slice alone

The assignments of a slice compute the seed as the whole program does, along
every path to it. Two runs are compared, one of all assignments on the path and
one of those in the slice. At every point they agree on the variables, on the
registers that are never assigned, and on all subterms of the watched locations;
and on memory, where a cell is watched whose address reads memory through an
address that does so itself. An assignment that is left out touches nothing
watched behind it, and what is watched in front of an assignment is enough to
give what is watched behind it the same value in both runs.

The exception is the address of a store. The analysis does not watch it, so the
two runs need not store to one cell. It is therefore asked of the stores in the
slice that their addresses read no memory, and only registers that are never
assigned or occur in a location that is watched in front of the store.
-/

namespace Backslice

open Term ConditionalSet

theorem Statement.IsWellSorted.isPlain {statement : Statement} (h : statement.IsWellSorted) : statement.IsPlain := by
  cases statement with
  | assign l v =>
      obtain ⟨hl, -, hlp, -, hvp⟩ := h
      exact ⟨⟨hl, hlp⟩, hvp⟩
  | _ => trivial

/-- Whether a register cell occurs in an expression or in an assignment of a program. -/
def Program.Mentions (p : Program) (e c : Term) : Prop :=
  c.isRegister = true ∧ (c ∈ e.subterms ∨
    ∃ arrow ∈ p.arrows, ∃ l v, arrow.statement = .assign l v ∧ (c ∈ l.subterms ∨ c ∈ v.subterms))

/-- Whether a term is an expression over the registers that a program and an expression mention. -/
def Program.IsOver (p : Program) (e t : Term) : Prop :=
  t.IsWord ∧ ∀ c ∈ t.subterms, c.isRegister = true → p.Mentions e c

section
variable {p : Program} {e : Term}

theorem isSymbol_of_isRegister {c : Term} (h : c.isRegister = true) : c.isSymbol = true := by
  obtain ⟨n, o, k, rfl⟩ := exists_of_isRegister h
  rfl

theorem Program.IsOver.of_mem_subterms {t u : Term} (h : p.IsOver e t) (hu : u ∈ t.subterms) : p.IsOver e u :=
  ⟨h.1.of_mem_subterms hu, fun c hc => h.2 c (mem_subterms_trans hu hc)⟩

theorem Program.IsOver.of_symbols {t u : Term} (ht : t.IsWord) (h : ∀ c ∈ t.symbols, c.isRegister = true → c ∈ u.symbols)
    (hu : p.IsOver e u) : p.IsOver e t := by
  refine ⟨ht, fun c hc hregister => hu.2 c ?_ hregister⟩
  exact (mem_symbols_iff.1 (h c (mem_symbols_iff.2 ⟨hc, isSymbol_of_isRegister hregister⟩) hregister)).1

theorem Program.IsOver.simplify {t : Term} (h : p.IsOver e t) : p.IsOver e t.simplify :=
  h.of_symbols (isWord_simplify h.1) fun _ hc _ => symbols_simplify hc

theorem Program.IsOver.replace {t r v : Term} (hr : r.isRegister = true) (ht : p.IsOver e t) (hv : p.IsOver e v) :
    p.IsOver e (t.replace r v) := by
  refine ⟨IsWord.replace_register hr v ht.1 hv.1, fun c hc hregister => ?_⟩
  rcases symbols_replace (mem_symbols_iff.2 ⟨hc, isSymbol_of_isRegister hregister⟩) with h | h
  · exact ht.2 c (mem_symbols_iff.1 h).1 hregister
  · exact hv.2 c (mem_symbols_iff.1 h).1 hregister

theorem Program.isOver_mem (x : Term) : p.IsOver e (.mem x) ↔ p.IsOver e x := by
  constructor
  · exact fun h => h.of_mem_subterms (mem_subterms_of_mem_children (by simp [children]) (mem_subterms_self x))
  · exact fun h => h.of_symbols ((isWord_mem x).2 h.1) fun c hc _ => by simpa using hc

theorem Program.isOver_unary (op : UnaryOp) (t : Term) : p.IsOver e (.unary op t) ↔ p.IsOver e t := by
  constructor
  · exact fun h => h.of_mem_subterms (mem_subterms_of_mem_children (by simp [children]) (mem_subterms_self t))
  · exact fun h => h.of_symbols ((isWord_unary op t).2 h.1) fun c hc _ => by simpa using hc

theorem Program.isOver_binary (op : BinaryOp) (t u : Term) :
    p.IsOver e (.binary op t u) ↔ p.IsOver e t ∧ p.IsOver e u := by
  constructor
  · intro h
    have hchild : ∀ c ∈ (Term.binary op t u).children, p.IsOver e c := fun c hc =>
      h.of_mem_subterms (mem_subterms_of_mem_children hc (mem_subterms_self c))
    exact ⟨hchild t (by simp [children]), hchild u (by simp [children])⟩
  · rintro ⟨ht, hu⟩
    refine ⟨(isWord_binary op t u).2 ⟨ht.1, hu.1⟩, fun c hc hregister => ?_⟩
    rcases List.mem_cons.1 hc with rfl | hc
    · exact absurd hregister Bool.false_ne_true
    · exact (List.mem_append.1 hc).elim (fun h => ht.2 c h hregister) fun h => hu.2 c h hregister

section
variable (hsorted : ∀ arrow ∈ p.arrows, arrow.statement.IsWellSorted)
include hsorted

theorem isOver_of_assign {arrow : Arrow} {l v : Term} (harrow : arrow ∈ p.arrows)
    (hassign : arrow.statement = .assign l v) : p.IsOver e l ∧ p.IsOver e v := by
  have hstatement := hsorted arrow harrow
  rw [hassign] at hstatement
  obtain ⟨-, hlw, -, hvw, -⟩ := hstatement
  exact ⟨⟨hlw, fun c hc hr => ⟨hr, Or.inr ⟨arrow, harrow, l, v, hassign, Or.inl hc⟩⟩⟩,
    ⟨hvw, fun c hc hr => ⟨hr, Or.inr ⟨arrow, harrow, l, v, hassign, Or.inr hc⟩⟩⟩⟩

theorem isOver_elementsBefore {arrow : Arrow} {m l : Term} (harrow : arrow ∈ p.arrows) (hm : p.IsOver e m)
    (hl : l ∈ arrow.statement.elementsBefore m) : p.IsOver e l := by
  cases hassign : arrow.statement with
  | assign r v =>
      have hstatement := hsorted arrow harrow
      obtain ⟨-, hv⟩ := isOver_of_assign (e := e) hsorted harrow hassign
      rw [hassign] at hl hstatement
      obtain ⟨hlvalue, -, -, -, hvp⟩ := hstatement
      have hdependency : l ∈ v.dependencies.map Term.simplify → p.IsOver e l := by
        intro h
        obtain ⟨d, hd, rfl⟩ := List.mem_map.1 h
        exact (hv.of_mem_subterms (mem_outermostLvalues (mem_dependencies.1 hd)).1).simplify
      rcases isLvalue_cases hlvalue with hr | ⟨a, rfl⟩
      · rw [Statement.elementsBefore_register hr] at hl
        split at hl
        next => exact hdependency hl
        next =>
          rw [List.mem_singleton.1 hl]
          exact (hm.replace hr hv).simplify
      · have hkept : l ∈ [m.simplify] → p.IsOver e l := fun h => List.mem_singleton.1 h ▸ hm.simplify
        cases m with
        | mem y =>
            -- A cell comes from what is stored, or from the cell at a case of its address.
            obtain ⟨t, hfeasible, h⟩ := (Statement.mem_elementsBefore_store hvp).1 hl
            have hleaf := forall_readCases (a := a) (fun x => (Program.isOver_mem x).1) Program.isOver_unary
              Program.isOver_binary hv ((Program.isOver_mem y).1 hm)
            rcases h with ⟨-, h⟩ | ⟨-, rfl⟩
            · exact hdependency h
            · exact ((Program.isOver_mem t).2 (hfeasible.of_forall hleaf)).simplify
        | _ => exact hkept hl
  | jump | skip | external name =>
      rw [hassign] at hl
      rw [List.mem_singleton.1 hl]
      exact hm

end

end

/-! ## Two runs side by side -/

/-- What two runs have in common at a point with given watched locations. -/
structure Program.Matches (p : Program) (e : Term) (z : ZeroDivision) (watched : Term → Prop) (s s' : Valuation) :
    Prop where
  vars : s.vars = s'.vars
  constant : ∀ c, p.Mentions e c → (∀ arrow ∈ p.arrows, arrow.assigned? ≠ some c) → c.value z s = c.value z s'
  agrees : ∀ m, watched m → m.Agrees z s s'
  memory : ∀ y, watched (.mem y) → y.HasNestedReads → s.memory = s'.memory

theorem Program.Matches.refl (p : Program) (e : Term) (z : ZeroDivision) (watched : Term → Prop) (s : Valuation) :
    p.Matches e z watched s s :=
  ⟨rfl, fun _ _ _ => rfl, fun _ _ _ _ => rfl, fun _ _ _ => rfl⟩

theorem value_of_executes_of_not_overlaps {z : ZeroDivision} {s t : Valuation} {n : String} {o k : UInt16} {v c : Term}
    (hexec : Statement.Executes z (.assign (.reg n o k) v) s t) (hc : c.isRegister = true)
    (hover : (Term.reg n o k).overlaps c = false) : c.value z t = c.value z s := by
  obtain ⟨m, q, j, rfl⟩ := exists_of_isRegister hc
  cases hexec with
  | register _ _ _ hother => exact hother m q j hover

theorem memory_of_executes {z : ZeroDivision} {s t : Valuation} {n : String} {o k : UInt16} {v : Term}
    (hexec : Statement.Executes z (.assign (.reg n o k) v) s t) : t.memory = s.memory := by
  cases hexec with
  | register _ hmemory _ _ => exact hmemory

theorem eq_stored_of_executes {z : ZeroDivision} {s t : Valuation} {a v : Term}
    (hexec : Statement.Executes z (.assign (.mem a) v) s t) : t = s.stored z a v := by
  cases hexec with
  | store => rfl

section
variable {p : Program} {e : Term} {z : ZeroDivision} {before behind : Term → Prop} {s s' t t' : Valuation} {arrow : Arrow}
  (hsorted : ∀ arrow ∈ p.arrows, arrow.statement.IsWellSorted)
  (hcells : ∀ c d, p.Mentions e c → p.Mentions e d → c.overlaps d = true → c = d)
  (harrow : arrow ∈ p.arrows) (hover : ∀ m, behind m → p.IsOver e m ∧ m.isLvalue = true)
  (hbefore : ∀ m, behind m → ∀ l ∈ arrow.statement.elementsBefore m, before l)
  (hmatches : p.Matches e z before s s')

section
variable {n : String} {o k : UInt16} {v : Term} (hassign : arrow.statement = .assign (.reg n o k) v)
include hsorted harrow hassign

section
include hover hbefore hmatches

theorem agrees_replaced {m : Term} (hm : behind m) (hne : m ≠ .reg n o k) :
    (m.replace (.reg n o k) v).Agrees z s s' := by
  have hr : (Term.reg n o k).isRegister = true := rfl
  have hword := ((hover m hm).1.replace hr (isOver_of_assign hsorted harrow hassign).2).1
  refine (agrees_simplify hword).1 (hmatches.agrees _ (hbefore m hm _ ?_))
  rw [hassign, Statement.elementsBefore_register hr, if_neg hne]
  exact List.mem_singleton_self _

theorem memory_before_register {y : Term} (hy : behind (.mem y)) (hnested : y.HasNestedReads) :
    s.memory = s'.memory := by
  have hr : (Term.reg n o k).isRegister = true := rfl
  have hword := (isWord_mem y).1 (hover _ hy).1.1
  refine hmatches.memory (y.replace (.reg n o k) v).simplify (hbefore _ hy _ ?_) ?_
  · rw [hassign, Statement.elementsBefore_register hr, if_neg nofun, replace_register_mem hr]
    exact List.mem_singleton_self _
  · exact (hnested.replace hr v hword).simplify
      (IsWord.replace_register hr v hword (isOver_of_assign (e := e) hsorted harrow hassign).2.1)

end

include hcells

theorem not_overlaps_of_mentions {c : Term} (hc : p.Mentions e c) (hne : c ≠ .reg n o k) :
    (Term.reg n o k).overlaps c = false := by
  have hr : p.Mentions e (.reg n o k) := (isOver_of_assign hsorted harrow hassign).1.2 _ (mem_subterms_self _) rfl
  exact Bool.eq_false_iff.2 fun h => hne (hcells _ _ hr hc h).symm

theorem constant_behind_register (hexec : Statement.Executes z (.assign (.reg n o k) v) s t) {c : Term}
    (hc : p.Mentions e c) (hconstant : ∀ arrow ∈ p.arrows, arrow.assigned? ≠ some c) : c.value z t = c.value z s := by
  refine value_of_executes_of_not_overlaps hexec hc.1 (not_overlaps_of_mentions hsorted hcells harrow hassign hc ?_)
  rintro rfl
  exact hconstant arrow harrow (by rw [Arrow.assigned?, hassign])

/-- The value behind the assignment of a register is that of the rewritten term in front of it. -/
theorem value_behind_register (hexec : Statement.Executes z (.assign (.reg n o k) v) s t) {u : Term}
    (hu : p.IsOver e u) : (u.replace (.reg n o k) v).value z s = u.value z t := by
  refine value_replace_of_executes hu.1 hexec fun c hc hoverlaps => ?_
  by_contra hne
  have hregister : c.isRegister = true := by
    cases c <;> first | rfl | exact absurd hoverlaps Bool.false_ne_true
  have hmentions := hu.2 c (mem_symbols_iff.1 hc).1 hregister
  rw [not_overlaps_of_mentions hsorted hcells harrow hassign hmentions hne] at hoverlaps
  exact Bool.false_ne_true hoverlaps

include hover hbefore hmatches

theorem matches_behind_register (hexec : Statement.Executes z (.assign (.reg n o k) v) s t)
    (hexec' : Statement.Executes z (.assign (.reg n o k) v) s' t') : p.Matches e z behind t t' where
  vars := by rw [hexec.vars, hexec'.vars, hmatches.vars]
  constant c hc hconstant := by
    rw [constant_behind_register hsorted hcells harrow hassign hexec hc hconstant,
      constant_behind_register hsorted hcells harrow hassign hexec' hc hconstant]
    exact hmatches.constant c hc hconstant
  agrees m hm u hu := by
    have hv := (isOver_of_assign (e := e) hsorted harrow hassign).2.1
    by_cases hne : m = .reg n o k
    · rw [hne, subterms, List.mem_singleton] at hu
      rw [hu, value_self_of_executes hexec, value_self_of_executes hexec']
      refine value_eq_of_dependencies hv hmatches.vars fun d hd => ?_
      refine ((agrees_simplify (hv.of_mem_subterms (mem_outermostLvalues (mem_dependencies.1 hd)).1)).1
        (hmatches.agrees _ (hbefore m hm _ ?_))).value
      rw [hassign, Statement.elementsBefore_register rfl, if_pos hne]
      exact List.mem_map_of_mem hd
    · have huover := (hover m hm).1.of_mem_subterms hu
      rw [← value_behind_register hsorted hcells harrow hassign hexec huover,
        ← value_behind_register hsorted hcells harrow hassign hexec' huover]
      exact agrees_replaced hsorted harrow hover hbefore hmatches hassign hm hne _
        (replace_mem_subterms rfl v (hover m hm).1.1 hu)
  memory y hy hnested := by
    rw [memory_of_executes hexec, memory_of_executes hexec']
    exact memory_before_register hsorted harrow hover hbefore hmatches hassign hy hnested

/-- One run assigns a register that does not occur in what is watched, the other one leaves it out. -/
theorem matches_beside_register (hexec : Statement.Executes z (.assign (.reg n o k) v) s t)
    (huntouched : ∀ m, behind m → .reg n o k ∉ m.subterms) : p.Matches e z behind t s' where
  vars := by rw [hexec.vars, hmatches.vars]
  constant c hc hconstant := by
    rw [constant_behind_register hsorted hcells harrow hassign hexec hc hconstant]
    exact hmatches.constant c hc hconstant
  agrees m hm u hu := by
    have hne : m ≠ .reg n o k := fun h => huntouched m hm (h ▸ mem_subterms_self _)
    have hagrees := agrees_replaced hsorted harrow hover hbefore hmatches hassign hm hne
    rw [replace_of_not_mem (huntouched m hm)] at hagrees
    have hkept : u.replace (.reg n o k) v = u :=
      replace_of_not_mem fun h => huntouched m hm (mem_subterms_trans hu h)
    rw [← value_behind_register hsorted hcells harrow hassign hexec ((hover m hm).1.of_mem_subterms hu), hkept]
    exact hagrees u hu
  memory y hy hnested := by
    rw [memory_of_executes hexec]
    exact memory_before_register hsorted harrow hover hbefore hmatches hassign hy hnested

end

section
variable {a v : Term} (hassign : arrow.statement = .assign (.mem a) v)

theorem value_stored_register {r : Term} (hr : r.isRegister = true) : r.value z (s.stored z a v) = r.value z s := by
  obtain ⟨n, o, k, rfl⟩ := exists_of_isRegister hr
  rfl

include hbefore hmatches hassign

theorem agrees_register_stored {m : Term} (hm : behind m) (hr : m.isRegister = true) : m.Agrees z s s' := by
  refine hmatches.agrees m (hbefore m hm m ?_)
  obtain ⟨n, o, k, rfl⟩ := exists_of_isRegister hr
  rw [hassign]
  exact List.mem_singleton_self _

include hover

/-- One run stores while no memory cell is watched, the other one leaves it out. -/
theorem matches_beside_store (huntouched : ∀ m, behind m → m.isMemoryCell = false) :
    p.Matches e z behind (s.stored z a v) s' := by
  refine ⟨hmatches.vars, fun c hc hconstant => ?_, fun m hm => ?_, fun y hy => ?_⟩
  · rw [value_stored_register hc.1]
    exact hmatches.constant c hc hconstant
  · have hr : m.isRegister = true := by
      have hlvalue := (hover m hm).2
      rwa [isLvalue, huntouched m hm, Bool.or_false] at hlvalue
    have hagrees := agrees_register_stored hbefore hmatches hassign hm hr
    obtain ⟨n, o, k, rfl⟩ := exists_of_isRegister hr
    intro u hu
    obtain rfl := List.mem_singleton.1 hu
    exact hagrees.value
  · exact absurd (huntouched _ hy) (by simp [isMemoryCell])

include hsorted harrow

theorem matches_behind_store (haddress : a.Agrees z s s') (hflat : ¬a.ReadsMemory) :
    p.Matches e z behind (s.stored z a v) (s'.stored z a v) := by
  have hstatement := hsorted arrow harrow
  rw [hassign] at hstatement
  obtain ⟨-, hcell, -, hvw, hvp⟩ := hstatement
  have hstore : ∀ y, behind (.mem y) → AgreeBeforeStore z a v y s s' := fun y hy =>
    { address_isWord := (isWord_mem a).1 hcell
      value_isWord := hvw
      value_plain := hvp
      cell_isWord := (isWord_mem y).1 (hover _ hy).1.1
      vars := hmatches.vars
      address := haddress
      flat := hflat
      before := fun l hl => hmatches.agrees l (hbefore _ hy l (by rwa [hassign])) }
  have hmemory : ∀ y, behind (.mem y) → y.HasNestedReads →
      (s.stored z a v).memory = (s'.stored z a v).memory := fun y hy hnested =>
    (hstore y hy).memory_stored hnested fun x hx => hmatches.memory x (hbefore _ hy _ (by rwa [hassign]))
  refine ⟨hmatches.vars, fun c hc hconstant => ?_, fun m hm => ?_, hmemory⟩
  · rw [value_stored_register hc.1, value_stored_register hc.1]
    exact hmatches.constant c hc hconstant
  · rcases isLvalue_cases (hover m hm).2 with hr | ⟨y, rfl⟩
    · have hagrees := agrees_register_stored hbefore hmatches hassign hm hr
      obtain ⟨n, o, k, rfl⟩ := exists_of_isRegister hr
      intro u hu
      obtain rfl := List.mem_singleton.1 hu
      exact hagrees.value
    · by_cases hnested : y.HasNestedReads
      · exact (hstore y hm).agrees_nested_cell (hmemory y hm hnested)
      · exact (hstore y hm).agrees_stored_cell hnested

end

section
include hbefore hmatches

theorem matches_of_not_assigned (hnone : arrow.assigned? = none) : p.Matches e z behind s s' := by
  have hkept : ∀ m, behind m → before m := by
    intro m hm
    refine hbefore m hm m ?_
    cases hstatement : arrow.statement with
    | assign l v =>
        rw [Arrow.assigned?, hstatement] at hnone
        cases hnone
    | jump | skip | external name => exact List.mem_singleton_self m
  exact ⟨hmatches.vars, hmatches.constant, fun m hm => hmatches.agrees m (hkept m hm),
    fun y hy => hmatches.memory y (hkept _ hy)⟩

end

theorem eq_of_executes_of_not_assigned (hnone : arrow.assigned? = none) (hexec : arrow.statement.Executes z s t) :
    t = s := by
  cases hstatement : arrow.statement with
  | assign l v =>
      rw [Arrow.assigned?, hstatement] at hnone
      cases hnone
  | jump | skip | external name =>
      rw [hstatement] at hexec
      cases hexec
      rfl

section
include hsorted hcells harrow hover hbefore hmatches

theorem matches_behind
    (hobserved : ∀ a v, arrow.statement = .assign (.mem a) v → a.Agrees z s s' ∧ ¬a.ReadsMemory)
    (hexec : arrow.statement.Executes z s t) (hexec' : arrow.statement.Executes z s' t') :
    p.Matches e z behind t t' := by
  cases hassign : arrow.statement with
  | assign l v =>
      have hlvalue := hsorted arrow harrow
      rw [hassign] at hexec hexec' hlvalue
      rcases isLvalue_cases hlvalue.1 with hr | ⟨a, rfl⟩
      · obtain ⟨n, o, k, rfl⟩ := exists_of_isRegister hr
        exact matches_behind_register hsorted hcells harrow hover hbefore hmatches hassign hexec hexec'
      · rw [eq_stored_of_executes hexec, eq_stored_of_executes hexec']
        obtain ⟨haddress, hflat⟩ := hobserved a v hassign
        exact matches_behind_store hsorted harrow hover hbefore hmatches hassign haddress hflat
  | jump | skip | external name =>
      have hnone : arrow.assigned? = none := by rw [Arrow.assigned?, hassign]
      rw [eq_of_executes_of_not_assigned hnone hexec, eq_of_executes_of_not_assigned hnone hexec']
      exact matches_of_not_assigned hbefore hmatches hnone

/-- Two runs of which one leaves out an arrow that touches nothing watched. -/
theorem matches_beside
    (huntouched : ∀ l, arrow.assigned? = some l → ∀ m, behind m →
      l ∉ m.subterms ∧ ¬(l.isMemoryCell = true ∧ m.isMemoryCell = true))
    (hexec : arrow.statement.Executes z s t) : p.Matches e z behind t s' := by
  cases hassign : arrow.statement with
  | assign l v =>
      have hlvalue := hsorted arrow harrow
      have huntouched := huntouched l (by rw [Arrow.assigned?, hassign])
      rw [hassign] at hexec hlvalue
      rcases isLvalue_cases hlvalue.1 with hr | ⟨a, rfl⟩
      · obtain ⟨n, o, k, rfl⟩ := exists_of_isRegister hr
        exact matches_beside_register hsorted hcells harrow hover hbefore hmatches hassign hexec
          fun m hm => (huntouched m hm).1
      · rw [eq_stored_of_executes hexec]
        exact matches_beside_store hover hbefore hmatches hassign fun m hm =>
          Bool.eq_false_iff.2 fun hcell => (huntouched m hm).2 ⟨rfl, hcell⟩
  | jump | skip | external name =>
      have hnone : arrow.assigned? = none := by rw [Arrow.assigned?, hassign]
      rw [eq_of_executes_of_not_assigned hnone hexec]
      exact matches_of_not_assigned hbefore hmatches hnone

end

end

/-! ## Whole paths -/

/-- Whether the stores among some arrows have addresses that read no memory, and no registers but those that are never
assigned or occur in a location that is watched in front of the store. -/
def Program.ObservesStores (p : Program) (analysis : Analysis) (arrows : List Arrow) : Prop :=
  ∀ arrow ∈ arrows, ∀ a v, arrow.statement = .assign (.mem a) v → ¬a.ReadsMemory ∧
    ∀ r ∈ a.subterms, r.isRegister = true → (∀ other ∈ p.arrows, other.assigned? ≠ some r) ∨
      ∃ l ∈ (analysis.watched arrow.source).possibleValues, r ∈ l.subterms

namespace Analysis

theorem mem_lvalues {e l : Term} : l ∈ e.lvalues ↔ l ∈ e.subterms ∧ l.isLvalue = true := by
  rw [lvalues, distinct_eq_eraseDups, List.mem_eraseDups, List.mem_filter]

section
variable {p : Program} {e : Term} {a : Address} {names : Fresh} {analysis : Analysis} {kept : List Arrow} (hp : p.Built)
  (hsorted : ∀ arrow ∈ p.arrows, arrow.statement.IsWellSorted) (hword : e.IsWord) (hplain : e.Plain)
  (hcells : ∀ c d, p.Mentions e c → p.Mentions e d → c.overlaps d = true → c = d)

include hp hsorted hword hplain in
/-- Everything watched is an expression over the registers of the program and the seed. -/
theorem Reaches.isOver {s : Analysis} (hs : Reaches p Options.slicing (seedsOf a e) s) :
    Invariant p (seedsOf a e) (fun _ => p.IsOver e) [] s := by
  have hseeds : ∀ d ∈ seedsOf a e, d.location ∈ e.subterms ∧ d.location.isLvalue = true := fun d hd => by
    obtain ⟨l, hl, rfl⟩ := List.mem_map.1 hd
    exact mem_lvalues.1 hl
  refine hs.invariant hp (fun arrow h => (hsorted arrow h).isPlain) (fun d hd => ?_) ⟨fun d hd => ?_, ?_⟩
  · exact ⟨(hseeds d hd).2, hplain.of_mem_subterms (hseeds d hd).1⟩
  · exact ⟨hword.of_mem_subterms (hseeds d hd).1, fun c hc hr =>
      ⟨hr, Or.inl (mem_subterms_trans (hseeds d hd).1 hc)⟩⟩
  · intro arrow b m l harrow _ _ hm hl
    exact isOver_elementsBefore hsorted harrow hm hl

include hsorted hcells in
/-- Along a path, the runs with and without the arrows that touch nothing keep in common what they have in common. -/
theorem Invariant.matches_along (h : Invariant p (seedsOf a e) (fun _ => p.IsOver e) [] analysis)
    (hsettled : analysis.pending = []) (hkept : ∀ arrow ∈ p.arrows, arrow ∈ kept ∨ analysis.isTouched arrow = false)
    (hobserved : p.ObservesStores analysis kept) {b c : Address} {arrows : List Arrow} (hpath : p.Path b arrows c)
    {z : ZeroDivision} {s s' t t' : Valuation}
    (hmatches : p.Matches e z (fun l => l ∈ (analysis.watched b).possibleValues) s s')
    (hexec : Arrow.ExecutesAll z arrows s t) (hexec' : Arrow.ExecutesAll z (arrows.filter (· ∈ kept)) s' t') :
    p.Matches e z (fun l => l ∈ (analysis.watched c).possibleValues) t t' := by
  induction hpath generalizing s s' with
  | nil b =>
      cases hexec
      cases hexec'
      exact hmatches
  | @cons arrow arrows b c harrow htarget _ ih =>
      obtain - | ⟨hfirst, hrest⟩ := hexec
      have hover : ∀ m ∈ (analysis.watched b).possibleValues, p.IsOver e m ∧ m.isLvalue = true := fun m hm =>
        ⟨h.within b m hm, ((h.explicit.watched b).isLocation hm).1⟩
      have hbefore : ∀ m ∈ (analysis.watched b).possibleValues, ∀ l ∈ arrow.statement.elementsBefore m,
          l ∈ (analysis.watched arrow.source).possibleValues := fun m hm l hl =>
        (h.closed hsettled).arrow harrow htarget ((h.explicit.watched b).isLocation hm) hm hl
      by_cases hin : arrow ∈ kept
      -- Both runs execute the arrow. If it stores, they agree on the address, as the slice observes it.
      · rw [List.filter_cons, if_pos (by simpa using hin)] at hexec'
        obtain - | ⟨hfirst', hrest'⟩ := hexec'
        refine ih (matches_behind hsorted hcells harrow hover hbefore hmatches (fun x v hassign => ?_) hfirst hfirst')
          hrest hrest'
        obtain ⟨hflat, hregisters⟩ := hobserved arrow hin x v hassign
        refine ⟨agrees_of_registers hmatches.vars (fun hreads => absurd hreads hflat) fun r hr hregister => ?_, hflat⟩
        rcases hregisters r hr hregister with hconstant | ⟨l, hl, hrl⟩
        · have hx : p.IsOver e (.mem x) := (isOver_of_assign hsorted harrow hassign).1
          exact hmatches.constant r (((Program.isOver_mem x).1 hx).2 r hr hregister) hconstant
        · exact hmatches.agrees l hl r hrl
      -- Only the run of the whole program executes the arrow, which touches nothing watched.
      · rw [List.filter_cons, if_neg (by simpa using hin)] at hexec'
        refine ih (matches_beside hsorted hcells harrow hover hbefore hmatches (fun l hl m hm => ?_) hfirst) hrest hexec'
        have huntouched := (hkept arrow harrow).resolve_left hin
        simp only [Analysis.isTouched, hl, htarget, Target.known?] at huntouched
        have hnone := mt (touches_iff l _).2 (Bool.eq_false_iff.1 huntouched)
        exact ⟨fun hsub => hnone ⟨m, hm, Or.inl hsub⟩, fun hcell => hnone ⟨m, hm, Or.inr hcell⟩⟩

include hp hsorted hword hplain hcells

/-- If a slice of an expression comes without any warning, and its stores are to observed addresses, then the slice
alone gives every location in the expression the value that the whole program gives it, along every path. -/
theorem slice_recomputes (hslice : slice p (seedsOf a e) names = (analysis, .ok kept))
    (hwarnings : analysis.warnings = []) (hobserved : p.ObservesStores analysis kept) {b : Address}
    {arrows : List Arrow} (hpath : p.Path b arrows a) {z : ZeroDivision} {s t t' : Valuation}
    (hexec : Arrow.ExecutesAll z arrows s t) (hexec' : Arrow.ExecutesAll z (arrows.filter (· ∈ kept)) s t') :
    ∀ l ∈ e.lvalues, l.value z t = l.value z t' := by
  obtain ⟨hkept, hsettled, hcontexts⟩ := slice_without_warnings hslice hwarnings
  have hreaches := (Reaches.start p Options.slicing (seedsOf a e) names).run p.points.length
  have hinvariant := hreaches.isOver hp hsorted hword hplain
  have hwatched : analysis.watched =
      ((start p (seedsOf a e) names).run p Options.slicing p.points.length).1.watched := by
    funext c
    rw [watched, watched, context?, context?, hcontexts]
  have htouched := filter_isTouched_congr hcontexts
  have hobserved' : p.ObservesStores ((start p (seedsOf a e) names).run p Options.slicing p.points.length).1 kept := by
    rw [Program.ObservesStores, ← hwatched]
    exact hobserved
  have hmatches := hinvariant.matches_along hsorted hcells hsettled (fun arrow harrow => ?_) hobserved' hpath
    (.refl p e z _ s) hexec hexec'
  · intro l hl
    exact (hmatches.agrees l (hinvariant.seeds ⟨a, l⟩ (List.mem_map_of_mem hl))).value
  · rw [hkept, Program.touching, List.mem_filter, ← htouched]
    have hordered : arrow ∈ p.orderedArrows := by
      simp only [Program.orderedArrows, Program.leaving, List.mem_flatMap, List.mem_filter, decide_eq_true_eq]
      exact ⟨arrow.source, hp.isLinked.source harrow, harrow, rfl⟩
    cases h : analysis.isTouched arrow
    · exact Or.inr rfl
    · exact Or.inl ⟨hordered, rfl⟩

end

/-- A register is set to an address. -/
def pointTo : Arrow :=
  ⟨⟨0, 0⟩, none, .assign (.reg "a" 0 0) (.const 16), .fixed ⟨1, 0⟩⟩

/-- The cell it points to is set to 7. -/
def storeThrough : Arrow :=
  ⟨⟨1, 0⟩, none, .assign (.mem (.reg "a" 0 0)) (.const 7), .fixed ⟨2, 0⟩⟩

/-- Another register is set. -/
def setAside : Arrow :=
  ⟨⟨2, 0⟩, none, .assign (.reg "b" 0 0) (.const 1), .fixed ⟨3, 0⟩⟩

def pointingProgram : Program :=
  ((Program.addArrow {} pointTo).addArrow storeThrough).addArrow setAside

/-- The stored cell, named by the register. -/
def throughPointer : Term :=
  .mem (.reg "a" 0 0)

/-- The stored cell, named by its address. -/
def atAddress : Term :=
  .mem (.const 16)

theorem built_pointingProgram : pointingProgram.Built :=
  ((Program.Built.empty.addArrow pointTo).addArrow storeThrough).addArrow setAside

theorem mem_pointingProgram {arrow : Arrow} :
    arrow ∈ pointingProgram.arrows ↔ arrow = pointTo ∨ arrow = storeThrough ∨ arrow = setAside := by
  change arrow ∈ [pointTo, storeThrough, setAside] ↔ _
  simp

theorem isWellSorted_pointingProgram : ∀ arrow ∈ pointingProgram.arrows, arrow.statement.IsWellSorted := by
  intro arrow harrow
  rcases mem_pointingProgram.1 harrow with rfl | rfl | rfl <;>
    exact ⟨rfl, by decide, by decide, by decide, by decide⟩

theorem path_pointingProgram : pointingProgram.Path ⟨0, 0⟩ [pointTo, storeThrough, setAside] ⟨3, 0⟩ :=
  .cons (mem_pointingProgram.2 (Or.inl rfl)) rfl
    (.cons (mem_pointingProgram.2 (Or.inr (Or.inl rfl))) rfl
      (.cons (mem_pointingProgram.2 (Or.inr (Or.inr rfl))) rfl (.nil _)))

theorem mentions_pointingProgram {c : Term} (hc : pointingProgram.Mentions throughPointer c) :
    c ∈ [Term.reg "a" 0 0, .reg "b" 0 0] := by
  have hregisters : ∀ t ∈ [throughPointer, .reg "a" 0 0, .const 16, .const 7, .reg "b" 0 0, .const 1],
      ∀ c ∈ t.subterms, c.isRegister = true → c ∈ [Term.reg "a" 0 0, .reg "b" 0 0] := by decide
  obtain ⟨hr, h | ⟨arrow, harrow, l, v, hassign, h⟩⟩ := hc
  · exact hregisters throughPointer (by simp) c h hr
  · have hlv : l ∈ [throughPointer, .reg "a" 0 0, .const 16, .const 7, .reg "b" 0 0, .const 1] ∧
        v ∈ [throughPointer, .reg "a" 0 0, .const 16, .const 7, .reg "b" 0 0, .const 1] := by
      rcases mem_pointingProgram.1 harrow with rfl | rfl | rfl <;> cases hassign <;> decide
    exact h.elim (fun h => hregisters l hlv.1 c h hr) fun h => hregisters v hlv.2 c h hr

/-- A state in which everything is zero. -/
def zeroState : Valuation :=
  ⟨fun _ => 0, fun _ _ _ => 0, fun _ => 0⟩

/-- The state after the first register is set. -/
def pointing (s : Valuation) : Valuation :=
  { s with cells := fun n o k => if n = "a" then 16 else s.cells n o k }

/-- The state after the other register is set. -/
def aside (s : Valuation) : Valuation :=
  { s with cells := fun n o k => if n = "b" then 1 else s.cells n o k }

theorem executes_pointTo (s : Valuation) : pointTo.statement.Executes (fun _ _ => 0) s (pointing s) := by
  refine .register rfl rfl rfl fun m q j hover => if_neg ?_
  rintro rfl
  simp [overlaps, rangesMeet] at hover

theorem executes_setAside (s : Valuation) : setAside.statement.Executes (fun _ _ => 0) s (aside s) := by
  refine .register rfl rfl rfl fun m q j hover => if_neg ?_
  rintro rfl
  simp [overlaps, rangesMeet] at hover

/-- The state after the store. -/
noncomputable def storing (s : Valuation) : Valuation :=
  s.stored (fun _ _ => 0) (.reg "a" 0 0) (.const 7)

theorem executes_pointingProgram (s : Valuation) :
    Arrow.ExecutesAll (fun _ _ => 0) [pointTo, storeThrough, setAside] s (aside (storing (pointing s))) :=
  .cons (executes_pointTo s) (.cons .store (.cons (executes_setAside _) (.nil _)))

theorem slice_recomputes_throughPointer :
    pointingProgram.Built ∧ (∀ arrow ∈ pointingProgram.arrows, arrow.statement.IsWellSorted) ∧
      throughPointer.IsWord ∧ throughPointer.Plain ∧
      (∀ c d, pointingProgram.Mentions throughPointer c → pointingProgram.Mentions throughPointer d →
        c.overlaps d = true → c = d) ∧
      ∃ analysis, slice pointingProgram (seedsOf ⟨3, 0⟩ throughPointer) ⟨0⟩ = (analysis, .ok [pointTo, storeThrough]) ∧
        analysis.warnings = [] ∧ pointingProgram.ObservesStores analysis [pointTo, storeThrough] ∧
        pointingProgram.Path ⟨0, 0⟩ [pointTo, storeThrough, setAside] ⟨3, 0⟩ ∧
        ∃ t t', Arrow.ExecutesAll (fun _ _ => 0) [pointTo, storeThrough, setAside] zeroState t ∧
          Arrow.ExecutesAll (fun _ _ => 0)
            ([pointTo, storeThrough, setAside].filter (· ∈ [pointTo, storeThrough])) zeroState t' ∧
          ∀ l ∈ throughPointer.lvalues, l.value (fun _ _ => 0) t = l.value (fun _ _ => 0) t' := by
  have hcells : ∀ c d, pointingProgram.Mentions throughPointer c → pointingProgram.Mentions throughPointer d →
      c.overlaps d = true → c = d := fun c d hc hd =>
    (by decide : ∀ c ∈ [Term.reg "a" 0 0, .reg "b" 0 0], ∀ d ∈ [Term.reg "a" 0 0, .reg "b" 0 0],
      c.overlaps d = true → c = d) c (mentions_pointingProgram hc) d (mentions_pointingProgram hd)
  have hkept : (slice pointingProgram (seedsOf ⟨3, 0⟩ throughPointer) ⟨0⟩).2 = .ok [pointTo, storeThrough] := by cbv
  have hslice : slice pointingProgram (seedsOf ⟨3, 0⟩ throughPointer) ⟨0⟩ =
      ((slice pointingProgram (seedsOf ⟨3, 0⟩ throughPointer) ⟨0⟩).1, .ok [pointTo, storeThrough]) := by rw [← hkept]
  have hwarnings : (slice pointingProgram (seedsOf ⟨3, 0⟩ throughPointer) ⟨0⟩).1.warnings = [] := by cbv
  have hwatched : ((slice pointingProgram (seedsOf ⟨3, 0⟩ throughPointer) ⟨0⟩).1.watched ⟨1, 0⟩).possibleValues =
      [.reg "a" 0 0] := by cbv
  have hobserved : pointingProgram.ObservesStores (slice pointingProgram (seedsOf ⟨3, 0⟩ throughPointer) ⟨0⟩).1
      [pointTo, storeThrough] := by
    intro arrow harrow x v hassign
    rcases List.mem_cons.1 harrow with rfl | harrow
    · cases hassign
    · obtain rfl := List.mem_singleton.1 harrow
      cases hassign
      refine ⟨?_, fun r hr _ => Or.inr ⟨.reg "a" 0 0, ?_, hr⟩⟩
      · rintro ⟨y, hy⟩
        cases List.mem_singleton.1 hy
      · rw [show storeThrough.source = ⟨1, 0⟩ from rfl, hwatched]
        exact List.mem_singleton_self _
  have hexec' : Arrow.ExecutesAll (fun _ _ => 0)
      ([pointTo, storeThrough, setAside].filter (· ∈ [pointTo, storeThrough])) zeroState
      (storing (pointing zeroState)) :=
    .cons (executes_pointTo zeroState) (.cons .store (.nil _))
  exact ⟨built_pointingProgram, isWellSorted_pointingProgram, by decide, by decide, hcells, _, hslice, hwarnings,
    hobserved, path_pointingProgram, _, _, executes_pointingProgram zeroState, hexec',
    slice_recomputes built_pointingProgram isWellSorted_pointingProgram (by decide) (by decide) hcells hslice hwarnings
      hobserved path_pointingProgram (executes_pointingProgram zeroState) hexec'⟩

/-- The register is not watched if the cell is named by its address. The slice then has the store alone, and the store
goes somewhere else. -/
theorem slice_misses_pointer :
    ∃ analysis, slice pointingProgram (seedsOf ⟨3, 0⟩ atAddress) ⟨0⟩ = (analysis, .ok [storeThrough]) ∧
      analysis.warnings = [] ∧ pointingProgram.Path ⟨0, 0⟩ [pointTo, storeThrough, setAside] ⟨3, 0⟩ ∧
      atAddress ∈ atAddress.lvalues ∧
      ∃ t t', Arrow.ExecutesAll (fun _ _ => 0) [pointTo, storeThrough, setAside] zeroState t ∧
        Arrow.ExecutesAll (fun _ _ => 0) ([pointTo, storeThrough, setAside].filter (· ∈ [storeThrough])) zeroState t' ∧
        atAddress.value (fun _ _ => 0) t = 7 ∧ atAddress.value (fun _ _ => 0) t' = 0 := by
  have hkept : (slice pointingProgram (seedsOf ⟨3, 0⟩ atAddress) ⟨0⟩).2 = .ok [storeThrough] := by cbv
  refine ⟨_, by rw [← hkept], by cbv, path_pointingProgram, by decide, _, _, executes_pointingProgram zeroState,
    .cons .store (.nil _), ?_, ?_⟩
  · simp [atAddress, Term.value, Valuation.stored, storing, pointing, aside]
  · simp [atAddress, Term.value, zeroState]

end Analysis
end Backslice
