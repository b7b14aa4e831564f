import Backslice.Proofs.Noninterference
import Backslice.Proofs.StoreElements

/-!
# Agreement behind a store

Two states that agree on the address of a store and on all that a watched cell
comes from agree, behind the store, on the cell and on all subterms of its
address. Both choose the same cases of the address, for they agree on the
registers in it. Where the address reads memory through an address that does so
itself, the cases do not say what it is behind the store; there, states that
agree on memory are taken to states that do.
-/

namespace Backslice

open Term ConditionalSet

/-- Two states in front of a store that agree on its address and on what the watched cell at `y` comes from. -/
structure AgreeBeforeStore (z : ZeroDivision) (a v y : Term) (s s' : Valuation) : Prop where
  address_isWord : a.IsWord
  value_isWord : v.IsWord
  value_plain : v.Plain
  cell_isWord : y.IsWord
  vars : s.vars = s'.vars
  address : a.Agrees z s s'
  flat : ¬a.ReadsMemory
  before : ∀ l ∈ (Statement.assign (.mem a) v).elementsBefore (.mem y), l.Agrees z s s'

section
variable {z : ZeroDivision} {a v y : Term} {s s' : Valuation}

/-- The state after a store. -/
noncomputable def Valuation.stored (z : ZeroDivision) (a v : Term) (s : Valuation) : Valuation :=
  { s with memory := fun b => if b = a.value z s then v.value z s else s.memory b }

namespace AgreeBeforeStore
variable (h : AgreeBeforeStore z a v y s s')
include h

theorem leaf_isWord {t : Term} (hfeasible : (y.readCases a v).Feasible t) : t.IsWord :=
  hfeasible.of_forall (forall_readCases (fun x => (isWord_mem x).1) isWord_unary isWord_binary h.value_isWord
    h.cell_isWord)

theorem agrees_cell {t : Term} (hfeasible : (y.readCases a v).Feasible t)
    (hforced : simplifyEq a.simplify t.simplify ≠ .bool true) : (Term.mem t).Agrees z s s' :=
  (agrees_simplify ((isWord_mem t).2 (h.leaf_isWord hfeasible))).1
    (h.before _ ((Statement.mem_elementsBefore_store h.value_plain).2 ⟨t, hfeasible, Or.inr ⟨hforced, rfl⟩⟩))

theorem agrees_leaf {t : Term} (hfeasible : (y.readCases a v).Feasible t) : t.Agrees z s s' := by
  by_cases hforced : simplifyEq a.simplify t.simplify = .bool true
  · rw [← agrees_simplify (h.leaf_isWord hfeasible), ← eq_of_simplifyEq_true (isWord_simplify h.address_isWord) hforced]
    exact (agrees_simplify h.address_isWord).2 h.address
  · exact (h.agrees_cell hfeasible hforced).of_mem_subterms
      (mem_subterms_of_mem_children (by simp [children]) (mem_subterms_self t))

/-- The states agree on the value, unless the cell is known to be another one. -/
theorem value_eq {t : Term} (hfeasible : (y.readCases a v).Feasible t)
    (hrefuted : simplifyEq a.simplify t.simplify ≠ .bool false) : v.value z s = v.value z s' := by
  refine value_eq_of_dependencies h.value_isWord h.vars fun d hd => ?_
  have hword := h.value_isWord.of_mem_subterms (mem_outermostLvalues (mem_dependencies.1 hd)).1
  have hsimplified := h.before d.simplify ((Statement.mem_elementsBefore_store h.value_plain).2
    ⟨t, hfeasible, Or.inl ⟨hrefuted, List.mem_map_of_mem hd⟩⟩)
  exact ((agrees_simplify hword).1 hsimplified).value

theorem register_eq {r : Term} (hr : r.isRegister = true) (hmem : r ∈ y.subterms) : r.value z s = r.value z s' :=
  (register_mem_spared h.address_isWord h.cell_isWord hr hmem).elim
    (h.agrees_leaf (Cases.feasible_spared _) r) (h.address r)

theorem agrees_behind {u : Term} (hu : u ∈ y.subterms)
    (hmemory : u.ReadsMemory → (s.stored z a v).memory = (s'.stored z a v).memory) :
    u.Agrees z (s.stored z a v) (s'.stored z a v) := by
  refine agrees_of_registers h.vars hmemory fun r hmem hr => ?_
  have hbefore := h.register_eq hr (mem_subterms_trans hu hmem)
  obtain ⟨n, o, k, rfl⟩ := exists_of_isRegister hr
  exact hbefore

theorem chosen_eq (hnested : ¬y.HasNestedReads) {u : Term} (hu : u ∈ y.subterms) :
    (u.readCases a v).chosen (holds z s) = (u.readCases a v).chosen (holds z s') := by
  refine Cases.chosen_congr ((forall_conditions_readCases u).imp (fun c hc => ?_) fun _ => id)
  obtain ⟨x, rfl, hx⟩ := hc
  have hcell := mem_subterms_trans hu hx
  have haddress := mem_subterms_trans hcell (mem_subterms_of_mem_children (by simp [children]) (mem_subterms_self x))
  have hagrees : x.Agrees z s s' := agrees_of_registers h.vars (fun hreads => absurd ⟨x, hcell, hreads⟩ hnested)
    fun r hmem hr => h.register_eq hr (mem_subterms_trans haddress hmem)
  rw [holds_eq_iff, holds_eq_iff, h.address.value, hagrees.value]

theorem value_chosen (hnested : ¬y.HasNestedReads) {u : Term} (hu : u ∈ y.subterms) (s₀ : Valuation) :
    ((u.readCases a v).chosen (holds z s₀)).value z s₀ = u.value z (s₀.stored z a v) := by
  have hflat := (flatAddresses_iff u).2 fun hreads => hnested (hreads.of_mem_subterms hu)
  have hvars : (s₀.stored z a v).vars = s₀.vars := rfl
  exact value_chosen_readCases hvars rfl rfl (h.cell_isWord.of_mem_subterms hu) hflat

/-- The cell holds the stored value if the case of its address is the address of the store, or else what it held. -/
theorem value_stored_cell (hnested : ¬y.HasNestedReads) {s₀ : Valuation} {c : Term}
    (hc : (y.readCases a v).chosen (holds z s₀) = c) :
    (Term.mem y).value z (s₀.stored z a v) =
      if c.value z s₀ = a.value z s₀ then v.value z s₀ else (Term.mem c).value z s₀ := by
  have hy := h.value_chosen hnested (mem_subterms_self y) s₀
  rw [hc] at hy
  rw [Term.value, Term.value, ← hy]
  rfl

/-- Behind the store, the states agree on the address of the cell, subterm by subterm. -/
theorem agrees_address (hnested : ¬y.HasNestedReads) : y.Agrees z (s.stored z a v) (s'.stored z a v) := by
  intro u hu
  rcases chosen_mem_subterms (holds z s) h.cell_isWord hu with houter | ⟨x, hx, hux⟩
  · -- The case of the subterm is a subterm of the case of the whole, and that is feasible.
    rw [← h.value_chosen hnested hu, ← h.value_chosen hnested hu, ← h.chosen_eq hnested hu]
    exact h.agrees_leaf (feasible_chosen_readCases z s h.address_isWord h.cell_isWord) _ houter
  · exact (h.agrees_behind hu fun hreads => absurd ⟨x, hx, hreads.of_mem_subterms hux⟩ hnested).value

theorem agrees_stored_cell (hnested : ¬y.HasNestedReads) :
    (Term.mem y).Agrees z (s.stored z a v) (s'.stored z a v) := by
  intro u hu
  rcases List.mem_cons.1 hu with rfl | hu
  · have hfeasible := feasible_chosen_readCases (v := v) z s h.address_isWord h.cell_isWord
    have hword := h.leaf_isWord hfeasible
    have hleaf := (h.agrees_leaf hfeasible).value
    rw [h.value_stored_cell hnested rfl,
      h.value_stored_cell hnested (h.chosen_eq hnested (mem_subterms_self y)).symm, ← hleaf, ← h.address.value]
    split
    next hhit => exact h.value_eq hfeasible (not_refuted_of_value_eq h.address_isWord hword hhit.symm)
    next hmiss =>
      exact (h.agrees_cell hfeasible (not_forced_of_value_ne h.address_isWord hword (Ne.symm hmiss))).value
  · exact h.agrees_address hnested u hu

/-- If the two states agree on memory where such a cell is watched, they still do behind the store. -/
theorem memory_stored (hnested : y.HasNestedReads)
    (hmemory : ∀ x, Term.mem x ∈ (Statement.assign (.mem a) v).elementsBefore (.mem y) → x.HasNestedReads →
      s.memory = s'.memory) : (s.stored z a v).memory = (s'.stored z a v).memory := by
  have hfeasible := Cases.feasible_spared (y.readCases a v)
  have hword := h.leaf_isWord hfeasible
  have hspared := hasNestedReads_spared (v := v) h.address_isWord h.flat h.cell_isWord hnested
  have hreads : (y.readCases a v).spared.simplify.ReadsMemory := (hspared.simplify hword).readsMemory
  -- The spared case reads memory, so it is not the address of the store, and no constant either.
  have hforced : simplifyEq a.simplify (y.readCases a v).spared.simplify ≠ .bool true := by
    intro htrue
    rw [← eq_of_simplifyEq_true (isWord_simplify h.address_isWord) htrue] at hreads
    exact h.flat ((readsMemory_simplify h.address_isWord).1 hreads)
  have hrefuted : simplifyEq a.simplify (y.readCases a v).spared.simplify ≠ .bool false := by
    intro hfalse
    obtain ⟨-, w, -, hconst⟩ := const_of_simplifyEq_false (isWord_simplify h.address_isWord) hfalse
    rw [hconst] at hreads
    obtain ⟨x, hx⟩ := hreads
    cases List.mem_singleton.1 hx
  have hsame := hmemory _ ((Statement.mem_elementsBefore_store h.value_plain).2
    ⟨_, hfeasible, Or.inr ⟨hforced, rfl⟩⟩) (hspared.simplify hword)
  simp only [Valuation.stored, hsame, h.address.value, h.value_eq hfeasible hrefuted]

theorem agrees_nested_cell (hmemory : (s.stored z a v).memory = (s'.stored z a v).memory) :
    (Term.mem y).Agrees z (s.stored z a v) (s'.stored z a v) := by
  have haddress : y.Agrees z (s.stored z a v) (s'.stored z a v) :=
    h.agrees_behind (mem_subterms_self y) fun _ => hmemory
  intro u hu
  rcases List.mem_cons.1 hu with rfl | hu
  · rw [Term.value, Term.value, haddress.value, hmemory]
  · exact haddress u hu

end AgreeBeforeStore

end

end Backslice
