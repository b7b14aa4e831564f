import Backslice.Proofs.Execution
import Backslice.Proofs.StoreCases

/-!
# Agreement on all subterms

Simplification only replaces operators on constants by constants. So every
subterm of an expression is, once simplified, a subterm of the simplified
expression or a constant, and there are no other subterms. Two states that agree
on all subterms of the simplified expression therefore agree on all subterms of
the expression itself, and the other way round. In the same way, replacing a
register goes through an expression subterm by subterm.
-/

namespace Backslice.Term

/-- Whether a term is left in another one, or has been folded into a constant. -/
def IsLeftIn (u t : Term) : Prop :=
  u ∈ t.subterms ∨ ∃ c, u = .const c

theorem IsLeftIn.parent {u c t : Term} (h : u.IsLeftIn c) (hc : c ∈ t.children) : u.IsLeftIn t :=
  h.imp_left (mem_subterms_of_mem_children hc)

theorem IsLeftIn.of_const {u t : Term} {v : UInt64} (h : u.IsLeftIn (.const v)) : u.IsLeftIn t := by
  rcases h with h | h
  · exact Or.inr ⟨v, by simpa [subterms] using h⟩
  · exact Or.inr h

/-- Simplification leaves every subterm, itself simplified, or folds it. -/
theorem isLeftIn_simplify {t u : Term} (ht : t.IsWord) (hu : u ∈ t.subterms) : u.simplify.IsLeftIn t.simplify := by
  induction t using inductionOnChildren with
  | step t ih =>
      rw [subterms_eq] at hu
      rcases List.mem_cons.1 hu with rfl | hu
      · exact Or.inl (mem_subterms_self _)
      · obtain ⟨c, hc, hu⟩ := List.mem_flatMap.1 hu
        have hleft := ih c hc (ht.child hc) hu
        cases t with
        | mem a =>
            rw [List.mem_singleton.1 hc] at hleft
            exact hleft.parent (by simp [simplify, children])
        | unary op a =>
            rw [List.mem_singleton.1 hc] at hleft
            rw [simplify]
            rcases simplifyUnary_cases op a.simplify with ⟨c, hc, v, hv⟩ | hkept
            · exact (hv ▸ hleft).of_const
            · rw [hkept]
              exact hleft.parent (by simp [children])
        | binary op a b =>
            have hab : c = a ∨ c = b := by simpa [children] using hc
            rw [simplify]
            rcases simplifyBinary_cases op a.simplify b.simplify with ⟨c, hc, v, w, hv, hw⟩ | hkept
            · rcases hab with rfl | rfl
              · exact (hv ▸ hleft).of_const
              · exact (hw ▸ hleft).of_const
            · rw [hkept]
              refine hleft.parent ?_
              rcases hab with rfl | rfl <;> simp [children]
        | const _ | var _ | reg _ _ _ => exact absurd hc List.not_mem_nil
        | _ => exact absurd ht.isExpression (by simp [isExpression])

/-- All subterms of a simplified expression come from subterms of the expression. -/
theorem exists_of_mem_simplify {t u : Term} (ht : t.IsWord) (hu : u ∈ t.simplify.subterms) :
    ∃ w ∈ t.subterms, u = w.simplify := by
  induction t using inductionOnChildren with
  | step t ih =>
      have hself : u = t.simplify → ∃ w ∈ t.subterms, u = w.simplify := fun h => ⟨t, mem_subterms_self t, h⟩
      have hchild : ∀ c ∈ t.children, u ∈ c.simplify.subterms → ∃ w ∈ t.subterms, u = w.simplify := by
        intro c hc huc
        obtain ⟨w, hw, h⟩ := ih c hc (ht.child hc) huc
        exact ⟨w, mem_subterms_of_mem_children hc hw, h⟩
      cases t with
      | mem a =>
          rcases List.mem_cons.1 hu with h | h
          · exact hself h
          · exact hchild a (by simp [children]) h
      | unary op a =>
          rw [simplify] at hu hself
          rcases simplifyUnary_cases op a.simplify with ⟨c, hc, -⟩ | hkept
          · rw [hc] at hu hself
            exact hself (by simpa [subterms] using hu)
          · rw [hkept] at hu hself
            rcases List.mem_cons.1 hu with h | h
            · exact hself h
            · exact hchild a (by simp [children]) h
      | binary op a b =>
          rw [simplify] at hu hself
          rcases simplifyBinary_cases op a.simplify b.simplify with ⟨c, hc, -⟩ | hkept
          · rw [hc] at hu hself
            exact hself (by simpa [subterms] using hu)
          · rw [hkept] at hu hself
            rcases List.mem_cons.1 hu with h | h
            · exact hself h
            · rcases List.mem_append.1 h with h | h
              · exact hchild a (by simp [children]) h
              · exact hchild b (by simp [children]) h
      | const _ | var _ | reg _ _ _ => exact hself (by simpa [simplify, subterms] using hu)
      | _ => exact absurd ht.isExpression (by simp [isExpression])

theorem register_mem_simplify {t r : Term} (ht : t.IsWord) (hr : r.isRegister = true) :
    r ∈ t.simplify.subterms ↔ r ∈ t.subterms := by
  have hsymbol : r.isSymbol = true := by
    obtain ⟨n, o, k, rfl⟩ := exists_of_isRegister hr
    rfl
  constructor
  · intro h
    exact (mem_symbols_iff.1 (symbols_simplify (mem_symbols_iff.2 ⟨h, hsymbol⟩))).1
  · intro h
    rcases isLeftIn_simplify ht h with hleft | ⟨c, hc⟩
    · rwa [isRegister_simplify hr] at hleft
    · rw [isRegister_simplify hr] at hc
      rw [hc] at hr
      exact absurd hr Bool.false_ne_true

/-- Whether a term reads memory. -/
def ReadsMemory (t : Term) : Prop :=
  ∃ x, .mem x ∈ t.subterms

theorem ReadsMemory.of_mem_subterms {t u : Term} (h : u.ReadsMemory) (hu : u ∈ t.subterms) : t.ReadsMemory :=
  h.imp fun _ hx => mem_subterms_trans hu hx

theorem mem_simplify_of_mem {t x : Term} (ht : t.IsWord) (hx : .mem x ∈ t.subterms) :
    .mem x.simplify ∈ t.simplify.subterms := by
  rcases isLeftIn_simplify ht hx with hleft | ⟨c, hc⟩
  · exact hleft
  · cases hc

theorem readsMemory_simplify {t : Term} (ht : t.IsWord) : t.simplify.ReadsMemory ↔ t.ReadsMemory := by
  constructor
  · rintro ⟨x, hx⟩
    obtain ⟨w, hw, hwx⟩ := exists_of_mem_simplify ht hx
    have hwsort := ht.of_mem_subterms hw
    cases w with
    | mem y => exact ⟨y, hw⟩
    | unary op a =>
        rw [simplify] at hwx
        rcases simplifyUnary_cases op a.simplify with ⟨c, hc, -⟩ | hkept
        · cases hwx.trans hc
        · cases hwx.trans hkept
    | binary op a b =>
        rw [simplify] at hwx
        rcases simplifyBinary_cases op a.simplify b.simplify with ⟨c, hc, -⟩ | hkept
        · cases hwx.trans hc
        · cases hwx.trans hkept
    | const _ | var _ | reg _ _ _ => cases hwx
    | _ => exact absurd hwsort.isExpression (by simp [isExpression])
  · rintro ⟨x, hx⟩
    exact ⟨x.simplify, mem_simplify_of_mem ht hx⟩

/-- Whether some address in a term reads memory itself. -/
def HasNestedReads (t : Term) : Prop :=
  ∃ x, .mem x ∈ t.subterms ∧ x.ReadsMemory

theorem flatAddresses_iff (t : Term) : t.FlatAddresses ↔ ¬t.HasNestedReads := by
  constructor
  · rintro h ⟨x, hx, y, hy⟩
    exact Bool.false_ne_true (h _ hx x rfl _ hy).symm
  · intro h u hu x hx w hw
    refine Bool.eq_false_iff.2 fun hcell => h ⟨x, ?_, ?_⟩
    · cases u <;> simp only [cellAddress?, Option.mem_def, Option.some.injEq, reduceCtorEq] at hx
      rwa [← hx]
    · obtain ⟨y, rfl⟩ := exists_of_isMemoryCell hcell
      exact ⟨y, hw⟩

theorem HasNestedReads.of_mem_subterms {t u : Term} (h : u.HasNestedReads) (hu : u ∈ t.subterms) :
    t.HasNestedReads := by
  obtain ⟨x, hx, hreads⟩ := h
  exact ⟨x, mem_subterms_trans hu hx, hreads⟩

theorem HasNestedReads.readsMemory {t : Term} (h : t.HasNestedReads) : t.ReadsMemory := by
  obtain ⟨x, hx, -⟩ := h
  exact ⟨x, hx⟩

theorem HasNestedReads.simplify {t : Term} (ht : t.IsWord) (h : t.HasNestedReads) : t.simplify.HasNestedReads := by
  obtain ⟨x, hx, hreads⟩ := h
  have hxw : x.IsWord := (isWord_mem x).1 (ht.of_mem_subterms hx)
  exact ⟨x.simplify, mem_simplify_of_mem ht hx, (readsMemory_simplify hxw).2 hreads⟩

section
variable {r : Term} (hr : r.isRegister = true) (v : Term)
include hr

theorem replace_mem_subterms {t u : Term} (ht : t.IsWord) (hu : u ∈ t.subterms) :
    u.replace r v ∈ (t.replace r v).subterms := by
  induction t using inductionOnChildren with
  | step t ih =>
      rw [subterms_eq] at hu
      rcases List.mem_cons.1 hu with rfl | hu
      · exact mem_subterms_self _
      · obtain ⟨c, hc, hu⟩ := List.mem_flatMap.1 hu
        have hchild := ih c hc (ht.child hc) hu
        cases t with
        | mem a =>
            rw [List.mem_singleton.1 hc] at hchild
            rw [replace_register_mem hr]
            exact mem_subterms_of_mem_children (by simp [children]) hchild
        | unary op a =>
            rw [List.mem_singleton.1 hc] at hchild
            rw [replace_register_unary hr]
            exact mem_subterms_of_mem_children (by simp [children]) hchild
        | binary op a b =>
            have hab : c = a ∨ c = b := by simpa [children] using hc
            rw [replace_register_binary hr]
            rcases hab with rfl | rfl
            · exact mem_subterms_of_mem_children (by simp [children]) hchild
            · exact mem_subterms_of_mem_children (by simp [children]) hchild
        | const _ | var _ | reg _ _ _ => exact absurd hc List.not_mem_nil
        | _ => exact absurd ht.isExpression (by simp [isExpression])

theorem HasNestedReads.replace {t : Term} (ht : t.IsWord) (h : t.HasNestedReads) :
    (t.replace r v).HasNestedReads := by
  obtain ⟨x, hx, y, hy⟩ := h
  have hxw : x.IsWord := (isWord_mem x).1 (ht.of_mem_subterms hx)
  have hcell := replace_mem_subterms hr v ht hx
  have hnested := replace_mem_subterms hr v hxw hy
  rw [replace_register_mem hr] at hcell hnested
  exact ⟨_, hcell, _, hnested⟩

end

/-- Whether two states agree on all subterms of a term. -/
def Agrees (z : ZeroDivision) (s s' : Valuation) (t : Term) : Prop :=
  ∀ u ∈ t.subterms, u.value z s = u.value z s'

section
variable {z : ZeroDivision} {s s' : Valuation} {t : Term}

theorem Agrees.value (h : t.Agrees z s s') : t.value z s = t.value z s' :=
  h t (mem_subterms_self t)

theorem Agrees.of_mem_subterms {u : Term} (h : t.Agrees z s s') (hu : u ∈ t.subterms) : u.Agrees z s s' :=
  fun w hw => h w (mem_subterms_trans hu hw)

theorem agrees_simplify (ht : t.IsWord) : t.simplify.Agrees z s s' ↔ t.Agrees z s s' := by
  constructor
  · intro h u hu
    rw [← value_simplify z s (ht.of_mem_subterms hu), ← value_simplify z s' (ht.of_mem_subterms hu)]
    rcases isLeftIn_simplify ht hu with hleft | ⟨c, hc⟩
    · exact h _ hleft
    · rw [hc, Term.value, Term.value]
  · intro h u hu
    obtain ⟨w, hw, rfl⟩ := exists_of_mem_simplify ht hu
    rw [value_simplify z s (ht.of_mem_subterms hw), value_simplify z s' (ht.of_mem_subterms hw)]
    exact h w hw

/-- States that agree on variables, on the registers of a term and, if it reads memory, on memory. -/
theorem agrees_of_registers (hvars : s.vars = s'.vars) (hmemory : t.ReadsMemory → s.memory = s'.memory)
    (hregisters : ∀ r ∈ t.subterms, r.isRegister = true → r.value z s = r.value z s') : t.Agrees z s s' := by
  intro u hu
  refine value_congr z u hvars (fun x hx => hmemory ⟨x, mem_subterms_trans hu hx⟩) fun n o k hreg => ?_
  have hvalue := hregisters _ (mem_subterms_trans hu hreg) rfl
  rwa [Term.value, Term.value] at hvalue

end

end Backslice.Term
