import Backslice.Arrow
import Backslice.Proofs.Replacement

/-!
# Statements and states

A statement leads from a valuation to another. An assignment of a register cell
changes this cell, and may leave anything in cells that share bits with it. A
word term has, after the assignment of a register, the value that the term with
the register replaced has before it, if no other cell in it shares bits with the
assigned one.
-/

namespace Backslice

open Term

/-- The states before and after a statement. Cells that share bits with an assigned register cell
may come to hold anything. -/
inductive Statement.Executes (z : ZeroDivision) : Statement → Valuation → Valuation → Prop
  | register {n : String} {o k : UInt16} {v : Term} {s s' : Valuation} (hvars : s'.vars = s.vars)
      (hmemory : s'.memory = s.memory) (hself : s'.cells n o k = v.value z s)
      (hother : ∀ m p j, (Term.reg n o k).overlaps (.reg m p j) = false → s'.cells m p j = s.cells m p j) :
      Executes z (.assign (.reg n o k) v) s s'
  | store {a v : Term} {s : Valuation} :
      Executes z (.assign (.mem a) v) s
        { s with memory := fun b => if b = a.value z s then v.value z s else s.memory b }
  | jump {s : Valuation} : Executes z .jump s s
  | skip {s : Valuation} : Executes z .skip s s
  | external {name : String} {s : Valuation} : Executes z (.external name) s s

theorem Term.overlaps_self (n : String) (o k : UInt16) : (Term.reg n o k).overlaps (.reg n o k) = true := by
  by_cases hk : k = 0
  · simp [overlaps, rangesMeet, hk]
  · have hpos : 0 < k.toNat := Nat.pos_of_ne_zero fun h => hk (UInt16.toNat_inj.1 h)
    simp [overlaps, rangesMeet, hpos]

/-- Every statement that assigns to nothing but locations can be executed in every state. -/
theorem Statement.exists_executes (z : ZeroDivision) {statement : Statement}
    (hlocation : ∀ l v, statement = .assign l v → l.isLvalue = true) (s : Valuation) :
    ∃ s', statement.Executes z s s' := by
  cases statement with
  | assign l v =>
      rcases isLvalue_cases (hlocation l v rfl) with hr | ⟨a, rfl⟩
      · obtain ⟨n, o, k, rfl⟩ := exists_of_isRegister hr
        let written : Valuation :=
          { s with cells := fun m p j => if Term.reg m p j = .reg n o k then v.value z s else s.cells m p j }
        refine ⟨written, .register rfl rfl (if_pos rfl) fun m p j hover => if_neg fun heq => ?_⟩
        rw [heq, overlaps_self] at hover
        exact Bool.false_ne_true hover.symm
      · exact ⟨_, .store⟩
  | jump => exact ⟨s, .jump⟩
  | skip => exact ⟨s, .skip⟩
  | external name => exact ⟨s, .external⟩

theorem Statement.Executes.vars {z : ZeroDivision} {statement : Statement} {s s' : Valuation}
    (h : statement.Executes z s s') : s'.vars = s.vars := by
  cases h with
  | register hvars _ _ _ => exact hvars
  | _ => rfl

theorem value_self_of_executes {z : ZeroDivision} {s s' : Valuation} {n : String} {o k : UInt16} {v : Term}
    (h : Statement.Executes z (.assign (.reg n o k) v) s s') : (Term.reg n o k).value z s' = v.value z s := by
  cases h with
  | register _ _ hself _ => exact hself

/-- The value after the assignment of a register is that of the rewritten term before it. -/
theorem value_replace_of_executes {z : ZeroDivision} {s s' : Valuation} {n : String} {o k : UInt16} {v t : Term}
    (ht : t.IsWord) (hexec : Statement.Executes z (.assign (.reg n o k) v) s s')
    (hsep : ∀ c ∈ t.symbols, (Term.reg n o k).overlaps c = true → c = .reg n o k) :
    (t.replace (.reg n o k) v).value z s = t.value z s' := by
  cases hexec with
  | register hvars hmemory hself hother =>
      refine value_replace_register rfl v ht hvars hmemory hself fun u hu hreg hne => ?_
      obtain ⟨m, p, j, rfl⟩ := exists_of_isRegister hreg
      refine hother m p j ?_
      exact Bool.eq_false_iff.2 fun hover => hne (hsep _ hu hover)

end Backslice
