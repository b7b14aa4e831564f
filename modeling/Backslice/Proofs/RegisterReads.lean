import Backslice.Proofs.Storage

/-!
# What a term reads of the registers

A term reads a part of a register cell if some cell in it shares a bit with this
one, however deep it stands: in an address, in a condition or under a quantifier.
Two storages that differ in bits of one cell only therefore give the same value
and the same truth to every term that reads no part of the cell.
-/

namespace Backslice

namespace Term

theorem overlaps_comm (t u : Term) : t.overlaps u = u.overlaps t := by
  rw [Bool.eq_iff_iff, overlaps_iff, overlaps_iff]
  exact exists₂_congr fun name i => and_comm

/-- A term reads a part of a cell exactly if a cell in it has a bit of this one. -/
theorem reads_iff_exists_bit {t r : Term} :
    t.reads r = true ↔ ∃ c ∈ t.subterms, ∃ name i, c.HasBit name i ∧ r.HasBit name i := by
  simp only [reads_iff, overlaps_iff]

end Term

namespace Storage

theorem agreeOutside_of_bits {σ τ : Storage} {r : Term} (hvars : σ.vars = τ.vars) (hmemory : σ.memory = τ.memory)
    (hbits : ∀ name i, ¬r.HasBit name i → σ.bits name i = τ.bits name i) : AgreeOutside (· = r) σ τ where
  vars := hvars
  memory := hmemory
  bits name i hne := ⟨r, by_contra fun hbit => hne (hbits name i hbit), rfl⟩

theorem bits_writeCell_of_not_hasBit (k : Coding) (σ : Storage) {n m : String} {o s : UInt16} {i : Nat} (w : UInt64)
    (h : ¬(Term.reg n o s).HasBit m i) : (σ.writeCell k n o s w).bits m i = σ.bits m i :=
  if_neg fun hcell => h ⟨hcell.1.symm, hcell.2⟩

end Storage

/-- No read of a register is missed. A term that is found to read no part of a cell has one value, and one truth, in
storages that differ in bits of this cell only. A term is found to read a part of a cell exactly if a cell in it has a
bit of this one, and cells overlap, in either order, exactly if they have a bit of one register in common. -/
theorem Term.no_read_missed (k : Coding) (z : ZeroDivision) :
    (∀ {σ τ : Storage} {t r : Term}, σ.vars = τ.vars → σ.memory = τ.memory →
      (∀ name i, ¬r.HasBit name i → σ.bits name i = τ.bits name i) → t.reads r = false →
        t.value z (σ.valuation k) = t.value z (τ.valuation k) ∧
          (t.holds z (σ.valuation k) ↔ t.holds z (τ.valuation k))) ∧
    (∀ t r : Term, t.reads r = true ↔ ∃ c ∈ t.subterms, ∃ name i, c.HasBit name i ∧ r.HasBit name i) ∧
    (∀ a b : Term, a.overlaps b = b.overlaps a ∧
      (a.overlaps b = true ↔ ∃ name i, a.HasBit name i ∧ b.HasBit name i)) := by
  refine ⟨fun {σ τ t r} hvars hmemory hbits hreads => ?_, fun t r => reads_iff_exists_bit, fun a b => ?_⟩
  · have hvalue : t.value z (σ.valuation k) = t.value z (τ.valuation k) :=
      (Storage.agreeOutside_of_bits hvars hmemory hbits).value_eq k z fun _ hr => hr ▸ hreads
    exact ⟨hvalue, by rw [holds, holds, hvalue]⟩
  · exact ⟨a.overlaps_comm b, a.overlaps_iff b⟩

/-- Nothing but zeros. -/
def Storage.zeros : Storage :=
  ⟨fun _ => 0, fun _ _ => false, fun _ => 0⟩

/-- Zeros, but for the second byte of a register. -/
def Storage.secondByteSet : Storage :=
  Storage.zeros.writeCell .lowestFirst "eax" 8 8 0xff

/-- A choice that reads registers in an address, in a condition and under a quantifier. -/
def Term.readsThroughout : Term :=
  .ite (.eq (.mem (.reg "ebx" 0 0)) (.reg "eax" 0 8))
    (.quantified .existential (.var "x") (.eq (.var "x") (.reg "eax" 16 16))) (.reg "ecx" 0 0)

/-- The choice reads the bytes around the second one, and what this one holds does not matter to it. -/
theorem Term.no_read_missed_secondByte :
    Storage.secondByteSet.vars = Storage.zeros.vars ∧ Storage.secondByteSet.memory = Storage.zeros.memory ∧
      (∀ name i, ¬(Term.reg "eax" 8 8).HasBit name i →
        Storage.secondByteSet.bits name i = Storage.zeros.bits name i) ∧
      Storage.secondByteSet.bits "eax" 8 ≠ Storage.zeros.bits "eax" 8 ∧
      readsThroughout.reads (.reg "eax" 8 8) = false ∧
      readsThroughout.value (fun _ _ => 0) (Storage.secondByteSet.valuation .lowestFirst) =
        readsThroughout.value (fun _ _ => 0) (Storage.zeros.valuation .lowestFirst) ∧
      (readsThroughout.holds (fun _ _ => 0) (Storage.secondByteSet.valuation .lowestFirst) ↔
        readsThroughout.holds (fun _ _ => 0) (Storage.zeros.valuation .lowestFirst)) := by
  have hbits : ∀ name i, ¬(Term.reg "eax" 8 8).HasBit name i →
      Storage.secondByteSet.bits name i = Storage.zeros.bits name i :=
    fun _ _ => Storage.bits_writeCell_of_not_hasBit .lowestFirst .zeros 0xff
  have hreads : readsThroughout.reads (.reg "eax" 8 8) = false := by
    rw [reads_eq_any]
    decide
  exact ⟨rfl, rfl, hbits, by decide, hreads, (no_read_missed .lowestFirst fun _ _ => 0).1 rfl rfl hbits hreads⟩

/-- The end of a cell may lie behind every offset, and does not wrap around. -/
example : (Term.reg "eax" 65535 2).overlaps (.reg "eax" 0 1) = false := by decide

end Backslice
