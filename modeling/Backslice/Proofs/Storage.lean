import Backslice.Proofs.Valuation
import Mathlib.Tactic.ByContra

/-!
# Registers as bits

A storage holds the variables, the bits of every register and memory. A register
cell reads and writes exactly its bits, and a cell of size 0 is the register as a
whole. How a word is laid out in a cell is left to the machine: a coding reads a
word off the bits of a cell, and gives every bit of a cell for a word.

Two cells overlap exactly when they share a bit, and a term that reads no part of
a cell has the same value whatever the bits of the cell are.
-/

namespace Backslice

/-- Whether a bit of a register belongs to a cell of it; size 0 is every bit. -/
def InCell (offset size : UInt16) (i : Nat) : Prop :=
  size = 0 ∨ (offset.toNat ≤ i ∧ i < offset.toNat + size.toNat)

instance (offset size : UInt16) (i : Nat) : Decidable (InCell offset size i) :=
  inferInstanceAs (Decidable (_ ∨ _))

theorem Term.rangesMeet_iff (o s p t : UInt16) :
    rangesMeet o s p t = true ↔ ∃ i, InCell o s i ∧ InCell p t i := by
  have size_pos : ∀ {n : UInt16}, n ≠ 0 → 0 < n.toNat := fun {n} h =>
    Nat.pos_of_ne_zero fun h0 => h (UInt16.toNat_inj.1 h0)
  by_cases hs : s = 0
  · by_cases ht : t = 0
    · simp [rangesMeet, InCell, hs, ht]
    · have ht' := size_pos ht
      simp only [rangesMeet, InCell, hs, beq_self_eq_true, Bool.true_or, true_or, true_and, true_iff]
      exact ⟨p.toNat, Or.inr ⟨Nat.le_refl _, by omega⟩⟩
  · have hs' := size_pos hs
    by_cases ht : t = 0
    · simp only [rangesMeet, InCell, ht, beq_self_eq_true, Bool.or_true, Bool.true_or, true_or, and_true, true_iff]
      exact ⟨o.toNat, Or.inr ⟨Nat.le_refl _, by omega⟩⟩
    · simp only [rangesMeet, InCell, hs, ht, beq_iff_eq, Bool.or_eq_true, Bool.and_eq_true, decide_eq_true_eq,
        false_or]
      constructor
      · rintro ⟨h₁, h₂⟩
        have ht' := size_pos ht
        exact ⟨max o.toNat p.toNat, by omega, by omega⟩
      · rintro ⟨i, h₁, h₂⟩
        omega

/-- Whether a term is a register cell with the given bit of the given register. -/
def Term.HasBit (t : Term) (name : String) (i : Nat) : Prop :=
  match t with
  | .reg n o s => n = name ∧ InCell o s i
  | _ => False

theorem Term.overlaps_iff (t u : Term) :
    t.overlaps u = true ↔ ∃ name i, t.HasBit name i ∧ u.HasBit name i := by
  cases t with
  | reg n o s =>
      cases u with
      | reg m p k =>
          simp only [overlaps, Bool.and_eq_true, beq_iff_eq, rangesMeet_iff, HasBit]
          constructor
          · rintro ⟨rfl, i, ht, hu⟩
            exact ⟨n, i, ⟨rfl, ht⟩, rfl, hu⟩
          · rintro ⟨_, i, ⟨rfl, ht⟩, rfl, hu⟩
            exact ⟨rfl, i, ht, hu⟩
      | _ => simp [overlaps, HasBit]
  | _ => simp [overlaps, HasBit]

/-- How a machine lays out words in the cells of a register. -/
structure Coding where
  /-- The word that the bits of a register hold in a cell. -/
  decode : (offset size : UInt16) → (Nat → Bool) → UInt64
  /-- The bits of a cell that holds a word. -/
  encode : (offset size : UInt16) → UInt64 → Nat → Bool
  decode_congr : ∀ {o s : UInt16} {b c : Nat → Bool}, (∀ i, InCell o s i → b i = c i) → decode o s b = decode o s c

/-- The first of the bits of a cell is the lowest bit of the word, and bits past the word are zero. -/
def Coding.lowestFirst : Coding where
  decode o s b :=
    (List.range 64).foldl (fun w j =>
      let i := if s = 0 then j else o.toNat + j
      if InCell o s i ∧ b i = true then w ||| (1 : UInt64) <<< UInt64.ofNat j else w) 0
  encode o s w i := w.toNat.testBit (if s = 0 then i else i - o.toNat)
  decode_congr := by
    intro o s b c h
    refine congrArg (fun f => (List.range 64).foldl f 0) (funext₂ fun w j => ?_)
    by_cases hi : InCell o s (if s = 0 then j else o.toNat + j)
    · simp only [h _ hi]
    · simp only [hi, false_and]

/-- The variables, the bits of the registers, and memory. -/
structure Storage where
  vars : String → UInt64
  bits : String → Nat → Bool
  memory : UInt64 → UInt64

namespace Storage

/-- The words that a storage holds. -/
def valuation (k : Coding) (σ : Storage) : Valuation :=
  ⟨σ.vars, fun n o s => k.decode o s (σ.bits n), σ.memory⟩

/-- Store a word in a register cell. -/
def writeCell (k : Coding) (σ : Storage) (name : String) (offset size : UInt16) (w : UInt64) : Storage :=
  { σ with
    bits := fun n i => if n = name ∧ InCell offset size i then k.encode offset size w i else σ.bits n i }

/-- Store a word in memory. -/
def writeMemory (σ : Storage) (a w : UInt64) : Storage :=
  { σ with memory := fun b => if b = a then w else σ.memory b }

/-- Two storages that differ in bits of registers only, each in a cell of which `p` holds. -/
structure AgreeOutside (p : Term → Prop) (σ τ : Storage) : Prop where
  vars : σ.vars = τ.vars
  memory : σ.memory = τ.memory
  bits : ∀ n i, σ.bits n i ≠ τ.bits n i → ∃ r : Term, r.HasBit n i ∧ p r

theorem AgreeOutside.refl (p : Term → Prop) (σ : Storage) : AgreeOutside p σ σ :=
  ⟨rfl, rfl, fun _ _ h => absurd rfl h⟩

/-- A term has one value in storages that differ only in cells it does not read. -/
theorem AgreeOutside.value_eq {p : Term → Prop} {σ τ : Storage} (h : AgreeOutside p σ τ) (k : Coding)
    (z : ZeroDivision) {t : Term} (hread : ∀ r, p r → t.reads r = false) :
    t.value z (σ.valuation k) = t.value z (τ.valuation k) := by
  refine Term.value_congr z t h.vars (fun _ _ => h.memory) fun n o s hcell => k.decode_congr fun i hi => ?_
  by_contra hne
  obtain ⟨r, hr, hp⟩ := h.bits n i hne
  have hover : (Term.reg n o s).overlaps r = true := (Term.overlaps_iff _ _).2 ⟨n, i, ⟨rfl, hi⟩, hr⟩
  have hreads : t.reads r = true := by
    rw [Term.reads_eq_any]
    exact List.any_eq_true.2 ⟨_, hcell, hover⟩
  rw [hread r hp] at hreads
  exact Bool.false_ne_true hreads

theorem AgreeOutside.writeCell {p q : Term → Prop} {σ τ : Storage} (h : AgreeOutside p σ τ) (k : Coding)
    {n : String} {o s : UInt16} (w : UInt64)
    (hq : ∀ r m i, p r → r.HasBit m i → ¬(Term.reg n o s).HasBit m i → q r) :
    AgreeOutside q (σ.writeCell k n o s w) (τ.writeCell k n o s w) := by
  refine ⟨h.vars, h.memory, fun m i hne => ?_⟩
  simp only [Storage.writeCell] at hne
  split at hne
  next => exact absurd rfl hne
  next hcell =>
    obtain ⟨r, hr, hp⟩ := h.bits m i hne
    exact ⟨r, hr, hq r m i hp hr fun hbit => hcell ⟨hbit.1.symm, hbit.2⟩⟩

theorem AgreeOutside.writeCell_left {p q : Term → Prop} {σ τ : Storage} (h : AgreeOutside p σ τ) (k : Coding)
    {n : String} {o s : UInt16} (w : UInt64) (hcell : q (.reg n o s))
    (hq : ∀ r m i, p r → r.HasBit m i → ¬(Term.reg n o s).HasBit m i → q r) :
    AgreeOutside q (σ.writeCell k n o s w) τ := by
  refine ⟨h.vars, h.memory, fun m i hne => ?_⟩
  simp only [Storage.writeCell] at hne
  split at hne
  next hin => exact ⟨.reg n o s, ⟨hin.1.symm, hin.2⟩, hcell⟩
  next hcell =>
    obtain ⟨r, hr, hp⟩ := h.bits m i hne
    exact ⟨r, hr, hq r m i hp hr fun hbit => hcell ⟨hbit.1.symm, hbit.2⟩⟩

theorem AgreeOutside.imp {p q : Term → Prop} {σ τ : Storage} (h : AgreeOutside p σ τ)
    (hq : ∀ r m i, p r → r.HasBit m i → q r) : AgreeOutside q σ τ := by
  refine ⟨h.vars, h.memory, fun m i hne => ?_⟩
  obtain ⟨r, hr, hp⟩ := h.bits m i hne
  exact ⟨r, hr, hq r m i hp hr⟩

theorem AgreeOutside.writeMemory {p : Term → Prop} {σ τ : Storage} (h : AgreeOutside p σ τ) (a w : UInt64) :
    AgreeOutside p (σ.writeMemory a w) (τ.writeMemory a w) :=
  ⟨h.vars, by simp only [Storage.writeMemory, h.memory], h.bits⟩

end Storage
end Backslice
