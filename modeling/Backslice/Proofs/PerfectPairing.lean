import Backslice.UniqueTable
import Mathlib

/-!
# Which pairs of words are paired exactly

The pairs of numbers below `m` have the codes below the square of `m`, shell by
shell and without a gap. There are as many words of 64 bits as pairs of words
below `2 ^ 32`, so that these are paired exactly and no word is left over: the
largest two meet in the last word. Of any two words the polynomial gives the
code modulo `2 ^ 64`. It adds and never subtracts, so a step wraps around exactly
if the code is too large for a word.
-/

namespace Backslice.Pairing

theorem pairNat_eq_pair (a b : Nat) : pairNat a b = Nat.pair a b := rfl

/-- The codes below the square of `m` are those of the numbers below `m`. -/
theorem pairNat_lt_sq_iff {a b m : Nat} : pairNat a b < m ^ 2 ↔ a < m ∧ b < m := by
  rw [pairNat_eq_pair, ← max_lt_iff]
  constructor
  · intro h
    have hshell : max a b ^ 2 < m ^ 2 :=
      ((Nat.le_add_right _ _).trans (Nat.max_sq_add_min_le_pair a b)).trans_lt h
    exact lt_of_pow_lt_pow_left₀ 2 (Nat.zero_le m) hshell
  · intro h
    calc Nat.pair a b < (max a b + 1) ^ 2 := Nat.pair_lt_max_add_one_sq a b
      _ ≤ m ^ 2 := Nat.pow_le_pow_left h 2

/-- A code fits in a word of 64 bits if and only if both numbers fit in words of 32 bits. -/
theorem pairNat_lt_size_iff {a b : Nat} : pairNat a b < UInt64.size ↔ a < UInt32.size ∧ b < UInt32.size := by
  have hsize : UInt64.size = UInt32.size ^ 2 := by decide
  rw [hsize, pairNat_lt_sq_iff]

/-- The code of two words is that of their numbers, modulo the number of words. -/
theorem toNat_pair (a b : UInt64) : (pair a b).toNat = pairNat a.toNat b.toNat % UInt64.size := by
  unfold pair pairNat
  simp only [UInt64.lt_iff_toNat_lt]
  split <;> simp [UInt64.size, Nat.add_mod, Nat.mul_mod]

theorem toNat_mul_eq_iff {a b : UInt64} : (a * b).toNat = a.toNat * b.toNat ↔ a.toNat * b.toNat < UInt64.size := by
  rw [UInt64.toNat_mul]
  exact Nat.mod_eq_iff_lt (by decide)

theorem toNat_add_eq_iff {a b : UInt64} : (a + b).toNat = a.toNat + b.toNat ↔ a.toNat + b.toNat < UInt64.size := by
  rw [UInt64.toNat_add]
  exact Nat.mod_eq_iff_lt (by decide)

/-- Whether every step of a pairing of words gives what the step gives on numbers. -/
def NoStepWraps (a b : UInt64) : Prop :=
  if a < b then (b * b).toNat = b.toNat * b.toNat ∧ (b * b + a).toNat = (b * b).toNat + a.toNat
  else
    (a * a).toNat = a.toNat * a.toNat ∧ (a * a + a).toNat = (a * a).toNat + a.toNat ∧
      (a * a + a + b).toNat = (a * a + a).toNat + b.toNat

/-- Every step is at most the code, so no step wraps around if and only if the code fits. -/
theorem noStepWraps_iff (a b : UInt64) : NoStepWraps a b ↔ pairNat a.toNat b.toNat < UInt64.size := by
  unfold NoStepWraps pairNat
  simp only [UInt64.lt_iff_toNat_lt]
  -- the code is the last sum, and the square and the sums before it are at most the code
  split
  next =>
    constructor
    · rintro ⟨hsquare, hcode⟩
      rw [← hsquare]
      exact toNat_add_eq_iff.1 hcode
    · intro hfits
      have hsquare : (b * b).toNat = b.toNat * b.toNat := toNat_mul_eq_iff.2 (by omega)
      exact ⟨hsquare, toNat_add_eq_iff.2 (by rwa [hsquare])⟩
  next =>
    constructor
    · rintro ⟨hsquare, hsum, hcode⟩
      rw [← hsquare, ← hsum]
      exact toNat_add_eq_iff.1 hcode
    · intro hfits
      have hsquare : (a * a).toNat = a.toNat * a.toNat := toNat_mul_eq_iff.2 (by omega)
      have hsum : (a * a + a).toNat = (a * a).toNat + a.toNat := toNat_add_eq_iff.2 (by omega)
      exact ⟨hsquare, hsum, toNat_add_eq_iff.2 (by omega)⟩

/-- The pairs of words below `2 ^ 32`. -/
def halves : Set (UInt64 × UInt64) :=
  { p | p.1.toNat < UInt32.size ∧ p.2.toNat < UInt32.size }

theorem noStepWraps_iff_mem_halves (a b : UInt64) : NoStepWraps a b ↔ (a, b) ∈ halves :=
  (noStepWraps_iff a b).trans pairNat_lt_size_iff

theorem toNat_pair_of_mem_halves {p : UInt64 × UInt64} (h : p ∈ halves) :
    (pair p.1 p.2).toNat = pairNat p.1.toNat p.2.toNat := by
  rw [toNat_pair, Nat.mod_eq_of_lt (pairNat_lt_size_iff.2 h)]

theorem injOn_pair : Set.InjOn (fun p => pair p.1 p.2) halves := by
  rintro ⟨a, b⟩ hab ⟨c, d⟩ hcd heq
  have hcodes : Nat.pair a.toNat b.toNat = Nat.pair c.toNat d.toNat := by
    rw [← pairNat_eq_pair, ← pairNat_eq_pair, ← toNat_pair_of_mem_halves hab, ← toNat_pair_of_mem_halves hcd]
    exact congrArg UInt64.toNat heq
  obtain ⟨hac, hbd⟩ := Nat.pair_eq_pair.1 hcodes
  rw [UInt64.toNat_inj.1 hac, UInt64.toNat_inj.1 hbd]

/-- Every word is a code: the numbers that its own number unpairs to are below `2 ^ 32`. -/
theorem surjOn_pair : Set.SurjOn (fun p => pair p.1 p.2) halves Set.univ := by
  intro w _
  obtain ⟨a, b, hcode⟩ : ∃ a b, pairNat a b = w.toNat := ⟨_, _, Nat.pair_unpair w.toNat⟩
  have hfits : pairNat a b < UInt64.size := hcode ▸ w.toNat_lt_size
  obtain ⟨ha, hb⟩ := pairNat_lt_size_iff.1 hfits
  have toNat_word : ∀ {n : Nat}, n < UInt32.size → (UInt64.ofNat n).toNat = n := fun hn =>
    UInt64.toNat_ofNat_of_lt (hn.trans (by decide))
  have hmem : (UInt64.ofNat a, UInt64.ofNat b) ∈ halves := by
    simpa only [halves, Set.mem_ofPred_eq, toNat_word ha, toNat_word hb] using And.intro ha hb
  refine ⟨_, hmem, UInt64.toNat_inj.1 ?_⟩
  rw [toNat_pair_of_mem_halves hmem, toNat_word ha, toNat_word hb, hcode]

/-- Words below `2 ^ 32` are paired perfectly. No step of their pairing wraps around, and the code is that of their
numbers; and every word of 64 bits is the code of exactly one such pair. -/
theorem halves_paired_perfectly :
    (∀ a b : UInt64, a.toNat < UInt32.size → b.toNat < UInt32.size →
      NoStepWraps a b ∧ (pair a b).toNat = pairNat a.toNat b.toNat) ∧
    Set.BijOn (fun p => pair p.1 p.2) halves Set.univ :=
  ⟨fun a b ha hb =>
      have hmem : (a, b) ∈ halves := ⟨ha, hb⟩
      ⟨(noStepWraps_iff_mem_halves a b).2 hmem, toNat_pair_of_mem_halves hmem⟩,
    Set.mapsTo_univ _ _, injOn_pair, surjOn_pair⟩

/-- The largest two words of 32 bits, which meet in the last word. -/
theorem halves_paired_perfectly_largest :
    (0xffffffff : UInt64).toNat < UInt32.size ∧ NoStepWraps 0xffffffff 0xffffffff ∧
      (pair 0xffffffff 0xffffffff).toNat = UInt64.size - 1 := by
  have hsmall : (0xffffffff : UInt64).toNat < UInt32.size := by decide
  obtain ⟨hexact, hcode⟩ := halves_paired_perfectly.1 0xffffffff 0xffffffff hsmall hsmall
  exact ⟨hsmall, hexact, hcode⟩

end Backslice.Pairing
