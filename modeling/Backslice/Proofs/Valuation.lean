import Backslice.Subterm

/-!
# Values of terms

A valuation gives a word to every variable, to every register cell and to every
address of memory. Under a valuation a term denotes a word. A formula denotes 1
or 0, and a term in the place of a formula holds when its word is not zero; so
every term has both a value and a truth value, whatever its sort. A quantifier
ranges over all words. What a division by zero yields is left to the machine.

Register cells are looked up as they are written, by name, offset and size.
Nothing here relates two cells of one register; where that matters, a valuation
is taken from a storage of bits.
-/

namespace Backslice

/-- The results of a machine for divisions and remainders by zero. -/
abbrev ZeroDivision := BinaryOp → UInt64 → UInt64

/-- The word of an operator, also where the operator leaves it open. -/
def ZeroDivision.apply (z : ZeroDivision) (op : BinaryOp) (a b : UInt64) : UInt64 :=
  (op.eval a b).getD (z op a)

/-- What the leaves of terms and the cells of memory hold. -/
structure Valuation where
  vars : String → UInt64
  cells : (name : String) → (offset size : UInt16) → UInt64
  memory : UInt64 → UInt64

/-- The valuation in which the bound term of a quantifier stands for a word; only variables are bound. -/
def Valuation.bind (v : Valuation) (bound : Term) (w : UInt64) : Valuation :=
  match bound with
  | .var n => { v with vars := fun m => if m = n then w else v.vars m }
  | _ => v

@[simp]
theorem Valuation.cells_bind (v : Valuation) (bound : Term) (w : UInt64) : (v.bind bound w).cells = v.cells := by
  cases bound <;> rfl

@[simp]
theorem Valuation.memory_bind (v : Valuation) (bound : Term) (w : UInt64) :
    (v.bind bound w).memory = v.memory := by
  cases bound <;> rfl

theorem Valuation.vars_bind_congr {v v' : Valuation} (h : v.vars = v'.vars) (bound : Term) (w : UInt64) :
    (v.bind bound w).vars = (v'.bind bound w).vars := by
  cases bound <;> simp [bind, h]

/-- What a quantifier says of a property of words. -/
def Quantifier.over (q : Quantifier) (p : UInt64 → Prop) : Prop :=
  match q with
  | .universal => ∀ w, p w
  | .existential => ∃ w, p w

theorem Quantifier.over_congr {q : Quantifier} {p p' : UInt64 → Prop} (h : ∀ w, p w ↔ p' w) :
    q.over p ↔ q.over p' := by
  rw [funext fun w => propext (h w)]

/-- A property that holds of all words or of none is what it says under any quantifier. -/
theorem Quantifier.over_const {q : Quantifier} {p : Prop} : (q.over fun _ => p) ↔ p := by
  cases q with
  | universal => exact ⟨fun h => h 0, fun h _ => h⟩
  | existential => exact ⟨fun ⟨_, h⟩ => h, fun h => ⟨0, h⟩⟩

open Classical in
/-- The word of a proposition. -/
noncomputable def wordOf (p : Prop) : UInt64 :=
  if p then 1 else 0

@[simp]
theorem wordOf_eq_zero {p : Prop} : wordOf p = 0 ↔ ¬p := by
  unfold wordOf
  split <;> simp_all

theorem wordOf_congr {p q : Prop} (h : p ↔ q) : wordOf p = wordOf q := by
  rw [propext h]

theorem wordOfBool_decide (p : Prop) [Decidable p] : wordOfBool (decide p) = wordOf p := by
  by_cases h : p <;> simp [wordOfBool, wordOf, h]

namespace Term

mutual

/-- The word that a term denotes. -/
noncomputable def value (z : ZeroDivision) : Valuation → Term → UInt64
  | _, .const w => w
  | v, .var n => v.vars n
  | v, .reg n o s => v.cells n o s
  | v, .mem a => v.memory (value z v a)
  | v, .unary op a => op.eval (value z v a)
  | v, .binary op a b => z.apply op (value z v a) (value z v b)
  | _, .bool b => wordOfBool b
  | v, .eq a b => wordOf (value z v a = value z v b)
  | v, .not a => wordOf (value z v a = 0)
  | v, .and xs => wordOf (∀ w ∈ values z v xs, w ≠ 0)
  | v, .or xs => wordOf (∃ w ∈ values z v xs, w ≠ 0)
  | v, .quantified q a b => wordOf (q.over fun w => value z (v.bind a w) b ≠ 0)
  | v, .ite c a b => if value z v c = 0 then value z v b else value z v a

/-- The words of a list of terms. -/
noncomputable def values (z : ZeroDivision) : Valuation → List Term → List UInt64
  | _, [] => []
  | v, x :: xs => value z v x :: values z v xs

end

/-- Whether a term holds, read as a formula. -/
def holds (z : ZeroDivision) (v : Valuation) (t : Term) : Prop :=
  t.value z v ≠ 0

@[simp]
theorem values_eq_map (z : ZeroDivision) (v : Valuation) (xs : List Term) :
    values z v xs = xs.map (value z v) := by
  induction xs with
  | nil => simp [values]
  | cons x xs ih => simp [values, ih]

theorem mem_subterms_of_mem_children {t c u : Term} (hc : c ∈ t.children) (hu : u ∈ c.subterms) :
    u ∈ t.subterms := by
  rw [subterms_eq]
  exact List.mem_cons_of_mem _ (List.mem_flatMap.2 ⟨c, hc, hu⟩)

theorem holds_eq_iff (z : ZeroDivision) (v : Valuation) (a b : Term) :
    (Term.eq a b).holds z v ↔ a.value z v = b.value z v := by
  simp [holds, value]

/-- The value of a term depends on the variables, on memory if it reads memory, and on the register cells
that occur in it. -/
theorem value_congr (z : ZeroDivision) (t : Term) :
    ∀ {v v' : Valuation}, v.vars = v'.vars → (∀ a, .mem a ∈ t.subterms → v.memory = v'.memory) →
      (∀ n o s, .reg n o s ∈ t.subterms → v.cells n o s = v'.cells n o s) → t.value z v = t.value z v' := by
  induction t using inductionOnChildren with
  | step t ih =>
      intro v v' hvars hmem hcells
      have child : ∀ c ∈ t.children, c.value z v = c.value z v' := fun c hc =>
        ih c hc hvars (fun a h => hmem a (mem_subterms_of_mem_children hc h)) fun n o s h =>
          hcells n o s (mem_subterms_of_mem_children hc h)
      cases t with
      | const _ | bool _ => simp [value]
      | var n => simp [value, hvars]
      | reg n o s => simp [value, hcells n o s (mem_subterms_self _)]
      | mem a => simp only [value, child a (by simp [children]), hmem a (mem_subterms_self _)]
      | quantified q a b =>
          simp only [value]
          refine wordOf_congr (Quantifier.over_congr fun w => ?_)
          have hb : b.value z (v.bind a w) = b.value z (v'.bind a w) := by
            refine ih b (by simp [children]) (Valuation.vars_bind_congr hvars a w) (fun x h => ?_) fun n o s h => ?_
            · simpa using hmem x (mem_subterms_of_mem_children (c := b) (by simp [children]) h)
            · simpa using hcells n o s (mem_subterms_of_mem_children (c := b) (by simp [children]) h)
          rw [hb]
      | and xs | or xs =>
          have hxs : xs.map (value z v) = xs.map (value z v') := List.map_congr_left fun x hx => child x hx
          simp only [value, values_eq_map, hxs]
      | _ => simp_all [value, children]

end Term
end Backslice
