import Backslice.DisjunctiveForm
import Backslice.Subterm

/-!
# What is found in the operands of connectives

Negations, conjunctions, disjunctions and conditionals are connectives; together
with constants and truth values, which have no operands, they are the terms that
are no atoms. A list of things found in a term that consists, for all of these,
of what is found in the children, is found in the connectives built by the
constructors as well: these drop and merge operands and add nothing.

The atoms of a formula and the symbols of a term are found in this way.
-/

namespace Backslice.Term

/-- Terms that are neither connectives nor decided. -/
def isAtom : Term → Bool
  | .const _ | .bool _ | .not _ | .and _ | .or _ | .ite _ _ _ => false
  | _ => true

/-- The term with these different operands, by what it is without operands. -/
def joined (unit : Bool) (wrap : List Term → Term) : List Term → Term
  | [] => .bool unit
  | [x] => x
  | xs => if .bool (!unit) ∈ xs then .bool !unit else wrap xs

theorem conj_eq (ts : List Term) : conj ts = joined true .and (ts.flatMap conjuncts).eraseDups := by
  rw [conj, distinct_eq_eraseDups]
  rfl

theorem disj_eq (ts : List Term) : disj ts = joined false .or (ts.flatMap disjuncts).eraseDups := by
  rw [disj, distinct_eq_eraseDups]
  rfl

/-- Whether a term is put together from the images of the children of another, or is this other term, with
children that are their own images. -/
def IsRebuilt (f : Term → Term) (t u : Term) : Prop :=
  u = t.withChildren (t.children.map f) ∨ (u = t ∧ ∀ c ∈ t.children, f c = c)

theorem isRebuilt_updateChildren (f : Term → Term) (t : Term) :
    IsRebuilt f t (t.updateChildren (t.children.map f)) := by
  unfold updateChildren
  split
  next h => exact Or.inr ⟨rfl, fun c hc => List.map_eq_map_iff.1 (h.trans (List.map_id _).symm) c hc⟩
  next => exact Or.inl rfl

/-- Whether all that is found in a term that is no atom is found in its children. -/
def Collects {α : Type} (found : Term → List α) : Prop :=
  ∀ t : Term, t.isAtom = false → found t = t.children.flatMap found

namespace Collects
variable {α : Type} {found : Term → List α} (hf : Collects found) {x : α}
include hf

theorem of_child {t c : Term} (ht : t.isAtom = false) (hc : c ∈ t.children) (hx : x ∈ found c) : x ∈ found t := by
  rw [hf t ht]
  exact List.mem_flatMap.2 ⟨c, hc, hx⟩

theorem exists_child {t : Term} (ht : t.isAtom = false) (hx : x ∈ found t) : ∃ c ∈ t.children, x ∈ found c := by
  rw [hf t ht] at hx
  exact List.mem_flatMap.1 hx

theorem eq_nil {t : Term} (ht : t.isAtom = false) (hc : t.children = []) : found t = [] := by
  rw [hf t ht, hc]
  rfl

theorem asFormula (t : Term) : found t.asFormula = found t := by
  cases t <;> first | rfl | exact (hf.eq_nil rfl rfl).trans (hf.eq_nil rfl rfl).symm

theorem not (t : Term) : found (.not t) = found t := by
  rw [hf (.not t) rfl]
  simp [children]

theorem negate (t : Term) : found t.negate = found t := by
  cases t <;> first
    | exact (hf.eq_nil rfl rfl).trans (hf.eq_nil rfl rfl).symm
    | exact (hf.not _).symm
    | exact hf.not _

theorem of_mem_conjuncts {t y : Term} (hy : y ∈ t.conjuncts) (hx : x ∈ found y) : x ∈ found t := by
  rw [← hf.asFormula]
  unfold conjuncts at hy
  split at hy
  next => simp at hy
  next xs h => exact h ▸ hf.of_child (t := .and xs) rfl hy hx
  next => rwa [← List.mem_singleton.1 hy]

theorem of_mem_disjuncts {t y : Term} (hy : y ∈ t.disjuncts) (hx : x ∈ found y) : x ∈ found t := by
  rw [← hf.asFormula]
  unfold disjuncts at hy
  split at hy
  next => simp at hy
  next xs h => exact h ▸ hf.of_child (t := .or xs) rfl hy hx
  next => rwa [← List.mem_singleton.1 hy]

theorem exists_of_joined {unit : Bool} {wrap : List Term → Term} (hwrap : ∀ ts, found (wrap ts) = ts.flatMap found)
    {ts : List Term} (hx : x ∈ found (joined unit wrap ts)) : ∃ t ∈ ts, x ∈ found t := by
  unfold joined at hx
  split at hx
  next => simp [hf.eq_nil (t := .bool unit) rfl rfl] at hx
  next t => exact ⟨t, by simp, hx⟩
  next =>
    split at hx
    next => simp [hf.eq_nil (t := .bool !unit) rfl rfl] at hx
    next =>
      rw [hwrap] at hx
      exact List.mem_flatMap.1 hx

theorem exists_of_conj {ts : List Term} (hx : x ∈ found (conj ts)) : ∃ t ∈ ts, x ∈ found t := by
  rw [conj_eq] at hx
  obtain ⟨y, hy, hx⟩ := hf.exists_of_joined (fun ts => hf (.and ts) rfl) hx
  obtain ⟨t, ht, hy⟩ := List.mem_flatMap.1 (List.mem_eraseDups.1 hy)
  exact ⟨t, ht, hf.of_mem_conjuncts hy hx⟩

theorem exists_of_disj {ts : List Term} (hx : x ∈ found (disj ts)) : ∃ t ∈ ts, x ∈ found t := by
  rw [disj_eq] at hx
  obtain ⟨y, hy, hx⟩ := hf.exists_of_joined (fun ts => hf (.or ts) rfl) hx
  obtain ⟨t, ht, hy⟩ := List.mem_flatMap.1 (List.mem_eraseDups.1 hy)
  exact ⟨t, ht, hf.of_mem_disjuncts hy hx⟩

theorem exists_of_withChildren {t : Term} (ht : t.isAtom = false) {f : Term → Term}
    (hx : x ∈ found (t.withChildren (t.children.map f))) : ∃ c ∈ t.children, x ∈ found (f c) := by
  cases t with
  | not a => exact ⟨a, by simp [children], by simpa [withChildren, children, hf.negate] using hx⟩
  | and ts =>
      obtain ⟨y, hy, hx⟩ := hf.exists_of_conj hx
      obtain ⟨t, ht, rfl⟩ := List.mem_map.1 hy
      exact ⟨t, ht, hx⟩
  | or ts =>
      obtain ⟨y, hy, hx⟩ := hf.exists_of_disj hx
      obtain ⟨t, ht, rfl⟩ := List.mem_map.1 hy
      exact ⟨t, ht, hx⟩
  | ite c a b =>
      obtain ⟨y, hy, hx⟩ := hf.exists_child rfl hx
      obtain ⟨d, hd, rfl⟩ := List.mem_map.1 (show y ∈ (ite c a b).children.map f from hy)
      exact ⟨d, hd, hx⟩
  | const _ | bool _ =>
      obtain ⟨y, hy, -⟩ := hf.exists_child rfl hx
      simp [children, withChildren] at hy
  | _ => simp [isAtom] at ht

theorem exists_of_isRebuilt {t u : Term} (ht : t.isAtom = false) {f : Term → Term} (hu : IsRebuilt f t u)
    (hx : x ∈ found u) : ∃ c ∈ t.children, x ∈ found (f c) := by
  rcases hu with rfl | ⟨rfl, hsame⟩
  · exact hf.exists_of_withChildren ht hx
  · obtain ⟨c, hc, hx⟩ := hf.exists_child ht hx
    exact ⟨c, hc, by rwa [hsame c hc]⟩

end Collects

/-- The atoms of a formula, from left to right. -/
def formulaAtoms (t : Term) : List Term :=
  foldUp (fun u found => if u.isAtom then [u] else found.flatten) t

theorem formulaAtoms_eq (t : Term) :
    t.formulaAtoms = if t.isAtom then [t] else t.children.flatMap formulaAtoms := by
  rw [formulaAtoms, foldUp_eq, List.flatMap_def]
  rfl

theorem formulaAtoms_of_isAtom {t : Term} (h : t.isAtom = true) : t.formulaAtoms = [t] := by
  simp [formulaAtoms_eq, h]

theorem collects_formulaAtoms : Collects formulaAtoms := fun t ht => by
  rw [formulaAtoms_eq, ht]
  rfl

theorem isAtom_of_mem_formulaAtoms {t u : Term} (h : u ∈ t.formulaAtoms) : u.isAtom = true := by
  induction t using inductionOnChildren with
  | step t ih =>
      rw [formulaAtoms_eq] at h
      split at h
      next ht => rwa [List.mem_singleton.1 h]
      next =>
        obtain ⟨c, hc, hu⟩ := List.mem_flatMap.1 h
        exact ih c hc hu

theorem mem_subterms_of_mem_formulaAtoms {t u : Term} (h : u ∈ t.formulaAtoms) : u ∈ t.subterms := by
  induction t using inductionOnChildren with
  | step t ih =>
      rw [subterms_eq]
      rw [formulaAtoms_eq] at h
      split at h
      next => exact List.mem_cons.2 (Or.inl (List.mem_singleton.1 h))
      next =>
        obtain ⟨c, hc, hu⟩ := List.mem_flatMap.1 h
        exact List.mem_cons_of_mem _ (List.mem_flatMap.2 ⟨c, hc, ih c hc hu⟩)

/-- Variables and register cells. -/
def isSymbol (t : Term) : Bool :=
  t.isVariable || t.isRegister

/-- The variables and register cells that occur in a term. -/
def symbols (t : Term) : List Term :=
  t.subterms.filter isSymbol

theorem mem_symbols_iff {t u : Term} : u ∈ t.symbols ↔ u ∈ t.subterms ∧ u.isSymbol = true :=
  List.mem_filter

theorem symbols_eq (t : Term) : t.symbols = (if t.isSymbol then [t] else []) ++ t.children.flatMap symbols := by
  rw [symbols, subterms_eq, List.filter_cons, List.filter_flatMap]
  split <;> rfl

theorem symbols_of_not_isSymbol {t : Term} (h : t.isSymbol = false) : t.symbols = t.children.flatMap symbols := by
  rw [symbols_eq, h]
  rfl

@[simp]
theorem symbols_const (w : UInt64) : (const w).symbols = [] := rfl

@[simp]
theorem symbols_bool (b : Bool) : (bool b).symbols = [] := rfl

@[simp]
theorem symbols_mem (a : Term) : (mem a).symbols = a.symbols := by
  simp [symbols_of_not_isSymbol (t := mem a) rfl, children]

@[simp]
theorem symbols_unary (op : UnaryOp) (a : Term) : (unary op a).symbols = a.symbols := by
  simp [symbols_of_not_isSymbol (t := unary op a) rfl, children]

@[simp]
theorem symbols_binary (op : BinaryOp) (a b : Term) : (binary op a b).symbols = a.symbols ++ b.symbols := by
  simp [symbols_of_not_isSymbol (t := binary op a b) rfl, children]

@[simp]
theorem symbols_equality (a b : Term) : (eq a b).symbols = a.symbols ++ b.symbols := by
  simp [symbols_of_not_isSymbol (t := eq a b) rfl, children]

@[simp]
theorem symbols_quantified (q : Quantifier) (a b : Term) : (quantified q a b).symbols = a.symbols ++ b.symbols := by
  simp [symbols_of_not_isSymbol (t := quantified q a b) rfl, children]

@[simp]
theorem symbols_ite (c a b : Term) : (ite c a b).symbols = c.symbols ++ (a.symbols ++ b.symbols) := by
  simp [symbols_of_not_isSymbol (t := ite c a b) rfl, children]

theorem mem_symbols_of_mem_subterms {t u x : Term} (hu : u ∈ t.subterms) (hx : x ∈ u.symbols) : x ∈ t.symbols := by
  induction t using inductionOnChildren with
  | step t ih =>
      rw [subterms_eq] at hu
      rcases List.mem_cons.1 hu with rfl | hu
      · exact hx
      · obtain ⟨c, hc, hu⟩ := List.mem_flatMap.1 hu
        rw [symbols_eq]
        exact List.mem_append_right _ (List.mem_flatMap.2 ⟨c, hc, ih c hc hu⟩)

theorem collects_symbols : Collects symbols := fun t ht =>
  symbols_of_not_isSymbol (by cases t <;> first | rfl | simp [isAtom] at ht)

end Backslice.Term
