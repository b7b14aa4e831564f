import Backslice.Proofs.Truth

/-!
# Sorts and names

A word term has expressions in every place; operands of memory cells, operators
and equalities are word terms where sorts are respected. A well-sorted formula
has connectives over equalities of word terms, word terms that stand for "not
zero", and quantifiers over a variable and a well-sorted body.

Names with a `#` are not written by anybody but the analysis. A term without
variables of such names is plain.
-/

namespace Backslice.Term

/-- Whether every node of a term is an expression. -/
def IsWord (t : Term) : Prop :=
  ∀ u ∈ t.subterms, u.isExpression = true

instance (t : Term) : Decidable t.IsWord :=
  inferInstanceAs (Decidable (∀ u ∈ t.subterms, _))

/-- Variables of names that are left to the analysis. -/
def isReserved : Term → Bool
  | .var n => '#' ∈ n.toList
  | _ => false

theorem exists_of_isReserved {t : Term} (h : t.isReserved = true) : ∃ n, t = .var n := by
  cases t <;> first | exact ⟨_, rfl⟩ | exact absurd h Bool.false_ne_true

theorem exists_of_isRegister {t : Term} (h : t.isRegister = true) : ∃ n o s, t = .reg n o s := by
  cases t <;> first | exact ⟨_, _, _, rfl⟩ | exact absurd h Bool.false_ne_true

theorem exists_of_isMemoryCell {t : Term} (h : t.isMemoryCell = true) : ∃ a, t = .mem a := by
  cases t <;> first | exact ⟨_, rfl⟩ | exact absurd h Bool.false_ne_true

theorem isLvalue_cases {t : Term} (h : t.isLvalue = true) : t.isRegister = true ∨ ∃ a, t = .mem a := by
  rw [isLvalue, Bool.or_eq_true] at h
  exact h.imp_right exists_of_isMemoryCell

/-- Whether no variable of a term has a `#` in its name. -/
def Plain (t : Term) : Prop :=
  ∀ u ∈ t.subterms, u.isReserved = false

instance (t : Term) : Decidable t.Plain :=
  inferInstanceAs (Decidable (∀ u ∈ t.subterms, _))

theorem forall_subterms_iff {P : Term → Prop} (t : Term) :
    (∀ u ∈ t.subterms, P u) ↔ P t ∧ ∀ c ∈ t.children, ∀ u ∈ c.subterms, P u := by
  rw [subterms_eq, List.forall_mem_cons]
  simp only [List.mem_flatMap, forall_exists_index, and_imp]
  exact and_congr_right fun _ => ⟨fun h c hc u hu => h u c hc hu, fun h u c hc hu => h c hc u hu⟩

theorem isWord_iff (t : Term) : t.IsWord ↔ t.isExpression = true ∧ ∀ c ∈ t.children, c.IsWord :=
  forall_subterms_iff t

theorem plain_iff (t : Term) : t.Plain ↔ t.isReserved = false ∧ ∀ c ∈ t.children, c.Plain :=
  forall_subterms_iff t

theorem IsWord.child {t c : Term} (h : t.IsWord) (hc : c ∈ t.children) : c.IsWord :=
  ((isWord_iff t).1 h).2 c hc

theorem plain_iff_symbols (t : Term) : t.Plain ↔ ∀ u ∈ t.symbols, u.isReserved = false := by
  constructor
  · intro h u hu
    exact h u (mem_symbols_iff.1 hu).1
  · intro h u hu
    by_cases hs : u.isSymbol = true
    · exact h u (mem_symbols_iff.2 ⟨hu, hs⟩)
    · cases u <;> first | rfl | exact absurd rfl hs

theorem Plain.of_symbols {t t' : Term} (h : t.Plain) (hsub : ∀ u ∈ t'.symbols, u ∈ t.symbols) : t'.Plain :=
  (plain_iff_symbols t').2 fun u hu => (plain_iff_symbols t).1 h u (hsub u hu)

theorem mem_subterms_trans {t u w : Term} (hu : u ∈ t.subterms) (hw : w ∈ u.subterms) : w ∈ t.subterms := by
  induction t using inductionOnChildren with
  | step t ih =>
      rw [subterms_eq] at hu
      rcases List.mem_cons.1 hu with rfl | hu
      · exact hw
      · obtain ⟨c, hc, hu⟩ := List.mem_flatMap.1 hu
        exact mem_subterms_of_mem_children hc (ih c hc hu)

theorem IsWord.of_mem_subterms {t u : Term} (h : t.IsWord) (hu : u ∈ t.subterms) : u.IsWord :=
  fun w hw => h w (mem_subterms_trans hu hw)

theorem Plain.of_mem_subterms {t u : Term} (h : t.Plain) (hu : u ∈ t.subterms) : u.Plain :=
  fun w hw => h w (mem_subterms_trans hu hw)

@[simp]
theorem isWord_const (w : UInt64) : (const w).IsWord := by simp [IsWord, subterms, isExpression]

@[simp]
theorem isWord_var (n : String) : (var n).IsWord := by simp [IsWord, subterms, isExpression]

@[simp]
theorem isWord_reg (n : String) (o s : UInt16) : (reg n o s).IsWord := by simp [IsWord, subterms, isExpression]

@[simp]
theorem isWord_mem (a : Term) : (mem a).IsWord ↔ a.IsWord := by
  rw [isWord_iff]
  simp [isExpression, children]

@[simp]
theorem isWord_unary (op : UnaryOp) (a : Term) : (unary op a).IsWord ↔ a.IsWord := by
  rw [isWord_iff]
  simp [isExpression, children]

@[simp]
theorem isWord_binary (op : BinaryOp) (a b : Term) : (binary op a b).IsWord ↔ a.IsWord ∧ b.IsWord := by
  rw [isWord_iff]
  simp [isExpression, children]

@[simp]
theorem plain_mem (a : Term) : (mem a).Plain ↔ a.Plain := by
  rw [plain_iff]
  simp [isReserved, children]

@[simp]
theorem plain_unary (op : UnaryOp) (a : Term) : (unary op a).Plain ↔ a.Plain := by
  rw [plain_iff]
  simp [isReserved, children]

@[simp]
theorem plain_binary (op : BinaryOp) (a b : Term) : (binary op a b).Plain ↔ a.Plain ∧ b.Plain := by
  rw [plain_iff]
  simp [isReserved, children]

@[simp]
theorem plain_eq (a b : Term) : (eq a b).Plain ↔ a.Plain ∧ b.Plain := by
  rw [plain_iff]
  simp [isReserved, children]

@[simp]
theorem plain_ite (c a b : Term) : (ite c a b).Plain ↔ c.Plain ∧ a.Plain ∧ b.Plain := by
  rw [plain_iff]
  simp [isReserved, children]

theorem IsWord.isExpression {t : Term} (h : t.IsWord) : t.isExpression = true :=
  ((isWord_iff t).1 h).1

/-- The placeholders of the analysis, among them the marker, do not occur in plain terms. -/
theorem Plain.not_mem_subterms {t u : Term} (h : t.Plain) (hu : u.isReserved = true) : u ∉ t.subterms :=
  fun hmem => Bool.false_ne_true ((h u hmem).symm.trans hu)

theorem Plain.marker_not_mem {t : Term} (h : t.Plain) : marker ∉ t.subterms :=
  h.not_mem_subterms rfl

theorem Plain.ne_marker {t : Term} (h : t.Plain) : t ≠ marker := by
  rintro rfl
  exact h.marker_not_mem (mem_subterms_self _)

/-- The storage locations of terms without names of the analysis. -/
def IsLocation (l : Term) : Prop :=
  l.isLvalue = true ∧ l.Plain

/-- Whether a term is a formula that respects sorts. -/
def IsFormula (t : Term) : Prop :=
  foldUp
    (fun u found =>
      match u, found with
      | .bool _, _ => True
      | .eq a b, _ => a.IsWord ∧ b.IsWord
      | .quantified _ a _, [_, body] => a.isVariable = true ∧ body
      | .not _, ps | .and _, ps | .or _, ps | .ite _ _ _, ps => ∀ p ∈ ps, p
      | u, _ => u.IsWord)
    t

theorem isFormula_eq_iff (a b : Term) : (Term.eq a b).IsFormula ↔ a.IsWord ∧ b.IsWord := Iff.rfl

theorem isFormula_quantified_iff (q : Quantifier) (a b : Term) :
    (quantified q a b).IsFormula ↔ a.isVariable = true ∧ b.IsFormula := Iff.rfl

theorem IsFormula.child {t c : Term} (h : t.IsFormula) (ht : t.isAtom = false) (hc : c ∈ t.children) :
    c.IsFormula := by
  rw [IsFormula, foldUp_eq] at h
  cases t <;> simp only [isAtom, Bool.true_eq_false] at ht
  case const | bool => simp [children] at hc
  all_goals exact h _ (List.mem_map_of_mem hc)

theorem IsFormula.of_mem_formulaAtoms {t u : Term} (h : t.IsFormula) (hu : u ∈ t.formulaAtoms) : u.IsFormula := by
  induction t using inductionOnChildren with
  | step t ih =>
      by_cases ht : t.isAtom = true
      · rw [formulaAtoms_of_isAtom ht, List.mem_singleton] at hu
        exact hu ▸ h
      · have ht : t.isAtom = false := by simpa using ht
        obtain ⟨c, hc, hu⟩ := collects_formulaAtoms.exists_child ht hu
        exact ih c hc (h.child ht hc) hu

theorem IsWord.isFormula {t : Term} (h : t.IsWord) : t.IsFormula := by
  have hexp := h.isExpression
  cases t <;> first | exact h | simp [Term.isExpression] at hexp

theorem IsFormula.isWord {t : Term} (h : t.IsFormula) (ht : t.isExpression = true) : t.IsWord := by
  cases t <;> first | exact h | simp [Term.isExpression] at ht

end Backslice.Term
