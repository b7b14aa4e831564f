import Backslice.Proofs.ErasedPlaceholders
import Backslice.Proofs.ManagedTerms
import Mathlib

/-!
# Managers do not show in the sets they make

A set is passed backward inside of a manager, which has its own handles, its own
width and history, and its own count of the placeholders taken. None of it shows
in the set that is made: two managers in which a set and an arrow are the same
terms come to the same term.

There are two parts to it. An operation sees its operands as terms, and the
handles it returns denote its results as terms; this leaves the count of
placeholders. As no placeholder is left in the set in front of an arrow, their
names do not matter either.
-/

namespace Backslice

namespace Arena

/-- Whether the arena is that of a manager, after some operations. -/
def IsManaged (a : Arena) : Prop :=
  ∃ bits created ops, Manager.new bits = .ok created ∧ (created.run ops).2.arena = a

theorem IsManaged.exists_width {a : Arena} (h : a.IsManaged) :
    ∃ bits created ops, bits ≤ 31 ∧ Manager.new bits = .ok created ∧ (created.run ops).2.arena = a := by
  obtain ⟨bits, created, ops, hcreated, hrun⟩ := h
  refine ⟨bits, created, ops, ?_, hcreated, hrun⟩
  by_contra hbits
  simp [Manager.new, Arena.new, UniqueTable.withBits, hbits, bind, Except.bind] at hcreated

theorem IsManaged.exists_holds {a : Arena} (h : a.IsManaged) : ∃ ts, a.Holds ts := by
  obtain ⟨bits, created, ops, hbits, hcreated, rfl⟩ := h.exists_width
  obtain ⟨created', ts, hnew, -, hts, -⟩ := Manager.exists_new hbits
  obtain rfl := Except.ok.inj (hcreated.symm.trans hnew)
  obtain ⟨us, hus, -⟩ := Manager.holds_run hts ops
  exact ⟨us, hus⟩

theorem IsManaged.exists_holds_forall {P : Term → Prop} (hP : Term.IsHereditary P) {a : Arena} (h : a.IsManaged) :
    ∃ ts, a.Holds ts ∧ ∀ t ∈ ts, P t := by
  obtain ⟨bits, created, ops, hbits, hcreated, rfl⟩ := h.exists_width
  obtain ⟨created', handles, m, ts, hcreated', hrun, hts, hall⟩ := Manager.exists_run hP hbits ops
  obtain rfl := Except.ok.inj (hcreated.symm.trans hcreated')
  rw [hrun]
  exact ⟨ts, hts, hall⟩

end Arena

namespace Manager

variable {m : Manager} {set : Nat} {options : Options} {handles : ArrowHandles} {s : ConditionalSet} {arrow : Arrow}

/-- Whether an operation returns one handle, which denotes the term. -/
def Returns (m : Manager) (op : Operation) (t : Term) : Prop :=
  ∃ i, (m.perform op).1 = .ok [i] ∧ (m.perform op).2.arena.term? i = some t

theorem perform_of_refused {op : Operation} {e : Refusal} (h : (m.outcome op).1 = .error e) :
    (m.perform op).1 = .error e := by
  cases houtcome : m.outcome op with
  | mk result draft =>
      rw [houtcome] at h
      obtain rfl := h
      simp only [perform, houtcome]

/-- A property that operations keep is one of all terms of a manager, also after further operations. -/
theorem property_run {P : Term → Prop} (hP : Term.IsHereditary P) (hm : m.arena.IsManaged) (ops : List Operation)
    {i : Nat} {t : Term} (hi : (m.run ops).2.arena.term? i = some t) : P t := by
  obtain ⟨ts, hts, hall⟩ := hm.exists_holds_forall hP
  obtain ⟨us, hus, -⟩ := holds_run hts ops
  rw [hus.term?_eq] at hi
  exact forall_run hP hts hall ops hus t (mem_of_termAt hi)

theorem returns_of_outcome (hm : m.arena.IsManaged) {op : Operation} {t : Term} (h : (m.outcome op).1 = .ok [t]) :
    m.Returns op t := by
  obtain ⟨ts, hts⟩ := hm.exists_holds
  obtain ⟨us, i, hus, -, hreturned, hi⟩ := exists_handle hts h
  exact ⟨i, hreturned, (hus.term?_eq i).trans hi⟩

/-- Whether handles of a manager denote a set and an arrow. -/
structure Denotes (m : Manager) (set : Nat) (handles : ArrowHandles) (s : ConditionalSet) (arrow : Arrow) : Prop where
  managed : m.arena.IsManaged
  set_eq : m.arena.term? set = some s
  arrow_eq : m.arena.arrow? handles = some arrow

theorem exists_denotes {bits : Nat} {ops : List Operation}
    (h : (Manager.new bits).map (fun created =>
        ((created.run ops).2.arena.term? set, (created.run ops).2.arena.arrow? handles)) = .ok (some s, some arrow)) :
    ∃ created, Manager.new bits = .ok created ∧ (created.run ops).2.Denotes set handles s arrow := by
  obtain ⟨created, hcreated, hread⟩ := Except.exists_of_map_eq_ok h
  obtain ⟨hset, harrow⟩ := Prod.mk.inj hread
  exact ⟨created, hcreated, ⟨bits, created, ops, hcreated, rfl⟩, hset, harrow⟩

/-- One term without placeholders, or one refusal, is what all managers come to. -/
theorem before_cases (hs : Term.NoPlaceholders s) (harrow : arrow.NoPlaceholders) (options : Options) :
    (∃ l, arrow.assigned? = some l ∧ l.isLvalue = false ∧
        ∀ (m : Manager) (set : Nat) (handles : ArrowHandles), m.Denotes set handles s arrow →
          (m.perform (.before set options handles)).1 = .error (.analysis (.assignmentToNonLvalue l))) ∨
      ∃ t : Term, t.NoPlaceholders ∧
        ∀ (m : Manager) (set : Nat) (handles : ArrowHandles), m.Denotes set handles s arrow →
          m.Returns (.before set options handles) t := by
  rcases ConditionalSet.before_cases hs options harrow with ⟨l, hl, hlvalue, hrefused⟩ | ⟨t, ht, hbefore⟩
  · refine Or.inl ⟨l, hl, hlvalue, fun m set handles h => perform_of_refused ?_⟩
    rw [outcome_before h.set_eq h.arrow_eq, hrefused]
  · refine Or.inr ⟨t, ht, fun m set handles h => returns_of_outcome h.managed ?_⟩
    obtain ⟨names, hnames⟩ := hbefore m.names
    rw [outcome_before h.set_eq h.arrow_eq, hnames]

/-- Passing a set backward is a function of terms. Whatever the managers, their widths, what they were asked before and
how many placeholders they have taken: if a set and an arrow are the same terms in both, so are the sets in front of the
arrow, and no placeholder occurs in them. If the arrow assigns something that is no storage location, both refuse. -/
theorem before_agrees {m m' : Manager} {set set' : Nat} {handles handles' : ArrowHandles} {s : ConditionalSet}
    {arrow : Arrow} (h : m.Denotes set handles s arrow) (h' : m'.Denotes set' handles' s arrow)
    (hs : Term.NoPlaceholders s) (harrow : arrow.NoPlaceholders) (options : Options) :
    (∃ l, arrow.assigned? = some l ∧ l.isLvalue = false ∧
        (m.perform (.before set options handles)).1 = .error (.analysis (.assignmentToNonLvalue l)) ∧
        (m'.perform (.before set' options handles')).1 = .error (.analysis (.assignmentToNonLvalue l))) ∨
      ∃ t : Term, t.NoPlaceholders ∧ m.Returns (.before set options handles) t ∧
        m'.Returns (.before set' options handles') t := by
  rcases before_cases hs harrow options with ⟨l, hl, hlvalue, hrefused⟩ | ⟨t, ht, hreturns⟩
  · exact Or.inl ⟨l, hl, hlvalue, hrefused m set handles h, hrefused m' set' handles' h'⟩
  · exact Or.inr ⟨t, ht, hreturns m set handles h, hreturns m' set' handles' h'⟩

/-- A cell whose address is read from memory, as it is watched. -/
def watchedThrough : ConditionalSet :=
  ConditionalSet.member (.mem (.mem (.reg "p" 0 0)))

/-- The store may be to the watched cell, or to the one that holds its address. -/
def storeThrough : Arrow :=
  ⟨⟨0, 0⟩, some (.reg "v" 0 0), .assign (.mem (.reg "q" 0 0)) (.reg "v" 0 0), .fixed ⟨4, 0⟩⟩

/-- Their terms, one after the other. -/
def builtFirst : List Operation :=
  [.reg "p" 0 0, .mem 4, .mem 5, .member 6, .reg "q" 0 0, .mem 8, .reg "v" 0 0]

def storeFirst : ArrowHandles :=
  ⟨⟨0, 0⟩, some 10, .assign 9 10, .fixed ⟨4, 0⟩⟩

/-- The same terms, in another order and between others. -/
def builtLater : List Operation :=
  [.fresh "TMP", .reg "v" 0 0, .const 8, .reg "q" 0 0, .mem 7, .reg "p" 0 0, .mem 9, .mem 10, .member 11, .fresh "X"]

def storeLater : ArrowHandles :=
  ⟨⟨0, 0⟩, some 5, .assign 8 5, .fixed ⟨4, 0⟩⟩

/-- In managers of different widths and histories, where none of the handles is the same. -/
theorem before_agrees_storeThrough :
    ∃ created created', Manager.new 0 = .ok created ∧ Manager.new 4 = .ok created' ∧
      (created.run builtFirst).2.Denotes 7 storeFirst watchedThrough storeThrough ∧
      (created'.run builtLater).2.Denotes 12 storeLater watchedThrough storeThrough ∧
      Term.NoPlaceholders watchedThrough ∧ storeThrough.NoPlaceholders ∧
      ((∃ l, storeThrough.assigned? = some l ∧ l.isLvalue = false ∧
          ((created.run builtFirst).2.perform (.before 7 ⟨true, false⟩ storeFirst)).1 =
            .error (.analysis (.assignmentToNonLvalue l)) ∧
          ((created'.run builtLater).2.perform (.before 12 ⟨true, false⟩ storeLater)).1 =
            .error (.analysis (.assignmentToNonLvalue l))) ∨
        ∃ t : Term, t.NoPlaceholders ∧ (created.run builtFirst).2.Returns (.before 7 ⟨true, false⟩ storeFirst) t ∧
          (created'.run builtLater).2.Returns (.before 12 ⟨true, false⟩ storeLater) t) := by
  obtain ⟨created, hcreated, hfirst⟩ : ∃ created, Manager.new 0 = .ok created ∧
      (created.run builtFirst).2.Denotes 7 storeFirst watchedThrough storeThrough := exists_denotes (by cbv)
  obtain ⟨created', hcreated', hlater⟩ : ∃ created, Manager.new 4 = .ok created ∧
      (created.run builtLater).2.Denotes 12 storeLater watchedThrough storeThrough := exists_denotes (by cbv)
  have hset : Term.NoPlaceholders watchedThrough := by decide
  have harrow : storeThrough.NoPlaceholders :=
    { guard := by decide
      statement := ⟨(by decide : Term.NoPlaceholders (.mem (.reg "q" 0 0))),
        (by decide : Term.NoPlaceholders (.reg "v" 0 0))⟩ }
  exact ⟨created, created', hcreated, hcreated', hfirst, hlater, hset, harrow,
    before_agrees hfirst hlater hset harrow ⟨true, false⟩⟩

end Manager
end Backslice
