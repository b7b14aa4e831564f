import Backslice.Proofs.Lists
import Backslice.Reachability
import Mathlib.Data.List.Perm.Subperm
import Mathlib.Logic.Function.Iterate
import Mathlib.Logic.Relation

/-!
# What a search finds

Breadth-first search finds exactly what some path leads to, starting anywhere in
the start and staying inside the domain. The invariant has two halves: everything
found is reached, and the successors of whatever has left the queue are found.

A search that starts inside the domain is over after as many steps as the domain
has elements, because no element enters the queue twice.
-/

namespace Backslice.Reachability

variable {α : Type}

/-- One step of a path: to a successor inside the domain. -/
def Leads (domain : List α) (next : α → List α) (a b : α) : Prop :=
  b ∈ next a ∧ b ∈ domain

/-- Some path leads from the start to `x`. -/
def Reached (domain : List α) (next : α → List α) (start : List α) (x : α) : Prop :=
  ∃ a ∈ start, Relation.ReflTransGen (Leads domain next) a x

theorem Reached.step {domain : List α} {next : α → List α} {start : List α} {a b : α}
    (h : Reached domain next start a) (hb : Leads domain next a b) : Reached domain next start b := by
  obtain ⟨c, hc, path⟩ := h
  exact ⟨c, hc, path.tail hb⟩

variable [DecidableEq α]

theorem mem_found_foldl_discover {domain successors : List α} {s : State α} {x : α} :
    x ∈ (successors.foldl (discover domain) s).found ↔ x ∈ s.found ∨ (x ∈ successors ∧ x ∈ domain) := by
  induction successors generalizing s with
  | nil => simp
  | cons a rest ih =>
      rw [List.foldl_cons, ih]
      unfold discover
      split
      next h =>
        simp only [List.mem_append, List.mem_cons, List.not_mem_nil, or_false]
        constructor
        · rintro ((hx | rfl) | hx)
          · exact Or.inl hx
          · exact Or.inr ⟨Or.inl rfl, h.1⟩
          · exact Or.inr ⟨Or.inr hx.1, hx.2⟩
        · rintro (hx | ⟨rfl | hx, hd⟩)
          · exact Or.inl (Or.inl hx)
          · exact Or.inl (Or.inr rfl)
          · exact Or.inr ⟨hx, hd⟩
      next h =>
        simp only [List.mem_cons]
        constructor
        · rintro (hx | hx)
          · exact Or.inl hx
          · exact Or.inr ⟨Or.inr hx.1, hx.2⟩
        · rintro (hx | ⟨rfl | hx, hd⟩)
          · exact Or.inl hx
          · exact Or.inl (Decidable.byContradiction fun hx => h ⟨hd, hx⟩)
          · exact Or.inr ⟨hx, hd⟩

/-- What enters the queue is found, and what is found without being in the queue was found before. -/
theorem mem_queue_foldl_discover {domain successors : List α} {s : State α} {x : α} :
    x ∈ (successors.foldl (discover domain) s).queue ↔
      x ∈ s.queue ∨ (x ∈ (successors.foldl (discover domain) s).found ∧ x ∉ s.found) := by
  induction successors generalizing s with
  | nil =>
      simp only [List.foldl_nil]
      exact ⟨Or.inl, fun h => h.elim id fun h => absurd h.1 h.2⟩
  | cons a rest ih =>
      rw [List.foldl_cons, ih]
      unfold discover
      split
      next h =>
        have hfound : a ∈ (rest.foldl (discover domain) ⟨s.found ++ [a], s.queue ++ [a]⟩).found :=
          mem_found_foldl_discover.2 (Or.inl (by simp))
        simp only [List.mem_append, List.mem_singleton, not_or]
        constructor
        · rintro ((hx | rfl) | hx)
          · exact Or.inl hx
          · exact Or.inr ⟨hfound, h.2⟩
          · exact Or.inr ⟨hx.1, hx.2.1⟩
        · rintro (hx | hx)
          · exact Or.inl (Or.inl hx)
          · by_cases hxa : x = a
            · exact Or.inl (Or.inr hxa)
            · exact Or.inr ⟨hx.1, hx.2, hxa⟩
      next => exact Iff.rfl

/-- Everything found is reached, and the successors of what has left the queue are found. -/
structure Invariant (domain : List α) (next : α → List α) (start : List α) (s : State α) : Prop where
  start_found : ∀ a ∈ start, a ∈ s.found
  queue_found : ∀ a ∈ s.queue, a ∈ s.found
  reached : ∀ a ∈ s.found, Reached domain next start a
  followed : ∀ a ∈ s.found, a ∉ s.queue → ∀ b, Leads domain next a b → b ∈ s.found

theorem Invariant.step {domain : List α} {next : α → List α} {start : List α} {s : State α}
    (inv : Invariant domain next start s) {a : α} {rest : List α} (hq : s.queue = a :: rest) :
    Invariant domain next start ((next a).foldl (discover domain) ⟨s.found, rest⟩) := by
  have ha : a ∈ s.found := inv.queue_found a (by simp [hq])
  refine ⟨?_, ?_, ?_, ?_⟩
  · intro b hb
    exact mem_found_foldl_discover.2 (Or.inl (inv.start_found b hb))
  · intro b hb
    rcases mem_queue_foldl_discover.1 hb with hb | hb
    · exact mem_found_foldl_discover.2 (Or.inl (inv.queue_found b (by simp [hq, hb])))
    · exact hb.1
  · intro b hb
    rcases mem_found_foldl_discover.1 hb with hb | hb
    · exact inv.reached b hb
    · exact (inv.reached a ha).step hb
  · intro b hb hnot c hc
    have hbold : b ∈ s.found :=
      Decidable.byContradiction fun h => hnot (mem_queue_foldl_discover.2 (Or.inr ⟨hb, h⟩))
    by_cases hba : b = a
    · exact mem_found_foldl_discover.2 (Or.inr (hba ▸ hc))
    · have hnotold : b ∉ s.queue := by
        rw [hq]
        intro h
        rcases List.mem_cons.1 h with h | h
        · exact hba h
        · exact hnot (mem_queue_foldl_discover.2 (Or.inl h))
      exact mem_found_foldl_discover.2 (Or.inl (inv.followed b hbold hnotold c hc))

theorem Invariant.mem_search {domain : List α} {next : α → List α} {start : List α} {s : State α}
    (inv : Invariant domain next start s) (x : α) :
    x ∈ search domain next s ↔ Reached domain next start x := by
  rw [search]
  split
  next hq =>
    refine ⟨inv.reached x, ?_⟩
    rintro ⟨a, ha, path⟩
    induction path with
    | refl => exact inv.start_found a ha
    | tail _ hstep ih => exact inv.followed _ ih (by simp [hq]) _ hstep
  next a rest hq =>
    have := measure_foldl_discover_lt domain (next a) hq
    exact (inv.step hq).mem_search x
termination_by s.measure domain

/-- The search finds exactly what is reached. -/
theorem mem_reachable_iff (domain : List α) (next : α → List α) (start : List α) (x : α) :
    x ∈ reachable domain next start ↔ Reached domain next start x := by
  have mem_start : ∀ {a}, a ∈ start.eraseDups ↔ a ∈ start := List.mem_eraseDups
  refine Invariant.mem_search ⟨?_, ?_, ?_, ?_⟩ x
  · exact fun a ha => mem_start.2 ha
  · exact fun a ha => ha
  · exact fun a ha => ⟨a, mem_start.1 ha, .refl⟩
  · exact fun a ha hnot => absurd ha hnot

theorem anyReachable_iff (domain : List α) (next : α → List α) (start : List α) (test : α → Bool) :
    anyReachable domain next start test = true ↔ ∃ x, Reached domain next start x ∧ test x = true := by
  simp only [anyReachable_eq_any, List.any_eq_true, mem_reachable_iff]

/-- The state after one step, in which the first element of the queue is taken and its successors are noted. -/
def State.advance (domain : List α) (next : α → List α) (s : State α) : State α :=
  match s.queue with
  | [] => s
  | a :: rest => (next a).foldl (discover domain) ⟨s.found, rest⟩

theorem advance_of_nil {domain : List α} {next : α → List α} {s : State α} (h : s.queue = []) :
    s.advance domain next = s := by
  rw [State.advance, h]

theorem advance_of_cons {domain : List α} {next : α → List α} {s : State α} {a : α} {rest : List α}
    (h : s.queue = a :: rest) : s.advance domain next = (next a).foldl (discover domain) ⟨s.found, rest⟩ := by
  rw [State.advance, h]

/-- A search goes on from the state after one step, unless the queue is empty. -/
theorem search_eq (domain : List α) (next : α → List α) (s : State α) :
    search domain next s = if s.queue = [] then s.found else search domain next (s.advance domain next) := by
  rw [search]
  split
  next hq => rw [if_pos hq]
  next a rest hq => rw [if_neg (by rw [hq]; exact List.cons_ne_nil a rest), advance_of_cons hq]

theorem measure_advance_lt (domain : List α) (next : α → List α) {s : State α} (h : s.queue ≠ []) :
    (s.advance domain next).measure domain < s.measure domain := by
  obtain ⟨a, rest, hq⟩ := List.exists_cons_of_ne_nil h
  rw [advance_of_cons hq]
  exact measure_foldl_discover_lt domain (next a) hq

/-- As many steps as the measure says empty the queue, and what is found then is what the search finds. -/
theorem search_eq_iterate {domain : List α} {next : α → List α} {s : State α} {n : Nat} (hn : s.measure domain ≤ n) :
    ((State.advance domain next)^[n] s).queue = [] ∧
      search domain next s = ((State.advance domain next)^[n] s).found := by
  induction n generalizing s with
  | zero =>
      have hq : s.queue = [] := List.length_eq_zero_iff.1 (Nat.le_zero.1 (Nat.le_trans (Nat.le_add_right _ _) hn))
      rw [search_eq, if_pos hq]
      exact ⟨hq, rfl⟩
  | succ n ih =>
      by_cases hq : s.queue = []
      · rw [Function.iterate_fixed (advance_of_nil hq), search_eq, if_pos hq]
        exact ⟨hq, rfl⟩
      · have hless := measure_advance_lt domain next hq
        rw [Function.iterate_succ_apply, search_eq, if_neg hq]
        exact ih (by omega)

theorem measure_start_le {domain start : List α} (h : start ⊆ domain) :
    (State.mk start.eraseDups start.eraseDups).measure domain ≤ domain.length := by
  have hsub : start.eraseDups ⊆ domain.filter (· ∈ start.eraseDups) := fun a ha =>
    List.mem_filter.2 ⟨h (List.mem_eraseDups.1 ha), decide_eq_true ha⟩
  have hle := ((List.nodup_eraseDups start).subperm hsub).length_le
  have hsplit := List.length_eq_length_filter_add (l := domain) fun a => decide (a ∈ start.eraseDups)
  simp only [State.measure, State.missing, decide_not]
  omega

end Backslice.Reachability
