import Backslice.Manager
import Backslice.Proofs.StoredTerms
import Mathlib

/-!
# Handles of a manager

Whatever is asked of a manager, and in whatever order, its handles stand for
terms as the terms themselves would: equal handles for equal terms, and a
handle for the same term as long as the manager is used. That two terms are
one is therefore decided by comparing their handles.

An operation changes an arena only by naming texts and by storing terms. Both
keep the terms that are held in their places, so that a run of operations does,
by induction on the run.
-/

namespace Backslice

namespace Arena

/-- The handles of an arena stand for its terms, one for one. -/
structure IsFaithful (a : Arena) : Prop where
  denotes : ∀ i, 0 < i → i ≤ a.size → ∃ t, a.term? i = some t
  unique : ∀ i j t, a.term? i = some t → a.term? j = some t → i = j
  descends : ∀ i node, a.nodes.valueAt i = .ok node → ∀ c ∈ node.children, 0 < c ∧ c < i
  /-- A term is stored once. -/
  shared : ∀ i t, a.term? i = some t → a.intern t = (i, a)
  /-- To store a term whose children are stored is to store one node. -/
  single : ∀ node t, node.term? a.names a.term? = some t → a.intern t = a.internNode node

theorem Holds.isFaithful {a : Arena} {ts : List Term} (h : a.Holds ts) : a.IsFaithful where
  denotes i hpos hle := by
    obtain ⟨k, rfl⟩ := Nat.exists_eq_succ_of_ne_zero (Nat.ne_of_gt hpos)
    have hlt : k < ts.length := by
      rw [h.length_eq]
      exact hle
    exact ⟨ts[k], (h.term?_eq (k + 1)).trans (List.getElem?_eq_getElem hlt)⟩
  unique i j t hi hj := by
    rw [h.term?_eq] at hi hj
    exact termAt_inj h.terms_nodup hi hj
  descends i node hi c hc := h.lt_of_mem_children hi hc
  shared i t hi := h.intern_eq (h.term?_eq i ▸ hi)
  single node t hnode := h.intern_eq_internNode (funext h.term?_eq ▸ hnode)

end Arena

namespace Manager

variable {m : Manager} {ts : List Term}

theorem holds_grown (h : m.arena.Holds ts) (op : Operation) : ∃ us, (m.grown op).Holds us ∧ ts <+: us := by
  obtain ⟨us, hus, hmore, -⟩ := h.store (m.outcome op).2.built.reverse
  refine ⟨us, ?_, hmore⟩
  cases op with
  | name text => exact (hus.internName text).1
  | _ => exact hus

/-- One operation moves no term. What it returns are handles of its results, or its refusal. -/
theorem holds_perform (h : m.arena.Holds ts) (op : Operation) :
    ∃ us, (m.perform op).2.arena.Holds us ∧ ts <+: us ∧
      (m.perform op).1.map (·.map (termAt us)) = (m.outcome op).1.map (·.map some) := by
  obtain ⟨us, hus, hmore⟩ := holds_grown h op
  unfold perform
  cases m.outcome op with
  | mk result draft =>
    cases result with
    | error e => exact ⟨us, hus, hmore, rfl⟩
    | ok results =>
        obtain ⟨vs, hvs, hmore', hhandles, -⟩ := hus.internAll results
        exact ⟨vs, hvs, hmore.trans hmore', congrArg Except.ok hhandles⟩

theorem exists_handles (h : m.arena.Holds ts) {op : Operation} {results : List Term}
    (hop : (m.outcome op).1 = .ok results) :
    ∃ us handles, (m.perform op).2.arena.Holds us ∧ ts <+: us ∧ (m.perform op).1 = .ok handles ∧
      handles.map (termAt us) = results.map some := by
  obtain ⟨us, hus, hmore, hreturned⟩ := holds_perform h op
  rw [hop] at hreturned
  cases hhandles : (m.perform op).1 with
  | error e =>
      rw [hhandles] at hreturned
      cases hreturned
  | ok handles =>
      rw [hhandles] at hreturned
      exact ⟨us, handles, hus, hmore, rfl, Except.ok.inj hreturned⟩

theorem exists_handle (h : m.arena.Holds ts) {op : Operation} {t : Term} (hop : (m.outcome op).1 = .ok [t]) :
    ∃ us i, (m.perform op).2.arena.Holds us ∧ ts <+: us ∧ (m.perform op).1 = .ok [i] ∧ termAt us i = some t := by
  obtain ⟨us, handles, hus, hmore, hreturned, hmap⟩ := exists_handles h hop
  obtain ⟨i, rfl, hi⟩ := List.map_eq_singleton_iff.1 hmap
  exact ⟨us, i, hus, hmore, hreturned, hi⟩

theorem perform_of_all_held (h : m.arena.Holds ts) {op : Operation} {results : List Term}
    (hop : (m.outcome op).1 = .ok results) {handles : List Nat} (hheld : handles.map (termAt ts) = results.map some) :
    (m.perform op).1 = .ok handles := by
  obtain ⟨us, returned, hus, hmore, hreturned, hmap⟩ := exists_handles h hop
  rw [hreturned, map_termAt_inj hus.terms_nodup hmap (List.map_eq_some_mono (termAt_mono hmore) hheld)]

theorem perform_of_held (h : m.arena.Holds ts) {op : Operation} {t : Term} (hop : (m.outcome op).1 = .ok [t]) {i : Nat}
    (hi : termAt ts i = some t) : (m.perform op).1 = .ok [i] :=
  perform_of_all_held h hop (by rw [List.map_singleton, hi, List.map_singleton])

theorem run_cons (m : Manager) (op : Operation) (ops : List Operation) :
    m.run (op :: ops) =
      ((m.perform op).1.toOption.getD [] ++ ((m.perform op).2.run ops).1, ((m.perform op).2.run ops).2) :=
  rfl

theorem run_append (m : Manager) (ops ops' : List Operation) :
    (m.run (ops ++ ops')).2 = ((m.run ops).2.run ops').2 := by
  induction ops generalizing m with
  | nil => rfl
  | cons op ops ih => exact ih _

/-- Operations one after the other move no term, and every handle returned denotes one. -/
theorem holds_run (h : m.arena.Holds ts) (ops : List Operation) :
    ∃ us, (m.run ops).2.arena.Holds us ∧ ts <+: us ∧ ∀ i ∈ (m.run ops).1, ∃ t, termAt us i = some t := by
  induction ops generalizing m ts with
  | nil => exact ⟨ts, h, List.prefix_refl ts, fun i hi => absurd hi List.not_mem_nil⟩
  | cons op ops ih =>
      obtain ⟨us, hus, hmore, hreturned⟩ := holds_perform h op
      obtain ⟨vs, hvs, hmore', hlater⟩ := ih hus
      rw [run_cons]
      refine ⟨vs, hvs, hmore.trans hmore', fun i hi => ?_⟩
      rcases List.mem_append.1 hi with hfirst | hrest
      · cases hhandles : (m.perform op).1 with
        | error e => simp [hhandles, Except.toOption] at hfirst
        | ok handles =>
            rw [hhandles] at hfirst hreturned
            cases hresults : (m.outcome op).1 with
            | error e => simp [hresults, Except.map] at hreturned
            | ok results =>
                rw [hresults] at hreturned
                have hmap : handles.map (termAt us) = results.map some := Except.ok.inj hreturned
                have hmem : termAt us i ∈ results.map some := hmap ▸ List.mem_map_of_mem hfirst
                obtain ⟨t, -, ht⟩ := List.mem_map.1 hmem
                exact ⟨t, termAt_mono hmore' ht.symm⟩
      · exact hlater i hrest

/-- Whether all handles of `m` denote the same terms in another manager. -/
def Extends (m' m : Manager) : Prop :=
  ∀ {i : Nat} {t : Term}, m.arena.term? i = some t → m'.arena.term? i = some t

theorem extends_of_holds {m' : Manager} {us : List Term} (h : m.arena.Holds ts) (h' : m'.arena.Holds us)
    (hmore : ts <+: us) : m'.Extends m := by
  intro i t hi
  rw [h.term?_eq] at hi
  rw [h'.term?_eq]
  exact termAt_mono hmore hi

theorem exists_performed (h : m.arena.Holds ts) {op : Operation} {results : List Term}
    (hop : (m.outcome op).1 = .ok results) :
    ∃ handles m' us, m.perform op = (.ok handles, m') ∧ m'.arena.Holds us ∧ m'.Extends m ∧
      handles.map m'.arena.term? = results.map some := by
  obtain ⟨us, handles, hus, hmore, hreturned, hmap⟩ := exists_handles h hop
  refine ⟨handles, _, us, Prod.ext hreturned rfl, hus, extends_of_holds h hus hmore, ?_⟩
  rwa [funext hus.term?_eq]

theorem exists_performed_one (h : m.arena.Holds ts) {op : Operation} {t : Term} (hop : (m.outcome op).1 = .ok [t]) :
    ∃ i m' us, m.perform op = (.ok [i], m') ∧ m'.arena.Holds us ∧ m'.Extends m ∧ m'.arena.term? i = some t := by
  obtain ⟨handles, m', us, hperform, hus, hextends, hmap⟩ := exists_performed h hop
  obtain ⟨i, rfl, hi⟩ := List.map_eq_singleton_iff.1 hmap
  exact ⟨i, m', us, hperform, hus, hextends, hi⟩

/-- Whether an operation returns these handles at once and whenever it is asked for later. -/
def Answers (m : Manager) (op : Operation) (handles : List Nat) : Prop :=
  ∀ later, ((m.run later).2.perform op).1 = .ok handles

/-- Results that are held already, and are results of the operation in every later manager, have their handles. -/
theorem answers_of_held (h : m.arena.Holds ts) {op : Operation} {results : List Term}
    (hop : ∀ m' : Manager, m'.Extends m → (m'.outcome op).1 = .ok results) {handles : List Nat}
    (hheld : handles.map m.arena.term? = results.map some) : m.Answers op handles := by
  intro later
  obtain ⟨us, hus, hmore, -⟩ := holds_run h later
  refine perform_of_all_held hus (hop _ (extends_of_holds h hus hmore)) ?_
  rw [← funext hus.term?_eq]
  exact List.map_eq_some_mono (extends_of_holds h hus hmore) hheld

/-- Hash-consing is faithful. A manager of any admitted width is created, and
after any operations on it handles and terms correspond one for one, the
children of a node have smaller handles, every handle returned so far denotes a
term, two of them are equal exactly if they denote the same term, and no handle
comes to denote another term later. The handles that a further operation
returns denote its results. -/
theorem handles_faithful {bits : Nat} (h : bits ≤ 31) (ops : List Operation) :
    ∃ created handles m, Manager.new bits = .ok created ∧ created.run ops = (handles, m) ∧
      m.arena.IsFaithful ∧
      (∀ i ∈ handles, ∃ t, m.arena.term? i = some t) ∧
      (∀ i ∈ handles, ∀ j ∈ handles, i = j ↔ m.arena.term? i = m.arena.term? j) ∧
      (∀ i t, m.arena.term? i = some t → ∀ later, (m.run later).2.arena.term? i = some t) ∧
      ∀ op, (m.perform op).1.map (·.map (m.perform op).2.arena.term?) = (m.outcome op).1.map (·.map some) := by
  obtain ⟨a, ts, hnew, ha⟩ := Arena.exists_new h
  have hcreated : Manager.new bits = .ok ⟨a, ⟨0⟩⟩ := by simp [Manager.new, hnew, bind, Except.bind, pure, Except.pure]
  obtain ⟨us, hus, -, hdenote⟩ := holds_run (m := ⟨a, ⟨0⟩⟩) ha ops
  refine ⟨_, _, _, hcreated, rfl, hus.isFaithful, ?_, ?_, ?_, ?_⟩
  · intro i hi
    rw [hus.term?_eq]
    exact hdenote i hi
  · intro i hi j hj
    rw [hus.term?_eq, hus.term?_eq]
    obtain ⟨t, ht⟩ := hdenote i hi
    exact ⟨fun he => he ▸ rfl, fun he => termAt_inj hus.terms_nodup ht (he ▸ ht)⟩
  · intro i t ht later
    obtain ⟨vs, hvs, hmore, -⟩ := holds_run hus later
    rw [hus.term?_eq] at ht
    rw [hvs.term?_eq]
    exact termAt_mono hmore ht
  · intro op
    obtain ⟨vs, hvs, -, hreturned⟩ := holds_perform hus op
    rw [funext hvs.term?_eq]
    exact hreturned

/-- A cell, built and read twice, and formulas that say the same twice. -/
def builtTwice : List Operation :=
  [.reg "r1" 0 0, .mem 4, .parse "[%r1]", .reg "r1" 0 0, .eq 5 4, .conj [6, 6]]

/-- In an arena of one bucket, where all hashes collide, equal terms get one handle however often they are built. -/
theorem handles_faithful_builtTwice :
    0 ≤ 31 ∧
      ∃ created m, Manager.new 0 = .ok created ∧ created.run builtTwice = ([4, 5, 5, 4, 6, 6], m) ∧
        m.arena.term? 4 = some (.reg "r1" 0 0) ∧ m.arena.term? 5 = some (.mem (.reg "r1" 0 0)) ∧
        m.arena.term? 6 = some (.eq (.mem (.reg "r1" 0 0)) (.reg "r1" 0 0)) ∧ m.arena.IsFaithful ∧
        (∀ i ∈ [4, 5, 5, 4, 6, 6], ∀ j ∈ [4, 5, 5, 4, 6, 6], i = j ↔ m.arena.term? i = m.arena.term? j) ∧
        (∀ i t, m.arena.term? i = some t → ∀ later, (m.run later).2.arena.term? i = some t) ∧
        ∀ op, (m.perform op).1.map (·.map (m.perform op).2.arena.term?) = (m.outcome op).1.map (·.map some) := by
  have hbuilt : (Manager.new 0).map (fun created => ((created.run builtTwice).1,
      [4, 5, 6].map (created.run builtTwice).2.arena.term?)) = .ok ([4, 5, 5, 4, 6, 6],
        [some (.reg "r1" 0 0), some (.mem (.reg "r1" 0 0)),
          some (.eq (.mem (.reg "r1" 0 0)) (.reg "r1" 0 0))]) := by
    cbv
  obtain ⟨created, handles, m, hcreated, hrun, hfaithful, -, hsame, hstays, houtcome⟩ :=
    handles_faithful (Nat.zero_le 31) builtTwice
  rw [hcreated, Except.map, hrun, Except.ok.injEq, Prod.mk.injEq] at hbuilt
  obtain ⟨rfl, hread⟩ := hbuilt
  simp only [List.map_cons, List.map_nil, List.cons.injEq, and_true] at hread
  obtain ⟨hregister, hcell, hcomparison⟩ := hread
  exact ⟨Nat.zero_le 31, created, m, hcreated, hrun, hregister, hcell, hcomparison, hfaithful, hsame, hstays, houtcome⟩

end Manager
end Backslice
