import Backslice.DeadAssignment
import Backslice.Proofs.Search
import Backslice.Proofs.Storage

/-!
# Removing dead assignments

A run follows arrows from point to point. Each arrow evaluates its guard, then
its statement, then its target; only assignments touch the storage. What is
observed of an arrow is the truth of its guard, what its assignment stores and
where, and the point it leads to. A run whose guards all hold is one that the
machine takes, and the others are followed as well, so that nothing is said
here of a guard only in case it holds. The storage a run ends with is not observed.

When every dead assignment becomes a skip at once, the runs and what is observed
of them stay the same. Two storages are compared along a run. They may differ in
a register bit only if the bit lies in a cell that no path from the current
point reads before it is overwritten, and the cell of a dead assignment is such
a cell from its target on.
-/

namespace Backslice

/-- Where a word is stored. -/
inductive Place where
  | cell (name : String) (offset size : UInt16)
  | memory (address : UInt64)

/-- What is observed of passing an arrow. -/
structure Event where
  guardHolds : Prop
  stored : Option (Place × UInt64)
  target : Address

section Machine
variable (k : Coding) (z : ZeroDivision)

/-- The storage that a statement leaves behind. -/
noncomputable def Statement.execute (σ : Storage) : Statement → Storage
  | .assign (.reg n o s) v => σ.writeCell k n o s (v.value z (σ.valuation k))
  | .assign (.mem a) v => σ.writeMemory (a.value z (σ.valuation k)) (v.value z (σ.valuation k))
  | _ => σ

/-- What a statement stores, and where. -/
noncomputable def Statement.stores (σ : Storage) : Statement → Option (Place × UInt64)
  | .assign (.reg n o s) v => some (.cell n o s, v.value z (σ.valuation k))
  | .assign (.mem a) v => some (.memory (a.value z (σ.valuation k)), v.value z (σ.valuation k))
  | _ => none

namespace Arrow

/-- Whether the guard of an arrow holds; no guard always does. -/
def Enabled (arrow : Arrow) (σ : Storage) : Prop :=
  ∀ g ∈ arrow.guard, g.holds z (σ.valuation k)

/-- The storage behind an arrow. -/
noncomputable def execute (arrow : Arrow) (σ : Storage) : Storage :=
  arrow.statement.execute k z σ

/-- The point that an arrow leads to, from the storage its statement left. -/
noncomputable def destination (arrow : Arrow) (σ : Storage) : Address :=
  match arrow.target with
  | .fixed a => a
  | .computed t => .ofInstruction (t.value z (σ.valuation k))

/-- What is observed of an arrow; an assignment that is `hidden` is not seen to store anything. -/
noncomputable def event (arrow : Arrow) (hidden : List Arrow) (σ : Storage) : Event where
  guardHolds := arrow.Enabled k z σ
  stored := if arrow ∈ hidden then none else arrow.statement.stores k z σ
  target := arrow.destination k z (arrow.execute k z σ)

end Arrow

/-- A run from a point through a sequence of arrows, with what is observed of them. -/
inductive Run (p : Program) (hidden : List Arrow) : Address → Storage → List Arrow → List Event → Prop
  | stop (a : Address) (σ : Storage) : Run p hidden a σ [] []
  | pass {a : Address} {σ : Storage} {arrow : Arrow} {arrows : List Arrow} {events : List Event} :
      arrow ∈ p.leaving a →
      Run p hidden (arrow.destination k z (arrow.execute k z σ)) (arrow.execute k z σ) arrows events →
      Run p hidden a σ (arrow :: arrows) (arrow.event k z hidden σ :: events)

end Machine

/-- The arrow, with a skip in the place of its statement if it is listed. -/
def Arrow.skipIf (skipped : List Arrow) (arrow : Arrow) : Arrow :=
  if arrow ∈ skipped then { arrow with statement := .skip } else arrow

/-- The program in which the listed arrows skip. Arrows that become equal are one arrow. -/
def Program.skipping (p : Program) (skipped : List Arrow) : Program :=
  { p with
    arrows := (p.arrows.map (Arrow.skipIf skipped)).eraseDups
    links := (p.links.map fun entry => (entry.1, entry.2.skipIf skipped)).eraseDups
    solved := (p.solved.map fun entry => (entry.1.skipIf skipped, entry.2)).eraseDups }

namespace Arrow

@[simp]
theorem source_skipIf (skipped : List Arrow) (arrow : Arrow) : (arrow.skipIf skipped).source = arrow.source := by
  unfold skipIf
  split <;> rfl

@[simp]
theorem guard_skipIf (skipped : List Arrow) (arrow : Arrow) : (arrow.skipIf skipped).guard = arrow.guard := by
  unfold skipIf
  split <;> rfl

@[simp]
theorem target_skipIf (skipped : List Arrow) (arrow : Arrow) : (arrow.skipIf skipped).target = arrow.target := by
  unfold skipIf
  split <;> rfl

theorem known_of_not_targetReads {arrow : Arrow} {r : Term} (h : arrow.targetReads r = false) (k : Coding)
    (z : ZeroDivision) : ∃ b, arrow.target.known? = some b ∧ ∀ σ, arrow.destination k z σ = b := by
  cases ht : arrow.target with
  | fixed a => exact ⟨a, rfl, fun σ => by simp only [destination, ht]⟩
  | computed t =>
      simp only [targetReads, ht] at h
      cases t with
      | const w => exact ⟨.ofInstruction w, rfl, fun σ => by simp only [destination, ht, Term.value]⟩
      | _ => simp [Term.isConstant, Term.constantValue?] at h

theorem not_targetReads_of_known {arrow : Arrow} {b : Address} (h : arrow.target.known? = some b) (r : Term) :
    arrow.targetReads r = false := by
  unfold targetReads
  split
  next => rfl
  next t ht =>
    rw [ht] at h
    cases t with
    | const w => simp [Term.reads_eq_any, Term.subterms, Term.overlaps, Term.isConstant, Term.constantValue?]
    | _ => simp [Target.known?, Term.constantValue?] at h

/-- Storages that agree outside of cells that do not count for the target lead to one point. -/
theorem destination_eq {arrow : Arrow} {Q : Term → Prop} {σ τ : Storage} (h : σ.AgreeOutside Q τ)
    (hQ : ∀ r, Q r → arrow.targetReads r = false) (k : Coding) (z : ZeroDivision) :
    arrow.destination k z σ = arrow.destination k z τ := by
  unfold destination
  split
  next => rfl
  next t ht =>
    rw [h.value_eq k z fun r hr => ?_]
    have := hQ r hr
    simp only [targetReads, ht, Bool.or_eq_false_iff] at this
    exact this.1

end Arrow

namespace Program

theorem mem_leaving {p : Program} {a : Address} {arrow : Arrow} :
    arrow ∈ p.leaving a ↔ arrow ∈ p.arrows ∧ arrow.source = a := by
  simp [leaving]

theorem mem_leaving_skipping {p : Program} {skipped : List Arrow} {a : Address} {arrow : Arrow} :
    arrow ∈ (p.skipping skipped).leaving a ↔ ∃ e ∈ p.leaving a, e.skipIf skipped = arrow := by
  simp only [mem_leaving, skipping, List.mem_eraseDups, List.mem_map]
  constructor
  · rintro ⟨⟨e, he, rfl⟩, hs⟩
    exact ⟨e, ⟨he, by simpa using hs⟩, rfl⟩
  · rintro ⟨e, ⟨he, hs⟩, rfl⟩
    exact ⟨⟨e, he, rfl⟩, by simpa using hs⟩

/-- What is not used after a point is used neither by an arrow that leaves it nor, unless the
arrow overwrites it, after the arrow. -/
theorem not_usedAfter_iff {p : Program} {r : Term} {a : Address} :
    p.usedAfter r a = false ↔
      ∀ arrow ∈ p.leaving a, arrow.uses r = false ∧
        (arrow.overwrites r = false → ∀ b, arrow.target.known? = some b → p.usedAfter r b = false) := by
  have iff_reached : ∀ b, p.usedAfter r b = false ↔
      ∀ x, Reachability.Reached p.arrows (p.followers r) (p.leaving b) x → x.uses r = false := by
    intro b
    rw [← Bool.not_eq_true, usedAfter, Reachability.anyReachable_iff]
    simp
  constructor
  · intro h arrow harrow
    refine ⟨(iff_reached a).1 h arrow ⟨arrow, harrow, .refl⟩, fun hover b hb => (iff_reached b).2 ?_⟩
    rintro x ⟨e, he, path⟩
    refine (iff_reached a).1 h x ⟨arrow, harrow, .head ⟨?_, (mem_leaving.1 he).1⟩ path⟩
    simpa [followers, hover, hb] using he
  · intro h
    rw [iff_reached]
    rintro x ⟨e, he, path⟩
    rcases path.cases_head with rfl | ⟨f, ⟨hf, -⟩, path⟩
    · exact (h _ he).1
    · unfold followers at hf
      split at hf
      next => simp at hf
      next hover =>
        cases hk : e.target.known? with
        | none => simp [hk] at hf
        | some b =>
            have hb := (h e he).2 (by simpa using hover) b hk
            exact (iff_reached b).1 hb x ⟨f, by simpa [hk] using hf, path⟩

theorem of_mem_deadAssignments {p : Program} {arrow : Arrow} (h : arrow ∈ p.deadAssignments) :
    ∃ n o s v b, arrow.statement = .assign (.reg n o s) v ∧ arrow.target.known? = some b ∧
      p.usedAfter (.reg n o s) b = false := by
  simp only [deadAssignments, List.mem_filter, Bool.not_eq_true', isUsed, Arrow.assigned?] at h
  obtain ⟨-, h⟩ := h
  split at h
  next location b hloc hb =>
    split at hloc
    next l v hst =>
      obtain rfl := Option.some.inj hloc
      simp only [Bool.or_eq_false_iff, Bool.not_eq_false'] at h
      cases l with
      | reg n o s => exact ⟨n, o, s, v, b, hst, hb, h.2⟩
      | _ => simp [Term.isRegister] at h
    next => simp at hloc
  next => simp at h

end Program

section Simulation
variable (k : Coding) (z : ZeroDivision) {p : Program} {a : Address} {arrow : Arrow} {σ τ : Storage}

/-- The cells in which storages may differ behind an arrow: those that did not count in front of
it and were not overwritten, and the cell of a dead assignment. -/
def Program.Unread (p : Program) (a : Address) (arrow : Arrow) (r : Term) : Prop :=
  (p.usedAfter r a = false ∧ arrow.overwrites r = false) ∨
    (arrow ∈ p.deadAssignments ∧ arrow.assigned? = some r)

theorem Program.Unread.not_targetReads (harrow : arrow ∈ p.leaving a) {r : Term} (h : p.Unread a arrow r) :
    arrow.targetReads r = false := by
  rcases h with ⟨hr, hover⟩ | ⟨hdead, -⟩
  · have := (Program.not_usedAfter_iff.1 hr arrow harrow).1
    simp only [Arrow.uses, hover, Bool.not_false, Bool.true_and, Bool.or_eq_false_iff] at this
    exact this.2
  · obtain ⟨_, _, _, _, b, -, hb, -⟩ := Program.of_mem_deadAssignments hdead
    exact Arrow.not_targetReads_of_known hb r

/-- What may differ behind an arrow does not count at the point it leads to. -/
theorem Program.Unread.not_usedAfter (harrow : arrow ∈ p.leaving a) {r : Term} (h : p.Unread a arrow r)
    (ρ : Storage) : p.usedAfter r (arrow.destination k z ρ) = false := by
  obtain ⟨b, hb, hdest⟩ := Arrow.known_of_not_targetReads (h.not_targetReads harrow) k z
  rw [hdest]
  rcases h with ⟨hr, hover⟩ | ⟨hdead, hassigned⟩
  · exact (Program.not_usedAfter_iff.1 hr arrow harrow).2 hover b hb
  · obtain ⟨n, o, s, v, c, hst, hc, hused⟩ := Program.of_mem_deadAssignments hdead
    simp only [Arrow.assigned?, hst, Option.some.injEq] at hassigned
    rw [← hassigned, Option.some.inj (hb.symm.trans hc)]
    exact hused

/-- A cell that does not count in front of an arrow does not count behind it either, if it has a
bit that the arrow does not assign. -/
theorem Program.Unread.of_not_usedAfter {r : Term} {m : String} {i : Nat} (hr : p.usedAfter r a = false)
    (hbit : r.HasBit m i) (hnot : ∀ l, arrow.assigned? = some l → ¬l.HasBit m i) : p.Unread a arrow r := by
  refine Or.inl ⟨hr, ?_⟩
  rw [Arrow.overwrites, decide_eq_false_iff_not]
  exact fun h => hnot r h hbit

theorem assigned_value_eq (harrow : arrow ∈ p.leaving a)
    (h : σ.AgreeOutside (fun r => p.usedAfter r a = false) τ) {location v : Term}
    (hst : arrow.statement = .assign location v) : v.value z (σ.valuation k) = v.value z (τ.valuation k) := by
  refine h.value_eq k z fun r hr => ?_
  have := (Program.not_usedAfter_iff.1 hr arrow harrow).1
  simp only [Arrow.uses, Arrow.statementReads, hst, Bool.or_eq_false_iff] at this
  exact this.1.2.1

theorem assigned_address_eq (harrow : arrow ∈ p.leaving a)
    (h : σ.AgreeOutside (fun r => p.usedAfter r a = false) τ) {t v : Term}
    (hst : arrow.statement = .assign (.mem t) v) : t.value z (σ.valuation k) = t.value z (τ.valuation k) := by
  -- Only register cells have bits, so the stored cell is none of those that may differ.
  refine (h.imp (q := fun r => p.usedAfter r a = false ∧ .mem t ≠ r) ?_).value_eq k z ?_
  · rintro r m i hr hbit
    refine ⟨hr, ?_⟩
    rintro rfl
    exact hbit
  · rintro r ⟨hr, hne⟩
    have := (Program.not_usedAfter_iff.1 hr arrow harrow).1
    simp only [Arrow.uses, Arrow.statementReads, hst, Bool.or_eq_false_iff, Bool.and_eq_false_iff,
      bne_eq_false_iff_eq, hne, false_or] at this
    have hmem : (Term.mem t).reads r = false := this.1.2.2
    rw [Term.reads_eq_any, Term.subterms, List.any_cons, Bool.or_eq_false_iff] at hmem
    rw [Term.reads_eq_any]
    exact hmem.2

/-- One arrow, as it is and with a skip if it is dead, from storages that differ in unused cells only. -/
theorem execute_agree (harrow : arrow ∈ p.leaving a)
    (h : σ.AgreeOutside (fun r => p.usedAfter r a = false) τ) :
    (arrow.execute k z σ).AgreeOutside (p.Unread a arrow) ((arrow.skipIf p.deadAssignments).execute k z τ) := by
  by_cases hdead : arrow ∈ p.deadAssignments
  · obtain ⟨n, o, s, v, b, hst, -, -⟩ := Program.of_mem_deadAssignments hdead
    have hassigned : arrow.assigned? = some (.reg n o s) := by simp [Arrow.assigned?, hst]
    simp only [Arrow.skipIf, hdead, if_true, Arrow.execute, hst, Statement.execute]
    -- Only one of the two stores anything, in a cell that may differ from now on.
    refine h.writeCell_left k _ (Or.inr ⟨hdead, hassigned⟩) fun r m i hr hbit hnot => ?_
    refine Program.Unread.of_not_usedAfter hr hbit fun l hl => ?_
    rwa [← Option.some.inj (hassigned.symm.trans hl)]
  · have of_unassigned : (∀ l m i, arrow.assigned? = some l → ¬l.HasBit m i) →
        σ.AgreeOutside (p.Unread a arrow) τ := fun hnot =>
      h.imp fun r m i hr hbit => Program.Unread.of_not_usedAfter hr hbit fun l hl => hnot l m i hl
    simp only [Arrow.skipIf, hdead, if_false, Arrow.execute]
    cases hst : arrow.statement with
    | assign location v =>
        have hassigned : arrow.assigned? = some location := by simp [Arrow.assigned?, hst]
        have hv := assigned_value_eq k z harrow h hst
        cases location with
        | reg n o s =>
            simp only [Statement.execute, hv]
            -- Both store one word, so the assigned bits are alike, even if they were not before.
            refine h.writeCell k _ fun r m i hr hbit hnot => ?_
            refine Program.Unread.of_not_usedAfter hr hbit fun l hl => ?_
            rwa [← Option.some.inj (hassigned.symm.trans hl)]
        | mem t =>
            simp only [Statement.execute, hv, assigned_address_eq k z harrow h hst]
            refine (of_unassigned fun l m i hl => ?_).writeMemory _ _
            rw [← Option.some.inj (hassigned.symm.trans hl)]
            exact id
        | _ =>
            refine of_unassigned fun l m i hl => ?_
            rw [← Option.some.inj (hassigned.symm.trans hl)]
            exact id
    | _ =>
        refine of_unassigned fun l m i hl => ?_
        simp [Arrow.assigned?, hst] at hl

theorem event_eq (harrow : arrow ∈ p.leaving a)
    (h : σ.AgreeOutside (fun r => p.usedAfter r a = false) τ) :
    arrow.event k z p.deadAssignments σ = (arrow.skipIf p.deadAssignments).event k z [] τ := by
  have hguard : arrow.Enabled k z σ = (arrow.skipIf p.deadAssignments).Enabled k z τ := by
    simp only [Arrow.Enabled, Arrow.guard_skipIf, Term.holds]
    refine forall_congr fun g => forall_congr fun hg => ?_
    rw [h.value_eq k z fun r hr => ?_]
    have := (Program.not_usedAfter_iff.1 hr arrow harrow).1
    simp only [Arrow.uses, Bool.or_eq_false_iff, Option.mem_def.1 hg, Option.any_some] at this
    exact this.1.1
  have hstored : (if arrow ∈ p.deadAssignments then none else arrow.statement.stores k z σ) =
      (arrow.skipIf p.deadAssignments).statement.stores k z τ := by
    by_cases hdead : arrow ∈ p.deadAssignments
    · simp [Arrow.skipIf, hdead, Statement.stores]
    · simp only [Arrow.skipIf, hdead, if_false]
      cases hst : arrow.statement with
      | assign location v =>
          have hv := assigned_value_eq k z harrow h hst
          cases location with
          | mem t => simp only [Statement.stores, hv, assigned_address_eq k z harrow h hst]
          | _ => simp only [Statement.stores, hv]
      | _ => rfl
  have htarget : arrow.destination k z (arrow.execute k z σ) =
      (arrow.skipIf p.deadAssignments).destination k z ((arrow.skipIf p.deadAssignments).execute k z τ) := by
    rw [Arrow.destination_eq (execute_agree k z harrow h) (fun r hr => hr.not_targetReads harrow) k z]
    simp only [Arrow.destination, Arrow.target_skipIf]
  simp only [Arrow.event, hguard, hstored, htarget, List.not_mem_nil, if_false]

/-- The storages that dead assignments set apart on the way differ in unused cells at the point reached. -/
theorem execute_agree_at_destination (harrow : arrow ∈ p.leaving a)
    (h : σ.AgreeOutside (fun r => p.usedAfter r a = false) τ) :
    (arrow.execute k z σ).AgreeOutside
      (fun r => p.usedAfter r (arrow.destination k z (arrow.execute k z σ)) = false)
      ((arrow.skipIf p.deadAssignments).execute k z τ) :=
  (execute_agree k z harrow h).imp fun _ _ _ hr _ => hr.not_usedAfter k z harrow _

theorem Run.skip {arrows : List Arrow} {events : List Event}
    (run : Run k z p p.deadAssignments a σ arrows events) :
    ∀ τ, σ.AgreeOutside (fun r => p.usedAfter r a = false) τ →
      Run k z (p.skipping p.deadAssignments) [] a τ (arrows.map (Arrow.skipIf p.deadAssignments)) events := by
  induction run with
  | stop a σ => exact fun τ _ => .stop a τ
  | @pass a σ arrow arrows events harrow _ ih =>
      intro τ h
      have hevent := event_eq k z harrow h
      rw [List.map_cons, hevent]
      refine .pass (Program.mem_leaving_skipping.2 ⟨arrow, harrow, rfl⟩) ?_
      have htarget : arrow.destination k z (arrow.execute k z σ) =
          (arrow.skipIf p.deadAssignments).destination k z ((arrow.skipIf p.deadAssignments).execute k z τ) :=
        congrArg Event.target hevent
      rw [← htarget]
      exact ih _ (execute_agree_at_destination k z harrow h)

theorem Run.unskip {arrows : List Arrow} :
    ∀ {a : Address} {σ τ : Storage} {events : List Event}, arrows ⊆ p.arrows →
      σ.AgreeOutside (fun r => p.usedAfter r a = false) τ →
      Run k z (p.skipping p.deadAssignments) [] a τ (arrows.map (Arrow.skipIf p.deadAssignments)) events →
      Run k z p p.deadAssignments a σ arrows events := by
  induction arrows with
  | nil =>
      intro a σ τ events _ _ run
      cases run with
      | stop => exact .stop a σ
  | cons arrow arrows ih =>
      intro a σ τ events hsub h run
      cases run with
      | pass hleaving rest =>
          have hsource : arrow.source = a := by simpa using (Program.mem_leaving.1 hleaving).2
          have harrow : arrow ∈ p.leaving a := Program.mem_leaving.2 ⟨hsub (by simp), hsource⟩
          have hevent := event_eq k z harrow h
          have htarget : arrow.destination k z (arrow.execute k z σ) =
              (arrow.skipIf p.deadAssignments).destination k z ((arrow.skipIf p.deadAssignments).execute k z τ) :=
            congrArg Event.target hevent
          rw [← hevent]
          refine .pass harrow (ih (fun e he => hsub (by simp [he])) (execute_agree_at_destination k z harrow h) ?_)
          rw [htarget]
          exact rest

end Simulation

theorem Run.arrows_subset {k : Coding} {z : ZeroDivision} {p : Program} {hidden : List Arrow} {a : Address}
    {σ : Storage} {arrows : List Arrow} {events : List Event} (run : Run k z p hidden a σ arrows events) :
    arrows ⊆ p.arrows := by
  induction run with
  | stop => simp
  | pass harrow _ ih => exact List.cons_subset.2 ⟨(Program.mem_leaving.1 harrow).1, ih⟩

theorem Program.exists_map_skipIf {p : Program} {skipped arrows : List Arrow}
    (h : arrows ⊆ (p.skipping skipped).arrows) : ∃ es, es ⊆ p.arrows ∧ es.map (Arrow.skipIf skipped) = arrows := by
  induction arrows with
  | nil => exact ⟨[], by simp, rfl⟩
  | cons arrow arrows ih =>
      obtain ⟨harrow, hrest⟩ := List.cons_subset.1 h
      obtain ⟨es, hes, hmap⟩ := ih hrest
      obtain ⟨e, he, hskip⟩ := List.mem_map.1 (List.mem_eraseDups.1 harrow)
      exact ⟨e :: es, List.cons_subset.2 ⟨he, hes⟩, by rw [List.map_cons, hskip, hmap]⟩

/-- Skipping all dead assignments keeps every run and what is observed of it. Through any arrows of
the program there is a run, from any point and storage, exactly if there is one through the
arrows with skips, and the two are observed alike, but for what the dead assignments store. The
program with skips has no other runs. -/
theorem run_skipping_deadAssignments (k : Coding) (z : ZeroDivision) (p : Program) (a : Address) (σ : Storage)
    (events : List Event) :
    (∀ arrows, Run k z p p.deadAssignments a σ arrows events ↔
      arrows ⊆ p.arrows ∧
        Run k z (p.skipping p.deadAssignments) [] a σ (arrows.map (Arrow.skipIf p.deadAssignments)) events) ∧
    (∀ arrows, Run k z (p.skipping p.deadAssignments) [] a σ arrows events ↔
      ∃ es, es.map (Arrow.skipIf p.deadAssignments) = arrows ∧ Run k z p p.deadAssignments a σ es events) := by
  have refl := Storage.AgreeOutside.refl (fun r => p.usedAfter r a = false) σ
  constructor
  · intro arrows
    exact ⟨fun run => ⟨run.arrows_subset, run.skip k z σ refl⟩, fun ⟨hsub, run⟩ => run.unskip k z hsub refl⟩
  · intro arrows
    constructor
    · intro run
      obtain ⟨es, hes, rfl⟩ := Program.exists_map_skipIf run.arrows_subset
      exact ⟨es, rfl, run.unskip k z hes refl⟩
    · rintro ⟨es, rfl, run⟩
      exact run.skip k z σ refl

end Backslice
