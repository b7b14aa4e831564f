import Backslice.Proofs.LeastSolution
import Backslice.Proofs.QueueDiscipline
import Backslice.Proofs.SliceCompleteness
import Mathlib

/-!
# Slices of several seeds

What has to be watched for several seeds is what has to be watched for one of
them: a location in front of an arrow comes from one location behind it, so that
the derivation of a relevant location goes back to one seed. Without warnings, a
slice is what touches the relevant locations, hence the slice of all seeds is the
union of slices of some of them and of the others, in whatever order and number
of steps the three have been computed.
-/

namespace Backslice

namespace Program

/-- The relevant locations of two lists of seeds are those of one or of the other. -/
theorem relevant_append_iff {p : Program} {options : Options} {seeds seeds' : List Seed} {a : Address} {l : Term} :
    p.Relevant options (seeds ++ seeds') a l ↔ p.Relevant options seeds a l ∨ p.Relevant options seeds' a l := by
  constructor
  · intro h
    induction h with
    | seed he => exact (List.mem_append.1 he).imp .seed .seed
    | arrow harrow htarget _ hbefore hl ih =>
        exact ih.imp (.arrow harrow htarget · hbefore hl) (.arrow harrow htarget · hbefore hl)
  · rintro (h | h)
    · exact h.of_subset (fun _ => id) fun _ => List.mem_append_left seeds'
    · exact h.of_subset (fun _ => id) fun _ => List.mem_append_right seeds

/-- Whether an arrow assigns something that a relevant location behind it contains, or a memory cell where a memory cell
is relevant. -/
def Influences (p : Program) (seeds : List Seed) (arrow : Arrow) : Prop :=
  ∃ location a d, arrow.assigned? = some location ∧ arrow.target.known? = some a ∧
    p.Relevant Options.slicing seeds a d ∧
      (location ∈ d.subterms ∨ (location.isMemoryCell = true ∧ d.isMemoryCell = true))

theorem influences_append_iff {p : Program} {seeds seeds' : List Seed} {arrow : Arrow} :
    p.Influences (seeds ++ seeds') arrow ↔ p.Influences seeds arrow ∨ p.Influences seeds' arrow := by
  simp only [Influences, relevant_append_iff]
  constructor
  · rintro ⟨location, a, d, hassigned, hknown, hd | hd, hcontains⟩
    · exact Or.inl ⟨location, a, d, hassigned, hknown, hd, hcontains⟩
    · exact Or.inr ⟨location, a, d, hassigned, hknown, hd, hcontains⟩
  · rintro (⟨location, a, d, hassigned, hknown, hd, hcontains⟩ | ⟨location, a, d, hassigned, hknown, hd, hcontains⟩)
    · exact ⟨location, a, d, hassigned, hknown, Or.inl hd, hcontains⟩
    · exact ⟨location, a, d, hassigned, hknown, Or.inr hd, hcontains⟩

end Program

namespace Analysis

section
variable {p : Program} (hp : p.Built)

section
variable (hassigns : p.AssignsLvalues)
include hp hassigns

theorem IsQueued.collectSlice {s : Analysis} (h : s.IsQueued p) (arrows : List Arrow) :
    ∃ s' kept, s.collectSlice p arrows = (s', .ok kept) := by
  induction arrows generalizing s with
  | nil => exact ⟨s, [], rfl⟩
  | cons arrow arrows ih =>
      unfold Analysis.collectSlice
      split
      next location a _ _ =>
        obtain ⟨t, done, hrun, ht⟩ := h.runFrom hp hassigns Options.slicing p.points.length p.points.length
        obtain ⟨s', kept, hrest⟩ := ih ht.toIsQueued
        simp only [locationsAfterRun, watchedAfterRun, run, hrun, Except.map, hrest]
        split <;> exact ⟨_, _, rfl⟩
      next => exact ih h

/-- If nothing but storage locations is assigned, there is a slice of every list of seeds. -/
theorem exists_slice (seeds : List Seed) (names : Fresh) :
    ∃ s arrows, slice p seeds names = (s, .ok arrows) := by
  obtain ⟨first, done, hrun, hfirst⟩ :=
    (isOrderly_start hp seeds names).toIsQueued.runFrom hp hassigns Options.slicing p.points.length p.points.length
  obtain ⟨last, kept, hcollect⟩ := hfirst.toIsQueued.collectSlice hp hassigns p.orderedArrows
  simp only [slice, run, hrun, hcollect]
  exact ⟨_, _, rfl⟩

end

section
variable (harrows : ∀ arrow ∈ p.arrows, arrow.statement.IsPlain)
include hp harrows

/-- Without any warning, the slice has the arrows that influence a seed, in order. -/
theorem mem_slice_iff_influences {seeds : List Seed} (hseeds : ∀ e ∈ seeds, e.location.IsLocation) {names : Fresh}
    {s : Analysis} {arrows : List Arrow} (h : slice p seeds names = (s, .ok arrows)) (hwarnings : s.warnings = [])
    (arrow : Arrow) : arrow ∈ arrows ↔ arrow ∈ p.arrows ∧ p.Influences seeds arrow := by
  obtain ⟨rfl, hsettled, hcontexts⟩ := slice_without_warnings h hwarnings
  have hreaches := (Reaches.start p Options.slicing seeds names).run p.points.length
  have hwatched : ∀ a d, d ∈ (s.watched a).possibleValues ↔ p.Relevant Options.slicing seeds a d := by
    intro a d
    rw [watched, context?, hcontexts]
    exact hreaches.mem_watched_iff hp harrows hseeds hsettled a d
  rw [Program.touching, List.mem_filter, hp.mem_orderedArrows, isTouched_iff, Program.Influences]
  simp only [touches_iff, hwatched]
  refine and_congr_right fun _ => exists_congr fun location => exists_congr fun a => ?_
  simp only [← exists_and_left]

/-- Without any warning there is a slice, and it lists the arrows that influence a seed, in order and none twice. -/
theorem slice_lists_influences {seeds : List Seed} (hseeds : ∀ e ∈ seeds, e.location.IsLocation) {names : Fresh}
    (hwarnings : (slice p seeds names).1.warnings = []) :
    ∃ arrows, (slice p seeds names).2 = .ok arrows ∧
      (∀ arrow, arrow ∈ arrows ↔ arrow ∈ p.arrows ∧ p.Influences seeds arrow) ∧
      arrows.Sublist p.orderedArrows ∧ arrows.Nodup := by
  obtain ⟨s, arrows, hslice⟩ := exists_slice hp (Program.assignsLvalues_of_isPlain harrows) seeds names
  rw [hslice] at hwarnings ⊢
  have hpart : arrows.Sublist p.orderedArrows := by
    rw [(slice_without_warnings hslice hwarnings).1]
    exact List.filter_sublist
  exact ⟨arrows, rfl, mem_slice_iff_influences hp harrows hseeds hslice hwarnings, hpart,
    hp.nodup_orderedArrows.sublist hpart⟩

end

end

/-- If three slices come without any warning, those of two lists of seeds and that of the first list followed by the
second, then the last one is the union of the other two. Each is a part of the arrows, in their order, and has none
twice. -/
theorem slice_append {p : Program} {seeds seeds' : List Seed} {names names' namesBoth : Fresh} (hp : p.Built)
    (harrows : ∀ arrow ∈ p.arrows, arrow.statement.IsPlain) (hseeds : ∀ e ∈ seeds, e.location.IsLocation)
    (hseeds' : ∀ e ∈ seeds', e.location.IsLocation) (hwarnings : (slice p seeds names).1.warnings = [])
    (hwarnings' : (slice p seeds' names').1.warnings = [])
    (hwarningsBoth : (slice p (seeds ++ seeds') namesBoth).1.warnings = []) :
    ∃ one other both, (slice p seeds names).2 = .ok one ∧ (slice p seeds' names').2 = .ok other ∧
      (slice p (seeds ++ seeds') namesBoth).2 = .ok both ∧ (∀ arrow, arrow ∈ both ↔ arrow ∈ one ∨ arrow ∈ other) ∧
      ∀ kept ∈ [one, other, both], kept.Sublist p.orderedArrows ∧ kept.Nodup := by
  have hboth : ∀ e ∈ seeds ++ seeds', e.location.IsLocation := List.forall_mem_append.2 ⟨hseeds, hseeds'⟩
  obtain ⟨one, hone, hmem, hlisted⟩ := slice_lists_influences hp harrows hseeds hwarnings
  obtain ⟨other, hother, hmem', hlisted'⟩ := slice_lists_influences hp harrows hseeds' hwarnings'
  obtain ⟨both, hslice, hmemBoth, hlistedBoth⟩ := slice_lists_influences hp harrows hboth hwarningsBoth
  refine ⟨one, other, both, hone, hother, hslice, fun arrow => ?_, ?_⟩
  · rw [hmemBoth, hmem, hmem', Program.influences_append_iff, and_or_left]
  · simp only [List.forall_mem_cons]
    exact ⟨hlisted, hlisted', hlistedBoth, List.forall_mem_nil _⟩

/-- A register is set on the way from the first point to the second. -/
def setCounter : Arrow :=
  ⟨⟨0, 0⟩, none, .assign (.reg "n" 0 0) (.const 1), .fixed ⟨1, 0⟩⟩

/-- Something is stored through a pointer on the way to the third point. -/
def storeSomewhere : Arrow :=
  ⟨⟨1, 0⟩, none, .assign (.mem (.reg "p" 0 0)) (.const 2), .fixed ⟨2, 0⟩⟩

/-- The register, seen at the third point. -/
def counter : Seed :=
  ⟨⟨2, 0⟩, .reg "n" 0 0⟩

/-- A cell, seen there as well. -/
def cell : Seed :=
  ⟨⟨2, 0⟩, .mem (.reg "q" 0 0)⟩

def setAndStore : Program :=
  (Program.addArrow {} setCounter).addArrow storeSomewhere

theorem slice_append_setAndStore :
    setAndStore.Built ∧ (∀ arrow ∈ setAndStore.arrows, arrow.statement.IsPlain) ∧
      (∀ e ∈ [counter], e.location.IsLocation) ∧ (∀ e ∈ [cell], e.location.IsLocation) ∧
      (slice setAndStore [counter] ⟨0⟩).1.warnings = [] ∧ (slice setAndStore [cell] ⟨0⟩).1.warnings = [] ∧
      (slice setAndStore ([counter] ++ [cell]) ⟨0⟩).1.warnings = [] ∧
      (slice setAndStore [counter] ⟨0⟩).2 = .ok [setCounter] ∧
      (slice setAndStore [cell] ⟨0⟩).2 = .ok [storeSomewhere] ∧
      ∃ both, (slice setAndStore ([counter] ++ [cell]) ⟨0⟩).2 = .ok both ∧ both.Sublist setAndStore.orderedArrows ∧
        both.Nodup ∧ setCounter ∈ both ∧ storeSomewhere ∈ both := by
  have hp : setAndStore.Built := (Program.Built.empty.addArrow setCounter).addArrow storeSomewhere
  have harrows : ∀ arrow ∈ setAndStore.arrows, arrow.statement.IsPlain := by
    change ∀ arrow ∈ [setCounter, storeSomewhere], arrow.statement.IsPlain
    simp only [List.forall_mem_cons]
    exact ⟨⟨⟨rfl, by decide⟩, by decide⟩, ⟨⟨rfl, by decide⟩, by decide⟩, List.forall_mem_nil _⟩
  have hseeds : ∀ e ∈ [counter], e.location.IsLocation := List.forall_mem_singleton.2 ⟨rfl, by decide⟩
  have hseeds' : ∀ e ∈ [cell], e.location.IsLocation := List.forall_mem_singleton.2 ⟨rfl, by decide⟩
  have hwarnings : (slice setAndStore [counter] ⟨0⟩).1.warnings = [] := by cbv
  have hwarnings' : (slice setAndStore [cell] ⟨0⟩).1.warnings = [] := by cbv
  have hwarningsBoth : (slice setAndStore ([counter] ++ [cell]) ⟨0⟩).1.warnings = [] := by cbv
  have hkept : (slice setAndStore [counter] ⟨0⟩).2 = .ok [setCounter] := by cbv
  have hkept' : (slice setAndStore [cell] ⟨0⟩).2 = .ok [storeSomewhere] := by cbv
  obtain ⟨one, other, both, hone, hother, hboth, hunion, hlisted⟩ :=
    slice_append hp harrows hseeds hseeds' hwarnings hwarnings' hwarningsBoth
  obtain rfl := Except.ok.inj (hkept.symm.trans hone)
  obtain rfl := Except.ok.inj (hkept'.symm.trans hother)
  obtain ⟨hpart, hnodup⟩ := hlisted both (by simp)
  exact ⟨hp, harrows, hseeds, hseeds', hwarnings, hwarnings', hwarningsBoth, hkept, hkept', both, hboth, hpart, hnodup,
    (hunion _).2 (Or.inl (List.mem_singleton_self _)), (hunion _).2 (Or.inr (List.mem_singleton_self _))⟩

end Analysis
end Backslice
