import Backslice.Proofs.FlatRun
import Backslice.Slice
import Mathlib

/-!
# What a slice without a warning is

Every assignment is judged by the contexts of the moment at which it is looked
at. Contexts only grow, so what has been judged to touch a watched location does
so in the end. If a look at an assignment finds the queue empty, the judgement
is the final one; if it does not, later runs may still put the assigned location
into the context. A slice without the warning is so part of the assignments that
touch the settled contexts, and is all of them if the queue is empty by the
first look.
-/

namespace Backslice

open ConditionalSet

namespace Analysis

/-- Whether an arrow with a known target assigns something that touches what is watched there. -/
def isTouched (s : Analysis) (arrow : Arrow) : Bool :=
  match arrow.assigned?, arrow.target.known? with
  | some location, some a => touches location (s.watched a).possibleValues
  | _, _ => false

theorem isTouched_iff {s : Analysis} {arrow : Arrow} :
    s.isTouched arrow = true ↔ ∃ location a, arrow.assigned? = some location ∧ arrow.target.known? = some a ∧
      touches location (s.watched a).possibleValues = true := by
  unfold isTouched
  cases arrow.assigned? <;> cases arrow.target.known? <;> simp

end Analysis

/-- The assignments that touch what is watched at their targets, in the order of the arrows. -/
def Program.touching (p : Program) (s : Analysis) : List Arrow :=
  p.orderedArrows.filter s.isTouched

namespace Analysis

theorem touches_mono {location : Term} {watched watched' : List Term} (hsub : ∀ d ∈ watched, d ∈ watched')
    (h : touches location watched = true) : touches location watched' = true := by
  rw [touches_iff] at h ⊢
  obtain ⟨d, hd, hcontains⟩ := h
  exact ⟨d, hsub d hd, hcontains⟩

theorem Grows.isTouched {s s' : Analysis} (h : s.Grows s') {arrow : Arrow} (ht : s.isTouched arrow = true) :
    s'.isTouched arrow = true := by
  obtain ⟨location, a, hassigned, hknown, htouches⟩ := isTouched_iff.1 ht
  exact isTouched_iff.2 ⟨location, a, hassigned, hknown, touches_mono (h a) htouches⟩

/-- The state in which the first assignment after the arrows `before` is judged. -/
def judging (p : Program) (seeds : List Seed) (names : Fresh) (before : List Arrow) : Analysis :=
  ((((start p seeds names).run p Options.slicing p.points.length).1.collectSlice p before).1.run p
    Options.slicing p.points.length).1

/-- An assignment to a known target is judged after another run; any other arrow is passed over. -/
theorem collectSlice_cons (p : Program) (s : Analysis) (arrow : Arrow) :
    ((∀ t : Analysis, t.isTouched arrow = false) ∧
      ∀ rest, s.collectSlice p (arrow :: rest) = s.collectSlice p rest) ∨
    (∃ t fault, ∀ rest, s.collectSlice p (arrow :: rest) = (t, .error fault)) ∨
    ∃ t, s.run p Options.slicing p.points.length = (t, .ok t.pending.isEmpty) ∧
      ∀ rest, s.collectSlice p (arrow :: rest) = ((t.collectSlice p rest).1,
        (t.collectSlice p rest).2.map fun kept => if t.isTouched arrow then arrow :: kept else kept) := by
  cases hassigned : arrow.assigned? with
  | none => exact Or.inl ⟨fun t => by simp [Analysis.isTouched, hassigned], fun rest => by simp [collectSlice, hassigned]⟩
  | some location =>
      cases hknown : arrow.target.known? with
      | none => exact Or.inl ⟨fun t => by simp [Analysis.isTouched, hknown], fun rest => by simp [collectSlice, hknown]⟩
      | some a =>
          refine Or.inr ?_
          cases hrun : s.run p Options.slicing p.points.length with
          | mk t outcome =>
              cases outcome with
              | error fault =>
                  refine Or.inl ⟨t, fault, fun rest => ?_⟩
                  simp [collectSlice, hassigned, hknown, locationsAfterRun, watchedAfterRun, hrun, Except.map]
              | ok done =>
                  obtain ⟨rfl, -⟩ := settled_of_runFrom hrun
                  refine Or.inr ⟨t, rfl, fun rest => ?_⟩
                  simp only [collectSlice, hassigned, hknown, locationsAfterRun, watchedAfterRun, hrun, Except.map,
                    Analysis.isTouched]
                  split
                  · rfl
                  · cases (t.collectSlice p rest).2 <;> rfl

/-- A look that ends without a fault: the arrow is passed over, or kept if it is
touched after another run. Both go for looks at fewer arrows as well. -/
theorem collectSlice_cons_ok {p : Program} {s s' : Analysis} {arrow : Arrow} {rest kept : List Arrow}
    (h : s.collectSlice p (arrow :: rest) = (s', .ok kept)) :
    ((∀ t : Analysis, t.isTouched arrow = false) ∧ s.collectSlice p rest = (s', .ok kept) ∧
      ∀ before, (s.collectSlice p (arrow :: before)).1 = (s.collectSlice p before).1) ∨
    ∃ t later, s.run p Options.slicing p.points.length = (t, .ok t.pending.isEmpty) ∧
      t.collectSlice p rest = (s', .ok later) ∧ kept = (if t.isTouched arrow then arrow :: later else later) ∧
      ∀ before, (s.collectSlice p (arrow :: before)).1 = (t.collectSlice p before).1 := by
  rcases collectSlice_cons p s arrow with ⟨huntouched, hrest⟩ | ⟨t, fault, hfault⟩ | ⟨t, hrun, hrest⟩
  · exact Or.inl ⟨huntouched, (hrest rest).symm.trans h, fun before => by rw [hrest before]⟩
  · cases (Prod.mk.inj ((hfault rest).symm.trans h)).2
  · obtain ⟨hstate, hkept⟩ := Prod.mk.inj ((hrest rest).symm.trans h)
    obtain ⟨later, hlater, rfl⟩ := Except.exists_of_map_eq_ok hkept
    exact Or.inr ⟨t, later, hrun, Prod.ext hstate hlater, rfl, fun before => by rw [hrest before]⟩

/-- How the state after all looks relates to the one before, and the judgements to the state after. -/
structure Collected (arrows : List Arrow) (s s' : Analysis) (kept : List Arrow) : Prop where
  flat : s'.IsFlat
  grows : s.Grows s'
  idle : s.pending = [] → s'.contexts = s.contexts
  noted : s.settled = s.pending.isEmpty → s'.settled = s'.pending.isEmpty
  sound : kept.Sublist (arrows.filter s'.isTouched)

theorem filter_isTouched_congr {s t : Analysis} (h : s.contexts = t.contexts) : s.isTouched = t.isTouched := by
  funext arrow
  simp only [Analysis.isTouched, Analysis.watched, Analysis.context?, h]

section
variable {p : Program}

theorem run_slicing_flat {s t : Analysis} {limit : Nat} {outcome : Except Fault Bool} (hs : s.IsFlat)
    (hrun : s.run p Options.slicing limit = (t, outcome)) : t.IsFlat ∧ s.Grows t := by
  have hflat := run_flat p true limit hs
  rw [show s.run p ⟨true, true⟩ limit = (t, outcome) from hrun] at hflat
  exact hflat

theorem collected_collectSlice {arrows kept : List Arrow} {s s' : Analysis} (hs : s.IsFlat)
    (h : s.collectSlice p arrows = (s', .ok kept)) : Collected arrows s s' kept := by
  induction arrows generalizing s kept with
  | nil =>
      obtain ⟨rfl, hkept⟩ := Prod.mk.inj h
      obtain rfl := Except.ok.inj hkept
      exact ⟨hs, Grows.refl s, fun _ => rfl, id, List.Sublist.refl _⟩
  | cons arrow arrows ih =>
      rcases collectSlice_cons_ok h with ⟨huntouched, hrest, -⟩ | ⟨t, later, hrun, hrest, rfl, -⟩
      · have hcollected := ih hs hrest
        refine ⟨hcollected.flat, hcollected.grows, hcollected.idle, hcollected.noted, ?_⟩
        rw [List.filter_cons, huntouched, if_neg Bool.false_ne_true]
        exact hcollected.sound
      · have ht := run_slicing_flat hs hrun
        have hcollected := ih ht.1 hrest
        refine ⟨hcollected.flat, ht.2.trans hcollected.grows, fun hempty => ?_,
          fun _ => hcollected.noted (settled_of_runFrom hrun).2, ?_⟩
        -- From an empty queue the run does nothing, so the judgement is made in the state at hand.
        · have hidle := runFrom_of_pending_eq_nil p Options.slicing p.points.length p.points.length hempty
          obtain rfl : s.settle = t := (Prod.mk.inj (hidle.symm.trans hrun)).1
          exact hcollected.idle hempty
        · rw [List.filter_cons]
          split
          next htouched =>
            rw [if_pos (hcollected.grows.isTouched htouched)]
            exact hcollected.sound.cons_cons arrow
          next =>
            split
            · exact hcollected.sound.cons arrow
            · exact hcollected.sound

theorem collectSlice_settled {arrows kept : List Arrow} {s s' : Analysis} (hs : s.IsFlat)
    (h : s.collectSlice p arrows = (s', .ok kept))
    (hsettled : (s.run p Options.slicing p.points.length).1.pending = []) : kept = arrows.filter s'.isTouched := by
  induction arrows generalizing s kept with
  | nil => exact (Except.ok.inj (Prod.mk.inj h).2).symm
  | cons arrow arrows ih =>
      rcases collectSlice_cons_ok h with ⟨huntouched, hrest, -⟩ | ⟨t, later, hrun, hrest, rfl, -⟩
      · rw [List.filter_cons, huntouched, if_neg Bool.false_ne_true]
        exact ih hs hrest hsettled
      · have ht := (run_slicing_flat hs hrun).1
        rw [hrun] at hsettled
        have hagain : (t.run p Options.slicing p.points.length).1.pending = [] := by
          rw [run, runFrom_of_pending_eq_nil p Options.slicing p.points.length p.points.length hsettled]
          exact hsettled
        have htouched := filter_isTouched_congr ((collected_collectSlice ht hrest).idle hsettled)
        rw [ih ht hrest hagain, List.filter_cons, htouched]

/-- From the first look on that finds the queue empty, all judgements are final. -/
theorem collectSlice_append {before after kept : List Arrow} {s s' : Analysis} (hs : s.IsFlat)
    (h : s.collectSlice p (before ++ after) = (s', .ok kept))
    (hsettled : ((s.collectSlice p before).1.run p Options.slicing p.points.length).1.pending = []) :
    ∃ early, early.Sublist (before.filter s'.isTouched) ∧ kept = early ++ after.filter s'.isTouched := by
  induction before generalizing s kept with
  | nil => exact ⟨[], List.nil_sublist _, collectSlice_settled hs h hsettled⟩
  | cons arrow before ih =>
      rcases collectSlice_cons_ok h with ⟨huntouched, hrest, hsame⟩ | ⟨t, later, hrun, hrest, rfl, hsame⟩
      · rw [hsame before] at hsettled
        rw [List.filter_cons, huntouched, if_neg Bool.false_ne_true]
        exact ih hs hrest hsettled
      · have ht := (run_slicing_flat hs hrun).1
        rw [hsame before] at hsettled
        obtain ⟨early, hearly, rfl⟩ := ih ht hrest hsettled
        have hgrows := (collected_collectSlice ht hrest).grows
        refine ⟨if t.isTouched arrow then arrow :: early else early, ?_, by split <;> rfl⟩
        rw [List.filter_cons]
        split
        next htouched =>
          rw [if_pos (hgrows.isTouched htouched)]
          exact hearly.cons_cons arrow
        next =>
          split
          · exact hearly.cons arrow
          · exact hearly

theorem slice_cases {seeds : List Seed} {names : Fresh} {s : Analysis} {arrows : List Arrow}
    (h : slice p seeds names = (s, .ok arrows)) :
    ∃ first last, (start p seeds names).run p Options.slicing p.points.length = (first, .ok first.pending.isEmpty) ∧
      first.collectSlice p p.orderedArrows = (last, .ok arrows) ∧
      s = if last.settled then last else last.warn (.sliceUnsettled seeds.length) := by
  unfold slice at h
  split at h
  next => cases (Prod.mk.inj h).2
  next first done hrun =>
    split at h
    next => cases (Prod.mk.inj h).2
    next last kept hcollect =>
      obtain ⟨hstate, hkept⟩ := Prod.mk.inj h
      obtain rfl := Except.ok.inj hkept
      obtain ⟨rfl, -⟩ := settled_of_runFrom hrun
      exact ⟨first, last, hrun, hcollect, hstate.symm⟩

end

theorem warnings_enqueue (s : Analysis) (arrow : Arrow) : s.warnings <+: (s.enqueue arrow).warnings := by
  unfold enqueue
  split
  · exact List.prefix_append _ _
  · split <;> exact List.prefix_rfl

theorem warnings_enqueueArriving (p : Program) (s : Analysis) (a : Address) :
    s.warnings <+: (s.enqueueArriving p a).warnings :=
  List.foldlRecOn (motive := fun s' : Analysis => s.warnings <+: s'.warnings) _ _ List.prefix_rfl
    fun s' hs' arrow _ => hs'.trans (warnings_enqueue s' arrow)

theorem warnings_join (p : Program) (s : Analysis) (a : Address) (set : ConditionalSet) :
    s.warnings <+: (s.join p a set).warnings := by
  unfold join
  split
  · exact warnings_enqueueArriving p (s.setContext a set) a
  · dsimp only
    split
    · exact List.prefix_rfl
    · exact warnings_enqueueArriving p (s.setContext a _) a

theorem warnings_step (p : Program) (options : Options) (s : Analysis) :
    s.warnings <+: (s.step p options).1.warnings :=
  step_cases (motive := fun t => s.warnings <+: t.warnings) (fun _ => List.prefix_rfl) (fun _ => List.prefix_rfl)
    fun {arrow rest _ _ set names} _ _ _ _ =>
      warnings_join p { s with pending := rest, steps := s.steps + 1, names } arrow.source set

/-- Warnings are never taken back. -/
theorem warnings_run (p : Program) (options : Options) (limit : Nat) (s : Analysis) :
    s.warnings <+: (s.run p options limit).1.warnings :=
  runFrom_induction (motive := fun t => s.warnings <+: t.warnings) limit
    (fun t ht => ht.trans (warnings_step p options t)) (fun _ ht => ht)
    (fun _ _ ht => ht.trans (List.prefix_append _ _)) limit List.prefix_rfl

theorem unsettled_mem_warnings {p : Program} {options : Options} {limit remaining : Nat} {s s' : Analysis} {done : Bool}
    (h : s.runFrom p options limit remaining = (s', .ok done)) (hwaits : s'.pending ≠ []) :
    ∃ pending, Warning.unsettled limit pending ∈ s'.warnings := by
  induction remaining generalizing s with
  | zero =>
      unfold runFrom at h
      split at h
      next hempty =>
        cases h
        exact absurd (List.isEmpty_iff.1 hempty) hwaits
      next =>
        cases h
        exact ⟨s.pending.length, by simp [settle, warn]⟩
  | succ remaining ih =>
      unfold runFrom at h
      split at h
      next hempty =>
        cases h
        exact absurd (List.isEmpty_iff.1 hempty) hwaits
      next =>
        dsimp only at h
        split at h
        next => cases (Prod.mk.inj h).2
        next => exact ih h

theorem warnings_collectSlice {p : Program} {arrows kept : List Arrow} {s s' : Analysis}
    (h : s.collectSlice p arrows = (s', .ok kept)) : s.warnings <+: s'.warnings := by
  induction arrows generalizing s kept with
  | nil =>
      obtain ⟨rfl, -⟩ := Prod.mk.inj h
      exact List.prefix_rfl
  | cons arrow arrows ih =>
      rcases collectSlice_cons_ok h with ⟨-, hrest, -⟩ | ⟨t, later, hrun, hrest, -, -⟩
      · exact ih hrest
      · have hwarnings := warnings_run p Options.slicing p.points.length s
        rw [hrun] at hwarnings
        exact hwarnings.trans (ih hrest)

/-- If there is no warning at all, the contexts are those of the first run, which has settled them, and the slice is
complete. -/
theorem slice_without_warnings {p : Program} {seeds : List Seed} {names : Fresh} {s : Analysis} {arrows : List Arrow}
    (h : slice p seeds names = (s, .ok arrows)) (hwarnings : s.warnings = []) :
    arrows = p.touching s ∧ ((start p seeds names).run p Options.slicing p.points.length).1.pending = [] ∧
      s.contexts = ((start p seeds names).run p Options.slicing p.points.length).1.contexts := by
  obtain ⟨first, last, hrun, hcollect, hs⟩ := slice_cases h
  have hfirst := (run_slicing_flat (start_flat p seeds names) hrun).1
  have hcollected := collected_collectSlice hfirst hcollect
  have hsettled : last.settled = true := by
    by_contra hwaits
    rw [if_neg hwaits] at hs
    rw [hs] at hwarnings
    exact absurd hwarnings (by simp [warn])
  rw [if_pos hsettled] at hs
  obtain rfl := hs
  have hempty : first.pending = [] := by
    by_contra hwaits
    obtain ⟨pending, hmem⟩ := unsettled_mem_warnings hrun hwaits
    have hlast := (warnings_collectSlice hcollect).subset hmem
    rw [hwarnings] at hlast
    exact List.not_mem_nil hlast
  have hagain : (first.run p Options.slicing p.points.length).1.pending = [] := by
    rw [run, runFrom_of_pending_eq_nil p Options.slicing p.points.length p.points.length hempty]
    exact hempty
  rw [hrun]
  exact ⟨collectSlice_settled hfirst hcollect hagain, hempty, hcollected.idle hempty⟩

/-- If a slice comes without the warning, the contexts are settled and every assignment in it touches them; and of the
assignments looked at once the queue had been found empty, none that touches them is missing. -/
theorem slice_without_warning {p : Program} {seeds : List Seed} {names : Fresh} {s : Analysis} {arrows : List Arrow}
    (h : slice p seeds names = (s, .ok arrows)) (hwarning : Warning.sliceUnsettled seeds.length ∉ s.warnings) :
    s.pending = [] ∧ arrows.Sublist (p.touching s) ∧
      ∀ before after, p.orderedArrows = before ++ after → (judging p seeds names before).pending = [] →
        ∃ early, early.Sublist (before.filter s.isTouched) ∧ arrows = early ++ after.filter s.isTouched := by
  obtain ⟨first, last, hrun, hcollect, hs⟩ := slice_cases h
  have hfirst := (run_slicing_flat (start_flat p seeds names) hrun).1
  have hcollected := collected_collectSlice hfirst hcollect
  have hsettled : last.settled = true := by
    by_contra hwaits
    rw [if_neg hwaits] at hs
    exact hwarning (by simp [hs, warn])
  rw [if_pos hsettled] at hs
  obtain rfl := hs
  rw [hcollected.noted (settled_of_runFrom hrun).2, List.isEmpty_iff] at hsettled
  refine ⟨hsettled, hcollected.sound, fun before after hsplit hempty => ?_⟩
  rw [judging, hrun] at hempty
  rw [hsplit] at hcollect
  exact collectSlice_append hfirst hcollect hempty

/-- A register is defined on the way from the first point to the second. -/
def define : Arrow :=
  ⟨⟨0, 0⟩, none, .assign (.reg "x" 0 0) (.const 1), .fixed ⟨1, 0⟩⟩

/-- On the way to the third point it is moved to another one. -/
def moveDefined : Arrow :=
  ⟨⟨1, 0⟩, none, .assign (.reg "a" 0 0) (.reg "x" 0 0), .fixed ⟨2, 0⟩⟩

/-- A way from the third point back to it. -/
def stay (guard : UInt64) : Arrow :=
  ⟨⟨2, 0⟩, some (.const guard), .skip, .fixed ⟨2, 0⟩⟩

/-- The two assignments, where the move arrives after the ways to stay. -/
def stayingProgram (ways : List UInt64) : Program :=
  (define :: ways.map stay ++ [moveDefined]).foldl Program.addArrow {}

/-- The register moved to, seen at the third point. -/
def moved : Seed :=
  ⟨⟨2, 0⟩, .reg "a" 0 0⟩

theorem slice_without_warning_straight :
    ∃ s, slice (stayingProgram []) [moved] ⟨0⟩ = (s, .ok [define, moveDefined]) ∧
      Warning.sliceUnsettled [moved].length ∉ s.warnings ∧ s.pending = [] ∧
      [define, moveDefined].Sublist ((stayingProgram []).touching s) := by
  have hkept : (slice (stayingProgram []) [moved] ⟨0⟩).2 = .ok [define, moveDefined] := by cbv
  have hslice : slice (stayingProgram []) [moved] ⟨0⟩ =
      ((slice (stayingProgram []) [moved] ⟨0⟩).1, .ok [define, moveDefined]) := by rw [← hkept]
  have hwarnings : (slice (stayingProgram []) [moved] ⟨0⟩).1.warnings = [] := by cbv
  have hwarning : Warning.sliceUnsettled [moved].length ∉ (slice (stayingProgram []) [moved] ⟨0⟩).1.warnings := by
    rw [hwarnings]
    exact List.not_mem_nil
  obtain ⟨hpending, hsound, -⟩ := slice_without_warning hslice hwarning
  exact ⟨_, hslice, hwarning, hpending, hsound⟩

/-- With six ways to stay, the first look at the definition comes before the move has been passed. No later look is at
the definition, so it is missing although the contexts are settled in the end and no warning says otherwise. -/
theorem hasty_slice :
    ∃ s, slice (stayingProgram [0, 1, 2, 3, 4, 5]) [moved] ⟨0⟩ = (s, .ok [moveDefined]) ∧
      Warning.sliceUnsettled [moved].length ∉ s.warnings ∧ s.pending = [] ∧
      (stayingProgram [0, 1, 2, 3, 4, 5]).touching s = [define, moveDefined] := by
  have hkept : (slice (stayingProgram [0, 1, 2, 3, 4, 5]) [moved] ⟨0⟩).2 = .ok [moveDefined] := by cbv
  refine ⟨(slice (stayingProgram [0, 1, 2, 3, 4, 5]) [moved] ⟨0⟩).1, by rw [← hkept], ?_, by cbv, by cbv⟩
  have hwarnings : (slice (stayingProgram [0, 1, 2, 3, 4, 5]) [moved] ⟨0⟩).1.warnings =
      [.unsettled 3 4, .unsettled 3 1] := by cbv
  rw [hwarnings]
  decide

end Analysis
end Backslice
