import Backslice.Worklist

/-!
# Slices

The slice of observed locations consists of the assignments that may influence
them: those at whose target a watched location contains the assigned one, or
where both are memory cells. Assignments without a known target are left out.

Every look at a point resumes the analysis for at most as many steps as the
program has points. A queue that outlasts one such run is so worked off further
while the slice is collected; a warning says if arrows are left in the end.
-/

namespace Backslice.Analysis

/-- Whether assigning `location` may change what is watched. -/
def touches (location : Term) (watched : List Term) : Bool :=
  Term.anySubtermOf (· = location) watched || (location.isMemoryCell && watched.any Term.isMemoryCell)

theorem touches_iff (location : Term) (watched : List Term) :
    touches location watched = true ↔
      ∃ d ∈ watched, location ∈ d.subterms ∨ (location.isMemoryCell = true ∧ d.isMemoryCell = true) := by
  simp only [touches, Term.anySubtermOf_eq_any, Term.anySubterm_eq_any, Bool.or_eq_true, List.any_eq_true,
    Bool.and_eq_true, decide_eq_true_eq, exists_eq_right]
  constructor
  · rintro (⟨d, hd, h⟩ | ⟨hl, d, hd, h⟩)
    · exact ⟨d, hd, Or.inl h⟩
    · exact ⟨d, hd, Or.inr ⟨hl, h⟩⟩
  · rintro ⟨d, hd, h | ⟨hl, h⟩⟩
    · exact Or.inl ⟨d, hd, h⟩
    · exact Or.inr ⟨hl, d, hd, h⟩

/-- The assignments among `arrows` that belong to the slice. -/
def collectSlice (p : Program) : List Arrow → Analysis → Analysis × Except Fault (List Arrow)
  | [], s => (s, .ok [])
  | arrow :: rest, s =>
      match arrow.assigned?, arrow.target.known? with
      | some location, some a =>
          match s.locationsAfterRun p Options.slicing p.points.length a with
          | (s, .error fault) => (s, .error fault)
          | (s, .ok watched) =>
              let (s, slice) := collectSlice p rest s
              (s, if touches location watched then slice.map (arrow :: ·) else slice)
      | _, _ => collectSlice p rest s

/-- The slice of the seeds, in the order of the arrows of the program. -/
def slice (p : Program) (seeds : List Seed) (names : Fresh) : Analysis × Except Fault (List Arrow) :=
  match (start p seeds names).run p Options.slicing p.points.length with
  | (s, .error fault) => (s, .error fault)
  | (s, .ok _) =>
      match s.collectSlice p p.orderedArrows with
      | (s, .error fault) => (s, .error fault)
      | (s, .ok arrows) => (if s.settled then s else s.warn (.sliceUnsettled seeds.length), .ok arrows)

/-- The seeds of an expression observed at a point: every location in it, also inside addresses. -/
def seedsOf (a : Address) (t : Term) : List Seed :=
  t.lvalues.map (⟨a, ·⟩)

end Backslice.Analysis
