import Backslice.Proofs.AbsorbedArrows
import Backslice.Proofs.LeastSolution

/-!
# Flattening loses precision in the safe direction

The contexts that an analysis settles on where sets are flattened are closed: they
have the seeds and are passed backward by every arrow. No analysis of the same
program from these seeds ever watches more, whatever its settings, its order of
steps and the number of steps it has taken. What conditions, case splits and
folded guards do to a set is to drop elements of it at most.
-/

namespace Backslice.Analysis

open ConditionalSet

/-- What may be watched in a state that an analysis reaches, in whatever settings, may be watched in every state with
an empty queue that an analysis with flat sets reaches from these seeds. -/
theorem watched_subset_flat {p : Program} {options : Options} {guarded : Bool} {seeds seeds' : List Seed}
    {s flat : Analysis} (hp : p.Built) (harrows : ∀ arrow ∈ p.arrows, arrow.IsPlain)
    (hseeds : ∀ e ∈ seeds', e.location.IsLocation) (hsame : ∀ e ∈ seeds, e ∈ seeds') (hs : Reaches p options seeds s)
    (hflat : Reaches p ⟨guarded, true⟩ seeds' flat) (hsettled : flat.pending = []) (a : Address) :
    ∀ l ∈ (s.watched a).possibleValues, l ∈ (flat.watched a).possibleValues := by
  have hstatements : ∀ arrow ∈ p.arrows, arrow.statement.IsPlain := fun arrow harrow => (harrows arrow harrow).1
  have hinvariant := hflat.invariant hp hstatements hseeds (p.closed_true seeds')
  have hclosed : p.Closed seeds fun b l => l ∈ (flat.watched b).possibleValues :=
    ⟨fun e he => hinvariant.seeds e (hsame e he), (hinvariant.closed hsettled).arrow⟩
  have hcontexts := (hs.absorbing hp harrows (fun e he => hseeds e (hsame e he)) hclosed).contexts
  intro l hl
  exact ((hcontexts.watched a).isTree.of_mem_possibleValues hl).2

/-- The analysis of the storing loop with its guards kept. -/
def guardedStores : Analysis :=
  ((Analysis.seed storingLoop {} loadedCell).run storingLoop ⟨true, false⟩ 2).1

/-- The analysis of the storing loop with flat sets. -/
def flatStores : Analysis :=
  ((Analysis.seed storingLoop {} loadedCell).run storingLoop ⟨true, true⟩ 10).1

theorem watched_subset_flat_stores :
    storingLoop.Built ∧ (∀ arrow ∈ storingLoop.arrows, arrow.IsPlain) ∧ (∀ e ∈ [loadedCell], e.location.IsLocation) ∧
      Reaches storingLoop ⟨true, false⟩ [loadedCell] guardedStores ∧
      Reaches storingLoop ⟨true, true⟩ [loadedCell] flatStores ∧ flatStores.pending = [] ∧
      .reg "r1" 0 0 ∈ (guardedStores.watched ⟨1, 0⟩).possibleValues ∧
      ∀ l ∈ (guardedStores.watched ⟨1, 0⟩).possibleValues, l ∈ (flatStores.watched ⟨1, 0⟩).possibleValues := by
  have hs : Reaches storingLoop ⟨true, false⟩ [loadedCell] guardedStores := .run (.seed (.new ⟨0⟩) loadedCell) 2
  have hflat : Reaches storingLoop ⟨true, true⟩ [loadedCell] flatStores := .run (.seed (.new ⟨0⟩) loadedCell) 10
  have hsettled : flatStores.pending = [] := by cbv
  have hregister : .reg "r1" 0 0 ∈ (guardedStores.watched ⟨1, 0⟩).possibleValues := by
    have hvalues : (guardedStores.watched ⟨1, 0⟩).possibleValues =
        [.mem (.reg "r3" 0 0), .reg "r1" 0 0] := by cbv
    rw [hvalues]
    exact List.mem_cons_of_mem _ (List.mem_singleton_self _)
  exact ⟨built_storingLoop, isPlain_storingLoop, isLocation_loadedCell, hs, hflat, hsettled, hregister,
    watched_subset_flat built_storingLoop isPlain_storingLoop isLocation_loadedCell (fun _ he => he) hs hflat hsettled
      ⟨1, 0⟩⟩

end Backslice.Analysis
