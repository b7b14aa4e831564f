import Backslice.Proofs.AbsorbedArrows
import Mathlib

/-!
# Contexts grow at the end

A context is a sum without repeated operands. So a union with it begins with its
operands, in their order, and the values of the union begin with its values. A
request replaces a context by such a union or leaves it alone. No context is
true, because no operand of a sum is decided.
-/

namespace Backslice

open Term ConditionalSet

namespace ConditionalSet

/-- Whether a set begins with the operands of another one, and so with its values. -/
structure Extends (s t : ConditionalSet) : Prop where
  disjuncts : s.disjuncts <+: t.disjuncts
  possibleValues : s.possibleValues <+: t.possibleValues

@[refl]
theorem Extends.refl (s : ConditionalSet) : s.Extends s :=
  ⟨List.prefix_rfl, List.prefix_rfl⟩

theorem Extends.trans {s t u : ConditionalSet} (h : s.Extends t) (h' : t.Extends u) : s.Extends u :=
  ⟨h.disjuncts.trans h'.disjuncts, h.possibleValues.trans h'.possibleValues⟩

section
variable {p : Term → Prop} {family : Term → Prop} {s t : ConditionalSet}

theorem atoms_eq_of_isSum (h : IsSum p s) : atoms s = s.disjuncts.flatMap atoms := by
  rcases h.cases with rfl | ⟨hsummand, -⟩ | ⟨xs, rfl, -⟩
  · rfl
  · rw [disjuncts_of_isSummand hsummand, List.flatMap_singleton]
  · rw [atoms, atomsAll_eq_flatMap]
    rfl

theorem possibleValues_prefix (hs : IsSum p s) (ht : IsSum p t) (h : s.disjuncts <+: t.disjuncts) :
    s.possibleValues <+: t.possibleValues := by
  rw [possibleValues, possibleValues, distinct_eq_eraseDups, distinct_eq_eraseDups, atoms_eq_of_isSum hs,
    atoms_eq_of_isSum ht]
  obtain ⟨rest, hrest⟩ := h
  rw [← hrest, List.flatMap_append]
  exact List.eraseDups_prefix (List.prefix_append _ _)

theorem IsContext.eraseDups_disjuncts (h : IsContext family t) : t.disjuncts.eraseDups = t.disjuncts := by
  have hdisjuncts := disjuncts_disj (List.forall_mem_singleton.2 h.sum)
  rwa [h.built, List.flatMap_singleton, eq_comm] at hdisjuncts

theorem IsContext.extends_union (hs : IsContext family s) (ht : IsContext family t) : s.Extends (s.union t) := by
  have hunion : (s.union t).disjuncts = (s.disjuncts ++ t.disjuncts).eraseDups := by
    rw [ConditionalSet.union, disjuncts_disj (List.forall_mem_cons.2 ⟨hs.sum, List.forall_mem_singleton.2 ht.sum⟩),
      List.flatMap_cons, List.flatMap_singleton]
  have hbegins := List.eraseDups_prefix (List.prefix_append s.disjuncts t.disjuncts)
  rw [hs.eraseDups_disjuncts, ← hunion] at hbegins
  exact ⟨hbegins, possibleValues_prefix hs.sum (hs.union ht).sum hbegins⟩

theorem IsContext.ne_true (h : IsContext family t) : t ≠ .bool true := by
  rintro rfl
  exact Bool.false_ne_true (h.sum.2 (.bool true) List.mem_cons_self).1

end

end ConditionalSet

namespace Analysis

/-- Whether no context has been lost, and each has been extended if it has changed. -/
def GrowsAtEnd (s s' : Analysis) : Prop :=
  ∀ a t, s.context? a = some t → ∃ t', s'.context? a = some t' ∧ t.Extends t'

@[refl]
theorem GrowsAtEnd.refl (s : Analysis) : s.GrowsAtEnd s :=
  fun _ t ht => ⟨t, ht, Extends.refl t⟩

theorem GrowsAtEnd.trans {s t u : Analysis} (h : s.GrowsAtEnd t) (h' : t.GrowsAtEnd u) : s.GrowsAtEnd u := by
  intro a x hx
  obtain ⟨y, hy, hxy⟩ := h a x hx
  obtain ⟨z, hz, hyz⟩ := h' a y hy
  exact ⟨z, hz, hxy.trans hyz⟩

section
variable {p : Program} {options : Options} {family : Address → Term → Prop} {s : Analysis} {a : Address}
  {set : ConditionalSet}

theorem growsAtEnd_setContext (p : Program) {u : ConditionalSet}
    (h : ∀ t, s.context? a = some t → t.Extends u) : s.GrowsAtEnd ((s.setContext a u).enqueueArriving p a) := by
  intro b t ht
  rw [context?_enqueueArriving]
  by_cases hb : b = a
  · rw [hb, context?_setContext_self]
    exact ⟨u, rfl, h t (hb ▸ ht)⟩
  · rw [context?_setContext_of_ne s u hb]
    exact ⟨t, ht, Extends.refl t⟩

theorem growsAtEnd_join (p : Program) (hs : s.HasContexts family) (hset : set.IsContext (family a)) :
    s.GrowsAtEnd (s.join p a set) := by
  unfold join
  split
  next hnone =>
    refine growsAtEnd_setContext p fun t ht => ?_
    rw [hnone] at ht
    cases ht
  next context hsome =>
    dsimp only
    split
    next => exact GrowsAtEnd.refl s
    next =>
      rw [share_eq]
      refine growsAtEnd_setContext p fun t ht => ?_
      obtain rfl := Option.some.inj (hsome.symm.trans ht)
      exact (hs a context hsome).extends_union hset

theorem growsAtEnd_seed (p : Program) (hs : s.HasContexts family) {e : Seed} (he : e.location.IsLocation)
    (hfamily : family e.point e.location) : s.GrowsAtEnd (s.seed p e) := by
  refine growsAtEnd_setContext p fun t ht => ?_
  rw [watched_eq ht]
  exact (hs e.point t ht).extends_union (isContext_member he hfamily)

section
variable (hp : p.Built) (harrows : ∀ arrow ∈ p.arrows, arrow.IsPlain)
include harrows

theorem Absorbing.growsAtEnd_step {taken : List Arrow} (hready : s.IsReady p)
    (h : Absorbing p options (fun _ _ => True) taken s) : s.GrowsAtEnd (s.step p options).1 := by
  refine step_cases (motive := s.GrowsAtEnd) (fun _ => GrowsAtEnd.refl s) (fun _ => GrowsAtEnd.refl s)
    fun {arrow rest a context set names} hpending _ hsome hbefore => ?_
  obtain ⟨harrow, -⟩ := hready arrow (by rw [hpending]; exact List.mem_cons_self)
  have hset := (h.contexts a context hsome).before (harrows arrow harrow) hbefore
  have hstarted : HasContexts (fun _ _ => True) { s with pending := rest, steps := s.steps + 1, names } := h.contexts
  exact growsAtEnd_join p hstarted (hset.imp_family fun _ _ _ => trivial)

include hp in
theorem Absorbing.growsAtEnd_run (hready : s.IsReady p) (h : Absorbing p options (fun _ _ => True) [] s)
    (limit : Nat) : s.GrowsAtEnd (s.run p options limit).1 := by
  refine (runFrom_induction
    (motive := fun t => t.IsReady p ∧ Absorbing p options (fun _ _ => True) [] t ∧ s.GrowsAtEnd t) limit
    (fun t ht => ?_) (fun _ ht => ?_) (fun _ _ ht => ?_) limit ⟨hready, h, GrowsAtEnd.refl s⟩).2.2
  · obtain ⟨hready, h, hgrows⟩ := ht
    exact ⟨hready.step hp options, h.step hp harrows (p.closed_true []) hready,
      hgrows.trans (h.growsAtEnd_step harrows hready)⟩
  · exact ⟨ht.1, ⟨ht.2.1.contexts, ht.2.1.absorbed⟩, ht.2.2⟩
  · exact ⟨ht.1, ⟨ht.2.1.contexts, ht.2.1.absorbed⟩, ht.2.2⟩

end

end

/-- In every state that an analysis reaches, no context is true. A seed, a step and a run keep every context and its
operands in their order, as well as the values; what is new comes behind. -/
theorem reaches_grows_at_end {p : Program} {options : Options} {seeds : List Seed} {s : Analysis} (hp : p.Built)
    (harrows : ∀ arrow ∈ p.arrows, arrow.IsPlain) (hseeds : ∀ e ∈ seeds, e.location.IsLocation)
    (hs : Reaches p options seeds s) :
    (∀ a, s.context? a ≠ some (.bool true)) ∧ (∀ e : Seed, e.location.IsLocation → s.GrowsAtEnd (s.seed p e)) ∧
      s.GrowsAtEnd (s.step p options).1 ∧ ∀ limit, s.GrowsAtEnd (s.run p options limit).1 := by
  have hinvariant := hs.absorbing hp harrows hseeds (p.closed_true seeds)
  exact ⟨fun a ha => (hinvariant.contexts a _ ha).ne_true rfl,
    fun e he => growsAtEnd_seed p hinvariant.contexts he trivial, hinvariant.growsAtEnd_step harrows (hs.isReady hp),
    hinvariant.growsAtEnd_run hp harrows (hs.isReady hp)⟩

/-- The way back brings the stored register to the point where the cell is seen, behind the cell itself. -/
theorem reaches_grows_at_end_retry :
    storingLoop.Built ∧ (∀ arrow ∈ storingLoop.arrows, arrow.IsPlain) ∧ (∀ e ∈ [loadedCell], e.location.IsLocation) ∧
      Reaches storingLoop ⟨true, false⟩ [loadedCell] passedStore ∧
      passedStore.context? ⟨1, 0⟩ = some (member (.mem (.reg "r3" 0 0))) ∧
      ∃ t, (passedStore.step storingLoop ⟨true, false⟩).1.context? ⟨1, 0⟩ = some t ∧
        (member (.mem (.reg "r3" 0 0))).Extends t ∧ t.possibleValues = [.mem (.reg "r3" 0 0), .reg "r1" 0 0] := by
  have hs : Reaches storingLoop ⟨true, false⟩ [loadedCell] passedStore := .step (.seed (.new ⟨0⟩) loadedCell)
  have hcontext : passedStore.context? ⟨1, 0⟩ = some (member (.mem (.reg "r3" 0 0))) := by cbv
  obtain ⟨-, -, hstep, -⟩ := reaches_grows_at_end built_storingLoop isPlain_storingLoop isLocation_loadedCell hs
  obtain ⟨t, ht, hextends⟩ := hstep ⟨1, 0⟩ _ hcontext
  have hvalues : ((passedStore.step storingLoop ⟨true, false⟩).1.watched ⟨1, 0⟩).possibleValues =
      [.mem (.reg "r3" 0 0), .reg "r1" 0 0] := by cbv
  rw [watched_eq ht] at hvalues
  exact ⟨built_storingLoop, isPlain_storingLoop, isLocation_loadedCell, hs, hcontext, t, ht, hextends, hvalues⟩

end Analysis
end Backslice
