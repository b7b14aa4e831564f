import Backslice.Proofs.FlatSet
import Backslice.Proofs.WorklistInvariant

/-!
# Runs over flat sets

Where sets are flattened, all contexts are flat sets, whatever the program. To
join a set into such a context changes nothing if the set has nothing new, and
otherwise puts at least one location more there. So a run never takes a watched
location away, and a state with an empty queue stays as it is.
-/

namespace Backslice.Analysis

open ConditionalSet

/-- Whether all contexts are flat sets. -/
def IsFlat (s : Analysis) : Prop :=
  ∀ a t, s.context? a = some t → t.IsFlat

/-- Whether everything watched in one state is watched in another one. -/
def Grows (s s' : Analysis) : Prop :=
  ∀ a, ∀ l ∈ (s.watched a).possibleValues, l ∈ (s'.watched a).possibleValues

@[refl]
theorem Grows.refl (s : Analysis) : s.Grows s :=
  fun _ _ h => h

theorem Grows.trans {s t u : Analysis} (h : s.Grows t) (h' : t.Grows u) : s.Grows u :=
  fun a l hl => h' a l (h a l hl)

theorem IsFlat.watched {s : Analysis} (h : s.IsFlat) (a : Address) : (s.watched a).IsFlat := by
  unfold Analysis.watched
  cases hc : s.context? a with
  | none => exact ConditionalSet.IsFlat.empty
  | some t => exact h a t hc

theorem possibleValues_empty : ConditionalSet.empty.possibleValues = [] :=
  List.eq_nil_iff_forall_not_mem.2 fun l hl => by simp [empty, mem_possibleValues, atoms] at hl

/-- What it is to enter a context at a point that has the elements of the old one and of a set. -/
structure Entered (p : Program) (s : Analysis) (a : Address) (set t : ConditionalSet) (s' : Analysis) : Prop where
  flat : t.IsFlat
  mem : ∀ l, l ∈ t.possibleValues ↔ l ∈ (s.watched a).possibleValues ∨ l ∈ set.possibleValues
  state : s' = (s.setContext a t).enqueueArriving p a

theorem Entered.context?_self {p : Program} {s s' : Analysis} {a : Address} {set t : ConditionalSet}
    (h : Entered p s a set t s') : s'.context? a = some t := by
  rw [h.state, context?_enqueueArriving, context?_setContext_self]

theorem Entered.context?_of_ne {p : Program} {s s' : Analysis} {a b : Address} {set t : ConditionalSet}
    (h : Entered p s a set t s') (hb : b ≠ a) : s'.context? b = s.context? b := by
  rw [h.state, context?_enqueueArriving, context?_setContext_of_ne s t hb]

theorem Entered.isFlat {p : Program} {s s' : Analysis} {a : Address} {set t : ConditionalSet}
    (h : Entered p s a set t s') (hs : s.IsFlat) : s'.IsFlat := by
  intro b u hu
  by_cases hb : b = a
  · rw [hb, h.context?_self] at hu
    exact Option.some.inj hu ▸ h.flat
  · exact hs b u (h.context?_of_ne hb ▸ hu)

theorem Entered.grows {p : Program} {s s' : Analysis} {a : Address} {set t : ConditionalSet}
    (h : Entered p s a set t s') : s.Grows s' := by
  intro b l hl
  by_cases hb : b = a
  · rw [hb] at hl ⊢
    rw [watched_eq h.context?_self]
    exact (h.mem l).2 (Or.inl hl)
  · rwa [watched, h.context?_of_ne hb]

/-- To join a set changes nothing, or enters a context that is the first one or has something new. -/
theorem join_cases (p : Program) {s : Analysis} (hs : s.IsFlat) (a : Address) {set : ConditionalSet}
    (hset : set.IsFlat) :
    ((s.context? a).isSome = true ∧ s.join p a set = s) ∨
      ∃ t, Entered p s a set t (s.join p a set) ∧
        (s.context? a = none ∨ ∃ l ∈ t.possibleValues, l ∉ (s.watched a).possibleValues) := by
  unfold join
  split
  next hnone =>
    refine Or.inr ⟨set, ⟨hset, fun l => ?_, rfl⟩, Or.inl hnone⟩
    simp [Analysis.watched, hnone, possibleValues_empty]
  next context hsome =>
    have hcontext := hs a context hsome
    have hmem := fun l => hcontext.mem_possibleValues_union hset (e := l)
    dsimp only
    split
    next => exact Or.inl ⟨by rw [hsome, Option.isSome_some], rfl⟩
    next hchanged =>
      refine Or.inr ⟨context.union set, ⟨hcontext.union hset, fun l => ?_, by rw [Term.share_eq]⟩, Or.inr ?_⟩
      · rw [watched_eq hsome, hmem]
      · -- With nothing new, the union would be the old context.
        by_contra hnothing
        refine hchanged (hcontext.union_eq_left hset fun l hl => ?_)
        by_contra hl'
        exact hnothing ⟨l, (hmem l).2 (Or.inr hl), by rwa [watched_eq hsome]⟩

theorem join_flat (p : Program) {s : Analysis} (hs : s.IsFlat) (a : Address) {set : ConditionalSet}
    (hset : set.IsFlat) : (s.join p a set).IsFlat ∧ s.Grows (s.join p a set) := by
  rcases join_cases p hs a hset with ⟨-, hsame⟩ | ⟨t, hentered, -⟩
  · rw [hsame]
    exact ⟨hs, Grows.refl s⟩
  · exact ⟨hentered.isFlat hs, hentered.grows⟩

theorem step_flat (p : Program) (guarded : Bool) {s : Analysis} (hs : s.IsFlat) :
    (s.step p ⟨guarded, true⟩).1.IsFlat ∧ s.Grows (s.step p ⟨guarded, true⟩).1 := by
  refine step_cases (motive := fun t => t.IsFlat ∧ s.Grows t) (fun _ => ⟨hs, Grows.refl s⟩)
    (fun _ => ⟨hs, Grows.refl s⟩) fun {arrow rest a context set names} _ _ hsome hbefore => ?_
  have hset : set.IsFlat := (hs a context hsome).before hbefore
  exact join_flat p (s := { s with pending := rest, steps := s.steps + 1, names }) hs arrow.source hset

theorem run_flat (p : Program) (guarded : Bool) (limit : Nat) {s : Analysis} (hs : s.IsFlat) :
    (s.run p ⟨guarded, true⟩ limit).1.IsFlat ∧ s.Grows (s.run p ⟨guarded, true⟩ limit).1 := by
  refine runFrom_induction (motive := fun s' => s'.IsFlat ∧ s.Grows s') limit (fun t ht => ?_) (fun _ ht => ht)
    (fun _ _ ht => ht) limit ⟨hs, Grows.refl s⟩
  obtain ⟨hflat, hgrows⟩ := step_flat p guarded ht.1
  exact ⟨hflat, ht.2.trans hgrows⟩

theorem runFrom_of_pending_eq_nil (p : Program) (options : Options) (limit remaining : Nat) {s : Analysis}
    (h : s.pending = []) : s.runFrom p options limit remaining = (s.settle, .ok true) := by
  unfold runFrom
  rw [h, List.isEmpty_nil, if_pos rfl]

/-- The outcome of a run says whether the queue is empty, and so does the state. -/
theorem settled_of_runFrom {p : Program} {options : Options} {limit remaining : Nat} {s s' : Analysis} {done : Bool}
    (h : s.runFrom p options limit remaining = (s', .ok done)) :
    done = s'.pending.isEmpty ∧ s'.settled = s'.pending.isEmpty := by
  induction remaining generalizing s with
  | zero =>
      unfold runFrom at h
      split at h
      next hempty =>
        cases h
        exact ⟨hempty.symm, rfl⟩
      next hwaits =>
        cases h
        exact ⟨by simpa [settle, warn] using hwaits, rfl⟩
  | succ remaining ih =>
      unfold runFrom at h
      split at h
      next hempty =>
        cases h
        exact ⟨hempty.symm, rfl⟩
      next =>
        dsimp only at h
        split at h
        next => cases (Prod.mk.inj h).2
        next => exact ih h

theorem entered_seed (p : Program) {s : Analysis} (hs : s.IsFlat) (e : Seed) :
    Entered p s e.point (member e.location) ((s.watched e.point).add e.location) (s.seed p e) where
  flat := (hs.watched e.point).union (ConditionalSet.IsFlat.member e.location)
  mem _ := (hs.watched e.point).mem_possibleValues_union (ConditionalSet.IsFlat.member e.location)
  state := rfl

theorem start_flat (p : Program) (seeds : List Seed) (names : Fresh) : (start p seeds names).IsFlat :=
  List.foldlRecOn (motive := IsFlat) _ _ nofun fun _ hs e _ => (entered_seed p hs e).isFlat hs

end Backslice.Analysis
