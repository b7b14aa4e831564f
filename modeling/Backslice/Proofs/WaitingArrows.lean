import Backslice.Proofs.Construction
import Backslice.Worklist

/-!
# The arrows that wait

Whatever an analysis does comes down to entering contexts: a seed enters one,
and a step takes the first arrow from the queue and joins a set into the context
of its source. To enter a context wakes the arrows that arrive at its point. So
in every state that an analysis reaches, whether or not a step has failed, an
arrow that waits is one of the program, its target is fixed, and there is a
context behind it.
-/

namespace Backslice.Analysis

theorem context?_setContext_of_ne (s : Analysis) {a b : Address} (context : ConditionalSet) (h : b ≠ a) :
    (s.setContext a context).context? b = s.context? b := by
  have hmap : ∀ contexts : List (Address × ConditionalSet),
      (contexts.map fun entry => if entry.1 = a then (a, context) else entry).lookup b = contexts.lookup b := by
    intro contexts
    induction contexts with
    | nil => rfl
    | cons entry rest ih =>
        obtain ⟨c, set⟩ := entry
        by_cases hc : c = a
        · have hbc : (b == c) = false := beq_eq_false_iff_ne.2 (hc ▸ h)
          have hba : (b == a) = false := beq_eq_false_iff_ne.2 h
          rw [List.map_cons, if_pos hc, List.lookup_cons, List.lookup_cons, hba, hbc]
          exact ih
        · rw [List.map_cons, if_neg hc, List.lookup_cons, List.lookup_cons, ih]
  have hba : (b == a) = false := beq_eq_false_iff_ne.2 h
  unfold setContext context?
  split
  · exact hmap s.contexts
  · simp [List.lookup_append, List.lookup_cons, hba]

theorem context?_setContext_isSome_iff (s : Analysis) (a : Address) (set : ConditionalSet) (b : Address) :
    ((s.setContext a set).context? b).isSome = true ↔ b = a ∨ (s.context? b).isSome = true := by
  by_cases hb : b = a
  · rw [hb, context?_setContext_self]
    simp
  · rw [context?_setContext_of_ne s set hb]
    simp [hb]

@[simp]
theorem contexts_enqueue (s : Analysis) (arrow : Arrow) : (s.enqueue arrow).contexts = s.contexts := by
  unfold enqueue
  split
  · rfl
  · split <;> rfl

theorem mem_pending_enqueue {s : Analysis} {arrow other : Arrow} :
    other ∈ (s.enqueue arrow).pending ↔ other ∈ s.pending ∨ (other = arrow ∧ arrow.target.isComputed = false) := by
  unfold enqueue
  split
  next h => simp [warn, h]
  next h =>
    split
    next hwaits =>
      constructor
      · exact Or.inl
      · rintro (hother | ⟨rfl, -⟩)
        · exact hother
        · exact hwaits
    next => simp [h]

theorem foldl_enqueue (arrows : List Arrow) (s : Analysis) :
    (arrows.foldl enqueue s).contexts = s.contexts ∧
      ∀ other, other ∈ (arrows.foldl enqueue s).pending ↔
        other ∈ s.pending ∨ (other ∈ arrows ∧ other.target.isComputed = false) := by
  induction arrows generalizing s with
  | nil => simp
  | cons arrow arrows ih =>
      obtain ⟨hcontexts, hpending⟩ := ih (s.enqueue arrow)
      refine ⟨by rw [List.foldl_cons, hcontexts, contexts_enqueue], fun other => ?_⟩
      rw [List.foldl_cons, hpending, mem_pending_enqueue, List.mem_cons, or_assoc, or_and_right]
      refine or_congr_right (or_congr_left (and_congr_right ?_))
      rintro rfl
      rfl

theorem context?_enqueueArriving (p : Program) (s : Analysis) (a b : Address) :
    (s.enqueueArriving p a).context? b = s.context? b := by
  unfold context?
  exact congrArg (List.lookup b) (foldl_enqueue (p.arriving a) s).1

theorem mem_pending_enqueueArriving {p : Program} {s : Analysis} {a : Address} {other : Arrow} :
    other ∈ (s.enqueueArriving p a).pending ↔
      other ∈ s.pending ∨ (other ∈ p.arriving a ∧ other.target.isComputed = false) :=
  (foldl_enqueue (p.arriving a) s).2 other

theorem not_mem_pending_of_cons {s : Analysis} {arrow other : Arrow} {rest : List Arrow}
    (hpending : s.pending = arrow :: rest) (hwaits : other ∉ rest) (htaken : other ∉ [arrow]) : other ∉ s.pending := by
  rw [hpending, List.mem_cons, not_or]
  exact ⟨fun heq => htaken (List.mem_singleton.2 heq), hwaits⟩

theorem propagate_cases {p : Program} {options : Options} {s s' : Analysis} {arrow : Arrow}
    (h : s.propagate p options arrow = .ok s') :
    ∃ a context set names, arrow.target = .fixed a ∧ s.context? a = some context ∧
      context.before options arrow s.names = .ok (set, names) ∧ s' = { s with names }.join p arrow.source set := by
  unfold propagate at h
  split at h
  next => cases h
  next a htarget =>
    split at h
    next => cases h
    next context hsome =>
      cases hbefore : context.before options arrow s.names with
      | error fault => simp [hbefore, bind, Except.bind] at h
      | ok result =>
          obtain ⟨set, names⟩ := result
          simp only [hbefore, bind, Except.bind, pure, Except.pure, Except.ok.injEq] at h
          exact ⟨a, context, set, names, htarget, hsome, hbefore, h.symm⟩

/-- A step rests on an empty queue, or it takes the first arrow, which cannot be passed or has a set joined into the
context of its source. -/
theorem step_cases {p : Program} {options : Options} {s : Analysis} {motive : Analysis → Prop}
    (rests : s.pending = [] → motive { s with settled := true })
    (fails : ∀ {arrow rest}, s.pending = arrow :: rest → motive { s with pending := rest, steps := s.steps + 1 })
    (passes : ∀ {arrow rest a context set names}, s.pending = arrow :: rest → arrow.target = .fixed a →
      s.context? a = some context → context.before options arrow s.names = .ok (set, names) →
        motive ({ s with pending := rest, steps := s.steps + 1, names }.join p arrow.source set).settle) :
    motive (s.step p options).1 := by
  unfold step
  split
  next hnone => exact rests hnone
  next arrow rest hpending =>
    dsimp only
    split
    next => exact fails hpending
    next s' hpropagate =>
      obtain ⟨a, context, set, names, htarget, hsome, hbefore, rfl⟩ := propagate_cases hpropagate
      exact passes hpending htarget hsome hbefore

/-- What steps keep, and the warning of a run and the note on the queue, runs keep. -/
theorem runFrom_induction {p : Program} {options : Options} {motive : Analysis → Prop} (limit : Nat)
    (step : ∀ s, motive s → motive (s.step p options).1) (settle : ∀ s, motive s → motive s.settle)
    (warn : ∀ s n, motive s → motive (s.warn (.unsettled limit n))) (remaining : Nat) {s : Analysis} (h : motive s) :
    motive (s.runFrom p options limit remaining).1 := by
  induction remaining generalizing s with
  | zero =>
      unfold runFrom
      split
      · exact settle s h
      · exact settle _ (warn s _ h)
  | succ remaining ih =>
      have hstep := step s h
      unfold runFrom
      split
      · exact settle s h
      · dsimp only
        split
        next heq =>
          rw [heq] at hstep
          exact hstep
        next heq =>
          rw [heq] at hstep
          exact ih hstep

/-- The states of an analysis and the seeds that have been entered, after seeds, steps and runs in any order. -/
inductive Reaches (p : Program) (options : Options) : List Seed → Analysis → Prop
  | new (names : Fresh) : Reaches p options [] { names }
  | seed {seeds : List Seed} {s : Analysis} (h : Reaches p options seeds s) (e : Seed) :
      Reaches p options (seeds ++ [e]) (s.seed p e)
  | step {seeds : List Seed} {s : Analysis} (h : Reaches p options seeds s) :
      Reaches p options seeds (s.step p options).1
  | run {seeds : List Seed} {s : Analysis} (h : Reaches p options seeds s) (limit : Nat) :
      Reaches p options seeds (s.run p options limit).1

theorem Reaches.start (p : Program) (options : Options) (seeds : List Seed) (names : Fresh) :
    Reaches p options seeds (start p seeds names) := by
  have hfold : ∀ entered s, Reaches p options entered s →
      Reaches p options (entered ++ seeds) (seeds.foldl (Analysis.seed p) s) := by
    induction seeds with
    | nil => exact fun entered s hs => by rwa [List.append_nil]
    | cons e seeds ih =>
        intro entered s hs
        rw [List.append_cons]
        exact ih _ _ (hs.seed e)
  exact hfold [] _ (.new names)

/-- Whether every arrow that waits is one of the program, to a fixed point with a context. -/
def IsReady (p : Program) (s : Analysis) : Prop :=
  ∀ arrow ∈ s.pending, arrow ∈ p.arrows ∧ ∃ a, arrow.target = .fixed a ∧ (s.context? a).isSome = true

section
variable {p : Program} {s : Analysis}

theorem isReady_new (p : Program) (names : Fresh) : IsReady p { names } :=
  nofun

theorem IsReady.tail (h : s.IsReady p) {arrow : Arrow} {rest : List Arrow} (hpending : s.pending = arrow :: rest) :
    IsReady p { s with pending := rest } := by
  intro other hother
  exact h other (hpending ▸ List.mem_cons_of_mem arrow hother)

/-- The arrows that are woken lead to the point where there is a context now. -/
theorem IsReady.enter (hp : p.Built) (h : s.IsReady p) (a : Address) (set : ConditionalSet) :
    ((s.setContext a set).enqueueArriving p a).IsReady p := by
  intro arrow hwaits
  rw [mem_pending_enqueueArriving] at hwaits
  rcases hwaits with hwaits | ⟨harriving, hfixed⟩
  · obtain ⟨harrow, b, htarget, hcontext⟩ := h arrow hwaits
    refine ⟨harrow, b, htarget, ?_⟩
    rw [context?_enqueueArriving, context?_setContext_isSome_iff]
    exact Or.inr hcontext
  · cases htarget : arrow.target with
    | computed t =>
        rw [htarget] at hfixed
        cases hfixed
    | fixed b =>
        obtain ⟨harrow, rfl⟩ := (hp.mem_arriving_iff htarget).1 harriving
        refine ⟨harrow, b, rfl, ?_⟩
        rw [context?_enqueueArriving, context?_setContext_isSome_iff]
        exact Or.inl rfl

section
variable (hp : p.Built)
include hp

theorem IsReady.join (h : s.IsReady p) (a : Address) (set : ConditionalSet) : (s.join p a set).IsReady p := by
  unfold Analysis.join
  split
  next => exact h.enter hp a set
  next =>
    dsimp only
    split
    next => exact h
    next => exact h.enter hp a _

theorem IsReady.seed (h : s.IsReady p) (e : Seed) : (s.seed p e).IsReady p :=
  h.enter hp e.point _

theorem IsReady.step (h : s.IsReady p) (options : Options) : (s.step p options).1.IsReady p := by
  refine step_cases (fun _ => h) (fun hpending => h.tail hpending) fun {arrow rest _ _ set names} hpending _ _ _ => ?_
  have htaken : IsReady p { s with pending := rest, steps := s.steps + 1, names } := h.tail hpending
  exact htaken.join hp arrow.source set

theorem IsReady.run (h : s.IsReady p) (options : Options) (limit : Nat) : (s.run p options limit).1.IsReady p :=
  runFrom_induction limit (fun _ ht => ht.step hp options) (fun _ ht => ht) (fun _ _ ht => ht) limit h

theorem Reaches.isReady {options : Options} {seeds : List Seed} (hs : Reaches p options seeds s) : s.IsReady p := by
  induction hs with
  | new names => exact isReady_new p names
  | seed _ e ih => exact ih.seed hp e
  | step _ ih => exact ih.step hp options
  | run _ limit ih => exact ih.run hp options limit

end

end

end Backslice.Analysis
