import Backslice.Proofs.FlatRun
import Backslice.Proofs.LeastSolution
import Mathlib

/-!
# When flattened analyses converge

A step of an analysis over flat sets either only shortens the queue, or it puts
something new into the context of a source of an arrow, or it opens the first
context there. In the last two cases arrows are woken that lead to this source,
each of them once. If all that is ever watched is in one finite list, every point
can get something new only so often: the arrows that wait, and for every arrow
what its target may still get, bound the steps to come. And if an analysis ends,
only finitely many locations have been watched on the way.

Where an address is computed from a register that a loop changes, there is
another cell to watch every time around, and no number of steps is enough.
-/

namespace Backslice

/-- The arrows with a fixed target. -/
def Program.fixedArrows (p : Program) : List Arrow :=
  p.arrows.filter fun arrow => !arrow.target.isComputed

namespace Analysis

open Term ConditionalSet

section
variable {p : Program} {options : Options}

theorem contexts_runFrom (limit limit' remaining : Nat) (s : Analysis) :
    (s.runFrom p options limit remaining).1.contexts = (s.runFrom p options limit' remaining).1.contexts := by
  induction remaining generalizing s with
  | zero =>
      unfold runFrom
      split <;> rfl
  | succ remaining ih =>
      unfold runFrom
      split
      · rfl
      · dsimp only
        split
        · rfl
        · exact ih _

theorem runFrom_succ {s s' : Analysis} {done : Bool} (hwaits : s.pending ≠ [])
    (hstep : s.step p options = (s', .ok done)) (limit remaining : Nat) :
    s.runFrom p options limit (remaining + 1) = s'.runFrom p options limit remaining := by
  rw [runFrom, if_neg (by simpa using hwaits), hstep]

/-- A run that has emptied the queue would not get further with more steps. -/
theorem contexts_runFrom_of_le {limit remaining remaining' : Nat} {s : Analysis}
    (h : (s.runFrom p options limit remaining).2 = .ok true) (hle : remaining ≤ remaining') :
    (s.runFrom p options limit remaining').1.contexts = (s.runFrom p options limit remaining).1.contexts := by
  induction remaining generalizing s remaining' with
  | zero =>
      unfold runFrom at h
      split at h
      next hempty =>
        have hnothing : s.pending = [] := List.isEmpty_iff.1 hempty
        rw [runFrom_of_pending_eq_nil p options limit remaining' hnothing,
          runFrom_of_pending_eq_nil p options limit 0 hnothing]
      next => cases h
  | succ remaining ih =>
      by_cases hnothing : s.pending = []
      · rw [runFrom_of_pending_eq_nil p options limit remaining' hnothing,
          runFrom_of_pending_eq_nil p options limit (remaining + 1) hnothing]
      · obtain ⟨remaining', rfl⟩ : ∃ k, remaining' = k + 1 := ⟨remaining' - 1, by omega⟩
        cases hstep : s.step p options with
        | mk s' outcome =>
            cases outcome with
            | error fault =>
                rw [runFrom, if_neg (by simpa using hnothing), hstep] at h
                cases h
            | ok done =>
                rw [runFrom_succ hnothing hstep] at h ⊢
                rw [runFrom_succ hnothing hstep]
                exact ih h (by omega)

theorem mem_contexts_of_context? {s : Analysis} {a : Address} {t : ConditionalSet} (h : s.context? a = some t) :
    (a, t) ∈ s.contexts := by
  obtain ⟨before, after, hsplit, -⟩ := List.lookup_eq_some_iff.1 h
  rw [hsplit]
  simp

/-- What an analysis watches that ends, it has watched after finitely many steps. -/
theorem exists_locations {limit : Nat} {s : Analysis} (h : (s.run p options limit).2 = .ok true) :
    ∃ locations : List Term, ∀ limit' a, ∀ l ∈ ((s.run p options limit').1.watched a).possibleValues, l ∈ locations := by
  refine ⟨(List.range (limit + 1)).flatMap fun k =>
    (s.runFrom p options limit k).1.contexts.flatMap fun entry => entry.2.possibleValues, fun limit' a l hl => ?_⟩
  obtain ⟨t, ht⟩ := context?_of_mem_watched hl
  rw [watched_eq ht] at hl
  have hmem := mem_contexts_of_context? ht
  have hearly : ∃ k ≤ limit, (a, t) ∈ (s.runFrom p options limit k).1.contexts := by
    rw [run, contexts_runFrom limit' limit] at hmem
    rcases Nat.le_total limit' limit with hle | hle
    · exact ⟨limit', hle, hmem⟩
    · rw [contexts_runFrom_of_le h hle] at hmem
      exact ⟨limit, Nat.le_refl limit, hmem⟩
  obtain ⟨k, hk, hmem⟩ := hearly
  exact List.mem_flatMap.2 ⟨k, List.mem_range.2 (by omega), List.mem_flatMap.2 ⟨(a, t), hmem, hl⟩⟩

end

/-- Enqueuing appends arrows with a fixed target, each of them once, and none that waits already. -/
theorem exists_woken (arrows : List Arrow) (s : Analysis) :
    ∃ woken : List Arrow, (arrows.foldl enqueue s).pending = s.pending ++ woken ∧ woken.Nodup ∧
      ∀ other ∈ woken, other ∉ s.pending ∧ other ∈ arrows ∧ other.target.isComputed = false := by
  induction arrows generalizing s with
  | nil => exact ⟨[], (List.append_nil _).symm, List.nodup_nil, nofun⟩
  | cons arrow arrows ih =>
      obtain ⟨woken, hpending, hnodup, hwoken⟩ := ih (s.enqueue arrow)
      rw [List.foldl_cons, hpending]
      have hlater : ∀ other ∈ woken, (∀ waiting ∈ s.pending, waiting ∈ (s.enqueue arrow).pending) →
          other ∉ s.pending ∧ other ∈ arrow :: arrows ∧ other.target.isComputed = false := by
        intro other hother hkept
        obtain ⟨hnew, hmem, hfixed⟩ := hwoken other hother
        exact ⟨fun hwaits => hnew (hkept other hwaits), List.mem_cons_of_mem arrow hmem, hfixed⟩
      have hkept : ∀ waiting ∈ s.pending, waiting ∈ (s.enqueue arrow).pending :=
        fun waiting hwaiting => mem_pending_enqueue.2 (Or.inl hwaiting)
      by_cases hwakes : arrow.target.isComputed = false ∧ arrow ∉ s.pending
      · have happend : (s.enqueue arrow).pending = s.pending ++ [arrow] := by
          rw [enqueue, if_neg (by simp [hwakes.1]), if_neg hwakes.2]
        refine ⟨arrow :: woken, by rw [happend, List.append_assoc, List.singleton_append], ?_, ?_⟩
        · refine List.nodup_cons.2 ⟨fun hagain => (hwoken arrow hagain).1 ?_, hnodup⟩
          rw [happend]
          exact List.mem_append_right _ (List.mem_singleton_self arrow)
        · exact List.forall_mem_cons.2 ⟨⟨hwakes.2, List.mem_cons_self, hwakes.1⟩,
            fun other hother => hlater other hother hkept⟩
      · have hsame : (s.enqueue arrow).pending = s.pending := by
          rw [not_and, not_not] at hwakes
          unfold enqueue
          split
          next => rfl
          next hfixed => rw [if_pos (hwakes (by simpa using hfixed))]
        exact ⟨woken, by rw [hsame], hnodup, fun other hother => hlater other hother hkept⟩

section
variable {p : Program} (hp : p.Built)
include hp

theorem Entered.exists_woken {s s' : Analysis} {a : Address} {set t : ConditionalSet} (h : Entered p s a set t s') :
    ∃ woken : List Arrow, s'.pending = s.pending ++ woken ∧ woken.Nodup ∧
      ∀ other ∈ woken, other ∈ p.arrows ∧ other.target = .fixed a := by
  obtain ⟨woken, hpending, hnodup, hwoken⟩ := Analysis.exists_woken (p.arriving a) (s.setContext a t)
  refine ⟨woken, by rw [h.state]; exact hpending, hnodup, fun other hother => ?_⟩
  obtain ⟨-, harriving, hfixed⟩ := hwoken other hother
  cases htarget : other.target with
  | computed t =>
      rw [htarget] at hfixed
      cases hfixed
  | fixed b =>
      obtain ⟨hmem, rfl⟩ := (hp.mem_arriving_iff htarget).1 harriving
      exact ⟨hmem, rfl⟩

/-- A step passes the first arrow of the queue, and enters something new at its source, which wakes arrows that lead
there, or nothing at all. -/
theorem exists_step (hassigned : ∀ arrow ∈ p.arrows, ∀ l, arrow.assigned? = some l → l.isLvalue = true)
    (guarded : Bool) {s : Analysis} {arrow : Arrow} {rest : List Arrow} (hs : s.IsFlat) (hready : s.IsReady p)
    (hpending : s.pending = arrow :: rest) :
    ∃ s', s.step p ⟨guarded, true⟩ = (s', .ok s'.pending.isEmpty) ∧
      ((s'.contexts = s.contexts ∧ s'.pending = rest) ∨
        ∃ t woken, s'.context? arrow.source = some t ∧ (∀ b, b ≠ arrow.source → s'.context? b = s.context? b) ∧
          (∀ l ∈ (s.watched arrow.source).possibleValues, l ∈ t.possibleValues) ∧
          (s.context? arrow.source = none ∨
            ∃ l ∈ t.possibleValues, l ∉ (s.watched arrow.source).possibleValues) ∧
          s'.pending = rest ++ woken ∧ woken.Nodup ∧
          ∀ other ∈ woken, other ∈ p.arrows ∧ other.target = .fixed arrow.source) := by
  obtain ⟨harrow, a, htarget, hcontext⟩ := hready arrow (by rw [hpending]; exact List.mem_cons_self)
  obtain ⟨context, hsome⟩ := Option.isSome_iff_exists.1 hcontext
  obtain ⟨set, names, hbefore⟩ := exists_before ⟨guarded, true⟩ context s.names (hassigned arrow harrow)
  have hset : set.IsFlat := (hs a context hsome).before hbefore
  let taken : Analysis := { s with pending := rest, steps := s.steps + 1, names }
  have htaken : taken.IsFlat := hs
  have hstep : s.step p ⟨guarded, true⟩ =
      ((taken.join p arrow.source set).settle, .ok (taken.join p arrow.source set).pending.isEmpty) := by
    simp only [Analysis.step, hpending, propagate, htarget, Analysis.context?] at hsome ⊢
    simp only [hsome, hbefore]
    rfl
  refine ⟨_, hstep, ?_⟩
  rcases join_cases p htaken arrow.source hset with ⟨-, hsame⟩ | ⟨t, hentered, hnew⟩
  · rw [hsame]
    exact Or.inl ⟨rfl, rfl⟩
  · obtain ⟨woken, hwoken⟩ := hentered.exists_woken hp
    exact Or.inr ⟨t, woken, hentered.context?_self, fun b hb => hentered.context?_of_ne hb,
      fun l hl => (hentered.mem l).2 (Or.inl hl), hnew, hwoken⟩

end

/-- What a point may still get: a first context, and every location of a list that is not watched there. -/
def room (locations : List Term) (s : Analysis) (a : Address) : Nat :=
  (if (s.context? a).isSome then 0 else 1) + (locations.filter (· ∉ (s.watched a).possibleValues)).length

/-- What the target of an arrow may still get. Every time it gets something the arrow is woken once. -/
def targetRoom (locations : List Term) (s : Analysis) (arrow : Arrow) : Nat :=
  match arrow.target with
  | .fixed a => s.room locations a
  | .computed _ => 0

/-- A bound on the steps to come: the arrows that wait, and those that can still be woken, as often as they can be. -/
def workLeft (p : Program) (locations : List Term) (s : Analysis) : Nat :=
  s.pending.length + (p.fixedArrows.map (s.targetRoom locations)).sum

section
variable {locations : List Term} {s s' : Analysis}

theorem room_congr {a : Address} (h : s'.context? a = s.context? a) : s'.room locations a = s.room locations a := by
  rw [room, room, watched, watched, h]

theorem room_lt {a : Address} {t : ConditionalSet} (ht : s'.context? a = some t)
    (hkept : ∀ l ∈ (s.watched a).possibleValues, l ∈ t.possibleValues)
    (hnew : s.context? a = none ∨ ∃ l ∈ t.possibleValues, l ∉ (s.watched a).possibleValues)
    (hwithin : ∀ l ∈ t.possibleValues, l ∈ locations) : s'.room locations a < s.room locations a := by
  have hless : locations.filter (· ∉ t.possibleValues) =
      (locations.filter (· ∉ (s.watched a).possibleValues)).filter (· ∉ t.possibleValues) := by
    rw [List.filter_filter]
    refine List.filter_congr fun l _ => ?_
    have hl := hkept l
    rw [Bool.eq_iff_iff, Bool.and_eq_true, decide_eq_true_eq, decide_eq_true_eq]
    tauto
  have hle := List.length_filter_le (fun l => decide (l ∉ t.possibleValues))
    (locations.filter (· ∉ (s.watched a).possibleValues))
  rw [← hless] at hle
  unfold room
  rw [watched_eq ht, ht, Option.isSome_some, if_pos rfl]
  rcases hnew with hnone | ⟨l, hl, hl'⟩
  · rw [hnone, Option.isSome_none, if_neg Bool.false_ne_true]
    omega
  · have hlt : (locations.filter (· ∉ t.possibleValues)).length <
        (locations.filter (· ∉ (s.watched a).possibleValues)).length := by
      rw [hless, List.length_filter_lt_length_iff_exists]
      exact ⟨l, List.mem_filter.2 ⟨hwithin l hl, by simpa using hl'⟩, by simpa using hl⟩
    omega

theorem targetRoom_congr {arrow : Arrow} (h : ∀ a, arrow.target = .fixed a → s'.context? a = s.context? a) :
    s'.targetRoom locations arrow = s.targetRoom locations arrow := by
  unfold targetRoom
  split
  next a htarget => exact room_congr (h a htarget)
  next => rfl

/-- Where a point has got something, the room behind the arrows that lead there pays for waking each of them once. -/
theorem workLeft_lt {p : Program} {arrow : Arrow} {rest woken : List Arrow} (hpending : s.pending = arrow :: rest)
    (hpending' : s'.pending = rest ++ woken) (hnodup : woken.Nodup)
    (hwoken : ∀ other ∈ woken, other ∈ p.arrows ∧ other.target = .fixed arrow.source)
    (hother : ∀ b, b ≠ arrow.source → s'.context? b = s.context? b)
    (hlt : s'.room locations arrow.source < s.room locations arrow.source) :
    s'.workLeft p locations < s.workLeft p locations := by
  let leads : Arrow → Bool := fun other => other.target = .fixed arrow.source
  have hcount : woken.length ≤ p.fixedArrows.countP leads := by
    rw [List.countP_eq_length_filter]
    refine (hnodup.subperm fun other hmem => ?_).length_le
    obtain ⟨harrow, htarget⟩ := hwoken other hmem
    simp [Program.fixedArrows, leads, harrow, htarget, Target.isComputed]
  have hsum : (p.fixedArrows.map (s'.targetRoom locations)).sum + p.fixedArrows.countP leads ≤
      (p.fixedArrows.map (s.targetRoom locations)).sum := by
    refine List.sum_add_countP_le fun other _ => ?_
    by_cases htarget : other.target = .fixed arrow.source
    · simpa [leads, targetRoom, htarget] using hlt
    · have hsame : s'.targetRoom locations other = s.targetRoom locations other :=
        targetRoom_congr fun a ha => hother a fun hsource => htarget (hsource ▸ ha)
      simp [leads, htarget, hsame]
  rw [workLeft, workLeft, hpending, hpending', List.length_append, List.length_cons]
  omega

end

/-- If all that is ever watched is in a list, as many steps as there is work left empty the queue. -/
theorem runFrom_of_workLeft_le {p : Program} (hp : p.Built)
    (hassigned : ∀ arrow ∈ p.arrows, ∀ l, arrow.assigned? = some l → l.isLvalue = true) (guarded : Bool)
    (locations : List Term) {limit remaining : Nat} {s : Analysis} (hs : s.IsFlat) (hready : s.IsReady p)
    (hwithin : ∀ limit remaining a, ∀ l ∈ ((s.runFrom p ⟨guarded, true⟩ limit remaining).1.watched a).possibleValues,
      l ∈ locations) (hle : s.workLeft p locations ≤ remaining) :
    (s.runFrom p ⟨guarded, true⟩ limit remaining).2 = .ok true := by
  induction remaining generalizing s with
  | zero =>
      have hnothing : s.pending = [] := List.eq_nil_of_length_eq_zero (by unfold workLeft at hle; omega)
      rw [runFrom_of_pending_eq_nil p _ limit 0 hnothing]
  | succ remaining ih =>
      cases hpending : s.pending with
      | nil => rw [runFrom_of_pending_eq_nil p _ limit _ hpending]
      | cons arrow rest =>
          have hwaits : s.pending ≠ [] := by
            rw [hpending]
            exact List.cons_ne_nil arrow rest
          obtain ⟨s', hstep, hchange⟩ := exists_step hp hassigned guarded hs hready hpending
          have hwithin' : ∀ limit remaining a,
              ∀ l ∈ ((s'.runFrom p ⟨guarded, true⟩ limit remaining).1.watched a).possibleValues, l ∈ locations := by
            intro limit remaining
            rw [← runFrom_succ hwaits hstep]
            exact hwithin limit (remaining + 1)
          have hlt : s'.workLeft p locations < s.workLeft p locations := by
            rcases hchange with ⟨hcontexts, hrest⟩ | ⟨t, woken, ht, hother, hkept, hnew, hpending', hnodup, hwoken⟩
            · have hroom : ∀ other, s'.targetRoom locations other = s.targetRoom locations other := fun other =>
                targetRoom_congr fun a _ => by rw [context?, context?, hcontexts]
              rw [workLeft, workLeft, hpending, hrest, List.map_congr_left fun other _ => hroom other, List.length_cons]
              omega
            · refine workLeft_lt hpending hpending' hnodup hwoken hother (room_lt ht hkept hnew fun l hl => ?_)
              -- What the step has put into the context is watched after a run of no further step.
              refine hwithin' 0 0 arrow.source l ?_
              rw [watched, context?, show (s'.runFrom p ⟨guarded, true⟩ 0 0).1.contexts = s'.contexts by
                unfold runFrom; split <;> rfl, ← context?, ht]
              exact hl
          have hflat' := (step_flat p guarded hs).1
          have hready' := hready.step hp ⟨guarded, true⟩
          rw [hstep] at hflat' hready'
          rw [runFrom_succ hwaits hstep]
          exact ih hflat' hready' hwithin' (by omega)

/-- If all that is ever watched is in a list, some number of steps empties the queue. -/
theorem exists_run {p : Program} (hp : p.Built)
    (hassigned : ∀ arrow ∈ p.arrows, ∀ l, arrow.assigned? = some l → l.isLvalue = true) (guarded : Bool)
    (locations : List Term) (s : Analysis) (hs : s.IsFlat) (hready : s.IsReady p)
    (hwithin : ∀ limit remaining a, ∀ l ∈ ((s.runFrom p ⟨guarded, true⟩ limit remaining).1.watched a).possibleValues,
      l ∈ locations) : ∃ remaining, ∀ limit, (s.runFrom p ⟨guarded, true⟩ limit remaining).2 = .ok true :=
  ⟨s.workLeft p locations, fun _ =>
    runFrom_of_workLeft_le hp hassigned guarded locations hs hready hwithin (Nat.le_refl _)⟩

/-- An analysis over flat sets ends, with enough steps, if and only if all it ever watches is in one list. -/
theorem converges_iff {p : Program} (hp : p.Built)
    (hassigned : ∀ arrow ∈ p.arrows, ∀ l, arrow.assigned? = some l → l.isLvalue = true) (guarded : Bool)
    (seeds : List Seed) (names : Fresh) :
    (∃ limit, ((start p seeds names).run p ⟨guarded, true⟩ limit).2 = .ok true) ↔
      ∃ locations : List Term, ∀ limit a,
        ∀ l ∈ (((start p seeds names).run p ⟨guarded, true⟩ limit).1.watched a).possibleValues, l ∈ locations := by
  constructor
  · rintro ⟨limit, hdone⟩
    exact exists_locations hdone
  · rintro ⟨locations, hwithin⟩
    have hflat := start_flat p seeds names
    have hready := (Reaches.start p ⟨guarded, true⟩ seeds names).isReady hp
    obtain ⟨limit, hdone⟩ := exists_run hp hassigned guarded locations _ hflat hready fun limit remaining a l hl => by
      refine hwithin remaining a l ?_
      rwa [run, watched, context?, contexts_runFrom remaining limit]
    exact ⟨limit, hdone limit⟩

/-- A register is moved on by a word, and the way leads back. -/
def advance : Arrow :=
  ⟨⟨0, 0⟩, none, .assign (.reg "r" 0 0) (.binary .add (.reg "r" 0 0) (.const 4)), .fixed ⟨0, 0⟩⟩

def advancingLoop : Program :=
  Program.addArrow {} advance

/-- The register itself, seen at the point. -/
def advanced : Seed :=
  ⟨⟨0, 0⟩, .reg "r" 0 0⟩

/-- The cell that the register points to, seen at the point. -/
def pointedCell : Seed :=
  ⟨⟨0, 0⟩, .mem (.reg "r" 0 0)⟩

/-- What the register holds after a number of rounds, in terms of what it holds before. -/
def afterRounds : Nat → Term
  | 0 => .reg "r" 0 0
  | rounds + 1 => .binary .add (afterRounds rounds) (.const 4)

theorem replace_afterRounds (rounds : Nat) :
    (afterRounds rounds).replace (.reg "r" 0 0) (.binary .add (.reg "r" 0 0) (.const 4)) =
      afterRounds (rounds + 1) := by
  induction rounds with
  | zero => exact replace_register_self (r := .reg "r" 0 0) rfl _
  | succ rounds ih =>
      rw [afterRounds, replace_register_binary rfl, ih, replace_of_not_mem (by decide)]
      rfl

theorem simplify_afterRounds (rounds : Nat) : (afterRounds rounds).simplify = afterRounds rounds := by
  induction rounds with
  | zero => rfl
  | succ rounds ih =>
      rw [afterRounds, simplify, ih]
      cases rounds <;> rfl

theorem afterRounds_injective : Function.Injective afterRounds := by
  intro rounds
  induction rounds with
  | zero =>
      intro other h
      cases other with
      | zero => rfl
      | succ other => cases h
  | succ rounds ih =>
      intro other h
      cases other with
      | zero => cases h
      | succ other => rw [ih (Term.binary.inj h).2.1]

theorem advance_isPlain : ∀ arrow ∈ advancingLoop.arrows, arrow.statement.IsPlain := by
  change ∀ arrow ∈ [advance], arrow.statement.IsPlain
  simp only [List.forall_mem_singleton]
  exact ⟨⟨rfl, by decide⟩, by decide⟩

theorem relevant_afterRounds (guarded : Bool) (rounds : Nat) :
    advancingLoop.Relevant ⟨guarded, true⟩ [pointedCell] ⟨0, 0⟩ (.mem (afterRounds rounds)) := by
  have hclosed : advancingLoop.Closed [pointedCell] (advancingLoop.Relevant ⟨guarded, true⟩ [pointedCell]) :=
    advancingLoop.closed_relevant advance_isPlain guarded
  have hadvance : advance ∈ advancingLoop.arrows := List.mem_singleton_self _
  have hplain : ∀ k, (Term.mem (afterRounds k)).IsLocation := fun k => by
    refine ⟨rfl, (plain_mem _).2 ?_⟩
    induction k with
    | zero => decide
    | succ k ih => exact (plain_binary .add _ _).2 ⟨ih, by decide⟩
  induction rounds with
  | zero => exact .seed (List.mem_singleton_self _)
  | succ rounds ih =>
      refine hclosed.arrow hadvance rfl (hplain rounds) ih ?_
      rw [advance, Statement.elementsBefore_register rfl, if_neg nofun, replace_register_mem rfl,
        replace_afterRounds, simplify, simplify_afterRounds]
      exact List.mem_singleton_self _

theorem built_advancingLoop : advancingLoop.Built :=
  Program.Built.empty.addArrow advance

theorem converges_iff_advanced :
    advancingLoop.Built ∧ (∀ arrow ∈ advancingLoop.arrows, ∀ l, arrow.assigned? = some l → l.isLvalue = true) ∧
      (∃ limit, ((start advancingLoop [advanced] ⟨0⟩).run advancingLoop Options.slicing limit).2 = .ok true) ∧
      ∃ locations : List Term, ∀ limit a,
        ∀ l ∈ (((start advancingLoop [advanced] ⟨0⟩).run advancingLoop Options.slicing limit).1.watched a).possibleValues,
          l ∈ locations := by
  have hassigned : ∀ arrow ∈ advancingLoop.arrows, ∀ l, arrow.assigned? = some l → l.isLvalue = true := by
    change ∀ arrow ∈ [advance], ∀ l, arrow.assigned? = some l → l.isLvalue = true
    simp only [List.forall_mem_singleton]
    rintro l ⟨⟩
    rfl
  have hdone : ((start advancingLoop [advanced] ⟨0⟩).run advancingLoop Options.slicing 1).2 = .ok true := by cbv
  exact ⟨built_advancingLoop, hassigned, ⟨1, hdone⟩,
    (converges_iff built_advancingLoop hassigned true [advanced] ⟨0⟩).1 ⟨1, hdone⟩⟩

/-- The analysis of the cell that is pointed to does not end, however many steps are taken. -/
theorem pointedCell_diverges :
    ¬∃ limit, ((start advancingLoop [pointedCell] ⟨0⟩).run advancingLoop Options.slicing limit).2 = .ok true := by
  rintro ⟨limit, hdone⟩
  obtain ⟨locations, hwithin⟩ := exists_locations hdone
  have hreaches : Reaches advancingLoop ⟨true, true⟩ [pointedCell]
      ((start advancingLoop [pointedCell] ⟨0⟩).run advancingLoop Options.slicing limit).1 :=
    (Reaches.start advancingLoop ⟨true, true⟩ [pointedCell] ⟨0⟩).run limit
  have hsettled : ((start advancingLoop [pointedCell] ⟨0⟩).run advancingLoop Options.slicing limit).1.pending = [] := by
    have hnoted := (settled_of_runFrom (Prod.ext rfl hdone)).1
    exact List.isEmpty_iff.1 hnoted.symm
  have hcell : ∀ e ∈ [pointedCell], e.location.IsLocation := fun e he =>
    List.mem_singleton.1 he ▸ ⟨rfl, by decide⟩
  have hall : ∀ rounds, Term.mem (afterRounds rounds) ∈ locations := fun rounds =>
    hwithin limit ⟨0, 0⟩ _ ((hreaches.mem_watched_iff built_advancingLoop advance_isPlain hcell hsettled _ _).2
      (relevant_afterRounds true rounds))
  have hinjective : Function.Injective fun rounds => Term.mem (afterRounds rounds) := fun _ _ h =>
    afterRounds_injective (Term.mem.inj h)
  exact Set.infinite_range_of_injective hinjective
    (locations.finite_toSet.subset (Set.range_subset_iff.2 hall))

end Analysis
end Backslice
