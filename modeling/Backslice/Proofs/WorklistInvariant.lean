import Backslice.Proofs.ExplicitTransfer
import Backslice.Proofs.WaitingArrows

/-!
# The invariant of the queue

Seeding a point and passing an arrow both join a set into the context of one
point. If this puts a new location there, the arrows that arrive at the point
wait in the queue afterwards. So an arrow of the program with a fixed target
that does not wait has been passed since the context behind it changed last, and
what the elements behind it come from is in the context in front of it.

A family of sets of locations is closed if it has the seeds and is passed
backward by every arrow. No context ever exceeds a closed family.
-/

namespace Backslice

open Term ConditionalSet

/-- Whether a family of sets of locations has the seeds and, with a location behind an arrow, what the
location comes from in front of it. -/
structure Program.Closed (p : Program) (seeds : List Seed) (family : Address → Term → Prop) : Prop where
  seed : ∀ e ∈ seeds, family e.point e.location
  arrow {arrow : Arrow} {a : Address} {m l : Term} : arrow ∈ p.arrows → arrow.target = .fixed a → m.IsLocation →
    family a m → l ∈ arrow.statement.elementsBefore m → family arrow.source l

namespace Analysis

theorem watched_eq {s : Analysis} {a : Address} {context : ConditionalSet} (h : s.context? a = some context) :
    s.watched a = context := by
  rw [watched, h, Option.getD_some]

theorem context?_of_mem_watched {s : Analysis} {a : Address} {l : Term} (h : l ∈ (s.watched a).possibleValues) :
    ∃ context, s.context? a = some context := by
  cases hc : s.context? a with
  | some context => exact ⟨context, rfl⟩
  | none => simp [watched, hc, empty, mem_possibleValues, atoms] at h

/-- What it is to join a set into the context of a point, and to wake the arrows that arrive there if need be. -/
structure Joined (p : Program) (s : Analysis) (a : Address) (set : ConditionalSet) (s' : Analysis) : Prop where
  other {b : Address} : b ≠ a → s'.context? b = s.context? b
  context : ∃ t, s'.context? a = some t ∧ t.IsExplicit ∧
    ∀ l, l ∈ t.possibleValues ↔ l ∈ (s.watched a).possibleValues ∨ l ∈ set.possibleValues
  waits {arrow : Arrow} : arrow ∈ s.pending → arrow ∈ s'.pending
  awake : (∀ l ∈ set.possibleValues, l ∈ (s.watched a).possibleValues) ∨
    ∀ arrow ∈ p.arriving a, arrow.target.isComputed = false → arrow ∈ s'.pending

/-- Whether all contexts are explicit sets. -/
def IsExplicit (s : Analysis) : Prop :=
  ∀ a t, s.context? a = some t → t.IsExplicit

theorem IsExplicit.watched {s : Analysis} (h : s.IsExplicit) (a : Address) : (s.watched a).IsExplicit := by
  unfold Analysis.watched
  cases hc : s.context? a with
  | none => exact isSum_false
  | some t => exact h a t hc

theorem joined_setContext (p : Program) {s : Analysis} {a : Address} {set t : ConditionalSet} (ht : t.IsExplicit)
    (hvalues : ∀ l, l ∈ t.possibleValues ↔ l ∈ (s.watched a).possibleValues ∨ l ∈ set.possibleValues) :
    Joined p s a set ((s.setContext a t).enqueueArriving p a) where
  other hb := by rw [context?_enqueueArriving, context?_setContext_of_ne s t hb]
  context := ⟨t, by rw [context?_enqueueArriving, context?_setContext_self], ht, hvalues⟩
  waits h := mem_pending_enqueueArriving.2 (Or.inl h)
  awake := Or.inr fun _ h hfixed => mem_pending_enqueueArriving.2 (Or.inr ⟨h, hfixed⟩)

theorem joined_join (p : Program) {s : Analysis} (hs : s.IsExplicit) (a : Address) {set : ConditionalSet}
    (hset : set.IsExplicit) : Joined p s a set (s.join p a set) := by
  unfold join
  split
  next hnone =>
    refine joined_setContext p hset fun l => ?_
    have hempty : l ∉ (s.watched a).possibleValues := fun h => by
      obtain ⟨context, hsome⟩ := context?_of_mem_watched h
      exact nomatch hnone.symm.trans hsome
    simp [hempty]
  next context hsome =>
    have hcontext := hs a context hsome
    have hunion : ∀ l, l ∈ (context.union set).possibleValues ↔
        l ∈ (s.watched a).possibleValues ∨ l ∈ set.possibleValues := fun l => by
      rw [watched_eq hsome, hcontext.mem_union hset]
    dsimp only
    split
    next hsame =>
      rw [hsame] at hunion
      refine ⟨fun _ => rfl, ⟨context, hsome, hcontext, hunion⟩, id, Or.inl fun l hl => ?_⟩
      rw [watched_eq hsome]
      exact (hunion l).2 (Or.inr hl)
    next =>
      rw [share_eq]
      exact joined_setContext p (hcontext.union hset) hunion

theorem joined_seed (p : Program) {s : Analysis} (hs : s.IsExplicit) {e : Seed} (he : e.location.IsLocation) :
    Joined p s e.point (member e.location) (s.seed p e) :=
  joined_setContext p ((hs.watched e.point).union (isSum_member he)) fun _ =>
    (hs.watched e.point).mem_union (isSum_member he)

section
variable {p : Program} {s s' : Analysis} {a : Address} {set : ConditionalSet}

theorem Joined.watched_of_ne (h : Joined p s a set s') {b : Address} (hb : b ≠ a) : s'.watched b = s.watched b := by
  rw [watched, watched, h.other hb]

theorem Joined.mem_watched (h : Joined p s a set s') {l : Term} :
    l ∈ (s'.watched a).possibleValues ↔ l ∈ (s.watched a).possibleValues ∨ l ∈ set.possibleValues := by
  obtain ⟨t, hsome, -, hvalues⟩ := h.context
  rw [watched_eq hsome]
  exact hvalues l

theorem Joined.isExplicit (h : Joined p s a set s') (hs : s.IsExplicit) : s'.IsExplicit := by
  intro b t ht
  by_cases hb : b = a
  · obtain ⟨u, hsome, hu, -⟩ := h.context
    rw [hb, hsome] at ht
    exact Option.some.inj ht ▸ hu
  · exact hs b t (h.other hb ▸ ht)

theorem Joined.mono (h : Joined p s a set s') {b : Address} {l : Term} (hl : l ∈ (s.watched b).possibleValues) :
    l ∈ (s'.watched b).possibleValues := by
  by_cases hb : b = a
  · rw [hb] at hl ⊢
    exact h.mem_watched.2 (Or.inl hl)
  · rwa [h.watched_of_ne hb]

theorem Joined.mem_of_not_pending (h : Joined p s a set s') (hp : p.Built) {arrow : Arrow} {b : Address} {m : Term}
    (harrow : arrow ∈ p.arrows) (htarget : arrow.target = .fixed b) (hwaits : arrow ∉ s'.pending)
    (hm : m ∈ (s'.watched b).possibleValues) : m ∈ (s.watched b).possibleValues := by
  by_cases hb : b = a
  · rcases h.awake with hold | hnew
    · rw [hb] at hm ⊢
      exact (h.mem_watched.1 hm).elim id (hold m)
    · have harriving : arrow ∈ p.arriving a := (hp.mem_arriving_iff htarget).2 ⟨harrow, hb⟩
      exact absurd (hnew arrow harriving (by rw [htarget, Target.isComputed])) hwaits
  · rwa [h.watched_of_ne hb] at hm

end

/-- What the contexts and the queue satisfy within a closed family. Arrows are `taken` that have left the
queue and have not been passed yet. -/
structure Invariant (p : Program) (seeds : List Seed) (family : Address → Term → Prop) (taken : List Arrow)
    (s : Analysis) : Prop where
  explicit : s.IsExplicit
  seeds : ∀ e ∈ seeds, e.location ∈ (s.watched e.point).possibleValues
  passed {arrow : Arrow} {a : Address} : arrow ∈ p.arrows → arrow.target = .fixed a → arrow ∉ s.pending →
    arrow ∉ taken → ∀ m ∈ (s.watched a).possibleValues, ∀ l ∈ arrow.statement.elementsBefore m,
      l ∈ (s.watched arrow.source).possibleValues
  within : ∀ a, ∀ l ∈ (s.watched a).possibleValues, family a l

section
variable {p : Program} {seeds : List Seed} {family : Address → Term → Prop} {s s' : Analysis}

theorem invariant_empty (p : Program) (family : Address → Term → Prop) (names : Fresh) :
    Invariant p [] family [] { names } := by
  have hnothing : ∀ a l, l ∉ (({ names } : Analysis).watched a).possibleValues := fun a l h => by
    obtain ⟨t, ht⟩ := context?_of_mem_watched h
    exact nomatch ht
  exact ⟨nofun, nofun, fun _ _ _ _ m hm => absurd hm (hnothing _ m), fun a l hl => absurd hl (hnothing a l)⟩

/-- Joining a set keeps the invariant, and a taken arrow counts as passed once its set is joined. -/
theorem Invariant.joined {taken : List Arrow} {a : Address} {set : ConditionalSet} (hp : p.Built)
    (h : Invariant p seeds family taken s) (hjoined : Joined p s a set s')
    (hset : ∀ l ∈ set.possibleValues, family a l)
    (htaken : ∀ arrow ∈ taken, ∀ b, arrow.target = .fixed b → arrow.source = a ∧
      ∀ m ∈ (s.watched b).possibleValues, ∀ l ∈ arrow.statement.elementsBefore m, l ∈ set.possibleValues) :
    Invariant p seeds family [] s' where
  explicit := hjoined.isExplicit h.explicit
  seeds e he := hjoined.mono (h.seeds e he)
  passed := by
    -- An arrow that does not wait has nothing new behind it: it was passed before, or is taken and passed now.
    intro arrow b harrow htarget hwaits _ m hm l hl
    have hold := hjoined.mem_of_not_pending hp harrow htarget hwaits hm
    by_cases htook : arrow ∈ taken
    · obtain ⟨hsource, helements⟩ := htaken arrow htook b htarget
      rw [hsource]
      exact hjoined.mem_watched.2 (Or.inr (helements m hold l hl))
    · exact hjoined.mono (h.passed harrow htarget (fun hw => hwaits (hjoined.waits hw)) htook m hold l hl)
  within b l hl := by
    by_cases hb : b = a
    · rw [hb] at hl ⊢
      exact (hjoined.mem_watched.1 hl).elim (h.within a l) (hset l)
    · rw [hjoined.watched_of_ne hb] at hl
      exact h.within b l hl

theorem Invariant.seed (hp : p.Built) {e : Seed} (he : e.location.IsLocation) (hfamily : family e.point e.location)
    (h : Invariant p seeds family [] s) : Invariant p (seeds ++ [e]) family [] (s.seed p e) := by
  have hjoined := joined_seed p h.explicit he
  have hvalues : ∀ l, l ∈ (member e.location).possibleValues ↔ l = e.location := fun l => by
    rw [mem_possibleValues, atoms_member, List.mem_singleton]
  have hafter : Invariant p seeds family [] (s.seed p e) :=
    h.joined hp hjoined (fun l hl => by rwa [(hvalues l).1 hl]) nofun
  refine ⟨hafter.explicit, fun d hd => ?_, hafter.passed, hafter.within⟩
  rcases List.mem_append.1 hd with hd | hd
  · exact hafter.seeds d hd
  · rw [List.mem_singleton.1 hd]
    exact hjoined.mem_watched.2 (Or.inr ((hvalues _).2 rfl))

section
variable (hp : p.Built) (harrows : ∀ arrow ∈ p.arrows, arrow.statement.IsPlain) (hclosed : p.Closed seeds family)
  (guarded : Bool)
include hp harrows hclosed

/-- Passing a taken arrow does not fail, and restores the invariant. -/
theorem Invariant.propagate {arrow : Arrow} {a : Address} (h : Invariant p seeds family [arrow] s)
    (harrow : arrow ∈ p.arrows) (htarget : arrow.target = .fixed a) (hcontext : (s.context? a).isSome = true) :
    ∃ s', s.propagate p ⟨guarded, true⟩ arrow = .ok s' ∧ Invariant p seeds family [] s' := by
  obtain ⟨context, hsome⟩ := Option.isSome_iff_exists.1 hcontext
  have hexplicit := h.explicit a context hsome
  obtain ⟨set, names, hbefore, hset, helements⟩ :=
    exists_before_explicit guarded s.names hexplicit (harrows arrow harrow)
  refine ⟨{ s with names }.join p arrow.source set, ?_, ?_⟩
  · simp only [Analysis.propagate, htarget, hsome, hbefore]
    rfl
  · have hrenamed : Invariant p seeds family [arrow] { s with names } :=
      ⟨h.explicit, h.seeds, h.passed, h.within⟩
    have hjoined := joined_join p hrenamed.explicit arrow.source hset
    refine hrenamed.joined hp hjoined (fun l hl => ?_) fun other hother b hb => ?_
    · obtain ⟨m, hm, hl⟩ := (helements l).1 hl
      refine hclosed.arrow harrow htarget (hexplicit.isLocation hm) (h.within a m ?_) hl
      rwa [watched_eq hsome]
    · obtain rfl := List.mem_singleton.1 hother
      refine ⟨rfl, fun m hm l hl => (helements l).2 ⟨m, ?_, hl⟩⟩
      obtain rfl := Target.fixed.inj (htarget.symm.trans hb)
      rwa [← watched_eq hsome]

theorem Invariant.step (hready : s.IsReady p) (h : Invariant p seeds family [] s) :
    Invariant p seeds family [] (s.step p ⟨guarded, true⟩).1 := by
  unfold Analysis.step
  split
  next => exact ⟨h.explicit, h.seeds, h.passed, h.within⟩
  next arrow rest hpending =>
    obtain ⟨harrow, a, htarget, hcontext⟩ := hready arrow (by rw [hpending]; exact List.mem_cons_self)
    have htaken : Invariant p seeds family [arrow] { s with pending := rest, steps := s.steps + 1 } := by
      refine ⟨h.explicit, h.seeds, fun hother hb hwaits htook => ?_, h.within⟩
      exact h.passed hother hb (not_mem_pending_of_cons hpending hwaits htook) List.not_mem_nil
    obtain ⟨s', hpropagate, hs'⟩ := htaken.propagate hp harrows hclosed guarded harrow htarget hcontext
    dsimp only
    rw [hpropagate]
    exact ⟨hs'.explicit, hs'.seeds, hs'.passed, hs'.within⟩

theorem Invariant.run (hready : s.IsReady p) (h : Invariant p seeds family [] s) (limit : Nat) :
    Invariant p seeds family [] (s.run p ⟨guarded, true⟩ limit).1 := by
  refine (runFrom_induction (motive := fun t => t.IsReady p ∧ Invariant p seeds family [] t) limit
    (fun t ht => ?_) (fun _ ht => ?_) (fun _ _ ht => ?_) limit ⟨hready, h⟩).2
  · exact ⟨ht.1.step hp _, ht.2.step hp harrows hclosed guarded ht.1⟩
  · exact ⟨ht.1, ht.2.explicit, ht.2.seeds, ht.2.passed, ht.2.within⟩
  · exact ⟨ht.1, ht.2.explicit, ht.2.seeds, ht.2.passed, ht.2.within⟩

end

end

theorem Reaches.invariant {p : Program} {guarded : Bool} {seeds : List Seed} {s : Analysis}
    {family : Address → Term → Prop} (hs : Reaches p ⟨guarded, true⟩ seeds s) (hp : p.Built)
    (harrows : ∀ arrow ∈ p.arrows, arrow.statement.IsPlain) (hseeds : ∀ e ∈ seeds, e.location.IsLocation)
    (hclosed : p.Closed seeds family) : Invariant p seeds family [] s := by
  induction hs with
  | new names => exact invariant_empty p family names
  | seed _ e ih =>
      have hbefore := ih (fun d hd => hseeds d (by simp [hd]))
        ⟨fun d hd => hclosed.seed d (by simp [hd]), hclosed.arrow⟩
      exact hbefore.seed hp (hseeds e (by simp)) (hclosed.seed e (by simp))
  | step hs ih => exact (ih hseeds hclosed).step hp harrows hclosed guarded (hs.isReady hp)
  | run hs limit ih => exact (ih hseeds hclosed).run hp harrows hclosed guarded (hs.isReady hp) limit

/-- The contexts are closed when nothing waits. -/
theorem Invariant.closed {p : Program} {seeds : List Seed} {family : Address → Term → Prop} {s : Analysis}
    (h : Invariant p seeds family [] s) (hsettled : s.pending = []) :
    p.Closed seeds fun a l => l ∈ (s.watched a).possibleValues where
  seed := h.seeds
  arrow harrow htarget _ hm hl :=
    h.passed harrow htarget (by rw [hsettled]; exact List.not_mem_nil) List.not_mem_nil _ hm _ hl

end Analysis
end Backslice
