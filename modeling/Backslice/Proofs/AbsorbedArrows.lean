import Backslice.Proofs.Contexts
import Backslice.Proofs.FlatRun
import Mathlib

/-!
# The invariant of the queue under conditions

Under all settings the contexts of an analysis are sums that only gain operands,
and an arrow waits from the moment the context behind it gains one. So the
context in front of an arrow that does not wait has absorbed what the arrow
makes of the context behind it. What may be watched never exceeds a closed
family of sets of locations, whatever the conditions.
-/

namespace Backslice

open ConditionalSet

/-- Whether a set has all operands of what an arrow makes of another one, with any placeholders. -/
def ConditionalSet.Absorbs (u : ConditionalSet) (options : Options) (arrow : Arrow) (t : ConditionalSet) : Prop :=
  ∀ names, ∃ set names', t.before options arrow names = .ok (set, names') ∧ ∀ y ∈ set.disjuncts, y ∈ u.disjuncts

theorem Program.closed_true (p : Program) (seeds : List Seed) : p.Closed seeds fun _ _ => True where
  seed _ _ := trivial
  arrow _ _ _ _ _ := trivial

namespace Analysis

/-- What it is to join a set into the context of a point where the members of a family may be watched. -/
structure Merged (p : Program) (members : Term → Prop) (s : Analysis) (a : Address) (set : ConditionalSet)
    (s' : Analysis) : Prop where
  other {b : Address} : b ≠ a → s'.context? b = s.context? b
  context : ∃ t, s'.context? a = some t ∧ t.IsContext members ∧
    ∀ y, y ∈ t.disjuncts ↔ y ∈ (s.watched a).disjuncts ∨ y ∈ set.disjuncts
  waits {arrow : Arrow} : arrow ∈ s.pending → arrow ∈ s'.pending
  awake : s'.context? a = s.context? a ∨
    ∀ arrow ∈ p.arriving a, arrow.target.isComputed = false → arrow ∈ s'.pending

section
variable {p : Program} {family : Address → Term → Prop} {s s' : Analysis} {a : Address} {set t : ConditionalSet}

/-- Whether all contexts are sums of conditional sets of members of a family. -/
def HasContexts (family : Address → Term → Prop) (s : Analysis) : Prop :=
  ∀ a t, s.context? a = some t → t.IsContext (family a)

theorem HasContexts.watched (h : s.HasContexts family) (a : Address) : (s.watched a).IsContext (family a) := by
  unfold Analysis.watched
  cases hc : s.context? a with
  | none => exact isContext_false
  | some t => exact h a t hc

theorem merged_setContext (p : Program) (ht : t.IsContext (family a))
    (hoperands : ∀ y, y ∈ t.disjuncts ↔ y ∈ (s.watched a).disjuncts ∨ y ∈ set.disjuncts) :
    Merged p (family a) s a set ((s.setContext a t).enqueueArriving p a) where
  other hb := by rw [context?_enqueueArriving, context?_setContext_of_ne s t hb]
  context := ⟨t, by rw [context?_enqueueArriving, context?_setContext_self], ht, hoperands⟩
  waits h := mem_pending_enqueueArriving.2 (Or.inl h)
  awake := Or.inr fun _ h hfixed => mem_pending_enqueueArriving.2 (Or.inr ⟨h, hfixed⟩)

theorem merged_join (p : Program) (hs : s.HasContexts family) (hset : set.IsContext (family a)) :
    Merged p (family a) s a set (s.join p a set) := by
  unfold join
  split
  next hnone =>
    refine merged_setContext p hset fun y => ?_
    simp [Analysis.watched, hnone, empty, Term.disjuncts, Term.asFormula]
  next context hsome =>
    have hcontext := hs a context hsome
    have hunion : ∀ y, y ∈ (context.union set).disjuncts ↔ y ∈ (s.watched a).disjuncts ∨ y ∈ set.disjuncts := fun y => by
      rw [watched_eq hsome, hcontext.mem_disjuncts_union hset]
    dsimp only
    split
    next hsame =>
      rw [hsame] at hunion
      exact ⟨fun _ => rfl, ⟨context, hsome, hcontext, hunion⟩, id, Or.inl rfl⟩
    next =>
      rw [Term.share_eq]
      exact merged_setContext p (hcontext.union hset) hunion

theorem merged_seed (p : Program) (hs : s.HasContexts family) {e : Seed} (he : e.location.IsLocation)
    (hfamily : family e.point e.location) : Merged p (family e.point) s e.point (member e.location) (s.seed p e) :=
  have hmember := isContext_member he hfamily
  merged_setContext p ((hs.watched e.point).union hmember) fun _ => (hs.watched e.point).mem_disjuncts_union hmember

theorem Merged.hasContexts (h : Merged p (family a) s a set s') (hs : s.HasContexts family) : s'.HasContexts family := by
  intro b t ht
  by_cases hb : b = a
  · obtain ⟨u, hsome, hu, -⟩ := h.context
    rw [hb, hsome] at ht
    exact hb ▸ Option.some.inj ht ▸ hu
  · exact hs b t (h.other hb ▸ ht)

theorem Merged.grows {members : Term → Prop} (h : Merged p members s a set s') {b : Address} {u : ConditionalSet}
    (hu : s.context? b = some u) : ∃ u', s'.context? b = some u' ∧ ∀ y ∈ u.disjuncts, y ∈ u'.disjuncts := by
  by_cases hb : b = a
  · obtain ⟨t, hsome, -, hoperands⟩ := h.context
    subst hb
    exact ⟨t, hsome, fun y hy => (hoperands y).2 (Or.inl (by rwa [watched_eq hu]))⟩
  · exact ⟨u, (h.other hb).trans hu, fun _ hy => hy⟩

theorem Merged.context?_of_not_pending {members : Term → Prop} (h : Merged p members s a set s') (hp : p.Built)
    {arrow : Arrow} {b : Address} (harrow : arrow ∈ p.arrows) (htarget : arrow.target = .fixed b)
    (hwaits : arrow ∉ s'.pending) : s'.context? b = s.context? b := by
  by_cases hb : b = a
  · rcases h.awake with hsame | hawake
    · rw [hb, hsame]
    · have harriving : arrow ∈ p.arriving a := (hp.mem_arriving_iff htarget).2 ⟨harrow, hb⟩
      exact absurd (hawake arrow harriving (by rw [htarget, Target.isComputed])) hwaits
  · exact h.other hb

end

/-- What contexts and queue satisfy under all settings, within a closed family. Arrows are `taken` that have left
the queue and have not been passed yet. -/
structure Absorbing (p : Program) (options : Options) (family : Address → Term → Prop) (taken : List Arrow)
    (s : Analysis) : Prop where
  contexts : s.HasContexts family
  absorbed {arrow : Arrow} {a : Address} {t : ConditionalSet} : arrow ∈ p.arrows → arrow.target = .fixed a →
    s.context? a = some t → arrow ∉ s.pending → arrow ∉ taken →
      ∃ u, s.context? arrow.source = some u ∧ u.Absorbs options arrow t

section
variable {p : Program} {options : Options} {seeds : List Seed} {family : Address → Term → Prop} {s s' : Analysis}

theorem absorbing_empty (p : Program) (options : Options) (family : Address → Term → Prop) (names : Fresh) :
    Absorbing p options family [] { names } :=
  ⟨nofun, nofun⟩

/-- Joining a set keeps the invariant, and a taken arrow counts as passed once its set is joined. -/
theorem Absorbing.merged {taken : List Arrow} {a : Address} {set : ConditionalSet} (hp : p.Built)
    (h : Absorbing p options family taken s) (hmerged : Merged p (family a) s a set s')
    (htaken : ∀ arrow ∈ taken, ∀ b t, arrow.target = .fixed b → s.context? b = some t →
      arrow.source = a ∧ set.Absorbs options arrow t) : Absorbing p options family [] s' where
  contexts := hmerged.hasContexts h.contexts
  absorbed := by
    -- The context behind an arrow that does not wait has not changed, and the one in front has lost nothing.
    intro arrow b t harrow htarget hcontext hwaits _
    rw [hmerged.context?_of_not_pending hp harrow htarget hwaits] at hcontext
    by_cases htook : arrow ∈ taken
    · obtain ⟨hsource, habsorbs⟩ := htaken arrow htook b t htarget hcontext
      obtain ⟨u, hsome, -, hoperands⟩ := hmerged.context
      refine ⟨u, hsource ▸ hsome, fun names => ?_⟩
      obtain ⟨set', names', hbefore, hsub⟩ := habsorbs names
      exact ⟨set', names', hbefore, fun y hy => (hoperands y).2 (Or.inr (hsub y hy))⟩
    · obtain ⟨u, hu, habsorbs⟩ :=
        h.absorbed harrow htarget hcontext (fun hw => hwaits (hmerged.waits hw)) htook
      obtain ⟨u', hu', hgrows⟩ := hmerged.grows hu
      refine ⟨u', hu', fun names => ?_⟩
      obtain ⟨set', names', hbefore, hsub⟩ := habsorbs names
      exact ⟨set', names', hbefore, fun y hy => hgrows y (hsub y hy)⟩

theorem Absorbing.seed (hp : p.Built) {e : Seed} (he : e.location.IsLocation) (hfamily : family e.point e.location)
    (h : Absorbing p options family [] s) : Absorbing p options family [] (s.seed p e) :=
  h.merged hp (merged_seed p h.contexts he hfamily) nofun

section
variable (hp : p.Built) (harrows : ∀ arrow ∈ p.arrows, arrow.IsPlain) (hclosed : p.Closed seeds family)
include hp harrows hclosed

/-- Passing a taken arrow does not fail, and restores the invariant. -/
theorem Absorbing.propagate {arrow : Arrow} {a : Address} (h : Absorbing p options family [arrow] s)
    (harrow : arrow ∈ p.arrows) (htarget : arrow.target = .fixed a) (hcontext : (s.context? a).isSome = true) :
    ∃ s', s.propagate p options arrow = .ok s' ∧ Absorbing p options family [] s' := by
  obtain ⟨context, hsome⟩ := Option.isSome_iff_exists.1 hcontext
  have hbehind : context.IsContext fun m => m.IsLocation ∧ family a m :=
    (h.contexts a context hsome).imp_family fun m hm hfamily => ⟨hm, hfamily⟩
  obtain ⟨set, hbefore, hset⟩ := hbehind.exists_before options (harrows arrow harrow)
  obtain ⟨names, hnames⟩ := hbefore s.names
  have hfront : set.IsContext (family arrow.source) := hset.imp_family fun l _ hl => by
    obtain ⟨m, ⟨hm, hfamily⟩, hl⟩ := hl
    exact hclosed.arrow harrow htarget hm hfamily hl
  refine ⟨{ s with names }.join p arrow.source set, ?_, ?_⟩
  · simp only [Analysis.propagate, htarget, hsome, hnames]
    rfl
  · have hrenamed : Absorbing p options family [arrow] { s with names } := ⟨h.contexts, h.absorbed⟩
    refine hrenamed.merged hp (merged_join p hrenamed.contexts hfront) fun other hother b t hb ht => ?_
    obtain rfl := List.mem_singleton.1 hother
    obtain rfl := Target.fixed.inj (htarget.symm.trans hb)
    obtain rfl := Option.some.inj (hsome.symm.trans ht)
    refine ⟨rfl, fun names => ?_⟩
    obtain ⟨names', hnames⟩ := hbefore names
    exact ⟨set, names', hnames, fun _ hy => hy⟩

theorem Absorbing.step (hready : s.IsReady p) (h : Absorbing p options family [] s) :
    Absorbing p options family [] (s.step p options).1 := by
  unfold Analysis.step
  split
  next => exact ⟨h.contexts, h.absorbed⟩
  next arrow rest hpending =>
    obtain ⟨harrow, a, htarget, hcontext⟩ := hready arrow (by rw [hpending]; exact List.mem_cons_self)
    have htaken : Absorbing p options family [arrow] { s with pending := rest, steps := s.steps + 1 } := by
      refine ⟨h.contexts, fun hother hb hcontext hwaits htook => ?_⟩
      exact h.absorbed hother hb hcontext (not_mem_pending_of_cons hpending hwaits htook) List.not_mem_nil
    obtain ⟨s', hpropagate, hs'⟩ := htaken.propagate hp harrows hclosed harrow htarget hcontext
    dsimp only
    rw [hpropagate]
    exact ⟨hs'.contexts, hs'.absorbed⟩

theorem Absorbing.run (hready : s.IsReady p) (h : Absorbing p options family [] s) (limit : Nat) :
    Absorbing p options family [] (s.run p options limit).1 := by
  refine (runFrom_induction (motive := fun t => t.IsReady p ∧ Absorbing p options family [] t) limit
    (fun t ht => ?_) (fun _ ht => ?_) (fun _ _ ht => ?_) limit ⟨hready, h⟩).2
  · exact ⟨ht.1.step hp options, ht.2.step hp harrows hclosed ht.1⟩
  · exact ⟨ht.1, ht.2.contexts, ht.2.absorbed⟩
  · exact ⟨ht.1, ht.2.contexts, ht.2.absorbed⟩

end

theorem Reaches.absorbing (hs : Reaches p options seeds s) (hp : p.Built) (harrows : ∀ arrow ∈ p.arrows, arrow.IsPlain)
    (hseeds : ∀ e ∈ seeds, e.location.IsLocation) (hclosed : p.Closed seeds family) :
    Absorbing p options family [] s := by
  induction hs with
  | new names => exact absorbing_empty p options family names
  | seed _ e ih =>
      have hbefore := ih (fun d hd => hseeds d (by simp [hd]))
        ⟨fun d hd => hclosed.seed d (by simp [hd]), hclosed.arrow⟩
      exact hbefore.seed hp (hseeds e (by simp)) (hclosed.seed e (by simp))
  | step hs ih => exact (ih hseeds hclosed).step hp harrows hclosed (hs.isReady hp)
  | run hs limit ih => exact (ih hseeds hclosed).run hp harrows hclosed (hs.isReady hp) limit

end

theorem Reaches.exists_union_eq {p : Program} {options : Options} {seeds : List Seed} {s : Analysis}
    (hs : Reaches p options seeds s) (hp : p.Built) (harrows : ∀ arrow ∈ p.arrows, arrow.IsPlain)
    (hseeds : ∀ e ∈ seeds, e.location.IsLocation) {arrow : Arrow} (harrow : arrow ∈ p.arrows) {a : Address}
    {t : ConditionalSet} (htarget : arrow.target = .fixed a) (hcontext : s.context? a = some t)
    (hwaits : arrow ∉ s.pending) :
    ∃ u, s.context? arrow.source = some u ∧
      ∀ names, ∃ set names', t.before options arrow names = .ok (set, names') ∧ u.union set = u := by
  have hinvariant := hs.absorbing hp harrows hseeds (p.closed_true seeds)
  obtain ⟨u, hu, habsorbs⟩ := hinvariant.absorbed harrow htarget hcontext hwaits List.not_mem_nil
  refine ⟨u, hu, fun names => ?_⟩
  obtain ⟨set, names', hbefore, hsub⟩ := habsorbs names
  have hset : set.IsContext fun _ => True :=
    ((hinvariant.contexts a t hcontext).before (harrows arrow harrow) hbefore).imp_family fun _ _ _ => trivial
  exact ⟨set, names', hbefore, ((hinvariant.contexts arrow.source u hu).union_eq_left_iff hset).2 hsub⟩

/-- In every state that an analysis reaches, under all settings, an arrow that does not wait has been absorbed: what it
makes of the context behind it, with any placeholders, leaves the context in front of it as it is. -/
theorem union_before_of_not_pending {p : Program} {options : Options} {seeds : List Seed} {s : Analysis}
    (hp : p.Built) (harrows : ∀ arrow ∈ p.arrows, arrow.IsPlain) (hseeds : ∀ e ∈ seeds, e.location.IsLocation)
    (hs : Reaches p options seeds s) :
    (∀ arrow ∈ p.arrows, ∀ a t, arrow.target = .fixed a → s.context? a = some t → arrow ∉ s.pending →
      ∃ u, s.context? arrow.source = some u ∧
        ∀ names, ∃ set names', t.before options arrow names = .ok (set, names') ∧ u.union set = u) ∧
      (s.pending = [] → ∀ arrow ∈ p.arrows, ∀ a t, arrow.target = .fixed a → s.context? a = some t →
        ∃ u, s.context? arrow.source = some u ∧
          ∀ names, ∃ set names', t.before options arrow names = .ok (set, names') ∧ u.union set = u) := by
  refine ⟨fun arrow harrow a t htarget hcontext hwaits =>
    hs.exists_union_eq hp harrows hseeds harrow htarget hcontext hwaits,
    fun hsettled arrow harrow a t htarget hcontext => ?_⟩
  have hwaits : arrow ∉ s.pending := by
    rw [hsettled]
    exact List.not_mem_nil
  exact hs.exists_union_eq hp harrows hseeds harrow htarget hcontext hwaits

/-- A register is stored, on the way from the first point to the second. -/
def store : Arrow :=
  ⟨⟨0, 0⟩, none, .assign (.mem (.reg "r2" 0 0)) (.reg "r1" 0 0), .fixed ⟨1, 0⟩⟩

/-- The way back, while the register is zero. -/
def retry : Arrow :=
  ⟨⟨1, 0⟩, some (.eq (.reg "r1" 0 0) (.const 0)), .skip, .fixed ⟨0, 0⟩⟩

/-- A memory cell, seen at the second point. -/
def loadedCell : Seed :=
  ⟨⟨1, 0⟩, .mem (.reg "r3" 0 0)⟩

def storingLoop : Program :=
  (Program.addArrow {} store).addArrow retry

theorem built_storingLoop : storingLoop.Built :=
  (Program.Built.empty.addArrow store).addArrow retry

theorem isPlain_storingLoop : ∀ arrow ∈ storingLoop.arrows, arrow.IsPlain := by
  change ∀ arrow ∈ [store, retry], arrow.IsPlain
  simp only [List.forall_mem_cons]
  refine ⟨⟨⟨⟨rfl, by decide⟩, by decide⟩, nofun⟩, ⟨trivial, fun g hg => ?_⟩, nofun⟩
  rw [← Option.some.inj hg]
  decide

theorem isLocation_loadedCell : ∀ e ∈ [loadedCell], e.location.IsLocation := by
  intro e he
  rw [List.mem_singleton.1 he]
  exact ⟨rfl, by decide⟩

/-- The analysis of the loop under its guard, after one step. -/
def passedStore : Analysis :=
  ((Analysis.seed storingLoop {} loadedCell).step storingLoop ⟨true, false⟩).1

theorem union_before_of_not_pending_store :
    storingLoop.Built ∧ (∀ arrow ∈ storingLoop.arrows, arrow.IsPlain) ∧ (∀ e ∈ [loadedCell], e.location.IsLocation) ∧
      Reaches storingLoop ⟨true, false⟩ [loadedCell] passedStore ∧ store ∉ passedStore.pending ∧
      passedStore.context? ⟨1, 0⟩ = some (member (.mem (.reg "r3" 0 0))) ∧
      ∃ u, passedStore.context? store.source = some u ∧ ∀ names, ∃ set names',
        (member (.mem (.reg "r3" 0 0))).before ⟨true, false⟩ store names = .ok (set, names') ∧ u.union set = u := by
  have hs : Reaches storingLoop ⟨true, false⟩ [loadedCell] passedStore := .step (.seed (.new ⟨0⟩) loadedCell)
  have hwaits : store ∉ passedStore.pending := by
    have hpending : passedStore.pending = [retry] := by cbv
    rw [hpending]
    decide
  have hcontext : passedStore.context? ⟨1, 0⟩ = some (member (.mem (.reg "r3" 0 0))) := by cbv
  have hstore : store ∈ storingLoop.arrows := List.mem_cons_self
  have habsorbed := (union_before_of_not_pending built_storingLoop isPlain_storingLoop isLocation_loadedCell hs).1
  exact ⟨built_storingLoop, isPlain_storingLoop, isLocation_loadedCell, hs, hwaits, hcontext,
    habsorbed store hstore _ _ rfl hcontext hwaits⟩

end Analysis
end Backslice
