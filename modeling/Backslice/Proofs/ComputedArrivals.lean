import Backslice.Proofs.AbsorbedArrows
import Backslice.Proofs.SliceCompleteness
import Mathlib

/-!
# Arrows with a computed target

An arrow with a computed target arrives only at the addresses that have been
found out for it, even if its target is a constant. The analysis does not pass
such an arrow, but says so as soon as a point at which it arrives has a context.
So at rest an arrow with a fixed target is absorbed, and one with a constant for
its target is announced only if an address has been found out for it.
-/

namespace Backslice

namespace Analysis

theorem mem_warnings_enqueue {s : Analysis} {arrow : Arrow} {w : Warning} :
    w ∈ (s.enqueue arrow).warnings ↔
      w ∈ s.warnings ∨ (arrow.target.isComputed = true ∧ w = .computedPredecessor arrow) := by
  unfold enqueue
  split
  next h => simp [warn, h]
  next h => split <;> simp [h]

theorem computedPredecessor_mem_warnings_enqueueArriving {p : Program} {s : Analysis} {a : Address} {arrow : Arrow} :
    .computedPredecessor arrow ∈ (s.enqueueArriving p a).warnings ↔
      .computedPredecessor arrow ∈ s.warnings ∨ (arrow.target.isComputed = true ∧ arrow ∈ p.arriving a) := by
  have hfold : ∀ (arrows : List Arrow) (s : Analysis),
      .computedPredecessor arrow ∈ (arrows.foldl enqueue s).warnings ↔
        .computedPredecessor arrow ∈ s.warnings ∨ (arrow.target.isComputed = true ∧ arrow ∈ arrows) := by
    intro arrows
    induction arrows with
    | nil => simp
    | cons first arrows ih =>
        intro s
        rw [List.foldl_cons, ih, mem_warnings_enqueue, Warning.computedPredecessor.injEq, List.mem_cons, or_assoc,
          and_or_left]
        refine or_congr_right (or_congr_left (and_congr_left ?_))
        rintro rfl
        rfl
  exact hfold (p.arriving a) s

/-- Whether exactly those arrows with a computed target have been announced that arrive at a point with a context. -/
def Announces (p : Program) (s : Analysis) : Prop :=
  ∀ arrow, .computedPredecessor arrow ∈ s.warnings ↔
    arrow.target.isComputed = true ∧ ∃ a, arrow ∈ p.arriving a ∧ (s.context? a).isSome = true

section
variable {p : Program} {options : Options} {s : Analysis}

/-- A first context announces what arrives at its point, and a new one announces nothing else. -/
theorem Announces.enter (h : s.Announces p) (a : Address) (set : ConditionalSet) :
    ((s.setContext a set).enqueueArriving p a).Announces p := by
  intro arrow
  simp only [computedPredecessor_mem_warnings_enqueueArriving, context?_enqueueArriving, context?_setContext_isSome_iff]
  change .computedPredecessor arrow ∈ s.warnings ∨ _ ↔ _
  rw [h arrow]
  constructor
  · rintro (⟨hcomputed, b, harriving, hcontext⟩ | ⟨hcomputed, harriving⟩)
    · exact ⟨hcomputed, b, harriving, Or.inr hcontext⟩
    · exact ⟨hcomputed, a, harriving, Or.inl rfl⟩
  · rintro ⟨hcomputed, b, harriving, rfl | hcontext⟩
    · exact Or.inr ⟨hcomputed, harriving⟩
    · exact Or.inl ⟨hcomputed, b, harriving, hcontext⟩

theorem Announces.join (h : s.Announces p) (a : Address) (set : ConditionalSet) : (s.join p a set).Announces p := by
  unfold Analysis.join
  split
  next => exact h.enter a set
  next =>
    dsimp only
    split
    next => exact h
    next => exact h.enter a _

theorem Announces.step (h : s.Announces p) : (s.step p options).1.Announces p := by
  refine step_cases (fun _ => h) (fun _ => h) fun {arrow rest _ _ set names} _ _ _ _ => ?_
  have htaken : Announces p { s with pending := rest, steps := s.steps + 1, names } := h
  exact htaken.join arrow.source set

theorem Announces.run (h : s.Announces p) (limit : Nat) : (s.run p options limit).1.Announces p := by
  refine runFrom_induction limit (fun _ ht => ht.step) (fun _ ht => ht) (fun t n ht arrow => ?_) limit h
  have hwarnings : .computedPredecessor arrow ∈ (t.warn (.unsettled limit n)).warnings ↔
      .computedPredecessor arrow ∈ t.warnings := by simp [warn]
  exact hwarnings.trans (ht arrow)

theorem Reaches.announces {seeds : List Seed} (hs : Reaches p options seeds s) : s.Announces p := by
  induction hs with
  | new names => exact fun arrow => by simp [context?]
  | seed _ e ih => exact ih.enter e.point _
  | step _ ih => exact ih.step
  | run _ limit ih => exact ih.run limit

end

/-- When nothing waits, an arrow that is known to lead to a point with a context has been absorbed if its target is
fixed. If its target is computed, it has been announced if and only if it was found out to lead to some point, the same
or another one, that has a context. -/
theorem known_target_at_rest {p : Program} {options : Options} {seeds : List Seed} {s : Analysis} (hp : p.Built)
    (harrows : ∀ arrow ∈ p.arrows, arrow.IsPlain) (hseeds : ∀ e ∈ seeds, e.location.IsLocation)
    (hs : Reaches p options seeds s) (hsettled : s.pending = []) {arrow : Arrow} (harrow : arrow ∈ p.arrows)
    {a : Address} {t : ConditionalSet} (hknown : arrow.target.known? = some a) (hcontext : s.context? a = some t) :
    (arrow.target = .fixed a ∧ ∃ u, s.context? arrow.source = some u ∧
      ∀ names, ∃ set names', t.before options arrow names = .ok (set, names') ∧ u.union set = u) ∨
    (arrow.target.isComputed = true ∧ (.computedPredecessor arrow ∈ s.warnings ↔
      ∃ b, (arrow, b) ∈ p.solved ∧ (s.context? b).isSome = true)) := by
  cases htarget : arrow.target with
  | fixed b =>
      rw [htarget, Target.known?] at hknown
      obtain rfl := Option.some.inj hknown
      have hwaits : arrow ∉ s.pending := by
        rw [hsettled]
        exact List.not_mem_nil
      exact Or.inl ⟨rfl, hs.exists_union_eq hp harrows hseeds harrow htarget hcontext hwaits⟩
  | computed v =>
      have hcomputed : arrow.target.isComputed = true := by rw [htarget, Target.isComputed]
      refine Or.inr ⟨rfl, ?_⟩
      rw [hs.announces arrow, and_iff_right hcomputed]
      simp only [hp.mem_arriving_iff_solved hcomputed]

/-- A register is copied, on the way to a constant address. -/
def copyIndirectly : Arrow :=
  ⟨⟨0, 0⟩, none, .assign (.reg "a" 0 0) (.reg "b" 0 0), .computed (.const 1)⟩

/-- The register is cleared, on another way to the same address. -/
def clear : Arrow :=
  ⟨⟨2, 0⟩, none, .assign (.reg "a" 0 0) (.const 0), .fixed ⟨1, 0⟩⟩

def twoWays : Program :=
  (Program.addArrow {} copyIndirectly).addArrow clear

theorem built_twoWays : twoWays.Built :=
  (Program.Built.empty.addArrow copyIndirectly).addArrow clear

/-- The register, seen where both ways end. -/
def copied : Seed :=
  ⟨⟨1, 0⟩, .reg "a" 0 0⟩

/-- The analysis of the two ways, after a run. -/
def ranTwoWays : Analysis :=
  ((Analysis.seed twoWays {} copied).run twoWays {} 10).1

theorem reaches_ranTwoWays : Reaches twoWays {} [copied] ranTwoWays :=
  .run (.seed (.new ⟨0⟩) copied) 10

theorem known_target_at_rest_clear :
    twoWays.Built ∧ (∀ arrow ∈ twoWays.arrows, arrow.IsPlain) ∧ (∀ e ∈ [copied], e.location.IsLocation) ∧
      Reaches twoWays {} [copied] ranTwoWays ∧ ranTwoWays.pending = [] ∧ clear ∈ twoWays.arrows ∧
      clear.target.known? = some ⟨1, 0⟩ ∧ ranTwoWays.context? ⟨1, 0⟩ = some (ConditionalSet.member (.reg "a" 0 0)) ∧
      ∃ u, ranTwoWays.context? clear.source = some u := by
  have harrows : ∀ arrow ∈ twoWays.arrows, arrow.IsPlain := by
    change ∀ arrow ∈ [copyIndirectly, clear], arrow.IsPlain
    simp only [List.forall_mem_cons]
    exact ⟨⟨⟨⟨rfl, by decide⟩, by decide⟩, nofun⟩, ⟨⟨⟨rfl, by decide⟩, by decide⟩, nofun⟩, nofun⟩
  have hseeds : ∀ e ∈ [copied], e.location.IsLocation := by
    intro e he
    rw [List.mem_singleton.1 he]
    exact ⟨rfl, by decide⟩
  have hpending : ranTwoWays.pending = [] := by cbv
  have hclear : clear ∈ twoWays.arrows := List.mem_cons_of_mem _ List.mem_cons_self
  have hcontext : ranTwoWays.context? ⟨1, 0⟩ = some (ConditionalSet.member (.reg "a" 0 0)) := by cbv
  refine ⟨built_twoWays, harrows, hseeds, reaches_ranTwoWays, hpending, hclear, rfl, hcontext, ?_⟩
  rcases known_target_at_rest built_twoWays harrows hseeds reaches_ranTwoWays hpending hclear rfl hcontext with
    ⟨-, u, hu, -⟩ | ⟨hcomputed, -⟩
  · exact ⟨u, hu⟩
  · cases hcomputed

/-- The copy leads to the point where the register is seen. Yet the analysis is at rest without a warning, and has no
context in front of the copy. -/
theorem copy_passed_over :
    twoWays.Built ∧ Reaches twoWays {} [copied] ranTwoWays ∧ ranTwoWays.pending = [] ∧ copyIndirectly ∈ twoWays.arrows ∧
      copyIndirectly.target.known? = some ⟨1, 0⟩ ∧ (ranTwoWays.context? ⟨1, 0⟩).isSome = true ∧
      ranTwoWays.warnings = [] ∧ ranTwoWays.context? copyIndirectly.source = none :=
  ⟨built_twoWays, reaches_ranTwoWays, by cbv, List.mem_cons_self, rfl, by cbv, by cbv, by cbv⟩

end Analysis
end Backslice
