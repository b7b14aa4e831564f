import Backslice.Program
import Mathlib.Data.List.Nodup
import Mathlib.Tactic.Common

/-!
# How programs are put together

A program grows from the empty one: points and arrows are added, the entry point
is set, addresses are found out for computed targets, and the links are made
anew. Whatever the order, an arrow with a fixed target arrives at this target
and nowhere else, one with a computed target at the addresses found out for it,
and nothing arrives that is not an arrow of the program. No point and no arrow
is listed twice.
-/

namespace Backslice

/-- Programs as the operations on programs make them. -/
inductive Program.Built : Program → Prop
  | empty : Built {}
  | addPoint {p : Program} (h : Built p) (a : Address) : Built (p.addPoint a)
  | setEntry {p : Program} (h : Built p) (a : Address) : Built (p.setEntry a)
  | addArrow {p : Program} (h : Built p) (arrow : Arrow) : Built (p.addArrow arrow)
  | solve {p q : Program} (h : Built p) {arrow : Arrow} {a : Address} {new : Bool} (harrow : arrow ∈ p.arrows)
      (hsolve : p.solve? arrow a = .ok (new, q)) : Built q
  | relink {p : Program} (h : Built p) : Built p.relink

/-- The links of a program are those of its arrows, and arrows with a fixed target have one. -/
structure Program.IsLinked (p : Program) : Prop where
  source {arrow : Arrow} : arrow ∈ p.arrows → arrow.source ∈ p.points
  fixed {arrow : Arrow} {a : Address} : arrow ∈ p.arrows → arrow.target = .fixed a → (a, arrow) ∈ p.links
  arrow {arrow : Arrow} {a : Address} : (a, arrow) ∈ p.links → arrow ∈ p.arrows
  target {arrow : Arrow} {a b : Address} : (a, arrow) ∈ p.links → arrow.target = .fixed b → b = a

namespace Program

theorem mem_arriving {p : Program} {a : Address} {arrow : Arrow} : arrow ∈ p.arriving a ↔ (a, arrow) ∈ p.links := by
  simp only [arriving, List.mem_map, List.mem_filter, decide_eq_true_eq]
  constructor
  · rintro ⟨⟨b, x⟩, ⟨h, rfl⟩, rfl⟩
    exact h
  · intro h
    exact ⟨(a, arrow), ⟨h, rfl⟩, rfl⟩

@[simp]
theorem solved_addPoint (p : Program) (a : Address) : (p.addPoint a).solved = p.solved := by
  unfold addPoint
  split <;> rfl

@[simp]
theorem arrows_link (p : Program) (a : Address) (arrow : Arrow) : (p.link a arrow).arrows = p.arrows := by
  unfold link
  split <;> simp

@[simp]
theorem mem_points_link {p : Program} {a b : Address} {arrow : Arrow} :
    b ∈ (p.link a arrow).points ↔ b ∈ p.points ∨ b = a := by
  unfold link
  split <;> simp

@[simp]
theorem solved_link (p : Program) (a : Address) (arrow : Arrow) : (p.link a arrow).solved = p.solved := by
  unfold link
  split <;> simp

theorem foldl_link (entries : List (Address × Arrow)) (p : Program) :
    (entries.foldl (fun q entry => q.link entry.1 entry.2) p).arrows = p.arrows ∧
      (entries.foldl (fun q entry => q.link entry.1 entry.2) p).solved = p.solved ∧
      (∀ b ∈ p.points, b ∈ (entries.foldl (fun q entry => q.link entry.1 entry.2) p).points) ∧
        ∀ entry, entry ∈ (entries.foldl (fun q entry => q.link entry.1 entry.2) p).links ↔
          entry ∈ p.links ∨ entry ∈ entries := by
  induction entries generalizing p with
  | nil => simp
  | cons first entries ih =>
      obtain ⟨harrows, hsolved, hpoints, hlinks⟩ := ih (p.link first.1 first.2)
      refine ⟨by simpa using harrows, by simpa using hsolved,
        fun b hb => hpoints b (mem_points_link.2 (Or.inl hb)), fun entry => ?_⟩
      rw [List.foldl_cons, hlinks, mem_links_link, List.mem_cons, or_assoc]

@[simp]
theorem solved_relink (p : Program) : p.relink.solved = p.solved :=
  (foldl_link _ _).2.1

theorem mem_links_relink {p : Program} {a : Address} {arrow : Arrow} :
    (a, arrow) ∈ p.relink.links ↔ (arrow.source ∈ p.points ∧ arrow ∈ p.arrows) ∧ a ∈ p.destinations arrow := by
  rw [relink, (foldl_link _ _).2.2.2]
  simp [orderedArrows, leaving]

theorem IsLinked.addPoint {p : Program} (h : p.IsLinked) (a : Address) : (p.addPoint a).IsLinked where
  source harrow := mem_points_addPoint.2 (Or.inl (h.source (by simpa using harrow)))
  fixed harrow htarget := by
    rw [links_addPoint]
    exact h.fixed (by simpa using harrow) htarget
  arrow hlink := by
    rw [arrows_addPoint]
    exact h.arrow (by simpa using hlink)
  target hlink htarget := h.target (by simpa using hlink) htarget

/-- An arrow of the program may arrive where its target does not say otherwise. -/
theorem IsLinked.link {p : Program} (h : p.IsLinked) {arrow : Arrow} {a : Address} (harrow : arrow ∈ p.arrows)
    (htarget : ∀ b, arrow.target = .fixed b → b = a) : (p.link a arrow).IsLinked where
  source hother := mem_points_link.2 (Or.inl (h.source (by simpa using hother)))
  fixed hother hfixed := mem_links_link.2 (Or.inl (h.fixed (by simpa using hother) hfixed))
  arrow hlink := by
    rw [arrows_link]
    rcases mem_links_link.1 hlink with hlink | heq
    · exact h.arrow hlink
    · obtain ⟨rfl, rfl⟩ := Prod.mk.inj heq
      exact harrow
  target hlink hfixed := by
    rcases mem_links_link.1 hlink with hlink | heq
    · exact h.target hlink hfixed
    · obtain ⟨rfl, rfl⟩ := Prod.mk.inj heq
      exact htarget _ hfixed

theorem IsLinked.addArrow {p : Program} (h : p.IsLinked) (arrow : Arrow) : (p.addArrow arrow).IsLinked := by
  have hp := h.addPoint arrow.source
  have hsource : arrow.source ∈ (p.addPoint arrow.source).points := mem_points_addPoint.2 (Or.inr rfl)
  unfold Program.addArrow
  dsimp only
  split
  next => exact hp
  next =>
    split
    next a htarget =>
      refine ⟨fun hother => ?_, fun hother hfixed => ?_, fun hlink => ?_, fun hlink hfixed => ?_⟩
      · rw [arrows_link, List.mem_append, List.mem_singleton] at hother
        refine mem_points_link.2 (Or.inl ?_)
        rcases hother with hother | rfl
        · exact hp.source hother
        · exact hsource
      · rw [arrows_link, List.mem_append, List.mem_singleton] at hother
        refine mem_links_link.2 ?_
        rcases hother with hother | rfl
        · exact Or.inl (hp.fixed hother hfixed)
        · obtain rfl := Target.fixed.inj (htarget.symm.trans hfixed)
          exact Or.inr rfl
      · rw [arrows_link, List.mem_append, List.mem_singleton]
        rcases mem_links_link.1 hlink with hlink | heq
        · exact Or.inl (hp.arrow hlink)
        · exact Or.inr (Prod.mk.inj heq).2
      · rcases mem_links_link.1 hlink with hlink | heq
        · exact hp.target hlink hfixed
        · obtain ⟨rfl, rfl⟩ := Prod.mk.inj heq
          exact (Target.fixed.inj (htarget.symm.trans hfixed)).symm
    next t htarget =>
      refine ⟨fun hother => ?_, fun hother hfixed => ?_, fun hlink => ?_, hp.target⟩
      · rcases List.mem_append.1 hother with hother | hother
        · exact hp.source hother
        · rw [List.mem_singleton.1 hother]
          exact hsource
      · rcases List.mem_append.1 hother with hother | hother
        · exact hp.fixed hother hfixed
        · rw [List.mem_singleton.1 hother, htarget] at hfixed
          exact nomatch hfixed
      · exact List.mem_append_left _ (hp.arrow hlink)

theorem IsLinked.solve {p q : Program} (h : p.IsLinked) {arrow : Arrow} {a : Address} {new : Bool}
    (harrow : arrow ∈ p.arrows) (hsolve : p.solve? arrow a = .ok (new, q)) : q.IsLinked := by
  unfold solve? at hsolve
  split at hsolve
  next => exact nomatch hsolve
  next hcomputed =>
    split at hsolve
    next =>
      cases hsolve
      exact h
    next =>
      cases hsolve
      have hnoted : ({ p with solved := p.solved ++ [(arrow, a)] } : Program).IsLinked :=
        ⟨h.source, h.fixed, h.arrow, h.target⟩
      refine hnoted.link harrow fun b htarget => ?_
      rw [htarget] at hcomputed
      exact absurd rfl hcomputed

theorem IsLinked.relink {p : Program} (h : p.IsLinked) : p.relink.IsLinked := by
  obtain ⟨harrows, -, hpoints, -⟩ := foldl_link
    (p.orderedArrows.flatMap fun arrow => (p.destinations arrow).map (·, arrow)) { p with links := [] }
  have harrow : ∀ arrow, arrow ∈ p.relink.arrows ↔ arrow ∈ p.arrows := fun arrow => by rw [Program.relink, harrows]
  refine ⟨fun hother => ?_, fun hother hfixed => ?_, fun hlink => ?_, fun hlink hfixed => ?_⟩
  · exact hpoints _ (h.source ((harrow _).1 hother))
  · have hp := (harrow _).1 hother
    exact mem_links_relink.2 ⟨⟨h.source hp, hp⟩, by simp [destinations, hfixed]⟩
  · exact (harrow _).2 (mem_links_relink.1 hlink).1.2
  · have hdestination := (mem_links_relink.1 hlink).2
    simp only [destinations, hfixed, List.mem_singleton] at hdestination
    exact hdestination.symm

theorem Built.isLinked {p : Program} (h : p.Built) : p.IsLinked := by
  induction h with
  | empty => exact ⟨nofun, nofun, nofun, nofun⟩
  | addPoint _ a ih => exact ih.addPoint a
  | setEntry _ a ih =>
      have hp := ih.addPoint a
      exact ⟨hp.source, hp.fixed, hp.arrow, hp.target⟩
  | addArrow _ arrow ih => exact ih.addArrow arrow
  | solve _ harrow hsolve ih => exact ih.solve harrow hsolve
  | relink _ ih => exact ih.relink

/-- An arrow with a fixed target arrives at this target and nowhere else. -/
theorem Built.mem_arriving_iff {p : Program} (h : p.Built) {arrow : Arrow} {a b : Address}
    (htarget : arrow.target = .fixed b) : arrow ∈ p.arriving a ↔ arrow ∈ p.arrows ∧ b = a := by
  rw [mem_arriving]
  constructor
  · intro hlink
    exact ⟨h.isLinked.arrow hlink, h.isLinked.target hlink htarget⟩
  · rintro ⟨harrow, rfl⟩
    exact h.isLinked.fixed harrow htarget

theorem mem_destinations_of_computed {p : Program} {arrow : Arrow} (h : arrow.target.isComputed = true) {a : Address} :
    a ∈ p.destinations arrow ↔ (arrow, a) ∈ p.solved := by
  cases htarget : arrow.target with
  | fixed b =>
      rw [htarget] at h
      cases h
  | computed t =>
      simp only [destinations, htarget, solvedTargets, List.mem_mergeSort, List.mem_map, List.mem_filter,
        decide_eq_true_eq]
      constructor
      · rintro ⟨⟨other, b⟩, ⟨hsolved, rfl⟩, rfl⟩
        exact hsolved
      · exact fun hsolved => ⟨(arrow, a), ⟨hsolved, rfl⟩, rfl⟩

@[simp]
theorem solved_addArrow (p : Program) (arrow : Arrow) : (p.addArrow arrow).solved = p.solved := by
  unfold addArrow
  dsimp only
  split
  · rw [solved_addPoint]
  · split <;> simp

theorem mem_links_addArrow_of_computed {p : Program} {arrow : Arrow} (h : arrow.target.isComputed = true) {a : Address}
    (new : Arrow) : (a, arrow) ∈ (p.addArrow new).links ↔ (a, arrow) ∈ p.links := by
  unfold addArrow
  dsimp only
  split
  next => rw [links_addPoint]
  next =>
    split
    next b htarget =>
      rw [mem_links_link, links_addPoint]
      refine or_iff_left fun heq => ?_
      rw [(Prod.mk.inj heq).2, htarget] at h
      cases h
    next => rw [links_addPoint]

theorem mem_links_solve {p q : Program} {new : Bool} {other : Arrow} {b : Address}
    (hsolve : p.solve? other b = .ok (new, q)) {arrow : Arrow} {a : Address}
    (ih : (a, arrow) ∈ p.links ↔ (arrow, a) ∈ p.solved) : (a, arrow) ∈ q.links ↔ (arrow, a) ∈ q.solved := by
  unfold solve? at hsolve
  split at hsolve
  next => cases hsolve
  next =>
    split at hsolve
    next =>
      cases hsolve
      exact ih
    next =>
      cases hsolve
      rw [mem_links_link, solved_link, List.mem_append, List.mem_singleton]
      exact or_congr ih (by rw [Prod.mk.injEq, Prod.mk.injEq, and_comm])

/-- However a program has been put together, an arrow with a computed target arrives where it is known to lead. -/
theorem Built.mem_arriving_iff_solved {p : Program} (h : p.Built) {arrow : Arrow}
    (harrow : arrow.target.isComputed = true) {a : Address} : arrow ∈ p.arriving a ↔ (arrow, a) ∈ p.solved := by
  rw [mem_arriving]
  induction h with
  | empty => simp
  | addPoint _ b ih => rwa [links_addPoint, solved_addPoint]
  | @setEntry q _ b ih =>
      change (a, arrow) ∈ (q.addPoint b).links ↔ (arrow, a) ∈ (q.addPoint b).solved
      rwa [links_addPoint, solved_addPoint]
  | addArrow _ new ih => rwa [mem_links_addArrow_of_computed harrow, solved_addArrow]
  | solve _ _ hsolve ih => exact mem_links_solve hsolve ih
  | relink hp ih =>
      rw [mem_links_relink, mem_destinations_of_computed harrow, solved_relink]
      refine and_iff_right_of_imp fun hsolved => ?_
      have hmem := hp.isLinked.arrow (ih.2 hsolved)
      exact ⟨hp.isLinked.source hmem, hmem⟩

/-- However a program has been put together, an arrow arrives at its destinations and nowhere else. -/
theorem Built.mem_arriving_iff_destinations {p : Program} (h : p.Built) {arrow : Arrow} {a : Address} :
    arrow ∈ p.arriving a ↔ arrow ∈ p.arrows ∧ a ∈ p.destinations arrow := by
  cases htarget : arrow.target with
  | fixed b => rw [h.mem_arriving_iff htarget, destinations, htarget, List.mem_singleton, eq_comm]
  | computed t =>
      have hcomputed : arrow.target.isComputed = true := by rw [htarget, Target.isComputed]
      rw [mem_destinations_of_computed hcomputed, ← h.mem_arriving_iff_solved hcomputed]
      exact (and_iff_right_of_imp fun harriving => h.isLinked.arrow (mem_arriving.1 harriving)).symm

theorem nodup_points_addPoint {p : Program} (h : p.points.Nodup) (a : Address) : (p.addPoint a).points.Nodup := by
  unfold addPoint
  split
  next => exact h
  next hnew =>
    dsimp only
    rw [← List.concat_eq_append]
    exact h.concat hnew

theorem nodup_points_link {p : Program} (h : p.points.Nodup) (a : Address) (arrow : Arrow) :
    (p.link a arrow).points.Nodup := by
  unfold link
  split <;> exact nodup_points_addPoint h a

theorem nodup_addArrow {p : Program} (hpoints : p.points.Nodup) (harrows : p.arrows.Nodup) (arrow : Arrow) :
    (p.addArrow arrow).points.Nodup ∧ (p.addArrow arrow).arrows.Nodup := by
  have hsource := nodup_points_addPoint hpoints arrow.source
  unfold addArrow
  dsimp only
  rw [arrows_addPoint]
  split
  next => exact ⟨hsource, by rwa [arrows_addPoint]⟩
  next hnew =>
    have hadded : (p.arrows ++ [arrow]).Nodup := by
      rw [← List.concat_eq_append]
      exact harrows.concat hnew
    split
    next a _ =>
      refine ⟨nodup_points_link ?_ a arrow, by rwa [arrows_link]⟩
      exact hsource
    next => exact ⟨hsource, hadded⟩

theorem nodup_solve? {p q : Program} {arrow : Arrow} {a : Address} {new : Bool} (hpoints : p.points.Nodup)
    (harrows : p.arrows.Nodup) (hsolve : p.solve? arrow a = .ok (new, q)) : q.points.Nodup ∧ q.arrows.Nodup := by
  unfold solve? at hsolve
  split at hsolve
  next => cases hsolve
  next =>
    split at hsolve <;> cases hsolve
    · exact ⟨hpoints, harrows⟩
    · refine ⟨nodup_points_link ?_ a arrow, by rwa [arrows_link]⟩
      exact hpoints

/-- However a program has been put together, none of its points and none of its arrows is listed twice. -/
theorem Built.nodup {p : Program} (h : p.Built) : p.points.Nodup ∧ p.arrows.Nodup := by
  induction h with
  | empty => exact ⟨List.nodup_nil, List.nodup_nil⟩
  | addPoint _ a ih => exact ⟨nodup_points_addPoint ih.1 a, by rw [arrows_addPoint]; exact ih.2⟩
  | setEntry _ a ih => exact ⟨nodup_points_addPoint ih.1 a, (arrows_addPoint _ a).symm ▸ ih.2⟩
  | addArrow _ arrow ih => exact nodup_addArrow ih.1 ih.2 arrow
  | solve _ _ hsolve ih => exact nodup_solve? ih.1 ih.2 hsolve
  | relink _ ih =>
      refine ⟨List.foldlRecOn (motive := fun q : Program => q.points.Nodup) _ _ ih.1 fun q hq entry _ => ?_, ?_⟩
      · exact nodup_points_link hq entry.1 entry.2
      · rw [Program.relink, (foldl_link _ _).1]
        exact ih.2

theorem Built.mem_orderedArrows {p : Program} (h : p.Built) {arrow : Arrow} :
    arrow ∈ p.orderedArrows ↔ arrow ∈ p.arrows := by
  simp only [orderedArrows, leaving, List.mem_flatMap, List.mem_filter, decide_eq_true_eq]
  constructor
  · rintro ⟨_, -, harrow, -⟩
    exact harrow
  · exact fun harrow => ⟨arrow.source, h.isLinked.source harrow, harrow, rfl⟩

theorem Built.nodup_orderedArrows {p : Program} (h : p.Built) : p.orderedArrows.Nodup := by
  obtain ⟨hpoints, harrows⟩ := h.nodup
  rw [orderedArrows, List.nodup_flatMap]
  refine ⟨fun a _ => harrows.filter _, hpoints.imp fun hne => ?_⟩
  intro arrow hleaves hleaves'
  simp only [leaving, List.mem_filter, decide_eq_true_eq] at hleaves hleaves'
  exact hne (hleaves.2.symm.trans hleaves'.2)

end Program
end Backslice
