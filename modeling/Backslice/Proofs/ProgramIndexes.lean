import Backslice.IndexedProgram
import Backslice.Proofs.Construction
import Backslice.Proofs.Lists
import Mathlib.Data.Option.Basic

/-!
# The indexes of a program

An indexed program represents a program: both have the same points and arrows
in the same order, and the numbers that a point lists are those of the arrows
that leave it and of those that arrive at it. Every change keeps this, so
whatever holds of the lists of a program holds of the indexes.

Linking anew starts from an indexed program without its lists of arriving
arrows, and gives this back with new lists. So the lists before it have no
influence on the result.
-/

namespace Backslice

section
variable {α β : Type}

/-- Whether the numbers are those of the listed elements of `as`. -/
def Names (as : List α) (numbers : List Nat) (xs : List α) : Prop :=
  numbers.map (as[·]?) = xs.map some

theorem Names.getElem? {as xs : List α} {numbers : List Nat} (h : Names as numbers xs) {n : Nat} (hn : n ∈ numbers) :
    ∃ x ∈ xs, as[n]? = some x := by
  have hmem : as[n]? ∈ xs.map some := h ▸ List.mem_map_of_mem hn
  obtain ⟨x, hx, heq⟩ := List.mem_map.1 hmem
  exact ⟨x, hx, heq.symm⟩

theorem Names.mem_list_iff {as xs : List α} {numbers : List Nat} (h : Names as numbers xs) {x : α} :
    x ∈ xs ↔ ∃ n ∈ numbers, as[n]? = some x := by
  rw [← List.mem_map_of_injective (Option.some_injective α), ← h, List.mem_map]

theorem Names.mem_iff {as xs : List α} {numbers : List Nat} (h : Names as numbers xs) (hnodup : as.Nodup) {n : Nat} :
    n ∈ numbers ↔ ∃ x ∈ xs, as[n]? = some x := by
  refine ⟨h.getElem?, ?_⟩
  rintro ⟨x, hx, hn⟩
  obtain ⟨m, hm, hmx⟩ := h.mem_list_iff.1 hx
  obtain ⟨hlt, -⟩ := List.getElem?_eq_some_iff.1 hn
  rwa [(List.getElem?_inj hlt hnodup).1 (hn.trans hmx.symm)]

theorem Names.nodup {as xs : List α} {numbers : List Nat} (h : Names as numbers xs) (hxs : xs.Nodup) :
    numbers.Nodup := by
  refine List.Nodup.of_map (as[·]?) ?_
  rw [h]
  exact hxs.map (Option.some_injective α)

theorem Names.append {as xs : List α} {numbers : List Nat} (h : Names as numbers xs) (bs : List α) :
    Names (as ++ bs) numbers xs := by
  refine Eq.trans (List.map_congr_left fun n hn => ?_) h
  obtain ⟨x, -, hx⟩ := h.getElem? hn
  obtain ⟨hlt, -⟩ := List.getElem?_eq_some_iff.1 hx
  exact List.getElem?_append_left hlt

theorem Names.concat {as xs : List α} {numbers : List Nat} (h : Names as numbers xs) {n : Nat} {x : α}
    (hn : as[n]? = some x) : Names as (numbers ++ [n]) (xs ++ [x]) := by
  rw [Names, List.map_append, List.map_append, h, List.map_singleton, List.map_singleton, hn]

end

/-! ## What the indexes represent -/

/-- Nothing is listed twice, and whatever is mentioned is listed. -/
structure Program.IsTidy (p : Program) : Prop where
  points_nodup : p.points.Nodup
  arrows_nodup : p.arrows.Nodup
  links_nodup : p.links.Nodup
  source_mem {arrow : Arrow} : arrow ∈ p.arrows → arrow.source ∈ p.points
  link_mem {a : Address} {arrow : Arrow} : (a, arrow) ∈ p.links → a ∈ p.points
  solved_mem {a : Address} {arrow : Arrow} : (arrow, a) ∈ p.solved → arrow ∈ p.arrows

/-- Whether the indexed program is the program, with the numbers of its points and arrows. -/
structure IndexedProgram.Represents (g : IndexedProgram) (p : Program) : Prop extends p.IsTidy where
  points : g.points.map (·.address) = p.points
  arrows : g.arrows.map (·.arrow) = p.arrows
  numbers {a : Address} {n : Nat} : g.numbers[a]? = some n ↔ p.points[n]? = some a
  leaving {point : IndexedPoint} : point ∈ g.points → Names p.arrows point.leaving (p.leaving point.address)
  arriving {point : IndexedPoint} : point ∈ g.points → Names p.arrows point.arriving (p.arriving point.address)
  solved {e : IndexedArrow} : e ∈ g.arrows → e.solved = (p.solved.filter (·.1 = e.arrow)).map (·.2)
  start : g.start = p.start

namespace Program

theorem IsTidy.leaving_eq_nil {p : Program} (h : p.IsTidy) {a : Address} (ha : a ∉ p.points) : p.leaving a = [] := by
  refine List.filter_eq_nil_iff.2 fun arrow harrow hsource => ha ?_
  rw [← of_decide_eq_true hsource]
  exact h.source_mem harrow

theorem IsTidy.arriving_eq_nil {p : Program} (h : p.IsTidy) {a : Address} (ha : a ∉ p.points) : p.arriving a = [] :=
  List.eq_nil_iff_forall_not_mem.2 fun _ harriving => ha (h.link_mem (mem_arriving.1 harriving))

theorem IsTidy.addPoint {p : Program} (h : p.IsTidy) (a : Address) : (p.addPoint a).IsTidy where
  points_nodup := nodup_points_addPoint h.points_nodup a
  arrows_nodup := by rw [arrows_addPoint]; exact h.arrows_nodup
  links_nodup := by rw [links_addPoint]; exact h.links_nodup
  source_mem harrow := mem_points_addPoint.2 (Or.inl (h.source_mem (by rwa [arrows_addPoint] at harrow)))
  link_mem hlink := mem_points_addPoint.2 (Or.inl (h.link_mem (by rwa [links_addPoint] at hlink)))
  solved_mem hsolved := by
    rw [arrows_addPoint]
    exact h.solved_mem (by rwa [solved_addPoint] at hsolved)

end Program

namespace IndexedProgram

theorem Represents.arrow?_eq {g : IndexedProgram} {p : Program} (h : g.Represents p) (number : Nat) :
    g.arrow? number = p.arrows[number]? := by
  rw [arrow?, ← h.arrows, List.getElem?_map]

theorem Represents.arrows_length {g : IndexedProgram} {p : Program} (h : g.Represents p) :
    g.arrows.length = p.arrows.length := by
  rw [← h.arrows, List.length_map]

theorem Represents.points_length {g : IndexedProgram} {p : Program} (h : g.Represents p) :
    g.points.length = p.points.length := by
  rw [← h.points, List.length_map]

theorem represents_empty : Represents {} {} where
  points_nodup := List.nodup_nil
  arrows_nodup := List.nodup_nil
  links_nodup := List.nodup_nil
  source_mem := by simp
  link_mem := by simp
  solved_mem := by simp
  points := rfl
  arrows := rfl
  numbers := by simp
  leaving := by simp
  arriving := by simp
  solved := by simp
  start := rfl

theorem Represents.addPoint {g : IndexedProgram} {p : Program} (h : g.Represents p) (a : Address) :
    (g.addPoint a).2.Represents (p.addPoint a) ∧ (p.addPoint a).points[(g.addPoint a).1]? = some a := by
  unfold IndexedProgram.addPoint
  split
  next n hn =>
    have ha : p.points[n]? = some a := h.numbers.1 hn
    rw [Program.addPoint, if_pos (List.mem_of_getElem? ha)]
    exact ⟨h, ha⟩
  next hnone =>
    have hnew : a ∉ p.points := fun ha => by
      obtain ⟨n, hn⟩ := List.mem_iff_getElem?.1 ha
      rw [h.numbers.2 hn] at hnone
      cases hnone
    have htidy := h.toIsTidy.addPoint a
    rw [Program.addPoint, if_neg hnew] at htidy ⊢
    refine ⟨{ toIsTidy := htidy, points := ?_, arrows := h.arrows, numbers := ?_, leaving := ?_, arriving := ?_,
              solved := h.solved, start := h.start }, ?_⟩
    · rw [List.map_append, h.points, List.map_singleton]
    · intro b n
      simp only [Std.HashMap.getElem?_insert, List.getElem?_concat_eq_some_iff, h.points_length, beq_iff_eq]
      split
      next hab =>
        subst hab
        have hnot : p.points[n]? ≠ some a := fun hn => hnew (List.mem_of_getElem? hn)
        simp [hnot, eq_comm]
      next hab => simp [h.numbers, hab]
    · intro point hpoint
      rcases List.mem_append.1 hpoint with hpoint | hpoint
      · exact h.leaving hpoint
      · rw [List.mem_singleton.1 hpoint]
        exact congrArg (List.map some) (h.leaving_eq_nil hnew).symm
    · intro point hpoint
      rcases List.mem_append.1 hpoint with hpoint | hpoint
      · exact h.arriving hpoint
      · rw [List.mem_singleton.1 hpoint]
        exact congrArg (List.map some) (h.arriving_eq_nil hnew).symm
    · rw [h.points_length]
      exact List.getElem?_concat_length

theorem Represents.mem_points_modify {g : IndexedProgram} {p : Program} (h : g.Represents p) {n : Nat} {a : Address}
    (hn : p.points[n]? = some a) {f : IndexedPoint → IndexedPoint} {point : IndexedPoint}
    (hpoint : point ∈ g.points.modify n f) :
    ∃ old ∈ g.points, (old.address = a ∧ f old = point) ∨ (old.address ≠ a ∧ old = point) := by
  refine List.exists_of_mem_modify ?_ ?_ hpoint
  · rw [h.points]
    exact h.points_nodup
  · rwa [h.points]

theorem Represents.append {g : IndexedProgram} {p : Program} (h : g.Represents p) {n : Nat} {arrow : Arrow}
    (hn : p.points[n]? = some arrow.source) (hnew : arrow ∉ p.arrows) :
    (g.append n arrow).Represents { p with arrows := p.arrows ++ [arrow] } where
  points_nodup := h.points_nodup
  arrows_nodup := by
    rw [← List.concat_eq_append]
    exact h.arrows_nodup.concat hnew
  links_nodup := h.links_nodup
  source_mem hmem := by
    rcases List.mem_append.1 hmem with hmem | hmem
    · exact h.source_mem hmem
    · rw [List.mem_singleton.1 hmem]
      exact List.mem_of_getElem? hn
  link_mem := h.link_mem
  solved_mem hsolved := List.mem_append_left _ (h.solved_mem hsolved)
  points := by
    rw [← h.points]
    exact List.map_modify_of_apply_eq (by exact fun _ => rfl) n g.points
  arrows := by rw [IndexedProgram.append, List.map_append, h.arrows, List.map_singleton]
  numbers := h.numbers
  leaving hpoint := by
    obtain ⟨old, hold, ⟨ha, rfl⟩ | ⟨ha, rfl⟩⟩ := h.mem_points_modify hn hpoint
    · have hleaving : Program.leaving { p with arrows := p.arrows ++ [arrow] } old.address =
          p.leaving old.address ++ [arrow] := by simp [Program.leaving, ha]
      rw [hleaving]
      refine ((h.leaving hold).append [arrow]).concat ?_
      rw [h.arrows_length]
      exact List.getElem?_concat_length
    · have hleaving : Program.leaving { p with arrows := p.arrows ++ [arrow] } old.address =
          p.leaving old.address := by simp [Program.leaving, Ne.symm ha]
      rw [hleaving]
      exact (h.leaving hold).append [arrow]
  arriving hpoint := by
    obtain ⟨old, hold, ⟨-, rfl⟩ | ⟨-, rfl⟩⟩ := h.mem_points_modify hn hpoint
    · exact (h.arriving hold).append [arrow]
    · exact (h.arriving hold).append [arrow]
  solved he := by
    rcases List.mem_append.1 he with he | he
    · exact h.solved he
    · rw [List.mem_singleton.1 he]
      have hnone : p.solved.filter (·.1 = arrow) = [] := by
        refine List.filter_eq_nil_iff.2 fun entry hentry heq => hnew ?_
        rw [← of_decide_eq_true heq]
        exact h.solved_mem hentry
      rw [hnone, List.map_nil]
  start := h.start

theorem Represents.note {g : IndexedProgram} {p : Program} (h : g.Represents p) {number : Nat} {arrow : Arrow}
    (hnumber : p.arrows[number]? = some arrow) (a : Address) :
    (g.note number a).Represents { p with solved := p.solved ++ [(arrow, a)] } where
  points_nodup := h.points_nodup
  arrows_nodup := h.arrows_nodup
  links_nodup := h.links_nodup
  source_mem := h.source_mem
  link_mem := h.link_mem
  solved_mem hsolved := by
    rcases List.mem_append.1 hsolved with hsolved | hsolved
    · exact h.solved_mem hsolved
    · rw [(Prod.mk.inj (List.mem_singleton.1 hsolved)).1]
      exact List.mem_of_getElem? hnumber
  points := h.points
  arrows := by
    rw [← h.arrows]
    exact List.map_modify_of_apply_eq (by exact fun _ => rfl) number g.arrows
  numbers := h.numbers
  leaving := h.leaving
  arriving := h.arriving
  solved he := by
    have hnodup : (g.arrows.map (·.arrow)).Nodup := by
      rw [h.arrows]
      exact h.arrows_nodup
    obtain ⟨old, hold, ⟨harrow, rfl⟩ | ⟨harrow, rfl⟩⟩ := List.exists_of_mem_modify hnodup (by rwa [h.arrows]) he
    · simp [h.solved hold, harrow]
    · simp [h.solved hold, harrow.symm]
  start := h.start

/-- An arrow with the same number as one that arrives already is not entered, like one that is linked already. -/
theorem Represents.link {g : IndexedProgram} {p : Program} (h : g.Represents p) {n number : Nat} {a : Address}
    {arrow : Arrow} (hn : p.points[n]? = some a) (hnumber : p.arrows[number]? = some arrow) :
    (g.link n number).Represents
      { p with links := if (a, arrow) ∈ p.links then p.links else p.links ++ [(a, arrow)] } where
  points_nodup := h.points_nodup
  arrows_nodup := h.arrows_nodup
  links_nodup := by
    split
    next => exact h.links_nodup
    next hnew =>
      dsimp only
      rw [← List.concat_eq_append]
      exact h.links_nodup.concat hnew
  source_mem := h.source_mem
  link_mem hlink := by
    split at hlink
    next => exact h.link_mem hlink
    next =>
      rcases List.mem_append.1 hlink with hlink | hlink
      · exact h.link_mem hlink
      · rw [(Prod.mk.inj (List.mem_singleton.1 hlink)).1]
        exact List.mem_of_getElem? hn
  solved_mem := h.solved_mem
  points := by
    rw [← h.points]
    refine List.map_modify_of_apply_eq (fun point => ?_) n g.points
    split <;> rfl
  arrows := h.arrows
  numbers := h.numbers
  leaving hpoint := by
    obtain ⟨old, hold, ⟨-, rfl⟩ | ⟨-, rfl⟩⟩ := h.mem_points_modify hn hpoint
    · have hleaving := h.leaving hold
      dsimp only
      split <;> exact hleaving
    · exact h.leaving hold
  arriving hpoint := by
    obtain ⟨old, hold, ⟨ha, rfl⟩ | ⟨ha, rfl⟩⟩ := h.mem_points_modify hn hpoint
    -- Both look for an arrow that arrives here already, one through its number and the other by itself.
    · have hknown : old.arriving.any (g.arrow? · = g.arrow? number) = true ↔ (a, arrow) ∈ p.links := by
        rw [← Program.mem_arriving, ← ha, (h.arriving hold).mem_list_iff]
        simp [h.arrow?_eq, hnumber]
      by_cases hlink : (a, arrow) ∈ p.links
      · rw [if_pos hlink, if_pos (hknown.2 hlink)]
        exact h.arriving hold
      · rw [if_neg hlink, if_neg fun h => hlink (hknown.1 h)]
        have harriving : Program.arriving { p with links := p.links ++ [(a, arrow)] } old.address =
            p.arriving old.address ++ [arrow] := by simp [Program.arriving, ha]
        rw [harriving]
        exact (h.arriving hold).concat hnumber
    · have harriving : Program.arriving
          { p with links := if (a, arrow) ∈ p.links then p.links else p.links ++ [(a, arrow)] } old.address =
          p.arriving old.address := by
        split
        · rfl
        · simp [Program.arriving, Ne.symm ha]
      rw [harriving]
      exact h.arriving hold
  solved := h.solved
  start := h.start

theorem Represents.linkTo {g : IndexedProgram} {p : Program} (h : g.Represents p) (a : Address) {number : Nat}
    {arrow : Arrow} (hnumber : p.arrows[number]? = some arrow) : (g.linkTo a number).Represents (p.link a arrow) := by
  obtain ⟨hadded, hn⟩ := h.addPoint a
  have hlink : p.link a arrow = { p.addPoint a with
      links := if (a, arrow) ∈ (p.addPoint a).links then (p.addPoint a).links
        else (p.addPoint a).links ++ [(a, arrow)] } := by
    rw [Program.link, Program.links_addPoint]
    split
    · rw [← Program.links_addPoint p a]
    · rfl
  rw [hlink]
  exact hadded.link hn (by rwa [Program.arrows_addPoint])

theorem Represents.setEntry {g : IndexedProgram} {p : Program} (h : g.Represents p) (a : Address) :
    (g.setEntry a).Represents (p.setEntry a) := by
  have hadded := (h.addPoint a).1
  exact { hadded with start := rfl }

/-- A number is found for an arrow at its source if the program has the arrow. -/
theorem Represents.find?_cases {g : IndexedProgram} {p : Program} (h : g.Represents p) {n : Nat} {arrow : Arrow}
    (hn : p.points[n]? = some arrow.source) :
    (∃ number, g.find? n arrow = some number ∧ p.arrows[number]? = some arrow) ∨
      (g.find? n arrow = none ∧ arrow ∉ p.arrows) := by
  rw [← h.points, List.getElem?_map] at hn
  obtain ⟨point, hpoint, hsource⟩ := Option.map_eq_some_iff.1 hn
  simp only [find?, hpoint, Option.bind_some, h.arrow?_eq]
  cases hfind : point.leaving.find? (fun number => decide (p.arrows[number]? = some arrow)) with
  | some number =>
      have hfound := List.find?_some hfind
      exact Or.inl ⟨number, rfl, of_decide_eq_true hfound⟩
  | none =>
      refine Or.inr ⟨rfl, fun harrow => ?_⟩
      have hleaves : arrow ∈ p.leaving point.address := List.mem_filter.2 ⟨harrow, decide_eq_true hsource.symm⟩
      obtain ⟨number, hmem, hnumber⟩ := (h.leaving (List.mem_of_getElem? hpoint)).mem_list_iff.1 hleaves
      exact List.find?_eq_none.1 hfind number hmem (decide_eq_true hnumber)

theorem Represents.addArrow {g : IndexedProgram} {p : Program} (h : g.Represents p) (arrow : Arrow) :
    (g.addArrow arrow).2.Represents (p.addArrow arrow) ∧
      (p.addArrow arrow).arrows[(g.addArrow arrow).1]? = some arrow := by
  obtain ⟨hadded, hn⟩ := h.addPoint arrow.source
  unfold IndexedProgram.addArrow Program.addArrow
  dsimp only
  rcases hadded.find?_cases hn with ⟨number, hfind, hnumber⟩ | ⟨hfind, hnew⟩
  · rw [hfind, if_pos (List.mem_of_getElem? hnumber)]
    exact ⟨hadded, hnumber⟩
  · rw [hfind, if_neg hnew]
    have happended := hadded.append hn hnew
    have hnumber : ((p.addPoint arrow.source).arrows ++ [arrow])[(g.addPoint arrow.source).2.arrows.length]? =
        some arrow := by
      rw [hadded.arrows_length]
      exact List.getElem?_concat_length
    cases arrow.target with
    | fixed a =>
        refine ⟨happended.linkTo a hnumber, ?_⟩
        rwa [Program.arrows_link]
    | computed t => exact ⟨happended, hnumber⟩

theorem Represents.solve? {g : IndexedProgram} {p : Program} (h : g.Represents p) {number : Nat} {arrow : Arrow}
    (hnumber : p.arrows[number]? = some arrow) (a : Address) :
    (∃ new g' p', g.solve? number a = .ok (new, g') ∧ p.solve? arrow a = .ok (new, p') ∧ g'.Represents p') ∨
      ∃ e, g.solve? number a = .error (.solve e) ∧ p.solve? arrow a = .error e := by
  have hread := h.arrow?_eq number
  rw [hnumber] at hread
  obtain ⟨e, he, rfl⟩ := Option.map_eq_some_iff.1 hread
  have hknown : a ∈ e.solved ↔ (e.arrow, a) ∈ p.solved := by
    rw [h.solved (List.mem_of_getElem? he)]
    simp
  simp only [IndexedProgram.solve?, he, Program.solve?, hknown]
  cases e.arrow.target.isComputed with
  | false => exact Or.inr ⟨.fixedTarget, rfl, rfl⟩
  | true =>
      refine Or.inl ?_
      by_cases hsolved : (e.arrow, a) ∈ p.solved
      · exact ⟨false, g, p, by simp [hsolved], by simp [hsolved], h⟩
      · refine ⟨true, _, _, by simp [hsolved]; rfl, by simp [hsolved]; rfl, ?_⟩
        exact (h.note hnumber a).linkTo a hnumber

theorem Represents.cleared {g : IndexedProgram} {p : Program} (h : g.Represents p) :
    g.cleared.Represents { p with links := [] } where
  points_nodup := h.points_nodup
  arrows_nodup := h.arrows_nodup
  links_nodup := List.nodup_nil
  source_mem := h.source_mem
  link_mem := by simp
  solved_mem := h.solved_mem
  points := by rw [← h.points, IndexedProgram.cleared, List.map_map]; rfl
  arrows := h.arrows
  numbers := h.numbers
  leaving hpoint := by
    obtain ⟨old, hold, rfl⟩ := List.mem_map.1 hpoint
    have hleaving := h.leaving hold
    exact hleaving
  arriving hpoint := by
    obtain ⟨old, hold, rfl⟩ := List.mem_map.1 hpoint
    exact rfl
  solved := h.solved
  start := h.start

theorem Represents.destinations {g : IndexedProgram} {p : Program} (h : g.Represents p) (number : Nat) :
    g.arrows[number]?.elim [] (·.destinations) = p.arrows[number]?.elim [] p.destinations := by
  rw [← h.arrow?_eq, arrow?]
  cases he : g.arrows[number]? with
  | none => rfl
  | some e =>
      rw [Option.map_some, Option.elim_some, Option.elim_some, IndexedArrow.destinations, Program.destinations]
      cases e.arrow.target with
      | fixed a => rfl
      | computed t => rw [h.solved (List.mem_of_getElem? he), Program.solvedTargets]

theorem Represents.entries {g : IndexedProgram} {p : Program} (h : g.Represents p) :
    g.entries.map (fun entry => (entry.1, p.arrows[entry.2]?)) =
      (p.orderedArrows.flatMap fun arrow => (p.destinations arrow).map (·, arrow)).map
        fun entry => (entry.1, some entry.2) := by
  rw [IndexedProgram.entries, Program.orderedArrows, ← h.points, List.flatMap_map, List.flatMap_assoc,
    List.map_flatMap, List.map_flatMap]
  refine List.flatMap_congr fun point hpoint => ?_
  calc
    _ = (point.leaving.map (p.arrows[·]?)).flatMap fun o => (o.elim [] p.destinations).map (·, o) := by
      rw [List.map_flatMap, List.flatMap_map]
      simp only [h.destinations, List.map_map, Function.comp_def]
    _ = _ := by
      rw [h.leaving hpoint, List.flatMap_map, List.map_flatMap]
      simp only [Option.elim_some, List.map_map, Function.comp_def]

theorem Represents.foldl_linkTo {entries : List (Address × Nat)} {links : List (Address × Arrow)} {g : IndexedProgram}
    {p : Program} (h : g.Represents p)
    (heq : entries.map (fun entry => (entry.1, p.arrows[entry.2]?)) = links.map fun entry => (entry.1, some entry.2)) :
    (entries.foldl (fun g entry => g.linkTo entry.1 entry.2) g).Represents
      (links.foldl (fun p entry => p.link entry.1 entry.2) p) := by
  induction entries generalizing links g p with
  | nil =>
      rw [List.map_nil, eq_comm, List.map_eq_nil_iff] at heq
      rw [heq]
      exact h
  | cons entry entries ih =>
      cases links with
      | nil => cases heq
      | cons first links =>
          obtain ⟨hentry, hrest⟩ := List.cons.inj heq
          obtain ⟨ha, hnumber⟩ := Prod.mk.inj hentry
          rw [List.foldl_cons, List.foldl_cons, ← ha]
          refine ih (h.linkTo entry.1 hnumber) ?_
          rwa [Program.arrows_link]

theorem Represents.relink {g : IndexedProgram} {p : Program} (h : g.Represents p) : g.relink.Represents p.relink :=
  h.cleared.foldl_linkTo h.entries

theorem Represents.change? {g : IndexedProgram} {p : Program} (h : g.Represents p) (c : Change) :
    (∃ g' p', g.change? c = .ok g' ∧ p.change? c = .ok p' ∧ g'.Represents p') ∨
      ∃ e, g.change? c = .error e ∧ p.change? c = .error e := by
  cases c with
  | point a => exact Or.inl ⟨_, _, rfl, rfl, (h.addPoint a).1⟩
  | entry a => exact Or.inl ⟨_, _, rfl, rfl, h.setEntry a⟩
  | arrow request =>
      simp only [IndexedProgram.change?, Program.change?]
      cases request.arrow? with
      | error e => exact Or.inr ⟨.input e, rfl, rfl⟩
      | ok arrow => exact Or.inl ⟨_, _, rfl, rfl, (h.addArrow arrow).1⟩
  | solve number a =>
      simp only [IndexedProgram.change?, Program.change?]
      cases hnumber : p.arrows[number]? with
      | none =>
          have hnone : g.arrows[number]? = none := by
            rw [List.getElem?_eq_none_iff] at hnumber ⊢
            rwa [h.arrows_length]
          exact Or.inr ⟨_, by rw [IndexedProgram.solve?, hnone, h.arrows_length], rfl⟩
      | some arrow =>
          rcases h.solve? hnumber a with ⟨new, g', p', hg, hp, h'⟩ | ⟨e, hg, hp⟩
          · exact Or.inl ⟨g', p', by rw [hg], by simp only [hp], h'⟩
          · exact Or.inr ⟨.solve e, by rw [hg], by simp only [hp]⟩
  | relink => exact Or.inl ⟨_, _, rfl, rfl, h.relink⟩

theorem Represents.change {g : IndexedProgram} {p : Program} (h : g.Represents p) (c : Change) :
    (g.change c).Represents (p.change c) := by
  rw [IndexedProgram.change, Program.change]
  rcases h.change? c with ⟨g', p', hg, hp, h'⟩ | ⟨e, hg, hp⟩
  · rw [hg, hp]
    exact h'
  · rw [hg, hp]
    exact h

theorem represents_ofChanges (changes : List Change) : (ofChanges changes).Represents (Program.ofChanges changes) := by
  have hrun : ∀ (changes : List Change) (g : IndexedProgram) (p : Program), g.Represents p →
      (changes.foldl IndexedProgram.change g).Represents (changes.foldl Program.change p) := by
    intro changes
    induction changes with
    | nil => exact fun g p h => h
    | cons c changes ih => exact fun g p h => ih _ _ (h.change c)
  exact hrun changes {} {} represents_empty

end IndexedProgram

namespace Program

theorem Built.change {p : Program} (h : p.Built) (c : Change) : (p.change c).Built := by
  rw [Program.change]
  cases hc : p.change? c with
  | error e => exact h
  | ok q =>
      cases c with
      | point a =>
          cases hc
          exact h.addPoint a
      | entry a =>
          cases hc
          exact h.setEntry a
      | arrow request =>
          simp only [change?] at hc
          split at hc
          next => cases hc
          next arrow _ =>
            cases hc
            exact h.addArrow arrow
      | solve number a =>
          simp only [change?] at hc
          split at hc
          next => cases hc
          next arrow hnumber =>
            split at hc
            next => cases hc
            next hsolve =>
              cases hc
              exact h.solve (List.mem_of_getElem? hnumber) hsolve
      | relink =>
          cases hc
          exact h.relink

theorem built_ofChanges (changes : List Change) : (ofChanges changes).Built :=
  List.foldlRecOn changes change .empty fun _ h c _ => h.change c

end Program

/-! ## Consistency -/

/-- An arrow leads to its fixed target, or to the addresses found out for its computed one. -/
def IndexedArrow.LeadsTo (e : IndexedArrow) (a : Address) : Prop :=
  e.arrow.target = .fixed a ∨ (e.arrow.target.isComputed = true ∧ a ∈ e.solved)

theorem IndexedArrow.mem_destinations_iff {e : IndexedArrow} {a : Address} : a ∈ e.destinations ↔ e.LeadsTo a := by
  cases htarget : e.arrow.target with
  | fixed b => simp [destinations, LeadsTo, htarget, Target.isComputed, eq_comm]
  | computed t => simp [destinations, LeadsTo, htarget, Target.isComputed]

namespace IndexedProgram

/-- Whether the indexes tell what the points and the arrows are, each of them once. -/
structure IsConsistent (g : IndexedProgram) : Prop where
  addresses_nodup : (g.points.map (·.address)).Nodup
  /-- The index of addresses has the addresses of the points and no others. -/
  numbers {a : Address} {n : Nat} : g.numbers[a]? = some n ↔ g.points[n]?.map (·.address) = some a
  arrows_nodup : (g.arrows.map (·.arrow)).Nodup
  /-- Each arrow is listed once among all that leave some point. -/
  leaving_perm : (g.points.flatMap (·.leaving)).Perm (List.range g.arrows.length)
  /-- It is listed at its source. -/
  leaving_source {point : IndexedPoint} : point ∈ g.points → ∀ {number : Nat}, number ∈ point.leaving ↔
    ∃ e, g.arrows[number]? = some e ∧ e.arrow.source = point.address
  arriving_nodup {point : IndexedPoint} : point ∈ g.points → point.arriving.Nodup
  arriving_iff {point : IndexedPoint} : point ∈ g.points → ∀ {number : Nat}, number ∈ point.arriving ↔
    ∃ e, g.arrows[number]? = some e ∧ e.LeadsTo point.address
  /-- An arrow is listed wherever it leads. -/
  target_mem {e : IndexedArrow} {a : Address} : e ∈ g.arrows → e.LeadsTo a → a ∈ g.points.map (·.address)

section
variable {g : IndexedProgram} {p : Program}

theorem Represents.getElem?_arrows_iff (h : g.Represents p) {number : Nat} {arrow : Arrow} :
    p.arrows[number]? = some arrow ↔ ∃ e, g.arrows[number]? = some e ∧ e.arrow = arrow := by
  rw [← h.arrow?_eq, arrow?, Option.map_eq_some_iff]

theorem Represents.mem_leaving_iff (h : g.Represents p) {point : IndexedPoint} (hpoint : point ∈ g.points)
    {number : Nat} : number ∈ point.leaving ↔ ∃ e, g.arrows[number]? = some e ∧ e.arrow.source = point.address := by
  rw [(h.leaving hpoint).mem_iff h.arrows_nodup]
  constructor
  · rintro ⟨arrow, hleaves, hnumber⟩
    obtain ⟨e, he, rfl⟩ := h.getElem?_arrows_iff.1 hnumber
    exact ⟨e, he, of_decide_eq_true (List.mem_filter.1 hleaves).2⟩
  · rintro ⟨e, he, hsource⟩
    have hnumber := h.getElem?_arrows_iff.2 ⟨e, he, rfl⟩
    exact ⟨e.arrow, List.mem_filter.2 ⟨List.mem_of_getElem? hnumber, decide_eq_true hsource⟩, hnumber⟩

theorem Represents.leadsTo_iff (h : g.Represents p) {number : Nat} {e : IndexedArrow} (he : g.arrows[number]? = some e)
    {a : Address} : e.LeadsTo a ↔ a ∈ p.destinations e.arrow := by
  have heq : e.destinations = p.destinations e.arrow := by
    have hnumber := h.destinations number
    rwa [h.getElem?_arrows_iff.2 ⟨e, he, rfl⟩, he] at hnumber
  rw [← IndexedArrow.mem_destinations_iff, heq]

theorem Represents.mem_arriving_iff (h : g.Represents p) (hp : p.Built) {point : IndexedPoint}
    (hpoint : point ∈ g.points) {number : Nat} :
    number ∈ point.arriving ↔ ∃ e, g.arrows[number]? = some e ∧ e.LeadsTo point.address := by
  rw [(h.arriving hpoint).mem_iff h.arrows_nodup]
  constructor
  · rintro ⟨arrow, harrives, hnumber⟩
    obtain ⟨e, he, rfl⟩ := h.getElem?_arrows_iff.1 hnumber
    exact ⟨e, he, (h.leadsTo_iff he).2 (hp.mem_arriving_iff_destinations.1 harrives).2⟩
  · rintro ⟨e, he, hleads⟩
    have hnumber := h.getElem?_arrows_iff.2 ⟨e, he, rfl⟩
    exact ⟨e.arrow, hp.mem_arriving_iff_destinations.2 ⟨List.mem_of_getElem? hnumber, (h.leadsTo_iff he).1 hleads⟩,
      hnumber⟩

theorem Represents.leaving_perm (h : g.Represents p) :
    (g.points.flatMap (·.leaving)).Perm (List.range g.arrows.length) := by
  have hnodup : (g.points.flatMap (·.leaving)).Nodup := by
    refine List.nodup_flatMap.2 ⟨fun point hpoint => (h.leaving hpoint).nodup (h.arrows_nodup.filter _), ?_⟩
    have haddresses : (g.points.map (·.address)).Nodup := by
      rw [h.points]
      exact h.points_nodup
    refine (List.pairwise_map.1 haddresses).imp_of_mem fun {x y} hx hy hne number hleaves hleaves' => hne ?_
    obtain ⟨e, he, hsource⟩ := (h.mem_leaving_iff hx).1 hleaves
    obtain ⟨e', he', hsource'⟩ := (h.mem_leaving_iff hy).1 hleaves'
    obtain rfl := Option.some.inj (he.symm.trans he')
    exact hsource.symm.trans hsource'
  refine (List.perm_ext_iff_of_nodup hnodup List.nodup_range).2 fun number => ?_
  rw [List.mem_flatMap, List.mem_range]
  constructor
  · rintro ⟨point, hpoint, hleaves⟩
    obtain ⟨e, he, -⟩ := (h.mem_leaving_iff hpoint).1 hleaves
    exact (List.getElem?_eq_some_iff.1 he).1
  · intro hlt
    have he : g.arrows[number]? = some g.arrows[number] := List.getElem?_eq_getElem hlt
    have hsource : g.arrows[number].arrow.source ∈ g.points.map (·.address) := by
      rw [h.points]
      exact h.source_mem (List.mem_of_getElem? (h.getElem?_arrows_iff.2 ⟨_, he, rfl⟩))
    obtain ⟨point, hpoint, haddress⟩ := List.mem_map.1 hsource
    exact ⟨point, hpoint, (h.mem_leaving_iff hpoint).2 ⟨_, he, haddress.symm⟩⟩

theorem Represents.isConsistent (h : g.Represents p) (hp : p.Built) : g.IsConsistent where
  addresses_nodup := by
    rw [h.points]
    exact h.points_nodup
  numbers := by
    intro a n
    rw [h.numbers, ← h.points, List.getElem?_map]
  arrows_nodup := by
    rw [h.arrows]
    exact h.arrows_nodup
  leaving_perm := h.leaving_perm
  leaving_source hpoint := h.mem_leaving_iff hpoint
  arriving_nodup {point} hpoint := by
    refine (h.arriving hpoint).nodup ((h.links_nodup.filter _).map_on ?_)
    rintro ⟨a, arrow⟩ ha ⟨b, other⟩ hb heq
    have hab : a = b := by
      exact (of_decide_eq_true (List.mem_filter.1 ha).2).trans (of_decide_eq_true (List.mem_filter.1 hb).2).symm
    rw [hab]
    exact congrArg _ heq
  arriving_iff hpoint := h.mem_arriving_iff hp hpoint
  target_mem he hleads := by
    obtain ⟨number, he⟩ := List.mem_iff_getElem?.1 he
    have harrow := List.mem_of_getElem? (h.getElem?_arrows_iff.2 ⟨_, he, rfl⟩)
    rw [h.points]
    exact h.link_mem (Program.mem_arriving.1 (hp.mem_arriving_iff_destinations.2 ⟨harrow, (h.leadsTo_iff he).1 hleads⟩))

end

/-- Whether two programs differ in the order in which arriving arrows are listed, and in nothing else. -/
structure Rearranges (h g : IndexedProgram) : Prop where
  arrows : h.arrows = g.arrows
  numbers : h.numbers = g.numbers
  start : h.start = g.start
  points : List.Forall₂
    (fun x y => x.address = y.address ∧ x.leaving = y.leaving ∧ x.arriving.Perm y.arriving) h.points g.points

/-- An arrow is entered at a point without a change to anything but the list of arriving arrows. -/
theorem cleared_linkTo {g : IndexedProgram} {a : Address} (ha : a ∈ g.numbers) (number : Nat) :
    (g.linkTo a number).cleared = g.cleared := by
  obtain ⟨n, hn⟩ := Option.isSome_iff_exists.1 (Std.HashMap.isSome_getElem?_iff_mem.2 ha)
  have hadd : g.addPoint a = (n, g) := by rw [addPoint, hn]
  have hpoints : (g.link n number).points.map (fun point => { point with arriving := [] }) =
      g.points.map fun point => { point with arriving := [] } := by
    refine List.map_modify_of_apply_eq (fun point => ?_) n g.points
    split <;> rfl
  rw [linkTo, hadd, cleared, hpoints]
  rfl

theorem cleared_foldl_linkTo {entries : List (Address × Nat)} {g : IndexedProgram}
    (h : ∀ entry ∈ entries, entry.1 ∈ g.numbers) :
    (entries.foldl (fun g entry => g.linkTo entry.1 entry.2) g).cleared = g.cleared := by
  induction entries generalizing g with
  | nil => rfl
  | cons entry entries ih =>
      have hfirst := cleared_linkTo (h entry List.mem_cons_self) entry.2
      have hnumbers : (g.linkTo entry.1 entry.2).numbers = g.numbers :=
        (congrArg IndexedProgram.numbers hfirst :)
      rw [List.foldl_cons, ih, hfirst]
      rw [hnumbers]
      exact fun other hother => h other (List.mem_cons_of_mem _ hother)

theorem cleared_cleared (g : IndexedProgram) : g.cleared.cleared = g.cleared := by
  simp [cleared]

theorem entries_cleared (g : IndexedProgram) : g.cleared.entries = g.entries := by
  simp [cleared, entries, List.flatMap_map]

theorem IsConsistent.mem_numbers_iff {g : IndexedProgram} (h : g.IsConsistent) {a : Address} :
    a ∈ g.numbers ↔ a ∈ g.points.map (·.address) := by
  rw [← Std.HashMap.isSome_getElem?_iff_mem, Option.isSome_iff_exists, List.mem_iff_getElem?]
  simp only [h.numbers, List.getElem?_map]

theorem IsConsistent.cleared_relink {g : IndexedProgram} (h : g.IsConsistent) : g.relink.cleared = g.cleared := by
  rw [relink, cleared_foldl_linkTo, cleared_cleared]
  intro entry hentry
  change entry.1 ∈ g.numbers
  obtain ⟨point, hpoint, number, hnumber, hmem⟩ : ∃ point ∈ g.points, ∃ number ∈ point.leaving,
      entry ∈ (g.arrows[number]?.elim [] (·.destinations)).map (·, number) := by
    simpa [entries] using hentry
  obtain ⟨e, he, -⟩ := (h.leaving_source hpoint).1 hnumber
  rw [he, Option.elim_some] at hmem
  obtain ⟨a, ha, rfl⟩ := List.mem_map.1 hmem
  exact h.mem_numbers_iff.2 (h.target_mem (List.mem_of_getElem? he) (IndexedArrow.mem_destinations_iff.1 ha))

theorem IsConsistent.relink_relink {g : IndexedProgram} (h : g.IsConsistent) : g.relink.relink = g.relink := by
  rw [relink, ← entries_cleared, h.cleared_relink, entries_cleared]
  rfl

theorem IsConsistent.relink_rearranges {g : IndexedProgram} (h : g.IsConsistent) (h' : g.relink.IsConsistent) :
    g.relink.Rearranges g := by
  have hcleared := h.cleared_relink
  have harrows : g.relink.arrows = g.arrows := (congrArg IndexedProgram.arrows hcleared :)
  refine ⟨harrows, (congrArg IndexedProgram.numbers hcleared :), (congrArg IndexedProgram.start hcleared :), ?_⟩
  have hpoints : g.relink.points.map (fun point => { point with arriving := [] }) =
      g.points.map fun point => { point with arriving := [] } := congrArg IndexedProgram.points hcleared
  rw [← List.forall₂_eq_eq_eq, List.forall₂_map_left_iff, List.forall₂_map_right_iff, List.forall₂_iff_get] at hpoints
  refine List.forall₂_iff_get.2 ⟨hpoints.1, fun i hi hi' => ?_⟩
  have hnew := List.get_mem g.relink.points ⟨i, hi⟩
  have hold := List.get_mem g.points ⟨i, hi'⟩
  obtain ⟨haddress, hleaving, -⟩ := IndexedPoint.mk.inj (hpoints.2 i hi hi')
  refine ⟨haddress, hleaving, ?_⟩
  refine (List.perm_ext_iff_of_nodup (h'.arriving_nodup hnew) (h.arriving_nodup hold)).2 fun number => ?_
  rw [h'.arriving_iff hnew, h.arriving_iff hold, harrows, haddress]

/-- Whatever changes a program has gone through, its indexes are consistent and represent the program. Linking its
arrows anew rearranges the lists of arriving arrows, and has no effect the second time. -/
theorem indexes_consistent (changes : List Change) :
    (ofChanges changes).Represents (Program.ofChanges changes) ∧ (ofChanges changes).IsConsistent ∧
      (ofChanges changes).relink.Rearranges (ofChanges changes) ∧
        (ofChanges changes).relink.relink = (ofChanges changes).relink := by
  have hrepresents := represents_ofChanges changes
  have hbuilt := Program.built_ofChanges changes
  have hconsistent := hrepresents.isConsistent hbuilt
  have hrelinked := hrepresents.relink.isConsistent hbuilt.relink
  exact ⟨hrepresents, hconsistent, hconsistent.relink_rearranges hrelinked, hconsistent.relink_relink⟩

end IndexedProgram
end Backslice
