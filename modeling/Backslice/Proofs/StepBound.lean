import Backslice.Proofs.Convergence
import Backslice.Proofs.QueueDiscipline
import Backslice.Proofs.SubtermAgreement
import Mathlib

/-!
# A bound on the steps of an analysis of registers

Where no memory is read and none is written, only register cells are ever
watched, and only those that occur in the seeds and in the assigned values. A
point then gets its first context once, and after that one more cell at a time,
as many times as there are cells. Every time, the arrows that lead to it are
woken once; and after the seeds have been entered, no arrow waits twice. So the
number of arrows and the number of cells bound the number of steps, on any graph
and for any seeds.
-/

namespace Backslice

open Term

/-- Whether a statement assigns a register, if it assigns at all, and a value that reads no memory and has no names of
the analysis. -/
def Statement.StaysInRegisters : Statement → Prop
  | .assign r v => r.isRegister = true ∧ v.Plain ∧ ¬v.ReadsMemory
  | _ => True

/-- The value that an arrow assigns. -/
def Arrow.assignedValue? (arrow : Arrow) : Option Term :=
  match arrow.statement with
  | .assign _ v => some v
  | _ => none

/-- The register cells that occur in the seeds and in the values that a program assigns, each of them once. -/
def Program.registerCells (p : Program) (seeds : List Seed) : List Term :=
  (((seeds.map (·.location) ++ p.arrows.filterMap Arrow.assignedValue?).flatMap subterms).filter isRegister).eraseDups

theorem Term.isLocation_of_isRegister {t : Term} (h : t.isRegister = true) : t.IsLocation := by
  obtain ⟨n, o, k, rfl⟩ := exists_of_isRegister h
  exact ⟨rfl, by simp [Plain, subterms, isReserved]⟩

theorem Statement.StaysInRegisters.isPlain {statement : Statement} (h : statement.StaysInRegisters) :
    statement.IsPlain := by
  cases statement with
  | assign r v => exact ⟨isLocation_of_isRegister h.1, h.2.1⟩
  | jump | skip | external name => trivial

theorem Term.isRegister_of_mem_dependencies {v d : Term} (h : ¬v.ReadsMemory) (hd : d ∈ v.dependencies) :
    d.isRegister = true ∧ d ∈ v.subterms := by
  obtain ⟨hmem, hlvalue⟩ := mem_outermostLvalues (mem_dependencies.1 hd)
  rcases isLvalue_cases hlvalue with hr | ⟨a, rfl⟩
  · exact ⟨hr, hmem⟩
  · exact absurd ⟨a, hmem⟩ h

theorem Program.mem_registerCells {p : Program} {seeds : List Seed} {c t : Term} (hr : c.isRegister = true)
    (ht : t ∈ seeds.map (·.location) ++ p.arrows.filterMap Arrow.assignedValue?) (hc : c ∈ t.subterms) :
    c ∈ p.registerCells seeds :=
  List.mem_eraseDups.2 (List.mem_filter.2 ⟨List.mem_flatMap.2 ⟨t, ht, hc⟩, hr⟩)

namespace Analysis

/-- Where seeds and dependencies of values are registers of a list, nothing else is ever watched. -/
theorem closed_registers {p : Program} {seeds : List Seed} {locations : List Term}
    (hseeds : ∀ e ∈ seeds, e.location.isRegister = true ∧ e.location ∈ locations)
    (hvalues : ∀ arrow ∈ p.arrows, ∀ r v, arrow.statement = .assign r v →
      r.isLvalue = true ∧ ∀ d ∈ v.dependencies, d.isRegister = true ∧ d ∈ locations) :
    p.Closed seeds fun _ l => l.isRegister = true ∧ l ∈ locations where
  seed := hseeds
  arrow {arrow a m l} harrow _ _ hm hl := by
    have hsame : l = m.simplify → l.isRegister = true ∧ l ∈ locations := by
      rintro rfl
      rwa [isRegister_simplify hm.1]
    obtain ⟨n, o, k, rfl⟩ := exists_of_isRegister hm.1
    cases hstatement : arrow.statement with
    | assign r v =>
        obtain ⟨hlvalue, hdependencies⟩ := hvalues arrow harrow r v hstatement
        rw [hstatement] at hl
        rcases isLvalue_cases hlvalue with hr | ⟨y, rfl⟩
        · rw [Statement.elementsBefore_register hr] at hl
          split at hl
          next =>
            obtain ⟨d, hd, rfl⟩ := List.mem_map.1 hl
            rw [isRegister_simplify (hdependencies d hd).1]
            exact hdependencies d hd
          next hne =>
            have hkeep : (Term.reg n o k).replace r v = .reg n o k :=
              replace_of_not_mem (by simpa [Term.subterms] using Ne.symm hne)
            rw [hkeep] at hl
            exact hsame (List.mem_singleton.1 hl)
        · exact hsame (List.mem_singleton.1 hl)
    | jump | skip | external name =>
        rw [hstatement] at hl
        obtain rfl := List.mem_singleton.1 hl
        exact hm

theorem room_le (locations : List Term) (s : Analysis) (a : Address) : s.room locations a ≤ locations.length + 1 := by
  have hle := List.length_filter_le (fun l => decide (l ∉ (s.watched a).possibleValues)) locations
  unfold room
  split <;> omega

theorem targetRoom_le (locations : List Term) (s : Analysis) (arrow : Arrow) :
    s.targetRoom locations arrow ≤ locations.length + 1 := by
  unfold targetRoom
  split
  next a _ => exact room_le locations s a
  next => exact Nat.zero_le _

/-- Once the seeds have been entered, every arrow waits at most once, and every point has at most all its room. -/
theorem workLeft_start_le {p : Program} (hp : p.Built) (locations : List Term) (seeds : List Seed) (names : Fresh) :
    (start p seeds names).workLeft p locations ≤ p.fixedArrows.length * (locations.length + 2) := by
  have hqueued := isOrderly_start hp seeds names
  have hpending : (start p seeds names).pending.length ≤ p.fixedArrows.length := by
    refine (hqueued.nodup.subperm fun arrow hwaits => ?_).length_le
    obtain ⟨harrow, a, htarget, -⟩ := hqueued.ready arrow hwaits
    simp [Program.fixedArrows, harrow, htarget, Target.isComputed]
  have hsum : (p.fixedArrows.map ((start p seeds names).targetRoom locations)).sum ≤
      p.fixedArrows.length * (locations.length + 1) := by
    have hle := List.sum_le_card_nsmul (p.fixedArrows.map ((start p seeds names).targetRoom locations))
      (locations.length + 1) (List.forall_mem_map.2 fun arrow _ => targetRoom_le locations _ arrow)
    rwa [List.length_map, smul_eq_mul] at hle
  calc (start p seeds names).workLeft p locations
      ≤ p.fixedArrows.length + p.fixedArrows.length * (locations.length + 1) := Nat.add_le_add hpending hsum
    _ = p.fixedArrows.length * (locations.length + 2) := by ring

/-- If seeds and dependencies of values are registers of a list, the list bounds the number of steps. -/
theorem run_ends_of_registers {p : Program} (hp : p.Built) (harrows : ∀ arrow ∈ p.arrows, arrow.statement.IsPlain)
    (guarded : Bool) {seeds : List Seed} {locations : List Term}
    (hseeds : ∀ e ∈ seeds, e.location.isRegister = true ∧ e.location ∈ locations)
    (hvalues : ∀ arrow ∈ p.arrows, ∀ r v, arrow.statement = .assign r v →
      ∀ d ∈ v.dependencies, d.isRegister = true ∧ d ∈ locations) (names : Fresh) {limit : Nat}
    (hle : p.fixedArrows.length * (locations.length + 2) ≤ limit) :
    ((start p seeds names).run p ⟨guarded, true⟩ limit).2 = .ok true := by
  have hassigns := Program.assignsLvalues_of_isPlain harrows
  have hclosed : p.Closed seeds fun _ l => l.isRegister = true ∧ l ∈ locations := by
    refine closed_registers hseeds fun arrow harrow r v hstatement => ⟨?_, hvalues arrow harrow r v hstatement⟩
    exact hassigns arrow harrow r (by rw [Arrow.assigned?, hstatement]; rfl)
  have hlocations : ∀ e ∈ seeds, e.location.IsLocation := fun e he => isLocation_of_isRegister (hseeds e he).1
  have hwithin : ∀ limit remaining a,
      ∀ l ∈ (((start p seeds names).runFrom p ⟨guarded, true⟩ limit remaining).1.watched a).possibleValues,
        l ∈ locations := by
    intro limit remaining a l hl
    rw [watched, context?, contexts_runFrom limit remaining] at hl
    have hreaches := (Reaches.start p ⟨guarded, true⟩ seeds names).run remaining
    exact ((hreaches.invariant hp harrows hlocations hclosed).within a l hl).2
  have hready := (Reaches.start p ⟨guarded, true⟩ seeds names).isReady hp
  exact runFrom_of_workLeft_le hp hassigns guarded locations (start_flat p seeds names) hready hwithin
    ((workLeft_start_le hp locations seeds names).trans hle)

/-- Without memory, an analysis over flat sets ends. For every arrow with a fixed target it takes at most as many steps
as there are register cells in seeds and assigned values, and two more. -/
theorem run_ends_within {p : Program} (hp : p.Built)
    (hstatements : ∀ arrow ∈ p.arrows, arrow.statement.StaysInRegisters) (guarded : Bool) {seeds : List Seed}
    (hseeds : ∀ e ∈ seeds, e.location.isRegister = true) (names : Fresh) :
    ((start p seeds names).run p ⟨guarded, true⟩
      (p.fixedArrows.length * ((p.registerCells seeds).length + 2))).2 = .ok true := by
  refine run_ends_of_registers hp (fun arrow harrow => (hstatements arrow harrow).isPlain) guarded
    (fun e he => ⟨hseeds e he, ?_⟩) (fun arrow harrow r v hstatement d hd => ?_) names (Nat.le_refl _)
  · have hseed : e.location ∈ seeds.map (·.location) := List.mem_map_of_mem he
    exact Program.mem_registerCells (hseeds e he) (List.mem_append_left _ hseed) (mem_subterms_self _)
  · have hstays := hstatements arrow harrow
    rw [hstatement] at hstays
    obtain ⟨hr, hmem⟩ := isRegister_of_mem_dependencies hstays.2.2 hd
    have hvalue : v ∈ p.arrows.filterMap Arrow.assignedValue? :=
      List.mem_filterMap.2 ⟨arrow, harrow, by rw [Arrow.assignedValue?, hstatement]⟩
    exact ⟨hr, Program.mem_registerCells hr (List.mem_append_right _ hvalue) hmem⟩

/-- A register is moved on by what is added to it, and both may be passed over. -/
def accumulate : Arrow :=
  ⟨⟨0, 0⟩, none, .assign (.reg "a" 0 0) (.binary .add (.reg "a" 0 0) (.reg "b" 0 8)), .fixed ⟨1, 0⟩⟩

/-- What is added comes from another register, every time around. -/
def fetch : Arrow :=
  ⟨⟨1, 0⟩, some (.reg "c" 0 0), .assign (.reg "b" 0 8) (.reg "c" 0 0), .fixed ⟨0, 0⟩⟩

def passOver : Arrow :=
  ⟨⟨0, 0⟩, none, .skip, .fixed ⟨1, 0⟩⟩

def leave : Arrow :=
  ⟨⟨1, 0⟩, none, .jump, .computed (.reg "ra" 0 0)⟩

def accumulatingLoop : Program :=
  (((Program.addArrow {} accumulate).addArrow fetch).addArrow passOver).addArrow leave

/-- The sum, seen after it has been accumulated. -/
def accumulated : Seed :=
  ⟨⟨1, 0⟩, .reg "a" 0 0⟩

/-- Three arrows with fixed targets and three register cells: fifteen steps are enough, and one is not. -/
theorem run_ends_within_accumulatingLoop :
    accumulatingLoop.Built ∧ (∀ arrow ∈ accumulatingLoop.arrows, arrow.statement.StaysInRegisters) ∧
      (∀ e ∈ [accumulated], e.location.isRegister = true) ∧ accumulatingLoop.fixedArrows.length = 3 ∧
      (accumulatingLoop.registerCells [accumulated]).length = 3 ∧
      ((start accumulatingLoop [accumulated] ⟨0⟩).run accumulatingLoop Options.slicing 1).2 = .ok false ∧
      ((start accumulatingLoop [accumulated] ⟨0⟩).run accumulatingLoop Options.slicing 15).2 = .ok true := by
  have hbuilt : accumulatingLoop.Built :=
    (((Program.Built.empty.addArrow accumulate).addArrow fetch).addArrow passOver).addArrow leave
  have hstatements : ∀ arrow ∈ accumulatingLoop.arrows, arrow.statement.StaysInRegisters := by
    change ∀ arrow ∈ [accumulate, fetch, passOver, leave], arrow.statement.StaysInRegisters
    simp [Statement.StaysInRegisters, accumulate, fetch, passOver, leave, isRegister, Plain, ReadsMemory, subterms,
      isReserved]
  have hseeds : ∀ e ∈ [accumulated], e.location.isRegister = true := by decide
  have harrows : accumulatingLoop.fixedArrows.length = 3 := by decide
  have hcells : (accumulatingLoop.registerCells [accumulated]).length = 3 := by decide
  have hends := run_ends_within hbuilt hstatements true hseeds ⟨0⟩
  rw [harrows, hcells] at hends
  exact ⟨hbuilt, hstatements, hseeds, harrows, hcells, by cbv, hends⟩

end Analysis
end Backslice
