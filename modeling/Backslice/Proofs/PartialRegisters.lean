import Backslice.Proofs.Closure
import Backslice.Proofs.Execution
import Backslice.Proofs.SliceCompleteness
import Mathlib

/-!
# Slices and parts of registers

An assignment to a register cell belongs to a slice if this cell, as it stands,
occurs in a watched location. To share bits with such a cell is not enough. Which
cells occur there is known beforehand: all of them are cells that the seeds or
the arrows mention. So if no two different ones of these share bits, the slice
has every assignment to a cell of which a watched location reads a bit. If two
of them do, it can miss one, and no warning says so.
-/

namespace Backslice

open Term ConditionalSet

namespace Analysis

/-- Whether all contexts have a property. -/
def Carries (P : Term → Prop) (s : Analysis) : Prop :=
  ∀ a t, s.context? a = some t → P t

section
variable {p : Program} {P : Term → Prop} {s : Analysis} (hp : p.Built) (hP : IsNamed P)

theorem Carries.enter (h : s.Carries P) (p : Program) (a : Address) {t : ConditionalSet} (ht : P t) :
    ((s.setContext a t).enqueueArriving p a).Carries P := by
  intro b u hu
  rw [context?_enqueueArriving] at hu
  by_cases hb : b = a
  · rw [hb, context?_setContext_self] at hu
    exact Option.some.inj hu ▸ ht
  · rw [context?_setContext_of_ne s t hb] at hu
    exact h b u hu

include hP

theorem Carries.watched (h : s.Carries P) (a : Address) : P (s.watched a) := by
  unfold Analysis.watched
  cases hcontext : s.context? a with
  | none => exact hP.bool false
  | some t => exact h a t hcontext

theorem Carries.join (h : s.Carries P) (p : Program) (a : Address) {set : ConditionalSet} (hset : P set) :
    (s.join p a set).Carries P := by
  unfold Analysis.join
  split
  next => exact h.enter p a hset
  next context hsome =>
    dsimp only
    split
    next => exact h
    next =>
      rw [share_eq]
      exact h.enter p a (hP.union (h a context hsome) hset)

theorem Carries.seed (h : s.Carries P) (p : Program) {e : Seed} (he : P e.location) : (s.seed p e).Carries P :=
  h.enter p e.point (hP.add (h.watched hP e.point) he)

theorem carries_start (p : Program) {seeds : List Seed} (hseeds : ∀ e ∈ seeds, P e.location) (names : Fresh) :
    (start p seeds names).Carries P :=
  List.foldlRecOn (motive := Carries P) _ _ nofun fun _ hs e he => hs.seed hP p (hseeds e he)

variable (harrows : ∀ arrow ∈ p.arrows, (∀ g ∈ arrow.guard, P g) ∧ IsHereditary.OfStatement P arrow.statement)
include harrows

theorem Carries.step (hready : s.IsReady p) (h : s.Carries P) (options : Options) :
    (s.step p options).1.Carries P := by
  refine step_cases (fun _ => h) (fun _ => h) fun {arrow rest a context set names} hpending _ hsome hbefore => ?_
  obtain ⟨harrow, -⟩ := hready arrow (by rw [hpending]; exact List.mem_cons_self)
  obtain ⟨hguard, hstatement⟩ := harrows arrow harrow
  have hset : P set :=
    hP.before (h a context hsome) options hguard hstatement (hP.placeholders arrow.statement _) hbefore
  have htaken : Carries P { s with pending := rest, steps := s.steps + 1, names } := h
  exact htaken.join hP p arrow.source hset

include hp in
theorem Carries.run (hready : s.IsReady p) (h : s.Carries P) (options : Options) (limit : Nat) :
    (s.run p options limit).1.Carries P :=
  (runFrom_induction (motive := fun t => t.IsReady p ∧ t.Carries P) limit
    (fun _ ht => ⟨ht.1.step hp options, ht.2.step hP harrows ht.1 options⟩) (fun _ ht => ht) (fun _ _ ht => ht) limit
    ⟨hready, h⟩).2

end

end Analysis

/-- The guard of an arrow, and the terms of its assignment. -/
def Arrow.terms (arrow : Arrow) : List Term :=
  arrow.guard.toList ++ match arrow.statement with
    | .assign location value => [location, value]
    | _ => []

/-- The terms in the seeds, and in the guards and assignments of a program. -/
def Program.termsWith (p : Program) (seeds : List Seed) : List Term :=
  (seeds.map (·.location) ++ p.arrows.flatMap Arrow.terms).flatMap subterms

theorem Program.mem_termsWith_of_seed {p : Program} {seeds : List Seed} {e : Seed} {c : Term} (he : e ∈ seeds)
    (hc : c ∈ e.location.subterms) : c ∈ p.termsWith seeds :=
  List.mem_flatMap.2 ⟨_, List.mem_append_left _ (List.mem_map_of_mem he), hc⟩

theorem Program.mem_termsWith_of_arrow {p : Program} {seeds : List Seed} {arrow : Arrow} {t c : Term}
    (harrow : arrow ∈ p.arrows) (ht : t ∈ arrow.terms) (hc : c ∈ t.subterms) : c ∈ p.termsWith seeds :=
  List.mem_flatMap.2 ⟨t, List.mem_append_right _ (List.mem_flatMap_of_mem harrow ht), hc⟩

theorem Arrow.forall_terms_iff {P : Term → Prop} {arrow : Arrow} :
    (∀ t ∈ arrow.terms, P t) ↔ (∀ g ∈ arrow.guard, P g) ∧ IsHereditary.OfStatement P arrow.statement := by
  rw [terms, List.forall_mem_append]
  refine and_congr (by simp) ?_
  cases arrow.statement <;> simp [IsHereditary.OfStatement]

/-- Whether all register cells in a term are among some. -/
def Term.HasCellsIn (cells : Term → Prop) (t : Term) : Prop :=
  ∀ c ∈ t.subterms, c.isRegister = true → cells c

theorem Term.isNamed_hasCellsIn (cells : Term → Prop) : IsNamed (HasCellsIn cells) where
  toIsInherited := isInherited_forall_subterms fun t ht hr => by
    obtain ⟨n, o, k, rfl⟩ := exists_of_isRegister hr
    cases ht
  var name := by simp [HasCellsIn, subterms, isRegister]

theorem Term.isRegister_of_overlaps {c r : Term} (h : c.overlaps r = true) : c.isRegister = true := by
  cases c <;> first | rfl | cases h

namespace Analysis

section
variable {p : Program} {seeds : List Seed} {names : Fresh} {s : Analysis} {arrows : List Arrow} (hp : p.Built)
  (h : slice p seeds names = (s, .ok arrows)) (hwarnings : s.warnings = [])
include hp h hwarnings

/-- Watched locations read no register cells but those in the program and the seeds. -/
theorem mem_termsWith_of_mem_watched {a : Address} {d c : Term} (hd : d ∈ (s.watched a).possibleValues)
    (hc : c ∈ d.subterms) (hr : c.isRegister = true) : c ∈ p.termsWith seeds := by
  have hnamed := isNamed_hasCellsIn (· ∈ p.termsWith seeds)
  have harrow : ∀ arrow ∈ p.arrows, ∀ t ∈ arrow.terms, HasCellsIn (· ∈ p.termsWith seeds) t :=
    fun _ harrow _ ht _ hc _ => Program.mem_termsWith_of_arrow harrow ht hc
  have hready := (Reaches.start p Options.slicing seeds names).isReady hp
  have hstart : (start p seeds names).Carries (HasCellsIn (· ∈ p.termsWith seeds)) :=
    carries_start hnamed p (fun _ he _ hc _ => Program.mem_termsWith_of_seed he hc) names
  have hrun := hstart.run hp hnamed (fun arrow hmem => Arrow.forall_terms_iff.1 (harrow arrow hmem)) hready
    Options.slicing p.points.length
  obtain ⟨-, -, hcontexts⟩ := slice_without_warnings h hwarnings
  have hwatched := hrun.watched hnamed a
  rw [watched, context?, ← hcontexts] at hwatched
  exact hnamed.possibleValues hwatched d hd c hc hr

/-- Without any warning, an assignment to a register cell is in the slice if and only if a watched location contains
this cell. If no two different cells of the program and the seeds share bits, it is there if and only if a watched
location reads a bit of the cell. -/
theorem register_mem_slice_iff {arrow : Arrow} {r v : Term} {a : Address} (harrow : arrow ∈ p.arrows)
    (hassign : arrow.statement = .assign r v) (hr : r.isRegister = true) (hknown : arrow.target.known? = some a) :
    (arrow ∈ arrows ↔ ∃ d ∈ (s.watched a).possibleValues, r ∈ d.subterms) ∧
      ((∀ c ∈ p.termsWith seeds, ∀ c' ∈ p.termsWith seeds, c.overlaps c' = true → c = c') →
        (arrow ∈ arrows ↔ ∃ d ∈ (s.watched a).possibleValues, d.reads r = true)) := by
  obtain ⟨n, o, k, rfl⟩ := exists_of_isRegister hr
  have hcontains : arrow ∈ arrows ↔ ∃ d ∈ (s.watched a).possibleValues, .reg n o k ∈ d.subterms := by
    obtain ⟨rfl, -, -⟩ := slice_without_warnings h hwarnings
    rw [Program.touching, List.mem_filter, hp.mem_orderedArrows, isTouched_iff]
    simp [harrow, Arrow.assigned?, hassign, hknown, touches_iff, isMemoryCell]
  refine ⟨hcontains, fun hdistinct => hcontains.trans ?_⟩
  constructor
  · rintro ⟨d, hd, hsub⟩
    exact ⟨d, hd, reads_iff.2 ⟨_, hsub, overlaps_self n o k⟩⟩
  · rintro ⟨d, hd, hreads⟩
    obtain ⟨c, hc, hoverlaps⟩ := reads_iff.1 hreads
    have hmentioned := mem_termsWith_of_mem_watched hp h hwarnings hd hc (isRegister_of_overlaps hoverlaps)
    have hassigned : Term.reg n o k ∈ arrow.terms := by simp [Arrow.terms, hassign]
    have hmentioned' : Term.reg n o k ∈ p.termsWith seeds :=
      Program.mem_termsWith_of_arrow harrow hassigned (mem_subterms_self _)
    obtain rfl := hdistinct c hmentioned _ hmentioned' hoverlaps
    exact ⟨d, hd, hc⟩

end

/-- The lowest byte of a register is set, on the way from the first point to the second. -/
def setLowByte : Arrow :=
  ⟨⟨0, 0⟩, none, .assign (.reg "eax" 0 8) (.const 1), .fixed ⟨1, 0⟩⟩

/-- On the way to the third point, the byte beside it is set. -/
def setHighByte : Arrow :=
  ⟨⟨1, 0⟩, none, .assign (.reg "eax" 8 8) (.const 2), .fixed ⟨2, 0⟩⟩

/-- The lowest byte, seen at the third point. -/
def lowByte : Seed :=
  ⟨⟨2, 0⟩, .reg "eax" 0 8⟩

def setBytes : Program :=
  (Program.addArrow {} setLowByte).addArrow setHighByte

theorem register_mem_slice_iff_setBytes :
    ∃ s, setBytes.Built ∧ slice setBytes [lowByte] ⟨0⟩ = (s, .ok [setLowByte]) ∧ s.warnings = [] ∧
      setLowByte ∈ setBytes.arrows ∧ setLowByte.statement = .assign (.reg "eax" 0 8) (.const 1) ∧
      (Term.reg "eax" 0 8).isRegister = true ∧ setLowByte.target.known? = some ⟨1, 0⟩ ∧
      (∀ c ∈ setBytes.termsWith [lowByte], ∀ c' ∈ setBytes.termsWith [lowByte], c.overlaps c' = true → c = c') ∧
      ∃ d ∈ (s.watched ⟨1, 0⟩).possibleValues, d.reads (.reg "eax" 0 8) = true := by
  have hp : setBytes.Built := (Program.Built.empty.addArrow setLowByte).addArrow setHighByte
  have hkept : (slice setBytes [lowByte] ⟨0⟩).2 = .ok [setLowByte] := by cbv
  have hslice : slice setBytes [lowByte] ⟨0⟩ = (_, .ok [setLowByte]) := Prod.ext rfl hkept
  have hwarnings : (slice setBytes [lowByte] ⟨0⟩).1.warnings = [] := by cbv
  have harrow : setLowByte ∈ setBytes.arrows := by decide
  have hdistinct : ∀ c ∈ setBytes.termsWith [lowByte], ∀ c' ∈ setBytes.termsWith [lowByte],
      c.overlaps c' = true → c = c' := by decide
  have hiff := (register_mem_slice_iff hp hslice hwarnings harrow rfl rfl rfl).2 hdistinct
  exact ⟨_, hp, hslice, hwarnings, harrow, rfl, rfl, rfl, hdistinct, hiff.1 (List.mem_singleton_self _)⟩

/-- The whole register, seen where its lowest byte has just been set. -/
def wholeRegister : Seed :=
  ⟨⟨1, 0⟩, .reg "eax" 0 0⟩

def setLowByteOnly : Program :=
  Program.addArrow {} setLowByte

/-- The lowest byte is not the whole register as it stands, so nothing is said to influence the register. -/
theorem slice_misses_byte :
    ∃ s, slice setLowByteOnly [wholeRegister] ⟨0⟩ = (s, .ok []) ∧ s.warnings = [] ∧
      setLowByte ∈ setLowByteOnly.arrows ∧ setLowByte.assigned? = some (.reg "eax" 0 8) ∧
      setLowByte.target.known? = some ⟨1, 0⟩ ∧
      ∃ d ∈ (s.watched ⟨1, 0⟩).possibleValues, d.reads (.reg "eax" 0 8) = true := by
  have hkept : (slice setLowByteOnly [wholeRegister] ⟨0⟩).2 = .ok [] := by cbv
  have hvalues : ((slice setLowByteOnly [wholeRegister] ⟨0⟩).1.watched ⟨1, 0⟩).possibleValues = [.reg "eax" 0 0] := by
    cbv
  refine ⟨(slice setLowByteOnly [wholeRegister] ⟨0⟩).1, Prod.ext rfl hkept, by cbv, by decide, rfl, rfl, ?_⟩
  rw [hvalues]
  decide

end Analysis
end Backslice
