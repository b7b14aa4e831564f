import Backslice.Proofs.WorklistInvariant
import Mathlib

/-!
# The settled contexts are the least solution

The watched locations of a program and its seeds are determined point by point:
they are the least sets that have every seed at its point and, with a location
behind an arrow, the elements of the set before the arrow of this location
alone. Where sets are flattened, the contexts never exceed these sets, and are
these sets when nothing is left to be passed. So it does not matter in which
order arrows arrive, seeds are entered and steps are taken.
-/

namespace Backslice

open Term ConditionalSet

/-- The locations to watch at each point: the seeds, and what an arrow makes of one of them behind it. -/
inductive Program.Relevant (p : Program) (options : Options) (seeds : List Seed) : Address → Term → Prop
  | seed {e : Seed} (he : e ∈ seeds) : Relevant p options seeds e.point e.location
  | arrow {arrow : Arrow} {a : Address} {m l : Term} {set : ConditionalSet} {names names' : Fresh}
      (harrow : arrow ∈ p.arrows) (htarget : arrow.target = .fixed a) (hm : Relevant p options seeds a m)
      (hbefore : (ofList [m]).before options arrow names = .ok (set, names')) (hl : l ∈ set.possibleValues) :
      Relevant p options seeds arrow.source l

namespace Program

/-- Which locations to watch is a matter of the arrows and the seeds alone, not of their order. -/
theorem Relevant.of_subset {p q : Program} {options : Options} {seeds seeds' : List Seed} {a : Address} {l : Term}
    (harrows : ∀ arrow ∈ p.arrows, arrow ∈ q.arrows) (hseeds : ∀ e ∈ seeds, e ∈ seeds')
    (h : p.Relevant options seeds a l) : q.Relevant options seeds' a l := by
  induction h with
  | seed he => exact .seed (hseeds _ he)
  | arrow harrow htarget _ hbefore hl ih => exact .arrow (harrows _ harrow) htarget ih hbefore hl

section
variable {p : Program} {seeds : List Seed} (harrows : ∀ arrow ∈ p.arrows, arrow.statement.IsPlain) (guarded : Bool)
include harrows

theorem exists_before_ofList {arrow : Arrow} (harrow : arrow ∈ p.arrows) {m : Term} (hm : m.IsLocation)
    (names : Fresh) : ∃ set names', (ofList [m]).before ⟨guarded, true⟩ arrow names = .ok (set, names') ∧
      ∀ l, l ∈ set.possibleValues ↔ l ∈ arrow.statement.elementsBefore m := by
  have hlocation : ∀ e ∈ [m], e.IsLocation := fun e he => List.mem_singleton.1 he ▸ hm
  obtain ⟨set, names', hbefore, -, helements⟩ :=
    exists_before_explicit guarded names (isExplicit_ofList hlocation) (harrows arrow harrow)
  refine ⟨set, names', hbefore, fun l => ?_⟩
  rw [helements]
  simp [mem_possibleValues_ofList hlocation]

theorem closed_relevant : p.Closed seeds (p.Relevant ⟨guarded, true⟩ seeds) where
  seed _ he := .seed he
  arrow harrow htarget hlocation hm hl := by
    obtain ⟨set, names', hbefore, helements⟩ := exists_before_ofList harrows guarded harrow hlocation ⟨0⟩
    exact .arrow harrow htarget hm hbefore ((helements _).2 hl)

/-- The relevant locations are in every closed family of sets of locations. -/
theorem Relevant.of_closed {family : Address → Term → Prop} (hclosed : p.Closed seeds family)
    (hlocation : ∀ a m, family a m → m.IsLocation) {a : Address} {l : Term}
    (h : p.Relevant ⟨guarded, true⟩ seeds a l) : family a l := by
  induction h with
  | seed he => exact hclosed.seed _ he
  | @arrow arrow a m l set names names' harrow htarget _ hbefore hl ih =>
      have hm := hlocation a m ih
      obtain ⟨set', names'', hbefore', helements⟩ := exists_before_ofList harrows guarded harrow hm names
      obtain ⟨rfl, -⟩ := Prod.mk.inj (Except.ok.inj (hbefore.symm.trans hbefore'))
      exact hclosed.arrow harrow htarget hm ih ((helements l).1 hl)

end

end Program

namespace Analysis

section
variable {p : Program} {guarded : Bool} {seeds : List Seed} {s : Analysis} (hp : p.Built)
  (harrows : ∀ arrow ∈ p.arrows, arrow.statement.IsPlain) (hseeds : ∀ e ∈ seeds, e.location.IsLocation)
  (hs : Reaches p ⟨guarded, true⟩ seeds s)
include hp harrows hseeds hs

theorem Reaches.relevant {a : Address} {l : Term} (hl : l ∈ (s.watched a).possibleValues) :
    p.Relevant ⟨guarded, true⟩ seeds a l :=
  (hs.invariant hp harrows hseeds (p.closed_relevant harrows guarded)).within a l hl

theorem Reaches.mem_watched_iff (hsettled : s.pending = []) (a : Address) (l : Term) :
    l ∈ (s.watched a).possibleValues ↔ p.Relevant ⟨guarded, true⟩ seeds a l := by
  have hinvariant := hs.invariant hp harrows hseeds (p.closed_relevant harrows guarded)
  constructor
  · exact hs.relevant hp harrows hseeds
  · exact Program.Relevant.of_closed harrows guarded (hinvariant.closed hsettled)
      fun b m hm => (hinvariant.explicit.watched b).isLocation hm

end

/-- In every state that an analysis reaches, the watched locations are relevant, and when nothing waits they are the
relevant locations; so they are those of any other analysis of the same arrows and seeds in other orders. -/
theorem watched_least {p : Program} {guarded : Bool} {seeds : List Seed} {s : Analysis} (hp : p.Built)
    (harrows : ∀ arrow ∈ p.arrows, arrow.statement.IsPlain) (hseeds : ∀ e ∈ seeds, e.location.IsLocation)
    (hs : Reaches p ⟨guarded, true⟩ seeds s) :
    (∀ a, ∀ l ∈ (s.watched a).possibleValues, p.Relevant ⟨guarded, true⟩ seeds a l) ∧
      (s.pending = [] → ∀ a l, l ∈ (s.watched a).possibleValues ↔ p.Relevant ⟨guarded, true⟩ seeds a l) ∧
      ∀ (q : Program) (seeds' : List Seed) (s' : Analysis), q.Built → (∀ arrow, arrow ∈ q.arrows ↔ arrow ∈ p.arrows) →
        (∀ e, e ∈ seeds' ↔ e ∈ seeds) → Reaches q ⟨guarded, true⟩ seeds' s' → s.pending = [] → s'.pending = [] →
          ∀ a l, l ∈ (s'.watched a).possibleValues ↔ l ∈ (s.watched a).possibleValues := by
  refine ⟨fun a l => hs.relevant hp harrows hseeds, hs.mem_watched_iff hp harrows hseeds, ?_⟩
  intro q seeds' s' hq hsame hsameSeeds hs' hsettled hsettled' a l
  have harrows' : ∀ arrow ∈ q.arrows, arrow.statement.IsPlain := fun arrow h => harrows arrow ((hsame arrow).1 h)
  have hseeds' : ∀ e ∈ seeds', e.location.IsLocation := fun e h => hseeds e ((hsameSeeds e).1 h)
  rw [hs'.mem_watched_iff hq harrows' hseeds' hsettled', hs.mem_watched_iff hp harrows hseeds hsettled]
  constructor
  · exact Program.Relevant.of_subset (fun arrow => (hsame arrow).1) fun e => (hsameSeeds e).1
  · exact Program.Relevant.of_subset (fun arrow => (hsame arrow).2) fun e => (hsameSeeds e).2

/-- A register is loaded from memory, on the way from the first point to the second. -/
def load : Arrow :=
  ⟨⟨0, 0⟩, none, .assign (.reg "r1" 0 0) (.mem (.reg "r2" 0 0)), .fixed ⟨1, 0⟩⟩

/-- The way back. -/
def goBack : Arrow :=
  ⟨⟨1, 0⟩, none, .skip, .fixed ⟨0, 0⟩⟩

/-- The loaded register, seen at the second point. -/
def loadedRegister : Seed :=
  ⟨⟨1, 0⟩, .reg "r1" 0 0⟩

def loadingLoop : Program :=
  (Program.addArrow {} load).addArrow goBack

/-- The same loop, with its arrows added the other way round. -/
def reversedLoop : Program :=
  (Program.addArrow {} goBack).addArrow load

def settledLoop : Analysis :=
  ((Analysis.seed loadingLoop {} loadedRegister).run loadingLoop ⟨true, true⟩ 5).1

theorem watched_least_loadingLoop :
    loadingLoop.Built ∧ (∀ arrow ∈ loadingLoop.arrows, arrow.statement.IsPlain) ∧
      (∀ e ∈ [loadedRegister], e.location.IsLocation) ∧
      Reaches loadingLoop ⟨true, true⟩ [loadedRegister] settledLoop ∧ settledLoop.pending = [] ∧ reversedLoop.Built ∧
      (∀ a l, l ∈ (settledLoop.watched a).possibleValues ↔
        loadingLoop.Relevant ⟨true, true⟩ [loadedRegister] a l) ∧
      ∀ s', Reaches reversedLoop ⟨true, true⟩ [loadedRegister, loadedRegister] s' → s'.pending = [] →
        ∀ a l, l ∈ (s'.watched a).possibleValues ↔ l ∈ (settledLoop.watched a).possibleValues := by
  have hp : loadingLoop.Built := (Program.Built.empty.addArrow load).addArrow goBack
  have hq : reversedLoop.Built := (Program.Built.empty.addArrow goBack).addArrow load
  have harrows : ∀ arrow ∈ loadingLoop.arrows, arrow.statement.IsPlain := by
    change ∀ arrow ∈ [load, goBack], arrow.statement.IsPlain
    simp only [List.forall_mem_cons]
    exact ⟨⟨⟨rfl, by decide⟩, by decide⟩, trivial, nofun⟩
  have hseeds : ∀ e ∈ [loadedRegister], e.location.IsLocation := by
    intro e he
    rw [List.mem_singleton.1 he]
    exact ⟨rfl, by decide⟩
  have hs : Reaches loadingLoop ⟨true, true⟩ [loadedRegister] settledLoop := .run (.seed (.new ⟨0⟩) loadedRegister) 5
  have hsettled : settledLoop.pending = [] := by cbv
  obtain ⟨-, hleast, hsame⟩ := watched_least hp harrows hseeds hs
  refine ⟨hp, harrows, hseeds, hs, hsettled, hq, hleast hsettled, fun s' hs' hsettled' => ?_⟩
  refine hsame reversedLoop _ s' hq (fun arrow => ?_) (fun e => ?_) hs' hsettled hsettled'
  · change arrow ∈ [goBack, load] ↔ arrow ∈ [load, goBack]
    simp [or_comm]
  · simp

end Analysis
end Backslice
