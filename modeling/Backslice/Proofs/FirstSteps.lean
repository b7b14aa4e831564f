import Backslice.Proofs.ProgramIndexes
import Backslice.Proofs.Search
import Mathlib

/-!
# Where an instruction is entered

The first micro-steps from which a point is reached inside of its instruction
are found by a search backward. The search is a loop with one queue: every
source of an arrow to the point at its front is tested for being inside of the
instruction, then for being a first micro-step that is not listed yet, and then
for being new. The point it starts from counts as visited from the beginning,
and yet is listed when an arrow leaves it on a way back to it.

The invariant of the loop is that the sources of what has left the queue have
been listed. What has ever been in the queue is what breadth-first search finds.
-/

namespace Backslice
namespace Program

/-- One arrow inside of an instruction, from `b` to its fixed target or to an address found out for it. -/
def PassesWithin (p : Program) (instruction : UInt64) (b c : Address) : Prop :=
  ∃ arrow ∈ p.arrows, arrow.source = b ∧ b.instruction = instruction ∧
    (arrow.target = .fixed c ∨ (arrow.target.isComputed = true ∧ (arrow, c) ∈ p.solved))

theorem mem_destinations_iff {p : Program} {arrow : Arrow} {c : Address} :
    c ∈ p.destinations arrow ↔
      arrow.target = .fixed c ∨ (arrow.target.isComputed = true ∧ (arrow, c) ∈ p.solved) := by
  cases htarget : arrow.target with
  | fixed b => simp [destinations, htarget, Target.isComputed, eq_comm]
  | computed t =>
      have hcomputed : arrow.target.isComputed = true := by rw [htarget, Target.isComputed]
      rw [mem_destinations_of_computed hcomputed]
      simp [Target.isComputed]

/-- The sources inside of an instruction are those of the arrows inside of it. -/
theorem Built.mem_sourcesWithin_iff {p : Program} (h : p.Built) {instruction : UInt64} {b c : Address} :
    b ∈ p.sourcesWithin instruction c ↔ p.PassesWithin instruction b c := by
  simp only [sourcesWithin, List.mem_filter, List.mem_map, decide_eq_true_eq, h.mem_arriving_iff_destinations,
    mem_destinations_iff, PassesWithin]
  constructor
  · rintro ⟨⟨arrow, ⟨harrow, hleads⟩, rfl⟩, hinstruction⟩
    exact ⟨arrow, harrow, rfl, hinstruction, hleads⟩
  · rintro ⟨arrow, harrow, rfl, hinstruction, hleads⟩
    exact ⟨⟨arrow, ⟨harrow, hleads⟩, rfl⟩, hinstruction⟩

theorem Built.mem_points_of_mem_sourcesWithin {p : Program} (h : p.Built) {instruction : UInt64} {b c : Address}
    (hb : b ∈ p.sourcesWithin instruction c) : b ∈ p.points := by
  obtain ⟨arrow, harrow, rfl, -⟩ := h.mem_sourcesWithin_iff.1 hb
  exact h.isLinked.source harrow

/-- The first steps listed so far, the points that have been in the queue, and the queue. -/
structure ParentSearch where
  listed : List Address
  visited : List Address
  queue : List Address

namespace ParentSearch

/-- List a first step, unless it is listed. -/
def list (s : ParentSearch) (b : Address) : ParentSearch :=
  if b.microStep = 0 ∧ b ∉ s.listed then { s with listed := s.listed ++ [b] } else s

/-- Enter a point in the queue, unless it has been there. -/
def visit (s : ParentSearch) (b : Address) : ParentSearch :=
  if b ∈ s.visited then s else { s with visited := s.visited ++ [b], queue := s.queue ++ [b] }

/-- Look at one source of an arrow. -/
def look (instruction : UInt64) (s : ParentSearch) (b : Address) : ParentSearch :=
  if b.instruction = instruction then (s.list b).visit b else s

/-- Take a point from the queue, and look at the sources of all arrows to it. -/
def advance (p : Program) (instruction : UInt64) (s : ParentSearch) : ParentSearch :=
  match s.queue with
  | [] => s
  | a :: rest => ((p.arriving a).map (·.source)).foldl (look instruction) { s with queue := rest }

/-- Nothing is listed, and only `a` is visited. -/
def start (a : Address) : ParentSearch :=
  ⟨[], [a], [a]⟩

end ParentSearch
end Program

namespace Program.ParentSearch

open Reachability

/-- The points visited and the queue, as in a breadth-first search. -/
def state (s : ParentSearch) : State Address :=
  ⟨s.visited, s.queue⟩

/-- The first steps among some addresses, each of them once. -/
def firstSteps (as : List Address) : List Address :=
  (as.filter (·.microStep = 0)).eraseDups

@[simp]
theorem state_list (s : ParentSearch) (b : Address) : (s.list b).state = s.state := by
  unfold list
  split <;> rfl

@[simp]
theorem listed_visit (s : ParentSearch) (b : Address) : (s.visit b).listed = s.listed := by
  unfold visit
  split <;> rfl

theorem listed_list {s : ParentSearch} {as : List Address} (h : s.listed = firstSteps as) (b : Address) :
    (s.list b).listed = firstSteps (as ++ [b]) := by
  have hmem : b ∈ s.listed ↔ b ∈ as.filter (·.microStep = 0) := by rw [h, firstSteps, List.mem_eraseDups]
  rw [list, firstSteps, List.filter_append, List.filter_singleton]
  by_cases hfirst : b.microStep = 0
  · rw [decide_eq_true hfirst, cond_true, List.eraseDups_concat, ← firstSteps, ← h]
    by_cases hlisted : b ∈ s.listed
    · rw [if_neg (fun hnew => hnew.2 hlisted), if_pos (hmem.1 hlisted)]
    · rw [if_pos ⟨hfirst, hlisted⟩, if_neg (mt hmem.2 hlisted)]
  · rw [decide_eq_false hfirst, cond_false, List.append_nil, ← firstSteps, ← h, if_neg (mt And.left hfirst)]

theorem state_visit {points : List Address} {b : Address} (hb : b ∈ points) (s : ParentSearch) :
    (s.visit b).state = discover points s.state b := by
  rw [visit, discover]
  by_cases hvisited : b ∈ s.visited
  · rw [if_pos hvisited, if_neg fun hnew => hnew.2 hvisited]
  · rw [if_neg hvisited, if_pos ⟨hb, hvisited⟩]
    rfl

theorem foldl_look_eq (instruction : UInt64) (bs : List Address) (s : ParentSearch) :
    bs.foldl (look instruction) s =
      (bs.filter (·.instruction = instruction)).foldl (fun s b => (s.list b).visit b) s := by
  induction bs generalizing s with
  | nil => rfl
  | cons b bs ih =>
      by_cases hb : b.instruction = instruction
      · simp only [List.foldl_cons, List.filter_cons, hb, decide_true, if_true, look, ih]
      · simp only [List.foldl_cons, List.filter_cons, hb, decide_false, look, if_false, ih, Bool.false_eq_true]

theorem state_foldl_visit {points bs : List Address} (hbs : ∀ b ∈ bs, b ∈ points) (s : ParentSearch) :
    (bs.foldl (fun s b => (s.list b).visit b) s).state = bs.foldl (discover points) s.state := by
  induction bs generalizing s with
  | nil => rfl
  | cons b bs ih =>
      rw [List.foldl_cons, ih fun c hc => hbs c (List.mem_cons_of_mem _ hc), state_visit (hbs b List.mem_cons_self),
        state_list, List.foldl_cons]

theorem listed_foldl_visit {s : ParentSearch} {as : List Address} (h : s.listed = firstSteps as) (bs : List Address) :
    (bs.foldl (fun s b => (s.list b).visit b) s).listed = firstSteps (as ++ bs) := by
  induction bs generalizing s as with
  | nil => rwa [List.append_nil]
  | cons b bs ih =>
      rw [List.foldl_cons, ih (by rw [listed_visit, listed_list h]), List.append_assoc, List.singleton_append]

section
variable {p : Program} {instruction : UInt64}

theorem advance_of_nil {s : ParentSearch} (h : s.queue = []) : s.advance p instruction = s := by
  rw [advance, h]

theorem advance_of_cons {s : ParentSearch} {a : Address} {rest : List Address} (h : s.queue = a :: rest) :
    s.advance p instruction =
      (p.sourcesWithin instruction a).foldl (fun s b => (s.list b).visit b) { s with queue := rest } := by
  rw [advance, h]
  exact foldl_look_eq instruction _ _

theorem state_advance (hp : p.Built) (instruction : UInt64) (s : ParentSearch) :
    (s.advance p instruction).state = s.state.advance p.points (p.sourcesWithin instruction) := by
  cases hqueue : s.queue with
  | nil => rw [advance_of_nil hqueue, Reachability.advance_of_nil hqueue]
  | cons a rest =>
      rw [advance_of_cons hqueue, Reachability.advance_of_cons hqueue,
        state_foldl_visit fun b hb => hp.mem_points_of_mem_sourcesWithin hb]
      rfl

/-- The sources of what has left the queue have been listed. -/
def IsListing (p : Program) (instruction : UInt64) (s : ParentSearch) : Prop :=
  ∃ done, s.visited = done ++ s.queue ∧ s.listed = firstSteps (done.flatMap (p.sourcesWithin instruction))

theorem isListing_start (a : Address) : (start a).IsListing p instruction :=
  ⟨[], rfl, rfl⟩

theorem IsListing.advance (hp : p.Built) {s : ParentSearch} (h : s.IsListing p instruction) :
    (s.advance p instruction).IsListing p instruction := by
  obtain ⟨done, hvisited, hlisted⟩ := h
  cases hqueue : s.queue with
  | nil =>
      rw [advance_of_nil hqueue]
      exact ⟨done, hvisited, hlisted⟩
  | cons a rest =>
      refine ⟨done ++ [a], ?_, ?_⟩
      · have hfound := found_foldl_discover p.points (done ++ [a]) (p.sourcesWithin instruction a)
          ⟨s.visited, rest⟩ (by simp [hvisited, hqueue])
        have hstate := state_advance hp instruction s
        rw [Reachability.advance_of_cons hqueue] at hstate
        exact (congrArg State.found hstate).trans
          (hfound.trans (congrArg (done ++ [a] ++ State.queue ·) hstate.symm))
      · rw [advance_of_cons hqueue, listed_foldl_visit (s := { s with queue := rest }) hlisted, List.flatMap_append,
          List.flatMap_singleton]

theorem isListing_iterate (hp : p.Built) (instruction : UInt64) (a : Address) (n : Nat) :
    ((advance p instruction)^[n] (start a)).IsListing p instruction := by
  induction n with
  | zero => exact isListing_start a
  | succ n ih =>
      rw [Function.iterate_succ_apply']
      exact ih.advance hp

theorem state_iterate (hp : p.Built) (a : Address) (n : Nat) :
    ((advance p instruction)^[n] (start a)).state =
      (State.advance p.points (p.sourcesWithin instruction))^[n] ⟨[a], [a]⟩ :=
  (Function.Semiconj.iterate_right (state_advance hp instruction) n) (start a)

end

/-- After one step for each point and one more the queue is empty, and the first steps are listed. -/
theorem iterate_start {p : Program} (hp : p.Built) (a : Address) :
    ((advance p a.instruction)^[p.points.length + 1] (start a)).queue = [] ∧
      ((advance p a.instruction)^[p.points.length + 1] (start a)).listed = p.firstStepsTo a := by
  have hmeasure : (State.mk [a] [a]).measure p.points ≤ p.points.length + 1 := by
    have hmissing := List.length_filter_le (· ∉ [a]) p.points
    simp only [State.measure, State.missing, List.length_singleton]
    omega
  obtain ⟨hempty, hfound⟩ := @search_eq_iterate _ _ _ (p.sourcesWithin a.instruction) _ _ hmeasure
  rw [← state_iterate hp] at hempty hfound
  change ParentSearch.queue _ = [] at hempty
  change _ = ParentSearch.visited _ at hfound
  refine ⟨hempty, ?_⟩
  obtain ⟨done, hvisited, hlisted⟩ := isListing_iterate hp a.instruction a (p.points.length + 1)
  have hdone : reachable p.points (p.sourcesWithin a.instruction) [a] = done := by
    have hstart : [a].eraseDups = [a] := by simp [List.eraseDups_cons]
    rw [reachable, hstart, hfound, hvisited, hempty, List.append_nil]
  rw [hlisted, ← hdone]
  rfl

end Program.ParentSearch

namespace Program

open Reachability

theorem Built.mem_reachable_sourcesWithin_iff {p : Program} (h : p.Built) {instruction : UInt64} {a c : Address} :
    c ∈ reachable p.points (p.sourcesWithin instruction) [a] ↔
      Relation.ReflTransGen (p.PassesWithin instruction) c a := by
  have hleads : Leads p.points (p.sourcesWithin instruction) = Function.swap (p.PassesWithin instruction) := by
    funext b c
    refine propext ((and_iff_left_of_imp h.mem_points_of_mem_sourcesWithin).trans h.mem_sourcesWithin_iff)
  rw [mem_reachable_iff, Reached, hleads]
  simp only [List.mem_singleton, exists_eq_left]
  exact Relation.reflTransGen_swap

/-- The first steps listed for a point are those from which one or more arrows inside of its instruction lead to it. -/
theorem Built.mem_firstStepsTo_iff {p : Program} (h : p.Built) {a b : Address} :
    b ∈ p.firstStepsTo a ↔
      b.microStep = 0 ∧ b.instruction = a.instruction ∧ Relation.TransGen (p.PassesWithin a.instruction) b a := by
  simp only [firstStepsTo, List.mem_eraseDups, List.mem_filter, List.mem_flatMap, decide_eq_true_eq,
    h.mem_reachable_sourcesWithin_iff, h.mem_sourcesWithin_iff]
  constructor
  · rintro ⟨⟨c, hpath, hpass⟩, hfirst⟩
    obtain ⟨-, -, -, hinstruction, -⟩ := id hpass
    exact ⟨hfirst, hinstruction, Relation.TransGen.head' hpass hpath⟩
  · rintro ⟨hfirst, -, hpath⟩
    obtain ⟨c, hpass, hrest⟩ := Relation.TransGen.head'_iff.1 hpath
    exact ⟨⟨c, hrest, hpass⟩, hfirst⟩

/-- The search backward ends, and lists each first step once: those from which the point is reached inside of its
instruction. The point itself is one of them if it is a first step on a cycle inside of the instruction. -/
theorem Built.firstStepsTo_exact {p : Program} (h : p.Built) (a : Address) :
    (((ParentSearch.advance p a.instruction)^[p.points.length + 1] (.start a)).queue = [] ∧
      ((ParentSearch.advance p a.instruction)^[p.points.length + 1] (.start a)).listed = p.firstStepsTo a) ∧
    (p.firstStepsTo a).Nodup ∧
    (∀ b, b ∈ p.firstStepsTo a ↔
      b.microStep = 0 ∧ b.instruction = a.instruction ∧ Relation.TransGen (p.PassesWithin a.instruction) b a) ∧
    (a ∈ p.firstStepsTo a ↔ a.microStep = 0 ∧ Relation.TransGen (p.PassesWithin a.instruction) a a) := by
  refine ⟨ParentSearch.iterate_start h a, List.nodup_eraseDups _, fun b => h.mem_firstStepsTo_iff, ?_⟩
  rw [h.mem_firstStepsTo_iff, eq_self, true_and]

/-- Two micro-steps of one instruction, the second of which jumps back, and another instruction that leads to it. -/
def jumpBack : Program :=
  ofChanges [.arrow (.skip ⟨16, 0⟩ ⟨16, 1⟩ none), .arrow (.computed ⟨16, 1⟩ (.reg "eax" 0 0) .jump none),
    .solve 1 ⟨16, 0⟩, .arrow (.skip ⟨12, 0⟩ ⟨16, 1⟩ none)]

theorem firstStepsTo_jumpBack :
    jumpBack.Built ∧ jumpBack.firstStepsTo ⟨16, 0⟩ = [⟨16, 0⟩] ∧
      Relation.TransGen (jumpBack.PassesWithin 16) ⟨16, 0⟩ ⟨16, 0⟩ ∧ ⟨12, 0⟩ ∉ jumpBack.firstStepsTo ⟨16, 1⟩ := by
  have hbuilt : jumpBack.Built := built_ofChanges _
  have hback : jumpBack.firstStepsTo ⟨16, 0⟩ = [⟨16, 0⟩] := by cbv
  obtain ⟨-, -, -, hcycle⟩ := hbuilt.firstStepsTo_exact ⟨16, 0⟩
  obtain ⟨-, -, hwithin, -⟩ := hbuilt.firstStepsTo_exact ⟨16, 1⟩
  refine ⟨hbuilt, hback, (hcycle.1 ?_).2, fun hmem => ?_⟩
  · rw [hback]
    exact List.mem_singleton_self _
  · obtain ⟨-, hinstruction, -⟩ := (hwithin _).1 hmem
    cases hinstruction

end Program
end Backslice
