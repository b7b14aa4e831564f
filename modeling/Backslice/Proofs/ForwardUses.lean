import Backslice.Proofs.DeadAssignmentRemoval

/-!
# Uses along paths

Whether the value of an assignment may be used is answered by a search. Here it
is said what the answer means: some walk leads from the target of the assignment
to an arrow that reads the cell, assigns to a part of it or to a place that
depends on it, or may lead anywhere, and no arrow before overwrites the cell.

A walk follows an arrow to its target where this is known. Nothing leaves an
address that is no point of the program, so a walk ends there.

The search takes no arrow of the program out of the queue twice, whatever the
shape of the program. The steps of the loop are counted for this.
-/

namespace Backslice

/-- How an arrow counts as a use of the cell `r`, as the cell was in front of it. -/
inductive Arrow.MayUse (arrow : Arrow) (r : Term) : Prop
  | guard {g : Term} (hguard : arrow.guard = some g) (hreads : g.reads r = true)
  | value {l v : Term} (hassign : arrow.statement = .assign l v) (hreads : v.reads r = true)
  | location {l v : Term} (hassign : arrow.statement = .assign l v) (hne : l ≠ r)
      (hreads : l.overlaps r = true ∨ l.reads r = true)
  | target {t : Term} (hkeeps : arrow.assigned? ≠ some r) (htarget : arrow.target = .computed t)
      (hreads : t.reads r = true ∨ ∀ w, t ≠ .const w)

/-- A sequence of arrows, the first of which leaves a point and each other one the known target of the one before. -/
inductive Program.Walk (p : Program) : Address → List Arrow → Prop
  | last {a : Address} {arrow : Arrow} (harrow : arrow ∈ p.leaving a) : Walk p a [arrow]
  | pass {a b : Address} {arrow : Arrow} {arrows : List Arrow} (harrow : arrow ∈ p.leaving a)
      (hknown : arrow.target.known? = some b) (hrest : Walk p b arrows) : Walk p a (arrow :: arrows)

theorem Term.isConstant_eq_false_iff {t : Term} : t.isConstant = false ↔ ∀ w, t ≠ .const w := by
  cases t <;> simp [isConstant, constantValue?]

theorem Arrow.overwrites_eq_false_iff {arrow : Arrow} {r : Term} :
    arrow.overwrites r = false ↔ arrow.assigned? ≠ some r :=
  decide_eq_false_iff_not

theorem Arrow.uses_iff {arrow : Arrow} {r : Term} : arrow.uses r = true ↔ arrow.MayUse r := by
  simp only [uses, Bool.or_eq_true, Bool.and_eq_true, Bool.not_eq_true', overwrites_eq_false_iff, Option.any_eq_true]
  constructor
  · rintro ((⟨g, hguard, hreads⟩ | hstatement) | ⟨hkeeps, htarget⟩)
    · exact .guard hguard hreads
    · unfold statementReads at hstatement
      split at hstatement
      next l v hassign =>
        simp only [Bool.or_eq_true, Bool.and_eq_true, bne_iff_ne] at hstatement
        rcases hstatement with hreads | ⟨hne, hreads⟩
        · exact .value hassign hreads
        · exact .location hassign hne (Or.inr hreads)
      next => exact absurd hstatement Bool.false_ne_true
    · unfold targetReads at htarget
      split at htarget
      next => exact absurd htarget Bool.false_ne_true
      next t hcomputed =>
        simp only [Bool.or_eq_true, Bool.not_eq_true', Term.isConstant_eq_false_iff] at htarget
        exact .target hkeeps hcomputed htarget
  · rintro (⟨hguard, hreads⟩ | ⟨hassign, hreads⟩ | ⟨hassign, hne, hreads⟩ | ⟨hkeeps, htarget, hreads⟩)
    · exact Or.inl (Or.inl ⟨_, hguard, hreads⟩)
    · exact Or.inl (Or.inr (by simp [statementReads, hassign, hreads]))
    · have hlocation := hreads.elim (fun h => Term.reads_iff.2 ⟨_, Term.mem_subterms_self _, h⟩) id
      exact Or.inl (Or.inr (by simp [statementReads, hassign, hne, hlocation]))
    · refine Or.inr ⟨hkeeps, ?_⟩
      simpa only [targetReads, htarget, Bool.or_eq_true, Bool.not_eq_true', Term.isConstant_eq_false_iff] using hreads

namespace Program
variable {p : Program} {r : Term}

theorem mem_followers {arrow next : Arrow} :
    next ∈ p.followers r arrow ↔
      arrow.assigned? ≠ some r ∧ ∃ b, arrow.target.known? = some b ∧ next ∈ p.leaving b := by
  rw [← Arrow.overwrites_eq_false_iff, followers]
  cases arrow.overwrites r <;> cases arrow.target.known? <;> simp

/-- The search reaches the arrows that are the last ones of walks on which the cell is not overwritten before. -/
theorem reached_iff_walk {a : Address} {last : Arrow} :
    Reachability.Reached p.arrows (p.followers r) (p.leaving a) last ↔
      ∃ before, p.Walk a (before ++ [last]) ∧ ∀ arrow ∈ before, arrow.assigned? ≠ some r := by
  constructor
  · rintro ⟨first, hfirst, hpath⟩
    -- The walk grows at its start, where the point is, so the induction is from the first arrow on.
    induction hpath using Relation.ReflTransGen.head_induction_on generalizing a with
    | refl => exact ⟨[], .last hfirst, nofun⟩
    | @head arrow next hleads _ ih =>
        obtain ⟨hkeeps, b, hknown, hnext⟩ := mem_followers.1 hleads.1
        obtain ⟨before, hwalk, hbefore⟩ := ih hnext
        exact ⟨arrow :: before, .pass hfirst hknown hwalk, List.forall_mem_cons.2 ⟨hkeeps, hbefore⟩⟩
  · rintro ⟨before, hwalk, hbefore⟩
    induction before generalizing a with
    | nil =>
        cases hwalk with
        | last harrow => exact ⟨last, harrow, .refl⟩
        | pass harrow _ _ => exact ⟨last, harrow, .refl⟩
    | cons arrow before ih =>
        obtain ⟨hkeeps, hbefore⟩ := List.forall_mem_cons.1 hbefore
        generalize harrows : before ++ [last] = arrows at hwalk
        rw [List.cons_append, harrows] at hwalk
        cases hwalk with
        | last => exact absurd harrows (by simp)
        | @pass _ b _ _ harrow hknown hrest =>
            obtain ⟨next, hnext, hpath⟩ := ih (harrows ▸ hrest) hbefore
            exact ⟨arrow, harrow, .head ⟨mem_followers.2 ⟨hkeeps, b, hknown, hnext⟩, (mem_leaving.1 hnext).1⟩ hpath⟩

theorem isUsed_of_assign {arrow : Arrow} {v : Term} {a : Address} (hassign : arrow.statement = .assign r v)
    (hr : r.isRegister = true) (hknown : arrow.target.known? = some a) (ha : a ∈ p.points) :
    p.isUsed arrow = p.usedAfter r a := by
  simp [isUsed, Arrow.assigned?, hassign, hknown, hr, ha]

/-- What the search for uses of the cell `r` after the point `a` has found within `n` steps, and what waits then. -/
def searched (p : Program) (r : Term) (a : Address) (n : Nat) : Reachability.State Arrow :=
  (Reachability.State.advance p.arrows (p.followers r))^[n] ⟨(p.leaving a).eraseDups, (p.leaving a).eraseDups⟩

/-- Within as many steps as the program has arrows the queue is empty, and it is known whether the cell is used. -/
theorem usedAfter_eq_searched {a : Address} {n : Nat} (hn : p.arrows.length ≤ n) :
    (p.searched r a n).queue = [] ∧ p.usedAfter r a = (p.searched r a n).found.any (·.uses r) := by
  have hstart := Reachability.measure_start_le fun arrow (harrow : arrow ∈ p.leaving a) => (mem_leaving.1 harrow).1
  obtain ⟨hempty, hfound⟩ : (p.searched r a n).queue = [] ∧
      Reachability.reachable p.arrows (p.followers r) (p.leaving a) = (p.searched r a n).found :=
    Reachability.search_eq_iterate (Nat.le_trans hstart hn)
  refine ⟨hempty, ?_⟩
  rw [usedAfter, Reachability.anyReachable_eq_any, hfound]

/-- The value of an assignment to a register cell may be used if and only if a walk from the target of the assignment
ends with an arrow that may use the cell, and no arrow before overwrites it. The search that finds it ends within as
many steps as the program has arrows. -/
theorem isUsed_iff_walk {arrow : Arrow} {v : Term} {a : Address} (hassign : arrow.statement = .assign r v)
    (hr : r.isRegister = true) (hknown : arrow.target.known? = some a) (ha : a ∈ p.points) :
    (p.isUsed arrow = true ↔
      ∃ before last, p.Walk a (before ++ [last]) ∧ (∀ e ∈ before, e.assigned? ≠ some r) ∧ last.MayUse r) ∧
    ∀ n, p.arrows.length ≤ n →
      (p.searched r a n).queue = [] ∧ p.isUsed arrow = (p.searched r a n).found.any (·.uses r) := by
  rw [isUsed_of_assign hassign hr hknown ha]
  refine ⟨?_, fun n hn => usedAfter_eq_searched hn⟩
  rw [usedAfter, Reachability.anyReachable_iff]
  constructor
  · rintro ⟨last, hreached, huses⟩
    obtain ⟨before, hwalk, hbefore⟩ := reached_iff_walk.1 hreached
    exact ⟨before, last, hwalk, hbefore, Arrow.uses_iff.1 huses⟩
  · rintro ⟨before, last, hwalk, hbefore, huses⟩
    exact ⟨last, reached_iff_walk.2 ⟨before, hwalk, hbefore⟩, Arrow.uses_iff.2 huses⟩

/-- A register is set in front of a loop. -/
def setBefore : Arrow :=
  ⟨⟨0, 0⟩, none, .assign (.reg "r" 0 0) (.const 1), .fixed ⟨1, 0⟩⟩

/-- One arrow through the loop. -/
def through : Arrow :=
  ⟨⟨1, 0⟩, none, .skip, .fixed ⟨2, 0⟩⟩

/-- The arrow beside it. -/
def throughBeside : Arrow :=
  ⟨⟨1, 0⟩, some (.reg "c" 0 0), .skip, .fixed ⟨2, 0⟩⟩

/-- The way back, to an address that is written out. -/
def backAgain : Arrow :=
  ⟨⟨2, 0⟩, none, .jump, .computed (.const 1)⟩

/-- The lower half of the register is read behind the loop. -/
def readBehind : Arrow :=
  ⟨⟨2, 0⟩, none, .assign (.reg "s" 0 0) (.reg "r" 0 16), .fixed ⟨3, 0⟩⟩

def readBehindLoop : Program :=
  ((((Program.addArrow {} setBefore).addArrow through).addArrow throughBeside).addArrow backAgain).addArrow readBehind

theorem isUsed_iff_walk_readBehindLoop :
    setBefore.statement = .assign (.reg "r" 0 0) (.const 1) ∧ (Term.reg "r" 0 0).isRegister = true ∧
      setBefore.target.known? = some ⟨1, 0⟩ ∧ ⟨1, 0⟩ ∈ readBehindLoop.points ∧
      readBehindLoop.isUsed setBefore = true ∧
      (readBehindLoop.searched (.reg "r" 0 0) ⟨1, 0⟩ 5).queue = [] := by
  have hassign : setBefore.statement = .assign (.reg "r" 0 0) (.const 1) := rfl
  have hr : (Term.reg "r" 0 0).isRegister = true := rfl
  have hknown : setBefore.target.known? = some ⟨1, 0⟩ := rfl
  have ha : ⟨1, 0⟩ ∈ readBehindLoop.points := by decide
  obtain ⟨hwalk, hends⟩ := isUsed_iff_walk hassign hr hknown ha
  refine ⟨hassign, hr, hknown, ha, hwalk.2 ⟨[through, backAgain, throughBeside], readBehind, ?_, ?_, ?_⟩, ?_⟩
  · exact .pass (by decide) rfl (.pass (by decide) rfl (.pass (by decide) rfl (.last (by decide))))
  · decide
  · exact .value rfl (by decide)
  · exact (hends 5 (by decide)).1

end Program
end Backslice
