import Backslice.Proofs.FlatRun
import Mathlib

/-!
# The order of the queue

An analysis is asked to enter seeds, to step, to run, and for what is watched at
a point, in any order. Whatever the program and the settings, no arrow waits
twice, and an arrow waits only if its target is fixed and has a context. So a
step finds what it needs: only an assignment to something other than a storage
location could stop it. At rest, the note on the queue says whether it is empty.
-/

namespace Backslice

/-- What an analysis can be asked for. -/
inductive Request where
  | seed (e : Seed)
  | step
  | run (limit : Nat)
  | watched (limit : Nat) (a : Address)
  | locations (limit : Nat) (a : Address)

/-- Whether the arrows of a program assign storage locations only. -/
def Program.AssignsLvalues (p : Program) : Prop :=
  ∀ arrow ∈ p.arrows, ∀ l ∈ arrow.assigned?, l.isLvalue = true

theorem Program.assignsLvalues_of_isPlain {p : Program} (h : ∀ arrow ∈ p.arrows, arrow.statement.IsPlain) :
    p.AssignsLvalues := by
  intro arrow harrow l hl
  have hplain := h arrow harrow
  unfold Arrow.assigned? at hl
  split at hl
  next location value hassign =>
    rw [hassign] at hplain
    exact Option.some.inj hl ▸ hplain.1.1
  next => cases hl

namespace Analysis

/-- The state after a request, and the fault that ended it, if one did. -/
def serve (p : Program) (options : Options) (s : Analysis) : Request → Analysis × Except Fault Unit
  | .seed e => (s.seed p e, .ok ())
  | .step => (s.step p options).map id (·.map fun _ => ())
  | .run limit => (s.run p options limit).map id (·.map fun _ => ())
  | .watched limit a => (s.watchedAfterRun p options limit a).map id (·.map fun _ => ())
  | .locations limit a => (s.locationsAfterRun p options limit a).map id (·.map fun _ => ())

/-- The state after requests, one after the other. -/
def serveAll (p : Program) (options : Options) (requests : List Request) (s : Analysis) : Analysis :=
  requests.foldl (fun s request => (s.serve p options request).1) s

/-- What the queue satisfies at any moment. -/
structure IsQueued (p : Program) (s : Analysis) : Prop where
  nodup : s.pending.Nodup
  ready : s.IsReady p

/-- What the queue and the note on it satisfy at rest. -/
structure IsOrderly (p : Program) (s : Analysis) : Prop extends IsQueued p s where
  settled : s.settled = s.pending.isEmpty

section
variable {p : Program} {s : Analysis}

theorem IsQueued.settle (h : s.IsQueued p) : s.settle.IsOrderly p :=
  ⟨⟨h.nodup, h.ready⟩, rfl⟩

theorem isOrderly_new (p : Program) (names : Fresh) : IsOrderly p { names } :=
  ⟨⟨List.nodup_nil, isReady_new p names⟩, rfl⟩

theorem nodup_pending_enqueue (h : s.pending.Nodup) (arrow : Arrow) : (s.enqueue arrow).pending.Nodup := by
  unfold enqueue
  split
  next => exact h
  next =>
    split
    next => exact h
    next hnew => exact List.nodup_append.2 ⟨h, List.nodup_singleton arrow, by grind⟩

theorem nodup_pending_enqueueArriving (p : Program) (h : s.pending.Nodup) (a : Address) :
    (s.enqueueArriving p a).pending.Nodup :=
  List.foldlRecOn (motive := fun s : Analysis => s.pending.Nodup) _ _ h
    fun _ hs arrow _ => nodup_pending_enqueue hs arrow

/-- To set a context and to wake the arrows that arrive there leaves the queue in order. -/
theorem IsQueued.enter (hp : p.Built) (h : s.IsQueued p) (a : Address) (set : ConditionalSet) :
    ((s.setContext a set).enqueueArriving p a).IsOrderly p :=
  ⟨⟨nodup_pending_enqueueArriving (s := s.setContext a set) p h.nodup a, h.ready.enter hp a set⟩, rfl⟩

theorem IsQueued.join (hp : p.Built) (h : s.IsQueued p) (a : Address) (set : ConditionalSet) :
    (s.join p a set).IsQueued p := by
  unfold Analysis.join
  split
  next => exact (h.enter hp a set).toIsQueued
  next =>
    dsimp only
    split
    next => exact h
    next => exact (h.enter hp a _).toIsQueued

theorem IsQueued.seed (hp : p.Built) (h : s.IsQueued p) (e : Seed) : (s.seed p e).IsOrderly p :=
  h.enter hp e.point _

section
variable (hp : p.Built) (hassigns : p.AssignsLvalues) (options : Options)
include hp hassigns

theorem IsQueued.propagate {arrow : Arrow} {a : Address} (h : s.IsQueued p) (harrow : arrow ∈ p.arrows)
    (htarget : arrow.target = .fixed a) (hcontext : (s.context? a).isSome = true) :
    ∃ s', s.propagate p options arrow = .ok s' ∧ s'.IsQueued p := by
  obtain ⟨context, hsome⟩ := Option.isSome_iff_exists.1 hcontext
  obtain ⟨set, names, hbefore⟩ := ConditionalSet.exists_before options context s.names (hassigns arrow harrow)
  have hrenamed : IsQueued p { s with names } := ⟨h.nodup, h.ready⟩
  refine ⟨{ s with names }.join p arrow.source set, ?_, hrenamed.join hp arrow.source set⟩
  simp only [Analysis.propagate, htarget, hsome, hbefore]
  rfl

theorem IsQueued.step (h : s.IsQueued p) : ∃ s' done, s.step p options = (s', .ok done) ∧ s'.IsOrderly p := by
  unfold Analysis.step
  split
  next hnone =>
    exact ⟨_, true, rfl, ⟨h.nodup, h.ready⟩, by rw [hnone, List.isEmpty_nil]⟩
  next arrow rest hpending =>
    obtain ⟨harrow, a, htarget, hcontext⟩ := h.ready arrow (by rw [hpending]; exact List.mem_cons_self)
    have hnodup := h.nodup
    rw [hpending] at hnodup
    have hrest : IsQueued p { s with pending := rest, steps := s.steps + 1 } :=
      ⟨(List.nodup_cons.1 hnodup).2, h.ready.tail hpending⟩
    obtain ⟨s', hpropagate, hs'⟩ := hrest.propagate hp hassigns options harrow htarget hcontext
    dsimp only
    rw [hpropagate]
    exact ⟨s'.settle, s'.pending.isEmpty, rfl, hs'.settle⟩

theorem IsQueued.runFrom (limit remaining : Nat) (h : s.IsQueued p) :
    ∃ s' done, s.runFrom p options limit remaining = (s', .ok done) ∧ s'.IsOrderly p := by
  induction remaining generalizing s with
  | zero =>
      unfold Analysis.runFrom
      split
      · exact ⟨_, _, rfl, h.settle⟩
      · exact ⟨_, _, rfl, IsQueued.settle ⟨h.nodup, h.ready⟩⟩
  | succ remaining ih =>
      unfold Analysis.runFrom
      split
      · exact ⟨_, _, rfl, h.settle⟩
      · obtain ⟨s', done, hstep, hs'⟩ := h.step hp hassigns options
        simp only [hstep]
        exact ih hs'.toIsQueued

theorem IsQueued.serve (h : s.IsQueued p) (request : Request) :
    ∃ s', s.serve p options request = (s', .ok ()) ∧ s'.IsOrderly p := by
  cases request with
  | seed e => exact ⟨_, rfl, h.seed hp e⟩
  | step =>
      obtain ⟨s', done, hstep, hs'⟩ := h.step hp hassigns options
      exact ⟨s', by rw [Analysis.serve, hstep]; rfl, hs'⟩
  | run limit | watched limit a | locations limit a =>
      obtain ⟨s', done, hrun, hs'⟩ := h.runFrom hp hassigns options limit limit
      refine ⟨s', ?_, hs'⟩
      simp only [Analysis.serve, Analysis.locationsAfterRun, Analysis.watchedAfterRun, Analysis.run, hrun]
      rfl

theorem IsOrderly.serveAll (h : s.IsOrderly p) (requests : List Request) :
    (s.serveAll p options requests).IsOrderly p := by
  induction requests generalizing s with
  | nil => exact h
  | cons request requests ih =>
      obtain ⟨s', hserve, hs'⟩ := h.serve hp hassigns options request
      rw [Analysis.serveAll, List.foldl_cons, hserve]
      exact ih hs'

end

theorem isOrderly_start (hp : p.Built) (seeds : List Seed) (names : Fresh) : (start p seeds names).IsOrderly p :=
  List.foldlRecOn _ _ (isOrderly_new p names) fun _ hs e _ => hs.seed hp e

end

/-- After any requests, no arrow waits twice, what waits has a fixed target with a context, and the note on the queue is
right. No further request fails, whether it is a step or anything else. -/
theorem serve_in_order {p : Program} (hp : p.Built) (hassigns : p.AssignsLvalues) (options : Options)
    (seeds : List Seed) (names : Fresh) (requests : List Request) :
    let s := (start p seeds names).serveAll p options requests
    s.pending.Nodup ∧
      (∀ arrow ∈ s.pending, ∃ a, arrow.target = .fixed a ∧ (s.context? a).isSome = true) ∧
      (s.settled = true ↔ s.pending = []) ∧
      (∃ done, (s.step p options).2 = .ok done) ∧
      ∀ request, (s.serve p options request).2 = .ok () := by
  have hs := (isOrderly_start hp seeds names).serveAll hp hassigns options requests
  refine ⟨hs.nodup, fun arrow harrow => (hs.ready arrow harrow).2, ?_, ?_, fun request => ?_⟩
  · rw [hs.settled, List.isEmpty_iff]
  · obtain ⟨s', done, hstep, -⟩ := hs.step hp hassigns options
    exact ⟨done, by rw [hstep]⟩
  · obtain ⟨s', hserve, -⟩ := hs.serve hp hassigns options request
    rw [hserve]

/-- A register is counted down, on the way from the first point to the second. -/
def countDown : Arrow :=
  ⟨⟨0, 0⟩, none, .assign (.reg "n" 0 0) (.binary .sub (.reg "n" 0 0) (.const 1)), .fixed ⟨1, 0⟩⟩

/-- The way back. -/
def loopBack : Arrow :=
  ⟨⟨1, 0⟩, none, .jump, .fixed ⟨0, 0⟩⟩

/-- Another way back, to an address in a register. -/
def loopBackIndirectly : Arrow :=
  ⟨⟨1, 0⟩, none, .jump, .computed (.reg "ra" 0 0)⟩

/-- The two ways back are known to lead to the first point. -/
def countingLoop : Program :=
  let p := ((Program.addArrow {} countDown).addArrow loopBack).addArrow loopBackIndirectly
  { p with solved := [(loopBackIndirectly, ⟨0, 0⟩)] }.link ⟨0, 0⟩ loopBackIndirectly

theorem built_countingLoop : countingLoop.Built :=
  have hadded := ((Program.Built.empty.addArrow countDown).addArrow loopBack).addArrow loopBackIndirectly
  have hsolve : Program.solve? _ loopBackIndirectly ⟨0, 0⟩ = .ok (true, countingLoop) := rfl
  hadded.solve (by decide) hsolve

/-- The register is watched at the second point, a cell at a point that no arrow leads to, and the cell also at the
first point once the loop has been passed. -/
theorem serve_in_order_countingLoop :
    let s := (start countingLoop [⟨⟨1, 0⟩, .reg "n" 0 0⟩] ⟨0⟩).serveAll countingLoop {}
      [.step, .seed ⟨⟨7, 0⟩, .mem (.reg "n" 0 0)⟩, .watched 5 ⟨0, 0⟩, .seed ⟨⟨0, 0⟩, .mem (.reg "n" 0 0)⟩]
    countingLoop.Built ∧ countingLoop.AssignsLvalues ∧ s.pending = [loopBack] ∧ s.settled = false ∧
      s.pending.Nodup ∧ (s.step countingLoop {}).2 = .ok false := by
  have hassigns : countingLoop.AssignsLvalues := by
    change ∀ arrow ∈ [countDown, loopBack, loopBackIndirectly], ∀ l ∈ arrow.assigned?, l.isLvalue = true
    decide
  obtain ⟨hnodup, -⟩ := serve_in_order built_countingLoop hassigns {} [⟨⟨1, 0⟩, .reg "n" 0 0⟩] ⟨0⟩
    [.step, .seed ⟨⟨7, 0⟩, .mem (.reg "n" 0 0)⟩, .watched 5 ⟨0, 0⟩, .seed ⟨⟨0, 0⟩, .mem (.reg "n" 0 0)⟩]
  exact ⟨built_countingLoop, hassigns, by cbv, by cbv, hnodup, by cbv⟩

end Analysis
end Backslice
