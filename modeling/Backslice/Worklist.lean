import Backslice.Backward
import Backslice.Grammar
import Backslice.Program

/-!
# The fixpoint of watched locations

A context is the conditional set of watched locations at a program point. The
analysis keeps a context for every point it has reached, and a queue of the
arrows that lead to a point whose context has changed since they were passed
last. One step takes an arrow from the front of the queue, joins the set before
it into the context of its source, and appends the arrows that lead to this
source if the context has changed. The contexts are settled when the queue is
empty.

An arrow enters the queue at most once at a time. Arrows with a computed target
are passed over with a warning.
-/

namespace Backslice

/-- What the analysis has to report beside its result. -/
inductive Warning where
  | computedPredecessor (arrow : Arrow)
  | unsettled (limit pending : Nat)
  | sliceUnsettled (seeds : Nat)
deriving DecidableEq

def Warning.message : Warning → String
  | .computedPredecessor arrow => "ignoring dynamic predecessor " ++ arrow.text
  | .unsettled limit pending =>
      "fixpoint not reached after " ++ toString limit ++ " steps, " ++ toString pending ++ " arrows pending"
  | .sliceUnsettled seeds => "slice of " ++ toString seeds ++ " seeds computed before the fixpoint"

/-- A storage location observed at a program point. -/
structure Seed where
  point : Address
  location : Term
deriving DecidableEq

namespace Seed

def ofTerm? (point : Address) (t : Term) : Except InputError Seed :=
  if t.isLvalue then .ok ⟨point, t⟩ else .error (.notAnLvalue t.text)

def ofText? (point : Address) (text : String) : Except InputError Seed :=
  (Term.parseLvalue text).map (⟨point, ·⟩)

end Seed

structure Analysis where
  /-- The contexts of the points reached, in the order of the first visit. -/
  contexts : List (Address × ConditionalSet) := []
  pending : List Arrow := []
  /-- Whether the queue was empty after the last change. -/
  settled : Bool := true
  steps : Nat := 0
  names : Fresh := ⟨0⟩
  /-- The warnings so far, in order. -/
  warnings : List Warning := []

namespace Analysis

def context? (s : Analysis) (a : Address) : Option ConditionalSet :=
  s.contexts.lookup a

/-- The watched locations at a point; none where there is no context. -/
def watched (s : Analysis) (a : Address) : ConditionalSet :=
  (s.context? a).getD ConditionalSet.empty

/-- Replace the context of a point, or enter its first one. -/
def setContext (s : Analysis) (a : Address) (context : ConditionalSet) : Analysis :=
  let contexts :=
    if (s.context? a).isSome then s.contexts.map fun entry => if entry.1 = a then (a, context) else entry
    else s.contexts ++ [(a, context)]
  { s with contexts }

private theorem lookup_map_replace {contexts : List (Address × ConditionalSet)} {a : Address}
    (context : ConditionalSet) (h : (contexts.lookup a).isSome = true) :
    (contexts.map fun entry => if entry.1 = a then (a, context) else entry).lookup a = some context := by
  induction contexts with
  | nil => simp at h
  | cons entry rest ih =>
      obtain ⟨b, set⟩ := entry
      by_cases hb : b = a
      · simp [hb]
      · have hne : (a == b) = false := by
          simp only [beq_eq_false_iff_ne, ne_eq]
          exact fun h => hb h.symm
        simp only [List.lookup_cons, hne, List.map_cons, hb, if_false] at h ⊢
        exact ih h

@[simp]
theorem context?_setContext_self (s : Analysis) (a : Address) (context : ConditionalSet) :
    (s.setContext a context).context? a = some context := by
  unfold setContext context?
  split
  next h => exact lookup_map_replace context h
  next h => simp [List.lookup_append, Option.not_isSome_iff_eq_none.1 h]

def warn (s : Analysis) (w : Warning) : Analysis :=
  { s with warnings := s.warnings ++ [w] }

/-- Append an arrow to the queue, unless it waits already or its target is computed. -/
def enqueue (s : Analysis) (arrow : Arrow) : Analysis :=
  if arrow.target.isComputed then s.warn (.computedPredecessor arrow)
  else if arrow ∈ s.pending then s
  else { s with pending := s.pending ++ [arrow] }

/-- Take note of whether the queue is empty. -/
def settle (s : Analysis) : Analysis :=
  { s with settled := s.pending.isEmpty }

/-- Append the arrows that lead to a point. -/
def enqueueArriving (p : Program) (s : Analysis) (a : Address) : Analysis :=
  ((p.arriving a).foldl enqueue s).settle

/-- Watch a location at a point. -/
def seed (p : Program) (s : Analysis) (seed : Seed) : Analysis :=
  (s.setContext seed.point ((s.watched seed.point).add seed.location)).enqueueArriving p seed.point

/-- The state after the seeds have been entered, one after the other. -/
def start (p : Program) (seeds : List Seed) (names : Fresh) : Analysis :=
  seeds.foldl (seed p) { names }

/-- Join a set into the context of a point. -/
def join (p : Program) (s : Analysis) (a : Address) (set : ConditionalSet) : Analysis :=
  match s.context? a with
  | none => (s.setContext a set).enqueueArriving p a
  | some context =>
      let merged := context.union set
      if merged = context then s else (s.setContext a merged.share).enqueueArriving p a

/-- Pass an arrow backward. -/
def propagate (p : Program) (options : Options) (s : Analysis) (arrow : Arrow) : Except Fault Analysis :=
  match arrow.target with
  | .computed _ => .error (.computedTargetPending arrow)
  | .fixed a =>
      match s.context? a with
      | none => .error (.noContext a)
      | some context => do
          let (set, names) ← context.before options arrow s.names
          pure ({ s with names }.join p arrow.source set)

/-- Pass the first arrow of the queue backward, and tell whether the contexts
are settled. After a fault the arrow is gone and the step is counted. -/
def step (p : Program) (options : Options) (s : Analysis) : Analysis × Except Fault Bool :=
  match s.pending with
  | [] => ({ s with settled := true }, .ok true)
  | arrow :: rest =>
      let s := { s with pending := rest, steps := s.steps + 1 }
      match s.propagate p options arrow with
      | .error fault => (s, .error fault)
      | .ok s => (s.settle, .ok s.pending.isEmpty)

/-- Step until the queue is empty, `remaining` times at most. A warning names
the `limit` if arrows are left. -/
def runFrom (p : Program) (options : Options) (limit : Nat) (remaining : Nat) (s : Analysis) :
    Analysis × Except Fault Bool :=
  if s.pending.isEmpty then (s.settle, .ok true)
  else
    match remaining with
    | 0 => ((s.warn (.unsettled limit s.pending.length)).settle, .ok false)
    | remaining + 1 =>
        match s.step p options with
        | (s, .error fault) => (s, .error fault)
        | (s, .ok _) => runFrom p options limit remaining s

/-- Step until the queue is empty, `limit` times at most, and tell whether it is. -/
def run (p : Program) (options : Options) (limit : Nat) (s : Analysis) : Analysis × Except Fault Bool :=
  runFrom p options limit limit s

/-- The watched locations at a point after a run. -/
def watchedAfterRun (p : Program) (options : Options) (limit : Nat) (a : Address) (s : Analysis) :
    Analysis × Except Fault ConditionalSet :=
  let (s, done) := s.run p options limit
  (s, done.map fun _ => s.watched a)

/-- The locations that may be watched at a point after a run, whatever the conditions. -/
def locationsAfterRun (p : Program) (options : Options) (limit : Nat) (a : Address) (s : Analysis) :
    Analysis × Except Fault (List Term) :=
  let (s, set) := s.watchedAfterRun p options limit a
  (s, set.map ConditionalSet.possibleValues)

end Analysis
end Backslice
