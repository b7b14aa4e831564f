import Backslice.Manager
import Backslice.Proofs.StoredTerms
import Mathlib

/-!
# How operations read their operands

The operands of an operation are handles. Before anything else, the terms that
they denote are read off the arena: a list of terms, bindings, an arrow. If all
handles denote terms this comes to a value, otherwise the operation is refused,
and in both cases no trace is left.
-/

namespace Backslice

namespace Arena

/-- The statement that handles denote. -/
def statement? (a : Arena) : StatementHandles → Option Statement
  | .assign location value => do pure (.assign (← a.term? location) (← a.term? value))
  | .jump => some .jump
  | .skip => some .skip
  | .external name => some (.external name)

def target? (a : Arena) : TargetHandles → Option Target
  | .fixed address => some (.fixed address)
  | .computed t => (a.term? t).map .computed

def guard? (a : Arena) : Option Nat → Option (Option Term)
  | none => some none
  | some g => (a.term? g).map some

def arrow? (a : Arena) (handles : ArrowHandles) : Option Arrow := do
  let guard ← a.guard? handles.guard
  let statement ← a.statement? handles.statement
  let target ← a.target? handles.target
  pure ⟨handles.source, guard, statement, target⟩

/-- Whether handles denote terms, one for one. -/
def Denote (a : Arena) (handles : List Nat) (ts : List Term) : Prop :=
  List.Forall₂ (fun i t => a.term? i = some t) handles ts

/-- Whether pairs of handles denote bindings, one for one. -/
def DenoteBindings (a : Arena) (handles : List (Nat × Nat)) (b : Bindings) : Prop :=
  List.Forall₂ (fun h e => a.term? h.1 = some e.1 ∧ a.term? h.2 = some e.2) handles b

/-- The binding that a pair of handles denotes. -/
def binding? (a : Arena) (handles : Nat × Nat) : Option (Term × Term) := do
  let key ← a.term? handles.1
  let value ← a.term? handles.2
  pure (key, value)

theorem denote_iff {a : Arena} {handles : List Nat} {ts : List Term} :
    a.Denote handles ts ↔ handles.mapM a.term? = some ts :=
  List.forall₂_iff_mapM

theorem denoteBindings_iff {a : Arena} {handles : List (Nat × Nat)} {b : Bindings} :
    a.DenoteBindings handles b ↔ handles.mapM a.binding? = some b := by
  have hbinding : ∀ h : Nat × Nat, ∀ e : Term × Term,
      a.term? h.1 = some e.1 ∧ a.term? h.2 = some e.2 ↔ a.binding? h = some e := fun h (key, value) => by
    simp [binding?, Option.bind_eq_some_iff]
  simp only [← List.forall₂_iff_mapM, DenoteBindings, hbinding]

end Arena

namespace Building

variable {α β : Type} {a : Arena}

theorem run_bind_ok {p : Building α} {f : α → Building β} {draft draft' : Draft} {x : α}
    (h : (p.run a).run draft = (.ok x, draft')) : ((p >>= f).run a).run draft = ((f x).run a).run draft' := by
  rw [ReaderT.run_bind, ExceptT.run_bind]
  simp only [Bind.bind, StateT.bind, h]

theorem run_bind_error {p : Building α} {f : α → Building β} {draft draft' : Draft} {e : Refusal}
    (h : (p.run a).run draft = (.error e, draft')) : ((p >>= f).run a).run draft = (.error e, draft') := by
  rw [ReaderT.run_bind, ExceptT.run_bind]
  simp only [Bind.bind, StateT.bind, h]
  rfl

/-- Whether a computation on the terms of an arena comes to a value, and leaves no trace. -/
def Reads (a : Arena) (p : Building α) (x : α) : Prop :=
  ∀ draft, (p.run a).run draft = (.ok x, draft)

/-- Whether a computation on the terms of an arena is refused, and leaves no trace. -/
def IsRefused (a : Arena) (p : Building α) : Prop :=
  ∃ e, ∀ draft, (p.run a).run draft = (.error e, draft)

/-- Whether a computation on the terms of an arena comes to a value if there is one, and is refused if there is none. -/
def LooksUp (a : Arena) (p : Building α) : Option α → Prop
  | some x => Reads a p x
  | none => IsRefused a p

theorem Reads.pure (x : α) : Reads a (pure x) x :=
  fun _ => rfl

theorem Reads.bind {p : Building α} {f : α → Building β} {x : α} {y : β} (hp : Reads a p x) (hf : Reads a (f x) y) :
    Reads a (p >>= f) y := fun draft =>
  (run_bind_ok (hp draft)).trans (hf draft)

namespace LooksUp

theorem reads {p : Building α} {x? : Option α} {x : α} (h : LooksUp a p x?) (hx : x? = some x) : Reads a p x := by
  subst hx
  exact h

theorem bind {p : Building α} {f : α → Building β} {x? : Option α} {g : α → Option β} (hp : LooksUp a p x?)
    (hf : ∀ x, LooksUp a (f x) (g x)) : LooksUp a (p >>= f) (x? >>= g) := by
  cases x? with
  | none =>
      obtain ⟨e, he⟩ := hp
      exact ⟨e, fun draft => run_bind_error (he draft)⟩
  | some x =>
      change LooksUp a (p >>= f) (g x)
      have hvalue := hf x
      cases hy : g x with
      | some y =>
          rw [hy] at hvalue
          exact Reads.bind hp hvalue
      | none =>
          rw [hy] at hvalue
          obtain ⟨e, he⟩ := hvalue
          exact ⟨e, fun draft => (run_bind_ok (hp draft)).trans (he draft)⟩

theorem pure (x : α) : LooksUp a (pure x) (some x) :=
  Reads.pure x

theorem map {p : Building α} {x? : Option α} (hp : LooksUp a p x?) (f : α → β) :
    LooksUp a (p >>= fun x => Pure.pure (f x)) (x?.map f) := by
  rw [Option.map_eq_bind]
  exact hp.bind fun x => pure (f x)

theorem term (a : Arena) (i : Nat) : LooksUp a (Building.term i) (a.term? i) := by
  have hread : Reads a read a := fun _ => rfl
  cases hi : a.term? i with
  | some t =>
      refine Reads.bind hread ?_
      rw [hi]
      exact Reads.pure t
  | none =>
      refine ⟨.unknownHandle i, fun draft => (run_bind_ok (hread draft)).trans ?_⟩
      rw [hi]
      rfl

theorem mapM {f : α → Building β} {g : α → Option β} (h : ∀ x, LooksUp a (f x) (g x)) (xs : List α) :
    LooksUp a (xs.mapM f) (xs.mapM g) := by
  induction xs with
  | nil => exact pure []
  | cons x xs ih =>
      rw [List.mapM_cons, List.mapM_cons]
      exact (h x).bind fun y => ih.bind fun ys => pure (y :: ys)

theorem terms (a : Arena) (handles : List Nat) : LooksUp a (Building.terms handles) (handles.mapM a.term?) :=
  mapM (term a) handles

theorem bindings (a : Arena) (handles : List (Nat × Nat)) :
    LooksUp a (Building.bindings handles) (handles.mapM a.binding?) :=
  mapM (fun (key, value) => (term a key).bind fun _ => (term a value).bind fun _ => pure _) handles

theorem guard (a : Arena) (handle : Option Nat) : LooksUp a (Building.termIfAny handle) (a.guard? handle) := by
  cases handle with
  | none => exact pure none
  | some handle => exact (term a handle).map some

theorem statement (a : Arena) (handles : StatementHandles) :
    LooksUp a (Building.statement handles) (a.statement? handles) := by
  cases handles with
  | assign location value => exact (term a location).bind fun _ => (term a value).bind fun _ => pure _
  | jump | skip | external name => exact pure _

theorem target (a : Arena) (handles : TargetHandles) : LooksUp a (Building.target handles) (a.target? handles) := by
  cases handles with
  | fixed address => exact pure _
  | computed t => exact (term a t).map Target.computed

theorem arrow (a : Arena) (handles : ArrowHandles) : LooksUp a (Building.arrow handles) (a.arrow? handles) :=
  (guard a handles.guard).bind fun _ => (statement a handles.statement).bind fun _ =>
    (target a handles.target).bind fun _ => pure _

end LooksUp

namespace Reads

theorem term {i : Nat} {t : Term} (h : a.term? i = some t) : Reads a (Building.term i) t :=
  (LooksUp.term a i).reads h

theorem terms {handles : List Nat} {ts : List Term} (h : a.Denote handles ts) :
    Reads a (Building.terms handles) ts :=
  (LooksUp.terms a handles).reads (Arena.denote_iff.1 h)

theorem bindings {handles : List (Nat × Nat)} {b : Bindings} (h : a.DenoteBindings handles b) :
    Reads a (Building.bindings handles) b :=
  (LooksUp.bindings a handles).reads (Arena.denoteBindings_iff.1 h)

end Reads

/-- Whether the terms that a computation builds, and those that it comes to, are those of a list. -/
def Makes (a : Arena) (p : Building (List Term)) (ts : List Term) : Prop :=
  ∀ names, ((p.run a).run ⟨names, []⟩).2.built.reverse ++ ((p.run a).run ⟨names, []⟩).1.toOption.getD [] = ts

theorem LooksUp.makes {p : Building α} {f : α → Building (List Term)} {x? : Option α} {g : α → List Term}
    (hp : LooksUp a p x?) (hf : ∀ x, Makes a (f x) (g x)) : Makes a (p >>= f) (x?.toList.flatMap g) := by
  intro names
  cases x? with
  | none =>
      obtain ⟨e, he⟩ := hp
      rw [run_bind_error (he _)]
      rfl
  | some x =>
      rw [run_bind_ok (hp _)]
      simpa using hf x names

theorem Makes.note (ts us : List Term) : Makes a (Building.note ts >>= fun _ => pure us) (ts ++ us) := by
  intro names
  change (ts.reverse ++ []).reverse ++ us = ts ++ us
  simp

theorem Makes.orRefuse {ε : Type} (refusal : ε → Refusal) (result : Except ε Term) :
    Makes a (Building.orRefuse refusal result >>= fun t => pure [t]) result.toOption.toList := by
  intro names
  cases result <;> rfl

end Building
end Backslice
