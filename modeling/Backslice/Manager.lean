import Backslice.Arena
import Backslice.BuildOrder

/-!
# Managers of terms

A manager is an arena with a supply of fresh names. Its operations take and
return handles: the terms of the operands are read off the arena, the operation
is carried out on them, what it builds is stored in order, and the handles of
its results are returned. A refused operation returns no handle, but may have
stored terms before it was refused.

The operations are all that build terms, and the queries that return handles.
A seed is added as one element, a step of the analysis is an arrow passed
backward and a union.
-/

namespace Backslice

/-- A statement whose terms are given by their handles. -/
inductive StatementHandles where
  | assign (location value : Nat)
  | jump
  | skip
  | external (name : String)

/-- A target whose term is given by its handle. -/
inductive TargetHandles where
  | fixed (a : Address)
  | computed (t : Nat)

/-- An arrow whose terms are given by their handles. -/
structure ArrowHandles where
  source : Address
  guard : Option Nat
  statement : StatementHandles
  target : TargetHandles

/-- What can be asked of a manager. The operands are handles. -/
inductive Operation where
  /-- Give a text a symbol, and build nothing. -/
  | name (text : String)
  | const (value : UInt64)
  | var (name : String)
  /-- A variable with a new name. -/
  | fresh (stem : String)
  | reg (name : String) (offset size : UInt16)
  | mem (address : Nat)
  | unary (op : UnaryOp) (operand : Nat)
  | binary (op : BinaryOp) (left right : Nat)
  | bool (value : Bool)
  | marker
  | eq (left right : Nat)
  | asFormula (t : Nat)
  | negate (t : Nat)
  | conj (operands : List Nat)
  | disj (operands : List Nat)
  | quantify (quantifier : Quantifier) (bound body : Nat)
  | ite (condition positive negative : Nat)
  | rebuild (t : Nat) (children : List Nat)
  | parse (text : String)
  | children (t : Nat)
  | cellAddress (t : Nat)
  | lvalues (t : Nat)
  | dependencies (t : Nat)
  /-- What stands for the free terms of a pattern, if the pattern matches. -/
  | matching (pattern : Nat) (free : List Nat) (t : Nat) (bindings : List (Nat × Nat))
  | instantiate (t : Nat) (bindings : List (Nat × Nat))
  | rewrite (pattern : Nat) (free : List Nat) (replacement target : Nat)
  | replace (t old new : Nat)
  | simplify (t : Nat)
  | disjunctiveForm (t : Nat)
  | splitAliases (t address value : Nat)
  | emptySet
  | member (e : Nat)
  | add (set e : Nat)
  | union (set other : Nat)
  | memberValue (t : Nat)
  | possibleValues (set : Nat)
  | flatten (set : Nat)
  /-- The set in front of an arrow, from the one behind it. -/
  | before (set : Nat) (options : Options) (arrow : ArrowHandles)

/-- Why an operation is refused. -/
inductive Refusal where
  /-- No term of the arena has this handle. -/
  | unknownHandle (handle : Nat)
  | parse (e : ParseError)
  | build (e : Term.BuildError)
  | analysis (e : Fault)
deriving DecidableEq

/-- What an operation leaves besides its results. -/
structure Draft where
  names : Fresh
  /-- The terms built so far, newest first. -/
  built : List Term

/-- A computation on the terms of an arena that may be refused. -/
abbrev Building := ReaderT Arena (ExceptT Refusal (StateM Draft))

namespace Building

/-- The term of a handle. -/
def term (handle : Nat) : Building Term := do
  match (← read).term? handle with
  | some t => pure t
  | none => throw (.unknownHandle handle)

def terms (handles : List Nat) : Building (List Term) :=
  handles.mapM term

def termIfAny : Option Nat → Building (Option Term)
  | some handle => do pure (some (← term handle))
  | none => pure none

/-- Bindings whose terms are given by their handles. -/
def bindings (handles : List (Nat × Nat)) : Building Bindings :=
  handles.mapM fun (key, value) => do pure (← term key, ← term value)

def statement : StatementHandles → Building Statement
  | .assign location value => do pure (.assign (← term location) (← term value))
  | .jump => pure .jump
  | .skip => pure .skip
  | .external name => pure (.external name)

def target : TargetHandles → Building Target
  | .fixed a => pure (.fixed a)
  | .computed t => do pure (.computed (← term t))

def arrow (handles : ArrowHandles) : Building Arrow := do
  let guard ← termIfAny handles.guard
  let statement ← statement handles.statement
  let target ← target handles.target
  pure ⟨handles.source, guard, statement, target⟩

/-- Take note of terms that have been built, in order. -/
def note (ts : List Term) : Building Unit :=
  modify fun draft => { draft with built := ts.reverse ++ draft.built }

def takeName (stem : String) : Building Term := do
  let (t, names) := (← get).names.take stem
  modify fun draft => { draft with names }
  pure t

def orRefuse {ε α : Type} (refusal : ε → Refusal) : Except ε α → Building α
  | .ok a => pure a
  | .error e => throw (refusal e)

end Building

open Building in
/-- The results of an operation, as terms. What is built before them is noted. -/
def Operation.results : Operation → Building (List Term)
  | .name _ => pure []
  | .const v => pure [.const v]
  | .var n => pure [.var n]
  | .fresh stem => do pure [← takeName stem]
  | .reg n offset size => pure [.reg n offset size]
  | .mem a => do pure [.mem (← term a)]
  | .unary op a => do pure [.unary op (← term a)]
  | .binary op a b => do pure [.binary op (← term a) (← term b)]
  | .bool b => pure [.bool b]
  | .marker => pure [Term.marker]
  | .eq a b => do pure [.eq (← term a) (← term b)]
  | .asFormula t => do pure [(← term t).asFormula]
  | .negate t => do pure [(← term t).negate]
  | .conj ts => do pure [Term.conj (← terms ts)]
  | .disj ts => do pure [Term.disj (← terms ts)]
  | .quantify q bound body => do
      let quantified := Term.quantify? q (← term bound) (← term body)
      pure [← orRefuse .build quantified]
  | .ite c a b => do pure [.ite (← term c) (← term a) (← term b)]
  | .rebuild t cs => do
      let rebuilt := (← term t).rebuild? (← terms cs)
      pure [← orRefuse .build rebuilt]
  | .parse text => do
      let (result, built) := Term.parseReporting text
      note built
      pure [← orRefuse .parse result]
  | .children t => do pure (← term t).children
  | .cellAddress t => do pure (← term t).cellAddress?.toList
  | .lvalues t => do pure (← term t).lvalues
  | .dependencies t => do pure (← term t).dependencies
  | .matching pattern free t bound => do
      let found := (← term pattern).matchWith? (← terms free) (← term t) (← bindings bound)
      pure ((found.getD []).map (·.2))
  | .instantiate t bound => do
      let t ← term t
      let bound ← bindings bound
      note (t.instantiateBuilds bound)
      pure [t.instantiate bound]
  | .rewrite pattern free replacement target => do
      let rule : Rule := ⟨← term pattern, ← terms free, ← term replacement⟩
      let target ← term target
      note (rule.replaceAllBuilds target)
      pure [(rule.replaceAll target).1]
  | .replace t old new => do
      let t ← term t
      let rule : Rule := ⟨← term old, [], ← term new⟩
      note (rule.replaceAllBuilds t)
      pure [t.replace rule.pattern rule.replacement]
  | .simplify t => do
      let t ← term t
      note t.simplifyBuilds
      pure [t.simplifyShared]
  | .disjunctiveForm t => do
      let t ← term t
      note t.disjunctiveFormBuilds
      pure [t.disjunctiveForm]
  | .splitAliases t address value => do
      let t ← term t
      let address ← term address
      let value ← term value
      note (t.splitAliasesBuilds address value)
      pure [(t.splitAliases address value).1]
  | .emptySet => pure [ConditionalSet.empty]
  | .member e => do pure [ConditionalSet.member (← term e)]
  | .add set e => do
      let set ← term set
      let e ← term e
      note (ConditionalSet.addBuilds set e)
      pure [ConditionalSet.add set e]
  | .union set other => do pure [ConditionalSet.union (← term set) (← term other)]
  | .memberValue t => do pure (ConditionalSet.memberValue? (← term t)).toList
  | .possibleValues set => do pure (ConditionalSet.possibleValues (← term set))
  | .flatten set => do
      let set ← term set
      note (ConditionalSet.flattenBuilds set)
      pure [ConditionalSet.flatten set]
  | .before set options handles => do
      let set ← term set
      let arrow ← arrow handles
      let names := (← get).names
      note (ConditionalSet.beforeBuilds set options arrow names)
      let (set, names) ← orRefuse .analysis (ConditionalSet.before set options arrow names)
      modify fun draft => { draft with names }
      pure [set]

/-- An arena with a supply of fresh names. -/
structure Manager where
  arena : Arena
  names : Fresh

namespace Manager

/-- A manager of the three terms of a new arena. -/
def new (bits : Nat) : Except UniqueTable.Misuse Manager := do
  pure ⟨← Arena.new bits, ⟨0⟩⟩

/-- The results of an operation as terms, and what it leaves besides. -/
def outcome (m : Manager) (op : Operation) : Except Refusal (List Term) × Draft :=
  (op.results.run m.arena).run ⟨m.names, []⟩

/-- The arena after an operation has named a text or built terms, without its results. -/
def grown (m : Manager) (op : Operation) : Arena :=
  let a := m.arena.store (m.outcome op).2.built.reverse
  match op with
  | .name text => (a.internName text).2
  | _ => a

/-- Carry out an operation, and return the handles of its results. -/
def perform (m : Manager) (op : Operation) : Except Refusal (List Nat) × Manager :=
  let a := m.grown op
  match m.outcome op with
  | (.error e, draft) => (.error e, ⟨a, draft.names⟩)
  | (.ok results, draft) =>
      let (handles, a) := a.internAll results
      (.ok handles, ⟨a, draft.names⟩)

/-- Carry out operations one after the other, and return the handles of all results. -/
def run (m : Manager) : List Operation → List Nat × Manager
  | [] => ([], m)
  | op :: ops =>
      let (returned, m) := m.perform op
      let (handles, m) := m.run ops
      (returned.toOption.getD [] ++ handles, m)

end Manager
end Backslice
