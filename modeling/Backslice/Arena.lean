import Backslice.Connective
import Backslice.Grammar
import Backslice.UniqueTable

/-!
# Arenas of shared terms

An arena stores every term once, as a node whose children are handles of nodes
stored before it, and every name once, as a symbol. Storing a tree stores its
subterms from the leaves up; equal trees get the same handle, and a handle keeps
its tree when the arena grows. A new arena holds `false`, `true` and the marker
of conditional sets, in this order.

Handles, symbols and sizes are bookkeeping: no operation on terms depends on
them. They are modelled because an arena reports them.
-/

namespace Backslice

/-- A term with handles in the place of its children and symbols in the place of its names. -/
inductive Node where
  | const (value : UInt64)
  | var (symbol : Nat)
  | reg (symbol : Nat) (offset size : UInt16)
  | mem (address : Nat)
  | unary (op : UnaryOp) (operand : Nat)
  | binary (op : BinaryOp) (left right : Nat)
  | bool (value : Bool)
  | eq (left right : Nat)
  | not (operand : Nat)
  | and (operands : List Nat)
  | or (operands : List Nat)
  | quantified (quantifier : Quantifier) (bound body : Nat)
  | ite (condition positive negative : Nat)
deriving DecidableEq

def Quantifier.code : Quantifier → UInt64
  | .universal => 0
  | .existential => 1

namespace Node

/-- The hash of a node: the number of its kind, followed by its fields. -/
def hash : Node → UInt64
  | .const v => Pairing.sequence 1 [v]
  | .var s => Pairing.sequence 2 [.ofNat s]
  | .reg s o n => Pairing.sequence 3 [.ofNat s, o.toUInt64, n.toUInt64]
  | .mem a => Pairing.sequence 4 [.ofNat a]
  | .unary op a => Pairing.sequence 5 [op.code, .ofNat a]
  | .binary op a b => Pairing.sequence 6 [op.code, .ofNat a, .ofNat b]
  | .bool b => Pairing.sequence 7 [wordOfBool b]
  | .eq a b => Pairing.sequence 8 [.ofNat a, .ofNat b]
  | .not a => Pairing.sequence 9 [.ofNat a]
  | .and xs => Pairing.sequence 10 (xs.map .ofNat)
  | .or xs => Pairing.sequence 11 (xs.map .ofNat)
  | .quantified q a b => Pairing.sequence 12 [q.code, .ofNat a, .ofNat b]
  | .ite c a b => Pairing.sequence 13 [.ofNat c, .ofNat a, .ofNat b]

/-- The handles in a node, in order. -/
def children : Node → List Nat
  | .const _ | .var _ | .reg _ _ _ | .bool _ => []
  | .mem a | .unary _ a | .not a => [a]
  | .binary _ a b | .eq a b | .quantified _ a b => [a, b]
  | .and xs | .or xs => xs
  | .ite c a b => [c, a, b]

/-- The term of a node, where `read` gives the terms of its children. -/
def term? (names : Array String) (read : Nat → Option Term) : Node → Option Term
  | .const v => some (.const v)
  | .var s => names[s]?.map .var
  | .reg s o n => names[s]?.map (.reg · o n)
  | .mem a => (read a).map .mem
  | .unary op a => (read a).map (.unary op)
  | .binary op a b => do
      let t ← read a
      let u ← read b
      some (.binary op t u)
  | .bool b => some (.bool b)
  | .eq a b => do
      let t ← read a
      let u ← read b
      some (.eq t u)
  | .not a => (read a).map .not
  | .and xs => (xs.mapM read).map .and
  | .or xs => (xs.mapM read).map .or
  | .quantified q a b => do
      let t ← read a
      let u ← read b
      some (.quantified q t u)
  | .ite c a b => do
      let s ← read c
      let t ← read a
      let u ← read b
      some (.ite s t u)

end Node

structure Arena where
  nodes : UniqueTable Node Node.hash
  names : Array String

namespace Arena

/-- The symbol of a name. -/
def internName (a : Arena) (name : String) : Nat × Arena :=
  match a.names.idxOf? name with
  | some s => (s, a)
  | none => (a.names.size, { a with names := a.names.push name })

/-- The handle of a node. -/
def internNode (a : Arena) (node : Node) : Nat × Arena :=
  let (i, nodes) := a.nodes.insert node
  (i, { a with nodes })

mutual

/-- Store a term and all its subterms, from the leaves up, and return its handle. -/
def intern (a : Arena) : Term → Nat × Arena
  | .const v => a.internNode (.const v)
  | .var n =>
      let (s, a) := a.internName n
      a.internNode (.var s)
  | .reg n offset size =>
      let (s, a) := a.internName n
      a.internNode (.reg s offset size)
  | .mem t =>
      let (i, a) := intern a t
      a.internNode (.mem i)
  | .unary op t =>
      let (i, a) := intern a t
      a.internNode (.unary op i)
  | .binary op t u =>
      let (i, a) := intern a t
      let (j, a) := intern a u
      a.internNode (.binary op i j)
  | .bool b => a.internNode (.bool b)
  | .eq t u =>
      let (i, a) := intern a t
      let (j, a) := intern a u
      a.internNode (.eq i j)
  | .not t =>
      let (i, a) := intern a t
      a.internNode (.not i)
  | .and ts =>
      let (is, a) := internAll a ts
      a.internNode (.and is)
  | .or ts =>
      let (is, a) := internAll a ts
      a.internNode (.or is)
  | .quantified q t u =>
      let (i, a) := intern a t
      let (j, a) := intern a u
      a.internNode (.quantified q i j)
  | .ite c t u =>
      let (i, a) := intern a c
      let (j, a) := intern a t
      let (k, a) := intern a u
      a.internNode (.ite i j k)

/-- Store terms from left to right. -/
def internAll (a : Arena) : List Term → List Nat × Arena
  | [] => ([], a)
  | t :: ts =>
      let (i, a) := intern a t
      let (is, a) := internAll a ts
      (i :: is, a)

end

/-- Store terms from left to right, without regard to their handles. -/
def store (a : Arena) (ts : List Term) : Arena :=
  (a.internAll ts).2

/-- The arena that holds the two truth values and the marker. -/
def new (bits : Nat) : Except UniqueTable.Misuse Arena := do
  let nodes ← UniqueTable.withBits bits
  pure (Arena.store ⟨nodes, #[]⟩ [.bool false, .bool true, Term.marker])

/-- The width of an arena for which none is asked. -/
def defaultBits : Nat := 16

/-- Read a text as a term; the terms built for it are stored even if the text denotes none. -/
def parse (a : Arena) (text : String) : Except ParseError Term × Arena :=
  let (result, terms) := Term.parseReporting text
  (result, a.store terms)

/-- The term that a handle denotes, read off the stored nodes. Only smaller
handles are followed, so that reading ends on every arena. -/
def term? (a : Arena) (handle : Nat) : Option Term :=
  match a.nodes.valueAt handle with
  | .error _ => none
  | .ok node => node.term? a.names fun child => if child < handle then a.term? child else none
termination_by handle

/-- The number of stored terms. -/
def size (a : Arena) : Nat :=
  a.nodes.size

/-- The hash of the node with a given handle. -/
def hashAt (a : Arena) (handle : Nat) : Except UniqueTable.Misuse UInt64 :=
  (a.nodes.valueAt handle).map Node.hash

/-- A line on how many terms and names are stored. -/
def summary (a : Arena) : String :=
  "Terms \x7b size: " ++ toString a.size ++ ", symbols: " ++ toString a.names.size ++ " \x7d"

end Arena

/-- The text of a handle. -/
def handleText (handle : Nat) : String :=
  "#" ++ toString handle

end Backslice
