import Backslice.Address
import Backslice.Connective

/-!
# The grammar of terms

From the loosest to the tightest level: disjunction, conjunction, comparison,
the bitwise operators `|`, `^` and `&`, shifts, sums, products, and prefix
operators. The binary levels associate to the left, except that comparisons do
not chain, and that the operands of a conjunction or disjunction are joined all
at once. An atom is a number, a truth value, a variable, a register, a memory
cell in square brackets, or a formula in parentheses.

A parser returns the rest of the tokens with a proof that it is shorter, and
the recursion is on the number of tokens, then on the level. Next to its result
it reports every term that it built on the way, also when it fails: the terms
stay in an arena that a failed text was read into.
-/

namespace Backslice.Grammar

/-- The levels whose chains of operators associate to the left. -/
inductive Chain where
  | bitOr
  | bitXor
  | bitAnd
  | shift
  | sum
  | product
deriving DecidableEq

inductive Level where
  | disjunction
  | conjunction
  | comparison
  | chain (c : Chain)
  | unary
deriving DecidableEq

/-- How many levels bind tighter; zero is left for atoms. -/
def Level.rank : Level → Nat
  | .disjunction => 10
  | .conjunction => 9
  | .comparison => 8
  | .chain .bitOr => 7
  | .chain .bitXor => 6
  | .chain .bitAnd => 5
  | .chain .shift => 4
  | .chain .sum => 3
  | .chain .product => 2
  | .unary => 1

namespace Chain

/-- The level of the operands of a chain. -/
def operandLevel : Chain → Level
  | .bitOr => .chain .bitXor
  | .bitXor => .chain .bitAnd
  | .bitAnd => .chain .shift
  | .shift => .chain .sum
  | .sum => .chain .product
  | .product => .unary

theorem rank_operandLevel_lt (c : Chain) : c.operandLevel.rank < (Level.chain c).rank := by
  cases c <;> decide

/-- The operators of a chain. -/
def operator? : Chain → Mark → Option BinaryOp
  | .bitOr, .bar => some .bitOr
  | .bitXor, .caret => some .bitXor
  | .bitAnd, .amp => some .bitAnd
  | .shift, .shiftLeft => some .shl
  | .shift, .shiftRight => some .shr
  | .sum, .plus => some .add
  | .sum, .minus => some .sub
  | .product, .star => some .mul
  | .product, .slash => some .udiv
  | .product, .percent => some .umod
  | _, _ => none

end Chain

/-- The term that a comparison stands for. -/
def comparison? : Mark → Option (Term → Term → Term)
  | .equalEqual => some .eq
  | .bangEqual => some fun a b => Term.negate (.eq a b)
  | .lessEqualU => some (.binary .leU)
  | .lessEqualS => some (.binary .leS)
  | .lessU => some (.binary .ltU)
  | .lessS => some (.binary .ltS)
  | _ => none

/-- The term that a prefix operator stands for. -/
def prefixOp? : Mark → Option (Term → Term)
  | .minus => some (.unary .neg)
  | .tilde => some (.unary .complement)
  | .bang => some Term.negate
  | _ => none

/-- The term of a name in the place of an atom. -/
def nameTerm : String → Term
  | "true" => .bool true
  | "false" => .bool false
  | name => .var name

/-- A computation that may fail and reports the terms it built, newest first. -/
abbrev Parsing := ExceptT ParseError (StateM (List Term))

/-- A value read from a proper prefix of fewer than `bound` tokens. -/
structure Parsed (α : Type) (bound : Nat) where
  value : α
  rest : List Lexeme
  shorter : rest.length < bound

/-- Report a term that has been built. -/
def built (t : Term) : Parsing Term := do
  modify (t :: ·)
  pure t

/-- Where a text that ends at byte `stop` continues with `ts`. -/
def offsetAt (stop : Nat) : List Lexeme → Nat
  | [] => stop
  | lexeme :: _ => lexeme.offset

def failAt {α : Type} (stop : Nat) (ts : List Lexeme) (fault : ParseFault) : Parsing α :=
  throw ⟨offsetAt stop ts, fault⟩

def expect (stop : Nat) (m : Mark) (ts : List Lexeme) : Parsing (Parsed Unit ts.length) :=
  match ts with
  | ⟨_, .mark k⟩ :: rest =>
      if k = m then pure ⟨(), rest, Nat.lt_succ_self _⟩
      else failAt stop ts (.markExpected m)
  | _ => failAt stop ts (.markExpected m)

def number (stop : Nat) (ts : List Lexeme) : Parsing (Parsed UInt64 ts.length) :=
  match ts with
  | ⟨_, .number v⟩ :: rest => pure ⟨v, rest, Nat.lt_succ_self _⟩
  | _ => failAt stop ts .numberExpected

/-- The largest offset and size of a bit range. -/
def maxRange : UInt64 := 65535

/-- A bit range in braces, without the opening brace. -/
def bitRange (stop : Nat) (ts : List Lexeme) : Parsing (Parsed (UInt16 × UInt16) ts.length) := do
  let offset ← number stop ts
  let separator ← expect stop .semicolon offset.rest
  let size ← number stop separator.rest
  let close ← expect stop .closeBrace size.rest
  have := offset.shorter
  have := separator.shorter
  have := size.shorter
  have := close.shorter
  if offset.value > maxRange || size.value == 0 || size.value > maxRange then
    failAt stop close.rest .invalidRegisterSlice
  else
    pure ⟨(offset.value.toUInt16, size.value.toUInt16), close.rest, by omega⟩

/-- A register cell, without the percent sign. -/
def register (stop : Nat) (ts : List Lexeme) : Parsing (Parsed Term ts.length) :=
  match ts with
  | ⟨_, .name name⟩ :: ⟨_, .mark .openBrace⟩ :: rest => do
      let range ← bitRange stop rest
      let t ← built (.reg name range.value.1 range.value.2)
      pure ⟨t, range.rest, by have := range.shorter; simp only [List.length_cons]; omega⟩
  | ⟨_, .name name⟩ :: rest => do
      let t ← built (.reg name 0 0)
      pure ⟨t, rest, Nat.lt_succ_self _⟩
  | _ => failAt stop ts .registerNameExpected

mutual

/-- A term of the given level. -/
def term (stop : Nat) (level : Level) (ts : List Lexeme) : Parsing (Parsed Term ts.length) :=
  match level with
  | .disjunction => do
      let first ← term stop .conjunction ts
      let ⟨others, rest, h⟩ ← operandsAfter stop .barBar .conjunction first.rest
      have := first.shorter
      if others.isEmpty then pure first
      else do
        let t ← built (Term.disj (first.value :: others))
        pure ⟨t, rest, by omega⟩
  | .conjunction => do
      let first ← term stop .comparison ts
      let ⟨others, rest, h⟩ ← operandsAfter stop .ampAmp .comparison first.rest
      have := first.shorter
      if others.isEmpty then pure first
      else do
        let t ← built (Term.conj (first.value :: others))
        pure ⟨t, rest, by omega⟩
  | .comparison => do
      let left ← term stop (.chain .bitOr) ts
      have := left.shorter
      match h : left.rest with
      | ⟨_, .mark m⟩ :: after =>
          match comparison? m with
          | some join => do
              let right ← term stop (.chain .bitOr) after
              let t ← built (join left.value right.value)
              pure ⟨t, right.rest, by have := right.shorter; simp only [h, List.length_cons] at *; omega⟩
          | none => pure left
      | _ => pure left
  | .unary =>
      match ts with
      | ⟨_, .mark m⟩ :: after =>
          match prefixOp? m with
          | some apply => do
              let operand ← term stop .unary after
              let t ← built (apply operand.value)
              pure ⟨t, operand.rest, Nat.lt_succ_of_lt operand.shorter⟩
          | none => atom stop (⟨_, .mark m⟩ :: after)
      | other => atom stop other
  | .chain c => do
      let first ← term stop c.operandLevel ts
      let ⟨t, rest, h⟩ ← chainAfter stop c first.value first.rest
      have := first.shorter
      pure ⟨t, rest, by omega⟩
termination_by (ts.length, level.rank)
decreasing_by
  · exact Prod.Lex.right _ (by decide)
  · exact Prod.Lex.left _ _ first.shorter
  · exact Prod.Lex.right _ (by decide)
  · exact Prod.Lex.left _ _ first.shorter
  · exact Prod.Lex.right _ (by decide)
  · refine Prod.Lex.left _ _ ?_
    have := left.shorter
    simp only [h, List.length_cons] at this
    omega
  · exact Prod.Lex.left _ _ (Nat.lt_succ_self _)
  · exact Prod.Lex.right _ (by decide)
  · exact Prod.Lex.right _ (by decide)
  · exact Prod.Lex.right _ c.rank_operandLevel_lt
  · exact Prod.Lex.left _ _ first.shorter

/-- The further operands of a conjunction or disjunction, each after the mark `m`. -/
def operandsAfter (stop : Nat) (m : Mark) (level : Level) (ts : List Lexeme) :
    Parsing (Parsed (List Term) (ts.length + 1)) :=
  match ts with
  | ⟨_, .mark k⟩ :: after =>
      if k = m then do
        let operand ← term stop level after
        have := operand.shorter
        let ⟨others, rest, h⟩ ← operandsAfter stop m level operand.rest
        pure ⟨operand.value :: others, rest, by simp only [List.length_cons]; omega⟩
      else pure ⟨[], ⟨_, .mark k⟩ :: after, Nat.lt_succ_self _⟩
  | other => pure ⟨[], other, Nat.lt_succ_self _⟩
termination_by (ts.length, 0)
decreasing_by
  · exact Prod.Lex.left _ _ (Nat.lt_succ_self _)
  · exact Prod.Lex.left _ _ (Nat.lt_succ_of_lt operand.shorter)

/-- Join `left` with the operands that follow it in a chain. -/
def chainAfter (stop : Nat) (c : Chain) (left : Term) (ts : List Lexeme) :
    Parsing (Parsed Term (ts.length + 1)) :=
  match ts with
  | ⟨_, .mark k⟩ :: after =>
      match c.operator? k with
      | some op => do
          let right ← term stop c.operandLevel after
          have := right.shorter
          let joined ← built (.binary op left right.value)
          let ⟨t, rest, h⟩ ← chainAfter stop c joined right.rest
          pure ⟨t, rest, by simp only [List.length_cons]; omega⟩
      | none => pure ⟨left, ⟨_, .mark k⟩ :: after, Nat.lt_succ_self _⟩
  | other => pure ⟨left, other, Nat.lt_succ_self _⟩
termination_by (ts.length, 0)
decreasing_by
  · exact Prod.Lex.left _ _ (Nat.lt_succ_self _)
  · exact Prod.Lex.left _ _ (Nat.lt_succ_of_lt right.shorter)

def atom (stop : Nat) (ts : List Lexeme) : Parsing (Parsed Term ts.length) :=
  match ts with
  | [] => failAt stop [] .unexpectedEnd
  | ⟨_, .number v⟩ :: rest => do
      let t ← built (.const v)
      pure ⟨t, rest, Nat.lt_succ_self _⟩
  | ⟨_, .name name⟩ :: rest => do
      let t ← built (nameTerm name)
      pure ⟨t, rest, Nat.lt_succ_self _⟩
  | ⟨_, .mark .percent⟩ :: after => do
      let cell ← register stop after
      pure ⟨cell.value, cell.rest, Nat.lt_succ_of_lt cell.shorter⟩
  | ⟨_, .mark .openBracket⟩ :: after => do
      let address ← term stop .disjunction after
      let close ← expect stop .closeBracket address.rest
      let t ← built (.mem address.value)
      pure ⟨t, close.rest, Nat.lt_succ_of_lt (Nat.lt_trans close.shorter address.shorter)⟩
  | ⟨_, .mark .openParen⟩ :: after => do
      let inner ← term stop .disjunction after
      let close ← expect stop .closeParen inner.rest
      pure ⟨inner.value, close.rest, Nat.lt_succ_of_lt (Nat.lt_trans close.shorter inner.shorter)⟩
  | ts => failAt stop ts .unexpectedToken
termination_by (ts.length, 0)
decreasing_by
  · exact Prod.Lex.left _ _ (Nat.lt_succ_self _)
  · exact Prod.Lex.left _ _ (Nat.lt_succ_self _)

end

/-- A term that is the whole of `ts`. -/
def wholeTerm (stop : Nat) (ts : List Lexeme) : Parsing Term := do
  let parsed ← term stop .disjunction ts
  if parsed.rest.isEmpty then pure parsed.value
  else failAt stop parsed.rest .trailingInput

end Backslice.Grammar

namespace Backslice.Term

/-- Read a text, and report the terms built for it in the order in which they were built. -/
def parseReporting (text : String) : Except ParseError Term × List Term :=
  match Lexeme.scan 0 text.toList with
  | .error e => (.error e, [])
  | .ok ts =>
      let (result, terms) := (Grammar.wholeTerm text.utf8ByteSize ts).run []
      (result, terms.reverse)

/-- The term that a text denotes. -/
def parse (text : String) : Except ParseError Term :=
  (parseReporting text).1

/-- The storage location that a text denotes. -/
def parseLvalue (text : String) : Except InputError Term :=
  match parse text with
  | .error e => .error (.parse e)
  | .ok t => if t.isLvalue then .ok t else .error (.notAnLvalue (String.ofList (trim text.toList)))

end Backslice.Term
