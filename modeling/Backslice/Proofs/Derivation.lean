import Backslice.Grammar
import Mathlib.Tactic.Common

/-!
# Derivations

The grammar of terms, as trees. A derivation from a level is a tree of its
production, with the repeated operands of a production in a list; it yields the
tokens in its leaves, and denotes the term that is built along it. One operand
alone is the term of its level; of two or more the term is a disjunction or a
conjunction of all, or a chain of operations that associates to the left.

    formula := conj ('||' conj)*
    conj    := cmp ('&&' cmp)*
    cmp     := bitor (('==' | '!=' | '<u' | '<=u' | '<s' | '<=s') bitor)?
    bitor   := bitxor ('|' bitxor)*
    bitxor  := bitand ('^' bitand)*
    bitand  := shift ('&' shift)*
    shift   := sum (('<<' | '>>') sum)*
    sum     := prod (('+' | '-') prod)*
    prod    := unary (('*' | '/' | '%') unary)*
    unary   := ('-' | '~' | '!') unary | atom
    atom    := NUMBER | 'true' | 'false' | IDENT
             | '%' IDENT ('{' NUMBER ';' NUMBER '}')?
             | '[' formula ']' | '(' formula ')'

No two derivations from a level yield the same tokens. A mark that goes on with
a term of some level never follows a term of this level as a whole, so that
derivations from one level are told apart from the left, also where tokens
follow them that do not go on.
-/

namespace Backslice

/-- The rank of the level that a mark goes on with, where a term precedes it. -/
def Mark.rank : Mark → Nat
  | .openBrace => 1
  | .star | .slash | .percent => 2
  | .plus | .minus => 3
  | .shiftLeft | .shiftRight => 4
  | .amp => 5
  | .caret => 6
  | .bar => 7
  | .equalEqual | .bangEqual | .lessU | .lessEqualU | .lessS | .lessEqualS => 8
  | .ampAmp => 9
  | .barBar => 10
  | _ => 11

namespace Grammar

/-- The operators of a chain, and the operations they stand for. -/
def Chain.operators : Chain → List (Mark × BinaryOp)
  | .bitOr => [(.bar, .bitOr)]
  | .bitXor => [(.caret, .bitXor)]
  | .bitAnd => [(.amp, .bitAnd)]
  | .shift => [(.shiftLeft, .shl), (.shiftRight, .shr)]
  | .sum => [(.plus, .add), (.minus, .sub)]
  | .product => [(.star, .mul), (.slash, .udiv), (.percent, .umod)]

/-- The comparisons, and the terms they stand for. -/
def comparisons : List (Mark × (Term → Term → Term)) :=
  [(.equalEqual, .eq), (.bangEqual, fun a b => Term.negate (.eq a b)), (.lessU, .binary .ltU),
    (.lessEqualU, .binary .leU), (.lessS, .binary .ltS), (.lessEqualS, .binary .leS)]

/-- The prefix operators, and the terms they stand for. -/
def prefixes : List (Mark × (Term → Term)) :=
  [(.minus, .unary .neg), (.tilde, .unary .complement), (.bang, Term.negate)]

mutual

/-- The derivations from a level. -/
inductive Derivation : Level → Type
  | formula (first : Derivation .conjunction) (others : Operands .barBar .conjunction) : Derivation .disjunction
  | conj (first : Derivation .comparison) (others : Operands .ampAmp .comparison) : Derivation .conjunction
  | cmp (only : Derivation (.chain .bitOr)) : Derivation .comparison
  | compared (left : Derivation (.chain .bitOr)) (m : Mark) (join : Term → Term → Term) (h : (m, join) ∈ comparisons)
      (right : Derivation (.chain .bitOr)) : Derivation .comparison
  | chain {c : Chain} (first : Derivation c.operandLevel) (others : Links c) : Derivation (.chain c)
  | prefixed (m : Mark) (apply : Term → Term) (h : (m, apply) ∈ prefixes) (operand : Derivation .unary) :
      Derivation .unary
  | number (v : UInt64) : Derivation .unary
  | truth (b : Bool) : Derivation .unary
  | var (name : String) (h : name ≠ "true" ∧ name ≠ "false") : Derivation .unary
  | register (name : String) : Derivation .unary
  | slice (name : String) (offset size : UInt64) (h : offset ≤ 65535 ∧ 1 ≤ size ∧ size ≤ 65535) : Derivation .unary
  | cell (address : Derivation .disjunction) : Derivation .unary
  | group (inner : Derivation .disjunction) : Derivation .unary

/-- Further operands of a level, each after the mark. -/
inductive Operands : Mark → Level → Type
  | none {m : Mark} {level : Level} : Operands m level
  | more {m : Mark} {level : Level} (operand : Derivation level) (others : Operands m level) : Operands m level

/-- Further operands of a chain, each after an operator of the chain. -/
inductive Links : Chain → Type
  | none {c : Chain} : Links c
  | more {c : Chain} (m : Mark) (op : BinaryOp) (h : (m, op) ∈ c.operators) (operand : Derivation c.operandLevel)
      (others : Links c) : Links c

end

mutual

/-- The tokens in the leaves, from left to right. -/
def Derivation.yield : {level : Level} → Derivation level → List Token
  | _, .formula first others => first.yield ++ others.yield
  | _, .conj first others => first.yield ++ others.yield
  | _, .cmp only => only.yield
  | _, .compared left m _ _ right => left.yield ++ .mark m :: right.yield
  | _, .chain first others => first.yield ++ others.yield
  | _, .prefixed m _ _ operand => .mark m :: operand.yield
  | _, .number v => [.number v]
  | _, .truth b => [.name (if b then "true" else "false")]
  | _, .var name _ => [.name name]
  | _, .register name => [.mark .percent, .name name]
  | _, .slice name offset size _ =>
      [.mark .percent, .name name, .mark .openBrace, .number offset, .mark .semicolon, .number size, .mark .closeBrace]
  | _, .cell address => .mark .openBracket :: (address.yield ++ [.mark .closeBracket])
  | _, .group inner => .mark .openParen :: (inner.yield ++ [.mark .closeParen])

def Operands.yield : {m : Mark} → {level : Level} → Operands m level → List Token
  | _, _, .none => []
  | m, _, .more operand others => .mark m :: (operand.yield ++ others.yield)

def Links.yield : {c : Chain} → Links c → List Token
  | _, .none => []
  | _, .more m _ _ operand others => .mark m :: (operand.yield ++ others.yield)

end

mutual

/-- The term that is built along a derivation. -/
def Derivation.term : {level : Level} → Derivation level → Term
  | _, .formula first .none => first.term
  | _, .formula first (.more operand others) => Term.disj (first.term :: operand.term :: others.terms)
  | _, .conj first .none => first.term
  | _, .conj first (.more operand others) => Term.conj (first.term :: operand.term :: others.terms)
  | _, .cmp only => only.term
  | _, .compared left _ join _ right => join left.term right.term
  | _, .chain first others => others.termFrom first.term
  | _, .prefixed _ apply _ operand => apply operand.term
  | _, .number v => .const v
  | _, .truth b => .bool b
  | _, .var name _ => .var name
  | _, .register name => .reg name 0 0
  | _, .slice name offset size _ => .reg name offset.toUInt16 size.toUInt16
  | _, .cell address => .mem address.term
  | _, .group inner => inner.term

def Operands.terms : {m : Mark} → {level : Level} → Operands m level → List Term
  | _, _, .none => []
  | _, _, .more operand others => operand.term :: others.terms

/-- The operands of a chain joined to the term in front of them, one after the other. -/
def Links.termFrom : {c : Chain} → Links c → Term → Term
  | _, .none, left => left
  | _, .more _ op _ operand others, left => others.termFrom (.binary op left operand.term)

end

/-- Whether no term of a level of this rank goes on with the tokens. -/
def Stops (rank : Nat) (ts : List Token) : Prop :=
  ∀ m rest, ts = .mark m :: rest → rank < m.rank

theorem stops_nil (rank : Nat) : Stops rank [] := by
  rintro m rest ⟨⟩

theorem stops_mark {rank : Nat} {m : Mark} {ts : List Token} (h : rank < m.rank) : Stops rank (.mark m :: ts) := by
  rintro _ _ ⟨⟩
  exact h

theorem Stops.mono {rank rank' : Nat} {ts : List Token} (h : Stops rank ts) (hle : rank' ≤ rank) : Stops rank' ts :=
  fun m rest hts => Nat.lt_of_le_of_lt hle (h m rest hts)

theorem not_stops_mark {m : Mark} {ts : List Token} : ¬Stops m.rank (.mark m :: ts) :=
  fun h => Nat.lt_irrefl _ (h m ts rfl)

theorem Chain.rank_of_mem_operators {c : Chain} {m : Mark} {op : BinaryOp} (h : (m, op) ∈ c.operators) :
    m.rank = (Level.chain c).rank := by
  cases c <;> simp only [operators, List.mem_cons, List.not_mem_nil, or_false, Prod.mk.injEq] at h <;>
    obtain ⟨rfl, -⟩ | ⟨rfl, -⟩ | ⟨rfl, -⟩ := h <;> rfl

theorem rank_of_mem_comparisons {m : Mark} {join : Term → Term → Term} (h : (m, join) ∈ comparisons) :
    m.rank = Level.comparison.rank := by
  simp only [comparisons, List.mem_cons, List.not_mem_nil, or_false, Prod.mk.injEq] at h
  obtain ⟨rfl, -⟩ | ⟨rfl, -⟩ | ⟨rfl, -⟩ | ⟨rfl, -⟩ | ⟨rfl, -⟩ | ⟨rfl, -⟩ := h <;> rfl

theorem Chain.operators_functional {c : Chain} {m : Mark} {op op' : BinaryOp} (h : (m, op) ∈ c.operators)
    (h' : (m, op') ∈ c.operators) : op = op' := by
  cases c <;> simp only [operators, List.mem_cons, List.not_mem_nil, or_false, Prod.mk.injEq] at h h' <;> grind

theorem comparisons_functional {m : Mark} {join join' : Term → Term → Term} (h : (m, join) ∈ comparisons)
    (h' : (m, join') ∈ comparisons) : join = join' := by
  simp only [comparisons, List.mem_cons, List.not_mem_nil, or_false, Prod.mk.injEq] at h h'
  grind

theorem prefixes_functional {m : Mark} {apply apply' : Term → Term} (h : (m, apply) ∈ prefixes)
    (h' : (m, apply') ∈ prefixes) : apply = apply' := by
  simp only [prefixes, List.mem_cons, List.not_mem_nil, or_false, Prod.mk.injEq] at h h'
  grind

theorem mem_prefixes_ne {m : Mark} {apply : Term → Term} (h : (m, apply) ∈ prefixes) :
    m ≠ .percent ∧ m ≠ .openBracket ∧ m ≠ .openParen := by
  simp only [prefixes, List.mem_cons, List.not_mem_nil, or_false, Prod.mk.injEq] at h
  obtain ⟨rfl, -⟩ | ⟨rfl, -⟩ | ⟨rfl, -⟩ := h <;> decide

theorem Operands.stops {m : Mark} {level : Level} (others : Operands m level) {rank : Nat} {ts : List Token}
    (hrank : rank < m.rank) (h : Stops rank ts) : Stops rank (others.yield ++ ts) := by
  cases others with
  | none => exact h
  | more operand others => exact stops_mark hrank

theorem Links.stops {c : Chain} (others : Links c) {rank : Nat} {ts : List Token} (hrank : rank < (Level.chain c).rank)
    (h : Stops rank ts) : Stops rank (others.yield ++ ts) := by
  cases others with
  | none => exact h
  | more m op hop operand others =>
      refine stops_mark ?_
      rwa [Chain.rank_of_mem_operators hop]

mutual

/-- A derivation from a level is determined by what it yields, also where tokens follow that do not go on with it. -/
theorem Derivation.unique : {level : Level} → (d d' : Derivation level) → {ts ts' : List Token} →
    Stops level.rank ts → Stops level.rank ts' → d.yield ++ ts = d'.yield ++ ts' → d = d' ∧ ts = ts'
  | _, .formula first others, .formula first' others', ts, ts', hts, hts', h => by
      simp only [Derivation.yield, List.append_assoc] at h
      obtain ⟨rfl, hrest⟩ := first.unique first' (others.stops (by decide) (hts.mono (by decide)))
        (others'.stops (by decide) (hts'.mono (by decide))) h
      obtain ⟨rfl, rfl⟩ := others.unique (by decide) others' hts hts' hrest
      exact ⟨rfl, rfl⟩
  | _, .conj first others, .conj first' others', ts, ts', hts, hts', h => by
      simp only [Derivation.yield, List.append_assoc] at h
      obtain ⟨rfl, hrest⟩ := first.unique first' (others.stops (by decide) (hts.mono (by decide)))
        (others'.stops (by decide) (hts'.mono (by decide))) h
      obtain ⟨rfl, rfl⟩ := others.unique (by decide) others' hts hts' hrest
      exact ⟨rfl, rfl⟩
  | _, .cmp only, .cmp only', ts, ts', hts, hts', h => by
      obtain ⟨rfl, hrest⟩ := only.unique only' (hts.mono (by decide)) (hts'.mono (by decide)) h
      exact ⟨rfl, hrest⟩
  | _, .cmp only, .compared left' m' join' hm' right', ts, ts', hts, hts', h => by
      -- A mark of comparison goes on with the operand, so it does not come first in the tokens behind.
      have hrank := rank_of_mem_comparisons hm'
      simp only [Derivation.yield, List.append_assoc, List.cons_append] at h
      obtain ⟨-, rfl⟩ := only.unique left' (hts.mono (by decide)) (stops_mark (by rw [hrank]; decide)) h
      exact absurd (hrank ▸ hts) not_stops_mark
  | _, .compared left m join hm right, .cmp only', ts, ts', hts, hts', h => by
      have hrank := rank_of_mem_comparisons hm
      simp only [Derivation.yield, List.append_assoc, List.cons_append] at h
      obtain ⟨-, rfl⟩ := left.unique only' (stops_mark (by rw [hrank]; decide)) (hts'.mono (by decide)) h
      exact absurd (hrank ▸ hts') not_stops_mark
  | _, .compared left m join hm right, .compared left' m' join' hm' right', ts, ts', hts, hts', h => by
      simp only [Derivation.yield, List.append_assoc, List.cons_append] at h
      obtain ⟨rfl, hafter⟩ := left.unique left' (stops_mark (by rw [rank_of_mem_comparisons hm]; decide))
        (stops_mark (by rw [rank_of_mem_comparisons hm']; decide)) h
      obtain ⟨hmark, hright⟩ := List.cons.inj hafter
      obtain rfl := Token.mark.inj hmark
      obtain rfl := comparisons_functional hm hm'
      obtain ⟨rfl, hrest⟩ := right.unique right' (hts.mono (by decide)) (hts'.mono (by decide)) hright
      exact ⟨rfl, hrest⟩
  | _, .chain (c := c) first others, .chain first' others', ts, ts', hts, hts', h => by
      simp only [Derivation.yield, List.append_assoc] at h
      have hrank := c.rank_operandLevel_lt
      have hle := Nat.le_of_lt hrank
      obtain ⟨rfl, hrest⟩ := first.unique first' (others.stops hrank (hts.mono hle))
        (others'.stops hrank (hts'.mono hle)) h
      obtain ⟨rfl, rfl⟩ := others.unique others' hts hts' hrest
      exact ⟨rfl, rfl⟩
  | _, .prefixed m apply hm operand, d', ts, ts', hts, hts', h => by
      have hnot := mem_prefixes_ne hm
      cases d' with
      | prefixed m' apply' hm' operand' =>
          obtain ⟨hmark, hoperand⟩ := List.cons.inj h
          obtain rfl := Token.mark.inj hmark
          obtain rfl := prefixes_functional hm hm'
          obtain ⟨rfl, hrest⟩ := operand.unique operand' hts hts' hoperand
          exact ⟨rfl, hrest⟩
      | _ => simp [Derivation.yield, hnot] at h
  | _, .number v, d', ts, ts', hts, hts', h => by
      cases d' <;> simp only [Derivation.yield, List.cons_append, List.nil_append, List.cons.injEq, reduceCtorEq, false_and,
        Token.number.injEq] at h
      exact ⟨by rw [h.1], h.2⟩
  | _, .truth b, d', ts, ts', hts, hts', h => by
      cases d' with
      | truth b' => cases b <;> cases b' <;> simp [Derivation.yield] at h <;> exact ⟨rfl, h⟩
      | var name hname => cases b <;> simp [Derivation.yield] at h <;> grind
      | _ => simp [Derivation.yield] at h
  | _, .var name hname, d', ts, ts', hts, hts', h => by
      cases d' with
      | truth b' => cases b' <;> simp [Derivation.yield] at h <;> grind
      | var name' hname' =>
          simp only [Derivation.yield, List.cons_append, List.nil_append, List.cons.injEq, Token.name.injEq] at h
          obtain ⟨rfl, rfl⟩ := h
          exact ⟨rfl, rfl⟩
      | _ => simp [Derivation.yield] at h
  | _, .register name, d', ts, ts', hts, hts', h => by
      cases d' with
      | register name' =>
          simp only [Derivation.yield, List.cons_append, List.nil_append, List.cons.injEq, Token.name.injEq, true_and] at h
          obtain ⟨rfl, rfl⟩ := h
          exact ⟨rfl, rfl⟩
      | slice name' offset size hrange =>
          simp only [Derivation.yield, List.cons_append, List.nil_append, List.cons.injEq, true_and] at h
          -- A brace goes on with a register, so it does not come first in the tokens behind.
          exact absurd (h.2 ▸ hts) (not_stops_mark (m := .openBrace))
      | prefixed m apply hm operand => simp [Derivation.yield, (mem_prefixes_ne hm).1.symm] at h
      | _ => simp [Derivation.yield] at h
  | _, .slice name offset size hrange, d', ts, ts', hts, hts', h => by
      cases d' with
      | register name' =>
          simp only [Derivation.yield, List.cons_append, List.nil_append, List.cons.injEq, true_and] at h
          exact absurd (h.2 ▸ hts') (not_stops_mark (m := .openBrace))
      | slice name' offset' size' hrange' =>
          simp only [Derivation.yield, List.cons_append, List.nil_append, List.cons.injEq, Token.name.injEq, Token.number.injEq,
            true_and] at h
          obtain ⟨rfl, rfl, rfl, rfl⟩ := h
          exact ⟨rfl, rfl⟩
      | prefixed m apply hm operand => simp [Derivation.yield, (mem_prefixes_ne hm).1.symm] at h
      | _ => simp [Derivation.yield] at h
  | _, .cell address, d', ts, ts', hts, hts', h => by
      cases d' with
      | cell address' =>
          simp only [Derivation.yield, List.cons_append, List.append_assoc, List.nil_append, List.cons.injEq, true_and] at h
          obtain ⟨rfl, hrest⟩ := address.unique address' (stops_mark (by decide)) (stops_mark (by decide)) h
          exact ⟨rfl, (List.cons.inj hrest).2⟩
      | prefixed m apply hm operand => simp [Derivation.yield, (mem_prefixes_ne hm).2.1.symm] at h
      | _ => simp [Derivation.yield] at h
  | _, .group inner, d', ts, ts', hts, hts', h => by
      cases d' with
      | group inner' =>
          simp only [Derivation.yield, List.cons_append, List.append_assoc, List.nil_append, List.cons.injEq, true_and] at h
          obtain ⟨rfl, hrest⟩ := inner.unique inner' (stops_mark (by decide)) (stops_mark (by decide)) h
          exact ⟨rfl, (List.cons.inj hrest).2⟩
      | prefixed m apply hm operand => simp [Derivation.yield, (mem_prefixes_ne hm).2.2.symm] at h
      | _ => simp [Derivation.yield] at h

theorem Operands.unique : {m : Mark} → {level : Level} → (others : Operands m level) → level.rank < m.rank →
    (others' : Operands m level) → {ts ts' : List Token} → Stops m.rank ts → Stops m.rank ts' →
      others.yield ++ ts = others'.yield ++ ts' → others = others' ∧ ts = ts'
  | _, _, .none, _, .none, _, _, _, _, h => ⟨rfl, h⟩
  | _, _, .none, _, .more operand' others', _, _, hts, _, h => absurd (hts _ _ h) (Nat.lt_irrefl _)
  | _, _, .more operand others, _, .none, _, _, _, hts', h => absurd (hts' _ _ h.symm) (Nat.lt_irrefl _)
  | _, _, .more operand others, hrank, .more operand' others', _, _, hts, hts', h => by
      have hle := Nat.le_of_lt hrank
      have hoperand := (List.cons.inj h).2
      simp only [List.append_eq, List.append_assoc] at hoperand
      obtain ⟨rfl, hothers⟩ := operand.unique operand' (others.stops hrank (hts.mono hle))
        (others'.stops hrank (hts'.mono hle)) hoperand
      obtain ⟨rfl, hrest⟩ := others.unique hrank others' hts hts' hothers
      exact ⟨rfl, hrest⟩

theorem Links.unique : {c : Chain} → (others others' : Links c) → {ts ts' : List Token} →
    Stops (Level.chain c).rank ts → Stops (Level.chain c).rank ts' →
      others.yield ++ ts = others'.yield ++ ts' → others = others' ∧ ts = ts'
  | _, .none, .none, _, _, _, _, h => ⟨rfl, h⟩
  | _, .none, .more m' op' hm' operand' others', _, _, hts, _, h =>
      absurd (hts _ _ h) (Chain.rank_of_mem_operators hm' ▸ Nat.lt_irrefl _)
  | _, .more m op hm operand others, .none, _, _, _, hts', h =>
      absurd (hts' _ _ h.symm) (Chain.rank_of_mem_operators hm ▸ Nat.lt_irrefl _)
  | c, .more m op hm operand others, .more m' op' hm' operand' others', _, _, hts, hts', h => by
      obtain ⟨hmark, hoperand⟩ := List.cons.inj h
      obtain rfl := Token.mark.inj hmark
      obtain rfl := Chain.operators_functional hm hm'
      simp only [List.append_eq, List.append_assoc] at hoperand
      have hrank := c.rank_operandLevel_lt
      have hle := Nat.le_of_lt hrank
      obtain ⟨rfl, hothers⟩ := operand.unique operand' (others.stops hrank (hts.mono hle))
        (others'.stops hrank (hts'.mono hle)) hoperand
      obtain ⟨rfl, hrest⟩ := others.unique others' hts hts' hothers
      exact ⟨rfl, hrest⟩

end

end Grammar
end Backslice
