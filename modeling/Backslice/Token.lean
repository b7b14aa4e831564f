import Backslice.Numeral

/-!
# Tokens

A text splits into marks, names and numerals. Blanks separate tokens and mean
nothing else. A numeral takes every letter, digit and underscore that follows
its first digit, a name also takes dots, and of several marks that fit the one
that comes first in `Mark.all` is taken. Offsets count the bytes of the text in
UTF-8.

Numbers on the command line, and texts quoted in errors, are trimmed: there,
white space is what has the Unicode property.
-/

namespace Backslice

/-- The Unicode property White_Space. -/
def isWhiteSpace (c : Char) : Bool :=
  let n := c.toNat
  (0x9 ≤ n && n ≤ 0xd) || n == 0x20 || n == 0x85 || n == 0xa0 || n == 0x1680 ||
    (0x2000 ≤ n && n ≤ 0x200a) || n == 0x2028 || n == 0x2029 || n == 0x202f || n == 0x205f || n == 0x3000

/-- The characters between the white space at both ends. -/
def trim (cs : List Char) : List Char :=
  ((cs.dropWhile isWhiteSpace).reverse.dropWhile isWhiteSpace).reverse

/-- Operators and punctuation. -/
inductive Mark where
  | lessEqualU
  | lessEqualS
  | barBar
  | ampAmp
  | equalEqual
  | bangEqual
  | shiftLeft
  | shiftRight
  | lessU
  | lessS
  | plus
  | minus
  | star
  | slash
  | percent
  | amp
  | bar
  | caret
  | tilde
  | bang
  | openParen
  | closeParen
  | openBracket
  | closeBracket
  | openBrace
  | closeBrace
  | semicolon
deriving DecidableEq

namespace Mark

def text : Mark → String
  | .lessEqualU => "<=u"
  | .lessEqualS => "<=s"
  | .barBar => "||"
  | .ampAmp => "&&"
  | .equalEqual => "=="
  | .bangEqual => "!="
  | .shiftLeft => "<<"
  | .shiftRight => ">>"
  | .lessU => "<u"
  | .lessS => "<s"
  | .plus => "+"
  | .minus => "-"
  | .star => "*"
  | .slash => "/"
  | .percent => "%"
  | .amp => "&"
  | .bar => "|"
  | .caret => "^"
  | .tilde => "~"
  | .bang => "!"
  | .openParen => "("
  | .closeParen => ")"
  | .openBracket => "["
  | .closeBracket => "]"
  | .openBrace => "\x7b"
  | .closeBrace => "\x7d"
  | .semicolon => ";"

/-- Every mark, in the order in which they are tried. -/
def all : List Mark :=
  [.lessEqualU, .lessEqualS, .barBar, .ampAmp, .equalEqual, .bangEqual, .shiftLeft, .shiftRight, .lessU,
    .lessS, .plus, .minus, .star, .slash, .percent, .amp, .bar, .caret, .tilde, .bang, .openParen,
    .closeParen, .openBracket, .closeBracket, .openBrace, .closeBrace, .semicolon]

theorem mem_all (m : Mark) : m ∈ all := by
  cases m <;> decide

/-- The first mark that a text starts with, and what follows it. -/
def scan? (cs : List Char) : Option (Mark × List Char) :=
  all.findSome? fun m =>
    if m.text.toList.isPrefixOf cs then some (m, cs.drop m.text.length) else none

end Mark

inductive Token where
  | number (value : UInt64)
  | name (text : String)
  | mark (m : Mark)
deriving DecidableEq

/-- A token with the offset of its first byte. -/
structure Lexeme where
  offset : Nat
  token : Token
deriving DecidableEq

/-- What is wrong with a text that denotes no term. -/
inductive ParseFault where
  | invalidNumber (literal : String)
  | unexpectedCharacter (c : Char)
  | registerNameExpected
  | numberExpected
  | markExpected (m : Mark)
  | invalidRegisterSlice
  | unexpectedToken
  | unexpectedEnd
  | trailingInput
deriving DecidableEq

def ParseFault.message : ParseFault → String
  | .invalidNumber literal => "invalid number `" ++ literal ++ "`"
  | .unexpectedCharacter c => "unexpected character `" ++ c.toString ++ "`"
  | .registerNameExpected => "expected a register name after `%`"
  | .numberExpected => "expected a number"
  | .markExpected m => "expected `" ++ m.text ++ "`"
  | .invalidRegisterSlice => "invalid register slice"
  | .unexpectedToken => "unexpected token"
  | .unexpectedEnd => "unexpected end of input"
  | .trailingInput => "trailing input"

/-- A fault and the byte offset at which it was noticed. -/
structure ParseError where
  offset : Nat
  fault : ParseFault
deriving DecidableEq

def ParseError.message (e : ParseError) : String :=
  "parse error at offset " ++ toString e.offset ++ ": " ++ e.fault.message

namespace Token

/-- Space, tab, line feed, form feed and carriage return. -/
def isBlank (c : Char) : Bool :=
  c == ' ' || c == '\t' || c == '\n' || c == '\x0c' || c == '\r'

def isNameStart (c : Char) : Bool :=
  c.isAlpha || c == '_'

def isNamePart (c : Char) : Bool :=
  c.isAlphanum || c == '_' || c == '.'

def isNumeralPart (c : Char) : Bool :=
  c.isAlphanum || c == '_'

/-- The value of a literal: hexadecimal after `0x` or `0X`, and decimal otherwise. -/
def numeral (literal : List Char) : Except Numeral.Fault UInt64 :=
  match literal with
  | '0' :: 'x' :: cs | '0' :: 'X' :: cs => Numeral.read 16 cs
  | cs => Numeral.read 10 cs

end Token

theorem Mark.length_scan? {cs rest : List Char} {m : Mark} (h : Mark.scan? cs = some (m, rest)) :
    rest.length < cs.length := by
  obtain ⟨k, hk, hm⟩ := List.exists_of_findSome?_eq_some h
  split at hm
  next hp =>
    have hpos : 0 < k.text.length := by cases k <;> decide
    have hle := (List.isPrefixOf_iff_prefix.1 hp).length_le
    simp only [Option.some.injEq, Prod.mk.injEq] at hm
    rw [← hm.2, List.length_drop]
    rw [String.length_toList] at hle
    omega
  next => simp at hm

/-- The tokens of a text whose first byte has the given offset. -/
def Lexeme.scan (offset : Nat) (cs : List Char) : Except ParseError (List Lexeme) :=
  match cs with
  | [] => .ok []
  | c :: rest =>
      if Token.isBlank c then
        scan (offset + 1) rest
      else if c.isDigit then
        let literal := c :: rest.takeWhile Token.isNumeralPart
        match Token.numeral literal with
        | .error _ => .error ⟨offset, .invalidNumber (String.ofList literal)⟩
        | .ok v =>
            (scan (offset + literal.length) (rest.dropWhile Token.isNumeralPart)).map
              (⟨offset, .number v⟩ :: ·)
      else if Token.isNameStart c then
        let name := c :: rest.takeWhile Token.isNamePart
        (scan (offset + name.length) (rest.dropWhile Token.isNamePart)).map
          (⟨offset, .name (String.ofList name)⟩ :: ·)
      else
        match h : Mark.scan? (c :: rest) with
        | some (m, after) =>
            have := Mark.length_scan? h
            (scan (offset + m.text.length) after).map (⟨offset, .mark m⟩ :: ·)
        | none => .error ⟨offset, .unexpectedCharacter c⟩
termination_by cs.length
decreasing_by
  · simp
  · exact Nat.lt_succ_of_le (List.dropWhile_suffix _).length_le
  · exact Nat.lt_succ_of_le (List.dropWhile_suffix _).length_le
  · exact this

end Backslice
