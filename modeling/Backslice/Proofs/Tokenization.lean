import Backslice.Proofs.Lists
import Backslice.Token
import Mathlib

/-!
# Texts and their tokens

How a text splits into tokens, without reference to the scan that does it.
Blanks stand anywhere. A numeral starts with a digit and a name with a letter or
an underscore, and both take every character that may go on with them. Of the
marks that a text starts with, the one that comes first in `Mark.all` is taken.
A numeral writes its value in hexadecimal digits after `0x` or `0X`, and in
decimal digits otherwise.

The scan finds the tokens of a text if there are any. The offsets that it
reports, of tokens and of faults, are places between two characters.
-/

namespace Backslice

namespace Numeral

/-- Whether characters are digits of a base, one at least, that write a number. -/
def Writes (base : Nat) (cs : List Char) (n : Nat) : Prop :=
  cs ≠ [] ∧ ∃ ds : List Nat, cs.map (digitValue? base) = ds.map some ∧ n = Nat.ofDigits base ds.reverse

/-- The digits that go on with a value are read as long as the value is a word. -/
theorem readFrom_eq_ok_iff {base value n : Nat} {cs : List Char} (hvalue : value < UInt64.size) (hbase : 0 < base) :
    readFrom base value cs = .ok n ↔
      n < UInt64.size ∧ ∃ ds : List Nat, cs.map (digitValue? base) = ds.map some ∧
        n = base ^ cs.length * value + Nat.ofDigits base ds.reverse := by
  induction cs generalizing value with
  | nil =>
      simp only [readFrom, Except.ok.injEq, List.map_nil, List.length_nil, pow_zero, one_mul]
      constructor
      · rintro rfl
        exact ⟨hvalue, [], rfl, by simp⟩
      · rintro ⟨-, ds, hds, rfl⟩
        obtain rfl : ds = [] := by simpa using hds.symm
        simp
  | cons c cs ih =>
      rw [readFrom]
      cases hc : digitValue? base c with
      | none =>
          simp only [reduceCtorEq, List.map_cons, hc, false_iff, not_and, not_exists]
          intro _ ds hds
          cases ds <;> simp at hds
      | some d =>
          -- The digit read moves from the digits that are left into the value read so far.
          have hgrows : ∀ ds : List Nat, cs.map (digitValue? base) = ds.map some →
              base ^ (c :: cs).length * value + Nat.ofDigits base (d :: ds).reverse =
                base ^ cs.length * (value * base + d) + Nat.ofDigits base ds.reverse := fun ds hds => by
            have hlen : ds.length = cs.length := by simpa using (congrArg List.length hds).symm
            rw [List.reverse_cons, Nat.ofDigits_append, List.length_reverse, hlen, Nat.ofDigits_singleton,
              List.length_cons, pow_succ]
            ring
          have hiff : (∃ ds : List Nat, (c :: cs).map (digitValue? base) = ds.map some ∧
                n = base ^ (c :: cs).length * value + Nat.ofDigits base ds.reverse) ↔
              ∃ ds : List Nat, cs.map (digitValue? base) = ds.map some ∧
                n = base ^ cs.length * (value * base + d) + Nat.ofDigits base ds.reverse := by
            constructor
            · rintro ⟨ds, hds, rfl⟩
              cases ds with
              | nil => simp at hds
              | cons e ds =>
                  simp only [List.map_cons, hc, List.cons.injEq, Option.some.injEq] at hds
                  obtain ⟨rfl, hds⟩ := hds
                  exact ⟨ds, hds, hgrows ds hds⟩
            · rintro ⟨ds, hds, rfl⟩
              exact ⟨d :: ds, by simp [hc, hds], (hgrows ds hds).symm⟩
          dsimp only
          rw [hiff]
          split
          next hlt => exact ih hlt
          next hlarge =>
            simp only [reduceCtorEq, false_iff, not_and, not_exists]
            rintro hn ds - rfl
            have hpow : 0 < base ^ cs.length := Nat.pow_pos hbase
            have hle := Nat.le_mul_of_pos_left (value * base + d) hpow
            omega

theorem read_eq_ok_iff {base : Nat} (hbase : 0 < base) {cs : List Char} {v : UInt64} :
    read base cs = .ok v ↔ Writes base cs v.toNat := by
  unfold read Writes
  cases cs with
  | nil => simp
  | cons c cs =>
      have hread : (readFrom base 0 (c :: cs)).map UInt64.ofNat = .ok v ↔
          readFrom base 0 (c :: cs) = .ok v.toNat := by
        cases h : readFrom base 0 (c :: cs) with
        | error e => simp [Except.map]
        | ok n =>
            have hn := ((readFrom_eq_ok_iff (by decide) hbase).1 h).1
            simp only [Except.map, Except.ok.injEq]
            constructor
            · rintro rfl
              rw [UInt64.toNat_ofNat', Nat.mod_eq_of_lt hn]
            · rintro rfl
              simp
      simp only [List.isEmpty_cons, Bool.false_eq_true, if_false]
      rw [hread, readFrom_eq_ok_iff (by decide) hbase]
      simp [v.toNat_lt_size]

end Numeral

namespace Token

/-- Whether a literal writes a word. -/
def Writes (literal : List Char) (v : UInt64) : Prop :=
  (∃ ds, (literal = '0' :: 'x' :: ds ∨ literal = '0' :: 'X' :: ds) ∧ Numeral.Writes 16 ds v.toNat) ∨
    Numeral.Writes 10 literal v.toNat

theorem not_writes_ten {c : Char} {cs : List Char} {n : Nat} (hc : Numeral.digitValue? 10 c = none) :
    ¬Numeral.Writes 10 ('0' :: c :: cs) n := by
  rintro ⟨-, ds, hds, -⟩
  rcases ds with _ | ⟨d, _ | ⟨e, ds⟩⟩ <;> simp [hc] at hds

theorem numeral_eq_ok_iff {literal : List Char} {v : UInt64} : numeral literal = .ok v ↔ Writes literal v := by
  unfold numeral Writes
  split
  next ds =>
    have hten : ¬Numeral.Writes 10 ('0' :: 'x' :: ds) v.toNat := not_writes_ten rfl
    rw [Numeral.read_eq_ok_iff (by decide)]
    simp [hten]
  next ds =>
    have hten : ¬Numeral.Writes 10 ('0' :: 'X' :: ds) v.toNat := not_writes_ten rfl
    rw [Numeral.read_eq_ok_iff (by decide)]
    simp [hten]
  next hx hX =>
    have hnone : ¬∃ ds, (literal = '0' :: 'x' :: ds ∨ literal = '0' :: 'X' :: ds) ∧
        Numeral.Writes 16 ds v.toNat := by
      rintro ⟨ds, h | h, -⟩
      · exact hx ds h
      · exact hX ds h
    rw [Numeral.read_eq_ok_iff (by decide), or_iff_right hnone]

end Token

/-- Whether a mark is the first in the list of all marks that a text starts with. -/
def Mark.IsFirst (m : Mark) (cs : List Char) : Prop :=
  ∃ before after, Mark.all = before ++ m :: after ∧ m.text.toList <+: cs ∧ ∀ k ∈ before, ¬k.text.toList <+: cs

/-- The tokens that a text splits into. -/
inductive Splits : List Char → List Token → Prop
  | nil : Splits [] []
  | blank {c : Char} {cs : List Char} {ts : List Token} (hc : Token.isBlank c = true) (h : Splits cs ts) :
      Splits (c :: cs) ts
  | number {c : Char} {rest cs : List Char} {v : UInt64} {ts : List Token} (hc : c.isDigit = true)
      (hrest : ∀ d ∈ rest, Token.isNumeralPart d = true) (hend : ∀ d ∈ cs.head?, Token.isNumeralPart d = false)
      (hv : Token.Writes (c :: rest) v) (h : Splits cs ts) : Splits (c :: rest ++ cs) (.number v :: ts)
  | name {c : Char} {rest cs : List Char} {ts : List Token} (hc : Token.isNameStart c = true)
      (hrest : ∀ d ∈ rest, Token.isNamePart d = true) (hend : ∀ d ∈ cs.head?, Token.isNamePart d = false)
      (h : Splits cs ts) : Splits (c :: rest ++ cs) (.name (String.ofList (c :: rest)) :: ts)
  | mark {m : Mark} {cs : List Char} {ts : List Token} (hm : m.IsFirst (m.text.toList ++ cs)) (h : Splits cs ts) :
      Splits (m.text.toList ++ cs) (.mark m :: ts)

/-- Whether a text is a name, as tokens have them. -/
def Token.IsName (name : String) : Prop :=
  ∃ c rest, name = String.ofList (c :: rest) ∧ isNameStart c = true ∧ ∀ d ∈ rest, isNamePart d = true

theorem Splits.isName {cs : List Char} {ts : List Token} (h : Splits cs ts) {name : String} (hname : .name name ∈ ts) :
    Token.IsName name := by
  induction h with
  | nil => simp at hname
  | blank _ _ ih => exact ih hname
  | number _ _ _ _ _ ih => exact ih (by simpa using hname)
  | @name c rest cs ts hc hrest _ _ ih =>
      rcases List.mem_cons.1 hname with heq | hname
      · exact ⟨c, rest, Token.name.inj heq, hc, hrest⟩
      · exact ih hname
  | mark _ _ ih => exact ih (by simpa using hname)

theorem Mark.scan?_eq_some_iff {m : Mark} {cs rest : List Char} :
    Mark.scan? cs = some (m, rest) ↔ m.IsFirst cs ∧ cs = m.text.toList ++ rest := by
  have hfound : ∀ k : Mark, (if k.text.toList.isPrefixOf cs then some (k, cs.drop k.text.length) else none) =
      some (m, rest) ↔ k = m ∧ cs = m.text.toList ++ rest := by
    intro k
    constructor
    · intro h
      split at h
      next hp =>
        obtain ⟨rfl, rfl⟩ := Prod.mk.inj (Option.some.inj h)
        obtain ⟨suffix, rfl⟩ := List.isPrefixOf_iff_prefix.1 hp
        simp [← String.length_toList]
      next => cases h
    · rintro ⟨rfl, rfl⟩
      simp [← String.length_toList]
  have hmissing : ∀ k : Mark, (if k.text.toList.isPrefixOf cs then some (k, cs.drop k.text.length) else none) =
      none ↔ ¬k.text.toList <+: cs := by
    intro k
    rw [← List.isPrefixOf_iff_prefix]
    simp
  rw [Mark.scan?, List.findSome?_eq_some_iff]
  constructor
  · rintro ⟨before, k, after, hall, hk, hbefore⟩
    obtain ⟨rfl, hcs⟩ := (hfound k).1 hk
    exact ⟨⟨before, after, hall, hcs ▸ List.prefix_append _ _, fun j hj => (hmissing j).1 (hbefore j hj)⟩, hcs⟩
  · rintro ⟨⟨before, after, hall, hp, hbefore⟩, hcs⟩
    exact ⟨before, m, after, hall, (hfound m).2 ⟨rfl, hcs⟩, fun j hj => (hmissing j).2 (hbefore j hj)⟩

namespace Token

theorem isBlank_of_isAlphanum {c : Char} (h : c.isAlphanum = true) : isBlank c = false := by
  by_contra hblank
  simp only [isBlank, Bool.not_eq_false, Bool.or_eq_true, beq_iff_eq] at hblank
  rcases hblank with (((rfl | rfl) | rfl) | rfl) | rfl <;> exact absurd h (by decide)

theorem isBlank_of_isNameStart {c : Char} (h : isNameStart c = true) : isBlank c = false ∧ c.isDigit = false := by
  rw [isNameStart, Bool.or_eq_true, beq_iff_eq] at h
  rcases h with h | rfl
  · refine ⟨isBlank_of_isAlphanum (by simp [Char.isAlphanum, h]), ?_⟩
    simp only [Char.isAlpha, Char.isUpper, Char.isLower, Char.isDigit, Bool.or_eq_true, decide_eq_true_eq,
      ge_iff_le, UInt32.le_iff_toNat_le, Bool.and_eq_true, Bool.and_eq_false_iff, decide_eq_false_iff_not] at h ⊢
    have hupper : 'A'.val.toNat = 65 := rfl
    have hlower : 'a'.val.toNat = 97 := rfl
    have hnine : '9'.val.toNat = 57 := rfl
    omega
  · exact ⟨rfl, rfl⟩

theorem val_le_of_isAlphanum {c : Char} (h : c.isAlphanum = true ∨ c = '_' ∨ c = '.') : c.val ≤ 127 := by
  rcases h with h | rfl | rfl
  · simp only [Char.isAlphanum, Char.isAlpha, Char.isUpper, Char.isLower, Char.isDigit, Bool.or_eq_true,
      Bool.and_eq_true, decide_eq_true_eq, ge_iff_le, UInt32.le_iff_toNat_le] at h ⊢
    have hupper : 'Z'.val.toNat = 90 := rfl
    have hlower : 'z'.val.toNat = 122 := rfl
    have hnine : '9'.val.toNat = 57 := rfl
    have hlast : (127 : UInt32).toNat = 127 := rfl
    omega
  all_goals decide

end Token

theorem utf8ByteSize_of_ascii {cs : List Char} (h : ∀ c ∈ cs, c.val ≤ 127) :
    (String.ofList cs).utf8ByteSize = cs.length := by
  induction cs with
  | nil => rfl
  | cons c cs ih =>
      have hc : c.utf8Size = 1 := Char.utf8Size_eq_one_iff.2 (h c (by simp))
      rw [String.ofList_cons, String.utf8ByteSize_append, String.utf8ByteSize_singleton, hc,
        ih fun d hd => h d (by simp [hd]), List.length_cons, Nat.add_comm]

theorem Mark.exists_head (m : Mark) : ∃ c rest, m.text.toList = c :: rest ∧ Token.isBlank c = false ∧
    c.isDigit = false ∧ Token.isNameStart c = false := by
  cases m <;> exact ⟨_, _, rfl, rfl, rfl, rfl⟩

/-- The scan finds the tokens of a text. -/
theorem Splits.exists_scan {cs : List Char} {ts : List Token} (h : Splits cs ts) (offset : Nat) :
    ∃ lexemes, Lexeme.scan offset cs = .ok lexemes ∧ lexemes.map (·.token) = ts := by
  induction h generalizing offset with
  | nil => exact ⟨[], by rw [Lexeme.scan], rfl⟩
  | blank hc _ ih =>
      obtain ⟨lexemes, hscan, htokens⟩ := ih (offset + 1)
      exact ⟨lexemes, by rw [Lexeme.scan, if_pos hc, hscan], htokens⟩
  | @number c rest cs v ts hc hrest hend hv _ ih =>
      obtain ⟨htake, hdrop⟩ := List.takeWhile_append_eq hrest hend
      obtain ⟨lexemes, hscan, htokens⟩ := ih (offset + (c :: rest).length)
      have hblank := Token.isBlank_of_isAlphanum (c := c) (by simp [Char.isAlphanum, hc])
      refine ⟨⟨offset, .number v⟩ :: lexemes, ?_, by rw [List.map_cons, htokens]⟩
      rw [List.cons_append, Lexeme.scan, if_neg (by simp [hblank]), if_pos hc]
      dsimp only
      rw [htake, Token.numeral_eq_ok_iff.2 hv, hdrop, hscan]
      rfl
  | @name c rest cs ts hc hrest hend _ ih =>
      obtain ⟨htake, hdrop⟩ := List.takeWhile_append_eq hrest hend
      obtain ⟨lexemes, hscan, htokens⟩ := ih (offset + (c :: rest).length)
      obtain ⟨hblank, hdigit⟩ := Token.isBlank_of_isNameStart hc
      refine ⟨⟨offset, .name (String.ofList (c :: rest))⟩ :: lexemes, ?_, by rw [List.map_cons, htokens]⟩
      rw [List.cons_append, Lexeme.scan, if_neg (by simp [hblank]), if_neg (by simp [hdigit]), if_pos hc]
      dsimp only
      rw [htake, hdrop, hscan]
      rfl
  | @mark m cs ts hm _ ih =>
      obtain ⟨c, rest, htext, hblank, hdigit, hname⟩ := m.exists_head
      obtain ⟨lexemes, hscan, htokens⟩ := ih (offset + m.text.length)
      refine ⟨⟨offset, .mark m⟩ :: lexemes, ?_, by rw [List.map_cons, htokens]⟩
      have hfirst := Mark.scan?_eq_some_iff.2 ⟨hm, rfl⟩
      rw [htext, List.cons_append] at hfirst ⊢
      rw [Lexeme.scan, if_neg (by simp [hblank]), if_neg (by simp [hdigit]), if_neg (by simp [hname])]
      split
      next k after heq =>
        obtain ⟨rfl, rfl⟩ := Prod.mk.inj (Option.some.inj (heq.symm.trans hfirst))
        rw [hscan]
        rfl
      next heq => exact absurd (heq.symm.trans hfirst) (by simp)

/-- Whether an offset is between two characters of a text that starts at another offset. -/
def IsPlace (start : Nat) (cs : List Char) (offset : Nat) : Prop :=
  ∃ before after, cs = before ++ after ∧ offset = start + (String.ofList before).utf8ByteSize

theorem isPlace_start (start : Nat) (cs : List Char) : IsPlace start cs start :=
  ⟨[], cs, rfl, rfl⟩

theorem IsPlace.append {start offset : Nat} {consumed cs : List Char} (hascii : ∀ c ∈ consumed, c.val ≤ 127)
    (h : IsPlace (start + consumed.length) cs offset) : IsPlace start (consumed ++ cs) offset := by
  obtain ⟨before, after, rfl, rfl⟩ := h
  refine ⟨consumed ++ before, after, by rw [List.append_assoc], ?_⟩
  rw [String.ofList_append, String.utf8ByteSize_append, utf8ByteSize_of_ascii hascii, Nat.add_assoc]

theorem IsPlace.isValid {text : String} {offset : Nat} (h : IsPlace 0 text.toList offset) :
    (String.Pos.Raw.mk offset).IsValid text := by
  obtain ⟨before, after, htext, rfl⟩ := h
  refine String.Pos.Raw.isValid_iff_exists_append.2 ⟨String.ofList before, String.ofList after, ?_, ?_⟩
  · rw [← String.ofList_append, ← htext, String.ofList_toList]
  · rw [Nat.zero_add]
    rfl

/-- What the scan of a text that starts at an offset comes to: its tokens in their places, or the place of a fault. -/
def Scanned (start : Nat) (cs : List Char) : Except ParseError (List Lexeme) → Prop
  | .ok lexemes => Splits cs (lexemes.map (·.token)) ∧ ∀ x ∈ lexemes, IsPlace start cs x.offset
  | .error e => IsPlace start cs e.offset

theorem Scanned.token {start : Nat} {consumed cs : List Char} {t : Token} {result : Except ParseError (List Lexeme)}
    (hascii : ∀ c ∈ consumed, c.val ≤ 127) (hsplits : ∀ ts, Splits cs ts → Splits (consumed ++ cs) (t :: ts))
    (h : Scanned (start + consumed.length) cs result) :
    Scanned start (consumed ++ cs) (result.map (⟨start, t⟩ :: ·)) := by
  cases result with
  | error e => exact IsPlace.append hascii h
  | ok lexemes =>
      refine ⟨hsplits _ h.1, fun x hx => ?_⟩
      rcases List.mem_cons.1 hx with rfl | hx
      · exact isPlace_start _ _
      · exact (h.2 x hx).append hascii

theorem Mark.text_ascii (m : Mark) : ∀ c ∈ m.text.toList, c.val ≤ 127 := by
  cases m <;> simp [Mark.text]

/-- A character, and those that go on with it, in front of what does not. -/
theorem scanned_run {start : Nat} {c : Char} {rest : List Char} {part : Char → Bool} {t : Token}
    {result : Except ParseError (List Lexeme)} (hc : c.val ≤ 127) (hpart : ∀ d, part d = true → d.val ≤ 127)
    (hsplits : (∀ d ∈ rest.takeWhile part, part d = true) → (∀ d ∈ (rest.dropWhile part).head?, part d = false) →
      ∀ ts, Splits (rest.dropWhile part) ts → Splits (c :: rest.takeWhile part ++ rest.dropWhile part) (t :: ts))
    (h : Scanned (start + (c :: rest.takeWhile part).length) (rest.dropWhile part) result) :
    Scanned start (c :: rest) (result.map (⟨start, t⟩ :: ·)) := by
  have htake : ∀ d ∈ rest.takeWhile part, part d = true := List.all_eq_true.1 List.all_takeWhile
  have hdrop : ∀ d ∈ (rest.dropWhile part).head?, part d = false := by
    intro d hd
    have hnot := List.head?_dropWhile_not part rest
    rw [hd] at hnot
    simpa using hnot
  have hcs : c :: rest = c :: rest.takeWhile part ++ rest.dropWhile part := by
    rw [List.cons_append, List.takeWhile_append_dropWhile]
  rw [hcs]
  refine Scanned.token (fun d hd => ?_) (hsplits htake hdrop) h
  rcases List.mem_cons.1 hd with rfl | hd
  · exact hc
  · exact hpart d (htake d hd)

/-- A scan comes to the tokens of the text, and its offsets are places in the text. -/
theorem scanned_scan (start : Nat) (cs : List Char) : Scanned start cs (Lexeme.scan start cs) := by
  fun_induction Lexeme.scan start cs with
  | case1 start => exact ⟨.nil, by simp⟩
  | case2 start c rest hblank ih =>
      have hascii : ∀ d ∈ [c], d.val ≤ 127 := by
        simp only [Token.isBlank, Bool.or_eq_true, beq_iff_eq] at hblank
        rcases hblank with (((rfl | rfl) | rfl) | rfl) | rfl <;> simp
      cases hscan : Lexeme.scan (start + 1) rest with
      | error e =>
          rw [hscan] at ih
          have hplace : IsPlace (start + [c].length) rest e.offset := ih
          exact hplace.append hascii
      | ok lexemes =>
          rw [hscan] at ih
          refine ⟨.blank hblank ih.1, fun x hx => ?_⟩
          have hplace : IsPlace (start + [c].length) rest x.offset := ih.2 x hx
          exact hplace.append hascii
  | case3 start c rest _ _ literal fault hfault => exact isPlace_start _ _
  | case4 start c rest _ hc literal v hv ih =>
      refine scanned_run (Token.val_le_of_isAlphanum (Or.inl (by simp [Char.isAlphanum, hc]))) (fun d hd => ?_)
        (fun htake hdrop ts hts => .number hc htake hdrop (Token.numeral_eq_ok_iff.1 hv) hts) ih
      rw [Token.isNumeralPart, Bool.or_eq_true, beq_iff_eq] at hd
      exact Token.val_le_of_isAlphanum (hd.imp id Or.inl)
  | case5 start c rest _ _ hc name ih =>
      refine scanned_run ?_ (fun d hd => ?_) (fun htake hdrop ts hts => .name hc htake hdrop hts) ih
      · rw [Token.isNameStart, Bool.or_eq_true, beq_iff_eq] at hc
        exact Token.val_le_of_isAlphanum (hc.imp (fun h => by simp [Char.isAlphanum, h]) Or.inl)
      · rw [Token.isNamePart, Bool.or_eq_true, Bool.or_eq_true, beq_iff_eq, beq_iff_eq, or_assoc] at hd
        exact Token.val_le_of_isAlphanum hd
  | case6 start c rest _ _ _ m after hm _ ih =>
      obtain ⟨hfirst, hcs⟩ := Mark.scan?_eq_some_iff.1 hm
      rw [← String.length_toList] at ih
      rw [hcs] at hfirst ⊢
      exact Scanned.token m.text_ascii (fun ts hts => .mark hfirst hts) (by rwa [← String.length_toList])
  | case7 start c rest _ _ _ hm => exact isPlace_start _ _

/-- A text splits into tokens in one way at most. -/
theorem Splits.unique {cs : List Char} {ts ts' : List Token} (h : Splits cs ts) (h' : Splits cs ts') : ts = ts' := by
  obtain ⟨lexemes, hscan, rfl⟩ := h.exists_scan 0
  obtain ⟨lexemes', hscan', rfl⟩ := h'.exists_scan 0
  rw [Except.ok.inj (hscan.symm.trans hscan')]

end Backslice
