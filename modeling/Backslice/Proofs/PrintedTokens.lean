import Backslice.Proofs.Closure
import Backslice.Proofs.Tokenization
import Backslice.TermText

/-!
# The tokens of a printed term

The text of a term without quantifiers and conditionals, with names that a text
can write, splits into the tokens of the term: a numeral for a word, the mark of
every operation, and parentheses around every operation on two operands or more.
That no token goes on where it should end rests on what stands behind a term in
a text, a space or a bracket, and on what a term starts with.

The constructors keep the property that a term can be printed in this way.
-/

namespace Backslice

namespace Numeral

theorem digitValue?_digitChar {base d : Nat} (hd : d < base) (hbase : base ≤ 16) :
    digitValue? base (Nat.digitChar d) = some d := by
  have h16 : ∀ e < 16, digitValue? 16 (Nat.digitChar e) = some e := by decide
  have hd16 := h16 d (Nat.lt_of_lt_of_le hd hbase)
  unfold digitValue? at hd16 ⊢
  rw [Option.filter_eq_some_iff] at hd16 ⊢
  exact ⟨hd16.1, by simpa using hd⟩

theorem writes_toDigits {base : Nat} (hone : 1 < base) (hbase : base ≤ 16) (n : Nat) :
    Writes base (Nat.toDigits base n) n := by
  induction n using Nat.strongRecOn with
  | ind n ih =>
    rcases Nat.lt_or_ge n base with hlt | hge
    · rw [Nat.toDigits_of_lt_base hlt]
      exact ⟨by simp, [n], by simp [digitValue?_digitChar hlt hbase], by simp⟩
    · obtain ⟨-, ds, hds, hn⟩ := ih (n / base) (Nat.div_lt_self (by omega) hone)
      have hlast : n % base < base := Nat.mod_lt n (by omega)
      rw [Nat.toDigits_of_base_le hone hge]
      refine ⟨by simp, ds ++ [n % base], by simp [hds, digitValue?_digitChar hlast hbase], ?_⟩
      rw [List.reverse_append, List.reverse_singleton, List.singleton_append, Nat.ofDigits_cons, ← hn]
      exact (Nat.mod_add_div n base).symm

theorem isNumeralPart_of_digitValue? {base d : Nat} {c : Char} (h : digitValue? base c = some d) :
    Token.isNumeralPart c = true := by
  have halphanum : c.isAlphanum = true := by
    unfold digitValue? at h
    rw [Option.filter_eq_some_iff] at h
    have hvalue := h.1
    split at hvalue
    next hdigit => simp [Char.isAlphanum, hdigit]
    next =>
      split at hvalue
      next hlower => simp [Char.isAlphanum, Char.isAlpha, hlower]
      next =>
        split at hvalue
        next hupper => simp [Char.isAlphanum, Char.isAlpha, hupper]
        next => cases hvalue
  simp [Token.isNumeralPart, halphanum]

theorem Writes.isNumeralPart {base n : Nat} {cs : List Char} (h : Writes base cs n) :
    ∀ c ∈ cs, Token.isNumeralPart c = true := by
  obtain ⟨-, ds, hds, -⟩ := h
  intro c hc
  have hmem : digitValue? base c ∈ ds.map some := hds ▸ List.mem_map_of_mem hc
  obtain ⟨d, -, hd⟩ := List.mem_map.1 hmem
  exact isNumeralPart_of_digitValue? hd.symm

end Numeral

/-- Whether a text does not go on with a mark in front of it. -/
def Separate (cs : List Char) : Prop :=
  ∀ d ∈ cs.head?, d ≠ '|' ∧ d ≠ '&' ∧ d ≠ '='

/-- Whether a text ends, or goes on as it does behind a printed term. -/
def Closes (cs : List Char) : Prop :=
  ∀ d ∈ cs.head?, d = ' ' ∨ d = ')' ∨ d = ']'

theorem separate_of_isNamePart {c : Char} {cs : List Char} (hc : Token.isNamePart c = true) : Separate (c :: cs) := by
  rintro d ⟨⟩
  refine ⟨?_, ?_, ?_⟩ <;> rintro rfl <;> exact absurd hc (by decide)

theorem separate_name {name : String} (h : Token.IsName name) (cs : List Char) : Separate (name.toList ++ cs) := by
  obtain ⟨c, rest, rfl, hc, -⟩ := h
  rw [String.toList_ofList]
  refine separate_of_isNamePart ?_
  rw [Token.isNameStart, Bool.or_eq_true] at hc
  rcases hc with hc | hc <;> simp [Token.isNamePart, Char.isAlphanum, hc]

theorem exists_toDigits (n : Nat) : ∃ c rest, Nat.toDigits 10 n = c :: rest ∧ c.isDigit = true := by
  cases hdigits : Nat.toDigits 10 n with
  | nil => exact absurd hdigits Nat.toDigits_ne_nil
  | cons c rest =>
      exact ⟨c, rest, rfl, Nat.isDigit_of_mem_toDigits (by decide) (by decide) (hdigits ▸ List.mem_cons_self)⟩

theorem separate_digits (n : Nat) (cs : List Char) : Separate ((Numeral.digits 10 n).toList ++ cs) := by
  obtain ⟨c, rest, hdigits, hc⟩ := exists_toDigits n
  rw [Numeral.digits, String.toList_ofList, hdigits]
  exact separate_of_isNamePart (by simp [Token.isNamePart, Char.isAlphanum, hc])

theorem Closes.separate {cs : List Char} (h : Closes cs) : Separate cs := fun d hd => by
  rcases h d hd with rfl | rfl | rfl <;> decide

theorem Closes.not_isNamePart {cs : List Char} (h : Closes cs) : ∀ d ∈ cs.head?, Token.isNamePart d = false :=
  fun d hd => by rcases h d hd with rfl | rfl | rfl <;> decide

theorem Closes.not_isNumeralPart {cs : List Char} (h : Closes cs) : ∀ d ∈ cs.head?, Token.isNumeralPart d = false :=
  fun d hd => by rcases h d hd with rfl | rfl | rfl <;> decide

namespace Mark

/-- No mark that comes before another in the list of all marks is the start of it. -/
theorem not_isPrefix_of_before :
    ∀ m ∈ all, ∀ k ∈ all.takeWhile (· != m), ¬k.text.toList <+: m.text.toList := by
  decide

/-- A mark that goes on where another ends goes on with one of three characters. -/
theorem head_of_longer : ∀ m ∈ all, ∀ k ∈ all, m.text.toList <+: k.text.toList →
    (k.text.toList.drop m.text.toList.length).head? ∈ [none, some '|', some '&', some '='] := by
  decide

theorem isFirst_append (m : Mark) {cs : List Char} (h : Separate cs) : m.IsFirst (m.text.toList ++ cs) := by
  have hall : all = all.takeWhile (· != m) ++ m :: (all.dropWhile (· != m)).tail := by cases m <;> rfl
  refine ⟨_, _, hall, List.prefix_append _ cs, fun k hk hkcs => ?_⟩
  have hnot := not_isPrefix_of_before m (mem_all m) k hk
  rcases List.prefix_or_prefix_of_prefix hkcs (List.prefix_append m.text.toList cs) with hshorter | ⟨more, hmore⟩
  · exact hnot hshorter
  · have hhead := head_of_longer m (mem_all m) k (mem_all k) ⟨more, hmore⟩
    rw [← hmore, List.drop_left] at hhead
    rw [← hmore, List.prefix_append_right_inj] at hkcs
    cases more with
    | nil =>
        rw [List.append_nil] at hmore
        exact hnot (hmore ▸ List.prefix_refl _)
    | cons d more =>
        obtain ⟨rest, rfl⟩ := hkcs
        have hd := h d rfl
        simp [hd] at hhead

end Mark

section
variable {cs : List Char} {us : List Token}

theorem splits_mark (m : Mark) (hcs : Separate cs) (h : Splits cs us) :
    Splits (m.text.toList ++ cs) (.mark m :: us) :=
  .mark (m.isFirst_append hcs) h

theorem splits_spaced (m : Mark) (h : Splits cs us) : Splits (' ' :: (m.text.toList ++ ' ' :: cs)) (.mark m :: us) :=
  .blank rfl (splits_mark m (by rintro d ⟨⟩; decide) (.blank rfl h))

theorem splits_name {name : String} (hname : Token.IsName name) (hend : ∀ d ∈ cs.head?, Token.isNamePart d = false)
    (h : Splits cs us) : Splits (name.toList ++ cs) (.name name :: us) := by
  obtain ⟨c, rest, rfl, hc, hrest⟩ := hname
  rw [String.toList_ofList]
  exact .name hc hrest hend h

theorem splits_literal {c : Char} {rest : List Char} {v : UInt64} (hc : c.isDigit = true)
    (hrest : ∀ d ∈ rest, Token.isNumeralPart d = true) (hv : Token.Writes (c :: rest) v)
    (hend : ∀ d ∈ cs.head?, Token.isNumeralPart d = false) (h : Splits cs us) :
    Splits (c :: rest ++ cs) (.number v :: us) :=
  .number hc hrest hend hv h

theorem splits_decimal (v : UInt64) (hend : ∀ d ∈ cs.head?, Token.isNumeralPart d = false) (h : Splits cs us) :
    Splits ((Numeral.digits 10 v.toNat).toList ++ cs) (.number v :: us) := by
  have hwrites : Numeral.Writes 10 (Nat.toDigits 10 v.toNat) v.toNat :=
    Numeral.writes_toDigits (by decide) (by decide) _
  have hparts := hwrites.isNumeralPart
  rw [Numeral.digits, String.toList_ofList]
  obtain ⟨c, rest, hdigits, hc⟩ := exists_toDigits v.toNat
  rw [hdigits] at hwrites hparts ⊢
  exact splits_literal hc (fun d hd => hparts d (List.mem_cons_of_mem c hd)) (Or.inr hwrites) hend h

theorem splits_constText (v : UInt64) (hend : ∀ d ∈ cs.head?, Token.isNumeralPart d = false) (h : Splits cs us) :
    Splits ((Term.constText v).toList ++ cs) (.number v :: us) := by
  unfold Term.constText
  split
  next => exact splits_decimal v hend h
  next =>
    have hwrites : Numeral.Writes 16 (Nat.toDigits 16 v.toNat) v.toNat :=
      Numeral.writes_toDigits (by decide) (by decide) _
    have htext : (Numeral.hexadecimal v).toList = '0' :: 'x' :: Nat.toDigits 16 v.toNat := by
      rw [Numeral.hexadecimal, Numeral.digits, String.toList_append, String.toList_ofList, String.toList_ofList]
      rfl
    rw [htext]
    refine splits_literal rfl (List.forall_mem_cons.2 ⟨rfl, hwrites.isNumeralPart⟩) ?_ hend h
    exact Or.inl ⟨_, Or.inl rfl, hwrites⟩

end

/-- The mark of an operator. -/
def UnaryOp.mark : UnaryOp → Mark
  | .neg => .minus
  | .complement => .tilde

theorem UnaryOp.text_mark (op : UnaryOp) : op.mark.text = op.symbol := by
  cases op <;> rfl

/-- The mark of an operator. -/
def BinaryOp.mark : BinaryOp → Mark
  | .add => .plus
  | .sub => .minus
  | .mul => .star
  | .udiv => .slash
  | .umod => .percent
  | .bitAnd => .amp
  | .bitOr => .bar
  | .bitXor => .caret
  | .shl => .shiftLeft
  | .shr => .shiftRight
  | .ltU => .lessU
  | .leU => .lessEqualU
  | .ltS => .lessS
  | .leS => .lessEqualS

theorem BinaryOp.text_mark (op : BinaryOp) : op.mark.text = op.symbol := by
  cases op <;> rfl

namespace Term

/-- Whether a term has a text that can be read, as far as its head goes. -/
def HasPrintableHead : Term → Prop
  | .var name => Token.IsName name ∧ name ≠ "true" ∧ name ≠ "false"
  | .reg name offset size => Token.IsName name ∧ (size = 0 → offset = 0)
  | .quantified _ _ _ | .ite _ _ _ => False
  | _ => True

/-- Whether a term has a text that can be read: no part is a quantified formula or a conditional, names are names
of tokens, and no variable has the name of a truth value. -/
def IsPrintable (t : Term) : Prop :=
  ∀ u ∈ t.subterms, u.HasPrintableHead

theorem isPrintable_iff (t : Term) : t.IsPrintable ↔ t.HasPrintableHead ∧ ∀ c ∈ t.children, c.IsPrintable :=
  forall_subterms_iff t

theorem IsPrintable.head {t : Term} (h : t.IsPrintable) : t.HasPrintableHead :=
  ((isPrintable_iff t).1 h).1

theorem IsPrintable.child {t c : Term} (h : t.IsPrintable) (hc : c ∈ t.children) : c.IsPrintable :=
  ((isPrintable_iff t).1 h).2 c hc

/-- Lists of tokens with a mark between them. -/
def joinTokens (m : Mark) : List (List Token) → List Token
  | [] => []
  | ts :: tss => ts ++ tss.flatMap (.mark m :: ·)

/-- An operation on two operands in parentheses. -/
def infixTokens (m : Mark) (left right : List Token) : List Token :=
  .mark .openParen :: (left ++ .mark m :: (right ++ [.mark .closeParen]))

mutual

/-- The tokens of the text of a term. -/
def tokens : Term → List Token
  | .const v => [.number v]
  | .var n => [.name n]
  | .reg n o s =>
      .mark .percent :: .name n ::
        if s = 0 then []
        else [.mark .openBrace, .number o.toUInt64, .mark .semicolon, .number s.toUInt64, .mark .closeBrace]
  | .mem a => .mark .openBracket :: (tokens a ++ [.mark .closeBracket])
  | .unary op a => .mark op.mark :: tokens a
  | .binary op a b => infixTokens op.mark (tokens a) (tokens b)
  | .bool b => [.name (if b then "true" else "false")]
  | .eq a b => infixTokens .equalEqual (tokens a) (tokens b)
  | .not (.eq a b) => infixTokens .bangEqual (tokens a) (tokens b)
  | .not a => .mark .bang :: tokens a
  | .and xs => .mark .openParen :: (joinTokens .ampAmp (tokensAll xs) ++ [.mark .closeParen])
  | .or xs => .mark .openParen :: (joinTokens .barBar (tokensAll xs) ++ [.mark .closeParen])
  | .quantified _ _ _ | .ite _ _ _ => []

def tokensAll : List Term → List (List Token)
  | [] => []
  | x :: xs => tokens x :: tokensAll xs

end

theorem text_not {a : Term} (h : ∀ b c, a ≠ .eq b c) : (Term.not a).text = "!" ++ a.text := by
  cases a <;> first | rfl | exact absurd rfl (h _ _)

theorem tokens_not {a : Term} (h : ∀ b c, a ≠ .eq b c) : (Term.not a).tokens = .mark .bang :: a.tokens := by
  cases a <;> first | rfl | exact absurd rfl (h _ _)

/-- The text of a term starts with a character that no mark goes on with. -/
theorem separate_text {t : Term} (ht : t.IsPrintable) (cs : List Char) : Separate (t.text.toList ++ cs) := by
  cases t with
  | const v =>
      rw [text, constText]
      split
      next => exact separate_digits _ cs
      next => simp [Numeral.hexadecimal, Separate]
  | var n => exact separate_name ht.head.1 cs
  | not a =>
      by_cases heq : ∃ b c, a = .eq b c
      · obtain ⟨b, c, rfl⟩ := heq
        simp [text, Separate]
      · rw [text_not (by simpa using heq)]
        simp [Separate]
  | unary op a => cases op <;> simp [text, Separate, UnaryOp.symbol]
  | bool b => cases b <;> simp [text, Separate]
  | quantified q a b | ite c a b => exact ht.head.elim
  | reg n o s => simp [text, registerText, Separate]
  | _ => simp [text, Separate]

/-- Whether the text of a term splits into its tokens, in front of a text that a printed term may have behind it. -/
def Prints (t : Term) : Prop :=
  ∀ {cs : List Char} {us : List Token}, Closes cs → Splits cs us → Splits (t.text.toList ++ cs) (t.tokens ++ us)

theorem prints_reg {n : String} {o size : UInt16} (hn : Token.IsName n) : (Term.reg n o size).Prints := by
  intro cs us hcs h
  have hname : ∀ {ds : List Char} {vs : List Token}, (∀ d ∈ ds.head?, Token.isNamePart d = false) → Splits ds vs →
      Splits ('%' :: (n.toList ++ ds)) (.mark .percent :: .name n :: vs) := fun hend hds =>
    splits_mark .percent (separate_name hn _) (splits_name hn hend hds)
  rw [text, registerText, tokens]
  split
  next => simpa using hname hcs.not_isNamePart h
  next =>
    have hclose : Splits ('\x7d' :: cs) (.mark .closeBrace :: us) := splits_mark .closeBrace hcs.separate h
    have hsize := splits_decimal size.toUInt64 (by rintro d ⟨⟩; decide) hclose
    have hsep : Splits (';' :: _) (.mark .semicolon :: _) := splits_mark .semicolon (separate_digits _ _) hsize
    have hoffset := splits_decimal o.toUInt64 (by rintro d ⟨⟩; decide) hsep
    have hopen : Splits ('\x7b' :: _) (.mark .openBrace :: _) := splits_mark .openBrace (separate_digits _ _) hoffset
    simpa using hname (by rintro d ⟨⟩; decide) hopen

theorem splits_infix (m : Mark) {a b : Term} (ha : a.IsPrintable) (hpa : a.Prints) (hpb : b.Prints)
    {cs : List Char} {us : List Token} (hcs : Closes cs) (h : Splits cs us) :
    Splits ('(' :: (a.text.toList ++ (' ' :: (m.text.toList ++ ' ' :: (b.text.toList ++ ')' :: cs)))))
      (infixTokens m a.tokens b.tokens ++ us) := by
  have hclose : Splits (')' :: cs) (.mark .closeParen :: us) := splits_mark .closeParen hcs.separate h
  have hright := splits_spaced m (hpb (by rintro d ⟨⟩; simp) hclose)
  have hleft := hpa (by rintro d ⟨⟩; simp) hright
  have hopen : Splits ('(' :: _) (.mark .openParen :: _) := splits_mark .openParen (separate_text ha _) hleft
  simpa [infixTokens] using hopen

theorem splits_joined (m : Mark) {xs : List Term} (hxs : ∀ x ∈ xs, x.IsPrintable ∧ x.Prints) {cs : List Char}
    {us : List Token} (hcs : Closes cs) (h : Splits cs us) :
    Splits ('(' :: ((' ' :: (m.text.toList ++ [' '])).intercalate (xs.map (·.text.toList)) ++ ')' :: cs))
      (.mark .openParen :: (joinTokens m (xs.map tokens) ++ .mark .closeParen :: us)) := by
  have hclose : Splits (')' :: cs) (.mark .closeParen :: us) := splits_mark .closeParen hcs.separate h
  have hjoined : ∀ ys : List Term, (∀ y ∈ ys, y.IsPrintable ∧ y.Prints) →
      Separate ((' ' :: (m.text.toList ++ [' '])).intercalate (ys.map (·.text.toList)) ++ ')' :: cs) ∧
        Splits ((' ' :: (m.text.toList ++ [' '])).intercalate (ys.map (·.text.toList)) ++ ')' :: cs)
          (joinTokens m (ys.map tokens) ++ .mark .closeParen :: us) := by
    intro ys hys
    induction ys with
    | nil => exact ⟨by rintro d ⟨⟩; decide, by simpa [joinTokens] using hclose⟩
    | cons y ys ih =>
        have hy := hys y List.mem_cons_self
        cases ys with
        | nil =>
            refine ⟨by simpa using separate_text hy.1 (')' :: cs), ?_⟩
            simpa [joinTokens] using hy.2 (by rintro d ⟨⟩; simp) hclose
        | cons z zs =>
            have hrest := (ih fun x hx => hys x (List.mem_cons_of_mem y hx)).2
            have hall := hy.2 (by rintro d ⟨⟩; simp) (splits_spaced m hrest)
            rw [List.map_cons, List.map_cons, List.intercalate_cons_cons]
            refine ⟨by simpa using separate_text hy.1 _, ?_⟩
            simpa [joinTokens] using hall
  exact splits_mark .openParen (hjoined xs hxs).1 (hjoined xs hxs).2

theorem tokensAll_eq_map (xs : List Term) : tokensAll xs = xs.map tokens := by
  induction xs with
  | nil => rfl
  | cons x xs ih => rw [tokensAll, ih, List.map_cons]

/-- The text of a term that can be read splits into its tokens. -/
theorem IsPrintable.prints {t : Term} (ht : t.IsPrintable) : t.Prints := by
  -- a negated equality is printed with its sides, so that the induction is for all parts of a term
  suffices hall : ∀ u ∈ t.subterms, u.Prints by
    intro cs us hcs h
    exact hall t (mem_subterms_self t) hcs h
  induction t using inductionOnChildren with
  | step t ih =>
      have hchild : ∀ c ∈ t.children, ∀ u ∈ c.subterms, u.Prints := fun c hc => ih c hc (ht.child hc)
      have hself : ∀ c ∈ t.children, c.Prints := fun c hc => hchild c hc c (mem_subterms_self c)
      rw [subterms_eq]
      refine List.forall_mem_cons.2 ⟨?_, List.forall_mem_flatMap.2 hchild⟩
      intro cs us hcs h
      cases t with
      | const v => exact splits_constText v hcs.not_isNumeralPart h
      | var n => exact splits_name ht.head.1 hcs.not_isNamePart h
      | reg n o s => exact prints_reg ht.head.1 hcs h
      | mem a =>
          have hclose : Splits (']' :: cs) (.mark .closeBracket :: us) := splits_mark .closeBracket hcs.separate h
          have haddress := hself a (by simp [children]) (by rintro d ⟨⟩; simp) hclose
          have hopen : Splits ('[' :: _) (.mark .openBracket :: _) :=
            splits_mark .openBracket (separate_text (ht.child (by simp [children])) _) haddress
          simpa [text, tokens] using hopen
      | unary op a =>
          have hoperand := hself a (by simp [children]) hcs h
          have hop := splits_mark op.mark (separate_text (ht.child (by simp [children])) _) hoperand
          rw [text, tokens, ← op.text_mark, String.toList_append, List.append_assoc]
          exact hop
      | binary op a b =>
          have hop := splits_infix op.mark (ht.child (by simp [children])) (hself a (by simp [children]))
            (hself b (by simp [children])) hcs h
          rw [text, tokens, ← op.text_mark]
          simpa using hop
      | bool b =>
          have hname : ∀ b : Bool, Token.IsName (if b then "true" else "false") := by
            intro b
            cases b
            · exact ⟨'f', ['a', 'l', 's', 'e'], rfl, rfl, by simp [Token.isNamePart]⟩
            · exact ⟨'t', ['r', 'u', 'e'], rfl, rfl, by simp [Token.isNamePart]⟩
          exact splits_name (hname b) hcs.not_isNamePart h
      | eq a b =>
          have hop := splits_infix .equalEqual (ht.child (by simp [children])) (hself a (by simp [children]))
            (hself b (by simp [children])) hcs h
          simpa [text, tokens, Mark.text] using hop
      | not a =>
          have ha := ht.child (c := a) (by simp [children])
          by_cases heq : ∃ b c, a = .eq b c
          · obtain ⟨b, c, rfl⟩ := heq
            have hside : ∀ d ∈ (Term.eq b c).children, d.IsPrintable ∧ d.Prints := fun d hd =>
              ⟨ha.child hd, hchild _ (by simp [children]) d (mem_subterms_of_mem_children hd (mem_subterms_self d))⟩
            have hb := hside b (by simp [children])
            have hc := hside c (by simp [children])
            have hop := splits_infix .bangEqual hb.1 hb.2 hc.2 hcs h
            simpa [text, tokens, Mark.text] using hop
          · have hne : ∀ b c, a ≠ .eq b c := by simpa using heq
            have hop := splits_mark .bang (separate_text ha cs) (hself a (by simp [children]) hcs h)
            rw [text_not hne, tokens_not hne]
            simpa [Mark.text] using hop
      | and xs =>
          have hxs : ∀ x ∈ xs, x.IsPrintable ∧ x.Prints := fun x hx => ⟨ht.child hx, hself x hx⟩
          have hop := splits_joined .ampAmp hxs hcs h
          rw [text, tokens, textAll_eq_map, tokensAll_eq_map]
          simpa [Mark.text, Function.comp_def] using hop
      | or xs =>
          have hxs : ∀ x ∈ xs, x.IsPrintable ∧ x.Prints := fun x hx => ⟨ht.child hx, hself x hx⟩
          have hop := splits_joined .barBar hxs hcs h
          rw [text, tokens, textAll_eq_map, tokensAll_eq_map]
          simpa [Mark.text, Function.comp_def] using hop
      | quantified q a b | ite c a b => exact ht.head.elim

theorem isClosed_isPrintable : IsClosed IsPrintable :=
  isClosed_forall_subterms fun t ht => by cases t <;> trivial

end Term
end Backslice
