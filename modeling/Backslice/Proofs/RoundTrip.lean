import Mathlib
import Backslice.Proofs.ManagedTerms
import Backslice.Proofs.NormalTerms
import Backslice.Proofs.PrintedTokens

/-!
# Terms that are printed and read again

A normal term that can be printed is read from its text as the term that it is.
Its tokens derive from an atom or a prefix operation, as every other operation
stands in parentheses; the term that is built along the derivation is put
together by the constructors, and these leave a normal term as it is.

All terms of a manager are normal. The handle of a term that is printed is the
one that reading its text returns, because a manager stores a term once.
-/

namespace Backslice

namespace Grammar

open Term (infixTokens joinTokens)

/-- Whether tokens derive from a level, as a term. -/
def Derives (level : Level) (tokens : List Token) (t : Term) : Prop :=
  ∃ d : Derivation level, d.yield = tokens ∧ d.term = t

namespace Derives

variable {ts us : List Token} {t u : Term}

theorem chain (c : Chain) (h : Derives c.operandLevel ts t) : Derives (.chain c) ts t := by
  obtain ⟨d, rfl, rfl⟩ := h
  exact ⟨.chain d .none, by simp [Derivation.yield, Links.yield], rfl⟩

theorem cmp (h : Derives (.chain .bitOr) ts t) : Derives .comparison ts t := by
  obtain ⟨d, rfl, rfl⟩ := h
  exact ⟨.cmp d, rfl, rfl⟩

theorem conj (h : Derives .comparison ts t) : Derives .conjunction ts t := by
  obtain ⟨d, rfl, rfl⟩ := h
  exact ⟨.conj d .none, by simp [Derivation.yield, Operands.yield], rfl⟩

theorem formula (h : Derives .conjunction ts t) : Derives .disjunction ts t := by
  obtain ⟨d, rfl, rfl⟩ := h
  exact ⟨.formula d .none, by simp [Derivation.yield, Operands.yield], rfl⟩

theorem ofUnary (h : Derives .unary ts t) (level : Level) : Derives level ts t := by
  have hproduct : Derives (.chain .product) ts t := chain .product h
  have hsum : Derives (.chain .sum) ts t := chain .sum hproduct
  have hshift : Derives (.chain .shift) ts t := chain .shift hsum
  have hbitAnd : Derives (.chain .bitAnd) ts t := chain .bitAnd hshift
  have hbitXor : Derives (.chain .bitXor) ts t := chain .bitXor hbitAnd
  have hbitOr : Derives (.chain .bitOr) ts t := chain .bitOr hbitXor
  cases level with
  | disjunction => exact hbitOr.cmp.conj.formula
  | conjunction => exact hbitOr.cmp.conj
  | comparison => exact hbitOr.cmp
  | unary => exact h
  | chain c => cases c <;> assumption

theorem toDisjunction {level : Level} (h : Derives level ts t) : Derives .disjunction ts t := by
  have hbitOr : Derives (.chain .bitOr) ts t → Derives .disjunction ts t := fun h => h.cmp.conj.formula
  have hbitXor : Derives (.chain .bitXor) ts t → Derives .disjunction ts t := fun h => hbitOr (chain .bitOr h)
  have hbitAnd : Derives (.chain .bitAnd) ts t → Derives .disjunction ts t := fun h => hbitXor (chain .bitXor h)
  have hshift : Derives (.chain .shift) ts t → Derives .disjunction ts t := fun h => hbitAnd (chain .bitAnd h)
  have hsum : Derives (.chain .sum) ts t → Derives .disjunction ts t := fun h => hshift (chain .shift h)
  have hproduct : Derives (.chain .product) ts t → Derives .disjunction ts t := fun h => hsum (chain .sum h)
  cases level with
  | disjunction => exact h
  | conjunction => exact h.formula
  | comparison => exact h.conj.formula
  | unary => exact h.ofUnary .disjunction
  | chain c =>
      cases c with
      | bitOr => exact hbitOr h
      | bitXor => exact hbitXor h
      | bitAnd => exact hbitAnd h
      | shift => exact hshift h
      | sum => exact hsum h
      | product => exact hproduct h

theorem group {level : Level} (h : Derives level ts t) :
    Derives .unary (.mark .openParen :: (ts ++ [.mark .closeParen])) t := by
  obtain ⟨d, rfl, rfl⟩ := h.toDisjunction
  exact ⟨.group d, rfl, rfl⟩

theorem compared {m : Mark} {join : Term → Term → Term} (hm : (m, join) ∈ comparisons) (ht : Derives .unary ts t)
    (hu : Derives .unary us u) : Derives .unary (infixTokens m ts us) (join t u) := by
  obtain ⟨left, rfl, rfl⟩ := ht.ofUnary (.chain .bitOr)
  obtain ⟨right, rfl, rfl⟩ := hu.ofUnary (.chain .bitOr)
  have hcompared : Derives .comparison (left.yield ++ .mark m :: right.yield) (join left.term right.term) :=
    ⟨.compared left m join hm right, rfl, rfl⟩
  simpa [infixTokens] using hcompared.group

theorem binary (op : BinaryOp) (ht : Derives .unary ts t) (hu : Derives .unary us u) :
    Derives .unary (infixTokens op.mark ts us) (.binary op t u) := by
  have hchain : ∀ c : Chain, (op.mark, op) ∈ c.operators →
      Derives .unary (infixTokens op.mark ts us) (.binary op t u) := by
    intro c hop
    obtain ⟨left, rfl, rfl⟩ := ht.ofUnary c.operandLevel
    obtain ⟨right, rfl, rfl⟩ := hu.ofUnary c.operandLevel
    have hlinked : Derives (.chain c) (left.yield ++ .mark op.mark :: right.yield) (.binary op left.term right.term) :=
      ⟨.chain left (.more op.mark op hop right .none), by simp [Derivation.yield, Links.yield], rfl⟩
    simpa [infixTokens] using hlinked.group
  cases op with
  | add | sub => exact hchain .sum (by simp [BinaryOp.mark, Chain.operators])
  | mul | udiv | umod => exact hchain .product (by simp [BinaryOp.mark, Chain.operators])
  | bitAnd => exact hchain .bitAnd (by simp [BinaryOp.mark, Chain.operators])
  | bitOr => exact hchain .bitOr (by simp [BinaryOp.mark, Chain.operators])
  | bitXor => exact hchain .bitXor (by simp [BinaryOp.mark, Chain.operators])
  | shl | shr => exact hchain .shift (by simp [BinaryOp.mark, Chain.operators])
  | ltU | leU | ltS | leS => exact compared (by simp [BinaryOp.mark, comparisons]) ht hu

theorem prefixed {m : Mark} {apply : Term → Term} (hm : (m, apply) ∈ prefixes) (ht : Derives .unary ts t) :
    Derives .unary (.mark m :: ts) (apply t) := by
  obtain ⟨d, rfl, rfl⟩ := ht
  exact ⟨.prefixed m apply hm d, rfl, rfl⟩

theorem exists_operands (m : Mark) (level : Level) {xs : List Term} (hxs : ∀ x ∈ xs, Derives .unary x.tokens x) :
    ∃ ds : Operands m level, ds.yield = (xs.map Term.tokens).flatMap (.mark m :: ·) ∧ ds.terms = xs := by
  induction xs with
  | nil => exact ⟨.none, rfl, rfl⟩
  | cons x xs ih =>
      obtain ⟨d, hd, hterm⟩ := (hxs x List.mem_cons_self).ofUnary level
      obtain ⟨ds, hds, hterms⟩ := ih fun y hy => hxs y (List.mem_cons_of_mem x hy)
      refine ⟨.more d ds, ?_, ?_⟩
      · simp [Operands.yield, hd, hds]
      · rw [Operands.terms, hterm, hterms]

theorem exists_joined (m : Mark) (level : Level) {xs : List Term} (hlength : 2 ≤ xs.length)
    (hxs : ∀ x ∈ xs, Derives .unary x.tokens x) :
    ∃ (first second : Derivation level) (others : Operands m level),
      first.yield ++ (Operands.more second others).yield = joinTokens m (xs.map Term.tokens) ∧
        first.term :: second.term :: others.terms = xs := by
  match xs with
  | [] | [_] => simp at hlength
  | x :: y :: zs =>
      obtain ⟨first, hfirst, rfl⟩ := (hxs x List.mem_cons_self).ofUnary level
      obtain ⟨second, hsecond, rfl⟩ := (hxs y (by simp)).ofUnary level
      have hzs : ∀ z ∈ zs, Derives .unary z.tokens z := fun z hz => hxs z (by simp [hz])
      obtain ⟨others, hothers, rfl⟩ := exists_operands m level hzs
      exact ⟨first, second, others, by simp [joinTokens, Operands.yield, hfirst, hsecond, hothers], rfl⟩

theorem joinedAnd {xs : List Term} (hlength : 2 ≤ xs.length) (hxs : ∀ x ∈ xs, Derives .unary x.tokens x) :
    Derives .unary (.mark .openParen :: (joinTokens .ampAmp (xs.map Term.tokens) ++ [.mark .closeParen]))
      (Term.conj xs) := by
  obtain ⟨first, second, others, hyield, rfl⟩ := exists_joined .ampAmp .comparison hlength hxs
  have hconj : Derives .conjunction _ _ := ⟨.conj first (.more second others), hyield, rfl⟩
  exact hconj.group

theorem joinedOr {xs : List Term} (hlength : 2 ≤ xs.length) (hxs : ∀ x ∈ xs, Derives .unary x.tokens x) :
    Derives .unary (.mark .openParen :: (joinTokens .barBar (xs.map Term.tokens) ++ [.mark .closeParen]))
      (Term.disj xs) := by
  obtain ⟨first, second, others, hyield, rfl⟩ := exists_joined .barBar .conjunction hlength hxs
  have hdisj : Derives .disjunction _ _ := ⟨.formula first (.more second others), hyield, rfl⟩
  exact hdisj.group

end Derives
end Grammar

namespace Term

open Grammar

theorem derives_reg {n : String} {o s : UInt16} (h : s = 0 → o = 0) :
    Derives .unary (Term.reg n o s).tokens (.reg n o s) := by
  rw [tokens]
  split
  next hs => exact ⟨.register n, rfl, by rw [hs, h hs]; rfl⟩
  next hs =>
    have htop : ∀ v : UInt16, v.toUInt64 ≤ 65535 := fun v => by
      rw [UInt64.le_iff_toNat_le, UInt16.toNat_toUInt64]
      exact Nat.le_of_lt_succ v.toNat_lt
    have hone : 1 ≤ s.toUInt64 := by
      rw [UInt64.le_iff_toNat_le, UInt16.toNat_toUInt64]
      exact Nat.one_le_iff_ne_zero.2 fun hzero => hs (UInt16.toNat_inj.1 hzero)
    exact ⟨.slice n o.toUInt64 s.toUInt64 ⟨htop o, hone, htop s⟩, rfl, by simp [Derivation.term]⟩

/-- The tokens of a normal term that can be read derive from an atom or a prefix operation, as the term. -/
theorem IsPrintable.derives {t : Term} (ht : t.IsPrintable) (hn : t.IsNormal) : Derives .unary t.tokens t := by
  -- a negated equality is printed with its sides, so that the induction is for all parts of a term
  suffices hall : ∀ u ∈ t.subterms, Derives .unary u.tokens u from hall t (mem_subterms_self t)
  induction t using inductionOnChildren with
  | step t ih =>
      have hchild : ∀ c ∈ t.children, ∀ u ∈ c.subterms, Derives .unary u.tokens u := fun c hc =>
        ih c hc (ht.child hc) (hn.child hc)
      have hself : ∀ c ∈ t.children, Derives .unary c.tokens c := fun c hc => hchild c hc c (mem_subterms_self c)
      rw [subterms_eq]
      refine List.forall_mem_cons.2 ⟨?_, List.forall_mem_flatMap.2 hchild⟩
      cases t with
      | const v => exact ⟨.number v, rfl, rfl⟩
      | var n => exact ⟨.var n ht.head.2, rfl, rfl⟩
      | reg n o s => exact derives_reg ht.head.2
      | mem a =>
          obtain ⟨d, hd, hterm⟩ := (hself a (by simp [children])).ofUnary .disjunction
          exact ⟨.cell d, by rw [Derivation.yield, hd, tokens], by rw [Derivation.term, hterm]⟩
      | unary op a =>
          have ha := hself a (by simp [children])
          cases op with
          | neg => exact ha.prefixed (by simp [UnaryOp.mark, prefixes])
          | complement => exact ha.prefixed (by simp [UnaryOp.mark, prefixes])
      | binary op a b => exact (hself a (by simp [children])).binary op (hself b (by simp [children]))
      | bool b => exact ⟨.truth b, rfl, rfl⟩
      | eq a b =>
          exact Derives.compared (by simp [comparisons]) (hself a (by simp [children])) (hself b (by simp [children]))
      | not a =>
          by_cases heq : ∃ b c, a = .eq b c
          · obtain ⟨b, c, rfl⟩ := heq
            have hside : ∀ d ∈ (Term.eq b c).children, Derives .unary d.tokens d := fun d hd =>
              hchild _ (by simp [children]) d (mem_subterms_of_mem_children hd (mem_subterms_self d))
            have hmem : (Mark.bangEqual, fun a b => Term.negate (.eq a b)) ∈ comparisons := by simp [comparisons]
            exact Derives.compared hmem (hside b (by simp [children])) (hside c (by simp [children]))
          · have hprefixed : Derives .unary (.mark .bang :: a.tokens) a.negate :=
              (hself a (by simp [children])).prefixed (by simp [prefixes])
            rw [tokens_not (by simpa using heq)]
            rwa [show a.negate = .not a from hn.head] at hprefixed
      | and xs =>
          have hjoined := Derives.joinedAnd hn.head.1 hself
          rwa [conj_of_isNormal hn, ← tokensAll_eq_map] at hjoined
      | or xs =>
          have hjoined := Derives.joinedOr hn.head.1 hself
          rwa [disj_of_isNormal hn, ← tokensAll_eq_map] at hjoined
      | quantified q a b | ite c a b => exact ht.head.elim

/-- A normal term that can be read is read from its text. -/
theorem IsPrintable.parse_text {t : Term} (ht : t.IsPrintable) (hn : t.IsNormal) : parse t.text = .ok t := by
  obtain ⟨d, hd, hterm⟩ := (ht.derives hn).ofUnary .disjunction
  have hsplits : Splits t.text.toList d.yield := by
    simpa [hd] using ht.prints (by rintro d ⟨⟩) .nil
  rw [parse_eq_ok hsplits, hterm]

/-- Every term that a text is read as can be printed. -/
theorem isPrintable_of_parse {text : String} {t : Term} (h : parse text = .ok t) : t.IsPrintable := by
  have hnames : ∀ name, Token.IsName name →
      (nameTerm name).IsPrintable ∧ ∀ o s : UInt16, (s = 0 → o = 0) → (Term.reg name o s).IsPrintable := by
    intro name hname
    refine ⟨?_, fun o s hs => (isPrintable_iff _).2 ⟨⟨hname, hs⟩, by simp [children]⟩⟩
    rcases nameTerm_cases name with ⟨b, -, hb⟩ | ⟨hne, hvar⟩
    · exact hb ▸ isClosed_isPrintable.bool b
    · exact hvar ▸ (isPrintable_iff _).2 ⟨⟨hname, hne⟩, by simp [children]⟩
  exact ((parseReporting_ensures isClosed_isPrintable hnames text).2.1 t h).1

end Term

namespace Manager

theorem outcome_parse (m : Manager) (text : String) :
    (m.outcome (.parse text)).1 = ((Term.parse text).mapError .parse).map fun t => [t] := by
  cases hread : Term.parseReporting text with
  | mk result built =>
      rw [outcome, Operation.results, Term.parse, hread]
      cases result <;> rfl

/-- Printing is undone by reading. After any operations on a manager of an admitted width, the text of a term of the
manager that can be read is read as this term, and its handle is returned. Every term that a text is read as can be
read from its own text. -/
theorem parse_text_returns {bits : Nat} (h : bits ≤ 31) (ops : List Operation) :
    ∃ created handles m, Manager.new bits = .ok created ∧ created.run ops = (handles, m) ∧
      (∀ i t, m.arena.term? i = some t → t.IsPrintable → (m.perform (.parse t.text)).1 = .ok [i]) ∧
      ∀ text t, Term.parse text = .ok t → t.IsPrintable := by
  obtain ⟨created, handles, m, ts, hcreated, hrun, hholds, hnormal⟩ := exists_run Term.isHereditary_isNormal h ops
  refine ⟨created, handles, m, hcreated, hrun, fun i t hi ht => ?_, fun _ _ => Term.isPrintable_of_parse⟩
  rw [hholds.term?_eq] at hi
  have hmem : t ∈ ts := by
    cases i with
    | zero => exact absurd hi (by simp [termAt])
    | succ k => exact List.mem_of_getElem? hi
  obtain ⟨us, hus, hmore, hreturned⟩ := holds_perform hholds (.parse t.text)
  rw [outcome_parse, ht.parse_text (hnormal t hmem)] at hreturned
  cases hhandles : (m.perform (.parse t.text)).1 with
  | error e =>
      rw [hhandles] at hreturned
      cases hreturned
  | ok returned =>
      rw [hhandles] at hreturned
      have hmap : returned.map (termAt us) = [i].map (termAt us) := by
        rw [List.map_singleton, termAt_mono hmore hi]
        exact Except.ok.inj hreturned
      have hdenote : [i].map (termAt us) = [t].map some := by
        rw [List.map_singleton, termAt_mono hmore hi]
        rfl
      rw [map_termAt_inj hus.terms_nodup (hmap.trans hdenote) hdenote]

/-- A register cell, a word, a comparison of them and its negation. -/
def comparedBits : List Operation := [.reg "r1" 8 8, .const 12, .binary .ltU 4 5, .negate 6]

/-- The negated comparison has handle 7, and reading its text returns this handle. -/
theorem parse_text_returns_comparedBits :
    0 ≤ 31 ∧ ∃ created handles m t, Manager.new 0 = .ok created ∧ created.run comparedBits = (handles, m) ∧
      t = .not (.binary .ltU (.reg "r1" 8 8) (.const 12)) ∧ m.arena.term? 7 = some t ∧ t.IsPrintable ∧
      (m.perform (.parse t.text)).1 = .ok [7] := by
  have hbits : 0 ≤ 31 := by decide
  obtain ⟨created, handles, m, hnew, hrun, hall, -⟩ := parse_text_returns hbits comparedBits
  have hterm : ((Manager.new 0).toOption.bind fun created => (created.run comparedBits).2.arena.term? 7) =
      some (.not (.binary .ltU (.reg "r1" 8 8) (.const 12))) := by cbv
  have hterm : m.arena.term? 7 = some (.not (.binary .ltU (.reg "r1" 8 8) (.const 12))) := by
    simpa [hnew, hrun, Except.toOption] using hterm
  have hname : Token.IsName "r1" := ⟨'r', ['1'], rfl, rfl, by simp [Token.isNamePart]⟩
  have hprintable : (Term.not (.binary .ltU (.reg "r1" 8 8) (.const 12))).IsPrintable := by
    simp [Term.IsPrintable, Term.subterms, Term.HasPrintableHead, hname]
  exact ⟨hbits, created, handles, m, _, hnew, hrun, rfl, hterm, hprintable, hall 7 _ hterm hprintable⟩

example : (Term.not (.binary .ltU (.reg "r1" 8 8) (.const 12))).text = "!(%r1\x7b8;8\x7d <u 0xc)" := by cbv

end Manager
end Backslice
