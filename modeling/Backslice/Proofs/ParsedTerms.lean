import Backslice.Proofs.Closure
import Backslice.Proofs.Derivation
import Backslice.Proofs.Tokenization

/-!
# What the parser reads

The parser reads a text exactly if the text splits into tokens that derive from
a formula, and it returns the term that is built along the derivation.

Soundness is shown for computations: from a rule for each way to put them
together, every term of a level that is read has a derivation that yields the
tokens it was read from. Completeness is an induction on the derivation, of
which the parser reads everything, and stops behind it because no token goes on.
-/

namespace Backslice.Grammar

variable {α β : Type}

/-- What a computation comes to, after the terms `us` were built. -/
def outcome (p : Parsing α) (us : List Term) : Except ParseError α × List Term :=
  p.run us

theorem outcome_bind_ok {p : Parsing α} {f : α → Parsing β} {us vs : List Term} {a : α}
    (h : outcome p us = (.ok a, vs)) : outcome (p >>= f) us = outcome (f a) vs := by
  unfold outcome at h ⊢
  rw [ExceptT.run_bind]
  simp only [bind, StateT.bind, h]

theorem outcome_bind_error {p : Parsing α} {f : α → Parsing β} {us vs : List Term} {e : ParseError}
    (h : outcome p us = (.error e, vs)) : outcome (p >>= f) us = (.error e, vs) := by
  unfold outcome at h ⊢
  rw [ExceptT.run_bind]
  simp only [bind, StateT.bind, h]
  rfl

/-! ## What is read is derived -/

/-- Whether a computation builds terms with a property only, fails in certain places only, and comes to a value
with another property otherwise. -/
def Ensures (P : Term → Prop) (place : Nat → Prop) (p : Parsing α) (post : α → Prop) : Prop :=
  ∀ us, (∀ u ∈ us, P u) →
    (∀ u ∈ (outcome p us).2, P u) ∧ (∀ a, (outcome p us).1 = .ok a → post a) ∧
      ∀ e, (outcome p us).1 = .error e → place e.offset

namespace Ensures

variable {P : Term → Prop} {place : Nat → Prop} {post : α → Prop} {post' : β → Prop}

theorem pure {a : α} (h : post a) : Ensures P place (pure a) post := by
  intro us hus
  refine ⟨hus, fun b hb => ?_, fun e he => by cases he⟩
  cases hb
  exact h

theorem failAt {stop : Nat} {ts : List Lexeme} (fault : ParseFault) (h : place (offsetAt stop ts)) :
    Ensures P place (failAt stop ts fault) post := by
  intro us hus
  refine ⟨hus, fun b hb => (by cases hb), fun e he => ?_⟩
  cases he
  exact h

theorem bind {p : Parsing α} {f : α → Parsing β} (hp : Ensures P place p post)
    (hf : ∀ a, post a → Ensures P place (f a) post') : Ensures P place (p >>= f) post' := by
  intro us hus
  obtain ⟨hbuilt, hvalue, herror⟩ := hp us hus
  cases houtcome : outcome p us with
  | mk result vs =>
      rw [houtcome] at hbuilt hvalue herror
      cases result with
      | ok a =>
          rw [outcome_bind_ok houtcome]
          exact hf a (hvalue a rfl) vs hbuilt
      | error e =>
          rw [outcome_bind_error houtcome]
          refine ⟨hbuilt, fun b hb => (by cases hb), fun e' he => ?_⟩
          cases he
          exact herror e rfl

theorem built_bind {t : Term} {f : Term → Parsing β} (ht : P t) (hf : Ensures P place (f t) post') :
    Ensures P place (built t >>= f) post' := by
  have hbuilt : Ensures P place (built t) (· = t) := by
    intro us hus
    refine ⟨List.forall_mem_cons.2 ⟨ht, hus⟩, fun b hb => ?_, fun e he => by cases he⟩
    cases hb
    rfl
  exact hbuilt.bind fun u hu => hu ▸ hf

end Ensures

/-- Whether the first tokens of `ts` are `tokens`, and the rest is `rest`. -/
def Took (ts : List Lexeme) (tokens : List Token) (rest : List Lexeme) : Prop :=
  ∃ front, ts = front ++ rest ∧ front.map (·.token) = tokens

namespace Took

variable {ts us vs : List Lexeme} {tokens more : List Token}

theorem nil (ts : List Lexeme) : Took ts [] ts :=
  ⟨[], rfl, rfl⟩

theorem cons (x : Lexeme) (h : Took ts tokens us) : Took (x :: ts) (x.token :: tokens) us := by
  obtain ⟨front, rfl, rfl⟩ := h
  exact ⟨x :: front, rfl, rfl⟩

theorem trans (h : Took ts tokens us) (h' : Took us more vs) : Took ts (tokens ++ more) vs := by
  obtain ⟨front, rfl, rfl⟩ := h
  obtain ⟨front', rfl, rfl⟩ := h'
  exact ⟨front ++ front', by simp, by simp⟩

theorem exists_cons {t : Token} (h : Took ts (t :: tokens) us) :
    ∃ offset rest, ts = ⟨offset, t⟩ :: rest ∧ Took rest tokens us := by
  obtain ⟨front, rfl, hfront⟩ := h
  cases front with
  | nil => simp at hfront
  | cons x front =>
      obtain ⟨rfl, rfl⟩ := List.cons.inj hfront
      exact ⟨x.offset, front ++ us, rfl, front, rfl, rfl⟩

theorem eq_of_nil (h : Took ts [] us) : ts = us := by
  obtain ⟨front, rfl, hfront⟩ := h
  rw [List.map_eq_nil_iff.1 hfront, List.nil_append]

theorem exists_append (h : Took ts (tokens ++ more) vs) : ∃ us, Took ts tokens us ∧ Took us more vs := by
  induction tokens generalizing ts with
  | nil => exact ⟨ts, nil ts, h⟩
  | cons t tokens ih =>
      obtain ⟨offset, rest, rfl, hrest⟩ := h.exists_cons
      obtain ⟨us, hus, hvs⟩ := ih hrest
      exact ⟨us, hus.cons ⟨offset, t⟩, hvs⟩

theorem forall_rest {Q : Lexeme → Prop} (h : Took ts tokens us) (hts : ∀ x ∈ ts, Q x) : ∀ x ∈ us, Q x := by
  obtain ⟨front, rfl, -⟩ := h
  exact fun x hx => hts x (List.mem_append_right front hx)

theorem map_token (h : Took ts tokens us) : ts.map (·.token) = tokens ++ us.map (·.token) := by
  obtain ⟨front, rfl, rfl⟩ := h
  rw [List.map_append]

end Took

/-- Whether a lexeme starts in one of the places, and its name, if it is one, stands for terms with the property. -/
def Admits (P : Term → Prop) (place : Nat → Prop) (x : Lexeme) : Prop :=
  place x.offset ∧ ∀ name, x.token = .name name →
    P (nameTerm name) ∧ ∀ offset size, (size = 0 → offset = 0) → P (.reg name offset size)

theorem Chain.operator?_eq_some_iff {c : Chain} {m : Mark} {op : BinaryOp} :
    c.operator? m = some op ↔ (m, op) ∈ c.operators := by
  cases c <;> cases m <;> simp [operator?, operators, eq_comm]

theorem comparison?_eq_some_iff {m : Mark} {join : Term → Term → Term} :
    comparison? m = some join ↔ (m, join) ∈ comparisons := by
  cases m <;> simp [comparison?, comparisons, eq_comm]

theorem prefixOp?_eq_some_iff {m : Mark} {apply : Term → Term} :
    prefixOp? m = some apply ↔ (m, apply) ∈ prefixes := by
  cases m <;> simp [prefixOp?, prefixes, eq_comm]

theorem nameTerm_of_ne {name : String} (h : name ≠ "true" ∧ name ≠ "false") : nameTerm name = .var name := by
  unfold nameTerm
  split
  next => exact absurd rfl h.1
  next => exact absurd rfl h.2
  next => rfl

theorem nameTerm_cases (name : String) :
    (∃ b, name = (if b then "true" else "false") ∧ nameTerm name = .bool b) ∨
      ((name ≠ "true" ∧ name ≠ "false") ∧ nameTerm name = .var name) := by
  by_cases htrue : name = "true"
  · exact Or.inl ⟨true, htrue, htrue ▸ rfl⟩
  · by_cases hfalse : name = "false"
    · exact Or.inl ⟨false, hfalse, hfalse ▸ rfl⟩
    · exact Or.inr ⟨⟨htrue, hfalse⟩, nameTerm_of_ne ⟨htrue, hfalse⟩⟩

section
variable {P : Term → Prop} (hP : Term.IsClosed P) {place : Nat → Prop} {stop : Nat} (hstop : place stop)
include hstop

theorem place_offsetAt {ts : List Lexeme} (hts : ∀ x ∈ ts, Admits P place x) : place (offsetAt stop ts) := by
  cases ts with
  | nil => exact hstop
  | cons x ts => exact (hts x List.mem_cons_self).1

theorem ensures_expect (m : Mark) {ts : List Lexeme} (hts : ∀ x ∈ ts, Admits P place x) :
    Ensures P place (expect stop m ts) fun parsed => Took ts [.mark m] parsed.rest := by
  unfold expect
  split
  next offset k rest =>
    split
    next hk => exact .pure (hk ▸ (Took.nil rest).cons ⟨offset, .mark k⟩)
    next => exact .failAt _ (place_offsetAt hstop hts)
  next => exact .failAt _ (place_offsetAt hstop hts)

theorem ensures_number {ts : List Lexeme} (hts : ∀ x ∈ ts, Admits P place x) :
    Ensures P place (number stop ts) fun parsed => Took ts [.number parsed.value] parsed.rest := by
  unfold number
  split
  next offset v rest => exact .pure ((Took.nil rest).cons ⟨offset, .number v⟩)
  next => exact .failAt _ (place_offsetAt hstop hts)

theorem ensures_bitRange {ts : List Lexeme} (hts : ∀ x ∈ ts, Admits P place x) :
    Ensures P place (bitRange stop ts) fun parsed => ∃ offset size : UInt64,
      (offset ≤ 65535 ∧ 1 ≤ size ∧ size ≤ 65535) ∧ parsed.value = (offset.toUInt16, size.toUInt16) ∧
        Took ts [.number offset, .mark .semicolon, .number size, .mark .closeBrace] parsed.rest := by
  unfold bitRange
  refine (ensures_number hstop hts).bind fun offset hoffset => ?_
  have hts := hoffset.forall_rest hts
  refine (ensures_expect hstop _ hts).bind fun separator hseparator => ?_
  have hts := hseparator.forall_rest hts
  refine (ensures_number hstop hts).bind fun size hsize => ?_
  have hts := hsize.forall_rest hts
  refine (ensures_expect hstop _ hts).bind fun close hclose => ?_
  split
  next => exact .failAt _ (place_offsetAt hstop (hclose.forall_rest hts))
  next hrange =>
    refine .pure ⟨offset.value, size.value, ?_, rfl, hoffset.trans (hseparator.trans (hsize.trans hclose))⟩
    simp only [Bool.or_eq_true, decide_eq_true_eq, beq_iff_eq, not_or, gt_iff_lt, UInt64.not_lt] at hrange
    refine ⟨hrange.1.1, ?_, hrange.2⟩
    have hne := hrange.1.2
    rw [← UInt64.toNat_inj] at hne
    exact UInt64.le_iff_toNat_le.2 (Nat.one_le_iff_ne_zero.2 hne)

theorem ensures_register {ts : List Lexeme} (hts : ∀ x ∈ ts, Admits P place x) :
    Ensures P place (register stop ts) fun parsed => P parsed.value ∧
      ∃ (d : Derivation .unary) (tokens : List Token), d.yield = .mark .percent :: tokens ∧
        Took ts tokens parsed.rest ∧ d.term = parsed.value := by
  unfold register
  split
  next o name o' rest =>
    have hname := ((hts _ List.mem_cons_self).2 name rfl).2
    have hrest : ∀ x ∈ rest, Admits P place x := fun x hx => hts x (by simp [hx])
    refine (ensures_bitRange hstop hrest).bind fun range hread => ?_
    obtain ⟨offset, size, hrange, hvalue, htook⟩ := hread
    have hreg : P (.reg name range.value.1 range.value.2) := by
      refine hname _ _ fun hsize => ?_
      rw [hvalue] at hsize
      have hlow : size.toNat % 2 ^ 16 = 0 := congrArg UInt16.toNat hsize
      have hone : 1 ≤ size.toNat := UInt64.le_iff_toNat_le.1 hrange.2.1
      have htop : size.toNat ≤ 65535 := UInt64.le_iff_toNat_le.1 hrange.2.2
      omega
    refine .built_bind hreg (.pure ⟨hreg, .slice name offset size hrange, _, rfl, ?_, ?_⟩)
    · exact (htook.cons ⟨o', .mark .openBrace⟩).cons ⟨o, .name name⟩
    · rw [hvalue]
      rfl
  next o name rest _ =>
    have hreg : P (.reg name 0 0) := ((hts _ List.mem_cons_self).2 name rfl).2 0 0 fun _ => rfl
    exact .built_bind hreg (.pure ⟨hreg, .register name, _, rfl, (Took.nil rest).cons ⟨o, .name name⟩, rfl⟩)
  next => exact .failAt _ (place_offsetAt hstop hts)

include hP

omit hstop in
theorem closed_comparison {m : Mark} {join : Term → Term → Term} (h : (m, join) ∈ comparisons) {a b : Term} (ha : P a)
    (hb : P b) : P (join a b) := by
  simp only [comparisons, List.mem_cons, List.not_mem_nil, or_false, Prod.mk.injEq] at h
  obtain ⟨-, rfl⟩ | ⟨-, rfl⟩ | ⟨-, rfl⟩ | ⟨-, rfl⟩ | ⟨-, rfl⟩ | ⟨-, rfl⟩ := h
  · exact hP.eq ha hb
  · exact hP.negate (hP.eq ha hb)
  all_goals exact hP.binary _ ha hb

omit hstop in
theorem closed_prefix {m : Mark} {apply : Term → Term} (h : (m, apply) ∈ prefixes) {a : Term} (ha : P a) :
    P (apply a) := by
  simp only [prefixes, List.mem_cons, List.not_mem_nil, or_false, Prod.mk.injEq] at h
  obtain ⟨-, rfl⟩ | ⟨-, rfl⟩ | ⟨-, rfl⟩ := h
  · exact hP.unary _ ha
  · exact hP.unary _ ha
  · exact hP.negate ha

theorem ensures_atom (ts : List Lexeme) (hts : ∀ x ∈ ts, Admits P place x)
    (hinside : ∀ after, after.length < ts.length → (∀ x ∈ after, Admits P place x) →
      Ensures P place (term stop .disjunction after) fun parsed => P parsed.value ∧
        ∃ d : Derivation .disjunction, Took after d.yield parsed.rest ∧ d.term = parsed.value) :
    Ensures P place (atom stop ts) fun parsed => P parsed.value ∧
      ∃ d : Derivation .unary, Took ts d.yield parsed.rest ∧ d.term = parsed.value := by
  rw [atom.eq_def]
  split
  next => exact .failAt _ hstop
  next offset v rest =>
    have hconst := hP.const v
    exact .built_bind hconst (.pure ⟨hconst, .number v, (Took.nil rest).cons ⟨offset, .number v⟩, rfl⟩)
  next offset name rest =>
    have hname := ((hts _ List.mem_cons_self).2 name rfl).1
    refine .built_bind hname ?_
    rcases nameTerm_cases name with ⟨b, rfl, hterm⟩ | ⟨hne, hterm⟩
    · exact .pure ⟨hname, .truth b, (Took.nil rest).cons ⟨offset, .name _⟩, hterm.symm⟩
    · exact .pure ⟨hname, .var name hne, (Took.nil rest).cons ⟨offset, .name name⟩, hterm.symm⟩
  next offset after =>
    refine (ensures_register hstop fun x hx => hts x (List.mem_cons_of_mem _ hx)).bind
      fun cell hread => ?_
    obtain ⟨hcell, d, tokens, hyield, htook, hterm⟩ := hread
    refine .pure ⟨hcell, d, ?_, hterm⟩
    rw [hyield]
    exact htook.cons ⟨offset, .mark .percent⟩
  next offset after =>
    have hafter : ∀ x ∈ after, Admits P place x := fun x hx => hts x (List.mem_cons_of_mem _ hx)
    refine (hinside after (Nat.lt_succ_self _) hafter).bind fun address hread => ?_
    obtain ⟨haddress, d, htook, hterm⟩ := hread
    refine (ensures_expect hstop _ (htook.forall_rest hafter)).bind fun close hclose => ?_
    have hcell := hP.mem haddress
    refine .built_bind hcell (.pure ⟨hcell, .cell d, (htook.trans hclose).cons ⟨offset, .mark .openBracket⟩, ?_⟩)
    rw [Derivation.term, hterm]
  next offset after =>
    have hafter : ∀ x ∈ after, Admits P place x := fun x hx => hts x (List.mem_cons_of_mem _ hx)
    refine (hinside after (Nat.lt_succ_self _) hafter).bind fun inner hread => ?_
    obtain ⟨hinner, d, htook, hterm⟩ := hread
    refine (ensures_expect hstop _ (htook.forall_rest hafter)).bind fun close hclose => ?_
    exact .pure ⟨hinner, .group d, (htook.trans hclose).cons ⟨offset, .mark .openParen⟩, hterm⟩
  next => exact .failAt _ (place_offsetAt hstop hts)
omit hP hstop

mutual

/-- A term that is read has a derivation, which yields the tokens it was read from. -/
theorem ensures_term (hP : Term.IsClosed P) (hstop : place stop) (level : Level) (ts : List Lexeme)
    (hts : ∀ x ∈ ts, Admits P place x) :
    Ensures P place (term stop level ts) fun parsed => P parsed.value ∧
      ∃ d : Derivation level, Took ts d.yield parsed.rest ∧ d.term = parsed.value := by
  cases level with
  | disjunction =>
      rw [term]
      refine (ensures_term hP hstop .conjunction ts hts).bind fun first hread => ?_
      obtain ⟨hfirst, d, htook, hterm⟩ := hread
      have hshort := first.shorter
      refine (ensures_operandsAfter hP hstop .barBar .conjunction first.rest (htook.forall_rest hts)).bind
        fun parsed hread => ?_
      obtain ⟨others, rest, h⟩ := parsed
      obtain ⟨hothers, ds, htook', hterms⟩ := hread
      dsimp only at hothers htook' hterms ⊢
      cases ds with
      | none =>
          obtain rfl : [] = others := hterms
          refine .pure ⟨hfirst, .formula d .none, ?_, hterm⟩
          simpa [Derivation.yield, Operands.yield] using htook
      | more operand others' =>
          obtain rfl : operand.term :: others'.terms = others := hterms
          have hdisj := hP.disj (List.forall_mem_cons.2 ⟨hfirst, hothers⟩)
          refine .built_bind hdisj (.pure ⟨hdisj, .formula d (.more operand others'), htook.trans htook', ?_⟩)
          rw [Derivation.term, hterm]
  | conjunction =>
      rw [term]
      refine (ensures_term hP hstop .comparison ts hts).bind fun first hread => ?_
      obtain ⟨hfirst, d, htook, hterm⟩ := hread
      have hshort := first.shorter
      refine (ensures_operandsAfter hP hstop .ampAmp .comparison first.rest (htook.forall_rest hts)).bind
        fun parsed hread => ?_
      obtain ⟨others, rest, h⟩ := parsed
      obtain ⟨hothers, ds, htook', hterms⟩ := hread
      dsimp only at hothers htook' hterms ⊢
      cases ds with
      | none =>
          obtain rfl : [] = others := hterms
          refine .pure ⟨hfirst, .conj d .none, ?_, hterm⟩
          simpa [Derivation.yield, Operands.yield] using htook
      | more operand others' =>
          obtain rfl : operand.term :: others'.terms = others := hterms
          have hconj := hP.conj (List.forall_mem_cons.2 ⟨hfirst, hothers⟩)
          refine .built_bind hconj (.pure ⟨hconj, .conj d (.more operand others'), htook.trans htook', ?_⟩)
          rw [Derivation.term, hterm]
  | comparison =>
      rw [term]
      refine (ensures_term hP hstop (.chain .bitOr) ts hts).bind fun left hread => ?_
      obtain ⟨hleft, d, htook, hterm⟩ := hread
      have hrest := htook.forall_rest hts
      have hshort := left.shorter
      dsimp only
      split
      next offset m after heq =>
        rw [heq] at htook hrest hshort
        split
        next join hjoin =>
          have hmem := comparison?_eq_some_iff.1 hjoin
          have hafter : after.length < ts.length := Nat.lt_of_succ_lt hshort
          refine (ensures_term hP hstop (.chain .bitOr) after fun x hx => hrest x (List.mem_cons_of_mem _ hx)).bind
            fun right hread => ?_
          obtain ⟨hright, d', htook', hterm'⟩ := hread
          have hjoined := closed_comparison hP hmem hleft hright
          refine .built_bind hjoined (.pure ⟨hjoined, .compared d m join hmem d', ?_, ?_⟩)
          · exact htook.trans (htook'.cons ⟨offset, .mark m⟩)
          · rw [Derivation.term, hterm, hterm']
        next =>
          refine .pure ⟨hleft, .cmp d, ?_, hterm⟩
          rw [heq]
          exact htook
      next => exact .pure ⟨hleft, .cmp d, htook, hterm⟩
  | unary =>
      have hatom := ensures_atom hP hstop ts hts fun after hlt hafter => ensures_term hP hstop .disjunction after hafter
      rw [term.eq_def]
      dsimp only
      match ts, hts, hatom with
      | ⟨offset, .mark m⟩ :: after, hts, hatom =>
          dsimp only
          split
          next apply happly =>
            have hmem := prefixOp?_eq_some_iff.1 happly
            refine (ensures_term hP hstop .unary after fun x hx => hts x (List.mem_cons_of_mem _ hx)).bind
              fun operand hread => ?_
            obtain ⟨hoperand, d, htook, hterm⟩ := hread
            have happlied := closed_prefix hP hmem hoperand
            refine .built_bind happlied (.pure ⟨happlied, .prefixed m apply hmem d, htook.cons ⟨offset, .mark m⟩, ?_⟩)
            rw [Derivation.term, hterm]
          next => exact hatom
      | [], _, hatom | ⟨_, .number _⟩ :: _, _, hatom | ⟨_, .name _⟩ :: _, _, hatom => exact hatom
  | chain c =>
      have hrank := c.rank_operandLevel_lt
      rw [term]
      refine (ensures_term hP hstop c.operandLevel ts hts).bind fun first hread => ?_
      obtain ⟨hfirst, d, htook, hterm⟩ := hread
      have hshort := first.shorter
      refine (ensures_chainAfter hP hstop c first.value hfirst first.rest (htook.forall_rest hts)).bind
        fun parsed hread => ?_
      obtain ⟨t, rest, h⟩ := parsed
      obtain ⟨ht, ds, htook', hterm'⟩ := hread
      refine .pure ⟨ht, .chain d ds, htook.trans htook', ?_⟩
      rw [Derivation.term, hterm]
      exact hterm'
termination_by (ts.length, level.rank)
decreasing_by all_goals first
  | exact Prod.Lex.left _ _ (by assumption)
  | exact Prod.Lex.right _ (by assumption)
  | exact Prod.Lex.right _ (by decide)
  | exact Prod.Lex.left _ _ (Nat.lt_succ_self _)

theorem ensures_operandsAfter (hP : Term.IsClosed P) (hstop : place stop) (m : Mark) (level : Level) (ts : List Lexeme)
    (hts : ∀ x ∈ ts, Admits P place x) :
    Ensures P place (operandsAfter stop m level ts) fun parsed => (∀ t ∈ parsed.value, P t) ∧
      ∃ ds : Operands m level, Took ts ds.yield parsed.rest ∧ ds.terms = parsed.value := by
  match ts, hts with
  | ⟨offset, .mark k⟩ :: after, hts =>
      rw [operandsAfter]
      split
      next hk =>
        have hafter : ∀ x ∈ after, Admits P place x := fun x hx => hts x (List.mem_cons_of_mem _ hx)
        refine (ensures_term hP hstop level after hafter).bind fun operand hread => ?_
        obtain ⟨hoperand, d, htook, hterm⟩ := hread
        have hshort := Nat.lt_succ_of_lt operand.shorter
        refine (ensures_operandsAfter hP hstop m level operand.rest (htook.forall_rest hafter)).bind
          fun parsed hread => ?_
        obtain ⟨others, rest, h⟩ := parsed
        obtain ⟨hothers, ds, htook', hterms⟩ := hread
        refine .pure ⟨List.forall_mem_cons.2 ⟨hoperand, hothers⟩, .more d ds, ?_, ?_⟩
        · exact hk ▸ (htook.trans htook').cons ⟨offset, .mark k⟩
        · rw [Operands.terms, hterm]
          exact congrArg (_ :: ·) hterms
      next => exact .pure ⟨by simp, .none, Took.nil _, rfl⟩
  | [], _ | ⟨_, .number _⟩ :: _, _ | ⟨_, .name _⟩ :: _, _ =>
      rw [operandsAfter.eq_def]
      exact .pure ⟨by simp, .none, Took.nil _, rfl⟩
termination_by (ts.length, 0)
decreasing_by
  · exact Prod.Lex.left _ _ (Nat.lt_succ_self _)
  · exact Prod.Lex.left _ _ hshort

theorem ensures_chainAfter (hP : Term.IsClosed P) (hstop : place stop) (c : Chain) (left : Term) (hleft : P left)
    (ts : List Lexeme) (hts : ∀ x ∈ ts, Admits P place x) :
    Ensures P place (chainAfter stop c left ts) fun parsed => P parsed.value ∧
      ∃ ds : Links c, Took ts ds.yield parsed.rest ∧ ds.termFrom left = parsed.value := by
  match ts, hts with
  | ⟨offset, .mark k⟩ :: after, hts =>
      rw [chainAfter]
      split
      next op hop =>
        have hmem := Chain.operator?_eq_some_iff.1 hop
        have hafter : ∀ x ∈ after, Admits P place x := fun x hx => hts x (List.mem_cons_of_mem _ hx)
        refine (ensures_term hP hstop c.operandLevel after hafter).bind fun right hread => ?_
        obtain ⟨hright, d, htook, hterm⟩ := hread
        have hshort := Nat.lt_succ_of_lt right.shorter
        have hjoined := hP.binary op hleft hright
        refine .built_bind hjoined ?_
        refine (ensures_chainAfter hP hstop c _ hjoined right.rest (htook.forall_rest hafter)).bind
          fun parsed hread => ?_
        obtain ⟨t, rest, h⟩ := parsed
        obtain ⟨ht, ds, htook', hterm'⟩ := hread
        refine .pure ⟨ht, .more k op hmem d ds, (htook.trans htook').cons ⟨offset, .mark k⟩, ?_⟩
        rw [Links.termFrom, hterm]
        exact hterm'
      next => exact .pure ⟨hleft, .none, Took.nil _, rfl⟩
  | [], _ | ⟨_, .number _⟩ :: _, _ | ⟨_, .name _⟩ :: _, _ =>
      rw [chainAfter.eq_def]
      exact .pure ⟨hleft, .none, Took.nil _, rfl⟩
termination_by (ts.length, 0)
decreasing_by
  · exact Prod.Lex.left _ _ (Nat.lt_succ_self _)
  · exact Prod.Lex.left _ _ hshort

end

theorem ensures_wholeTerm (hP : Term.IsClosed P) (hstop : place stop) {ts : List Lexeme}
    (hts : ∀ x ∈ ts, Admits P place x) :
    Ensures P place (wholeTerm stop ts) fun t => P t ∧
      ∃ d : Derivation .disjunction, d.yield = ts.map (·.token) ∧ d.term = t := by
  unfold wholeTerm
  refine (ensures_term hP hstop .disjunction ts hts).bind fun parsed hread => ?_
  obtain ⟨hparsed, d, htook, hterm⟩ := hread
  split
  next hempty =>
    refine .pure ⟨hparsed, d, ?_, hterm⟩
    rw [htook.map_token, List.isEmpty_iff.1 hempty, List.map_nil, List.append_nil]
  next => exact .failAt _ (place_offsetAt hstop (htook.forall_rest hts))

end

/-! ## What is derived is read -/

/-- Whether a computation comes to a value, whatever was built before. -/
def Yields (p : Parsing α) (a : α) : Prop :=
  ∀ us, ∃ vs, outcome p us = (.ok a, vs)

namespace Yields

theorem pure (a : α) : Yields (pure a) a :=
  fun us => ⟨us, rfl⟩

theorem built (t : Term) : Yields (built t) t :=
  fun us => ⟨t :: us, rfl⟩

theorem bind {p : Parsing α} {f : α → Parsing β} {a : α} {b : β} (hp : Yields p a) (hf : Yields (f a) b) :
    Yields (p >>= f) b := by
  intro us
  obtain ⟨vs, hvs⟩ := hp us
  obtain ⟨ws, hws⟩ := hf vs
  exact ⟨ws, (outcome_bind_ok hvs).trans hws⟩

end Yields

/-- Whether a computation reads a value, and leaves the tokens `rest`. -/
def Reads {bound : Nat} (p : Parsing (Parsed α bound)) (a : α) (rest : List Lexeme) : Prop :=
  ∃ shorter, Yields p ⟨a, rest, shorter⟩

namespace Reads

variable {bound bound' : Nat} {p : Parsing (Parsed α bound)} {a : α} {rest : List Lexeme}

theorem bind {f : Parsed α bound → Parsing β} {b : β} (hp : Reads p a rest)
    (hf : ∀ shorter, Yields (f ⟨a, rest, shorter⟩) b) : Yields (p >>= f) b := by
  obtain ⟨shorter, hp⟩ := hp
  exact hp.bind (hf shorter)

theorem andThen {f : Parsed α bound → Parsing (Parsed β bound')} {b : β} {rest' : List Lexeme} (hp : Reads p a rest)
    (hf : ∀ shorter, Reads (f ⟨a, rest, shorter⟩) b rest') : Reads (p >>= f) b rest' := by
  obtain ⟨shorter, hp⟩ := hp
  obtain ⟨shorter', hf⟩ := hf shorter
  exact ⟨shorter', hp.bind hf⟩

theorem pure (parsed : Parsed α bound) : Reads (pure parsed) parsed.value parsed.rest :=
  ⟨parsed.shorter, .pure parsed⟩

theorem built_andThen {f : Term → Parsing (Parsed α bound)} {t : Term} (hf : Reads (f t) a rest) :
    Reads (built t >>= f) a rest := by
  obtain ⟨shorter, hf⟩ := hf
  exact ⟨shorter, (Yields.built t).bind hf⟩

end Reads

variable {stop : Nat}

theorem reads_expect (m : Mark) (offset : Nat) (rest : List Lexeme) :
    Reads (expect stop m (⟨offset, .mark m⟩ :: rest)) () rest := by
  simp only [expect, if_true]
  exact .pure _

theorem reads_number (v : UInt64) (offset : Nat) (rest : List Lexeme) :
    Reads (number stop (⟨offset, .number v⟩ :: rest)) v rest :=
  .pure _

theorem reads_register (name : String) (offset : Nat) {rest : List Lexeme} (h : Stops 1 (rest.map (·.token))) :
    Reads (register stop (⟨offset, .name name⟩ :: rest)) (.reg name 0 0) rest := by
  generalize hts : (⟨offset, .name name⟩ :: rest : List Lexeme) = ts
  unfold register
  split
  next =>
    obtain ⟨-, rfl⟩ := List.cons.inj hts
    exact absurd h not_stops_mark
  next =>
    cases hts
    exact .built_andThen (.pure _)
  next hno => exact absurd hts.symm (hno offset name rest)

theorem reads_slice {name : String} {offset size : UInt64} (h : offset ≤ 65535 ∧ 1 ≤ size ∧ size ≤ 65535)
    {ts rest : List Lexeme} (htook : Took ts [.name name, .mark .openBrace, .number offset, .mark .semicolon,
      .number size, .mark .closeBrace] rest) :
    Reads (register stop ts) (.reg name offset.toUInt16 size.toUInt16) rest := by
  obtain ⟨o₁, ts₁, rfl, htook₁⟩ := htook.exists_cons
  obtain ⟨o₂, ts₂, rfl, htook₂⟩ := htook₁.exists_cons
  obtain ⟨o₃, ts₃, rfl, htook₃⟩ := htook₂.exists_cons
  obtain ⟨o₄, ts₄, rfl, htook₄⟩ := htook₃.exists_cons
  obtain ⟨o₅, ts₅, rfl, htook₅⟩ := htook₄.exists_cons
  obtain ⟨o₆, ts₆, rfl, htook₆⟩ := htook₅.exists_cons
  obtain rfl := htook₆.eq_of_nil
  have hrange : ¬(offset > maxRange || size == 0 || size > maxRange) = true := by
    simp only [Bool.or_eq_true, decide_eq_true_eq, beq_iff_eq, not_or, gt_iff_lt, UInt64.not_lt]
    refine ⟨⟨h.1, ?_⟩, h.2.2⟩
    rintro rfl
    exact absurd h.2.1 (by decide)
  have hbits : Reads (bitRange stop (⟨o₃, .number offset⟩ :: ⟨o₄, .mark .semicolon⟩ :: ⟨o₅, .number size⟩ ::
      ⟨o₆, .mark .closeBrace⟩ :: ts₆)) (offset.toUInt16, size.toUInt16) ts₆ := by
    rw [bitRange]
    refine (reads_number offset o₃ _).andThen fun _ => (reads_expect _ o₄ _).andThen fun _ => ?_
    refine (reads_number size o₅ _).andThen fun _ => (reads_expect _ o₆ _).andThen fun _ => ?_
    rw [if_neg hrange]
    exact .pure _
  rw [register]
  exact hbits.andThen fun _ => .built_andThen (.pure _)

theorem term_unary_eq_atom {x : Lexeme} (h : ∀ m, x.token = .mark m → prefixOp? m = none) (ts : List Lexeme) :
    term stop .unary (x :: ts) = atom stop (x :: ts) := by
  obtain ⟨offset, t⟩ := x
  rw [term.eq_def]
  cases t with
  | mark m => simp only [h m rfl]
  | _ => rfl

mutual

/-- The parser reads the whole of a derivation, in front of tokens that do not go on with it. -/
theorem Derivation.reads : {level : Level} → (d : Derivation level) → {ts rest : List Lexeme} →
    Took ts d.yield rest → Stops level.rank (rest.map (·.token)) → Reads (Grammar.term stop level ts) d.term rest
  | _, .formula first others, ts, rest, htook, hstops => by
      obtain ⟨us, hus, hrest⟩ := htook.exists_append
      have hfirst := first.reads hus (by rw [hrest.map_token]; exact others.stops (by decide) (hstops.mono (by decide)))
      rw [Grammar.term]
      refine hfirst.andThen fun _ => (others.reads hrest hstops (by decide)).andThen fun _ => ?_
      cases others with
      | none =>
          obtain rfl := hrest.eq_of_nil
          exact .pure _
      | more operand others => exact .built_andThen (.pure _)
  | _, .conj first others, ts, rest, htook, hstops => by
      obtain ⟨us, hus, hrest⟩ := htook.exists_append
      have hfirst := first.reads hus (by rw [hrest.map_token]; exact others.stops (by decide) (hstops.mono (by decide)))
      rw [Grammar.term]
      refine hfirst.andThen fun _ => (others.reads hrest hstops (by decide)).andThen fun _ => ?_
      cases others with
      | none =>
          obtain rfl := hrest.eq_of_nil
          exact .pure _
      | more operand others => exact .built_andThen (.pure _)
  | _, .cmp only, ts, rest, htook, hstops => by
      rw [Grammar.term]
      refine (only.reads htook (hstops.mono (by decide))).andThen fun _ => ?_
      dsimp only
      split
      next offset m after =>
        split
        next join hjoin =>
          have hrank := rank_of_mem_comparisons (comparison?_eq_some_iff.1 hjoin)
          exact absurd (hrank ▸ hstops) not_stops_mark
        next => exact .pure _
      next => exact .pure _
  | _, .compared left m join hm right, ts, rest, htook, hstops => by
      obtain ⟨us, hus, hrest⟩ := htook.exists_append
      obtain ⟨offset, after, rfl, hright⟩ := hrest.exists_cons
      have hrank := rank_of_mem_comparisons hm
      have hleft := left.reads hus (stops_mark (by rw [hrank]; decide))
      rw [Grammar.term]
      refine hleft.andThen fun _ => ?_
      dsimp only
      split
      next join' hjoin =>
        obtain rfl := comparisons_functional hm (comparison?_eq_some_iff.1 hjoin)
        exact (right.reads hright (hstops.mono (by decide))).andThen fun _ => .built_andThen (.pure _)
      next hnone =>
        rw [comparison?_eq_some_iff.2 hm] at hnone
        cases hnone
  | _, .chain (c := c) first others, ts, rest, htook, hstops => by
      have hrank := c.rank_operandLevel_lt
      obtain ⟨us, hus, hrest⟩ := htook.exists_append
      have hstop' : Stops c.operandLevel.rank (us.map (·.token)) := by
        rw [hrest.map_token]
        exact others.stops hrank (hstops.mono (Nat.le_of_lt hrank))
      rw [Grammar.term]
      exact (first.reads hus hstop').andThen fun _ => (others.reads first.term hrest hstops).andThen fun _ => .pure _
  | _, .prefixed m apply hm operand, ts, rest, htook, hstops => by
      obtain ⟨offset, after, rfl, hoperand⟩ := htook.exists_cons
      rw [Grammar.term.eq_def]
      dsimp only
      split
      next apply' happly =>
        obtain rfl := prefixes_functional hm (prefixOp?_eq_some_iff.1 happly)
        exact (operand.reads hoperand hstops).andThen fun _ => .built_andThen (.pure _)
      next hnone =>
        rw [prefixOp?_eq_some_iff.2 hm] at hnone
        cases hnone
  | _, .number v, ts, rest, htook, hstops => by
      obtain ⟨offset, after, rfl, hrest⟩ := htook.exists_cons
      obtain rfl := hrest.eq_of_nil
      rw [term_unary_eq_atom (by simp), atom]
      exact .built_andThen (.pure _)
  | _, .truth b, ts, rest, htook, hstops => by
      obtain ⟨offset, after, rfl, hrest⟩ := htook.exists_cons
      obtain rfl := hrest.eq_of_nil
      rw [term_unary_eq_atom (by simp), atom]
      cases b <;> exact .built_andThen (.pure _)
  | _, .var name hname, ts, rest, htook, hstops => by
      obtain ⟨offset, after, rfl, hrest⟩ := htook.exists_cons
      obtain rfl := hrest.eq_of_nil
      rw [term_unary_eq_atom (by simp), atom, nameTerm_of_ne hname]
      exact .built_andThen (.pure _)
  | _, .register name, ts, rest, htook, hstops => by
      obtain ⟨offset, after, rfl, hrest⟩ := htook.exists_cons
      obtain ⟨offset', after', rfl, hrest'⟩ := hrest.exists_cons
      obtain rfl := hrest'.eq_of_nil
      rw [term_unary_eq_atom (by rintro m ⟨⟩; rfl), atom]
      exact (reads_register name offset' hstops).andThen fun _ => .pure _
  | _, .slice name o s h, ts, rest, htook, hstops => by
      obtain ⟨offset, after, rfl, hrest⟩ := htook.exists_cons
      rw [term_unary_eq_atom (by rintro m ⟨⟩; rfl), atom]
      exact (reads_slice h hrest).andThen fun _ => .pure _
  | _, .cell address, ts, rest, htook, hstops => by
      obtain ⟨offset, after, rfl, hinner⟩ := htook.exists_cons
      obtain ⟨us, hus, hclose⟩ := hinner.exists_append
      obtain ⟨offset', after', rfl, hrest⟩ := hclose.exists_cons
      obtain rfl := hrest.eq_of_nil
      rw [term_unary_eq_atom (by rintro m ⟨⟩; rfl), atom]
      refine (address.reads hus (stops_mark (by decide))).andThen fun _ => ?_
      exact (reads_expect _ offset' _).andThen fun _ => .built_andThen (.pure _)
  | _, .group inner, ts, rest, htook, hstops => by
      obtain ⟨offset, after, rfl, hinner⟩ := htook.exists_cons
      obtain ⟨us, hus, hclose⟩ := hinner.exists_append
      obtain ⟨offset', after', rfl, hrest⟩ := hclose.exists_cons
      obtain rfl := hrest.eq_of_nil
      rw [term_unary_eq_atom (by rintro m ⟨⟩; rfl), atom]
      refine (inner.reads hus (stops_mark (by decide))).andThen fun _ => ?_
      exact (reads_expect _ offset' _).andThen fun _ => .pure _

theorem Operands.reads : {m : Mark} → {level : Level} → (ds : Operands m level) → {ts rest : List Lexeme} →
    Took ts ds.yield rest → Stops m.rank (rest.map (·.token)) → level.rank < m.rank →
      Reads (operandsAfter stop m level ts) ds.terms rest
  | m, level, .none, ts, rest, htook, hstops, hrank => by
      obtain rfl := htook.eq_of_nil
      rw [operandsAfter.eq_def]
      split
      next offset k after =>
        split
        next hk => exact absurd (hk ▸ hstops) not_stops_mark
        next => exact .pure _
      next => exact .pure _
  | m, level, .more operand others, ts, rest, htook, hstops, hrank => by
      obtain ⟨offset, after, rfl, hmore⟩ := htook.exists_cons
      obtain ⟨us, hus, hrest⟩ := hmore.exists_append
      have hstop' : Stops level.rank (us.map (·.token)) := by
        rw [hrest.map_token]
        exact others.stops hrank (hstops.mono (Nat.le_of_lt hrank))
      rw [operandsAfter, if_pos rfl]
      exact (operand.reads hus hstop').andThen fun _ => (others.reads hrest hstops hrank).andThen fun _ => .pure _

theorem Links.reads : {c : Chain} → (ds : Links c) → (left : Term) → {ts rest : List Lexeme} →
    Took ts ds.yield rest → Stops (Level.chain c).rank (rest.map (·.token)) →
      Reads (chainAfter stop c left ts) (ds.termFrom left) rest
  | c, .none, left, ts, rest, htook, hstops => by
      obtain rfl := htook.eq_of_nil
      rw [chainAfter.eq_def]
      split
      next offset k after =>
        split
        next op hop =>
          have hrank := Chain.rank_of_mem_operators (Chain.operator?_eq_some_iff.1 hop)
          exact absurd (hrank ▸ hstops) not_stops_mark
        next => exact .pure _
      next => exact .pure _
  | c, .more m op hm operand others, left, ts, rest, htook, hstops => by
      have hrank := c.rank_operandLevel_lt
      obtain ⟨offset, after, rfl, hmore⟩ := htook.exists_cons
      obtain ⟨us, hus, hrest⟩ := hmore.exists_append
      have hstop' : Stops c.operandLevel.rank (us.map (·.token)) := by
        rw [hrest.map_token]
        exact others.stops hrank (hstops.mono (Nat.le_of_lt hrank))
      rw [chainAfter]
      split
      next op' hop =>
        obtain rfl := Chain.operators_functional hm (Chain.operator?_eq_some_iff.1 hop)
        refine (operand.reads hus hstop').andThen fun _ => .built_andThen ?_
        exact (others.reads _ hrest hstops).andThen fun _ => .pure _
      next hnone =>
        rw [Chain.operator?_eq_some_iff.2 hm] at hnone
        cases hnone

end

theorem Derivation.yields_wholeTerm (d : Derivation .disjunction) {ts : List Lexeme}
    (h : ts.map (·.token) = d.yield) : Yields (wholeTerm stop ts) d.term := by
  have htook : Took ts d.yield [] := ⟨ts, (List.append_nil ts).symm, h⟩
  exact (d.reads htook (stops_nil _)).bind fun _ => .pure _

end Backslice.Grammar

namespace Backslice.Term

open Grammar

theorem parseReporting_of_scan {text : String} {ts : List Lexeme} (h : Lexeme.scan 0 text.toList = .ok ts) :
    parseReporting text =
      ((outcome (wholeTerm text.utf8ByteSize ts) []).1, (outcome (wholeTerm text.utf8ByteSize ts) []).2.reverse) := by
  rw [parseReporting, h]
  rfl

theorem isPlace_end (text : String) : IsPlace 0 text.toList text.utf8ByteSize :=
  ⟨text.toList, [], (List.append_nil _).symm, by rw [String.ofList_toList, Nat.zero_add]⟩

/-- Reading a text builds terms with every property that the constructors keep and that names stand for terms with.
What it comes to is the term of a derivation, or a fault in a place of the text. -/
theorem parseReporting_ensures {P : Term → Prop} (hP : IsClosed P)
    (hnames : ∀ name, Token.IsName name → P (nameTerm name) ∧ ∀ o s : UInt16, (s = 0 → o = 0) → P (.reg name o s))
    (text : String) :
    (∀ u ∈ (parseReporting text).2, P u) ∧
      (∀ t, parse text = .ok t → P t ∧ ∃ d : Derivation .disjunction, Splits text.toList d.yield ∧ d.term = t) ∧
      ∀ e, parse text = .error e → IsPlace 0 text.toList e.offset := by
  have hscanned := scanned_scan 0 text.toList
  cases hscan : Lexeme.scan 0 text.toList with
  | error e =>
      rw [hscan] at hscanned
      have hparse : parseReporting text = (.error e, []) := by rw [parseReporting, hscan]
      rw [parse, hparse]
      refine ⟨by simp, fun t ht => (by cases ht), fun e' he => ?_⟩
      cases he
      exact hscanned
  | ok ts =>
      rw [hscan] at hscanned
      have hts : ∀ x ∈ ts, Admits P (IsPlace 0 text.toList) x := fun x hx =>
        ⟨hscanned.2 x hx, fun name hname => hnames name (hscanned.1.isName (hname ▸ List.mem_map_of_mem hx))⟩
      obtain ⟨hbuilt, hvalue, herror⟩ := ensures_wholeTerm hP (isPlace_end text) hts [] (by simp)
      rw [parse, parseReporting_of_scan hscan]
      refine ⟨fun u hu => hbuilt u (List.mem_reverse.1 hu), fun t ht => ?_, herror⟩
      obtain ⟨ht, d, hyield, hterm⟩ := hvalue t ht
      exact ⟨ht, d, hyield ▸ hscanned.1, hterm⟩

/-- A text that splits into the tokens of a derivation is read as the term of the derivation. -/
theorem parse_eq_ok {text : String} {d : Derivation .disjunction} (h : Splits text.toList d.yield) :
    parse text = .ok d.term := by
  obtain ⟨ts, hscan, htokens⟩ := h.exists_scan 0
  have hyields : Yields (wholeTerm text.utf8ByteSize ts) d.term := d.yields_wholeTerm htokens
  obtain ⟨us, hus⟩ := hyields []
  rw [parse, parseReporting_of_scan hscan, hus]

/-- The parser decides the grammar. A text is read exactly if it splits into tokens that derive from a formula, as
the term that is built along the derivation; there is no other derivation. A fault is noticed between two characters
of the text or at its end. -/
theorem parse_decides (text : String) :
    (∀ t, parse text = .ok t ↔ ∃ d : Derivation .disjunction, Splits text.toList d.yield ∧ d.term = t) ∧
      (∀ d d' : Derivation .disjunction, Splits text.toList d.yield → Splits text.toList d'.yield → d = d') ∧
      ∀ e, parse text = .error e → e.offset ≤ text.utf8ByteSize ∧ (String.Pos.Raw.mk e.offset).IsValid text := by
  have hall : IsClosed fun _ => True := by constructor <;> simp
  obtain ⟨-, hvalue, herror⟩ := parseReporting_ensures hall (by simp) text
  refine ⟨fun t => ⟨fun ht => (hvalue t ht).2, ?_⟩, fun d d' hd hd' => ?_, fun e he => ?_⟩
  · rintro ⟨d, hd, rfl⟩
    exact parse_eq_ok hd
  · have hyield := hd.unique hd'
    exact (d.unique d' (stops_nil _) (stops_nil _) (by rw [hyield])).1
  · have hvalid := (herror e he).isValid
    exact ⟨hvalid.le_utf8ByteSize, hvalid⟩

end Backslice.Term
