import Backslice.Proofs.ConditionalTree
import Backslice.Proofs.HandleIndependence
import Backslice.Proofs.RoundTrip
import Mathlib

/-!
# Fresh variables

The name of a fresh variable is a stem, a `#` and the number of fresh variables
taken before. The stem is arbitrary, and may hold marks and digits itself; but
digits hold no mark, so that the number is what follows the last mark of the
name. Two fresh variables are therefore different, as is the marker, which ends
in a mark.

A manager counts the fresh variables of all operations, the placeholders of sets
passed backward among them. As long as no name with a mark is brought in from
outside, every variable with a mark in it is the marker or has a number below
the count. One operation preserves this, and so does a run, whatever the
operations are. The next fresh variable occurs in no term, then.
-/

namespace Backslice

open Term

/-- What follows the last mark of a name. -/
def afterMark (name : String) : List Char :=
  (name.toList.reverse.takeWhile (· ≠ '#')).reverse

theorem not_mem_digits (n : Nat) : '#' ∉ Nat.toDigits 10 n := by
  intro h
  exact absurd (Nat.isDigit_of_mem_toDigits (by decide) (by decide) h) (by decide)

theorem afterMark_numbered (stem : String) (n : Nat) : afterMark (stem ++ "#" ++ toString n) = Nat.toDigits 10 n := by
  have hdigits : ∀ c ∈ (Nat.toDigits 10 n).reverse, decide (c ≠ '#') = true := fun c hc => by
    rw [decide_eq_true_eq]
    rintro rfl
    exact not_mem_digits n (List.mem_reverse.1 hc)
  have hname : (stem ++ "#" ++ toString n).toList.reverse =
      (Nat.toDigits 10 n).reverse ++ '#' :: stem.toList.reverse := by
    simp [Nat.toString_eq_repr, Nat.toList_repr]
  rw [afterMark, hname, List.takeWhile_append_of_pos hdigits, List.takeWhile_cons_of_neg (by simp), List.append_nil,
    List.reverse_reverse]

namespace Fresh

theorem taken_inj {names names' : Fresh} {stem stem' : String} (h : (names.take stem).1 = (names'.take stem').1) :
    names.taken = names'.taken := by
  have hdigits := congrArg afterMark (Term.var.inj h)
  rw [afterMark_numbered, afterMark_numbered, ← Nat.toList_repr, ← Nat.toList_repr] at hdigits
  exact Nat.repr_inj.1 (String.toList_injective hdigits)

theorem take_ne_marker (names : Fresh) (stem : String) : (names.take stem).1 ≠ marker := by
  intro h
  have hdigits := congrArg afterMark (Term.var.inj h)
  rw [afterMark_numbered] at hdigits
  exact Nat.toDigits_ne_nil hdigits

/-- Whether a term is a variable that was taken before. -/
def Gave (names : Fresh) (x : Term) : Prop :=
  ∃ (earlier : Fresh) (stem : String), earlier.taken < names.taken ∧ x = (earlier.take stem).1

theorem gave_take {names later : Fresh} (h : names.taken < later.taken) (stem : String) :
    later.Gave (names.take stem).1 :=
  ⟨names, stem, h, rfl⟩

theorem Gave.mono {names later : Fresh} {x : Term} (h : names.Gave x) (hle : names.taken ≤ later.taken) :
    later.Gave x := by
  obtain ⟨earlier, stem, hlt, hx⟩ := h
  exact ⟨earlier, stem, Nat.lt_of_lt_of_le hlt hle, hx⟩

/-- Whether the variables of a term that have a mark in their names are the marker and such as were taken before. -/
def Covers (names : Fresh) (t : Term) : Prop :=
  ∀ u ∈ t.subterms, u.isReserved = true → u = marker ∨ names.Gave u

theorem Covers.mono {names later : Fresh} {t : Term} (h : names.Covers t) (hle : names.taken ≤ later.taken) :
    later.Covers t := fun u hu hreserved =>
  (h u hu hreserved).imp_right (·.mono hle)

theorem covers_of_plain {names : Fresh} {t : Term} (h : t.Plain) : names.Covers t := fun u hu hreserved =>
  absurd hreserved (by simp [h u hu])

theorem Gave.covers {names : Fresh} {x : Term} (h : names.Gave x) : names.Covers x := by
  intro u hu _
  obtain ⟨earlier, stem, -, rfl⟩ := id h
  exact Or.inr (List.mem_singleton.1 hu ▸ h)

/-- The next variable does not occur in a term whose marked variables were taken before. -/
theorem Covers.take_not_mem {names : Fresh} {t : Term} (h : names.Covers t) (stem : String) :
    (names.take stem).1 ∉ t.subterms := by
  intro hmem
  rcases h _ hmem (isReserved_take names stem) with hmarker | ⟨earlier, stem', hlt, hx⟩
  · exact take_ne_marker names stem hmarker
  · exact Nat.ne_of_gt hlt (taken_inj hx)

/-- Sets in front of an arrow, too, are built with the variables of their parts. -/
theorem isMarked_covers (names : Fresh) : IsMarked names.Covers where
  toIsInherited := isInherited_forall_subterms fun t ht hreserved => by
    obtain ⟨n, rfl⟩ := exists_of_isReserved hreserved
    cases ht
  marker u hu _ := Or.inl (List.mem_singleton.1 hu)

end Fresh

theorem Token.IsName.not_mem {name : String} (h : Token.IsName name) : '#' ∉ name.toList := by
  obtain ⟨c, rest, rfl, hc, hrest⟩ := h
  rw [String.toList_ofList, List.mem_cons]
  rintro (rfl | hmem)
  · exact absurd hc (by decide)
  · exact absurd (hrest _ hmem) (by decide)

namespace ConditionalSet

variable {s : ConditionalSet} {names : Fresh}

/-- The placeholders taken after a set has been passed backward. A refusal takes none. -/
def namesAfter (names : Fresh) : Except Fault (ConditionalSet × Fresh) → Fresh
  | .ok (_, later) => later
  | .error _ => names

theorem gave_placeholders_assign (location value : Term) :
    names.taken ≤ (namesAfter names (s.beforeAssignment location value names)).taken ∧
      ∀ x ∈ (Statement.assign location value).placeholders names,
        (namesAfter names (s.beforeAssignment location value names)).Gave x := by
  cases location with
  | reg n o size =>
      refine ⟨Nat.le_succ _, fun x hx => ?_⟩
      rw [List.mem_singleton.1 hx]
      exact Fresh.gave_take (Nat.lt_succ_self _) _
  | mem a =>
      refine ⟨Nat.le_add_right _ 2, fun x hx => ?_⟩
      rcases List.mem_cons.1 hx with rfl | hx
      · exact Fresh.gave_take (Nat.lt_add_of_pos_right Nat.two_pos) _
      · rw [List.mem_singleton.1 hx]
        exact Fresh.gave_take (Nat.lt_succ_self _) _
  | _ => exact ⟨Nat.le_refl _, by simp [Statement.placeholders]⟩

theorem namesAfter_before_assign {arrow : Arrow} {location value : Term} (h : arrow.statement = .assign location value)
    (options : Options) :
    namesAfter names (s.before options arrow names) = namesAfter names (s.beforeAssignment location value names) := by
  rw [before, h]
  cases hbefore : s.beforeAssignment location value names <;> simp only [hbefore] <;> rfl

theorem gave_placeholders (s : ConditionalSet) (names : Fresh) (options : Options) (arrow : Arrow) :
    names.taken ≤ (namesAfter names (s.before options arrow names)).taken ∧
      ∀ x ∈ arrow.statement.placeholders names, (namesAfter names (s.before options arrow names)).Gave x := by
  cases hstatement : arrow.statement with
  | assign location value =>
      rw [namesAfter_before_assign hstatement]
      exact gave_placeholders_assign location value
  | jump | skip | external name =>
      rw [before, hstatement]
      exact ⟨Nat.le_refl _, by simp [Statement.placeholders]⟩

end ConditionalSet

namespace Manager

variable {m : Manager} {ts : List Term}

theorem names_before {set : Nat} {options : Options} {handles : ArrowHandles} {s : ConditionalSet} {arrow : Arrow}
    (hset : m.arena.term? set = some s) (harrow : m.arena.arrow? handles = some arrow) :
    (m.outcome (.before set options handles)).2.names =
      ConditionalSet.namesAfter m.names (s.before options arrow m.names) := by
  rw [outcome_before hset harrow]
  cases s.before options arrow m.names <;> rfl

theorem covers_made (hm : m.arena.Holds ts) (hts : ∀ t ∈ ts, m.names.Covers t) {op : Operation}
    (hop : ∀ name, op = .var name → '#' ∉ name.toList) :
    m.names.taken ≤ (m.outcome op).2.names.taken ∧ ∀ t ∈ m.made op, (m.outcome op).2.names.Covers t := by
  have hplain : ∀ {t : Term}, t.isReserved = false → t.children = [] → m.names.Covers t := fun h hnone =>
    Fresh.covers_of_plain ((plain_iff _).2 ⟨h, by simp [hnone]⟩)
  have hreg : ∀ n o s, m.names.Covers (.reg n o s) := fun n o s => hplain rfl rfl
  have hkept : Building.Keeps m.names.Covers op.results (fun results => ∀ t ∈ results, m.names.Covers t) →
      m.names.taken ≤ (m.outcome op).2.names.taken ∧ ∀ t ∈ m.made op, (m.outcome op).2.names.Covers t := by
    intro hkeeps
    obtain ⟨hmade, hnames⟩ := forall_made hkeeps hm hts
    rw [hnames]
    exact ⟨Nat.le_refl _, hmade⟩
  cases op with
  | var n =>
      have hreserved : (Term.var n).isReserved = false := by simpa [isReserved] using hop n rfl
      exact hkept (.pure fun t ht => List.mem_singleton.1 ht ▸ hplain hreserved rfl)
  | fresh stem =>
      refine ⟨Nat.le_succ _, fun t ht => ?_⟩
      rw [made_fresh, List.mem_singleton] at ht
      exact ht ▸ (Fresh.gave_take (Nat.lt_succ_self _) stem).covers
  | parse text =>
      refine hkept (keeps_results_parse (Fresh.isMarked_covers _).toIsClosed (fun name hname => ?_) hreg text)
      exact hplain (by simpa [isReserved] using hname.not_mem) rfl
  | before set options handles =>
      rcases m.refused_or_denoted set handles with hrefused | ⟨s, arrow, hset, harrow⟩
      · obtain ⟨e, he⟩ : ∃ e, m.outcome (.before set options handles) = (.error e, ⟨m.names, []⟩) :=
          outcome_before_refused hrefused
        simp [made_before_refused hrefused, he]
      · obtain ⟨hle, hgave⟩ := ConditionalSet.gave_placeholders s m.names options arrow
        rw [names_before hset harrow]
        exact ⟨hle, forall_made_before (Fresh.isMarked_covers _) hm (fun t ht => (hts t ht).mono hle) hset harrow
          fun x hx => (hgave x hx).covers⟩
  | _ => exact hkept (keeps_results_of_not_naming (Fresh.isMarked_covers _) hreg rfl)

theorem covers_run (hm : m.arena.Holds ts) (hts : ∀ t ∈ ts, m.names.Covers t) {ops : List Operation}
    (hops : ∀ name, .var name ∈ ops → '#' ∉ name.toList) :
    ∃ us, (m.run ops).2.arena.Holds us ∧ ∀ u ∈ us, (m.run ops).2.names.Covers u := by
  induction ops generalizing m ts with
  | nil => exact ⟨ts, hm, hts⟩
  | cons op ops ih =>
      obtain ⟨us, hus, -⟩ := holds_perform hm op
      obtain ⟨hle, hmade⟩ := covers_made hm hts fun name heq => hops name (heq ▸ List.mem_cons_self)
      rw [run_cons]
      refine ih hus ?_ fun name hname => hops name (List.mem_cons_of_mem op hname)
      rw [names_perform]
      exact (forall_perform_iff (Fresh.isMarked_covers _).subterm hm op hus).2 ⟨fun t ht => (hts t ht).mono hle, hmade⟩

theorem plain_of_parse {text : String} {t : Term} (h : Term.parse text = .ok t) : t.Plain := by
  have hleaf : ∀ {u : Term}, u.isReserved = false → u.children = [] → u.Plain := fun hreserved hnone =>
    (plain_iff _).2 ⟨hreserved, by simp [hnone]⟩
  have hvar : ∀ name, Token.IsName name → (Term.var name).Plain := fun name hname =>
    hleaf (by simpa [isReserved] using hname.not_mem) rfl
  exact (forall_parse isInherited_plain.toIsClosed hvar (fun _ _ _ => hleaf rfl rfl) text).2 t h

/-- The handle that is returned for a text denotes the term that the text is read as. -/
theorem parse_of_perform (hm : m.arena.IsManaged) {text : String} {i : Nat} {t : Term}
    (hread : (m.perform (.parse text)).1 = .ok [i]) (hi : (m.perform (.parse text)).2.arena.term? i = some t) :
    Term.parse text = .ok t := by
  obtain ⟨ts, hts⟩ := hm.exists_holds
  obtain ⟨us, hus, -, hreturned⟩ := holds_perform hts (.parse text)
  rw [hread, outcome_parse] at hreturned
  cases hparse : Term.parse text with
  | error e =>
      rw [hparse] at hreturned
      cases hreturned
  | ok u =>
      rw [hparse] at hreturned
      have hu : [termAt us i] = [some u] := Except.ok.inj hreturned
      rw [← hus.term?_eq, hi] at hu
      simpa using hu.symm

/-- Whether a variable is new to a manager, and to whoever writes texts. -/
structure IsNew (m : Manager) (x : Term) : Prop where
  ne_marker : x ≠ marker
  /-- It occurs in no term that the manager holds. -/
  not_mem_held (i : Nat) (t : Term) : m.arena.term? i = some t → x ∉ t.subterms
  /-- It occurs in no term that a text is read as, be it before or after, by this manager or another. -/
  not_mem_read (reader : Manager) (text : String) (i : Nat) (t : Term) : reader.arena.IsManaged →
    (reader.perform (.parse text)).1 = .ok [i] → (reader.perform (.parse text)).2.arena.term? i = some t →
    x ∉ t.subterms

/-- The next variable of a manager that has counted the marked ones is new. -/
theorem isNew_take (hm : m.arena.Holds ts) (hts : ∀ t ∈ ts, m.names.Covers t) (stem : String) :
    m.IsNew (m.names.take stem).1 where
  ne_marker := Fresh.take_ne_marker m.names stem
  not_mem_held i t hi := (hm.forall_term? hts i t hi).take_not_mem stem
  not_mem_read _ _ _ _ hreader hread hi :=
    (plain_of_parse (parse_of_perform hreader hread hi)).not_mem_subterms (Fresh.isReserved_take m.names stem)

/-- The handle of a fresh variable denotes it, whatever is done afterwards. -/
theorem term?_of_fresh (hm : m.arena.Holds ts) {stem : String} {j : Nat} (hj : (m.perform (.fresh stem)).1 = .ok [j])
    (later : List Operation) : ((m.run (.fresh stem :: later)).2).arena.term? j = some (m.names.take stem).1 := by
  obtain ⟨us, i, hus, -, hreturned, hi⟩ := exists_handle hm (outcome_fresh m stem)
  obtain ⟨vs, hvs, hmore, -⟩ := holds_run hus later
  obtain rfl := List.singleton_inj.1 (Except.ok.inj (hreturned.symm.trans hj))
  rw [run_cons, hvs.term?_eq]
  exact termAt_mono hmore hi

/-- Fresh variables are fresh. After any operations on a new manager, none of which brings in a variable with a mark in
its name, a fresh variable is returned, whatever the stem: it is not the marker, it occurs in no term that the manager
holds and in none that a text is ever read as. Its name and its handle are those of no earlier fresh variable. -/
theorem fresh_isNew {bits : Nat} (h : bits ≤ 31) (ops : List Operation)
    (hops : ∀ name, .var name ∈ ops → '#' ∉ name.toList) (stem : String) :
    ∃ created m m' i x, Manager.new bits = .ok created ∧ (created.run ops).2 = m ∧
      m.perform (.fresh stem) = (.ok [i], m') ∧ m'.arena.term? i = some (.var x) ∧ m.IsNew (.var x) ∧
      ∀ earlier stem' later j, ops = earlier ++ .fresh stem' :: later →
        ((created.run earlier).2.perform (.fresh stem')).1 = .ok [j] →
        ∃ y, m.arena.term? j = some (.var y) ∧ y ≠ x ∧ j ≠ i := by
  obtain ⟨created, ts, hcreated, -, hts, hnew⟩ := exists_new h
  have hcovers : ∀ t ∈ ts, created.names.Covers t := fun t ht =>
    property_of_mem_new (Fresh.isMarked_covers _).toIsKeptBySets (hnew t ht)
  obtain ⟨us, hus, hall⟩ := covers_run hts hcovers hops
  obtain ⟨vs, i, hvs, hmore, hreturned, hi⟩ := exists_handle hus (outcome_fresh _ stem)
  have hisNew := isNew_take hus hall stem
  refine ⟨created, _, _, i, _, hcreated, rfl, Prod.ext hreturned rfl, (hvs.term?_eq i).trans hi, hisNew, ?_⟩
  rintro earlier stem' later j rfl hj
  obtain ⟨ws, hws, -⟩ := holds_run hts earlier
  have hheld := term?_of_fresh hws hj later
  rw [← run_append] at hheld
  have hne : ((created.run earlier).2.names.take stem').1 ≠
      ((created.run (earlier ++ .fresh stem' :: later)).2.names.take stem).1 := fun heq =>
    hisNew.not_mem_held j _ hheld (heq ▸ mem_subterms_self _)
  refine ⟨_, hheld, fun hname => hne (congrArg Term.var hname), fun hhandle => hne ?_⟩
  rw [hus.term?_eq] at hheld
  exact Option.some.inj ((termAt_mono hmore hheld).symm.trans (hhandle ▸ hi))

/-- Stems with marks and digits in them, a text, and a set passed backward, which takes a placeholder. -/
def variousStems : List Operation :=
  [.fresh "t", .fresh "t#0#1", .parse "a && %r == 1", .var "t_3", .member 7,
    .before 12 ⟨false, false⟩ ⟨⟨0, 0⟩, none, .assign 7 4, .fixed ⟨1, 0⟩⟩, .fresh "ELT"]

theorem fresh_isNew_variousStems :
    0 ≤ 31 ∧ (∀ name, .var name ∈ variousStems → '#' ∉ name.toList) ∧
      ∃ created m m', Manager.new 0 = .ok created ∧ (created.run variousStems).2 = m ∧
        m.perform (.fresh "t#0") = (.ok [15], m') ∧ m'.arena.term? 15 = some (.var "t#0#4") ∧ m.IsNew (.var "t#0#4") ∧
        ∀ earlier stem later j, variousStems = earlier ++ .fresh stem :: later →
          ((created.run earlier).2.perform (.fresh stem)).1 = .ok [j] →
          ∃ y, m.arena.term? j = some (.var y) ∧ y ≠ "t#0#4" ∧ j ≠ 15 := by
  have hplain : ∀ name, .var name ∈ variousStems → '#' ∉ name.toList := by
    intro name hname
    simp only [variousStems, List.mem_cons, reduceCtorEq, Operation.var.injEq, List.not_mem_nil, or_false,
      false_or] at hname
    exact hname ▸ by decide
  have hfresh : (Manager.new 0).map (fun created =>
      let returned := (created.run variousStems).2.perform (.fresh "t#0")
      (returned.1, returned.2.arena.term? 15)) = .ok (.ok [15], some (.var "t#0#4")) := by
    cbv
  obtain ⟨created, _, m', i, x, hcreated, rfl, hperform, hname, hnew, hearlier⟩ :=
    fresh_isNew (Nat.zero_le 31) variousStems hplain "t#0"
  rw [hcreated, Except.map, Except.ok.injEq, hperform, Prod.mk.injEq] at hfresh
  obtain ⟨hreturned, hread⟩ := hfresh
  obtain rfl := List.singleton_inj.1 (Except.ok.inj hreturned)
  obtain rfl := Term.var.inj (Option.some.inj (hname.symm.trans hread))
  exact ⟨Nat.zero_le 31, hplain, created, _, m', hcreated, rfl, hperform, hname, hnew, hearlier⟩

end Manager
end Backslice
