import Backslice.Proofs.HashConsing
import Backslice.Proofs.OperandReads
import Backslice.Proofs.ParsedTerms

/-!
# Properties of all terms of a manager

What an operation makes is what it builds and what it returns. This is stored,
with its parts, and nothing else. All that a manager holds has a property that
is handed down to parts, therefore, exactly if all that was made has it.

Most operations keep a property that the constructors keep: what they make, from
terms that have it, has it again. The three terms of a new arena have it, and so
has every term after any operations.
-/

namespace Backslice

open Term

namespace Arena

section
variable {a : Arena} {P : Term → Prop} (ha : ∀ i t, a.term? i = some t → P t)
include ha

theorem forall_terms? {handles : List Nat} {ts : List Term} (hts : handles.mapM a.term? = some ts) : ∀ t ∈ ts, P t := by
  intro t ht
  obtain ⟨i, -, hi⟩ := List.exists_of_mem_mapM hts ht
  exact ha i t hi

theorem forall_bindings? {handles : List (Nat × Nat)} {bs : Bindings} (hbs : handles.mapM a.binding? = some bs) :
    ∀ b ∈ bs, P b.2 := by
  intro b hb
  obtain ⟨handle, -, hhandle⟩ := List.exists_of_mem_mapM hbs hb
  simp only [binding?, Option.bind_eq_bind, Option.bind_eq_some_iff] at hhandle
  obtain ⟨key, -, value, hvalue, hpair⟩ := hhandle
  cases hpair
  exact ha handle.2 value hvalue

theorem forall_arrow? {handles : ArrowHandles} {arrow : Arrow} (harrow : a.arrow? handles = some arrow) :
    (∀ g ∈ arrow.guard, P g) ∧ IsHereditary.OfStatement P arrow.statement := by
  simp only [arrow?, Option.bind_eq_bind, Option.bind_eq_some_iff] at harrow
  obtain ⟨guard, hguard, statement, hstatement, target, -, harrow⟩ := harrow
  cases harrow
  constructor
  · intro g hg
    cases hhandle : handles.guard with
    | none =>
        rw [hhandle] at hguard
        cases hguard
        cases hg
    | some i =>
        rw [hhandle] at hguard
        obtain ⟨t, ht, rfl⟩ := Option.map_eq_some_iff.1 hguard
        cases hg
        exact ha i _ ht
  · cases hhandle : handles.statement with
    | assign location value =>
        rw [hhandle] at hstatement
        simp only [statement?, Option.bind_eq_bind, Option.bind_eq_some_iff] at hstatement
        obtain ⟨l, hl, v, hv, hassign⟩ := hstatement
        cases hassign
        exact ⟨ha location l hl, ha value v hv⟩
    | jump | skip | external name =>
        rw [hhandle] at hstatement
        cases hstatement
        exact trivial

end

end Arena

namespace Building

variable {α β : Type}

/-- Whether a computation on the terms of an arena builds terms with a property only, if the arena holds no other,
takes no names, and comes to a value with another property. -/
def Keeps (P : Term → Prop) (p : Building α) (post : α → Prop) : Prop :=
  ∀ (a : Arena) (draft : Draft), (∀ i t, a.term? i = some t → P t) → (∀ u ∈ draft.built, P u) →
    (∀ u ∈ ((p.run a).run draft).2.built, P u) ∧ ((p.run a).run draft).2.names = draft.names ∧
      ∀ x, ((p.run a).run draft).1 = .ok x → post x

namespace Keeps

variable {P : Term → Prop} {post : α → Prop} {post' : β → Prop}

theorem pure {x : α} (h : post x) : Keeps P (pure x) post := by
  intro a draft _ hbuilt
  refine ⟨hbuilt, rfl, fun y hy => ?_⟩
  cases hy
  exact h

theorem throw (e : Refusal) : Keeps P (throw e : Building α) post := by
  intro a draft _ hbuilt
  exact ⟨hbuilt, rfl, fun y hy => by cases hy⟩

theorem bind {p : Building α} {f : α → Building β} (hp : Keeps P p post) (hf : ∀ x, post x → Keeps P (f x) post') :
    Keeps P (p >>= f) post' := by
  intro a draft ha hbuilt
  obtain ⟨hkept, hnames, hvalue⟩ := hp a draft ha hbuilt
  cases houtcome : (p.run a).run draft with
  | mk result draft' =>
      rw [houtcome] at hkept hnames hvalue
      cases result with
      | ok x =>
          rw [run_bind_ok houtcome, ← hnames]
          exact hf x (hvalue x rfl) a draft' ha hkept
      | error e =>
          rw [run_bind_error houtcome]
          exact ⟨hkept, hnames, fun y hy => by cases hy⟩

theorem map {p : Building α} {f : α → β} (hp : Keeps P p post) (hf : ∀ x, post x → post' (f x)) :
    Keeps P (p >>= fun x => Pure.pure (f x)) post' :=
  hp.bind fun x hx => .pure (hf x hx)

theorem of_looksUp {p : Building α} {x? : Arena → Option α} (hp : ∀ a, LooksUp a p (x? a))
    (hpost : ∀ a, (∀ i t, a.term? i = some t → P t) → ∀ x, x? a = some x → post x) : Keeps P p post := by
  intro a draft ha hbuilt
  have hlook := hp a
  cases hx : x? a with
  | some x =>
      rw [hlook.reads hx draft]
      refine ⟨hbuilt, rfl, fun y hy => ?_⟩
      cases hy
      exact hpost a ha x hx
  | none =>
      rw [hx] at hlook
      obtain ⟨e, he⟩ := hlook
      rw [he draft]
      exact ⟨hbuilt, rfl, fun y hy => by cases hy⟩

theorem term (i : Nat) : Keeps P (Building.term i) P :=
  of_looksUp (LooksUp.term · i) fun _ ha t ht => ha i t ht

theorem terms (handles : List Nat) : Keeps P (Building.terms handles) fun ts => ∀ t ∈ ts, P t :=
  of_looksUp (LooksUp.terms · handles) fun _ ha _ => Arena.forall_terms? ha

theorem bindings (handles : List (Nat × Nat)) : Keeps P (Building.bindings handles) fun bs => ∀ b ∈ bs, P b.2 :=
  of_looksUp (LooksUp.bindings · handles) fun _ ha _ => Arena.forall_bindings? ha

theorem note {ts : List Term} (hts : ∀ t ∈ ts, P t) : Keeps P (Building.note ts) fun _ => True := by
  intro a draft _ hbuilt
  refine ⟨?_, rfl, fun _ _ => trivial⟩
  exact List.forall_mem_append.2 ⟨fun t ht => hts t (List.mem_reverse.1 ht), hbuilt⟩

theorem orRefuse {ε : Type} {refusal : ε → Refusal} {result : Except ε α} (h : ∀ x, result = .ok x → post x) :
    Keeps P (Building.orRefuse refusal result) post := by
  cases result with
  | ok x => exact .pure (h x rfl)
  | error e => exact .throw _

end Keeps
end Building

namespace Operation

/-- Operations that put variables into terms. -/
def isNaming : Operation → Bool
  | .var _ | .fresh _ | .parse _ | .before _ _ _ => true
  | _ => false

/-- Operations, apart from these, that may put quantified terms together. -/
def isQuantifying : Operation → Bool
  | .quantify _ _ _ | .rebuild _ _ | .instantiate _ _ | .rewrite _ _ _ _ | .replace _ _ _ | .simplify _
  | .splitAliases _ _ _ => true
  | _ => false

end Operation

open Building

section
variable {P : Term → Prop} {op : Operation}

private theorem forall_singleton {t : Term} (ht : P t) : ∀ u ∈ [t], P u :=
  fun _ hu => List.mem_singleton.1 hu ▸ ht

/-- What most operations build and come to has every property that conditional sets keep and register cells have. -/
theorem keeps_results_of_sets (h : IsKeptBySets P) (hreg : ∀ n o s, P (.reg n o s)) (hnaming : op.isNaming = false)
    (hquantifying : op.isQuantifying = false) : Keeps P op.results fun results => ∀ t ∈ results, P t := by
  have hone : ∀ {t : Term}, P t → ∀ u ∈ [t], P u := forall_singleton
  cases op with
  | var _ | fresh _ | parse _ | before _ _ _ => cases hnaming
  | quantify _ _ _ | rebuild _ _ | instantiate _ _ | rewrite _ _ _ _ | replace _ _ _ | simplify _
  | splitAliases _ _ _ => cases hquantifying
  | name _ => exact .pure (by simp)
  | const v => exact .pure (hone (h.const v))
  | reg n o size => exact .pure (hone (hreg n o size))
  | mem a => exact (Keeps.term a).map fun t ht => hone (h.mem ht)
  | unary op a => exact (Keeps.term a).map fun t ht => hone (h.unary op ht)
  | binary op a b =>
      exact (Keeps.term a).bind fun t ht => (Keeps.term b).map fun u hu => hone (h.binary op ht hu)
  | bool b => exact .pure (hone (h.bool b))
  | marker => exact .pure (hone h.marker)
  | eq a b => exact (Keeps.term a).bind fun t ht => (Keeps.term b).map fun u hu => hone (h.eq ht hu)
  | asFormula t => exact (Keeps.term t).map fun t ht => hone (h.asFormula ht)
  | negate t => exact (Keeps.term t).map fun t ht => hone (h.negate ht)
  | conj ts => exact (Keeps.terms ts).map fun ts hts => hone (h.conj hts)
  | disj ts => exact (Keeps.terms ts).map fun ts hts => hone (h.disj hts)
  | ite c a b =>
      refine (Keeps.term c).bind fun t ht => (Keeps.term a).bind fun u hu => ?_
      exact (Keeps.term b).map fun v hv => hone (h.ite ht hu hv)
  | children t => exact (Keeps.term t).map fun t ht c hc => h.child ht hc
  | cellAddress t =>
      refine (Keeps.term t).map fun t ht a ha => ?_
      cases t with
      | mem b =>
          rw [List.mem_singleton.1 ha]
          exact h.child ht (by simp [children])
      | _ => exact absurd ha List.not_mem_nil
  | lvalues t => exact (Keeps.term t).map fun t ht => h.lvalues ht
  | dependencies t => exact (Keeps.term t).map fun t ht => h.dependencies ht
  | matching pattern free t bound =>
      refine (Keeps.term pattern).bind fun p _ => (Keeps.terms free).bind fun free _ => ?_
      refine (Keeps.term t).bind fun t ht => (Keeps.bindings bound).bind fun bound hbound => .pure ?_
      cases hfound : p.matchWith? free t bound with
      | none => simp
      | some found => exact List.forall_mem_map.2 (h.forall_matchWith? p ht hbound hfound)
  | disjunctiveForm t =>
      refine (Keeps.term t).bind fun t ht => ?_
      exact (Keeps.note (h.disjunctiveFormBuilds ht)).map fun _ _ => hone (h.disjunctiveForm ht)
  | emptySet => exact .pure (hone (h.bool false))
  | member e => exact (Keeps.term e).map fun e he => hone (h.member he)
  | add set e =>
      refine (Keeps.term set).bind fun s hs => (Keeps.term e).bind fun e he => ?_
      exact (Keeps.note (h.addBuilds hs he)).map fun _ _ => hone (h.add hs he)
  | union set other => exact (Keeps.term set).bind fun s hs => (Keeps.term other).map fun t ht => hone (h.union hs ht)
  | memberValue t => exact (Keeps.term t).map fun t ht e he => h.memberValue? ht (Option.mem_toList.1 he)
  | possibleValues set => exact (Keeps.term set).map fun s hs => h.possibleValues hs
  | flatten set =>
      refine (Keeps.term set).bind fun s hs => ?_
      exact (Keeps.note (h.flattenBuilds hs)).map fun _ _ => hone (h.flatten hs)

section
variable (h : IsHandedDown P)
include h

theorem keeps_results_simplify (hsimplify : ∀ {t : Term}, P t → P t.simplify) (t : Nat) :
    Keeps P (Operation.simplify t).results fun results => ∀ t ∈ results, P t := by
  refine (Keeps.term t).bind fun t ht => (Keeps.note (h.forall_foldUp_builds hsimplify ht)).map fun _ _ => ?_
  exact forall_singleton (by simpa using hsimplify ht)

theorem keeps_results_splitAliases (hsplit : ∀ {t a v : Term}, P t → P a → P v → P (t.splitAliases a v).1)
    (t address value : Nat) :
    Keeps P (Operation.splitAliases t address value).results fun results => ∀ t ∈ results, P t := by
  refine (Keeps.term t).bind fun t ht => (Keeps.term address).bind fun a ha => (Keeps.term value).bind fun v hv => ?_
  have hbuilt := h.splitAliasesBuilds_of_splitAliases ha hv (fun ht => hsplit ht ha hv) ht
  exact (Keeps.note hbuilt).map fun _ _ => forall_singleton (hsplit ht ha hv)

end

theorem keeps_results_quantify {q : Quantifier}
    (hquantify : ∀ {bound body t : Term}, P bound → P body → Term.quantify? q bound body = .ok t → P t)
    (bound body : Nat) : Keeps P (Operation.quantify q bound body).results fun results => ∀ t ∈ results, P t := by
  refine (Keeps.term bound).bind fun t ht => (Keeps.term body).bind fun u hu => ?_
  exact (Keeps.orRefuse fun _ => hquantify ht hu).map fun _ => forall_singleton

theorem Term.IsInherited.quantify? (h : IsInherited P) {q : Quantifier} {bound body t : Term} (hbound : P bound)
    (hbody : P body) (ht : Term.quantify? q bound body = .ok t) : P t := by
  unfold Term.quantify? at ht
  split at ht
  · exact Except.ok.inj ht ▸ h.quantified q hbound hbody
  · cases ht

theorem Term.IsInherited.rebuild? (h : IsInherited P) {t u : Term} {cs : List Term} (ht : P t) (hcs : ∀ c ∈ cs, P c)
    (hu : t.rebuild? cs = .ok u) : P u := by
  unfold Term.rebuild? at hu
  split at hu
  · cases hu
  · exact Except.ok.inj hu ▸ h.withChildren ht hcs

/-- Quantified terms keep an inherited property, whatever they are put together for. -/
theorem keeps_results_of_quantifying (h : IsInherited P) (hquantifying : op.isQuantifying = true) :
    Keeps P op.results fun results => ∀ t ∈ results, P t := by
  have hone : ∀ {t : Term}, P t → ∀ u ∈ [t], P u := forall_singleton
  cases op with
  | quantify q bound body => exact keeps_results_quantify h.quantify? bound body
  | rebuild t cs =>
      refine (Keeps.term t).bind fun t ht => (Keeps.terms cs).bind fun cs hcs => ?_
      exact (Keeps.orRefuse fun _ => h.rebuild? ht hcs).map fun _ => hone
  | instantiate t bound =>
      refine (Keeps.term t).bind fun t ht => (Keeps.bindings bound).bind fun bound hbound => ?_
      exact (Keeps.note (h.instantiateBuilds hbound ht)).map fun _ _ => hone (h.instantiate hbound ht)
  | rewrite pattern free replacement target =>
      refine (Keeps.term pattern).bind fun p _ => (Keeps.terms free).bind fun free _ => ?_
      refine (Keeps.term replacement).bind fun r hr => (Keeps.term target).bind fun t ht => ?_
      exact (Keeps.note (h.replaceAllBuilds hr ht)).map fun _ _ => hone (h.apply hr ht)
  | replace t old new =>
      refine (Keeps.term t).bind fun t ht => (Keeps.term old).bind fun old _ => (Keeps.term new).bind fun new hnew => ?_
      exact (Keeps.note (h.replaceAllBuilds hnew ht)).map fun _ _ => hone (h.replace ht hnew)
  | simplify t => exact keeps_results_simplify h.toIsHandedDown h.simplify t
  | splitAliases t address value =>
      exact keeps_results_splitAliases h.toIsHandedDown (fun ht ha hv => h.splitAliases ha hv ht) t address value
  | _ => cases hquantifying

/-- An operation that puts no variables into terms keeps every property that sets in front of an assignment keep. -/
theorem keeps_results_of_not_naming (h : IsMarked P) (hreg : ∀ n o s, P (.reg n o s)) (hnaming : op.isNaming = false) :
    Keeps P op.results fun results => ∀ t ∈ results, P t := by
  cases hquantifying : op.isQuantifying with
  | false => exact keeps_results_of_sets h.toIsKeptBySets hreg hnaming hquantifying
  | true => exact keeps_results_of_quantifying h.toIsInherited hquantifying

section
variable (h : IsClosed P) (hvar : ∀ name, Token.IsName name → P (.var name)) (hreg : ∀ n o s, P (.reg n o s))
include h hvar hreg

/-- What is built where a text is read, and what it is read as, has every property that the constructors keep and that
the variables have whose names can be written, and register cells. -/
theorem forall_parse (text : String) :
    (∀ u ∈ (Term.parseReporting text).2, P u) ∧ ∀ t, (Term.parseReporting text).1 = .ok t → P t := by
  have hnames : ∀ name, Token.IsName name →
      P (Grammar.nameTerm name) ∧ ∀ o s : UInt16, (s = 0 → o = 0) → P (.reg name o s) := by
    refine fun name hname => ⟨?_, fun o s _ => hreg name o s⟩
    rcases Grammar.nameTerm_cases name with ⟨b, -, hb⟩ | ⟨-, hname'⟩
    · exact hb ▸ h.bool b
    · exact hname' ▸ hvar name hname
  obtain ⟨hbuilt, hresult, -⟩ := parseReporting_ensures h hnames text
  exact ⟨hbuilt, fun t ht => (hresult t ht).1⟩

theorem keeps_results_parse (text : String) :
    Keeps P (Operation.parse text).results fun results => ∀ t ∈ results, P t := by
  obtain ⟨hbuilt, hresult⟩ := forall_parse h hvar hreg text
  exact (Keeps.note hbuilt).bind fun _ _ => (Keeps.orRefuse hresult).map fun _ => forall_singleton

end

end

/-- The terms that an arena holds are determined by the arena. -/
theorem Arena.Holds.unique {a : Arena} {ts us : List Term} (ht : a.Holds ts) (hu : a.Holds us) : ts = us := by
  refine List.ext_getElem? fun k => ?_
  have hread := (ht.term?_eq (k + 1)).symm.trans (hu.term?_eq (k + 1))
  exact hread

theorem Arena.Holds.forall_term? {a : Arena} {ts : List Term} (h : a.Holds ts) {P : Term → Prop} (hts : ∀ t ∈ ts, P t)
    (i : Nat) (t : Term) (hi : a.term? i = some t) : P t :=
  hts t (mem_of_termAt (h.term?_eq i ▸ hi))

namespace Manager

variable {m : Manager} {ts us : List Term}

/-- The terms that an operation builds, and its results. -/
def made (m : Manager) (op : Operation) : List Term :=
  (m.outcome op).2.built.reverse ++ (m.outcome op).1.toOption.getD []

theorem made_of_makes {op : Operation} {ts : List Term} (h : Makes m.arena op.results ts) : m.made op = ts :=
  h m.names

theorem names_perform (m : Manager) (op : Operation) : (m.perform op).2.names = (m.outcome op).2.names := by
  unfold perform
  cases m.outcome op with
  | mk result draft => cases result <;> rfl

theorem holds_perform_made (h : m.arena.Holds ts) (op : Operation) :
    ∃ us, (m.perform op).2.arena.Holds us ∧ ts <+: us ∧ (∀ t ∈ m.made op, t ∈ us) ∧
      ∀ u ∈ us, u ∈ ts ∨ ∃ t ∈ m.made op, u ∈ t.subterms := by
  obtain ⟨vs, hvs, hmore, hbuilt, hparts⟩ := h.internAll (m.outcome op).2.built.reverse
  have hgrown : (m.grown op).Holds vs := by
    cases op with
    | name text => exact (Arena.Holds.internName hvs text).1
    | _ => exact hvs
  have hheld : ∀ t ∈ (m.outcome op).2.built.reverse, t ∈ vs := fun t ht => by
    obtain ⟨i, -, hi⟩ := List.mem_map.1 (hbuilt ▸ List.mem_map_of_mem ht)
    exact mem_of_termAt hi
  unfold perform made
  cases houtcome : m.outcome op with
  | mk result draft =>
      rw [houtcome] at hheld hparts
      cases result with
      | error e =>
          simp only [Except.toOption, Option.getD_none, List.append_nil]
          exact ⟨vs, hgrown, hmore, hheld, hparts⟩
      | ok results =>
          obtain ⟨ws, hws, hmore', hresults, hparts'⟩ := hgrown.internAll results
          refine ⟨ws, hws, hmore.trans hmore', fun t ht => ?_, fun w hw => ?_⟩
          · rcases List.mem_append.1 ht with ht | ht
            · exact hmore'.subset (hheld t ht)
            · obtain ⟨i, -, hi⟩ := List.mem_map.1 (hresults ▸ List.mem_map_of_mem ht)
              exact mem_of_termAt hi
          · rcases hparts' w hw with hw | ⟨t, ht, hw⟩
            · rcases hparts w hw with hw | ⟨t, ht, hw⟩
              · exact Or.inl hw
              · exact Or.inr ⟨t, List.mem_append_left _ ht, hw⟩
            · exact Or.inr ⟨t, List.mem_append_right _ ht, hw⟩

/-- All terms that are held after an operation have a property that is handed down if and only if those before it have
it, and what the operation makes. -/
theorem forall_perform_iff {P : Term → Prop} (hP : ∀ {t u : Term}, P t → u ∈ t.subterms → P u)
    (hm : m.arena.Holds ts) (op : Operation) (hm' : (m.perform op).2.arena.Holds us) :
    (∀ u ∈ us, P u) ↔ (∀ t ∈ ts, P t) ∧ ∀ t ∈ m.made op, P t := by
  obtain ⟨vs, hvs, hmore, hmade, hparts⟩ := holds_perform_made hm op
  obtain rfl := hvs.unique hm'
  constructor
  · exact fun hall => ⟨fun t ht => hall t (hmore.subset ht), fun t ht => hall t (hmade t ht)⟩
  · rintro ⟨hts, hall⟩ u hu
    rcases hparts u hu with hu | ⟨t, ht, hu⟩
    · exact hts u hu
    · exact hP (hall t ht) hu

theorem forall_made {P : Term → Prop} {op : Operation} (h : Keeps P op.results fun results => ∀ t ∈ results, P t)
    (hm : m.arena.Holds ts) (hts : ∀ t ∈ ts, P t) :
    (∀ t ∈ m.made op, P t) ∧ (m.outcome op).2.names = m.names := by
  obtain ⟨hbuilt, hnames, hresults⟩ := h m.arena ⟨m.names, []⟩ (hm.forall_term? hts) (by simp)
  refine ⟨List.forall_mem_append.2 ⟨fun t ht => hbuilt t (List.mem_reverse.1 ht), ?_⟩, hnames⟩
  cases hresult : (m.outcome op).1 with
  | error e => simp [Except.toOption]
  | ok results => exact hresults results hresult

theorem outcome_fresh (m : Manager) (stem : String) : (m.outcome (.fresh stem)).1 = .ok [(m.names.take stem).1] :=
  rfl

theorem made_fresh (m : Manager) (stem : String) : m.made (.fresh stem) = [(m.names.take stem).1] :=
  rfl

section
variable {set : Nat} {options : Options} {handles : ArrowHandles}

/-- To pass a set backward is to do so with its term, that of the arrow and the next placeholders. -/
theorem outcome_before {s : ConditionalSet} {arrow : Arrow} (hset : m.arena.term? set = some s)
    (harrow : m.arena.arrow? handles = some arrow) :
    m.outcome (.before set options handles) =
      match s.before options arrow m.names with
      | .error e => (.error (.analysis e), ⟨m.names, (s.beforeBuilds options arrow m.names).reverse⟩)
      | .ok (t, names) => (.ok [t], ⟨names, (s.beforeBuilds options arrow m.names).reverse⟩) := by
  have hget : ((get : Building Draft).run m.arena).run ⟨m.names, []⟩ = (.ok ⟨m.names, []⟩, ⟨m.names, []⟩) := rfl
  have hnote : ∀ ts, ((Building.note ts).run m.arena).run ⟨m.names, []⟩ = (.ok (), ⟨m.names, ts.reverse⟩) := by
    intro ts
    rw [← List.append_nil ts.reverse]
    rfl
  unfold outcome Operation.results
  rw [run_bind_ok (Reads.term hset _), run_bind_ok ((LooksUp.arrow m.arena handles).reads harrow _), run_bind_ok hget,
    run_bind_ok (hnote _)]
  cases s.before options arrow m.names <;> rfl

theorem outcome_before_refused (h : m.arena.term? set = none ∨ m.arena.arrow? handles = none) :
    ∃ e, m.outcome (.before set options handles) = (.error e, ⟨m.names, []⟩) := by
  unfold outcome Operation.results
  have hset := LooksUp.term m.arena set
  cases hs : m.arena.term? set with
  | none =>
      rw [hs] at hset
      obtain ⟨e, he⟩ := hset
      exact ⟨e, run_bind_error (he _)⟩
  | some s =>
      have harrow := LooksUp.arrow m.arena handles
      rw [h.resolve_left (by simp [hs])] at harrow
      obtain ⟨e, he⟩ := harrow
      exact ⟨e, (run_bind_ok (hset.reads hs _)).trans (run_bind_error (he _))⟩

theorem made_before {s : ConditionalSet} {arrow : Arrow} (hset : m.arena.term? set = some s)
    (harrow : m.arena.arrow? handles = some arrow) :
    m.made (.before set options handles) =
      s.beforeBuilds options arrow m.names ++ ((s.before options arrow m.names).toOption.map (·.1)).toList := by
  rw [made, outcome_before hset harrow]
  cases s.before options arrow m.names <;> simp [Except.toOption]

theorem made_before_refused (h : m.arena.term? set = none ∨ m.arena.arrow? handles = none) :
    m.made (.before set options handles) = [] := by
  obtain ⟨e, he⟩ : ∃ e, m.outcome (.before set options handles) = (.error e, ⟨m.names, []⟩) := outcome_before_refused h
  simp [made, he, Except.toOption]

theorem refused_or_denoted (m : Manager) (set : Nat) (handles : ArrowHandles) :
    (m.arena.term? set = none ∨ m.arena.arrow? handles = none) ∨
      ∃ s arrow, m.arena.term? set = some s ∧ m.arena.arrow? handles = some arrow := by
  cases m.arena.term? set <;> cases m.arena.arrow? handles <;> simp

theorem forall_made_before {P : Term → Prop} (h : IsMarked P) (hm : m.arena.Holds ts) (hts : ∀ t ∈ ts, P t)
    {s : ConditionalSet} {arrow : Arrow} (hset : m.arena.term? set = some s)
    (harrow : m.arena.arrow? handles = some arrow) (hnames : ∀ x ∈ arrow.statement.placeholders m.names, P x) :
    ∀ t ∈ m.made (.before set options handles), P t := by
  have hterms := hm.forall_term? hts
  have hs : P s := hterms _ _ hset
  obtain ⟨hguard, hstatement⟩ := Arena.forall_arrow? hterms harrow
  rw [made_before hset harrow]
  refine List.forall_mem_append.2 ⟨h.beforeBuilds hs options hguard hstatement hnames, ?_⟩
  cases hbefore : s.before options arrow m.names with
  | error e => simp [Except.toOption]
  | ok result => exact forall_singleton (h.before hs options hguard hstatement hnames hbefore)

end

section
variable {P : Term → Prop} (h : IsHereditary P)
include h

theorem forall_made_of_isHereditary (hm : m.arena.Holds ts) (hts : ∀ t ∈ ts, P t) (op : Operation) :
    ∀ t ∈ m.made op, P t := by
  cases op with
  | var n => exact (forall_made (.pure (forall_singleton (h.var n))) hm hts).1
  | fresh stem => exact forall_singleton (h.take m.names stem)
  | parse text => exact (forall_made (keeps_results_parse h.toIsClosed (fun n _ => h.var n) h.reg text) hm hts).1
  | before set options handles =>
      rcases m.refused_or_denoted set handles with hrefused | ⟨s, arrow, hset, harrow⟩
      · simp [made_before_refused hrefused]
      · exact forall_made_before h.toIsMarked hm hts hset harrow (h.placeholders arrow.statement m.names)
  | _ => exact (forall_made (keeps_results_of_not_naming h.toIsMarked h.reg rfl) hm hts).1

theorem forall_run (hm : m.arena.Holds ts) (hts : ∀ t ∈ ts, P t) (ops : List Operation)
    (hm' : (m.run ops).2.arena.Holds us) : ∀ u ∈ us, P u := by
  induction ops generalizing m ts with
  | nil => exact hm.unique hm' ▸ hts
  | cons op ops ih =>
      obtain ⟨vs, hvs, -⟩ := holds_perform hm op
      rw [run_cons] at hm'
      have hmade := forall_made_of_isHereditary h hm hts op
      exact ih hvs ((forall_perform_iff h.subterm hm op hvs).2 ⟨hts, hmade⟩) hm'

end

/-- What a new manager holds has every property that conditional sets keep. -/
theorem property_of_mem_new {P : Term → Prop} (h : IsKeptBySets P) {t : Term}
    (ht : t ∈ [.bool false, .bool true, marker]) : P t := by
  simp only [List.mem_cons, List.not_mem_nil, or_false] at ht
  obtain rfl | rfl | rfl := ht
  exacts [h.bool false, h.bool true, h.marker]

/-- A new manager of an admitted width holds the truth values and the marker. -/
theorem exists_new {bits : Nat} (hbits : bits ≤ 31) :
    ∃ created ts, Manager.new bits = .ok created ∧ created.names = ⟨0⟩ ∧ created.arena.Holds ts ∧
      ∀ t ∈ ts, t ∈ [.bool false, .bool true, marker] := by
  have hempty : Arena.Holds ⟨UniqueTable.empty bits, #[]⟩ [] :=
    Arena.holds_nil (UniqueTable.toList_empty bits) (UniqueTable.isChained_empty bits)
  obtain ⟨ts, hts, -, hparts⟩ := hempty.store [.bool false, .bool true, marker]
  refine ⟨⟨Arena.store ⟨UniqueTable.empty bits, #[]⟩ [.bool false, .bool true, marker], ⟨0⟩⟩, ts, ?_, rfl, hts, ?_⟩
  · simp [Manager.new, Arena.new, UniqueTable.withBits, hbits, bind, Except.bind, pure, Except.pure]
  · intro t ht
    obtain ⟨u, hu, ht⟩ := (hparts t ht).resolve_left List.not_mem_nil
    simp only [List.mem_cons, List.not_mem_nil, or_false] at hu
    obtain rfl | rfl | rfl := hu <;> simp_all [subterms, marker]

/-- After any operations on a new manager of an admitted width, all terms have the property. -/
theorem exists_run {P : Term → Prop} (h : IsHereditary P) {bits : Nat} (hbits : bits ≤ 31) (ops : List Operation) :
    ∃ created handles m ts, Manager.new bits = .ok created ∧ created.run ops = (handles, m) ∧ m.arena.Holds ts ∧
      ∀ t ∈ ts, P t := by
  obtain ⟨created, ts, hcreated, -, hts, hnew⟩ := exists_new hbits
  obtain ⟨us, hus, -⟩ := holds_run hts ops
  have hkept : ∀ t ∈ ts, P t := fun t ht => property_of_mem_new h.toIsKeptBySets (hnew t ht)
  exact ⟨created, _, _, us, hcreated, rfl, hus, forall_run h hts hkept ops hus⟩

end Manager
end Backslice
