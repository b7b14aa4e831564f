import Backslice.Proofs.BoundVariables
import Backslice.Proofs.FreshNames
import Mathlib

/-!
# Quantified nodes of an arena

The constructor of quantified terms refuses to bind anything else than a
variable. Operations that replace children do not come by it: they put quantified
nodes together anew without a look at what is bound. For every operation it can
be said of its operands whether it rebinds, and what it makes binds nothing but
variables exactly if it does not. A run therefore keeps to variables up to the
first operation that rebinds.

Passing a set backward replaces placeholders, and would rebind where one of them
is bound. As long as no name with a mark is brought in from outside, placeholders
are new, and none is.
-/

namespace Backslice

open Term

namespace Node

variable {names : Array String} {read : Nat → Option Term} {node : Node}

theorem exists_of_var {n : String} (h : node.term? names read = some (.var n)) : ∃ s, node = .var s := by
  cases node with
  | var s => exact ⟨s, rfl⟩
  | _ => simp [term?, Option.bind_eq_some_iff] at h

theorem exists_of_quantified {q : Quantifier} {t u : Term} (h : node.term? names read = some (.quantified q t u)) :
    ∃ x b, node = .quantified q x b ∧ read x = some t := by
  cases node with
  | quantified q' x b =>
      simp only [term?, Option.bind_eq_bind, Option.bind_eq_some_iff] at h
      obtain ⟨t', ht, u', -, heq⟩ := h
      cases heq
      exact ⟨x, b, rfl, ht⟩
  | _ => simp [term?, Option.bind_eq_some_iff] at h

end Node

namespace Arena

/-- Whether the bound term of every quantified node of an arena is a variable. -/
def BindsVariables (a : Arena) : Prop :=
  ∀ i q x b, a.nodes.valueAt i = .ok (.quantified q x b) → ∃ s, a.nodes.valueAt x = .ok (.var s)

theorem not_bindsVariables {a : Arena} {i x b : Nat} {q : Quantifier} {n : Node}
    (hi : a.nodes.valueAt i = .ok (.quantified q x b)) (hx : a.nodes.valueAt x = .ok n) (hne : ∀ s, n ≠ .var s) :
    ¬a.BindsVariables := by
  intro h
  obtain ⟨s, hs⟩ := h i q x b hi
  exact hne s (Except.ok.inj (hx.symm.trans hs))

theorem Holds.bindsVariables_iff {a : Arena} {ts : List Term} (h : a.Holds ts) :
    a.BindsVariables ↔ ∀ t ∈ ts, t.BindsVariables := by
  constructor
  · rintro hnodes t ht _ hu q x b rfl
    obtain ⟨k, hk⟩ := List.getElem?_of_mem (h.mem_of_mem_subterms ht hu)
    obtain ⟨node, hnode, hread⟩ := h.exists_valueAt (show termAt ts (k + 1) = _ from hk)
    obtain ⟨j, c, rfl, hj⟩ := Node.exists_of_quantified hread
    obtain ⟨s, hs⟩ := hnodes (k + 1) q j c hnode
    obtain ⟨y, hy, hvar⟩ := h.exists_term hs
    obtain ⟨n, -, rfl⟩ := Option.map_eq_some_iff.1 hvar
    exact Option.some.inj (hj.symm.trans hy) ▸ rfl
  · intro hts i q x b hi
    obtain ⟨t, ht, hread⟩ := h.exists_term hi
    simp only [Node.term?, Option.bind_eq_bind, Option.bind_eq_some_iff, Option.some.injEq] at hread
    obtain ⟨y, hy, c, -, rfl⟩ := hread
    obtain ⟨n, rfl⟩ := exists_of_isVariable ((hts _ (mem_of_termAt ht)).bound (mem_subterms_self _))
    obtain ⟨node, hnode, hvar⟩ := h.exists_valueAt hy
    obtain ⟨s, rfl⟩ := Node.exists_of_var hvar
    exact ⟨s, hnode⟩

end Arena

theorem Term.BindsVariables.quantify? {q : Quantifier} {bound body t : Term} (hbound : bound.BindsVariables)
    (hbody : body.BindsVariables) (ht : Term.quantify? q bound body = .ok t) : t.BindsVariables := by
  unfold Term.quantify? at ht
  split at ht
  next hvar => exact Except.ok.inj ht ▸ bindsOnly_quantified.2 ⟨hvar, hbound, hbody⟩
  next => cases ht

/-- Operations that put terms together anew from other parts. -/
def Operation.isReplacing : Operation → Bool
  | .rebuild _ _ | .instantiate _ _ | .rewrite _ _ _ _ | .replace _ _ _ => true
  | _ => false

namespace Manager

variable {m : Manager} {ts us : List Term}

open Building in
/-- What is made where an operation rebuilds a term, or replaces terms in it. -/
theorem made_rebuild (m : Manager) (t : Nat) (cs : List Nat) :
    m.made (.rebuild t cs) = (m.arena.term? t).toList.flatMap fun t =>
      (cs.mapM m.arena.term?).toList.flatMap fun cs => (t.rebuild? cs).toOption.toList := by
  refine made_of_makes ((LooksUp.term m.arena t).makes fun t => ?_)
  exact (LooksUp.terms m.arena cs).makes fun cs => .orRefuse .build (t.rebuild? cs)

open Building in
theorem made_instantiate (m : Manager) (t : Nat) (bs : List (Nat × Nat)) :
    m.made (.instantiate t bs) = (m.arena.term? t).toList.flatMap fun t =>
      (bs.mapM m.arena.binding?).toList.flatMap fun bs => t.instantiateBuilds bs ++ [t.instantiate bs] := by
  refine made_of_makes ((LooksUp.term m.arena t).makes fun t => ?_)
  exact (LooksUp.bindings m.arena bs).makes fun bs => .note _ _

open Building in
theorem made_rewrite (m : Manager) (pattern : Nat) (free : List Nat) (replacement target : Nat) :
    m.made (.rewrite pattern free replacement target) = (m.arena.term? pattern).toList.flatMap fun p =>
      (free.mapM m.arena.term?).toList.flatMap fun xs => (m.arena.term? replacement).toList.flatMap fun r =>
        (m.arena.term? target).toList.flatMap fun t =>
          Rule.replaceAllBuilds ⟨p, xs, r⟩ t ++ [Rule.apply ⟨p, xs, r⟩ t] := by
  refine made_of_makes ((LooksUp.term m.arena pattern).makes fun p => ?_)
  refine (LooksUp.terms m.arena free).makes fun xs => (LooksUp.term m.arena replacement).makes fun r => ?_
  exact (LooksUp.term m.arena target).makes fun t => .note _ _

open Building in
theorem made_replace (m : Manager) (t old new : Nat) :
    m.made (.replace t old new) = (m.arena.term? t).toList.flatMap fun t =>
      (m.arena.term? old).toList.flatMap fun o => (m.arena.term? new).toList.flatMap fun n =>
        Rule.replaceAllBuilds ⟨o, [], n⟩ t ++ [Rule.apply ⟨o, [], n⟩ t] := by
  refine made_of_makes ((LooksUp.term m.arena t).makes fun t => ?_)
  refine (LooksUp.term m.arena old).makes fun o => (LooksUp.term m.arena new).makes fun n => .note _ _

/-- Whether an operation puts something else than a variable where a term is bound. Operations that put quantified terms
together anew can. -/
def Rebinds (m : Manager) : Operation → Prop
  | .rebuild t cs => ∃ u, m.arena.term? t = some u ∧ ∃ us, m.arena.Denote cs us ∧ u.RebindsWith us
  | .instantiate t bs => ∃ u, m.arena.term? t = some u ∧ ∃ b, m.arena.DenoteBindings bs b ∧ u.Rebinds b
  | .rewrite pattern free replacement target =>
      ∃ p, m.arena.term? pattern = some p ∧ ∃ xs, m.arena.Denote free xs ∧ ∃ r, m.arena.term? replacement = some r ∧
        ∃ u, m.arena.term? target = some u ∧ Rule.Rebinds ⟨p, xs, r⟩ u
  | .replace t old new =>
      ∃ u, m.arena.term? t = some u ∧ ∃ o, m.arena.term? old = some o ∧ ∃ n, m.arena.term? new = some n ∧
        Rule.Rebinds ⟨o, [], n⟩ u
  | .before set _ handles =>
      ∃ s, m.arena.term? set = some s ∧ ∃ arrow, m.arena.arrow? handles = some arrow ∧
        ConditionalSet.RebindsBefore s arrow.statement m.names
  | _ => False

/-- An operation makes nothing that binds anything else than variables, if and only if it does not rebind. -/
theorem forall_made_iff (hm : m.arena.Holds ts) (hts : ∀ t ∈ ts, t.BindsVariables) (op : Operation) :
    (∀ t ∈ m.made op, t.BindsVariables) ↔ ¬m.Rebinds op := by
  have hterms := hm.forall_term? hts
  have hkept := isKeptBySets_bindsOnly (·.isVariable = true)
  have hreg : ∀ n o size, (Term.reg n o size).BindsVariables := fun _ _ _ => bindsOnly_leaf rfl
  cases op with
  | rebuild t cs =>
      simp only [made_rebuild, List.forall_mem_flatMap_toList, Rebinds, not_exists, not_and, Arena.denote_iff]
      refine forall₂_congr fun u hu => forall₂_congr fun us hus => ?_
      exact forall_rebuild?_iff (hterms t u hu) (Arena.forall_terms? hterms hus)
  | instantiate t bs =>
      simp only [made_instantiate, List.forall_mem_flatMap_toList, Rebinds, not_exists, not_and,
        Arena.denoteBindings_iff]
      refine forall₂_congr fun u hu => forall₂_congr fun b hb => ?_
      exact forall_instantiateBuilds_iff (Arena.forall_bindings? hterms hb) (hterms t u hu)
  | rewrite pattern free replacement target =>
      simp only [made_rewrite, List.forall_mem_flatMap_toList, Rebinds, not_exists, not_and, Arena.denote_iff]
      refine forall₂_congr fun p _ => forall₂_congr fun xs _ => forall₂_congr fun r hr => forall₂_congr fun u hu => ?_
      exact Rule.forall_replaceAllBuilds_iff (hterms replacement r hr) (hterms target u hu)
  | replace t old new =>
      simp only [made_replace, List.forall_mem_flatMap_toList, Rebinds, not_exists, not_and]
      refine forall₂_congr fun u hu => forall₂_congr fun o _ => forall₂_congr fun n hn => ?_
      exact Rule.forall_replaceAllBuilds_iff (hterms new n hn) (hterms t u hu)
  | before set options handles =>
      rcases m.refused_or_denoted set handles with hrefused | ⟨s, arrow, hset, harrow⟩
      · refine iff_of_true (by simp [made_before_refused hrefused]) ?_
        rintro ⟨s, hset, arrow, harrow, -⟩
        rcases hrefused with h | h
        · cases h.symm.trans hset
        · cases h.symm.trans harrow
      · obtain ⟨hguard, hstatement⟩ := Arena.forall_arrow? hterms harrow
        rw [made_before hset harrow]
        refine (ConditionalSet.forall_before_iff (hterms set s hset) options hguard hstatement m.names).trans ?_
        simp [Rebinds, hset, harrow]
  -- The operations that are left do not put anything in the place of a bound variable.
  | quantify q bound body =>
      exact iff_of_true (forall_made (keeps_results_quantify BindsVariables.quantify? bound body) hm hts).1 id
  | simplify t =>
      have hsimplify := keeps_results_simplify hkept.toIsHandedDown BindsVariables.simplify t
      exact iff_of_true (forall_made hsimplify hm hts).1 id
  | splitAliases t address value =>
      have hsplit := keeps_results_splitAliases hkept.toIsHandedDown BindsVariables.splitAliases t address value
      exact iff_of_true (forall_made hsplit hm hts).1 id
  | var n => exact iff_of_true (forall_made (.pure (List.forall_mem_singleton.2 (bindsOnly_leaf rfl))) hm hts).1 id
  | fresh stem => exact iff_of_true (made_fresh m stem ▸ List.forall_mem_singleton.2 (bindsOnly_leaf rfl)) id
  | parse text =>
      have hparse := keeps_results_parse hkept.toIsClosed (fun _ _ => bindsOnly_leaf rfl) hreg text
      exact iff_of_true (forall_made hparse hm hts).1 id
  | _ => exact iff_of_true (forall_made (keeps_results_of_sets hkept hreg rfl rfl) hm hts).1 id

/-- As long as the variables with marks are counted, passing a set backward does not rebind. -/
theorem not_rebinds_before (hm : m.arena.Holds ts) (hts : ∀ t ∈ ts, t.BindsVariables)
    (hcovers : ∀ t ∈ ts, m.names.Covers t) (set : Nat) (options : Options) (handles : ArrowHandles) :
    ¬m.Rebinds (.before set options handles) := by
  rintro ⟨s, hset, arrow, harrow, hrebinds⟩
  have hterms := hm.forall_term? hts
  have hcovered := hm.forall_term? hcovers
  have hstatement := (Arena.forall_arrow? hterms harrow).2
  refine ConditionalSet.not_rebindsBefore (hterms set s hset) hstatement (fun x hx => ?_) hrebinds
  obtain ⟨later, stem, hle, rfl⟩ := Statement.exists_take hx
  have hnew : ∀ t, m.names.Covers t → (later.take stem).1 ∉ t.subterms := fun t ht => (ht.mono hle).take_not_mem stem
  exact ⟨hnew s (hcovered set s hset), (Arena.forall_arrow? hcovered harrow).2.imp hnew⟩

/-- Operations one after the other store nothing that binds anything else than variables, if and only if none of them
rebinds. -/
theorem forall_run_iff (hm : m.arena.Holds ts) (hts : ∀ t ∈ ts, t.BindsVariables) {ops : List Operation}
    (hm' : (m.run ops).2.arena.Holds us) :
    (∀ u ∈ us, u.BindsVariables) ↔
      ∀ earlier op later, ops = earlier ++ op :: later → ¬(m.run earlier).2.Rebinds op := by
  induction ops generalizing m ts with
  | nil => exact iff_of_true (hm.unique hm' ▸ hts) fun earlier op later h => absurd h (by simp)
  | cons op ops ih =>
      obtain ⟨vs, hvs, -⟩ := holds_perform hm op
      obtain ⟨us', hus', hmore, -⟩ := holds_run hvs ops
      rw [run_cons] at hm'
      obtain rfl := hus'.unique hm'
      have hstep : (∀ t ∈ vs, t.BindsVariables) ↔ ¬m.Rebinds op := by
        have hsubterm {t u : Term} (ht : t.BindsVariables) : u ∈ t.subterms → u.BindsVariables :=
          (isKeptBySets_bindsOnly _).subterm ht
        rw [forall_perform_iff hsubterm hm op hvs, forall_made_iff hm hts op]
        exact and_iff_right hts
      by_cases hop : m.Rebinds op
      · refine iff_of_false (fun hall => ?_) fun hnone => hnone [] op ops rfl hop
        exact hstep.1 (fun t ht => hall t (hmore.subset ht)) hop
      · rw [ih hvs (hstep.2 hop) hm']
        constructor
        · intro hrest earlier op' later heq
          cases earlier with
          | nil =>
              obtain ⟨rfl, rfl⟩ := List.cons.inj heq
              exact hop
          | cons first earlier =>
              obtain ⟨rfl, rfl⟩ := List.cons.inj heq
              exact hrest earlier op' later rfl
        · intro hall earlier op' later heq
          exact hall (op :: earlier) op' later (heq ▸ rfl)

/-- As long as the variables with marks are counted, it is only by replacing parts of terms that an operation is the
first to rebind. -/
theorem not_rebinds_of_replacing (hm : m.arena.Holds ts) (hts : ∀ t ∈ ts, t.BindsVariables)
    (hcovers : ∀ t ∈ ts, m.names.Covers t) {ops : List Operation}
    (hnames : ∀ name, .var name ∈ ops → '#' ∉ name.toList)
    (h : ∀ earlier op later, ops = earlier ++ op :: later → op.isReplacing = true → ¬(m.run earlier).2.Rebinds op)
    (earlier : List Operation) :
    ∀ op later, ops = earlier ++ op :: later → ¬(m.run earlier).2.Rebinds op := by
  induction hlength : earlier.length using Nat.strong_induction_on generalizing earlier with
  | _ n ih =>
      intro op later heq
      cases op with
      | before set options handles =>
          obtain ⟨us, hus, hcovered⟩ := covers_run hm hcovers fun name hname =>
            hnames name (heq ▸ List.mem_append_left _ hname)
          refine not_rebinds_before hus ((forall_run_iff hm hts hus).2 ?_) hcovered set options handles
          -- What is done before an earlier operation is shorter.
          rintro earlier' op' later' rfl
          exact ih earlier'.length (by simp [← hlength]) earlier' rfl op' _ (heq.trans (List.append_assoc _ _ _))
      | rebuild _ _ | instantiate _ _ | rewrite _ _ _ _ | replace _ _ _ => exact h earlier _ later heq rfl
      | _ => exact id

/-- Quantifiers bind variables, where nothing is rebound. A manager of any admitted width is created, and whatever
operations are carried out on it one after the other, also such as are refused half way, every quantified node of its
arena binds a variable if and only if none of the operations rebinds. If no operation brings in a variable with a mark
in its name, only those need be looked at that replace parts of terms. -/
theorem quantifiers_bind_variables_iff {bits : Nat} (h : bits ≤ 31) (ops : List Operation) :
    ∃ created handles m, Manager.new bits = .ok created ∧ created.run ops = (handles, m) ∧
      (m.arena.BindsVariables ↔
        ∀ earlier op later, ops = earlier ++ op :: later → ¬(created.run earlier).2.Rebinds op) ∧
      ((∀ name, .var name ∈ ops → '#' ∉ name.toList) →
        (m.arena.BindsVariables ↔
          ∀ earlier op later, ops = earlier ++ op :: later → op.isReplacing = true →
            ¬(created.run earlier).2.Rebinds op)) := by
  obtain ⟨created, ts, hcreated, -, hts, hnew⟩ := exists_new h
  obtain ⟨us, hus, -⟩ := holds_run hts ops
  have hbound : ∀ t ∈ ts, t.BindsVariables := fun t ht => property_of_mem_new (isKeptBySets_bindsOnly _) (hnew t ht)
  have hcovered : ∀ t ∈ ts, created.names.Covers t := fun t ht =>
    property_of_mem_new (Fresh.isMarked_covers _).toIsKeptBySets (hnew t ht)
  have hrun := hus.bindsVariables_iff.trans (forall_run_iff hts hbound hus)
  refine ⟨created, _, _, hcreated, rfl, hrun, fun hnames => hrun.trans ⟨?_, ?_⟩⟩
  · exact fun hall earlier op later heq _ => hall earlier op later heq
  · exact not_rebinds_of_replacing hts hbound hcovered hnames

/-- A quantified term is rebuilt, over its other variable and then over a constant. -/
def reboundQuantifier : List Operation :=
  [.var "a", .var "b", .quantify .universal 4 5, .rebuild 6 [5, 4], .const 1, .rebuild 6 [8, 4]]

/-- The first of the two keeps a variable bound. The second rebinds. -/
theorem quantifiers_bind_variables_rebound :
    0 ≤ 31 ∧ (∀ name, .var name ∈ reboundQuantifier → '#' ∉ name.toList) ∧
      ∃ created m, Manager.new 0 = .ok created ∧ created.run reboundQuantifier = ([4, 5, 6, 7, 8, 9], m) ∧
        m.arena.term? 7 = some (.quantified .universal (.var "b") (.var "a")) ∧
        m.arena.term? 9 = some (.quantified .universal (.const 1) (.var "a")) ∧
        (m.arena.BindsVariables ↔
          ∀ earlier op later, reboundQuantifier = earlier ++ op :: later → ¬(created.run earlier).2.Rebinds op) ∧
        (m.arena.BindsVariables ↔
          ∀ earlier op later, reboundQuantifier = earlier ++ op :: later → op.isReplacing = true →
            ¬(created.run earlier).2.Rebinds op) ∧
        (created.run (reboundQuantifier.take 5)).2.Rebinds (.rebuild 6 [8, 4]) := by
  have hnames : ∀ name, .var name ∈ reboundQuantifier → '#' ∉ name.toList := by
    intro name hname
    simp only [reboundQuantifier, List.mem_cons, reduceCtorEq, Operation.var.injEq, List.not_mem_nil, or_false] at hname
    rcases hname with rfl | rfl <;> decide
  have hbuilt : (Manager.new 0).map (fun created => ((created.run reboundQuantifier).1,
      [7, 9].map (created.run reboundQuantifier).2.arena.term?,
      [6, 8, 4].map (created.run (reboundQuantifier.take 5)).2.arena.term?)) =
        .ok ([4, 5, 6, 7, 8, 9],
          [some (.quantified .universal (.var "b") (.var "a")), some (.quantified .universal (.const 1) (.var "a"))],
          [some (.quantified .universal (.var "a") (.var "b")), some (.const 1), some (.var "a")]) := by
    decide +kernel
  obtain ⟨created, handles, m, hcreated, hrun, hall, hreplacing⟩ :=
    quantifiers_bind_variables_iff (Nat.zero_le 31) reboundQuantifier
  rw [hcreated, Except.map, hrun, Except.ok.injEq, Prod.mk.injEq, Prod.mk.injEq] at hbuilt
  obtain ⟨rfl, hafter, hbefore⟩ := hbuilt
  simp only [List.map_cons, List.map_nil, List.cons.injEq, and_true] at hafter hbefore
  obtain ⟨hquantified, hconstant, hvariable⟩ := hbefore
  refine ⟨Nat.zero_le 31, hnames, created, m, hcreated, hrun, hafter.1, hafter.2, hall, hreplacing hnames, ?_⟩
  exact ⟨_, hquantified, [.const 1, .var "a"], .cons hconstant (.cons hvariable .nil),
    .universal, .var "a", .var "b", .const 1, .var "a", [], rfl, rfl, rfl⟩

/-- After these operations a constant is bound. -/
theorem constant_bound :
    ∃ created handles m, Manager.new 0 = .ok created ∧ created.run reboundQuantifier = (handles, m) ∧
      ¬m.arena.BindsVariables := by
  refine ⟨_, _, _, rfl, rfl, ?_⟩
  refine Arena.not_bindsVariables (i := 9) (x := 8) (b := 4) (q := .universal) (n := .const 1) ?_ ?_ ?_
  · decide +kernel
  · decide +kernel
  · exact nofun

end Manager
end Backslice
